import Chip8.Memory

/-! Accesses to several bytes in a row. They fail exactly where they reach past the end of memory,
with the first address outside, and what they wrote before stays. No sum of addresses that they ask
for is ever too large. -/

namespace Chip8.Memory

variable {base distance : UInt16}

theorem max_of_outside {a : UInt16} (h : 0x1000 ≤ a.toNat) : max a 0x1000 = a := by
  have hm : max a 0x1000 = if a ≤ 0x1000 then 0x1000 else a := rfl
  rw [hm]
  split
  · rename_i hl
    have hl : a.toNat ≤ 0x1000 := UInt16.le_iff_toNat_le.mp hl
    exact UInt16.toNat_inj.mp (Nat.le_antisymm h hl)
  · rfl

theorem max_of_inside {a : UInt16} (h : a.toNat ≤ 0x1000) : max a 0x1000 = 0x1000 := by
  have hm : max a 0x1000 = if a ≤ 0x1000 then 0x1000 else a := rfl
  rw [hm, if_pos (UInt16.le_iff_toNat_le.mpr h)]

theorem word_of_lt (m : Memory) {a : UInt16} (h : a.toNat < 0xFFF) :
    m.word a = .ok (m.bytes[a.toNat].toUInt16 <<< 8 ||| m.bytes[a.toNat + 1].toUInt16) := by
  have hs : offset a 1 = .ok (a + 1) := offset_of_lt (by simp; omega)
  have hn : (a + 1).toNat = a.toNat + 1 := toNat_of_offset hs
  have hl : (a + 1).toNat < 0x1000 := by omega
  simp only [word]
  rw [m.read_of_lt (by omega : a.toNat < 0x1000), hs]
  simp only [m.read_of_lt hl, hn]

theorem word_of_le (m : Memory) {a : UInt16} (h : 0xFFF ≤ a.toNat) :
    m.word a = .error (.memory (max a 0x1000)) := by
  simp only [word]
  by_cases ha : 0x1000 ≤ a.toNat
  · rw [m.read_of_le ha, max_of_outside ha]
  · obtain rfl : a = 0xFFF := UInt16.toNat_inj.mp (by simp; omega)
    rw [m.read_of_lt (by decide)]
    have hs : offset 0xFFF 1 = .ok 0x1000 := rfl
    have hr := m.read_of_le (a := 0x1000) (by decide)
    simp only [hs, hr]
    rfl

theorem length_of_slice {m : Memory} {a : UInt16} {n : Nat} {bytes : List UInt8}
    (h : m.slice a n = .ok bytes) : bytes.length = n := by
  simp only [slice] at h
  split at h
  · cases h
    exact List.length_ofFn
  · cases h

theorem getElem_of_slice {m : Memory} {a : UInt16} {n d : Nat} {bytes : List UInt8}
    (h : m.slice a n = .ok bytes) (hd : d < bytes.length) :
    ∃ ha : a.toNat + d < 0x1000, bytes[d] = m.bytes[a.toNat + d] := by
  have hl := length_of_slice h
  simp only [slice] at h
  split at h
  · cases h
    refine ⟨by omega, ?_⟩
    simp only [List.getElem_ofFn]
  · cases h

def overrun? (a : UInt16) (n : Nat) : Option Fault :=
  if n = 0 ∨ a.toNat + n ≤ 0x1000 then none else some (.memory (max a 0x1000))

theorem overrun?_zero (a : UInt16) : overrun? a 0 = none :=
  if_pos (Or.inl rfl)

theorem overrun?_of_pos (a : UInt16) {n : Nat} (h : 0 < n) :
    overrun? a n = if a.toNat + n ≤ 0x1000 then none else some (.memory (max a 0x1000)) := by
  simp only [overrun?, Nat.ne_of_gt h, false_or]

theorem overrun?_of_le {a : UInt16} (h : 0x1000 ≤ a.toNat) (n : Nat) :
    overrun? a (n + 1) = some (.memory a) := by
  have hn : ¬(n + 1 = 0 ∨ a.toNat + (n + 1) ≤ 0x1000) := by omega
  rw [overrun?, if_neg hn, max_of_outside h]

theorem overrun?_succ {a : UInt16} (h : a.toNat < 0x1000) (n : Nat) :
    overrun? a (n + 1) = overrun? (a + 1) n := by
  have hs : (a + 1).toNat = a.toNat + 1 := by
    simp only [UInt16.toNat_add, UInt16.reduceToNat]
    omega
  have hm : max (a + 1) 0x1000 = max a 0x1000 := by
    rw [max_of_inside (by omega), max_of_inside (by omega)]
  have hn : (n = 0 ∨ (a + 1).toNat + n ≤ 0x1000) ↔ n + 1 = 0 ∨ a.toNat + (n + 1) ≤ 0x1000 := by
    omega
  simp only [overrun?, hn, hm]

theorem toNat_add_succ (h : (base + distance).toNat < 0x1000)
    (hn : (base + distance).toNat = base.toNat + distance.toNat) :
    base.toNat + (distance + 1).toNat = base.toNat + distance.toNat + 1 := by
  simp only [UInt16.toNat_add, UInt16.reduceToNat] at h hn ⊢
  omega

section Store

variable (m : Memory) (byte : UInt8) (rest : List UInt8)
  (h : base.toNat + distance.toNat < 0x10000)
include h

theorem store_cons_of_lt (ha : (base + distance).toNat < 0x1000) :
    m.store base distance (byte :: rest) =
      (⟨m.bytes.set (base + distance).toNat byte ha⟩ : Memory).store base (distance + 1) rest := by
  rw [store, offset_of_lt h]
  simp only
  rw [m.write_of_lt byte ha]

theorem store_cons_of_le (ha : 0x1000 ≤ (base + distance).toNat) :
    m.store base distance (byte :: rest) = .failed m (.memory (base + distance)) := by
  rw [store, offset_of_lt h]
  simp only
  rw [m.write_of_le byte ha]

end Store

theorem fault_store (m : Memory) (bytes : List UInt8)
    (h : base.toNat + distance.toNat < 0x10000) :
    (m.store base distance bytes).fault = overrun? (base + distance) bytes.length := by
  induction bytes generalizing m distance with
  | nil => exact (overrun?_zero _).symm
  | cons byte rest ih =>
    have hn := toNat_of_offset (offset_of_lt h)
    by_cases ha : (base + distance).toNat < 0x1000
    · have hd := toNat_add_succ ha hn
      rw [store_cons_of_lt m byte rest h ha, ih _ (by omega), ← UInt16.add_assoc]
      exact (overrun?_succ ha rest.length).symm
    · have hl := Nat.not_lt.mp ha
      rw [store_cons_of_le m byte rest h hl]
      exact (overrun?_of_le hl rest.length).symm

theorem fault_store_zero (m : Memory) (base : UInt16) (bytes : List UInt8) :
    (m.store base 0 bytes).fault = overrun? base bytes.length := by
  have h : base.toNat + (0 : UInt16).toNat < 0x10000 := base.toNat_lt
  rw [fault_store m bytes h, UInt16.add_zero]

/-- Every byte that lies in memory is written, whether those behind it do or not. -/
theorem getElem_store (m : Memory) (bytes : List UInt8)
    (h : base.toNat + distance.toNat < 0x10000) (a : Nat) (ha : a < 0x1000) :
    (m.store base distance bytes).after.bytes[a] =
      if inside : base.toNat + distance.toNat ≤ a ∧
          a < base.toNat + distance.toNat + bytes.length then
        bytes[a - (base.toNat + distance.toNat)]
      else m.bytes[a] := by
  induction bytes generalizing m distance with
  | nil =>
    rw [dif_neg (by rw [List.length_nil]; omega)]
    rfl
  | cons byte rest ih =>
    have hn := toNat_of_offset (offset_of_lt h)
    by_cases hw : (base + distance).toNat < 0x1000
    · have hd := toNat_add_succ hw hn
      have hb : base.toNat + (distance + 1).toNat < 0x10000 := by omega
      have written := ih ⟨m.bytes.set (base + distance).toNat byte hw⟩ hb
      rw [← store_cons_of_lt m byte rest h hw] at written
      rw [written]
      simp only [List.length_cons]
      by_cases hin : base.toNat + (distance + 1).toNat ≤ a ∧
          a < base.toNat + (distance + 1).toNat + rest.length
      · rw [dif_pos hin, dif_pos (by omega)]
        have hi : a - (base.toNat + distance.toNat) =
            a - (base.toNat + (distance + 1).toNat) + 1 := by omega
        simp only [hi, List.getElem_cons_succ]
      · rw [dif_neg hin, Vector.getElem_set]
        by_cases he : (base + distance).toNat = a
        · rw [if_pos he, dif_pos (by omega)]
          have hi : a - (base.toNat + distance.toNat) = 0 := by omega
          simp only [hi, List.getElem_cons_zero]
        · rw [if_neg he, dif_neg (by omega)]
    · rw [dif_neg (by omega)]
      exact congrArg (·.after.bytes[a]) (store_cons_of_le m byte rest h (by omega))

theorem range_of_store {m : Memory} {bytes : List UInt8} {a : Nat} (ha : a < 0x1000)
    (h : (m.store base 0 bytes).after.bytes[a] ≠ m.bytes[a]) :
    base.toNat ≤ a ∧ a < base.toNat + bytes.length := by
  have hb : base.toNat + (0 : UInt16).toNat < 0x10000 := base.toNat_lt
  rw [m.getElem_store bytes hb a ha] at h
  split at h
  · rename_i inside
    exact inside
  · exact absurd rfl h

section Gather

variable (m : Memory) (count : Nat) (h : base.toNat + distance.toNat < 0x10000)
include h

theorem gather_succ_of_lt (ha : (base + distance).toNat < 0x1000) :
    m.gather base distance (count + 1) =
      (m.gather base (distance + 1) count).map (m.bytes[(base + distance).toNat] :: ·) := by
  rw [gather, offset_of_lt h]
  simp only
  rw [m.read_of_lt ha]

theorem gather_succ_of_le (ha : 0x1000 ≤ (base + distance).toNat) :
    m.gather base distance (count + 1) = .failed [] (.memory (base + distance)) := by
  rw [gather, offset_of_lt h]
  simp only
  rw [m.read_of_le ha]

end Gather

theorem fault_gather (m : Memory) (count : Nat) (h : base.toNat + distance.toNat < 0x10000) :
    (m.gather base distance count).fault = overrun? (base + distance) count := by
  induction count generalizing distance with
  | zero => exact (overrun?_zero _).symm
  | succ count ih =>
    have hn := toNat_of_offset (offset_of_lt h)
    by_cases ha : (base + distance).toNat < 0x1000
    · have hd := toNat_add_succ ha hn
      rw [gather_succ_of_lt m count h ha, overrun?_succ ha, UInt16.add_assoc]
      exact ih (by omega)
    · have hl := Nat.not_lt.mp ha
      rw [gather_succ_of_le m count h hl]
      exact (overrun?_of_le hl count).symm

theorem fault_gather_zero (m : Memory) (base : UInt16) (count : Nat) :
    (m.gather base 0 count).fault = overrun? base count := by
  have h : base.toNat + (0 : UInt16).toNat < 0x10000 := base.toNat_lt
  rw [fault_gather m count h, UInt16.add_zero]

theorem length_gather_le (m : Memory) (base distance : UInt16) (count : Nat) :
    (m.gather base distance count).after.length ≤ count := by
  induction count generalizing distance with
  | zero => exact Nat.le_refl 0
  | succ count ih =>
    simp only [gather]
    split
    · exact Nat.zero_le _
    · split
      · exact Nat.zero_le _
      · exact Nat.succ_le_succ (ih (distance + 1))

/-- Every byte that lies in memory is read, whether those behind it do or not. -/
theorem getElem?_gather (m : Memory) (count : Nat) (h : base.toNat + distance.toNat < 0x10000)
    (d : Nat) :
    (m.gather base distance count).after[d]? =
      if inside : d < count ∧ base.toNat + distance.toNat + d < 0x1000 then
        some m.bytes[base.toNat + distance.toNat + d]
      else none := by
  induction count generalizing distance d with
  | zero =>
    rw [dif_neg (by omega)]
    rfl
  | succ count ih =>
    have hn := toNat_of_offset (offset_of_lt h)
    by_cases ha : (base + distance).toNat < 0x1000
    · have hd := toNat_add_succ ha hn
      rw [gather_succ_of_lt m count h ha]
      cases d with
      | zero =>
        rw [dif_pos (by omega)]
        simp only [hn]
        rfl
      | succ d =>
        have he : base.toNat + distance.toNat + (d + 1) =
            base.toNat + (distance + 1).toNat + d := by omega
        simp only [he, Nat.add_lt_add_iff_right]
        exact ih (by omega) d
    · rw [gather_succ_of_le m count h (Nat.not_lt.mp ha), dif_neg (by omega)]
      rfl

theorem getElem_of_gather {m : Memory} {count d : Nat} {byte : UInt8}
    (h : base.toNat + distance.toNat < 0x10000)
    (hb : (m.gather base distance count).after[d]? = some byte) :
    ∃ ha : base.toNat + distance.toNat + d < 0x1000,
      m.bytes[base.toNat + distance.toNat + d] = byte := by
  rw [m.getElem?_gather count h] at hb
  split at hb
  · rename_i inside
    exact ⟨inside.2, Option.some.inj hb⟩
  · cases hb

theorem add_ofNat_succ (d : UInt16) (n : Nat) :
    d + 1 + UInt16.ofNat n = d + UInt16.ofNat (n + 1) := by
  rw [UInt16.ofNat_add, UInt16.add_assoc]
  congr 1
  exact UInt16.add_comm _ _

theorem store_append (m : Memory) (base distance : UInt16) (before rest : List UInt8)
    (h : (m.store base distance before).fault = none) :
    m.store base distance (before ++ rest) =
      (m.store base distance before).after.store base
        (distance + .ofNat before.length) rest := by
  induction before generalizing m distance with
  | nil => simp [store, Outcome.ok]
  | cons byte before ih =>
    simp only [List.cons_append, List.length_cons, store] at h ⊢
    cases hs : offset base distance with
    | error fault => simp [hs, Outcome.failed] at h
    | ok address =>
      simp only [hs] at h ⊢
      cases hw : m.write address byte with
      | error fault => simp [hw, Outcome.failed] at h
      | ok written =>
        simp only [hw] at h ⊢
        rw [ih written (distance + 1) h, add_ofNat_succ]

theorem gather_add (m : Memory) (base distance : UInt16) (count more : Nat)
    (h : (m.gather base distance count).fault = none) :
    m.gather base distance (count + more) =
      (m.gather base (distance + .ofNat count) more).map
        ((m.gather base distance count).after ++ ·) := by
  induction count generalizing distance with
  | zero => simp [gather, Outcome.ok, Outcome.map]
  | succ count ih =>
    rw [Nat.add_right_comm]
    simp only [gather] at h ⊢
    cases hs : offset base distance with
    | error fault => simp [hs, Outcome.failed] at h
    | ok address =>
      simp only [hs] at h ⊢
      cases hr : m.read address with
      | error fault => simp [hr, Outcome.failed] at h
      | ok byte =>
        simp only [hr] at h ⊢
        rw [ih (distance + 1) h, add_ofNat_succ]
        rfl

theorem offset_of_overrun? {n : Nat} (h : overrun? base n = none) :
    ∃ address, offset base (.ofNat n) = .ok address := by
  have hn : n = 0 ∨ base.toNat + n ≤ 0x1000 := by
    by_cases hn : n = 0 ∨ base.toNat + n ≤ 0x1000
    · exact hn
    · rw [overrun?, if_neg hn] at h
      cases h
  refine ⟨_, offset_of_lt ?_⟩
  have hb := base.toNat_lt
  rw [UInt16.toNat_ofNat']
  rcases hn with rfl | hn
  · exact hb
  · omega

theorem offset_of_read {m : Memory} {a : UInt16} {byte : UInt8} (h : m.read a = .ok byte) :
    ∃ next, offset a 1 = .ok next := by
  simp only [read] at h
  split at h
  · refine ⟨_, offset_of_lt ?_⟩
    simp only [UInt16.reduceToNat]
    omega
  · cases h

end Chip8.Memory
