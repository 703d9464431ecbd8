import Chip8.Proofs.Painting

/-! Bytes that are read at once and bytes that are read one by one. One comparison stands for all the
single reads and tells the first of them that is refused. Only where nothing is to be read the two
differ: there is no read that could be refused, and yet an address past the end of memory is. -/

namespace Chip8

namespace Memory

variable {m : Memory} {address : UInt16} {count : Nat}

def readEach (m : Memory) (address : UInt16) : Nat → Except Fault (List UInt8)
  | 0 => .ok []
  | count + 1 =>
    match m.read address with
    | .error fault => .error fault
    | .ok byte => (m.readEach (address + 1) count).map (byte :: ·)

/-- What so many single reads come to: all bytes in their order if every read passes, and otherwise
the fault of the first one that does not. No read passes behind the end of memory, so no sum of
addresses wraps around before a read is refused. -/
structure ReadsEach (m : Memory) (address : UInt16) (count : Nat)
    (result : Except Fault (List UInt8)) : Prop where
  passed : ∀ bytes, result = .ok bytes ↔ bytes.length = count ∧
    ∀ d (h : d < bytes.length), m.read (address + .ofNat d) = .ok bytes[d]
  refused : ∀ fault, result = .error fault ↔ ∃ d < count,
    (∀ e < d, ∃ byte, m.read (address + .ofNat e) = .ok byte) ∧
      m.read (address + .ofNat d) = .error fault

theorem readEach_succ_eq_ok_iff {bytes : List UInt8} :
    m.readEach address (count + 1) = .ok bytes ↔ ∃ byte rest, bytes = byte :: rest ∧
      m.read address = .ok byte ∧ m.readEach (address + 1) count = .ok rest := by
  simp only [readEach]
  cases m.read address with
  | error fault => simp
  | ok byte =>
    cases m.readEach (address + 1) count with
    | error fault => simp [Except.map]
    | ok rest => simp [Except.map, eq_comm]

theorem readEach_succ_eq_error_iff {fault : Fault} :
    m.readEach address (count + 1) = .error fault ↔ m.read address = .error fault ∨
      (∃ byte, m.read address = .ok byte) ∧ m.readEach (address + 1) count = .error fault := by
  simp only [readEach]
  cases m.read address with
  | error fault => simp
  | ok byte =>
    cases m.readEach (address + 1) count with
    | error fault => simp [Except.map]
    | ok rest => simp [Except.map]

theorem readEach_eq_ok_iff {bytes : List UInt8} :
    m.readEach address count = .ok bytes ↔ bytes.length = count ∧
      ∀ d (h : d < bytes.length), m.read (address + .ofNat d) = .ok bytes[d] := by
  induction count generalizing address bytes with
  | zero =>
    simp only [readEach, Except.ok.injEq, List.length_eq_zero_iff]
    constructor
    · rintro rfl
      exact ⟨rfl, fun d h => absurd h (Nat.not_lt_zero d)⟩
    · rintro ⟨rfl, -⟩
      rfl
  | succ count ih =>
    rw [readEach_succ_eq_ok_iff]
    constructor
    · rintro ⟨byte, rest, rfl, first, others⟩
      obtain ⟨length, each⟩ := ih.mp others
      refine ⟨congrArg (· + 1) length, ?_⟩
      intro d h
      cases d with
      | zero => exact address.add_zero.symm ▸ first
      | succ d =>
        rw [← add_ofNat_succ]
        exact each d (Nat.lt_of_succ_lt_succ h)
    · rintro ⟨length, each⟩
      cases bytes with
      | nil => cases length
      | cons byte rest =>
        have first : m.read (address + .ofNat 0) = .ok byte := each 0 (Nat.succ_pos _)
        refine ⟨byte, rest, rfl, address.add_zero ▸ first, ih.mpr ⟨Nat.succ.inj length, ?_⟩⟩
        intro d h
        rw [add_ofNat_succ]
        exact each (d + 1) (Nat.succ_lt_succ h)

theorem readEach_eq_error_iff {fault : Fault} :
    m.readEach address count = .error fault ↔ ∃ d < count,
      (∀ e < d, ∃ byte, m.read (address + .ofNat e) = .ok byte) ∧
        m.read (address + .ofNat d) = .error fault := by
  induction count generalizing address with
  | zero => simp [readEach]
  | succ count ih =>
    rw [readEach_succ_eq_error_iff, ih]
    constructor
    · rintro (refused | ⟨passed, d, listed, before, refused⟩)
      · exact ⟨0, Nat.succ_pos _, fun e h => absurd h (Nat.not_lt_zero e),
          address.add_zero.symm ▸ refused⟩
      · refine ⟨d + 1, Nat.succ_lt_succ listed, ?_, add_ofNat_succ address d ▸ refused⟩
        intro e h
        cases e with
        | zero => exact address.add_zero.symm ▸ passed
        | succ e => exact add_ofNat_succ address e ▸ before e (Nat.lt_of_succ_lt_succ h)
    · rintro ⟨d, listed, before, refused⟩
      cases d with
      | zero => exact Or.inl (address.add_zero ▸ refused)
      | succ d =>
        refine Or.inr ⟨?_, d, Nat.lt_of_succ_lt_succ listed, ?_, ?_⟩
        · exact address.add_zero ▸ before 0 (Nat.succ_pos _)
        · intro e h
          exact add_ofNat_succ address e ▸ before (e + 1) (Nat.succ_lt_succ h)
        · exact add_ofNat_succ address d ▸ refused

theorem readsEach_readEach (m : Memory) (address : UInt16) (count : Nat) :
    ReadsEach m address count (m.readEach address count) :=
  ⟨fun _ => readEach_eq_ok_iff, fun _ => readEach_eq_error_iff⟩

theorem toNat_succ_of_lt (h : address.toNat < 0x1000) :
    (address + 1).toNat = address.toNat + 1 := by
  simp only [UInt16.toNat_add, UInt16.reduceToNat]
  omega

theorem block_succ (m : Memory) (h : address.toNat < 0x1000) (count : Nat) :
    m.block address (count + 1) = m.bytes[address.toNat] :: m.block (address + 1) count := by
  have listed : address.toNat < m.bytes.toList.length := by rwa [Vector.length_toList]
  simp only [block]
  rw [List.drop_eq_getElem_cons listed, List.take_succ_cons, toNat_succ_of_lt h,
    Vector.getElem_toList]

theorem slice_succ_of_lt (m : Memory) (h : address.toNat < 0x1000) (count : Nat) :
    m.slice address (count + 1) =
      (m.slice (address + 1) count).map (m.bytes[address.toNat] :: ·) := by
  have next := toNat_succ_of_lt h
  by_cases fits : address.toNat + (count + 1) ≤ 0x1000
  · rw [slice_of_le m fits, slice_of_le m (by omega), block_succ m h]
    rfl
  · -- whichever of the addresses is the first one outside, it is the first one past the end
    rw [slice_of_lt m (by omega), slice_of_lt m (by omega), max_of_inside (by omega),
      max_of_inside (by omega)]
    rfl

theorem slice_eq_readEach (m : Memory) (h : 0 < count ∨ address.toNat ≤ 0x1000) :
    m.slice address count = m.readEach address count := by
  induction count generalizing address with
  | zero =>
    have inside : address.toNat ≤ 0x1000 := by omega
    rw [slice_of_le m (by omega), block, List.take_zero]
    rfl
  | succ count ih =>
    by_cases found : address.toNat < 0x1000
    · have next := toNat_succ_of_lt found
      rw [slice_succ_of_lt m found, ih (Or.inr (by omega)), readEach, read_of_lt m found]
    · have outside := Nat.not_lt.mp found
      rw [slice_of_lt m (by omega), max_of_outside outside, readEach, read_of_le m outside]

theorem slice_zero_of_lt (m : Memory) (h : 0x1000 < address.toNat) :
    m.slice address 0 = .error (.memory address) := by
  rw [slice_of_lt m h, max_of_outside (Nat.le_of_lt h)]

theorem exists_readEach_iff :
    (∃ bytes, m.readEach address count = .ok bytes) ↔
      ∀ d < count, ∃ byte, m.read (address + .ofNat d) = .ok byte := by
  constructor
  · rintro ⟨bytes, all⟩ d listed
    obtain ⟨length, each⟩ := readEach_eq_ok_iff.mp all
    exact ⟨_, each d (by omega)⟩
  · intro each
    cases result : m.readEach address count with
    | ok bytes => exact ⟨bytes, rfl⟩
    | error fault =>
      obtain ⟨d, listed, -, refused⟩ := readEach_eq_error_iff.mp result
      obtain ⟨byte, passed⟩ := each d listed
      cases refused.symm.trans passed

end Memory

namespace Machine

variable {m : Machine} {x y height : UInt8}

theorem fault_step_of_draw_iff (h : m.Executes (.draw x y height)) (input : Input)
    (inside : 0 < height.toNat ∨ m.index.toNat ≤ 0x1000) :
    (m.step input).fault = none ↔
      ∀ d < height.toNat, ∃ byte, m.memory.read (m.index + .ofNat d) = .ok byte := by
  rw [← Memory.exists_readEach_iff, ← m.memory.slice_eq_readEach inside]
  by_cases fits : m.index.toNat + height.toNat ≤ 0x1000
  · simp [(step_of_draw h fits input).1, m.memory.slice_of_le fits]
  · have exceeds := Nat.not_le.mp fits
    simp [(step_of_draw_refused h exceeds input).1, m.memory.slice_of_lt exceeds]

theorem fault_step_of_draw_outside (h : m.Executes (.draw x y height)) (input : Input)
    (outside : 0x1000 < m.index.toNat) : (m.step input).fault = some (.memory m.index) := by
  have exceeds : 0x1000 < m.index.toNat + height.toNat := by omega
  rw [(step_of_draw_refused h exceeds input).1, Memory.max_of_outside (Nat.le_of_lt outside)]

end Machine

namespace Memory

/-- What is refused although no single read would be are the slices of no bytes, and the sprites of
no rows, from an address behind the one that memory ends at. -/
theorem slice_reads_each_unless_empty (r : Machine) (input : Input) :
    (∀ (address : UInt16) (count : Nat), address.toNat + count < wordLimit →
      (0 < count ∨ address.toNat ≤ 0x1000 →
        ReadsEach r.memory address count (r.memory.slice address count)) ∧
      (0x1000 < address.toNat → r.memory.slice address 0 = .error (.memory address))) ∧
    ∀ x y height, r.Executes (.draw x y height) →
      (0 < height.toNat ∨ r.index.toNat ≤ 0x1000 →
        ((r.step input).fault = none ↔
          ∀ d < height.toNat, ∃ byte, r.memory.read (r.index + .ofNat d) = .ok byte)) ∧
      (0x1000 < r.index.toNat → (r.step input).fault = some (.memory r.index)) := by
  constructor
  · intro address count _
    refine ⟨fun h => ?_, r.memory.slice_zero_of_lt⟩
    rw [r.memory.slice_eq_readEach h]
    exact r.memory.readsEach_readEach address count
  · intro x y height h
    exact ⟨Machine.fault_step_of_draw_iff h input, Machine.fault_step_of_draw_outside h input⟩

/-- The last two bytes of memory, three bytes from there on, nothing at the end of memory, and as
many bytes as can be asked for. -/
theorem slice_reads_each_unless_empty_at_the_end :
    ReadsEach initial 0xFFE 2 (.ok [0, 0]) ∧
      ReadsEach initial 0xFFE 3 (.error (.memory 0x1000)) ∧
      ReadsEach initial 0x1000 0 (.ok []) ∧
      ReadsEach initial 1 (wordLimit - 2) (.error (.memory 0x1000)) := by
  have two : initial.slice 0xFFE 2 = .ok [0, 0] := by decide +kernel
  have three : initial.slice 0xFFE 3 = .error (.memory 0x1000) := by decide +kernel
  have none : initial.slice 0x1000 0 = .ok [] := by decide +kernel
  have most : initial.slice 1 (wordLimit - 2) = .error (.memory 0x1000) :=
    slice_of_lt initial (by decide)
  obtain ⟨reads, -⟩ := slice_reads_each_unless_empty (.blank {} (.replicate 8 0)) .silent
  refine ⟨?_, ?_, ?_, ?_⟩
  · exact two ▸ (reads 0xFFE 2 (by decide)).1 (by decide)
  · exact three ▸ (reads 0xFFE 3 (by decide)).1 (by decide)
  · exact none ▸ (reads 0x1000 0 (by decide)).1 (by decide)
  · exact most ▸ (reads 1 (wordLimit - 2) (by decide)).1 (by decide)

/-- The index is moved to the second address outside, and from there a sprite without rows is drawn.
Not one byte would have to be read for it. -/
theorem empty_slice_refused :
    let m := (Machine.boot ⟨#[0x60, 0x02, 0xAF, 0xFF, 0xF0, 0x1E, 0xD0, 0x00]⟩
      { seed := some 1 } (.replicate 8 0)).after.follow .silent (.replicate 3 .cycle)
    m.Executes (.draw 0 0 0) ∧ m.index = 0x1001 ∧ m.memory.readEach m.index 0 = .ok [] ∧
      m.memory.slice m.index 0 = .error (.memory 0x1001) ∧
      ¬ReadsEach m.memory m.index 0 (m.memory.slice m.index 0) ∧
      (m.step .silent).fault = some (.memory 0x1001) := by
  intro m
  have draws : m.Executes (.draw 0 0 0) := Machine.next?_eq_some_iff.mp (by decide +kernel)
  have index : m.index = 0x1001 := by decide +kernel
  have outside : 0x1000 < m.index.toNat := by rw [index]; decide
  have refused := m.memory.slice_zero_of_lt outside
  have fault := Machine.fault_step_of_draw_outside draws .silent outside
  refine ⟨draws, index, rfl, index ▸ refused, ?_, index ▸ fault⟩
  intro reads
  obtain ⟨d, listed, -⟩ := (reads.refused _).mp refused
  exact Nat.not_lt_zero d listed

end Memory

end Chip8
