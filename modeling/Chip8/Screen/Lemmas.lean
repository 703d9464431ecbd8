import Chip8.Screen

/-! The screen pixel by pixel. A drawing goes through the bits of its bytes and flips one pixel
after another; all of them together are a second screen, and the drawing lays that one over the
first at once. -/

namespace Chip8.Screen

/-- One row of a sprite, eight pixels wide from `column` on; the rest of the row is dark, and
what sticks out on the right is cut off. -/
def strip (column : Nat) (byte : UInt8) : BitVec 64 :=
  (byte.toBitVec.setWidth 64 <<< 56) >>> column

def sprite (x y : UInt8) (bytes : List UInt8) : Screen :=
  ⟨.ofFn fun row =>
    if y.toNat % 32 ≤ row then
      match bytes[row - y.toNat % 32]? with
      | some byte => strip (x.toNat % 64) byte
      | none => 0
    else 0⟩

def xor (s t : Screen) : Screen := ⟨s.rows.zipWith (· ^^^ ·) t.rows⟩

def overlaps (s t : Screen) : Bool := (s.rows.zipWith (· &&& ·) t.rows).any (· != 0)

theorem ext_pixel {s t : Screen} (h : ∀ row column, s.pixel row column = t.pixel row column) :
    s = t := by
  obtain ⟨rows⟩ := s
  obtain ⟨others⟩ := t
  congr 1
  ext row hr column hc
  have := h ⟨row, hr⟩ ⟨63 - column, by omega⟩
  simp only [pixel, BitVec.getMsbD, Fin.getElem_fin] at this
  have back : 64 - 1 - (63 - column) = column := by omega
  simp only [back, show 63 - column < 64 by omega, decide_true, Bool.true_and] at this
  simpa [BitVec.getLsbD_eq_getElem hc] using this

@[simp] theorem pixel_blank (row : Fin 32) (column : Fin 64) : blank.pixel row column = false := by
  simp [pixel, blank]

@[simp] theorem pixel_xor (s t : Screen) (row : Fin 32) (column : Fin 64) :
    (s.xor t).pixel row column = (s.pixel row column ^^ t.pixel row column) := by
  simp [pixel, xor]

theorem xor_right_comm (s t u : Screen) : (s.xor t).xor u = (s.xor u).xor t := by
  apply ext_pixel
  intro row column
  simp only [pixel_xor]
  exact Bool.xor_right_comm _ _ _

theorem xor_xor_self (s t : Screen) : (s.xor t).xor t = s := by
  apply ext_pixel
  intro row column
  simp

theorem getMsbD_toBitVec (byte : UInt8) (d : Nat) :
    byte.toBitVec.getMsbD d = (decide (d < 8) && byte.toNat.testBit (7 - d)) := by
  have back : 8 - 1 - d = 7 - d := rfl
  rw [BitVec.getMsbD, back]
  rfl

theorem shifted_eq_zero_iff (byte : UInt8) {bit : Nat} (h : bit < 8) :
    byte.toNat >>> (7 - bit) &&& 1 = 0 ↔ byte.toBitVec.getMsbD bit = false := by
  rw [getMsbD_toBitVec]
  simp [Nat.testBit, h, Nat.and_comm]

theorem getMsbD_strip (start column : Nat) (byte : UInt8) :
    (strip start byte).getMsbD column =
      (decide (start ≤ column ∧ column < 64) && byte.toBitVec.getMsbD (column - start)) := by
  unfold strip
  rw [BitVec.getMsbD_ushiftRight, BitVec.getMsbD_shiftLeft, BitVec.getMsbD_setWidth]
  by_cases before : column < start
  · simp [before, Nat.not_le.mpr before]
  · by_cases inside : column < 64
    · have : 64 - 8 ≤ column - start + 56 := by omega
      simp [before, inside, Nat.not_lt.mp before]
    · simp [inside]

/-- A sprite lights what its bytes say, eight pixels from its corner to the right and one row
for each byte down, and nothing else. -/
theorem pixel_sprite (x y : UInt8) (bytes : List UInt8) (row : Fin 32) (column : Fin 64) :
    (sprite x y bytes).pixel row column =
      (decide (y.toNat % 32 ≤ row ∧ x.toNat % 64 ≤ column) &&
        ((bytes[row - y.toNat % 32]?).getD 0).toBitVec.getMsbD (column - x.toNat % 64)) := by
  unfold pixel sprite
  simp only [Fin.getElem_fin, Vector.getElem_ofFn]
  by_cases below : y.toNat % 32 ≤ row
  · cases found : bytes[row.val - y.toNat % 32]? with
    | none => simp [below]
    | some byte => simp [below, getMsbD_strip, column.isLt]
  · simp [below]

theorem ne_zero_iff_getMsbD (bits : BitVec 64) :
    bits ≠ 0 ↔ ∃ column : Fin 64, bits.getMsbD column = true := by
  constructor
  · intro lit
    refine Classical.byContradiction fun dark => lit (BitVec.eq_of_getMsbD_eq fun column h => ?_)
    have off : bits.getMsbD column = false :=
      Bool.eq_false_iff.mpr fun on => dark ⟨⟨column, h⟩, on⟩
    simp [off]
  · rintro ⟨column, on⟩ zero
    simp [zero] at on

theorem overlaps_iff (s t : Screen) :
    s.overlaps t = true ↔ ∃ row column, s.pixel row column = true ∧ t.pixel row column = true := by
  unfold overlaps pixel
  simp only [Vector.any_eq_true, Vector.getElem_zipWith, bne_iff_ne, ne_zero_iff_getMsbD,
    BitVec.getMsbD_and, Bool.and_eq_true, Fin.getElem_fin]
  constructor
  · rintro ⟨row, hr, column, on⟩
    exact ⟨⟨row, hr⟩, column, on⟩
  · rintro ⟨row, column, on⟩
    exact ⟨row, row.isLt, column, on⟩

@[simp] theorem pixel_flip (s : Screen) (row r : Fin 32) (column c : Fin 64) :
    (s.flip row column).pixel r c = (s.pixel r c ^^ decide (r = row ∧ c = column)) := by
  simp only [pixel, flip, Fin.getElem_fin, Vector.getElem_set]
  by_cases here : r = row
  · subst here
    have place : (63 - column.val = 63 - c.val) ↔ c = column := by
      rw [Fin.ext_iff]
      omega
    have inside : 63 - column.val < 64 := by omega
    simp [BitVec.getMsbD, place, inside]
  · have apart : row.val ≠ r.val := fun h => here (Fin.ext h.symm)
    simp [apart, here]

def overlay (drawn : Screen × Bool) (t : Screen) : Screen × Bool :=
  (drawn.1.xor t, drawn.2 || drawn.1.overlaps t)

theorem overlay_blank (drawn : Screen × Bool) : overlay drawn blank = drawn := by
  have unchanged : drawn.1.xor blank = drawn.1 := ext_pixel fun row column => by simp
  have beside : drawn.1.overlaps blank = false := by simp [Bool.eq_false_iff, overlaps_iff]
  simp [overlay, unchanged, beside]

/-- Where the second layer is lit the first has left the screen alone. -/
theorem overlay_overlay {t u : Screen}
    (apart : ∀ row column, t.pixel row column = true → u.pixel row column = false)
    (drawn : Screen × Bool) : overlay (overlay drawn t) u = overlay drawn (t.xor u) := by
  have screens : (drawn.1.xor t).xor u = drawn.1.xor (t.xor u) :=
    ext_pixel fun row column => by simp
  have meets : drawn.1.overlaps (t.xor u) =
      (drawn.1.overlaps t || (drawn.1.xor t).overlaps u) := by
    rw [Bool.eq_iff_iff, Bool.or_eq_true, overlaps_iff, overlaps_iff, overlaps_iff, ← exists_or]
    refine exists_congr fun row => ?_
    rw [← exists_or]
    refine exists_congr fun column => ?_
    have := apart row column
    cases lit : t.pixel row column <;> simp_all
  simp only [overlay, screens, meets, Bool.or_assoc]

/-- Nothing but the pixel is lit on the layer that flips it. -/
theorem flip_eq_overlay (s : Screen) (collision : Bool) (row : Fin 32) (column : Fin 64) :
    (s.flip row column, collision || s.pixel row column) =
      overlay (s, collision) (blank.flip row column) := by
  have screens : s.flip row column = s.xor (blank.flip row column) :=
    ext_pixel fun r c => by simp
  have meets : s.overlaps (blank.flip row column) = s.pixel row column := by
    rw [Bool.eq_iff_iff, overlaps_iff]
    simp
  simp only [overlay, screens, meets]

theorem getMsbD_from (byte : UInt8) (start bit column : Nat) :
    (decide (start + bit ≤ column) && byte.toBitVec.getMsbD (column - start)) =
      (decide (column = start + bit) && byte.toBitVec.getMsbD bit ^^
        decide (start + (bit + 1) ≤ column) && byte.toBitVec.getMsbD (column - start)) := by
  rcases Nat.lt_trichotomy column (start + bit) with before | rfl | after
  · simp [Nat.not_le.mpr before, Nat.ne_of_lt before, show ¬start + (bit + 1) ≤ column by omega]
  · simp [show ¬start + (bit + 1) ≤ start + bit by omega]
  · simp [Nat.le_of_lt after, Nat.ne_of_gt after, show start + (bit + 1) ≤ column by omega]

/-- The last `n` bits of a byte, drawn one by one, are one layer that is lit where they are set. -/
theorem drawByte_eq_overlay (row : Fin 32) (start : Nat) (byte : UInt8) (n bit : Nat)
    (h : bit + n = 8) (drawn : Screen × Bool) :
    ∃ t, drawByte row start byte (List.range' bit n) drawn = overlay drawn t ∧
      ∀ r c, t.pixel r c = (decide (r = row) &&
        (decide (start + bit ≤ c.val) && byte.toBitVec.getMsbD (c - start))) := by
  induction n generalizing bit drawn with
  | zero =>
    refine ⟨blank, (overlay_blank drawn).symm, fun r c => ?_⟩
    by_cases right : start + bit ≤ c.val
    · simp [BitVec.getMsbD_of_ge byte.toBitVec (c - start) (by omega)]
    · simp [right]
  | succ n ih =>
    obtain ⟨s, collision⟩ := drawn
    have clear := shifted_eq_zero_iff byte (show bit < 8 by omega)
    rw [List.range'_succ, drawByte]
    by_cases inside : start + bit < 64
    · by_cases off : byte.toNat >>> (7 - bit) &&& 1 = 0
      · obtain ⟨t, same, lit⟩ := ih (bit + 1) (by omega) (s, collision)
        refine ⟨t, by simpa only [dif_pos inside, if_pos off] using same, fun r c => ?_⟩
        rw [lit, getMsbD_from byte start bit, clear.mp off, Bool.and_false, Bool.false_xor]
      · obtain ⟨t, same, lit⟩ := ih (bit + 1) (by omega)
          (overlay (s, collision) (blank.flip row ⟨start + bit, inside⟩))
        have on : byte.toBitVec.getMsbD bit = true :=
          Bool.of_not_eq_false fun zero => off (clear.mpr zero)
        refine ⟨(blank.flip row ⟨start + bit, inside⟩).xor t, ?_, fun r c => ?_⟩
        · rw [dif_pos inside, if_neg off, flip_eq_overlay, same, overlay_overlay]
          intro r c here
          simp only [pixel_flip, pixel_blank, Bool.false_xor, decide_eq_true_eq, Fin.ext_iff] at here
          have behind : ¬start + (bit + 1) ≤ c.val := by omega
          simp [lit, behind]
        · rw [pixel_xor, lit, getMsbD_from byte start bit, on]
          by_cases same_row : r = row <;> simp [same_row, Fin.ext_iff]
    · refine ⟨blank, by simp only [dif_neg inside, overlay_blank], fun r c => ?_⟩
      have outside : ¬start + bit ≤ c.val := by omega
      simp [outside]

/-- The rows of a sprite, drawn one by one, are one layer. -/
theorem drawBytes_eq_overlay (start row : Nat) (bytes : List UInt8) (drawn : Screen × Bool) :
    ∃ t, drawBytes start row bytes drawn = overlay drawn t ∧
      ∀ r c, t.pixel r c = (decide (row ≤ r.val ∧ start ≤ c.val) &&
        (bytes[r - row]?.getD 0).toBitVec.getMsbD (c - start)) := by
  induction bytes generalizing row drawn with
  | nil => exact ⟨blank, (overlay_blank drawn).symm, fun r c => by simp⟩
  | cons byte bytes ih =>
    rw [drawBytes]
    by_cases inside : row < 32
    · obtain ⟨t, first, lit⟩ := drawByte_eq_overlay ⟨row, inside⟩ start byte 8 0 rfl drawn
      obtain ⟨u, rest, below⟩ := ih (row + 1) (overlay drawn t)
      refine ⟨t.xor u, ?_, fun r c => ?_⟩
      · rw [dif_pos inside, List.range_eq_range', first, rest, overlay_overlay]
        intro r c here
        simp only [lit, Bool.and_eq_true, decide_eq_true_eq, Fin.ext_iff] at here
        have above : ¬row + 1 ≤ r.val := by omega
        simp [below, above]
      · rw [pixel_xor, lit, below]
        rcases Nat.lt_trichotomy r.val row with above | same_row | under
        · simp [Fin.ext_iff, Nat.ne_of_lt above, show ¬row ≤ r.val by omega,
            show ¬row + 1 ≤ r.val by omega]
        · have top : r.val - row = 0 := by omega
          simp [Fin.ext_iff, eq_true same_row, top, Nat.le_of_eq same_row.symm,
            show ¬row + 1 ≤ r.val by omega]
        · have next : r.val - row = r.val - (row + 1) + 1 := by omega
          simp [Fin.ext_iff, Nat.ne_of_gt under, next, Nat.le_of_lt under,
            show row + 1 ≤ r.val by omega]
    · refine ⟨blank, by rw [dif_neg inside, overlay_blank], fun r c => ?_⟩
      have outside : ¬row ≤ r.val := by omega
      simp [outside]

/-- The loops over rows and columns come to laying the whole sprite over the screen at once. -/
theorem draw_eq (s : Screen) (x y : UInt8) (bytes : List UInt8) :
    s.draw x y bytes = (s.xor (sprite x y bytes), s.overlaps (sprite x y bytes)) := by
  obtain ⟨t, drawn, lit⟩ := drawBytes_eq_overlay (x.toNat % 64) (y.toNat % 32) bytes (s, false)
  have layer : t = sprite x y bytes := ext_pixel fun row column => by rw [lit, pixel_sprite]
  calc s.draw x y bytes = overlay (s, false) t := drawn
    _ = (s.xor (sprite x y bytes), s.overlaps (sprite x y bytes)) := by
      rw [layer, overlay, Bool.false_or]

theorem pixel_draw (s : Screen) (x y : UInt8) (bytes : List UInt8) (row : Fin 32)
    (column : Fin 64) :
    (s.draw x y bytes).1.pixel row column =
      (s.pixel row column ^^ (sprite x y bytes).pixel row column) := by
  rw [draw_eq, pixel_xor]

theorem draw_draw_self (s : Screen) (x y : UInt8) (bytes : List UInt8) :
    ((s.draw x y bytes).1.draw x y bytes).1 = s := by
  rw [draw_eq, draw_eq]
  exact xor_xor_self _ _

/-- A drawing puts a pixel out exactly where the sprite lights a lit one. -/
theorem collision_draw_iff (s : Screen) (x y : UInt8) (bytes : List UInt8) :
    (s.draw x y bytes).2 = true ↔
      ∃ row column, s.pixel row column = true ∧ (sprite x y bytes).pixel row column = true := by
  rw [draw_eq]
  exact overlaps_iff s (sprite x y bytes)

/-- A drawing changes only pixels that the sprite covers, counted from its corner without going
around an edge. -/
theorem covered_of_changed_draw {s : Screen} {x y : UInt8} {bytes : List UInt8} {row : Fin 32}
    {column : Fin 64} (h : (s.draw x y bytes).1.pixel row column ≠ s.pixel row column) :
    ∃ d b, d < bytes.length ∧ b < 8 ∧ row.val = y.toNat % 32 + d ∧
      column.val = x.toNat % 64 + b := by
  have lit : (sprite x y bytes).pixel row column = true := by
    apply Bool.of_not_eq_false
    intro dark
    rw [pixel_draw, dark, Bool.xor_false] at h
    exact h rfl
  simp only [pixel_sprite, Bool.and_eq_true, decide_eq_true_eq] at lit
  obtain ⟨⟨below, right⟩, on⟩ := lit
  have hd : row.val - y.toNat % 32 < bytes.length := by
    apply Nat.lt_of_not_le
    intro hl
    rw [List.getElem?_eq_none hl] at on
    simp at on
  have hb := BitVec.lt_of_getMsbD on
  exact ⟨row - y.toNat % 32, column - x.toNat % 64, hd, hb, by omega, by omega⟩

end Chip8.Screen
