import Mathlib.Data.Finset.SymmDiff
import Mathlib.Data.Fintype.Prod
import Chip8.Screen.Lemmas

/-! Where sprites lie on the screen. Each set bit of a byte flips the one pixel that it covers, or
none if that lies past an edge, whatever else is drawn. So the order of drawings plays no part, two
equal ones undo each other, and the number of lit pixels tells how many of them went dark. -/

namespace Chip8

namespace Screen

/-- A set bit of the sprite lies over the pixel. The corner wraps around the screen; rows and
columns are counted from there on and do not. -/
def Covers (x y : UInt8) (bytes : List UInt8) (row : Fin 32) (column : Fin 64) : Prop :=
  y.toNat % 32 ≤ row.val ∧ x.toNat % 64 ≤ column.val ∧ column.val < x.toNat % 64 + 8 ∧
    ∃ h : row.val - y.toNat % 32 < bytes.length,
      bytes[row.val - y.toNat % 32].toNat.testBit (7 - (column.val - x.toNat % 64)) = true

instance (x y : UInt8) (bytes : List UInt8) (row : Fin 32) (column : Fin 64) :
    Decidable (Covers x y bytes row column) :=
  inferInstanceAs (Decidable (_ ∧ _ ∧ _ ∧ _))

variable {s : Screen} {x y : UInt8} {bytes : List UInt8} {row : Fin 32} {column : Fin 64}

/-- A bit lies as far from the corner as it does in the sprite, so none wraps around an edge. -/
theorem covers_iff :
    Covers x y bytes row column ↔ ∃ d b, ∃ h : d < bytes.length, b < 8 ∧
      row.val = y.toNat % 32 + d ∧ column.val = x.toNat % 64 + b ∧
      bytes[d].toNat.testBit (7 - b) = true := by
  constructor
  · rintro ⟨below, right, near, h, set⟩
    exact ⟨row - y.toNat % 32, column - x.toNat % 64, h, by omega, by omega, by omega, set⟩
  · rintro ⟨d, b, h, near, down, along, set⟩
    have hd : row.val - y.toNat % 32 = d := by omega
    have hb : column.val - x.toNat % 64 = b := by omega
    refine ⟨by omega, by omega, by omega, hd ▸ h, ?_⟩
    simpa only [hd, hb] using set

theorem pixel_sprite_iff :
    (sprite x y bytes).pixel row column = true ↔ Covers x y bytes row column := by
  rw [pixel_sprite, getMsbD_toBitVec]
  simp only [Bool.and_eq_true, decide_eq_true_eq, Covers]
  constructor
  · rintro ⟨⟨below, right⟩, near, set⟩
    refine ⟨below, right, by omega, ?_⟩
    by_cases h : row.val - y.toNat % 32 < bytes.length
    · rw [List.getElem?_eq_getElem h] at set
      exact ⟨h, set⟩
    · rw [List.getElem?_eq_none (Nat.not_lt.mp h)] at set
      simp at set
  · rintro ⟨below, right, near, h, set⟩
    refine ⟨⟨below, right⟩, by omega, ?_⟩
    rw [List.getElem?_eq_getElem h]
    exact set

theorem pixel_draw_eq :
    (s.draw x y bytes).1.pixel row column =
      (s.pixel row column ^^ decide (Covers x y bytes row column)) := by
  rw [pixel_draw]
  congr 1
  rw [Bool.eq_iff_iff, pixel_sprite_iff, decide_eq_true_iff]

theorem collides_iff (s : Screen) (x y : UInt8) (bytes : List UInt8) :
    (s.draw x y bytes).2 = true ↔
      ∃ row column, s.pixel row column = true ∧ (s.draw x y bytes).1.pixel row column = false := by
  have put_out (row : Fin 32) (column : Fin 64) :
      s.pixel row column = true ∧ (s.draw x y bytes).1.pixel row column = false ↔
        s.pixel row column = true ∧ (sprite x y bytes).pixel row column = true := by
    rw [pixel_draw]
    refine and_congr_right fun lit => ?_
    simp [lit]
  simp only [put_out]
  exact collision_draw_iff s x y bytes

theorem changed_draw_iff :
    (s.draw x y bytes).1.pixel row column ≠ s.pixel row column ↔ Covers x y bytes row column := by
  rw [pixel_draw_eq]
  by_cases covered : Covers x y bytes row column <;> simp [covered]

theorem draw_flips_covered (s : Screen) (x y : UInt8) (bytes : List UInt8) :
    (∀ row column, (s.draw x y bytes).1.pixel row column =
      (s.pixel row column ^^ decide (Covers x y bytes row column))) ∧
    (∀ row column, (s.draw x y bytes).1.pixel row column ≠ s.pixel row column ↔
      ∃ d b, ∃ h : d < bytes.length, b < 8 ∧
        row.val = y.toNat % 32 + d ∧ column.val = x.toNat % 64 + b ∧
        bytes[d].toNat.testBit (7 - b) = true) ∧
    ((s.draw x y bytes).2 = true ↔
      ∃ row column, s.pixel row column = true ∧
        (s.draw x y bytes).1.pixel row column = false) := by
  refine ⟨fun row column => pixel_draw_eq, ?_, collides_iff s x y bytes⟩
  intro row column
  exact changed_draw_iff.trans covers_iff

end Screen

structure Drawing where
  x : UInt8
  y : UInt8
  bytes : List UInt8
  deriving DecidableEq, Repr

namespace Screen

variable {s t : Screen} {x y : UInt8} {bytes : List UInt8}

def drawEach (s : Screen) (drawings : List Drawing) : Screen :=
  drawings.foldl (fun s d => (s.draw d.x d.y d.bytes).1) s

/-- Of the place only the corner counts that it comes to on the screen. -/
theorem sprite_eq_sprite {x' y' : UInt8} (hx : x.toNat % 64 = x'.toNat % 64)
    (hy : y.toNat % 32 = y'.toNat % 32) (bytes : List UInt8) :
    sprite x y bytes = sprite x' y' bytes := by
  simp only [sprite, hx, hy]

theorem drawEach_perm {drawings others : List Drawing} (h : drawings.Perm others) (s : Screen) :
    s.drawEach drawings = s.drawEach others := by
  apply h.foldl_eq'
  intro d _ e _ s
  simp only [draw_eq]
  exact s.xor_right_comm (sprite d.x d.y d.bytes) (sprite e.x e.y e.bytes)

theorem drawEach_cons_cons {d e : Drawing} (hx : d.x.toNat % 64 = e.x.toNat % 64)
    (hy : d.y.toNat % 32 = e.y.toNat % 32) (hb : d.bytes = e.bytes) (s : Screen)
    (rest : List Drawing) : s.drawEach (d :: e :: rest) = s.drawEach rest := by
  have undone : ((s.draw d.x d.y d.bytes).1.draw e.x e.y e.bytes).1 = s := by
    simp only [draw_eq]
    rw [sprite_eq_sprite hx hy, hb]
    exact s.xor_xor_self _
  exact congrArg (drawEach · rest) undone

/-- Two equal drawings can be brought side by side, where they undo each other. -/
theorem drawEach_of_twins {d e : Drawing} (hx : d.x.toNat % 64 = e.x.toNat % 64)
    (hy : d.y.toNat % 32 = e.y.toNat % 32) (hb : d.bytes = e.bytes) (s : Screen)
    (before between after : List Drawing) :
    s.drawEach (before ++ d :: (between ++ e :: after)) =
      s.drawEach (before ++ (between ++ after)) := by
  have second : (before ++ (between ++ e :: after)).Perm (e :: (before ++ (between ++ after))) := by
    rw [← List.append_assoc, ← List.append_assoc]
    exact List.perm_middle
  have both := List.perm_middle.trans (second.cons d)
  rw [drawEach_perm both]
  exact drawEach_cons_cons hx hy hb s _

def lit (s : Screen) : Finset (Fin 32 × Fin 64) :=
  Finset.univ.filter fun p => s.pixel p.1 p.2 = true

@[simp] theorem mem_lit {p : Fin 32 × Fin 64} : p ∈ s.lit ↔ s.pixel p.1 p.2 = true := by
  simp [lit]

theorem lit_xor (s t : Screen) : (s.xor t).lit = symmDiff s.lit t.lit := by
  ext p
  rw [Finset.mem_symmDiff]
  cases hs : s.pixel p.1 p.2 <;> cases ht : t.pixel p.1 p.2 <;> simp [hs, ht]

theorem card_lit_xor (s t : Screen) :
    (s.xor t).lit.card + 2 * (s.lit ∩ t.lit).card = s.lit.card + t.lit.card := by
  have apart : Disjoint (s.lit \ t.lit) (t.lit \ s.lit) := disjoint_sdiff_sdiff
  have left := Finset.card_sdiff_add_card_inter s.lit t.lit
  have right := Finset.card_sdiff_add_card_inter t.lit s.lit
  rw [Finset.inter_comm] at right
  rw [lit_xor, symmDiff_def, Finset.sup_eq_union, Finset.card_union_of_disjoint apart]
  omega

/-- The set bits of a sprite that lie on the screen, each by its row and its column in the sprite. -/
def shown (x y : UInt8) (bytes : List UInt8) : Finset (Fin bytes.length × Fin 8) :=
  Finset.univ.filter fun bit =>
    (bytes.get bit.1).toNat.testBit (7 - bit.2.val) = true ∧
      y.toNat % 32 + bit.1.val < 32 ∧ x.toNat % 64 + bit.2.val < 64

def under (x y : UInt8) (bit : Fin bytes.length × Fin 8) : Fin 32 × Fin 64 :=
  (.ofNat 32 (y.toNat % 32 + bit.1.val), .ofNat 64 (x.toNat % 64 + bit.2.val))

def struck (s : Screen) (x y : UInt8) (bytes : List UInt8) : Finset (Fin bytes.length × Fin 8) :=
  (shown x y bytes).filter fun bit => s.pixel (under x y bit).1 (under x y bit).2 = true

theorem val_under {bit : Fin bytes.length × Fin 8} (h : bit ∈ shown x y bytes) :
    (under x y bit).1.val = y.toNat % 32 + bit.1.val ∧
      (under x y bit).2.val = x.toNat % 64 + bit.2.val := by
  simp only [shown, Finset.mem_filter, Finset.mem_univ, true_and] at h
  obtain ⟨-, down, along⟩ := h
  exact ⟨Nat.mod_eq_of_lt down, Nat.mod_eq_of_lt along⟩

theorem injOn_under : Set.InjOn (under x y) (shown x y bytes : Set (Fin bytes.length × Fin 8)) := by
  intro bit h other h' same
  obtain ⟨down, along⟩ := val_under h
  obtain ⟨down', along'⟩ := val_under h'
  rw [same] at down along
  apply Prod.ext
  · exact Fin.ext (by omega)
  · exact Fin.ext (by omega)

/-- The bits on the screen stand for the pixels that the sprite lights. -/
theorem image_shown (x y : UInt8) (bytes : List UInt8) :
    (shown x y bytes).image (under x y) = (sprite x y bytes).lit := by
  ext p
  rw [mem_lit, pixel_sprite_iff, covers_iff, Finset.mem_image]
  constructor
  · rintro ⟨bit, h, rfl⟩
    obtain ⟨down, along⟩ := val_under h
    simp only [shown, Finset.mem_filter, Finset.mem_univ, true_and] at h
    exact ⟨bit.1.val, bit.2.val, bit.1.isLt, bit.2.isLt, down, along, h.1⟩
  · rintro ⟨d, b, hd, hb, down, along, set⟩
    have h : ((⟨d, hd⟩, ⟨b, hb⟩) : Fin bytes.length × Fin 8) ∈ shown x y bytes := by
      simp only [shown, Finset.mem_filter, Finset.mem_univ, true_and]
      exact ⟨set, down ▸ p.1.isLt, along ▸ p.2.isLt⟩
    obtain ⟨down', along'⟩ := val_under h
    refine ⟨_, h, Prod.ext ?_ ?_⟩
    · exact Fin.ext (down'.trans down.symm)
    · exact Fin.ext (along'.trans along.symm)

theorem card_shown (x y : UInt8) (bytes : List UInt8) :
    (shown x y bytes).card = (sprite x y bytes).lit.card := by
  rw [← image_shown, Finset.card_image_of_injOn injOn_under]

theorem card_struck (s : Screen) (x y : UInt8) (bytes : List UInt8) :
    (struck s x y bytes).card = (s.lit ∩ (sprite x y bytes).lit).card := by
  have inj : Set.InjOn (under x y) (struck s x y bytes : Set (Fin bytes.length × Fin 8)) :=
    injOn_under.mono (Finset.coe_subset.mpr (Finset.filter_subset _ _))
  rw [← Finset.card_image_of_injOn inj, ← image_shown]
  congr 1
  ext p
  simp only [struck, Finset.mem_image, Finset.mem_filter, Finset.mem_inter, mem_lit]
  constructor
  · rintro ⟨bit, ⟨h, on⟩, rfl⟩
    exact ⟨on, bit, h, rfl⟩
  · rintro ⟨on, bit, h, rfl⟩
    exact ⟨bit, ⟨h, on⟩, rfl⟩

theorem card_lit_draw (s : Screen) (x y : UInt8) (bytes : List UInt8) :
    (s.draw x y bytes).1.lit.card + 2 * (struck s x y bytes).card =
      s.lit.card + (shown x y bytes).card := by
  rw [card_struck, card_shown, draw_eq]
  exact card_lit_xor s (sprite x y bytes)

theorem collides_iff_struck (s : Screen) (x y : UInt8) (bytes : List UInt8) :
    (s.draw x y bytes).2 = true ↔ 0 < (struck s x y bytes).card := by
  rw [card_struck, Finset.card_pos]
  refine (collision_draw_iff s x y bytes).trans ?_
  constructor
  · rintro ⟨row, column, on, covered⟩
    exact ⟨(row, column), Finset.mem_inter.mpr ⟨mem_lit.mpr on, mem_lit.mpr covered⟩⟩
  · rintro ⟨p, h⟩
    obtain ⟨on, covered⟩ := Finset.mem_inter.mp h
    exact ⟨p.1, p.2, mem_lit.mp on, mem_lit.mp covered⟩

theorem shown_nonempty_iff (x y : UInt8) (bytes : List UInt8) :
    (shown x y bytes).Nonempty ↔ ∃ row column, (sprite x y bytes).pixel row column = true := by
  rw [← Finset.image_nonempty (f := under x y), image_shown]
  constructor
  · rintro ⟨p, h⟩
    exact ⟨p.1, p.2, mem_lit.mp h⟩
  · rintro ⟨row, column, h⟩
    exact ⟨(row, column), mem_lit.mpr h⟩

/-- A pixel under a set bit is lit before the first drawing or before the second one. -/
theorem collides_once_or_twice (s : Screen) (x y : UInt8) (bytes : List UInt8) :
    (s.draw x y bytes).2 = true ∨ ((s.draw x y bytes).1.draw x y bytes).2 = true ↔
      (shown x y bytes).Nonempty := by
  rw [shown_nonempty_iff]
  constructor
  · rintro (h | h)
    · obtain ⟨row, column, -, covered⟩ := (collision_draw_iff ..).mp h
      exact ⟨row, column, covered⟩
    · obtain ⟨row, column, -, covered⟩ := (collision_draw_iff ..).mp h
      exact ⟨row, column, covered⟩
  · rintro ⟨row, column, covered⟩
    by_cases on : s.pixel row column = true
    · exact Or.inl ((collision_draw_iff ..).mpr ⟨row, column, on, covered⟩)
    · refine Or.inr ((collision_draw_iff ..).mpr ⟨row, column, ?_, covered⟩)
      rw [pixel_draw, covered]
      simpa using on

theorem drawings_add_up (s : Screen) :
    (∀ drawings others : List Drawing, drawings.Perm others →
      s.drawEach drawings = s.drawEach others) ∧
    (∀ (before between after : List Drawing) (d e : Drawing),
      d.x.toNat % 64 = e.x.toNat % 64 → d.y.toNat % 32 = e.y.toNat % 32 → d.bytes = e.bytes →
      s.drawEach (before ++ d :: (between ++ e :: after)) =
        s.drawEach (before ++ (between ++ after))) ∧
    ∀ (x y : UInt8) (bytes : List UInt8),
      (s.draw x y bytes).1.lit.card + 2 * (struck s x y bytes).card =
        s.lit.card + (shown x y bytes).card ∧
      ((s.draw x y bytes).2 = true ↔ 0 < (struck s x y bytes).card) := by
  refine ⟨?_, ?_, ?_⟩
  · intro drawings others h
    exact drawEach_perm h s
  · intro before between after d e hx hy hb
    exact drawEach_of_twins hx hy hb s before between after
  · intro x y bytes
    exact ⟨card_lit_draw s x y bytes, collides_iff_struck s x y bytes⟩

/-- A frame is drawn around the corner of the screen, partly over a line, and drawn again at a place
that comes to the same one. -/
theorem drawings_add_up_at_corner :
    let frame : Drawing := ⟨60, 30, [0xFF, 0x81, 0xFF]⟩
    let line : Drawing := ⟨58, 31, [0xFF]⟩
    let again : Drawing := ⟨124, 62, [0xFF, 0x81, 0xFF]⟩
    blank.drawEach [frame, line, again] = blank.drawEach [again, frame, line] ∧
      blank.drawEach [frame, line, again] = blank.drawEach [line] ∧
      ((blank.drawEach [line]).draw 60 30 [0xFF, 0x81, 0xFF]).2 = true := by
  intro frame line again
  obtain ⟨permuted, cancelled, -⟩ := drawings_add_up blank
  refine ⟨?_, ?_, by decide +kernel⟩
  · exact permuted [frame, line, again] [again, frame, line] (by decide)
  · exact cancelled [] [line] [] frame again (by decide) (by decide) rfl

end Screen

end Chip8
