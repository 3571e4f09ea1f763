import BlockBasic.Proofs.Lexeme
import BlockBasic.Text.Blank
/-!
# UpperCase — texts in upper case

The classes of characters that a program is read by do not tell a letter from the same letter in upper case: they are
`Blind` to the case.  So to cut a text by such a class and to take it to upper case can be done in either order.
-/
namespace BlockBasic
namespace Text

/-! ## Letters -/

theorem toUpper_of_not_isLower {c : Char} (h : c.isLower = false) : c.toUpper = c := by
  unfold Char.toUpper
  rw [dif_neg]
  intro hc
  rw [isLower_iff.2 ⟨UInt32.le_iff_toNat_le.1 hc.1, UInt32.le_iff_toNat_le.1 hc.2⟩] at h
  cases h

theorem isUpper_toUpper {c : Char} (h : c.isLower = true) : c.toUpper.isUpper = true := by
  cases hu : c.toUpper.isUpper with
  | true => rfl
  | false =>
    -- a character in upper case that is no upper-case letter was not changed
    have hc : c = c.toUpper := toUpper_eq_self rfl hu
    have h1 := isLower_iff.1 h
    have h2 : c.toUpper.toNat = c.toNat - 32 := by
      unfold Char.toUpper
      rw [dif_pos ⟨UInt32.le_iff_toNat_le.2 h1.1, UInt32.le_iff_toNat_le.2 h1.2⟩]
      change (c.val + ('A'.val - 'a'.val)).toNat = c.val.toNat - 32
      have h3 : c.val.toNat = c.toNat := rfl
      rw [UInt32.toNat_add, show ('A'.val - 'a'.val).toNat = 4294967264 from rfl]
      omega
    rw [← hc] at h2
    omega

theorem toUpper_of_isUpper {c : Char} (h : c.isUpper = true) : c.toUpper = c := by
  refine toUpper_of_not_isLower (Bool.eq_false_iff.2 fun hl => ?_)
  have h1 := isUpper_iff.1 h
  have h2 := isLower_iff.1 hl
  omega

theorem toUpper_toUpper (c : Char) : c.toUpper.toUpper = c.toUpper := by
  cases h : c.isLower with
  | false => rw [toUpper_of_not_isLower h, toUpper_of_not_isLower h]
  | true => exact toUpper_of_isUpper (isUpper_toUpper h)

theorem isAlpha_toUpper (c : Char) : c.toUpper.isAlpha = c.isAlpha := by
  cases h : c.isLower with
  | false => rw [toUpper_of_not_isLower h]
  | true => rw [isAlpha_iff.2 (.inl (isUpper_toUpper h)), isAlpha_iff.2 (.inr h)]

/-! ## Classes of characters -/

/-- **What does not tell a letter from the same in upper case.** -/
def Blind {α : Type} (p : Char → α) : Prop := ∀ c, p c.toUpper = p c

theorem blind_of_isAlpha {α : Type} {p : Char → α} (b : α) (h : ∀ c, c.isAlpha = true → p c = b) : Blind p := by
  intro c
  cases hl : c.isLower with
  | false => rw [toUpper_of_not_isLower hl]
  | true =>
    have hc : c.isAlpha = true := isAlpha_iff.2 (.inr hl)
    rw [h c hc, h _ ((isAlpha_toUpper c).trans hc)]

theorem blind_isAlpha : Blind Char.isAlpha := isAlpha_toUpper

theorem blind_beq {x : Char} (hx : x.isAlpha = false) : Blind (· == x) :=
  blind_of_isAlpha false fun c hc => beq_eq_false_iff_ne.2 (by
    rintro rfl
    rw [hc] at hx
    cases hx)

theorem Blind.or {p q : Char → Bool} (hp : Blind p) (hq : Blind q) : Blind (fun c => p c || q c) := by
  intro c
  simp only [hp c, hq c]

theorem Blind.not {p : Char → Bool} (hp : Blind p) : Blind (fun c => !p c) := by
  intro c
  simp only [hp c]

theorem toNat_of_isAlpha {c : Char} (h : c.isAlpha = true) : 65 ≤ c.toNat ∧ c.toNat ≤ 122 := by
  rw [isAlpha_iff, isUpper_iff, isLower_iff] at h
  omega

theorem isDigit_of_isAlpha {c : Char} (h : c.isAlpha = true) : c.isDigit = false := by
  have h1 := toNat_of_isAlpha h
  have h9 : ¬ c.val ≤ '9'.val := fun h2 => by
    have h3 : c.toNat ≤ 57 := UInt32.le_iff_toNat_le.1 h2
    omega
  rw [Char.isDigit, decide_eq_false h9, Bool.and_false]

theorem isAlpha_of_isDigit {c : Char} (h : c.isDigit = true) : c.isAlpha = false := by
  cases hc : c.isAlpha with
  | false => rfl
  | true =>
    rw [isDigit_of_isAlpha hc] at h
    cases h

theorem blind_isDigit : Blind Char.isDigit := blind_of_isAlpha false (fun _ => isDigit_of_isAlpha)

theorem blind_isBlank : Blind isBlank :=
  blind_of_isAlpha false fun c hc => by
    have h := toNat_of_isAlpha hc
    simp only [isBlank, inRanges, blankRanges, List.any_cons, List.any_nil, Bool.or_false, Bool.or_eq_false_iff,
      Bool.and_eq_false_iff, decide_eq_false_iff_not]
    omega

theorem blind_isBreak : Blind isBreak := (blind_beq (by decide)).or (blind_beq (by decide))

theorem toUpper_eq_iff {c x : Char} (hx : x.isAlpha = false) : c.toUpper = x ↔ c = x := by
  have h := blind_beq hx c
  rw [Bool.eq_iff_iff, beq_iff_eq, beq_iff_eq] at h
  exact h

/-! ## Texts -/

@[simp] theorem upper_cons (c : Char) (t : Text) : upper (c :: t) = c.toUpper :: upper t := rfl

@[simp] theorem upper_append (s t : Text) : upper (s ++ t) = upper s ++ upper t := List.map_append

theorem length_upper (t : Text) : t.upper.length = t.length := List.length_map _

theorem upper_upper (t : Text) : t.upper.upper = t.upper := by
  rw [upper, upper, List.map_map]
  exact List.map_congr_left fun c _ => toUpper_toUpper c

@[simp] theorem upper_eq_nil {t : Text} : t.upper = [] ↔ t = [] := List.map_eq_nil_iff

theorem alike_upper_left (s t : Text) : alike s.upper t = alike s t := by rw [alike, alike, upper_upper]

namespace Blind

variable {p : Char → Bool} (hp : Blind p)
include hp

theorem comp_toUpper : p ∘ Char.toUpper = p := funext hp

theorem takeWhile (t : Text) : t.upper.takeWhile p = upper (t.takeWhile p) := by
  rw [upper, List.takeWhile_map, hp.comp_toUpper, upper]

theorem dropWhile (t : Text) : t.upper.dropWhile p = upper (t.dropWhile p) := by
  rw [upper, List.dropWhile_map, hp.comp_toUpper, upper]

theorem filter (t : Text) : t.upper.filter p = upper (t.filter p) := by
  rw [upper, List.filter_map, hp.comp_toUpper, upper]

theorem any_head? (t : Text) : t.upper.head?.any p = t.head?.any p := by
  cases t with
  | nil => rfl
  | cons c t => exact hp c

theorem all_head? (t : Text) : t.upper.head?.all p = t.head?.all p := by
  cases t with
  | nil => rfl
  | cons c t => exact hp c

theorem dropTail (t : Text) : Text.dropTail p t.upper = (Text.dropTail p t).upper := by
  rw [Text.dropTail, upper, ← List.map_reverse, ← upper, hp.dropWhile, upper, ← List.map_reverse, ← upper, Text.dropTail]

end Blind

theorem chomp_upper (t : Text) : t.upper.chomp = t.chomp.upper := blind_isBreak.dropTail t

theorem trimStart_upper (t : Text) : t.upper.trimStart = t.trimStart.upper := blind_isBlank.dropWhile t

theorem trimEnd_upper (t : Text) : t.upper.trimEnd = t.trimEnd.upper := blind_isBlank.dropTail t

theorem trim_upper (t : Text) : t.upper.trim = t.trim.upper := by rw [trim, trim, trimStart_upper, trimEnd_upper]

end Text
end BlockBasic
