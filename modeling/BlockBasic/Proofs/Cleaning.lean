import BlockBasic.Proofs.Comments
import BlockBasic.Proofs.Declared
import BlockBasic.Proofs.Pieces
import BlockBasic.Proofs.UpperCase
/-!
# Cleaning — a line that is cleaned a second time

The code of a line has no blanks at its ends, and a comment begins nowhere in it as long as the rest of the line follows
(`clear_cut`).  Without the rest one can: whether `REM` is a word shows in the character after it, so a `REM` at the very
end, which went on as `REM'` or `REM:` in the line, is a remark in the code.  That is the only way, so a line can be
cleaned again exactly when its code does not end so (`cleaned_again_iff`).
-/
namespace BlockBasic

namespace Text

/-! ## Text without blanks at its ends -/

/-- **No blank is at an end** of the text. -/
def Trimmed (t : Text) : Prop := t.head?.all (fun c => !isBlank c) = true ∧ t.getLast?.all (fun c => !isBlank c) = true

theorem head?_dropWhile (p : Char → Bool) (t : Text) : (t.dropWhile p).head?.all (fun c => !p c) = true := by
  have h := List.head?_dropWhile_not p t
  cases hd : (t.dropWhile p).head? with
  | none   => rfl
  | some c =>
    rw [hd] at h
    rw [Option.all_some, h]
    rfl

theorem trimmed_trim (t : Text) : Trimmed (trim t) := by
  constructor
  · -- What is dropped at the end leaves the first character, unless it leaves nothing.
    obtain ⟨tail, hsplit, -⟩ := dropTail_split isBlank (trimStart t)
    have hstart := head?_dropWhile isBlank t
    rw [← trimStart, hsplit, List.head?_append] at hstart
    rw [trim, trimEnd]
    cases hd : (dropTail isBlank (trimStart t)).head? with
    | none   => rfl
    | some c => rwa [hd, Option.some_or] at hstart
  · rw [trim, trimEnd, dropTail, List.getLast?_reverse]
    exact head?_dropWhile isBlank _

theorem Trimmed.trim_eq_self {t : Text} (h : t.Trimmed) : trim t = t := by
  have hstart : trimStart t = t := by
    cases t with
    | nil       => rfl
    | cons c cs => exact List.dropWhile_cons_of_neg (by simpa [Trimmed] using h.1)
  rw [trim, hstart]
  exact dropTail_eq_self h.2

theorem Trimmed.chomp_eq_self {t : Text} (h : t.Trimmed) : chomp t = t := by
  refine dropTail_eq_self ?_
  have hlast := h.2
  cases hl : t.getLast? with
  | none   => rfl
  | some c =>
    rw [hl, Option.all_some, Bool.not_eq_true'] at hlast
    rw [Option.all_some, isBreak_of_not_isBlank hlast]
    rfl

theorem trimStart_append {t : Text} (h : trimStart t ≠ []) (rest : Text) :
    trimStart (t ++ rest) = trimStart t ++ rest := by
  rw [trimStart, List.dropWhile_append, if_neg (by rwa [List.isEmpty_iff]), trimStart]

theorem trimStart_blanks_append {gap : Text} (h : ∀ c ∈ gap, isBlank c = true) (t : Text) :
    trimStart (gap ++ t) = trimStart t := List.dropWhile_append_of_pos h

end Text

open Text (openAfter openAfter_append)

namespace Conventions

variable {o : Conventions}

/-! ## The word of a remark -/

theorem isRemark_iff {s : Text} : isRemark s = true ↔
    ∃ word rest, s = word ++ rest ∧ Text.alike word "REM".toList = true ∧ rest.head?.all Text.isBlank = true := by
  constructor
  · intro h
    match s, h with
    | a :: b :: c :: rest, h =>
      rw [isRemark, Bool.and_eq_true] at h
      exact ⟨[a, b, c], rest, rfl, h⟩
  · rintro ⟨word, rest, rfl, hword, hrest⟩
    have hlength : word.length = 3 := by
      have := congrArg List.length (Text.alike_iff.1 hword)
      rwa [Text.upper, List.length_map] at this
    obtain ⟨a, b, c, rfl⟩ := List.length_eq_three.1 hlength
    rw [List.cons_append, List.cons_append, List.cons_append, List.nil_append, isRemark, hword, hrest]
    rfl

theorem isRemark_of_alike {s : Text} (h : Text.alike s "REM".toList = true) : isRemark s = true :=
  isRemark_iff.2 ⟨s, [], (List.append_nil s).symm, h, rfl⟩

/-- A remark stops being one when something follows only if it is nothing but its word. -/
theorem alike_of_isRemark_append {s rest : Text} (h : isRemark s = true) (hrest : isRemark (s ++ rest) = false) :
    Text.alike s "REM".toList = true := by
  obtain ⟨word, behind, rfl, hword, hbehind⟩ := isRemark_iff.1 h
  cases behind with
  | nil       => rwa [List.append_nil]
  | cons c cs =>
    rw [List.append_assoc, isRemark_iff.2 ⟨word, c :: cs ++ rest, rfl, hword, hbehind⟩] at hrest
    cases hrest

/-- **A comment that begins in a text only when nothing follows** is a remark of which nothing but the word is left. -/
theorem startsComment_append {c : Char} {cs rest : Text} (h : o.startsComment c cs = true)
    (hrest : o.startsComment c (cs ++ rest) = false) :
    c = ':' ∧ o.remarks = true ∧ Text.alike cs.trimStart "REM".toList = true := by
  rw [startsComment, Bool.or_eq_false_iff] at hrest
  rw [startsComment, hrest.1, Bool.false_or, Bool.and_eq_true, Bool.and_eq_true, beq_iff_eq] at h
  obtain ⟨⟨rfl, hremarks⟩, hremark⟩ := h
  have hne : cs.trimStart ≠ [] := by
    intro hnil
    rw [hnil] at hremark
    cases hremark
  have hbehind := hrest.2
  rw [hremarks, beq_self_eq_true, Bool.true_and, Bool.true_and, Text.trimStart_append hne] at hbehind
  exact ⟨rfl, hremarks, alike_of_isRemark_append hremark hbehind⟩

/-! ## Where no comment begins -/

/-- **No comment begins in a text** when `rest` follows it; `inString` says whether a string is open before it. -/
def Clear (o : Conventions) (rest : Text) : (inString : Bool) → Text → Prop
  | _, []             => True
  | inString, c :: cs => (c ≠ '"' → inString = false → o.startsComment c (cs ++ rest) = false) ∧
      Clear o rest (openAfter inString [c]) cs

theorem clear_append {rest : Text} : ∀ {s t : Text} {b : Bool},
    o.Clear rest b (s ++ t) ↔ o.Clear (t ++ rest) b s ∧ o.Clear rest (openAfter b s) t
  | [], _, _ => by simp [Clear]
  | c :: s, t, b => by
    have hstep : openAfter b (c :: s) = openAfter (openAfter b [c]) s := openAfter_append b [c] s
    rw [List.cons_append, Clear, Clear, clear_append, hstep, and_assoc, List.append_assoc]

/-- **No comment begins in the part of a line before its comment**, with the rest of the line behind it. -/
theorem clear_cut (o : Conventions) : ∀ (t : Text) (b : Bool), ∃ rest, t = (o.cut b t).1 ++ rest ∧ o.Clear rest b (o.cut b t).1
  | [], _ => ⟨[], rfl, trivial⟩
  | c :: cs, b => by
    rw [cut]
    by_cases hc : c = '"'
    · obtain ⟨rest, hsplit, hclear⟩ := o.clear_cut cs (!b)
      rw [if_pos hc]
      refine ⟨rest, congrArg (c :: ·) hsplit, fun h => absurd hc h, ?_⟩
      rw [hc]
      exact hclear
    rw [if_neg hc]
    by_cases hs : (!b && o.startsComment c cs) = true
    · rw [if_pos hs]
      exact ⟨c :: cs, rfl, trivial⟩
    · obtain ⟨rest, hsplit, hclear⟩ := o.clear_cut cs b
      rw [if_neg hs]
      refine ⟨rest, congrArg (c :: ·) hsplit, fun _ hb => ?_, ?_⟩
      · rw [← hsplit]
        simpa [hb] using hs
      · rw [Text.openAfter_cons_of_ne hc]
        exact hclear

theorem Clear.cut_eq_self : ∀ {t : Text} {b : Bool}, o.Clear [] b t → (o.cut b t).1 = t
  | [], _, _ => rfl
  | c :: cs, b, h => by
    obtain ⟨hstart, hclear⟩ := h
    rw [cut]
    by_cases hc : c = '"'
    · rw [hc] at hclear
      rw [if_pos hc]
      exact congrArg (c :: ·) hclear.cut_eq_self
    · rw [Text.openAfter_cons_of_ne hc] at hclear
      have hs : ¬ (!b && o.startsComment c cs) = true := by
        rw [Bool.and_eq_true, Bool.not_eq_true', not_and]
        intro hb
        have := hstart hc hb
        rw [List.append_nil] at this
        rw [this]
        exact Bool.false_ne_true
      rw [if_neg hc, if_neg hs]
      exact congrArg (c :: ·) hclear.cut_eq_self

theorem cut_eq_self_iff {t : Text} {b : Bool} : (o.cut b t).1 = t ↔ o.Clear [] b t := by
  refine ⟨fun h => ?_, Clear.cut_eq_self⟩
  obtain ⟨rest, hsplit, hclear⟩ := o.clear_cut t b
  rw [h] at hsplit hclear
  rwa [List.self_eq_append_right.1 hsplit] at hclear

/-! ## The code of a line -/

theorem cut_eq_self_of_trim {t : Text} {b : Bool} (h : (o.cut b t).1.trim = t) : (o.cut b t).1 = t := by
  obtain ⟨rest, hsplit, -⟩ := o.clear_cut t b
  obtain ⟨before, behind, htrim, -, -⟩ := Text.trim_split (o.cut b t).1
  have hlength := congrArg List.length hsplit
  have hcut := congrArg List.length htrim
  rw [h, List.length_append, List.length_append] at hcut
  rw [List.length_append] at hlength
  have hrest : rest = [] := List.eq_nil_of_length_eq_zero (by omega)
  rw [hrest, List.append_nil] at hsplit
  exact hsplit.symm

/-- **A text ends in a remark of which nothing but the word is left**: a colon outside strings, blanks, and `REM`. -/
def EndsInRemark (inString : Bool) (t : Text) : Prop :=
  ∃ before gap word, t = before ++ ':' :: (gap ++ word) ∧ openAfter inString before = false ∧
    (∀ c ∈ gap, Text.isBlank c = true) ∧ Text.alike word "REM".toList = true

theorem EndsInRemark.cons {c : Char} {t : Text} {b : Bool} (h : EndsInRemark (openAfter b [c]) t) :
    EndsInRemark b (c :: t) := by
  obtain ⟨before, gap, word, rfl, hclosed, hgap, hword⟩ := h
  refine ⟨c :: before, gap, word, rfl, ?_, hgap, hword⟩
  rw [← List.singleton_append, openAfter_append]
  exact hclosed

theorem startsComment_of_alike {gap word : Text} (ho : o.remarks = true) (hgap : ∀ c ∈ gap, Text.isBlank c = true)
    (hword : Text.alike word "REM".toList = true) : o.startsComment ':' (gap ++ word) = true := by
  have hstart : Text.alike word.trimStart "REM".toList = true := by
    rw [Text.alike_iff] at hword ⊢
    rw [← Text.trimStart_upper, hword]
    rfl
  rw [startsComment, Text.trimStart_blanks_append hgap, isRemark_of_alike hstart, ho]
  exact Bool.or_true _

theorem Clear.not_endsInRemark {t : Text} {b : Bool} (h : o.Clear [] b t) (ho : o.remarks = true) :
    ¬ EndsInRemark b t := by
  rintro ⟨before, gap, word, rfl, hclosed, hgap, hword⟩
  have hcolon := (clear_append.1 h).2.1 (by decide) hclosed
  rw [List.append_nil, startsComment_of_alike ho hgap hword] at hcolon
  cases hcolon

/-- **What is clear with the rest behind it is clear by itself**, unless it ends in such a remark. -/
theorem Clear.alone {rest : Text} : ∀ {t : Text} {b : Bool}, o.Clear rest b t →
    ¬ (o.remarks = true ∧ EndsInRemark b t) → o.Clear [] b t
  | [], _, _, _ => trivial
  | c :: cs, b, h, hends => by
    refine ⟨fun hc hb => ?_, h.2.alone fun ⟨ho, htail⟩ => hends ⟨ho, htail.cons⟩⟩
    rw [List.append_nil]
    cases hs : o.startsComment c cs with
    | false => rfl
    | true =>
      obtain ⟨rfl, ho, hword⟩ := startsComment_append hs (h.1 hc hb)
      exact absurd ⟨ho, [], cs.takeWhile Text.isBlank, Text.trimStart cs,
        by rw [List.nil_append, Text.trimStart, List.takeWhile_append_dropWhile], hb,
        fun d hd => List.all_eq_true.1 List.all_takeWhile d hd, hword⟩ hends

/-! ## The code of a line -/

theorem code?_eq_some {line once : Text} : o.code? line = some once ↔
    once ≠ [] ∧ (o.remarks && isRemark once) = false ∧ (o.cut false line.chomp).1.trim = once := by
  rw [code?, strip]
  by_cases hr : (o.remarks && isRemark (o.cut false line.chomp).1.trim) = true
  · rw [if_pos hr, if_pos rfl]
    constructor
    · exact fun h => absurd h.symm (Option.some_ne_none once)
    · rintro ⟨-, hremark, rfl⟩
      rw [hr] at hremark
      cases hremark
  · rw [if_neg hr]
    split
    · rename_i hnil
      exact ⟨fun h => absurd h.symm (Option.some_ne_none once), fun h => absurd (h.2.2.symm.trans hnil) h.1⟩
    · rename_i hne
      rw [Option.some_inj]
      constructor
      · rintro rfl
        exact ⟨hne, Bool.eq_false_iff.2 hr, rfl⟩
      · exact fun h => h.2.2

/-- **The code of a line has no blanks at its ends, and no comment begins in it** while the rest of the line follows. -/
theorem clear_of_code? {line once : Text} (h : o.code? line = some once) :
    once.Trimmed ∧ ∃ rest, o.Clear rest false once := by
  obtain ⟨-, -, rfl⟩ := code?_eq_some.1 h
  obtain ⟨rest, -, hclear⟩ := o.clear_cut line.chomp false
  obtain ⟨before, behind, hsplit, hbefore, -⟩ := Text.trim_split (o.cut false line.chomp).1
  rw [hsplit, clear_append, clear_append, Text.openAfter_of_blank hbefore] at hclear
  exact ⟨Text.trimmed_trim _, behind ++ rest, hclear.2.1⟩

/-- **The code of a line is its own code** unless, outside strings, it ends in a colon and the word `REM`. -/
theorem cleaned_again_iff (o : Conventions) {line once : Text} (h : o.code? line = some once) :
    o.code? once = some once ↔ ¬ (o.remarks = true ∧ EndsInRemark false once) := by
  obtain ⟨htrimmed, rest, hclear⟩ := clear_of_code? h
  obtain ⟨hne, hremark, -⟩ := code?_eq_some.1 h
  rw [code?_eq_some, htrimmed.chomp_eq_self]
  constructor
  · rintro ⟨-, -, hcut⟩ ⟨ho, hends⟩
    exact (cut_eq_self_iff.1 (cut_eq_self_of_trim hcut)).not_endsInRemark ho hends
  · intro hends
    refine ⟨hne, hremark, ?_⟩
    rw [(hclear.alone hends).cut_eq_self, htrimmed.trim_eq_self]

/-- A remark in a string and a word that only begins like one, with a comment after it. -/
theorem cleaned_again_iff_remarked :
    Conventions.code? {} "\tPRINT \": REM'\" : REMARK '\r\n".toList = some "PRINT \": REM'\" : REMARK".toList ∧
    (Conventions.code? {} "PRINT \": REM'\" : REMARK".toList = some "PRINT \": REM'\" : REMARK".toList ↔
      ¬ (Conventions.remarks {} = true ∧ EndsInRemark false "PRINT \": REM'\" : REMARK".toList)) := by
  have h : Conventions.code? {} "\tPRINT \": REM'\" : REMARK '\r\n".toList =
      some "PRINT \": REM'\" : REMARK".toList := by decide
  exact ⟨h, cleaned_again_iff {} h⟩

/-- The remark that a comment follows shows only when the comment is gone. -/
theorem not_cleaned_again :
    Conventions.code? {} "X : REM'c".toList = some "X : REM".toList ∧
    Conventions.code? {} "X : REM".toList = some "X".toList ∧ "X".toList ≠ "X : REM".toList := by
  decide

end Conventions
end BlockBasic
