import BlockBasic.Proofs.Offences
import BlockBasic.Proofs.Quotes
/-!
# Comments — what is left of comment characters stands in strings

A line is cut at the first comment character outside a string, by the quotes before it; what is left of it is trimmed,
taken apart at continuation characters and joined to other lines.  None of that moves a quote: a blank is none, a
continuation character is none by assumption, and a line that goes on leaves no string open.  So in a logical line every
comment character still stands where a string is open (`quoted_gather`), and there the lexer has a string token.
-/
namespace BlockBasic

namespace Text

/-- **Every `x` of a text stands where a string is open**, if `inString` says whether one is open before the text. -/
def Quoted (x : Char) : (inString : Bool) → Text → Prop
  | _, []             => True
  | inString, c :: cs => (c = x → inString = true) ∧ Quoted x (openAfter inString [c]) cs

theorem quoted_append {x : Char} : ∀ {s t : Text} {b : Bool},
    Quoted x b (s ++ t) ↔ Quoted x b s ∧ Quoted x (openAfter b s) t
  | [], _, _ => by simp [Quoted]
  | c :: s, t, b => by
    have hstep : openAfter b (c :: s) = openAfter (openAfter b [c]) s := openAfter_append b [c] s
    rw [List.cons_append, Quoted, Quoted, quoted_append, hstep, and_assoc]

theorem Quoted.openAfter_take {x : Char} : ∀ {t : Text} {b : Bool} {j : Nat}, Quoted x b t → t[j]? = some x →
    openAfter b (t.take j) = true
  | [], _, _, _, hx => by simp at hx
  | c :: t, b, 0, h, hx => h.1 (by simpa using hx)
  | c :: t, b, j + 1, h, hx => by
    rw [List.take_succ_cons, ← List.singleton_append, openAfter_append]
    exact h.2.openAfter_take (by simpa using hx)

/-! ## Text trimmed -/

theorem dropTail_split (p : Char → Bool) (t : Text) : ∃ tail, t = dropTail p t ++ tail ∧ ∀ c ∈ tail, p c = true := by
  refine ⟨(t.reverse.takeWhile p).reverse, ?_, fun c hc => ?_⟩
  · rw [dropTail, ← List.reverse_append, List.takeWhile_append_dropWhile, List.reverse_reverse]
  · exact List.all_eq_true.1 List.all_takeWhile c (List.mem_reverse.1 hc)

theorem trim_split (t : Text) : ∃ before behind, t = before ++ (trim t ++ behind) ∧
    (∀ c ∈ before, isBlank c = true) ∧ ∀ c ∈ behind, isBlank c = true := by
  obtain ⟨behind, hsplit, hbehind⟩ := dropTail_split isBlank (trimStart t)
  refine ⟨t.takeWhile isBlank, behind, ?_, fun c hc => List.all_eq_true.1 List.all_takeWhile c hc, hbehind⟩
  rw [trim, trimEnd, ← hsplit, trimStart, List.takeWhile_append_dropWhile]

theorem openAfter_of_blank {t : Text} (h : ∀ c ∈ t, isBlank c = true) (b : Bool) : openAfter b t = b :=
  openAfter_of_not_mem (fun hq => absurd (h _ hq) (by decide)) b

theorem openAfter_trim (t : Text) (b : Bool) : openAfter b (trim t) = openAfter b t := by
  obtain ⟨before, behind, hsplit, hbefore, hbehind⟩ := trim_split t
  conv => rhs; rw [hsplit]
  rw [openAfter_append, openAfter_append, openAfter_of_blank hbefore, openAfter_of_blank hbehind]

theorem Quoted.trim {x : Char} {t : Text} {b : Bool} (h : Quoted x b t) : Quoted x b (trim t) := by
  obtain ⟨before, behind, hsplit, hbefore, -⟩ := trim_split t
  rw [hsplit, quoted_append, quoted_append, openAfter_of_blank hbefore] at h
  exact h.2.1

theorem openAfter_trimEnd (t : Text) (b : Bool) : openAfter b (trimEnd t) = openAfter b t := by
  obtain ⟨tail, hsplit, htail⟩ := dropTail_split isBlank t
  conv => rhs; rw [hsplit]
  rw [openAfter_append, openAfter_of_blank htail, trimEnd]

theorem Quoted.dropTail {x : Char} {t : Text} {b : Bool} (h : Quoted x b t) (p : Char → Bool) :
    Quoted x b (dropTail p t) := by
  obtain ⟨tail, hsplit, -⟩ := dropTail_split p t
  rw [hsplit] at h
  exact (quoted_append.1 h).1

theorem openAfter_chomp (t : Text) (b : Bool) : openAfter b t.chomp = openAfter b t := by
  obtain ⟨tail, hsplit, htail⟩ := dropTail_split isBreak t
  conv => rhs; rw [hsplit]
  rw [openAfter_append, openAfter_of_not_mem (t := tail) (fun hq => absurd (htail _ hq) (by decide)), chomp]

theorem getElem?_chomp {t : Text} {j : Nat} {x : Char} (h : t[j]? = some x) (hx : isBreak x = false) :
    t.chomp[j]? = some x := by
  obtain ⟨tail, hsplit, htail⟩ := dropTail_split isBreak t
  rw [hsplit, List.getElem?_append] at h
  split at h
  · exact h
  · rw [htail x (List.mem_of_getElem? h)] at hx
    cases hx

theorem isBreak_of_not_isBlank {x : Char} (h : isBlank x = false) : isBreak x = false := by
  rw [isBreak, Bool.or_eq_false_iff, beq_eq_false_iff_ne, beq_eq_false_iff_ne]
  constructor <;> rintro rfl <;> exact absurd h (by decide)

end Text

open Text (openAfter Quoted openAfter_append quoted_append)

/-! ## One physical line -/

namespace Conventions

variable {o : Conventions}

theorem openAfter_cut (o : Conventions) : ∀ (t : Text) (b : Bool), (o.cut b t).2 = openAfter b (o.cut b t).1
  | [], _ => rfl
  | c :: cs, b => by
    rw [cut]
    split
    · rename_i hq
      rw [hq]
      exact openAfter_cut o cs (!b)
    · rename_i hq
      split
      · rename_i hs
        rw [Bool.and_eq_true, Bool.not_eq_true'] at hs
        exact hs.1.symm
      · exact (openAfter_cut o cs b).trans (Text.openAfter_cons_of_ne hq b _).symm

theorem quoted_cut (hq : o.comment ≠ '"') : ∀ (t : Text) (b : Bool), Quoted o.comment b (o.cut b t).1
  | [], _ => trivial
  | c :: cs, b => by
    rw [cut]
    split
    · rename_i hc
      exact ⟨fun h => absurd (h.symm.trans hc) hq, hc ▸ quoted_cut hq cs (!b)⟩
    · rename_i hc
      split
      · exact trivial
      · rename_i hs
        constructor
        · rintro rfl
          simpa [startsComment] using hs
        · rw [Text.openAfter_cons_of_ne hc]
          exact quoted_cut hq cs b

/-- **The code of a line leaves a string open exactly if it is said to.** -/
theorem openAfter_strip (o : Conventions) (l : Text) : (o.strip l).2 = openAfter false (o.strip l).1 := by
  unfold strip
  split
  · rfl
  · rw [Text.openAfter_trim]
    exact openAfter_cut o _ _

theorem quoted_strip (hq : o.comment ≠ '"') (l : Text) : Quoted o.comment false (o.strip l).1 := by
  unfold strip
  split
  · exact trivial
  · exact (quoted_cut hq _ _).trim

theorem exists_of_continues {code : Text} {inString : Bool} (h : o.continues code inString = true) :
    inString = false ∧ ∃ mark init, o.continuation = some mark ∧ code = init ++ [mark] := by
  unfold continues at h
  split at h
  · rename_i mark hmark
    rw [Bool.and_eq_true, Bool.and_eq_true, Bool.not_eq_true', beq_iff_eq] at h
    obtain ⟨⟨hclosed, hlast⟩, -⟩ := h
    obtain ⟨init, hcode⟩ := List.getLast?_eq_some_iff.1 hlast
    exact ⟨hclosed, mark, init, hmark, hcode⟩
  · cases h

/-- **A line that goes on leaves no string open.** -/
theorem openAfter_piece (hm : o.continuation ≠ some '"') {l : Text} (hgoes : (o.piece l).2 = true) :
    openAfter false (o.piece l).1 = false := by
  unfold piece at hgoes ⊢
  split
  · rename_i hcontinues
    obtain ⟨hclosed, mark, init, hmark, hcode⟩ := exists_of_continues hcontinues
    have hne : mark ≠ '"' := by
      rintro rfl
      exact hm hmark
    rw [openAfter_strip, hcode, openAfter_append, Text.openAfter_cons_of_ne hne] at hclosed
    rw [hcode, List.dropLast_concat, Text.openAfter_trimEnd]
    exact hclosed
  · rename_i hno
    rw [if_neg hno] at hgoes
    cases hgoes

theorem quoted_piece (hq : o.comment ≠ '"') (l : Text) : Quoted o.comment false (o.piece l).1 := by
  have hquoted := quoted_strip hq l
  unfold piece
  split
  · rename_i hcontinues
    obtain ⟨-, mark, init, -, hcode⟩ := exists_of_continues hcontinues
    rw [hcode, quoted_append] at hquoted
    rw [hcode, List.dropLast_concat]
    exact hquoted.1.dropTail _
  · exact hquoted

end Conventions

/-! ## Lines that are joined -/

namespace SourceLine

theorem openAfter_join (s t : Text) (b : Bool) : openAfter b (join s t) = openAfter (openAfter b s) t := by
  cases t with
  | nil =>
    cases s <;> rfl
  | cons d t =>
    cases s with
    | nil => rfl
    | cons c s =>
      rw [join, openAfter_append, Text.openAfter_cons_of_ne (by decide)]
      · nofun
      · nofun

theorem quoted_join {x : Char} (hx : x ≠ ' ') {s t : Text} (hs : Quoted x false s) (hclosed : openAfter false s = false)
    (ht : Quoted x false t) : Quoted x false (join s t) := by
  cases t with
  | nil => cases s <;> exact hs
  | cons d t =>
    cases s with
    | nil => exact ht
    | cons c s =>
      rw [join, quoted_append, hclosed]
      · exact ⟨hs, fun h => absurd h.symm hx, ht⟩
      · nofun
      · nofun

theorem quoted_gather {o : Conventions} (hq : o.comment ≠ '"') (hb : o.comment ≠ ' ') (hm : o.continuation ≠ some '"') :
    ∀ (lines : List Text) (pending : Option SourceLine) (number : Nat),
      (∀ p ∈ pending, Quoted o.comment false p.text ∧ openAfter false p.text = false) →
        ∀ l ∈ gather o pending number lines, Quoted o.comment false l.text
  | [], pending, number, hp, l, hl => by
    cases pending with
    | none => cases hl
    | some p =>
      rw [eq_of_mem_kept hl]
      exact (hp p rfl).1
  | x :: xs, pending, number, hp, l, hl => by
    have hpiece := Conventions.quoted_piece hq x
    have hline : Quoted o.comment false (extend pending number (o.piece x).1).text ∧
        ((o.piece x).2 = true → openAfter false (extend pending number (o.piece x).1).text = false) := by
      cases pending with
      | none => exact ⟨hpiece, Conventions.openAfter_piece hm⟩
      | some p =>
        refine ⟨quoted_join hb (hp p rfl).1 (hp p rfl).2 hpiece, fun hgoes => ?_⟩
        rw [extend, openAfter_join, (hp p rfl).2]
        exact Conventions.openAfter_piece hm hgoes
    rw [gather] at hl
    split at hl
    · rename_i hgoes
      refine quoted_gather hq hb hm xs _ _ (fun p h => ?_) l hl
      obtain rfl := Option.mem_some_iff.1 h
      exact ⟨hline.1, hline.2 hgoes⟩
    · rcases List.mem_append.1 hl with hl | hl
      · rw [eq_of_mem_kept hl]
        exact hline.1
      · exact quoted_gather hq hb hm xs none _ (fun p h => by cases h) l hl

end SourceLine

theorem getLast?_tokenize_isUnterminated (t : Text) :
    (tokenize t).getLast?.any Token.isUnterminated = openAfter false t := by
  rw [tokenize, (Lexer.strung_scan t.chomp 0).getLast?_isUnterminated, Text.openAfter_chomp]

/-- **Comments and tokens agree on what is inside a string.**  Where the comment character is no quote and no blank, and the
continuation character no quote, every comment character that is left in a logical line lies in the column of a string
token, closed or not; and a physical line is said to leave a string open exactly if the last token of its code is an
unterminated string. -/
theorem comments_left_in_strings (o : Conventions) (hq : o.comment ≠ '"') (hb : Text.isBlank o.comment = false)
    (hm : o.continuation ≠ some '"') (f : Feed) (source : List SourceLine) (hread : f.logicalLines o = .ok source) :
    (∀ l ∈ source, ∀ j, l.text[j]? = some o.comment → ∃ t ∈ tokenize l.text,
      (t.kind = .string ∨ t.isUnterminated = true) ∧ t.column.start ≤ j ∧ j < t.column.stop) ∧
    ∀ line, (o.strip line).2 = true ↔
      ∃ t, (tokenize (o.strip line).1).getLast? = some t ∧ t.isUnterminated = true := by
  constructor
  · intro l hl j hj
    have hspace : o.comment ≠ ' ' := by
      intro h
      rw [h] at hb
      exact absurd hb (by decide)
    have hquoted : Quoted o.comment false l.text := by
      rcases Feed.logicalLines_cases o f with ⟨texts, h, -⟩ | ⟨d, h, -⟩
      · rw [h] at hread
        cases hread
        exact SourceLine.quoted_gather hq hspace hm texts none 1 (fun p h => by cases h) l hl
      · rw [h] at hread
        cases hread
    have hchomp := Text.getElem?_chomp hj (Text.isBreak_of_not_isBlank hb)
    have hopen : openAfter false (l.text.chomp.take j) = true := (hquoted.dropTail Text.isBreak).openAfter_take hchomp
    have hin := (Lexer.strung_scan l.text.chomp 0).mem_string j (List.getElem?_eq_some_iff.1 hchomp).1 hopen
    rwa [Nat.zero_add] at hin
  · intro line
    rw [Conventions.openAfter_strip, ← getLast?_tokenize_isUnterminated, Option.any_eq_true]

/-- The apostrophe in a string that is never closed, in a line that is joined of two and had a comment. -/
theorem comments_left_in_strings_joined :
    Feed.logicalLines {} (Feed.ofText "PRINT \"don't\" _ 'note\n, \"it's\n".toList) =
      .ok [⟨1, "PRINT \"don't\" , \"it's".toList⟩] ∧
    ("PRINT \"don't\" , \"it's".toList)[19]? = some '\x27' ∧
    ∃ t ∈ tokenize "PRINT \"don't\" , \"it's".toList,
      (t.kind = .string ∨ t.isUnterminated = true) ∧ t.column.start ≤ 19 ∧ 19 < t.column.stop := by
  have hread : Feed.logicalLines {} (Feed.ofText "PRINT \"don't\" _ 'note\n, \"it's\n".toList) =
      .ok [⟨1, "PRINT \"don't\" , \"it's".toList⟩] := by rfl
  have hchar : ("PRINT \"don't\" , \"it's".toList)[19]? = some '\x27' := by decide
  exact ⟨hread, hchar, (comments_left_in_strings {} (by decide) (by decide) (by decide) _ _ hread).1 _
    List.mem_cons_self 19 hchar⟩

end BlockBasic
