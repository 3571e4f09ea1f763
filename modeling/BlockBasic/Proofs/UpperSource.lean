import BlockBasic.Proofs.UpperCase
import BlockBasic.Source.Feed
/-!
# UpperSource — the lines of a source in upper case

Where a physical line ends, where a comment begins in it and whether it goes on in the next one does not depend on the
case of its letters, as long as the characters for comments and continuation are no letters themselves.  So the logical
lines of a source in upper case are its logical lines in upper case (`logicalLines_upper`).
-/
namespace BlockBasic

open Text (upper)

theorem splitLines_upper (t : Text) : splitLines '\r' '\n' t.upper = (splitLines '\r' '\n' t).map upper := by
  induction t with
  | nil => rfl
  | cons c t ih =>
    have hlf : c.toUpper = '\n' ↔ c = '\n' := Text.toUpper_eq_iff (by decide)
    have hcr : c.toUpper = '\r' ↔ c = '\r' := Text.toUpper_eq_iff (by decide)
    have hnext : (upper t).head? = some '\n' ↔ t.head? = some '\n' := by
      cases t with
      | nil => exact Iff.rfl
      | cons d t => simpa using Text.toUpper_eq_iff (c := d) (x := '\n') (by decide)
    rw [Text.upper_cons, splitLines, splitLines, ih]
    simp only [hlf, hcr, hnext]
    split
    · rfl
    · split
      · rfl
      · cases splitLines '\r' '\n' t <;> rfl

structure Conventions.Caseless (o : Conventions) : Prop where
  comment      : o.comment.isAlpha = false
  continuation : ∀ m ∈ o.continuation, m.isAlpha = false

namespace Conventions

theorem isRemark_upper : ∀ (t : Text), isRemark t.upper = isRemark t
  | [] | [_] | [_, _] => rfl
  | a :: b :: c :: rest => by
    have hword : Text.alike [a.toUpper, b.toUpper, c.toUpper] "REM".toList = Text.alike [a, b, c] "REM".toList :=
      Text.alike_upper_left [a, b, c] _
    rw [Text.upper_cons, Text.upper_cons, Text.upper_cons, isRemark, hword, Text.blind_isBlank.all_head?, isRemark]

variable {o : Conventions} (ho : o.Caseless)
include ho

theorem startsComment_upper (c : Char) (rest : Text) :
    o.startsComment c.toUpper rest.upper = o.startsComment c rest := by
  have hcomment : (c.toUpper == o.comment) = (c == o.comment) := Text.blind_beq ho.comment c
  have hcolon : (c.toUpper == ':') = (c == ':') := Text.blind_beq (by decide) c
  rw [startsComment, startsComment, hcomment, hcolon, Text.trimStart_upper, isRemark_upper]

theorem cut_upper (inString : Bool) (t : Text) : o.cut inString t.upper = (o.cut inString t).map upper id := by
  induction t generalizing inString with
  | nil => rfl
  | cons c t ih =>
    have hquote : c.toUpper = '"' ↔ c = '"' := Text.toUpper_eq_iff (by decide)
    rw [Text.upper_cons, cut, cut, startsComment_upper ho, ih, ih]
    simp only [hquote]
    split
    · rfl
    · split <;> rfl

theorem strip_upper (t : Text) : o.strip t.upper = (o.strip t).map upper id := by
  rw [strip, strip, Text.chomp_upper, cut_upper ho]
  simp only [Prod.map_fst, Prod.map_snd, Text.trim_upper, isRemark_upper]
  split <;> rfl

theorem continues_upper (code : Text) (inString : Bool) :
    o.continues code.upper inString = o.continues code inString := by
  have hlast : ∀ (t : Text), t.upper.getLast? = t.getLast?.map Char.toUpper := fun t => List.getLast?_map
  have hinit : List.dropLast code.upper = upper code.dropLast := List.map_dropLast.symm
  have hblank : (code.dropLast.getLast?.map Char.toUpper).all Text.isBlank = code.dropLast.getLast?.all Text.isBlank := by
    cases code.dropLast.getLast? with
    | none => rfl
    | some c => exact Text.blind_isBlank c
  unfold continues
  cases hm : o.continuation with
  | none => rfl
  | some mark =>
    have hmark : (code.getLast?.map Char.toUpper == some mark) = (code.getLast? == some mark) := by
      cases code.getLast? with
      | none => rfl
      | some c => exact Text.blind_beq (ho.continuation mark hm) c
    simp only [hlast, hinit, hblank, hmark]

theorem piece_upper (t : Text) : o.piece t.upper = (o.piece t).map upper id := by
  have hinit : ∀ code : Text, List.dropLast code.upper = upper code.dropLast := fun _ => List.map_dropLast.symm
  rw [piece, piece, strip_upper ho]
  simp only [Prod.map_fst, Prod.map_snd, id, continues_upper ho, hinit, Text.trimEnd_upper]
  split <;> rfl

end Conventions

namespace SourceLine

def upper (l : SourceLine) : SourceLine := ⟨l.number, l.text.upper⟩

theorem join_upper : ∀ (s t : Text), join s.upper t.upper = (join s t).upper
  | [], [] | _ :: _, [] | [], _ :: _ => rfl
  | c :: s, d :: t => by
    have hspace : ' '.toUpper = ' ' := rfl
    simp only [join, Text.upper_cons, Text.upper_append, hspace, List.cons_append]

theorem extend_upper (pending : Option SourceLine) (number : Nat) (piece : Text) :
    extend (pending.map upper) number piece.upper = (extend pending number piece).upper := by
  cases pending with
  | none => rfl
  | some line => exact congrArg (SourceLine.mk line.number) (join_upper line.text piece)

theorem kept_upper (line : SourceLine) : kept line.upper = (kept line).map upper := by
  rw [kept, kept, upper]
  simp only [Text.upper_eq_nil]
  split <;> rfl

theorem gather_upper {o : Conventions} (ho : o.Caseless) : ∀ (physical : List Text) (pending : Option SourceLine)
    (number : Nat), gather o (pending.map upper) number (physical.map Text.upper) = (gather o pending number physical).map upper
  | [], none, _ => rfl
  | [], some line, _ => kept_upper line
  | l :: ls, pending, number => by
    have hgo := gather_upper ho ls (some (extend pending number (o.piece l).1)) (number + 1)
    have hstop := gather_upper ho ls none (number + 1)
    rw [Option.map_some] at hgo
    rw [Option.map_none] at hstop
    rw [List.map_cons, gather, gather, Conventions.piece_upper ho]
    simp only [Prod.map_fst, Prod.map_snd, id, hgo, hstop, extend_upper, kept_upper]
    split
    · rfl
    · rw [List.map_append]

end SourceLine

theorem logicalLines_upper {o : Conventions} (ho : o.Caseless) (physical : List Text) :
    logicalLines o (physical.map Text.upper) = (logicalLines o physical).map SourceLine.upper :=
  SourceLine.gather_upper ho physical none 1

end BlockBasic
