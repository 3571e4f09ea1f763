import BlockBasic.Expression.Building
/-!
# Descent — expressions read by descending into groups

A reader takes phrases from the front and puts down expressions and faults as it goes.  Where a group opens it counts one
level more, reads what is in the group in the same way, and counts one level less; it leaves a group at the closing bracket
of its type and at no other.  A group that is too deep is passed over by counting brackets of any type.
-/
namespace BlockBasic
namespace Descent

open Expression (settle phrasePiece argumentsOf)
open Nest (phraseFaults)

/-- What a reader keeps: how many groups it is in, where the last token it took stops, and what it found wrong. -/
structure Reader where
  depth  : Nat := 0
  stop   : Nat := 0
  faults : List (Column × Fault) := []

namespace Reader

def advance (s : Reader) (p : Phrase) : Reader := { s with stop := p.last.column.stop }

def report (s : Reader) (fs : List (Column × Fault)) : Reader := { s with faults := s.faults ++ fs }

def enter (s : Reader) : Reader := { s with depth := s.depth + 1 }

def leave (s : Reader) : Reader := { s with depth := s.depth - 1 }

end Reader

/-- A token as the text of a group that is passed over holds it. -/
def spaced (t : Token) : Text :=
  match t.kind with
  | .opener _ | .closer _ => t.source
  | _                     => t.source ++ [' ']

/-- A group that was passed over: its text, where it stops, whether it was closed, and what comes after it. -/
structure Skipped where
  text   : Text
  stop   : Nat
  closed : Bool
  rest   : List Phrase

/-- **Passes over the rest of `depth` open groups**, the types of the brackets aside. -/
def skip : (depth : Nat) → Text → (stop : Nat) → List Phrase → Skipped
  | _, text, stop, []       => ⟨text, stop, false, []⟩
  | depth, text, _, p :: ps =>
    match p.first.kind with
    | .opener _ => skip (depth + 1) (text ++ p.tokens.flatMap spaced) p.last.column.stop ps
    | .closer _ =>
      if depth = 1 then ⟨text ++ p.tokens.flatMap spaced, p.last.column.stop, true, ps⟩
      else skip (depth - 1) (text ++ p.tokens.flatMap spaced) p.last.column.stop ps
    | _         => skip depth (text ++ p.tokens.flatMap spaced) p.last.column.stop ps

theorem skip_suffix (depth : Nat) (text : Text) (stop : Nat) (ps : List Phrase) :
    (skip depth text stop ps).rest <:+ ps := by
  fun_induction skip depth text stop ps with
  | case1                   => exact List.suffix_rfl
  | case2 _ _ _ _ _ _ _ ih  => exact ih.trans (List.suffix_cons ..)
  | case3                   => exact List.suffix_cons ..
  | case4 _ _ _ _ _ _ _ _ ih => exact ih.trans (List.suffix_cons ..)
  | case5 _ _ _ _ _ _ _ ih  => exact ih.trans (List.suffix_cons ..)

/-- What was read: the expressions, whether a closing bracket ended them, the reader and what comes after them. -/
structure Reading where
  items  : List Expression
  closed : Bool
  reader : Reader
  rest   : List Phrase

def missing (bracket : Bracket) (opening : Token) (closed : Bool) : List (Column × Fault) :=
  if closed then [] else [(opening.column, .missingCloser bracket)]

/-- **Reads up to the bracket that closes a group of type `closing?`**, or up to the end. -/
def sequence (limit : Limit) (table : Table) (closing? : Option Bracket) (items : List Expression) (s : Reader) :
    (ps : List Phrase) → { r : Reading // r.rest <:+ ps }
  | []      => ⟨⟨items, closing?.isNone, s, []⟩, List.suffix_rfl⟩
  | p :: ps =>
    match p.first.kind with
    | .closer b =>
      if closing? = some b then ⟨⟨items, true, s.advance p, ps⟩, List.suffix_cons p ps⟩
      else
        let r := sequence limit table closing? (settle items (phrasePiece table p))
          ((s.advance p).report (phraseFaults p)) ps
        ⟨r.1, r.2.trans (List.suffix_cons p ps)⟩
    | .opener b =>
      if limit.exceeded s.depth then
        let k := skip 1 [b.opening] p.last.column.stop ps
        let r := sequence limit table closing?
          (items ++ [.atom ⟨p.first.column.start, k.stop⟩ (.malformed k.text)])
          { s with stop := k.stop,
                   faults := s.faults ++ (p.first.column, .tooDeep (limit.getD 0)) :: missing b p.first k.closed } k.rest
        ⟨r.1, (r.2.trans (skip_suffix ..)).trans (List.suffix_cons p ps)⟩
      else
        let inner := sequence limit table (some b) [] (s.advance p).enter ps
        let r := sequence limit table closing?
          (items ++ [.group ⟨p.first.column.start, inner.1.reader.stop⟩ b (argumentsOf inner.1.items) inner.1.closed])
          (inner.1.reader.leave.report (missing b p.first inner.1.closed)) inner.1.rest
        ⟨r.1, (r.2.trans inner.2).trans (List.suffix_cons p ps)⟩
    | _         =>
      let r := sequence limit table closing? (settle items (phrasePiece table p))
        ((s.advance p).report (phraseFaults p)) ps
      ⟨r.1, r.2.trans (List.suffix_cons p ps)⟩
termination_by ps => ps.length
decreasing_by
  · exact Nat.lt_succ_self _
  · exact Nat.lt_succ_of_le (skip_suffix ..).length_le
  · exact Nat.lt_succ_self _
  · exact Nat.lt_succ_of_le inner.2.length_le
  · exact Nat.lt_succ_self _

def read (limit : Limit) (table : Table) (ps : List Phrase) : Reading := (sequence limit table none [] {} ps).1

end Descent
end BlockBasic
