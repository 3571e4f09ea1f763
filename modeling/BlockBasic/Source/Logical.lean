import BlockBasic.Source.Conventions
/-!
# Logical — physical lines joined into logical ones

A logical line is a line of code and the lines it goes on in, its pieces joined by single spaces.  It bears the number of
the physical line it begins on, counted from one, and one without any code is dropped.
-/
namespace BlockBasic

/-- A logical line and the number of the physical line it begins on. -/
structure SourceLine where
  number : Nat
  text   : Text
deriving DecidableEq

namespace SourceLine

def join (s t : Text) : Text :=
  match s, t with
  | s, []  => s
  | [], t  => t
  | s, t   => s ++ ' ' :: t

def extend (pending : Option SourceLine) (number : Nat) (piece : Text) : SourceLine :=
  match pending with
  | some line => ⟨line.number, join line.text piece⟩
  | none      => ⟨number, piece⟩

def kept (line : SourceLine) : List SourceLine := if line.text = [] then [] else [line]

theorem eq_of_mem_kept {l x : SourceLine} (h : x ∈ l.kept) : x = l := by
  rw [kept] at h
  split at h
  · cases h
  · exact List.mem_singleton.1 h

/-- The logical lines of the physical lines from number `number` on; `pending` waits to be continued. -/
def gather (o : Conventions) : Option SourceLine → Nat → List Text → List SourceLine
  | pending, _, []           => (pending.map kept).getD []
  | pending, number, l :: ls =>
    if (o.piece l).2 then gather o (some (extend pending number (o.piece l).1)) (number + 1) ls
    else kept (extend pending number (o.piece l).1) ++ gather o none (number + 1) ls

end SourceLine

def logicalLines (o : Conventions) (physical : List Text) : List SourceLine := SourceLine.gather o none 1 physical

end BlockBasic
