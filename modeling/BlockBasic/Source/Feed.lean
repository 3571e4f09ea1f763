import BlockBasic.Diagnostic
import BlockBasic.Source.Logical
/-!
# Feed — reading, and what can go wrong with it

A feed is what the physical lines of a source turn out to be when they are read: texts, or failures.  Beside them stands
the moment, if any, at which the user interrupts.  Reading is all or nothing: the first line at which the interrupt has
been raised, or whose read fails, ends it, and nothing read before is kept.  The interrupt is looked for before a line's
own failure, and once more after the last line.
-/
namespace BlockBasic

/-! ## Feeds -/

/-- The reads of a source in order, and the number of reads that are over when the interrupt is seen raised. -/
structure Feed where
  reads       : List (Except Text Text)
  interruptAt : Option Nat := none

namespace Feed

/-- Whether the interrupt shows in the look that follows `done` reads that were accepted. -/
def interruptedBy (interruptAt : Option Nat) (done : Nat) : Bool := interruptAt.any (fun k => decide (k ≤ done))

/-- The texts of the reads after `done` others, or the first thing that went wrong. -/
def collect (interruptAt : Option Nat) : Nat → List (Except Text Text) → Except Diagnostic (List Text)
  | done, []         =>
    if interruptedBy interruptAt done then .error Fault.interrupted.diagnostic else .ok []
  | done, r :: reads =>
    if interruptedBy interruptAt done then .error (Fault.interrupted.inLine (done + 1))
    else
      match r with
      | .error reason => .error ((Fault.unreadable reason).inLine (done + 1))
      | .ok text      => (collect interruptAt (done + 1) reads).map (text :: ·)

def physicalLines (f : Feed) : Except Diagnostic (List Text) := collect f.interruptAt 0 f.reads

/-- **The logical lines of a feed**, all of them or none. -/
def logicalLines (o : Conventions) (f : Feed) : Except Diagnostic (List SourceLine) :=
  f.physicalLines.map (BlockBasic.logicalLines o)

end Feed

/-! ## Physical lines

A line ends at a line feed, and a carriage return right before it belongs to the ending.  What follows the last line
feed is a line if it is not empty. -/

/-- Cuts at each `lf`, and drops a `cr` right before it. -/
def splitLines {α : Type} [DecidableEq α] (cr lf : α) : List α → List (List α)
  | []      => []
  | a :: as =>
    if a = lf then [] :: splitLines cr lf as
    else if a = cr ∧ as.head? = some lf then splitLines cr lf as
    else
      match splitLines cr lf as with
      | []      => [[a]]
      | l :: ls => (a :: l) :: ls

def Feed.ofText (t : Text) : Feed := ⟨(splitLines '\r' '\n' t).map .ok, none⟩

/-! ## Arrivals

Input may come in portions, with an interrupt or a failure between them.  Bytes are asked for only when a line needs
them, so an interrupt that comes after a line feed shows in the next read, and one that comes last shows in the look for
the end of the input.  A line that a failure cuts short is lost. -/

inductive Arrival where
  | bytes (data : List UInt8)
  | interrupt
  | failure (reason : Text)

namespace Arrival

def carriageReturn : UInt8 := 13

def lineFeed : UInt8 := 10

def decode (line : List UInt8) : Except Text Text :=
  match String.fromUTF8? ⟨line.toArray⟩ with
  | some s => .ok s.toList
  | none   => .error "stream did not contain valid UTF-8".toList

def lines (seen : List UInt8) : List (List UInt8) := splitLines carriageReturn lineFeed seen

/-- The lines of the bytes that a line feed ends. -/
def wholeLines (seen : List UInt8) : List (List UInt8) :=
  if seen.getLast? = some lineFeed then lines seen else (lines seen).dropLast

/-- The feed of the arrivals after the bytes `seen`, with the interrupt raised at `raised`. -/
def feedFrom : List UInt8 → Option Nat → List Arrival → Feed
  | seen, raised, []                   => ⟨(lines seen).map decode, raised⟩
  | seen, raised, .bytes data :: rest  => feedFrom (seen ++ data) raised rest
  | seen, raised, .interrupt :: rest   => feedFrom seen (raised.or (some (seen.count lineFeed))) rest
  | seen, raised, .failure reason :: _ => ⟨(wholeLines seen).map decode ++ [.error reason], raised⟩

end Arrival

def Feed.ofArrivals (arrivals : List Arrival) : Feed := Arrival.feedFrom [] none arrivals

end BlockBasic
