import BlockBasic.Expression.Descent
import BlockBasic.Program
/-!
# Construction — a program built in one pass

One pass goes over the runs of the lines and carries along all that there is: the open blocks with their statements, the
count of the groups that the reader is in, and the reports.  Each run is read by descending into its groups, from where the
count stands, and its statement is put into the blocks at once.  At the end of the source the blocks that are still open are
left unclosed, from the innermost outwards.
-/
namespace BlockBasic

namespace Construction

structure OpenBlock where
  form   : BlockForm
  header : Statement
  before : Program

end Construction

/-- **A program while it is built**: the open blocks, the innermost first, the nodes of the innermost so far, the groups
that the reader is in, and what was reported. -/
structure Construction where
  blocks      : List Construction.OpenBlock := []
  current     : Program := []
  depth       : Nat := 0
  diagnostics : List Diagnostic := []

namespace Construction

def add (c : Construction) (n : Node Statement) : Construction := { c with current := c.current ++ [n] }

def report (c : Construction) (ds : List Diagnostic) : Construction := { c with diagnostics := c.diagnostics ++ ds }

/-- What reading the operands of a run comes to, from inside `depth` groups. -/
def reading (table : Table) (depth : Nat) (r : Run) : Descent.Reading :=
  (Descent.sequence (some maxNesting) table none [] { depth := depth } (phrases r.isOpen r.operands)).1

def statementOf (r : Run) (read : Descent.Reading) : Statement :=
  ⟨r.number, r.column, r.keyword?, if r.isOpen then Expression.nameFile read.items else read.items⟩

/-- Keeps the count of groups that a reader ends with, and reports what it found wrong. -/
def after (c : Construction) (r : Run) (read : Descent.Reading) : Construction :=
  { c with depth := read.reader.depth,
           diagnostics := c.diagnostics ++ read.reader.faults.map (fun f => f.2.located r.number f.1) }

/-- Keeps a terminator that closes nothing as a stray statement, and reports why. -/
def refuse (c : Construction) (fault : Fault) (s : Statement) : Construction :=
  (c.report [fault.located s.line s.column]).add (.leaf s true)

/-- Puts a statement into the blocks.  A terminator that does not fit the innermost block, or finds none, is reported. -/
def place (c : Construction) (role : Role) (s : Statement) : Construction :=
  match role with
  | .plain       => c.add (.leaf s false)
  | .opens form  => { c with blocks := ⟨form, s, c.current⟩ :: c.blocks, current := [] }
  | .closes form =>
    match c.blocks with
    | b :: bs =>
      if b.form = form then
        { c with blocks := bs, current := b.before ++ [.block b.form b.header c.current (some s)] }
      else c.refuse (.mismatched b.form b.header.line) s
    | []      => c.refuse (.unopened form) s

def step (table : Table) (c : Construction) (r : Run) : Construction :=
  (c.after r (reading table c.depth r)).place r.role (statementOf r (reading table c.depth r))

def close : List OpenBlock → Program → List Diagnostic → Program × List Diagnostic
  | [], current, ds      => (current, ds)
  | b :: bs, current, ds => close bs (b.before ++ [.block b.form b.header current none])
      (ds ++ [(Fault.unclosed b.form).located b.header.line b.header.column])

def finish (c : Construction) : Program × List Diagnostic := close c.blocks c.current c.diagnostics

/-- **The program of code lines, built in one pass**, and the reports on it. -/
def ofLines (table : Table) (lines : List CodeLine) : Program × List Diagnostic :=
  ((programRuns lines).foldl (step table) {}).finish

end Construction
end BlockBasic
