import BlockBasic.Block.Run
import BlockBasic.Expression.Building
/-!
# Statement — one statement, without the block it may open

A statement is its keyword, if it begins with one, and the expressions after it.  Building one never fails: what is wrong
with it becomes a malformed expression, and `Run.diagnostics` says what and where.
-/
namespace BlockBasic

def maxNesting : Nat := 64

structure Statement where
  line        : Nat
  column      : Column
  keyword     : Option (Column × Keyword)
  expressions : List Expression
deriving DecidableEq

def Statement.word? (s : Statement) : Option Word :=
  match s.keyword with
  | some (_, .word w) => some w
  | _                 => none

namespace Run

def keyword? (r : Run) : Option (Column × Keyword) :=
  r.tokens.head?.bind (fun t => (Keyword.ofKind? t.kind).map (fun k => (t.column, k)))

def operands (r : Run) : List Token := if r.keyword?.isSome then r.tokens.drop 1 else r.tokens

def isOpen (r : Run) : Bool := word? r.tokens 0 == some .open_

def nests (limit : Limit) (r : Run) : List Nest := Nest.ofPhrases limit (phrases r.isOpen r.operands)

def expressions (limit : Limit) (table : Table) (r : Run) : List Expression :=
  if r.isOpen then Expression.nameFile (Expression.ofNests limit table (r.nests limit))
  else Expression.ofNests limit table (r.nests limit)

def statementWithin (limit : Limit) (table : Table) (r : Run) : Statement :=
  ⟨r.number, r.column, r.keyword?, r.expressions limit table⟩

def diagnosticsWithin (limit : Limit) (r : Run) : List Diagnostic :=
  (Nest.faultsOf limit 0 (r.nests limit)).map (fun f => f.2.located r.number f.1)

def statement (table : Table) (r : Run) : Statement := r.statementWithin (some maxNesting) table

/-- **What is wrong with the expressions of a run.** -/
def diagnostics (r : Run) : List Diagnostic := r.diagnosticsWithin (some maxNesting)

end Run
end BlockBasic
