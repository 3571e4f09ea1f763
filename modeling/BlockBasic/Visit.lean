import BlockBasic.Program
/-!
# Visit — the walk over a program

A walk meets every keyword, every expression and every statement once.  A whole is met after its parts: a group after its
arguments, a statement after its expressions and, if it opens a block, after everything in the block and the terminator.
-/
namespace BlockBasic

inductive Visit where
  | keyword (column : Column) (k : Keyword)
  | expression (e : Expression)
  | statement (s : Statement) (children : Nat)

namespace Expression

mutual

def visits : Expression → List Visit
  | .atom c (.keyword k)        => [.keyword c k, .expression (.atom c (.keyword k))]
  | .atom c a                   => [.expression (.atom c a)]
  | .group c b arguments closed => visitsOfArguments arguments ++ [.expression (.group c b arguments closed)]

def visitsOf : List Expression → List Visit
  | []      => []
  | e :: es => visits e ++ visitsOf es

def visitsOfArguments : List (List Expression) → List Visit
  | []      => []
  | a :: as => visitsOf a ++ visitsOfArguments as

end

end Expression

def Statement.visits (s : Statement) : List Visit :=
  (s.keyword.map (fun k => Visit.keyword k.1 k.2)).toList ++ Expression.visitsOf s.expressions

namespace Node

mutual

def visits : Node Statement → List Visit
  | .leaf s _                       => s.visits ++ [.statement s 0]
  | .block _ header body terminator =>
    header.visits ++ visitsOf body ++
      terminator.toList.flatMap (fun t => t.visits ++ [.statement t 0]) ++ [.statement header body.length]

def visitsOf : Program → List Visit
  | []      => []
  | n :: ns => visits n ++ visitsOf ns

end

end Node
end BlockBasic
