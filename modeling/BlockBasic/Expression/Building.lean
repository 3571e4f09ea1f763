import BlockBasic.Expression.Nest
/-!
# Building — nests as expressions

Each phrase of a nest becomes an expression and each group a group of arguments, cut at its separators.  Two things
reach beyond their own place, both in `OPEN` statements only: an access is granted to the last mode before it in the
same group, and the first string is the name of the file.
-/
namespace BlockBasic
namespace Expression

/-! ## Atoms -/

def tokenAtom (table : Table) (t : Token) : Atom :=
  match t.kind with
  | .name               => .reference t.text ((table.lookup t.text).map Declaration.key)
  | .separator          => .separator (t.text.headD ',')
  | .string             => .literal (.string t.text) t.text
  | .integer            =>
    match Literal.ofDigits? t.text with
    | some value => .literal value t.text
    | none       => .malformed t.text
  | .float              =>
    match Double.ofDecimal? t.text with
    | some x => .literal (.float x) t.text
    | none   => .malformed t.text
  | .hash               => .malformed ['#']
  | kind                =>
    match Keyword.ofKind? kind, kind.operator? with
    | some k, _    => .keyword k
    | none, some o => .operator o
    | none, none   => .malformed t.text

/-! ## Access -/

/-- An expression, or an access that looks for its mode. -/
inductive Piece where
  | expression (e : Expression)
  | access (word : Token) (a : FileAccess) (stop : Nat)

def phrasePiece (table : Table) (p : Phrase) : Piece :=
  match p with
  | .token t         => .expression (.atom t.column (tokenAtom table t))
  | .handle _ _ n    => .expression (.atom p.column (.handle n))
  | .mode _ _ m      => .expression (.atom p.column (.mode m none))
  | .access t _ _ a  => .access t a p.column.stop

/-- Grants an access to the last mode, which then reaches to `stop`; there is none where there is no mode. -/
def grant? (a : FileAccess) (stop : Nat) : List Expression → Option (List Expression)
  | []      => none
  | e :: es =>
    match grant? a stop es with
    | some granted => some (e :: granted)
    | none         =>
      match e with
      | .atom c (.mode m _) => some (.atom ⟨c.start, stop⟩ (.mode m (some a)) :: es)
      | _                   => none

/-- Puts a piece after the expressions before it.  An access that finds no mode leaves its first word. -/
def settle (before : List Expression) (piece : Piece) : List Expression :=
  match piece with
  | .expression e        => before ++ [e]
  | .access word a stop  => (grant? a stop before).getD (before ++ [.atom word.column (.keyword (.word .access))])

/-! ## Groups -/

/-- Cuts at each separator; there is one part more than there are separators. -/
def cutArguments : List Expression → List (List Expression)
  | []      => [[]]
  | e :: es =>
    if e.isSeparator then [] :: cutArguments es
    else
      match cutArguments es with
      | []      => [[e]]
      | a :: as => (e :: a) :: as

/-- The arguments of a group: none at all if it is empty. -/
def argumentsOf (items : List Expression) : List (List Expression) :=
  if items.isEmpty then [] else cutArguments items

mutual

/-- The piece that a nest inside `depth` groups is. -/
def nestPiece (limit : Limit) (table : Table) (depth : Nat) : Nest → Piece
  | .leaf p                             => phrasePiece table p
  | .group bracket opening body closing =>
    if limit.exceeded depth then
      .expression (.atom (Nest.groupColumn opening body closing) (.malformed (Nest.rawText bracket body closing)))
    else
      .expression (.group (Nest.groupColumn opening body closing) bracket
        (argumentsOf ((nestPieces limit table (depth + 1) body).foldl settle [])) closing.isSome)

def nestPieces (limit : Limit) (table : Table) (depth : Nat) : List Nest → List Piece
  | []      => []
  | n :: ns => nestPiece limit table depth n :: nestPieces limit table depth ns

end

def ofNests (limit : Limit) (table : Table) (nests : List Nest) : List Expression :=
  (nestPieces limit table 0 nests).foldl settle []

/-! ## The name of a file -/

mutual

def nameFile? : Expression → Option Expression
  | .atom c (.literal (.string t) _) => some (.atom c (.fileName t))
  | .atom _ _                        => none
  | .group c b arguments closed      => (nameFileInArguments? arguments).map (fun as => .group c b as closed)

def nameFileIn? : List Expression → Option (List Expression)
  | []      => none
  | e :: es =>
    match nameFile? e with
    | some named => some (named :: es)
    | none       => (nameFileIn? es).map (fun rest => e :: rest)

def nameFileInArguments? : List (List Expression) → Option (List (List Expression))
  | []      => none
  | a :: as =>
    match nameFileIn? a with
    | some named => some (named :: as)
    | none       => (nameFileInArguments? as).map (fun rest => a :: rest)

end

def nameFile (es : List Expression) : List Expression := (nameFileIn? es).getD es

end Expression
end BlockBasic
