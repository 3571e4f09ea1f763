import BlockBasic.Proofs.Recast
/-!
# Unplaced — a statement without the places of its tokens

Where a token stands has no part in what its statement is: lines and columns are carried along and never looked at.  So
a run whose tokens have lost their places makes the same statement, columns aside (`unplaced_statement_unplaced`), and is
reported on if and only if the run itself is (`diagnostics_unplaced`).
-/
namespace BlockBasic

def Token.unplaced (t : Token) : Token := { t with column := Column.none }

@[simp] theorem Token.kind_unplaced (t : Token) : t.unplaced.kind = t.kind := rfl

def Guise.unplaced : Guise := ⟨id, fun _ => rfl, fun _ => 0, fun _ => 0, rfl⟩

@[simp] theorem Guise.text_unplaced (t : Text) : Guise.unplaced.text t = t := List.map_id t

theorem Token.recast_unplaced : Token.recast .unplaced = Token.unplaced := by
  funext t
  rw [Token.recast, Guise.text_unplaced]
  rfl

theorem Token.caseless_unplaced (t : Token) : t.Caseless .unplaced := fun _ => Guise.text_unplaced t.text

theorem Phrase.phrases_unplaced (inOpen : Bool) (ts : List Token) :
    phrases inOpen (ts.map Token.unplaced) = (phrases inOpen ts).map (map Token.unplaced) := by
  rw [← Token.recast_unplaced]
  exact phrases_recast .unplaced inOpen ts

theorem Atom.recast_unplaced (a : Atom) : a.recast .unplaced = a := by
  cases a with
  | literal v spelling =>
    have hv : v.recast .unplaced = v := by cases v <;> simp [Literal.recast]
    simp [Atom.recast, hv]
  | _ => simp [Atom.recast]

/-! ## Expressions without columns -/

namespace Expression

mutual

def unplaced : Expression → Expression
  | .atom _ a                   => .atom Column.none a
  | .group _ b arguments closed => .group Column.none b (unplacedArguments arguments) closed

def unplacedList : List Expression → List Expression
  | []      => []
  | e :: es => unplaced e :: unplacedList es

def unplacedArguments : List (List Expression) → List (List Expression)
  | []      => []
  | a :: as => unplacedList a :: unplacedArguments as

end

mutual

theorem recast_unplaced : ∀ (e : Expression), e.recast .unplaced = e.unplaced
  | .atom _ a => congrArg (Expression.atom Column.none) a.recast_unplaced
  | .group _ b arguments closed =>
    congrArg (Expression.group Column.none b · closed) (recastArguments_unplaced arguments)

theorem recastList_unplaced : ∀ (es : List Expression), recastList .unplaced es = unplacedList es
  | [] => rfl
  | e :: es => by rw [recastList, recast_unplaced e, recastList_unplaced es, unplacedList]

theorem recastArguments_unplaced : ∀ (as : List (List Expression)), recastArguments .unplaced as = unplacedArguments as
  | [] => rfl
  | a :: as => by rw [recastArguments, recastList_unplaced a, recastArguments_unplaced as, unplacedArguments]

end

mutual

theorem unplaced_unplaced : ∀ (e : Expression), e.unplaced.unplaced = e.unplaced
  | .atom _ _ => rfl
  | .group _ b arguments closed =>
    congrArg (Expression.group Column.none b · closed) (unplacedArguments_unplacedArguments arguments)

theorem unplacedList_unplacedList : ∀ (es : List Expression), unplacedList (unplacedList es) = unplacedList es
  | [] => rfl
  | e :: es => by rw [unplacedList, unplacedList, unplaced_unplaced e, unplacedList_unplacedList es]

theorem unplacedArguments_unplacedArguments : ∀ (as : List (List Expression)),
    unplacedArguments (unplacedArguments as) = unplacedArguments as
  | [] => rfl
  | a :: as => by
    rw [unplacedArguments, unplacedArguments, unplacedList_unplacedList a, unplacedArguments_unplacedArguments as]

end

theorem unplacedList_eq_map : ∀ (es : List Expression), unplacedList es = es.map unplaced
  | [] => rfl
  | e :: es => by rw [unplacedList, unplacedList_eq_map es, List.map_cons]

@[simp] theorem unplacedList_nil : unplacedList [] = [] := rfl

theorem isSeparator_unplaced (e : Expression) : e.unplaced.isSeparator = e.isSeparator := by
  rw [← recast_unplaced, isSeparator_recast]

def Piece.unplaced : Piece → Piece
  | .expression e    => .expression e.unplaced
  | .access word a _ => .access word.unplaced a 0

theorem Piece.recast_unplaced : Piece.recast .unplaced = Piece.unplaced := by
  funext p
  cases p with
  | expression e => exact congrArg Piece.expression e.recast_unplaced
  | access word a stop => exact congrArg (Piece.access · a 0) (congrFun Token.recast_unplaced word)

theorem foldl_settle_unplaced (ps : List Piece) (es : List Expression) :
    unplacedList (ps.foldl settle es) = (ps.map Piece.unplaced).foldl settle (unplacedList es) := by
  simp only [← recastList_unplaced, ← Piece.recast_unplaced, foldl_settle_recast]

theorem argumentsOf_unplacedList (es : List Expression) :
    argumentsOf (unplacedList es) = unplacedArguments (argumentsOf es) := by
  rw [← recastList_unplaced, argumentsOf_recastList, recastArguments_unplaced]

theorem nameFile_unplaced (es : List Expression) : nameFile (unplacedList es) = unplacedList (nameFile es) := by
  rw [← recastList_unplaced, nameFile_recastList, recastList_unplaced]

end Expression

/-! ## Statements without lines and columns -/

def Statement.unplaced (s : Statement) : Statement :=
  ⟨0, Column.none, s.keyword.map (fun k => (Column.none, k.2)), Expression.unplacedList s.expressions⟩

theorem Statement.recast_unplaced (s : Statement) : s.recast .unplaced = s.unplaced := by
  rw [Statement.recast, Expression.recastList_unplaced]
  rfl

theorem Statement.unplaced_unplaced (s : Statement) : s.unplaced.unplaced = s.unplaced := by
  simp only [Statement.unplaced, Expression.unplacedList_unplacedList, Option.map_map, Function.comp_def]

namespace Run

def unplaced (r : Run) : Run := ⟨0, 0, r.tokens.map Token.unplaced⟩

theorem recast_unplaced (r : Run) : r.recast .unplaced = r.unplaced := by
  rw [recast, Token.recast_unplaced]
  rfl

theorem isOpen_unplaced (r : Run) : r.unplaced.isOpen = r.isOpen := by rw [← recast_unplaced, isOpen_recast]

theorem operands_unplaced (r : Run) : r.unplaced.operands = r.operands.map Token.unplaced := by
  rw [← recast_unplaced, operands_recast, Token.recast_unplaced]

theorem unplaced_statement_unplaced (table : Table) (r : Run) :
    (r.unplaced.statement table).unplaced = (r.statement table).unplaced := by
  rw [← recast_unplaced, statement_recast .unplaced (t := table) (fun _ => rfl) (fun x _ => x.caseless_unplaced),
    Statement.recast_unplaced, Statement.unplaced_unplaced]

theorem diagnostics_unplaced (r : Run) : r.unplaced.diagnostics = [] ↔ r.diagnostics = [] := by
  rw [← recast_unplaced, diagnostics_recast, diagnostics, diagnosticsWithin, List.map_eq_nil_iff, List.map_eq_nil_iff]

end Run
end BlockBasic
