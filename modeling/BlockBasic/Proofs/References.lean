import BlockBasic.Proofs.Atoms
import BlockBasic.Proofs.Relisting
import BlockBasic.Proofs.SeenNames
import BlockBasic.Proofs.SourceOrder
/-!
# References — the names in a tree are names of the source

A program refers by name in its statements, in the terminators of its blocks and in groups at any depth.  Read in the
order of the tree, its references are name tokens of the source in the order of the source, each with the key that the
table finds under its name (`references_nestPiece`); none is moved, although the words of an access clause are, and none
is made up (`references_sublist`).  Names in groups that are too deep to be built are not referred to.
-/
namespace BlockBasic

/-- A reference by name: where it stands, how the name is spelled, and the key of what it refers to. -/
structure Reference where
  line   : Nat
  column : Column
  name   : Text
  key    : Option Key
deriving DecidableEq

namespace Reference

def ofToken (table : Table) (line : Nat) (t : Token) : Reference :=
  ⟨line, t.column, t.text, (table.lookup t.text).map Declaration.key⟩

def place (x : Reference) : Nat × Column × Text := (x.line, x.column, x.name)

end Reference

namespace Expression

variable (line : Nat)

mutual

def references : Expression → List Reference
  | .atom c (.reference name key) => [⟨line, c, name, key⟩]
  | .atom _ _                     => []
  | .group _ _ arguments _        => referencesOfArguments arguments

def referencesOf : List Expression → List Reference
  | []      => []
  | e :: es => references e ++ referencesOf es

def referencesOfArguments : List (List Expression) → List Reference
  | []      => []
  | a :: as => referencesOf a ++ referencesOfArguments as

end

def referred? : Column × Atom → Option Reference
  | (c, .reference name key) => some ⟨line, c, name, key⟩
  | _                        => none

theorem steady_referred? : Steady (referred? line) :=
  ⟨fun _ _ => rfl, fun _ _ _ => rfl, fun _ => rfl, fun _ _ _ => rfl, fun _ _ => rfl⟩

mutual

/-- References are atoms, so whatever keeps the atoms that a steady view sees keeps them. -/
theorem references_eq_atoms : ∀ (e : Expression), references line e = (atoms e).filterMap (referred? line)
  | .atom c a => by cases a <;> rfl
  | .group c b arguments closed => referencesOfArguments_eq_atoms arguments

theorem referencesOf_eq_atoms : ∀ (es : List Expression),
    referencesOf line es = (atomsOf es).filterMap (referred? line)
  | []      => rfl
  | e :: es => by
    rw [referencesOf, atomsOf, List.filterMap_append, references_eq_atoms e, referencesOf_eq_atoms es]

theorem referencesOfArguments_eq_atoms : ∀ (as : List (List Expression)),
    referencesOfArguments line as = (atomsOfArguments as).filterMap (referred? line)
  | []      => rfl
  | a :: as => by
    rw [referencesOfArguments, atomsOfArguments, List.filterMap_append, referencesOf_eq_atoms a,
      referencesOfArguments_eq_atoms as]

end

/-! ## Building keeps references -/

theorem references_of_name? {e : Expression} {c : Column} {a : Atom} (he : e = .atom c a) (h : e.name? = none) :
    references line e = [] := by
  subst he
  cases a with
  | reference => cases h
  | _ => rfl

theorem references_tokenAtom (table : Table) (t : Token) : references line (.atom t.column (tokenAtom table t)) =
    if t.kind = .name then [Reference.ofToken table line t] else [] := by
  have hname := name?_tokenAtom table t
  by_cases hk : t.kind = .name
  · rw [if_pos hk, tokenAtom, hk]
    rfl
  · rw [if_neg hk] at hname ⊢
    exact references_of_name? line rfl hname

theorem references_argumentsOf (es : List Expression) :
    referencesOfArguments line (argumentsOf es) = referencesOf line es := by
  rw [referencesOfArguments_eq_atoms, referencesOf_eq_atoms, (steady_referred? line).argumentsOf]

def Piece.references : Piece → List Reference
  | .expression e => Expression.references line e
  | .access _ _ _ => []

theorem Piece.references_eq_atoms (p : Piece) : p.references line = p.atoms.filterMap (referred? line) := by
  cases p with
  | expression e => exact Expression.references_eq_atoms line e
  | access       => rfl

theorem references_foldl_settle (ps : List Piece) (es : List Expression) :
    referencesOf line (ps.foldl settle es) = referencesOf line es ++ ps.flatMap (Piece.references line) := by
  have hpieces : Piece.references line = fun p => p.atoms.filterMap (referred? line) :=
    funext fun p => p.references_eq_atoms line
  rw [referencesOf_eq_atoms, referencesOf_eq_atoms, (steady_referred? line).foldl_settle, List.filterMap_flatMap, hpieces]

theorem references_nameFile (es : List Expression) : referencesOf line (nameFile es) = referencesOf line es := by
  rw [referencesOf_eq_atoms, referencesOf_eq_atoms, (steady_referred? line).nameBlind.nameFile]

end Expression

/-! ## Names of nests -/

namespace Nest

variable (limit : Limit)

mutual

/-- The names in a nest inside `depth` groups, less those in groups that are too deep. -/
def names (depth : Nat) : Nest → List Token
  | .leaf (.token t)    => if t.kind = .name then [t] else []
  | .leaf _             => []
  | .group _ _ body _   => if limit.exceeded depth then [] else namesOf (depth + 1) body

def namesOf (depth : Nat) : List Nest → List Token
  | []      => []
  | n :: ns => names depth n ++ namesOf depth ns

end

mutual

theorem names_sublist (depth : Nat) : ∀ (n : Nest), (names limit depth n).Sublist (n.tokens.filter (·.kind == .name))
  | .leaf (.token t) => by
    by_cases hk : t.kind = .name <;> simp [names, tokens, Phrase.tokens, hk]
  | .leaf (.handle _ _ _) | .leaf (.mode _ _ _) | .leaf (.access _ _ _ _) => List.nil_sublist _
  | .group b o body c => by
    rw [names, tokens]
    split
    · exact List.nil_sublist _
    · have hbody := namesOf_sublist (depth + 1) body
      refine hbody.trans (List.Sublist.filter _ ?_)
      exact (List.sublist_append_left _ _).trans (List.sublist_cons_self o _)

theorem namesOf_sublist (depth : Nat) : ∀ (ns : List Nest),
    (namesOf limit depth ns).Sublist ((tokensOf ns).filter (·.kind == .name))
  | [] => List.nil_sublist _
  | n :: ns => by
    rw [namesOf, tokensOf, List.filter_append]
    exact (names_sublist depth n).append (namesOf_sublist depth ns)

end

end Nest

namespace Expression

variable (limit : Limit) (table : Table) (line : Nat)

mutual

theorem references_nestPiece (depth : Nat) : ∀ (n : Nest), (nestPiece limit table depth n).references line =
    (Nest.names limit depth n).map (Reference.ofToken table line)
  | .leaf (.token t) => by
    rw [nestPiece, phrasePiece, Piece.references, references_tokenAtom, Nest.names]
    split <;> rfl
  | .leaf (.handle _ _ _) | .leaf (.mode _ _ _) | .leaf (.access _ _ _ _) => rfl
  | .group b o body c => by
    rw [nestPiece, Nest.names]
    split
    · rfl
    · rw [Piece.references, references, references_argumentsOf, references_foldl_settle, references_nestPieces]
      rfl

theorem references_nestPieces (depth : Nat) : ∀ (ns : List Nest),
    (nestPieces limit table depth ns).flatMap (Piece.references line) =
      (Nest.namesOf limit depth ns).map (Reference.ofToken table line)
  | [] => rfl
  | n :: ns => by
    rw [nestPieces, List.flatMap_cons, references_nestPiece depth n, references_nestPieces depth ns, Nest.namesOf,
      List.map_append]

end

theorem references_ofNests (ns : List Nest) : referencesOf line (ofNests limit table ns) =
    (Nest.namesOf limit 0 ns).map (Reference.ofToken table line) := by
  rw [ofNests, references_foldl_settle, references_nestPieces]
  rfl

end Expression

/-! ## Statements and programs -/

def Statement.references (s : Statement) : List Reference := Expression.referencesOf s.line s.expressions

/-- **The references in a program**, in the order of the tree: those of a header before those in its block, and those of
the terminator last. -/
def Program.references (p : Program) : List Reference := (Node.itemsOf p).flatMap Statement.references

theorem Run.references_statement (table : Table) (r : Run) : (r.statement table).references =
    (Nest.namesOf nestingLimit 0 (r.nests nestingLimit)).map (Reference.ofToken table r.number) := by
  rw [← Expression.references_ofNests]
  unfold Statement.references Run.statement Run.statementWithin Run.expressions
  split
  · exact Expression.references_nameFile r.number _
  · rfl

def namesIn (line : Nat) (ts : List Token) : List (Nat × Column × Text) :=
  (ts.filter (·.kind == .name)).map (fun t => (line, t.column, t.text))

theorem namesIn_append (line : Nat) (ts us : List Token) :
    namesIn line (ts ++ us) = namesIn line ts ++ namesIn line us := by
  rw [namesIn, List.filter_append, List.map_append]
  rfl

theorem namesIn_sublist (line : Nat) {ts us : List Token} (h : ts.Sublist us) :
    (namesIn line ts).Sublist (namesIn line us) := (h.filter _).map _

namespace Run

theorem operands_sublist (r : Run) : r.operands.Sublist r.tokens := by
  unfold operands
  split
  · exact List.drop_sublist 1 _
  · exact List.Sublist.refl _

theorem references_sublist_run (table : Table) (r : Run) :
    ((r.statement table).references.map Reference.place).Sublist (namesIn r.number r.tokens) := by
  rw [references_statement, List.map_map]
  have hnames := Nest.namesOf_sublist nestingLimit 0 (r.nests nestingLimit)
  rw [tokensOf_nests] at hnames
  exact (hnames.map _).trans (namesIn_sublist r.number r.operands_sublist)

end Run

namespace CodeLine

theorem stretches_sublist : ∀ (depth : Nat) (ts : List Token), (stretches depth ts).flatten.Sublist ts
  | _, [] => List.Sublist.refl _
  | depth, t :: ts => by
    have ih := stretches_sublist (depthAfter depth t) ts
    rw [stretches]
    split
    · exact (stretches_sublist depth ts).cons t
    · cases hs : stretches (depthAfter depth t) ts with
      | nil => exact List.singleton_sublist.2 List.mem_cons_self
      | cons r rs =>
        rw [hs] at ih
        exact ih.cons_cons t

theorem runs_sublist (l : CodeLine) : l.runs.flatten.Sublist l.tokens := by
  have hruns : l.runs.flatten = (stretches 0 l.tokens).flatten := List.flatten_filter_not_isEmpty
  rw [hruns]
  exact stretches_sublist 0 l.tokens

end CodeLine

theorem references_sublist_runsFrom (table : Table) : ∀ (lines : List CodeLine) (index : Nat),
    (((runsFrom index lines).flatMap (fun r => (r.statement table).references)).map Reference.place).Sublist
      (lines.flatMap (fun l => namesIn l.number l.tokens))
  | [], _ => List.nil_sublist _
  | l :: ls, index => by
    have hline : ∀ tss : List (List Token),
        (((tss.map (fun ts => (⟨index, l.number, ts⟩ : Run))).flatMap (fun r => (r.statement table).references)).map
          Reference.place).Sublist (namesIn l.number tss.flatten) := by
      intro tss
      induction tss with
      | nil => exact List.nil_sublist _
      | cons ts tss ih =>
        rw [List.map_cons, List.flatMap_cons, List.map_append, List.flatten_cons, namesIn_append]
        exact (Run.references_sublist_run table ⟨index, l.number, ts⟩).append ih
    rw [runsFrom, List.flatMap_append, List.map_append, List.flatMap_cons]
    exact ((hline l.runs).trans (namesIn_sublist l.number l.runs_sublist)).append
      (references_sublist_runsFrom table ls (index + 1))

theorem references_ofRuns (table : Table) (runs : List Run) :
    Program.references (Program.ofRuns table runs) = runs.flatMap (fun r => (r.statement table).references) := by
  rw [Program.references, itemsOf_ofRuns, List.flatMap_map]

/-- **The references of a program are names of its lines**, in the order of the source and as they are spelled there. -/
theorem references_sublist (table : Table) (lines : List CodeLine) :
    ((Program.references (Program.ofLines table lines)).map Reference.place).Sublist
      (lines.flatMap (fun l => namesIn l.number l.tokens)) := by
  rw [Program.ofLines, references_ofRuns]
  exact references_sublist_runsFrom table lines 0

theorem key_of_mem_references {table : Table} {runs : List Run} {x : Reference}
    (hx : x ∈ Program.references (Program.ofRuns table runs)) : x.key = (table.lookup x.name).map Declaration.key := by
  rw [references_ofRuns] at hx
  obtain ⟨r, -, hx⟩ := List.mem_flatMap.1 hx
  rw [Run.references_statement] at hx
  obtain ⟨t, -, rfl⟩ := List.mem_map.1 hx
  rfl

end BlockBasic
