import BlockBasic.Proofs.Faultless
/-!
# Atoms — what can be seen of the atoms of a statement, before and after it is built

An expression holds atoms at any depth (`atoms`).  Building moves few of them: separators cut a group into arguments, an
access changes the last mode before it, and the first string becomes the name of a file.  A view of atoms that looks at none
of these is `Steady`, and sees in the expressions of a run what it sees in the nests that they are made of
(`Run.filterMap_atoms`).  What is malformed is seen by such a view.
-/
namespace BlockBasic

open Expression (Piece phrasePiece settle nestPiece nestPieces ofNests nameFile)

namespace Expression

mutual

/-- **The atoms in an expression**, at any depth and in order, each with its column. -/
def atoms : Expression → List (Column × Atom)
  | .atom c a              => [(c, a)]
  | .group _ _ arguments _ => atomsOfArguments arguments

def atomsOf : List Expression → List (Column × Atom)
  | []      => []
  | e :: es => atoms e ++ atomsOf es

def atomsOfArguments : List (List Expression) → List (Column × Atom)
  | []      => []
  | a :: as => atomsOf a ++ atomsOfArguments as

end

@[simp] theorem atomsOf_append (xs ys : List Expression) : atomsOf (xs ++ ys) = atomsOf xs ++ atomsOf ys := by
  induction xs with
  | nil         => rfl
  | cons x xs ih => simp [atomsOf, ih]

@[simp] theorem atomsOf_singleton (e : Expression) : atomsOf [e] = atoms e := by simp [atomsOf]

theorem atomsOfArguments_eq_flatten (as : List (List Expression)) : atomsOfArguments as = atomsOf as.flatten := by
  induction as with
  | nil         => rfl
  | cons a as ih => simp [atomsOfArguments, ih]

/-! ## Arguments -/

theorem flatten_cutArguments (es : List Expression) :
    (cutArguments es).flatten = es.filter (fun e => !e.isSeparator) := by
  induction es with
  | nil => rfl
  | cons e es ih =>
    rw [cutArguments]
    cases he : e.isSeparator with
    | true =>
      rw [if_pos rfl, List.flatten_cons, List.nil_append, ih, List.filter_cons_of_neg (by simp [he])]
    | false =>
      rw [if_neg Bool.false_ne_true, List.filter_cons_of_pos (by simp [he]), ← ih]
      cases hc : cutArguments es with
      | nil       => exact absurd hc (cutArguments_ne_nil es)
      | cons a as => rfl

/-- **The arguments hold all expressions of a group but the separators.** -/
theorem flatten_argumentsOf (es : List Expression) :
    (argumentsOf es).flatten = es.filter (fun e => !e.isSeparator) := by
  cases es with
  | nil       => rfl
  | cons e es => exact flatten_cutArguments (e :: es)

/-! ## Access -/

def isMode : Expression → Bool
  | .atom _ (.mode _ _) => true
  | _                   => false

theorem isMode_iff {e : Expression} : e.isMode = true ↔ ∃ c m access, e = .atom c (.mode m access) := by
  constructor
  · intro h
    match e, h with
    | .atom c (.mode m access), _ => exact ⟨c, m, access, rfl⟩
  · rintro ⟨c, m, access, rfl⟩
    rfl

theorem grant?_eq_none {a : FileAccess} {stop : Nat} {es : List Expression} :
    grant? a stop es = none ↔ ∀ e ∈ es, e.isMode = false := by
  induction es with
  | nil => exact iff_of_true rfl (List.forall_mem_nil _)
  | cons e es ih =>
    rw [List.forall_mem_cons]
    unfold grant?
    cases hr : grant? a stop es with
    | some granted =>
      rw [hr] at ih
      exact iff_of_false (Option.some_ne_none _) (fun h => Option.some_ne_none _ (ih.2 h.2))
    | none =>
      simp only
      split
      · exact iff_of_false (Option.some_ne_none _) (fun h => Bool.noConfusion h.1)
      · rename_i hno
        refine iff_of_true rfl ⟨Bool.eq_false_iff.2 fun he => ?_, ih.1 hr⟩
        obtain ⟨c, m, access, rfl⟩ := isMode_iff.1 he
        exact hno c m access rfl

/-- **An access is granted to the last mode**, and nothing else changes. -/
theorem grant?_eq_some {a : FileAccess} {stop : Nat} : ∀ {es granted : List Expression}, grant? a stop es = some granted →
    ∃ before c m access after, es = before ++ .atom c (.mode m access) :: after ∧ (∀ e ∈ after, e.isMode = false) ∧
      granted = before ++ .atom ⟨c.start, stop⟩ (.mode m (some a)) :: after
  | e :: es, granted, h => by
    unfold grant? at h
    cases hr : grant? a stop es with
    | some rest =>
      rw [hr] at h
      cases h
      obtain ⟨before, c, m, access, after, rfl, hafter, rfl⟩ := grant?_eq_some hr
      exact ⟨e :: before, c, m, access, after, rfl, hafter, rfl⟩
    | none =>
      rw [hr] at h
      simp only at h
      split at h
      · rename_i c m access
        cases h
        exact ⟨[], c, m, access, es, rfl, grant?_eq_none.1 hr, rfl⟩
      · cases h

/-! ## Steady views -/

variable {β : Type} {f : Column × Atom → Option β}

/-- **A view of atoms that building does not disturb**: it looks at no separator, at nothing that has a part in an access,
and at no string and no name of a file. -/
structure Steady (f : Column × Atom → Option β) : Prop where
  separator : ∀ c x, f (c, .separator x) = none
  mode      : ∀ c m access, f (c, .mode m access) = none
  access    : ∀ c, f (c, .keyword (.word .access)) = none
  string    : ∀ c t spelling, f (c, .literal (.string t) spelling) = none
  fileName  : ∀ c t, f (c, .fileName t) = none

namespace Steady

theorem argumentsOf (hf : Steady f) (es : List Expression) :
    (atomsOfArguments (argumentsOf es)).filterMap f = (atomsOf es).filterMap f := by
  rw [atomsOfArguments_eq_flatten, flatten_argumentsOf]
  induction es with
  | nil => rfl
  | cons e es ih =>
    by_cases he : e.isSeparator = true
    · -- A separator is an atom that the view does not look at.
      obtain ⟨c, x, rfl⟩ : ∃ c x, e = .atom c (.separator x) := by
        unfold isSeparator at he
        split at he
        · exact ⟨_, _, rfl⟩
        · cases he
      simp [he, ih, atomsOf, atoms, hf.separator]
    · simp [he, ih, atomsOf]

end Steady

def Piece.atoms : Piece → List (Column × Atom)
  | .expression e => Expression.atoms e
  | .access _ _ _ => []

namespace Steady

theorem settle (hf : Steady f) (es : List Expression) (p : Piece) :
    (atomsOf (settle es p)).filterMap f = (atomsOf es).filterMap f ++ p.atoms.filterMap f := by
  cases p with
  | expression e => simp [Expression.settle, Piece.atoms]
  | access word a stop =>
    rw [Expression.settle, Piece.atoms, List.filterMap_nil, List.append_nil]
    cases hg : grant? a stop es with
    | some granted =>
      obtain ⟨before, c, m, access, after, rfl, -, rfl⟩ := grant?_eq_some hg
      simp [atomsOf, Expression.atoms, hf.mode]
    | none => simp [Expression.atoms, hf.access]

theorem foldl_settle (hf : Steady f) (ps : List Piece) (es : List Expression) :
    (atomsOf (ps.foldl Expression.settle es)).filterMap f =
      (atomsOf es).filterMap f ++ (ps.flatMap Piece.atoms).filterMap f := by
  induction ps generalizing es with
  | nil         => simp
  | cons p ps ih => rw [List.foldl_cons, ih, hf.settle]; simp

end Steady

/-! ## The name of a file -/

/-- **A view that takes a string and the name of a file for the same.** -/
def NameBlind (f : Column × Atom → Option β) : Prop :=
  ∀ c t spelling, f (c, .literal (.string t) spelling) = f (c, .fileName t)

theorem Steady.nameBlind (hf : Steady f) : NameBlind f := by
  intro c t spelling
  rw [hf.string, hf.fileName]

namespace NameBlind

mutual

theorem nameFile? (hf : NameBlind f) : ∀ {e named : Expression}, nameFile? e = some named →
    (atoms named).filterMap f = (atoms e).filterMap f
  | .atom c a, named, h => by
    cases a with
    | literal value spelling =>
      cases value with
      | string t =>
        cases h
        rw [atoms, atoms, List.filterMap_cons, List.filterMap_cons, hf]
      | integer | float => cases h
    | _ => cases h
  | .group c b arguments closed, named, h => by
    obtain ⟨as, has, rfl⟩ := Option.map_eq_some_iff.1 h
    exact hf.nameFileInArguments? has

theorem nameFileIn? (hf : NameBlind f) : ∀ {es named : List Expression}, nameFileIn? es = some named →
    (atomsOf named).filterMap f = (atomsOf es).filterMap f
  | e :: es, named, h => by
    unfold Expression.nameFileIn? at h
    split at h
    · rename_i x he
      cases h
      simp [atomsOf, hf.nameFile? he]
    · obtain ⟨rest, hr, rfl⟩ := Option.map_eq_some_iff.1 h
      simp [atomsOf, hf.nameFileIn? hr]

theorem nameFileInArguments? (hf : NameBlind f) : ∀ {as named : List (List Expression)},
    nameFileInArguments? as = some named →
      (atomsOfArguments named).filterMap f = (atomsOfArguments as).filterMap f
  | a :: as, named, h => by
    unfold Expression.nameFileInArguments? at h
    split at h
    · rename_i x ha
      cases h
      simp [atomsOfArguments, hf.nameFileIn? ha]
    · obtain ⟨rest, hr, rfl⟩ := Option.map_eq_some_iff.1 h
      simp [atomsOfArguments, hf.nameFileInArguments? hr]

end

theorem nameFile (hf : NameBlind f) (es : List Expression) :
    (atomsOf (nameFile es)).filterMap f = (atomsOf es).filterMap f := by
  unfold Expression.nameFile
  cases h : Expression.nameFileIn? es with
  | none       => rfl
  | some named => exact hf.nameFileIn? h

end NameBlind

end Expression

/-! ## The atoms of nests -/

namespace Nest

open Expression (Steady atoms atomsOf)

variable {β : Type} {f : Column × Atom → Option β} (limit : Limit) (table : Table)

mutual

/-- The atoms of a nest inside `depth` groups, as they are before accesses are granted and a file is named. -/
def atoms (depth : Nat) : Nest → List (Column × Atom)
  | .leaf p                             => (phrasePiece table p).atoms
  | .group bracket opening body closing =>
    if limit.exceeded depth then [(groupColumn opening body closing, .malformed (rawText bracket body closing))]
    else atomsOf (depth + 1) body

def atomsOf (depth : Nat) : List Nest → List (Column × Atom)
  | []      => []
  | n :: ns => atoms depth n ++ atomsOf depth ns

end

mutual

theorem filterMap_atoms_nestPiece (hf : Steady f) (depth : Nat) : ∀ (n : Nest),
    (nestPiece limit table depth n).atoms.filterMap f = (atoms limit table depth n).filterMap f
  | .leaf p => rfl
  | .group b o body c => by
    unfold nestPiece atoms
    split
    · rfl
    · rw [Piece.atoms, Expression.atoms, hf.argumentsOf, hf.foldl_settle]
      exact filterMap_atoms_nestPieces hf (depth + 1) body

theorem filterMap_atoms_nestPieces (hf : Steady f) (depth : Nat) : ∀ (ns : List Nest),
    ((nestPieces limit table depth ns).flatMap Piece.atoms).filterMap f = (atomsOf limit table depth ns).filterMap f
  | []      => rfl
  | n :: ns => by
    simp [nestPieces, atomsOf, filterMap_atoms_nestPiece hf depth n, ← filterMap_atoms_nestPieces hf depth ns]

end

end Nest

theorem Run.filterMap_atoms {β : Type} {f : Column × Atom → Option β} (hf : Expression.Steady f) (limit : Limit)
    (table : Table) (r : Run) : (Expression.atomsOf (r.expressions limit table)).filterMap f =
      (Nest.atomsOf limit table 0 (r.nests limit)).filterMap f := by
  have hnests : (Expression.atomsOf (ofNests limit table (r.nests limit))).filterMap f =
      (Nest.atomsOf limit table 0 (r.nests limit)).filterMap f := by
    rw [ofNests, hf.foldl_settle]
    exact Nest.filterMap_atoms_nestPieces limit table hf 0 _
  unfold expressions
  split
  · rw [hf.nameBlind.nameFile, hnests]
  · exact hnests

/-! ## What is malformed -/

def malformed? : Column × Atom → Option (Column × Text)
  | (c, .malformed t) => some (c, t)
  | _                 => none

theorem steady_malformed? : Expression.Steady malformed? :=
  ⟨fun _ _ => rfl, fun _ _ _ => rfl, fun _ => rfl, fun _ _ _ => rfl, fun _ _ => rfl⟩

/-- **The malformed atoms in expressions**, at any depth and in order. -/
def Expression.malformedOf (es : List Expression) : List (Column × Text) := (atomsOf es).filterMap malformed?

end BlockBasic
