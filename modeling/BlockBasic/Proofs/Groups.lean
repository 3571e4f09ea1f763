import BlockBasic.Proofs.Atoms
import BlockBasic.Proofs.References
import BlockBasic.Proofs.SeenNames
import BlockBasic.Proofs.Tiling
/-!
# Groups — the groups of a statement, and the nests that they are made of

Of a group only its column and the columns of what its arguments are made of matter for what lies where (`Group`).  The
groups in the expressions of nests are the groups of brackets that are looked into, each with the expressions of the nests
in it (`groups_items`); neither an access nor the name of a file changes that.
-/
namespace BlockBasic

/-- **A group by its columns**: its own, and those of the expressions in each of its arguments. -/
structure Group where
  column    : Column
  bracket   : Bracket
  arguments : List (List Column)
  closed    : Bool
deriving DecidableEq

namespace Expression

def columns (es : List Expression) : List Column := es.map column

mutual

def groups : Expression → List Group
  | .atom _ _                     => []
  | .group c b arguments closed   => ⟨c, b, arguments.map columns, closed⟩ :: groupsOfArguments arguments

def groupsOf : List Expression → List Group
  | []      => []
  | e :: es => groups e ++ groupsOf es

def groupsOfArguments : List (List Expression) → List Group
  | []      => []
  | a :: as => groupsOf a ++ groupsOfArguments as

end

@[simp] theorem groupsOf_append (xs ys : List Expression) : groupsOf (xs ++ ys) = groupsOf xs ++ groupsOf ys := by
  induction xs with
  | nil => rfl
  | cons x xs ih => rw [List.cons_append, groupsOf, groupsOf, ih, List.append_assoc]

@[simp] theorem groupsOf_singleton (e : Expression) : groupsOf [e] = groups e := List.append_nil _

/-! ## Arguments -/

theorem groups_separator {e : Expression} (h : e.isSeparator = true) : groups e = [] := by
  cases e with
  | atom    => rfl
  | group   => cases h

theorem groups_cutArguments (es : List Expression) : groupsOfArguments (cutArguments es) = groupsOf es := by
  induction es with
  | nil => rfl
  | cons e es ih =>
    rw [cutArguments, groupsOf]
    cases he : e.isSeparator with
    | true =>
      rw [if_pos rfl, groupsOfArguments, ih, groups_separator he]
      rfl
    | false =>
      rw [if_neg Bool.false_ne_true, ← ih]
      cases hc : cutArguments es with
      | nil       => exact absurd hc (cutArguments_ne_nil es)
      | cons a as => simp only [groupsOfArguments, groupsOf, List.append_assoc]

theorem groups_argumentsOf (es : List Expression) : groupsOfArguments (argumentsOf es) = groupsOf es := by
  cases es with
  | nil       => rfl
  | cons e es => exact groups_cutArguments (e :: es)

/-! ## Access -/

def Piece.groups : Piece → List Group
  | .expression e => Expression.groups e
  | .access _ _ _ => []

theorem groups_settle (es : List Expression) (p : Piece) : groupsOf (settle es p) = groupsOf es ++ p.groups := by
  cases p with
  | expression e => rw [settle, groupsOf_append, groupsOf_singleton, Piece.groups]
  | access word a stop =>
    rw [settle, Piece.groups, List.append_nil]
    cases hg : grant? a stop es with
    | some granted =>
      obtain ⟨before, c, m, access, after, rfl, -, rfl⟩ := grant?_eq_some hg
      rw [Option.getD_some, groupsOf_append, groupsOf_append]
      rfl
    | none =>
      rw [Option.getD_none, groupsOf_append]
      exact List.append_nil _

theorem groups_foldl_settle (ps : List Piece) (es : List Expression) :
    groupsOf (ps.foldl settle es) = groupsOf es ++ ps.flatMap Piece.groups := by
  induction ps generalizing es with
  | nil         => exact (List.append_nil _).symm
  | cons p ps ih => rw [List.foldl_cons, ih, groups_settle, List.flatMap_cons, List.append_assoc]

/-! ## The name of a file -/

mutual

theorem groups_nameFile? : ∀ {e named : Expression}, nameFile? e = some named →
    named.column = e.column ∧ groups named = groups e
  | .atom c a, named, h => by
    cases a with
    | literal value spelling =>
      cases value with
      | string t =>
        cases h
        exact ⟨rfl, rfl⟩
      | integer | float => cases h
    | _ => cases h
  | .group c b arguments closed, named, h => by
    obtain ⟨as, has, rfl⟩ := Option.map_eq_some_iff.1 h
    obtain ⟨hcolumns, hgroups⟩ := groups_nameFileInArguments? has
    refine ⟨rfl, ?_⟩
    rw [groups, groups, hcolumns, hgroups]

theorem groups_nameFileIn? : ∀ {es named : List Expression}, nameFileIn? es = some named →
    columns named = columns es ∧ groupsOf named = groupsOf es
  | e :: es, named, h => by
    rw [nameFileIn?] at h
    cases he : nameFile? e with
    | some x =>
      rw [he] at h
      cases h
      obtain ⟨hcolumn, hgroups⟩ := groups_nameFile? he
      rw [columns, columns, List.map_cons, List.map_cons, groupsOf, groupsOf, hcolumn, hgroups]
      exact ⟨rfl, rfl⟩
    | none =>
      rw [he] at h
      obtain ⟨rest, hr, rfl⟩ := Option.map_eq_some_iff.1 h
      obtain ⟨hcolumns, hgroups⟩ := groups_nameFileIn? hr
      rw [groupsOf, groupsOf, hgroups]
      exact ⟨congrArg (e.column :: ·) hcolumns, rfl⟩

theorem groups_nameFileInArguments? : ∀ {as named : List (List Expression)}, nameFileInArguments? as = some named →
    named.map columns = as.map columns ∧ groupsOfArguments named = groupsOfArguments as
  | a :: as, named, h => by
    rw [nameFileInArguments?] at h
    cases ha : nameFileIn? a with
    | some x =>
      rw [ha] at h
      cases h
      obtain ⟨hcolumns, hgroups⟩ := groups_nameFileIn? ha
      rw [List.map_cons, List.map_cons, groupsOfArguments, groupsOfArguments, hcolumns, hgroups]
      exact ⟨rfl, rfl⟩
    | none =>
      rw [ha] at h
      obtain ⟨rest, hr, rfl⟩ := Option.map_eq_some_iff.1 h
      obtain ⟨hcolumns, hgroups⟩ := groups_nameFileInArguments? hr
      rw [List.map_cons, List.map_cons, groupsOfArguments, groupsOfArguments, hcolumns, hgroups]
      exact ⟨rfl, rfl⟩

end

/-- **Naming a file moves nothing.** -/
theorem groups_nameFile (es : List Expression) :
    columns (nameFile es) = columns es ∧ groupsOf (nameFile es) = groupsOf es := by
  rw [nameFile]
  cases h : nameFileIn? es with
  | none       => exact ⟨rfl, rfl⟩
  | some named => exact groups_nameFileIn? h

def items (limit : Limit) (table : Table) (depth : Nat) (ns : List Nest) : List Expression :=
  (nestPieces limit table depth ns).foldl settle []

end Expression

/-! ## Groups of brackets that are looked into -/

namespace Nest

open Expression (items argumentsOf columns)

/-- A group of brackets, and the number of groups around it. -/
structure Built where
  depth   : Nat
  bracket : Bracket
  opening : Token
  body    : List Nest
  closing : Option Token

namespace Built

def nest (x : Built) : Nest := .group x.bracket x.opening x.body x.closing

def group (limit : Limit) (table : Table) (x : Built) : Group :=
  ⟨groupColumn x.opening x.body x.closing, x.bracket,
    (argumentsOf (items limit table (x.depth + 1) x.body)).map columns, x.closing.isSome⟩

end Built

mutual

/-- The groups in a nest inside `depth` others that are not too deep, in the order in which they open. -/
def built (limit : Limit) (depth : Nat) : Nest → List Built
  | .leaf _                             => []
  | .group bracket opening body closing =>
    if limit.exceeded depth then []
    else ⟨depth, bracket, opening, body, closing⟩ :: builtOf limit (depth + 1) body

def builtOf (limit : Limit) (depth : Nat) : List Nest → List Built
  | []      => []
  | n :: ns => built limit depth n ++ builtOf limit depth ns

end

mutual

theorem groups_nestPiece (limit : Limit) (table : Table) (depth : Nat) : ∀ (n : Nest),
    (Expression.nestPiece limit table depth n).groups = (built limit depth n).map (Built.group limit table)
  | .leaf p => by
    cases p <;> rfl
  | .group b o body c => by
    rw [Expression.nestPiece, built]
    split
    · rfl
    · rw [Expression.Piece.groups, Expression.groups, Expression.groups_argumentsOf, List.map_cons,
        Expression.groups_foldl_settle, groups_nestPieces limit table (depth + 1) body]
      rfl

theorem groups_nestPieces (limit : Limit) (table : Table) (depth : Nat) : ∀ (ns : List Nest),
    (Expression.nestPieces limit table depth ns).flatMap Expression.Piece.groups =
      (builtOf limit depth ns).map (Built.group limit table)
  | [] => rfl
  | n :: ns => by
    rw [Expression.nestPieces, builtOf, List.flatMap_cons, List.map_append, groups_nestPiece limit table depth n,
      groups_nestPieces limit table depth ns]

end

/-- **The groups in the expressions of nests are the groups of brackets that are looked into.** -/
theorem groups_items (limit : Limit) (table : Table) (depth : Nat) (ns : List Nest) :
    Expression.groupsOf (items limit table depth ns) = (builtOf limit depth ns).map (Built.group limit table) := by
  rw [items, Expression.groups_foldl_settle, groups_nestPieces]
  rfl

/-! ## Where the groups of brackets stand -/

mutual

theorem flat_built {limit : Limit} {depth : Nat} : ∀ {n : Nest}, ∀ x ∈ built limit depth n, flat x.nest <:+: flat n
  | .leaf p, x, hx => nomatch hx
  | .group b o body c, x, hx => by
    rw [built] at hx
    split at hx
    · cases hx
    · rcases List.mem_cons.1 hx with rfl | hx
      · exact List.infix_rfl
      · obtain ⟨before, behind, h⟩ := flatOf_built x hx
        rw [flat, ← h]
        exact ⟨.token o :: before, behind ++ c.toList.map Phrase.token, by simp⟩

theorem flatOf_built {limit : Limit} {depth : Nat} : ∀ {ns : List Nest}, ∀ x ∈ builtOf limit depth ns,
    flat x.nest <:+: flatOf ns
  | [], x, hx => nomatch hx
  | n :: ns, x, hx => by
    rw [flatOf]
    rcases List.mem_append.1 hx with hx | hx
    · exact (flat_built x hx).trans (List.prefix_append _ _).isInfix
    · exact (flatOf_built x hx).trans (List.suffix_append _ _).isInfix

end

mutual

theorem paired_built {limit : Limit} {inOpen : Bool} {depth : Nat} : ∀ {n : Nest}, Paired limit inOpen depth n →
    ∀ x ∈ built limit depth n, limit.exceeded x.depth = false ∧ Paired limit inOpen x.depth x.nest
  | .leaf p, _, x, hx => nomatch hx
  | .group b o body c, h, x, hx => by
    rw [built] at hx
    split at hx
    · cases hx
    · rename_i hdepth
      rcases List.mem_cons.1 hx with rfl | hx
      · exact ⟨Bool.eq_false_iff.2 hdepth, h⟩
      · cases h with
        | group _ _ hbody => exact paired_builtOf hbody x hx

theorem paired_builtOf {limit : Limit} {inOpen : Bool} {depth : Nat} : ∀ {ns : List Nest},
    (∀ n ∈ ns, Paired limit inOpen depth n) →
      ∀ x ∈ builtOf limit depth ns, limit.exceeded x.depth = false ∧ Paired limit inOpen x.depth x.nest
  | [], _, x, hx => nomatch hx
  | n :: ns, h, x, hx => by
    rcases List.mem_append.1 hx with hx | hx
    · exact paired_built (h n List.mem_cons_self) x hx
    · exact paired_builtOf (fun m hm => h m (List.mem_cons_of_mem n hm)) x hx

end

theorem tokens_built {limit : Limit} {depth : Nat} {ns : List Nest} {x : Built} (hx : x ∈ builtOf limit depth ns) :
    x.nest.tokens <:+: tokensOf ns := by
  obtain ⟨before, behind, h⟩ := flatOf_built x hx
  rw [← flatMap_tokens_flatOf, ← flatMap_tokens_flat, ← h, List.flatMap_append, List.flatMap_append]
  exact List.infix_append _ _ _

end Nest
end BlockBasic
