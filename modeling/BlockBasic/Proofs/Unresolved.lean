import BlockBasic.Parse
import BlockBasic.Proofs.Declared
import BlockBasic.Proofs.References
import Mathlib.Data.List.Induction
/-!
# Unresolved — what becomes of the references of a program

A reference has the key of what the table finds under its name, wherever in the source that is declared.  The walk over
the tree meets the references without a key in the order of the source, and each name that it meets for the first time is
kept (`foldl_addName`).  Names are kept or left out whatever their spelling, so it does not matter which of the two is
done first (`foldl_addName_filter`): what stays are the first spellings of the names that are neither declared nor
parameters of a routine (`unresolved_ofLines`).
-/
namespace BlockBasic

/-! ## First spellings -/

namespace Text

/-- **The first spellings of names**: those before which the name does not stand in any spelling. -/
def firsts (names : List Text) : List Text :=
  (names.zipIdx.filter (fun x => !(names.take x.2).any (alike · x.1))).map Prod.fst

theorem firsts_concat (names : List Text) (name : Text) : firsts (names ++ [name]) =
    if names.any (alike · name) then firsts names else firsts names ++ [name] := by
  have hbefore : names.zipIdx.filter (fun x => !((names ++ [name]).take x.2).any (alike · x.1)) =
      names.zipIdx.filter (fun x => !(names.take x.2).any (alike · x.1)) := by
    refine List.filter_congr fun x hx => ?_
    have hlt : x.2 < names.length := List.snd_lt_of_mem_zipIdx hx
    rw [List.take_append_of_le_length (Nat.le_of_lt hlt)]
  rw [firsts, List.zipIdx_append, List.filter_append, hbefore, List.map_append, Nat.zero_add]
  rw [List.zipIdx_singleton, List.filter_cons, List.filter_nil, List.take_left]
  cases names.any (alike · name) with
  | true => exact List.append_nil _
  | false => rfl

end Text

namespace Parse

variable {q : Text → Bool} (hq : ∀ m n, Text.alike m n = true → q m = q n)

section
include hq

theorem any_addName (names : List Text) (name : Text) : (addName names name).any q = (names.any q || q name) := by
  rw [addName]
  split
  · rename_i hin
    obtain ⟨m, hm, halike⟩ := List.any_eq_true.1 hin
    cases hname : q name with
    | false => rw [Bool.or_false]
    | true => rw [Bool.or_true, List.any_eq_true.2 ⟨m, hm, (hq m name halike).trans hname⟩]
  · rw [List.any_append, List.any_cons, List.any_nil, Bool.or_false]

theorem any_foldl_addName : ∀ (names kept : List Text), (names.foldl addName kept).any q = (kept.any q || names.any q)
  | [], _ => (Bool.or_false _).symm
  | name :: names, kept => by
    rw [List.foldl_cons, any_foldl_addName names, any_addName hq, List.any_cons, Bool.or_assoc]

theorem filter_addName (names : List Text) (name : Text) :
    (addName names name).filter q = if q name then addName (names.filter q) name else names.filter q := by
  cases hname : q name with
  | false =>
    rw [addName]
    split
    · rfl
    · rw [List.filter_append, List.filter_cons, List.filter_nil, hname]
      exact List.append_nil _
  | true =>
    -- only names like this one count, and they all stay
    have hany : (names.filter q).any (Text.alike · name) = names.any (Text.alike · name) := by
      rw [List.any_filter]
      refine congrArg names.any (funext fun m => ?_)
      cases halike : Text.alike m name with
      | false => rw [Bool.and_false]
      | true => rw [hq m name halike, hname]; rfl
    rw [if_pos rfl, addName, addName, hany]
    split
    · rfl
    · rw [List.filter_append, List.filter_cons, List.filter_nil, hname]
      rfl

/-- **Keeping names and leaving names out** can be done in either order. -/
theorem foldl_addName_filter : ∀ (names kept : List Text),
    (names.filter q).foldl addName (kept.filter q) = (names.foldl addName kept).filter q
  | [], _ => rfl
  | name :: names, kept => by
    rw [List.foldl_cons, ← foldl_addName_filter names, filter_addName hq, List.filter_cons]
    split <;> rfl

end

/-- **The names that are kept** are the first spellings. -/
theorem foldl_addName (names : List Text) : names.foldl addName [] = Text.firsts names := by
  induction names using List.reverseRecOn with
  | nil => rfl
  | append_singleton names name ih =>
    have hany : (names.foldl addName []).any (Text.alike · name) = names.any (Text.alike · name) :=
      any_foldl_addName (Text.alike_congr_left · · · name) names []
    rw [List.foldl_append, List.foldl_cons, List.foldl_nil, addName, hany, ih, Text.firsts_concat]

theorem pairwise_foldl_addName : ∀ (names : List Text) {kept : List Text},
    kept.Pairwise (fun m n => Text.alike m n = false) →
      (names.foldl addName kept).Pairwise (fun m n => Text.alike m n = false)
  | [], _, h => h
  | name :: names, kept, h => by
    refine pairwise_foldl_addName names ?_
    rw [addName]
    split
    · exact h
    · rename_i hnew
      refine List.pairwise_append.2 ⟨h, List.pairwise_singleton _ _, fun m hm n hn => ?_⟩
      rw [List.mem_singleton.1 hn]
      exact Bool.eq_false_iff.2 fun halike => hnew (List.any_eq_true.2 ⟨m, hm, halike⟩)

end Parse

/-! ## The walk and the references -/

namespace Reference

def undeclaredNames (xs : List Reference) : List Text := (xs.filter (fun x => x.key.isNone)).map Reference.name

theorem undeclaredNames_append (xs ys : List Reference) :
    undeclaredNames (xs ++ ys) = undeclaredNames xs ++ undeclaredNames ys := by
  rw [undeclaredNames, List.filter_append, List.map_append]
  rfl

end Reference

open Reference (undeclaredNames undeclaredNames_append)

namespace Expression

variable (line : Nat)

mutual

theorem undeclared_visits : ∀ (e : Expression),
    (visits e).filterMap Parse.undeclared? = undeclaredNames (references line e)
  | .atom c a => by
    cases a with
    | reference name key => cases key <;> rfl
    | _ => rfl
  | .group c b arguments closed => by
    rw [visits, references, List.filterMap_append, undeclared_visitsOfArguments arguments]
    exact List.append_nil _

theorem undeclared_visitsOf : ∀ (es : List Expression),
    (visitsOf es).filterMap Parse.undeclared? = undeclaredNames (referencesOf line es)
  | [] => rfl
  | e :: es => by
    rw [visitsOf, referencesOf, List.filterMap_append, undeclaredNames_append, undeclared_visits e,
      undeclared_visitsOf es]

theorem undeclared_visitsOfArguments : ∀ (as : List (List Expression)),
    (visitsOfArguments as).filterMap Parse.undeclared? = undeclaredNames (referencesOfArguments line as)
  | [] => rfl
  | a :: as => by
    rw [visitsOfArguments, referencesOfArguments, List.filterMap_append, undeclaredNames_append, undeclared_visitsOf a,
      undeclared_visitsOfArguments as]

end

end Expression

theorem Statement.undeclared_visits (s : Statement) :
    s.visits.filterMap Parse.undeclared? = undeclaredNames s.references := by
  have hkeyword : ((s.keyword.map (fun k => Visit.keyword k.1 k.2)).toList).filterMap Parse.undeclared? = [] := by
    cases s.keyword <;> rfl
  rw [Statement.visits, List.filterMap_append, hkeyword, List.nil_append, Expression.undeclared_visitsOf s.line]
  rfl

namespace Node

theorem undeclared_visited (s : Statement) (children : Nat) :
    (s.visits ++ [Visit.statement s children]).filterMap Parse.undeclared? = undeclaredNames s.references := by
  rw [List.filterMap_append, s.undeclared_visits]
  exact List.append_nil _

mutual

theorem undeclared_visits : ∀ (n : Node Statement),
    (visits n).filterMap Parse.undeclared? = undeclaredNames ((itemsOf [n]).flatMap Statement.references)
  | .leaf s stray => by
    rw [visits, undeclared_visited, itemsOf_leaf, List.flatMap_singleton]
  | .block form header body terminator => by
    have hlast : (terminator.toList.flatMap (fun t => t.visits ++ [Visit.statement t 0])).filterMap Parse.undeclared? =
        undeclaredNames (terminator.toList.flatMap Statement.references) := by
      cases terminator with
      | none => rfl
      | some t => simp only [Option.toList_some, List.flatMap_singleton, undeclared_visited]
    have hend : List.filterMap Parse.undeclared? [Visit.statement header body.length] = [] := rfl
    rw [visits, List.filterMap_append, List.filterMap_append, List.filterMap_append, hlast, hend, List.append_nil,
      header.undeclared_visits, undeclared_visitsOf body, itemsOf_block, List.flatMap_cons, List.flatMap_append,
      undeclaredNames_append, undeclaredNames_append, List.append_assoc]
    rfl

/-- **The walk over a tree** meets the references without a key in the order of the tree. -/
theorem undeclared_visitsOf : ∀ (p : Program),
    (visitsOf p).filterMap Parse.undeclared? = undeclaredNames (Program.references p)
  | [] => rfl
  | n :: ns => by
    have hitems : itemsOf (n :: ns) = itemsOf [n] ++ itemsOf ns := itemsOf_append [n] ns
    rw [visitsOf, List.filterMap_append, undeclared_visits n, undeclared_visitsOf ns, Program.references,
      Program.references, hitems, List.flatMap_append, undeclaredNames_append]

end

end Node

/-! ## Programs -/

theorem undeclaredNames_references (table : Table) (runs : List Run) :
    undeclaredNames (Program.references (Program.ofRuns table runs)) =
      ((Program.references (Program.ofRuns table runs)).map Reference.name).filter
        (fun name => !table.declares name) := by
  rw [undeclaredNames, List.filter_map]
  refine congrArg (List.map Reference.name) (List.filter_congr fun x hx => ?_)
  rw [key_of_mem_references hx, Option.isNone_map, Function.comp_apply, ← Table.contains_eq_declares, Table.contains,
    Option.not_isSome]

/-- **The unresolved names of a source**: the first spellings of the names that are referred to, less the declared ones
and the parameters of routines. -/
theorem unresolved_ofLines (source : List SourceLine) : (Parse.ofLines source).unresolved =
    (Text.firsts ((Program.references (Parse.ofLines source).program).map Reference.name)).filter (fun name =>
      !(Parse.ofLines source).references.declares name && !(Parse.ofLines source).references.hasParameter name) := by
  have hbare : (Parse.ofLines source).references.Bare := Scan.bare_ofRuns _
  have hnames : undeclaredNames (Program.references (Parse.ofLines source).program) =
      ((Program.references (Parse.ofLines source).program).map Reference.name).filter
        (fun name => !(Parse.ofLines source).references.declares name) := undeclaredNames_references _ _
  have hcaseless : ∀ m n, Text.alike m n = true → (!(Parse.ofLines source).references.declares m) =
      !(Parse.ofLines source).references.declares n :=
    fun m n h => congrArg not ((Parse.ofLines source).references.declares_congr h)
  have hkept := Parse.foldl_addName_filter hcaseless
    ((Program.references (Parse.ofLines source).program).map Reference.name) []
  rw [List.filter_nil] at hkept
  rw [Parse.unresolved, Node.undeclared_visitsOf, hnames, hkept, Parse.foldl_addName, List.filter_filter]
  refine List.filter_congr fun name _ => ?_
  rw [hbare.isParameter, Bool.and_comm]

theorem exists_unresolved (source : List SourceLine) {x : Reference}
    (hx : x ∈ Program.references (Parse.ofLines source).program)
    (hdeclares : (Parse.ofLines source).references.declares x.name = false)
    (hparameter : (Parse.ofLines source).references.hasParameter x.name = false) :
    ∃ name ∈ (Parse.ofLines source).unresolved, Text.alike name x.name = true := by
  have hnames : (Text.firsts ((Program.references (Parse.ofLines source).program).map Reference.name)).any
      (Text.alike · x.name) = true := by
    rw [← Parse.foldl_addName, Parse.any_foldl_addName (Text.alike_congr_left · · · x.name)]
    exact List.any_eq_true.2 ⟨x.name, List.mem_map_of_mem hx, Text.alike_refl x.name⟩
  obtain ⟨name, hname, halike⟩ := List.any_eq_true.1 hnames
  refine ⟨name, ?_, halike⟩
  rw [unresolved_ofLines]
  refine List.mem_filter.2 ⟨hname, ?_⟩
  rw [Table.declares_congr _ halike, Table.hasParameter_congr _ halike, hdeclares, hparameter]
  rfl

/-- **References and unresolved names are exact.**  In the tree of a source, the references are names of the source in
its order.  Each has the key of what the table finds under its name, and under the key stands a declaration of that name,
a routine if any routine has the name.  The table declares what the runs declare.  The unresolved names differ by more
than case; they are the first spellings of what is referred to and is neither declared nor a parameter of a routine. -/
theorem references_and_unresolved_exact (source : List SourceLine) :
    let p := Parse.ofLines source
    let references := Program.references p.program
    (references.map Reference.place).Sublist (p.lines.flatMap (fun l => namesIn l.number l.tokens)) ∧
    (∀ x ∈ references, ∀ k, x.key = some k ↔ ∃ d, p.references.lookup x.name = some d ∧ d.key = k) ∧
    (∀ x ∈ references, ∀ k, x.key = some k → ∃ d, p.references.get? k = some d ∧ Text.alike d.name x.name = true ∧
      ((∃ e ∈ p.references.entries, e.kind.scope = .routine ∧ Text.alike e.name x.name = true) →
        d.kind.scope = .routine)) ∧
    (∀ name, p.references.declares name =
      (programRuns p.lines).any (fun r => (Scan.declared r).any (fun token => Text.alike token.text name))) ∧
    p.unresolved.Pairwise (fun m n => Text.alike m n = false) ∧
    (∀ name ∈ p.unresolved, p.references.declares name = false ∧ p.references.hasParameter name = false) ∧
    (∀ x ∈ references, p.references.declares x.name = false → p.references.hasParameter x.name = false →
      ∃ name ∈ p.unresolved, Text.alike name x.name = true) ∧
    p.unresolved = (Text.firsts (references.map Reference.name)).filter
      (fun name => !p.references.declares name && !p.references.hasParameter name) := by
  intro p references
  have hkey : ∀ x ∈ references, ∀ k, x.key = some k ↔ ∃ d, p.references.lookup x.name = some d ∧ d.key = k := by
    intro x hx k
    rw [key_of_mem_references hx, Option.map_eq_some_iff]
    rfl
  have hunresolved := unresolved_ofLines source
  refine ⟨references_sublist p.references p.lines, hkey, ?_, Scan.declares_ofRuns _, ?_, ?_,
    fun x hx => exists_unresolved source hx, hunresolved⟩
  · intro x hx k hk
    obtain ⟨d, hd, rfl⟩ := (hkey x hx k).1 hk
    exact ⟨d, Table.of_lookup hd⟩
  · exact (Parse.pairwise_foldl_addName _ List.Pairwise.nil).filter _
  · intro name hname
    rw [hunresolved] at hname
    simpa using (List.mem_filter.1 hname).2

/-- Every name without a declaration is there once, as it was spelled first; `total` is declared by its assignment. -/
example : (Parse.ofLines [⟨1, "total = count + total".toList⟩, ⟨2, "PRINT Count, other".toList⟩]).unresolved =
    ["count".toList, "other".toList] := by
  decide +kernel

end BlockBasic
