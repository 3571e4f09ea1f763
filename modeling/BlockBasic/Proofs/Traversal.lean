import BlockBasic.Visit
import BlockBasic.Proofs.Colons
import BlockBasic.Proofs.OpenClauses
import BlockBasic.Proofs.Postorder
/-!
# Traversal — the walk over a program is complete, and in the order of the source

A program is made of statements, their keywords and their expressions, and of what each of these is made of, down to the
keyword of a keyword expression.  The walk takes parts first (`Node.visits_postorderOf`), so it meets every part of the
program once and before what it is a part of.  Of the parts, the keywords of statements and the expressions that are no groups
stand in the source as tokens do; they are its marks.  The walk meets them statement by statement, in the order of the runs
(`Node.marks_postorderOf`).  Within a statement each begins where a token of the run begins, in the order of the tokens
(`Run.starts_marks`): a group leaves its separators out, a clause of access moves the stop of a mode and not its start, and
where it finds no mode it leaves its first word.
-/
namespace BlockBasic

open Composite (postorder postorderOf postorderOf_append postorderOf_eq_flatMap placesOf within?)
open Expression (atoms atomsOf atomsOfArguments)

/-! ## What a program is made of -/

/-- **A part of a program**; the keyword of a statement and that of a keyword expression are parts of their own. -/
inductive Constituent where
  | leading (column : Column) (k : Keyword)
  | keyword (column : Column) (k : Keyword)
  | expression (e : Expression)
  | statement (s : Statement) (children : Nat)

namespace Constituent

def visit : Constituent → Visit
  | .leading c k | .keyword c k => .keyword c k
  | .expression e               => .expression e
  | .statement s children       => .statement s children

/-- The column of the keyword of a statement, or of an expression that is no group. -/
def mark? : Constituent → Option Column
  | .leading c _               => some c
  | .expression (.atom c _)    => some c
  | _                          => none

end Constituent

namespace Expression

mutual

def composite : Expression → Composite Constituent
  | .atom c (.keyword k)        => .of (.expression (.atom c (.keyword k))) [.of (.keyword c k) []]
  | .atom c a                   => .of (.expression (.atom c a)) []
  | .group c b arguments closed => .of (.expression (.group c b arguments closed)) (compositesOfArguments arguments)

def compositesOf : List Expression → List (Composite Constituent)
  | []      => []
  | e :: es => composite e :: compositesOf es

def compositesOfArguments : List (List Expression) → List (Composite Constituent)
  | []      => []
  | a :: as => compositesOf a ++ compositesOfArguments as

end

mutual

theorem visits_postorder : ∀ (e : Expression), (postorder e.composite).map Constituent.visit = visits e
  | .atom c a => by cases a <;> rfl
  | .group c b arguments closed => by
    rw [composite, postorder, List.map_append, visits_postorderOfArguments arguments, visits]
    rfl

theorem visits_postorderOf : ∀ (es : List Expression),
    (postorderOf (compositesOf es)).map Constituent.visit = visitsOf es
  | [] => rfl
  | e :: es => by
    rw [compositesOf, postorderOf, List.map_append, visits_postorder e, visits_postorderOf es, visitsOf]

theorem visits_postorderOfArguments : ∀ (as : List (List Expression)),
    (postorderOf (compositesOfArguments as)).map Constituent.visit = visitsOfArguments as
  | [] => rfl
  | a :: as => by
    rw [compositesOfArguments, postorderOf_append, List.map_append, visits_postorderOf a, visits_postorderOfArguments as,
      visitsOfArguments]

end

mutual

theorem marks_postorder : ∀ (e : Expression),
    (postorder e.composite).filterMap Constituent.mark? = (atoms e).map Prod.fst
  | .atom c a => by cases a <;> rfl
  | .group c b arguments closed => by
    rw [composite, postorder, List.filterMap_append, marks_postorderOfArguments arguments]
    exact List.append_nil _

theorem marks_postorderOf : ∀ (es : List Expression),
    (postorderOf (compositesOf es)).filterMap Constituent.mark? = (atomsOf es).map Prod.fst
  | [] => rfl
  | e :: es => by
    rw [compositesOf, postorderOf, List.filterMap_append, marks_postorder e, marks_postorderOf es, atomsOf,
      List.map_append]

theorem marks_postorderOfArguments : ∀ (as : List (List Expression)),
    (postorderOf (compositesOfArguments as)).filterMap Constituent.mark? = (atomsOfArguments as).map Prod.fst
  | [] => rfl
  | a :: as => by
    rw [compositesOfArguments, postorderOf_append, List.filterMap_append, marks_postorderOf a,
      marks_postorderOfArguments as, atomsOfArguments, List.map_append]

end

end Expression

namespace Statement

def composites (s : Statement) : List (Composite Constituent) :=
  (s.keyword.map (fun k => Composite.of (.leading k.1 k.2) [])).toList ++ Expression.compositesOf s.expressions

/-- **The marks of a statement**: the columns of its keyword and of its expressions that are no groups, at any depth. -/
def marks (s : Statement) : List Column := (s.keyword.map Prod.fst).toList ++ (atomsOf s.expressions).map Prod.fst

theorem visits_postorder (s : Statement) : (postorderOf s.composites).map Constituent.visit = s.visits := by
  rw [composites, postorderOf_append, List.map_append, Expression.visits_postorderOf, visits]
  cases s.keyword <;> rfl

theorem marks_postorder (s : Statement) : (postorderOf s.composites).filterMap Constituent.mark? = s.marks := by
  rw [composites, postorderOf_append, List.filterMap_append, Expression.marks_postorderOf, marks]
  cases s.keyword <;> rfl

def composite (s : Statement) : Composite Constituent := .of (.statement s 0) s.composites

theorem visits_composite (s : Statement) :
    (postorder s.composite).map Constituent.visit = s.visits ++ [.statement s 0] := by
  rw [composite, postorder, List.map_append, s.visits_postorder]
  rfl

theorem marks_composite (s : Statement) : (postorder s.composite).filterMap Constituent.mark? = s.marks := by
  rw [composite, postorder, List.filterMap_append, s.marks_postorder]
  exact List.append_nil _

end Statement

namespace Node

mutual

def composite : Node Statement → Composite Constituent
  | .leaf s _                       => s.composite
  | .block _ header body terminator =>
    .of (.statement header body.length)
      (header.composites ++ compositesOf body ++ terminator.toList.map Statement.composite)

def compositesOf : Program → List (Composite Constituent)
  | []      => []
  | n :: ns => composite n :: compositesOf ns

end

mutual

theorem visits_postorder : ∀ (n : Node Statement), (postorder (composite n)).map Constituent.visit = visits n
  | .leaf s _ => s.visits_composite
  | .block _ header body terminator => by
    have hlast : (postorderOf (terminator.toList.map Statement.composite)).map Constituent.visit =
        terminator.toList.flatMap (fun t => t.visits ++ [Visit.statement t 0]) := by
      rw [postorderOf_eq_flatMap, List.flatMap_map, List.map_flatMap]
      exact List.flatMap_congr fun t _ => t.visits_composite
    rw [composite, postorder, postorderOf_append, postorderOf_append, List.map_append, List.map_append, List.map_append,
      header.visits_postorder, visits_postorderOf body, hlast, visits]
    rfl

/-- **The walk over a program takes parts first.** -/
theorem visits_postorderOf : ∀ (p : Program), (postorderOf (compositesOf p)).map Constituent.visit = visitsOf p
  | [] => rfl
  | n :: ns => by
    rw [compositesOf, postorderOf, List.map_append, visits_postorder n, visits_postorderOf ns, visitsOf]

end

mutual

theorem marks_postorder : ∀ (n : Node Statement),
    (postorder (composite n)).filterMap Constituent.mark? = (itemsOf [n]).flatMap Statement.marks
  | .leaf s _ => by
    rw [itemsOf_leaf, List.flatMap_singleton]
    exact s.marks_composite
  | .block form header body terminator => by
    have hlast : (postorderOf (terminator.toList.map Statement.composite)).filterMap Constituent.mark? =
        terminator.toList.flatMap Statement.marks := by
      rw [postorderOf_eq_flatMap, List.flatMap_map, List.filterMap_flatMap]
      exact List.flatMap_congr fun t _ => t.marks_composite
    have hend : List.filterMap Constituent.mark? [.statement header body.length] = [] := rfl
    rw [composite, postorder, postorderOf_append, postorderOf_append, List.filterMap_append, List.filterMap_append,
      List.filterMap_append, header.marks_postorder, marks_postorderOf body, hlast, hend, List.append_nil, itemsOf_block,
      List.flatMap_cons, List.flatMap_append, List.append_assoc]

theorem marks_postorderOf : ∀ (p : Program),
    (postorderOf (compositesOf p)).filterMap Constituent.mark? = (itemsOf p).flatMap Statement.marks
  | [] => rfl
  | n :: ns => by
    have hitems : itemsOf (n :: ns) = itemsOf [n] ++ itemsOf ns := itemsOf_append [n] ns
    rw [compositesOf, postorderOf, List.filterMap_append, marks_postorder n, marks_postorderOf ns, hitems,
      List.flatMap_append]

end

end Node

/-! ## Every statement -/

def Visit.statement? : Visit → Option Statement
  | .statement s _ => some s
  | _              => none

namespace Expression

mutual

theorem statements_visits : ∀ (e : Expression), (visits e).filterMap Visit.statement? = []
  | .atom c a => by cases a <;> rfl
  | .group c b arguments closed => by
    rw [visits, List.filterMap_append, statements_visitsOfArguments arguments]
    rfl

theorem statements_visitsOf : ∀ (es : List Expression), (visitsOf es).filterMap Visit.statement? = []
  | [] => rfl
  | e :: es => by
    rw [visitsOf, List.filterMap_append, statements_visits e, statements_visitsOf es]
    rfl

theorem statements_visitsOfArguments : ∀ (as : List (List Expression)),
    (visitsOfArguments as).filterMap Visit.statement? = []
  | [] => rfl
  | a :: as => by
    rw [visitsOfArguments, List.filterMap_append, statements_visitsOf a, statements_visitsOfArguments as]
    rfl

end

end Expression

theorem Statement.statements_visits (s : Statement) : s.visits.filterMap Visit.statement? = [] := by
  have hkeyword : ((s.keyword.map (fun k => Visit.keyword k.1 k.2)).toList).filterMap Visit.statement? = [] := by
    cases s.keyword <;> rfl
  rw [visits, List.filterMap_append, hkeyword, Expression.statements_visitsOf]
  rfl

namespace Node

mutual

theorem statements_visits : ∀ (n : Node Statement), ((visits n).filterMap Visit.statement?).Perm (itemsOf [n])
  | .leaf s _ => by
    rw [visits, List.filterMap_append, s.statements_visits, itemsOf_leaf]
    exact List.Perm.refl [s]
  | .block form header body terminator => by
    have hlast : (terminator.toList.flatMap (fun t => t.visits ++ [Visit.statement t 0])).filterMap Visit.statement? =
        terminator.toList := by
      cases terminator with
      | none   => rfl
      | some t =>
        rw [Option.toList_some, List.flatMap_singleton, List.filterMap_append, t.statements_visits]
        rfl
    rw [visits, List.filterMap_append, List.filterMap_append, List.filterMap_append, header.statements_visits, hlast,
      List.nil_append, itemsOf_block]
    exact (List.perm_append_singleton header _).trans (((statements_visitsOf body).append_right _).cons header)

theorem statements_visitsOf : ∀ (p : Program), ((visitsOf p).filterMap Visit.statement?).Perm (itemsOf p)
  | [] => .refl []
  | n :: ns => by
    have hitems : itemsOf (n :: ns) = itemsOf [n] ++ itemsOf ns := itemsOf_append [n] ns
    rw [visitsOf, List.filterMap_append, hitems]
    exact (statements_visits n).append (statements_visitsOf ns)

end

end Node

/-! ## Where the marks begin -/

def Token.starts (ts : List Token) : List Nat := ts.map (·.column.start)

theorem Token.starts_append (ts us : List Token) : starts (ts ++ us) = starts ts ++ starts us := List.map_append

theorem Token.pairwise_starts {ts : List Token} (h : Column.InOrder (columns ts)) : (starts ts).Pairwise (· < ·) := by
  refine List.pairwise_map.2 ((List.pairwise_map.1 h.apart).imp_of_mem fun ht _ hbehind => ?_)
  exact Nat.lt_of_lt_of_le (wide_of_mem h ht) hbehind

theorem Tiles.starts : ∀ {cs : List Column} {ts : List Token}, Tiles cs ts → (cs.map Column.start).Sublist (Token.starts ts)
  | [], _, _ => List.nil_sublist _
  | c :: cs, _, ⟨us, rest, hts, ⟨first, _, hfirst, _, hc⟩, hcs⟩ => by
    obtain ⟨vs, rfl⟩ := List.head?_eq_some_iff.1 hfirst
    rw [hts, Token.starts_append, hc]
    exact (hcs.starts.trans (List.sublist_append_right _ _)).cons_cons first.column.start

namespace Expression

def startsOf (es : List Expression) : List Nat := (atomsOf es).map (·.1.start)

theorem startsOf_append (xs ys : List Expression) : startsOf (xs ++ ys) = startsOf xs ++ startsOf ys := by
  rw [startsOf, atomsOf_append, List.map_append]
  rfl

theorem startsOf_argumentsOf (es : List Expression) : (startsOf (argumentsOf es).flatten).Sublist (startsOf es) := by
  rw [flatten_argumentsOf]
  induction es with
  | nil => exact .refl _
  | cons e es ih =>
    have hcons : startsOf (e :: es) = startsOf [e] ++ startsOf es := startsOf_append [e] es
    rw [List.filter_cons]
    split
    · rw [hcons, show startsOf (e :: es.filter (fun e => !e.isSeparator)) =
        startsOf [e] ++ startsOf (es.filter (fun e => !e.isSeparator)) from startsOf_append [e] _]
      exact ih.append_left _
    · rw [hcons]
      exact ih.trans (List.sublist_append_right _ _)

theorem startsOf_nameFile (es : List Expression) : startsOf (nameFile es) = startsOf es := by
  have hblind : NameBlind (fun x : Column × Atom => some x.1.start) := fun _ _ _ => rfl
  have h := hblind.nameFile es
  rwa [List.filterMap_eq_map'] at h

variable {limit : Limit} {table : Table} {depth : Nat}

/-- One more nest adds what begins where its tokens begin, or nothing: the access that a mode is granted leaves its start
where it is. -/
theorem Step.startsOf {es fs : List Expression} {n : Nest} {before : List Nat} (hstep : Step limit table depth es n fs)
    (hn : n.isAccess = false → (startsOf [ofNest limit table depth n]).Sublist (Token.starts n.tokens))
    (h : (Expression.startsOf es).Sublist before) :
    (Expression.startsOf fs).Sublist (before ++ Token.starts n.tokens) := by
  cases hstep with
  | adds hno =>
    rw [startsOf_append]
    exact h.append (hn hno)
  | widens _ =>
    rw [startsOf_append] at h ⊢
    exact h.trans (List.sublist_append_left _ _)
  | loses _ =>
    rw [startsOf_append]
    exact h.append (List.singleton_sublist.2 List.mem_cons_self)

mutual

theorem startsOf_ofNest : ∀ (n : Nest) (depth : Nat), n.isAccess = false →
    (startsOf [ofNest limit table depth n]).Sublist (Token.starts n.tokens)
  | .leaf p, depth, hno => by
    cases p with
    | access => cases hno
    | token | handle | mode => exact List.singleton_sublist.2 List.mem_cons_self
  | .group b o body c, depth, _ => by
    rw [ofNest, nestPiece]
    by_cases hdeep : limit.exceeded depth = true
    · -- A group that is too deep is text that begins with the bracket.
      rw [if_pos hdeep]
      exact List.singleton_sublist.2 List.mem_cons_self
    · rw [if_neg hdeep]
      have hinside := startsOf_foldl_next body (depth + 1) [] [] (.refl [])
      rw [← items_eq_foldl, List.nil_append] at hinside
      have hbody : (Nest.tokensOf body).Sublist (Nest.group b o body c).tokens :=
        (List.sublist_append_left _ c.toList).cons o
      rw [startsOf, atomsOf_singleton, atoms, atomsOfArguments_eq_flatten]
      exact ((startsOf_argumentsOf _).trans hinside).trans (hbody.map _)

theorem startsOf_foldl_next : ∀ (ns : List Nest) (depth : Nat) (es : List Expression) (before : List Nat),
    (startsOf es).Sublist before →
      (startsOf (ns.foldl (next limit table depth) es)).Sublist (before ++ Token.starts (Nest.tokensOf ns))
  | [], _, _, _, h => by
    rw [List.foldl_nil, Nest.tokensOf_nil]
    exact h.trans (List.sublist_append_left _ _)
  | n :: ns, depth, es, before, h => by
    rw [List.foldl_cons, Nest.tokensOf, Token.starts_append, ← List.append_assoc]
    exact startsOf_foldl_next ns depth _ _ ((step_next limit table depth es n).startsOf (startsOf_ofNest n depth) h)

end

theorem startsOf_items (limit : Limit) (table : Table) (ns : List Nest) :
    (startsOf (items limit table 0 ns)).Sublist (Token.starts (Nest.tokensOf ns)) := by
  rw [items_eq_foldl]
  exact startsOf_foldl_next ns 0 [] [] (.refl [])

end Expression

namespace Run

/-- **Each mark of a statement begins where a token of its run begins**, in the order of the tokens. -/
theorem starts_marks (table : Table) (r : Run) :
    ((r.statement table).marks.map Column.start).Sublist (Token.starts r.tokens) := by
  have hexpressions : (Expression.startsOf (r.statement table).expressions).Sublist (Token.starts r.operands) := by
    have hnests := Expression.startsOf_items nestingLimit table (r.nests nestingLimit)
    rw [tokensOf_nests] at hnests
    rw [show (r.statement table).expressions = r.expressions nestingLimit table from rfl, expressions]
    split
    · rw [Expression.startsOf_nameFile]
      exact hnests
    · exact hnests
  obtain ⟨ts, hts, hkeyword⟩ := r.tiles_keyword
  rw [Statement.marks, List.map_append, List.map_map, hts, Token.starts_append]
  exact hkeyword.starts.append hexpressions

end Run

/-! ## Programs -/

/-- **The walk over a program is complete and in the order of the source.**  Let a way lead to each part of the program of
some source lines: to each statement, the terminators of blocks too, to its keyword, to each of its expressions at any depth,
and to the keyword of a keyword expression.

- The visits are those of the parts at the ways of a list in which each way to a part stands once, and no way after one that
  it goes on from.  So each part is visited once, and before everything that it is a part of.
- The statements that are visited are those of the lines' runs.
- The keywords of statements and the expressions that are no groups are visited run by run, and within a run one behind the
  other: their starts increase strictly. -/
theorem walk_complete_in_source_order (table : Table) (source : List SourceLine) :
    let lines := source.map fun l => CodeLine.ofSource l.number l.text
    let program := Program.ofLines table lines
    let part? := within? (Node.compositesOf program)
    ∃ ways : List (List Nat),
      (Node.visitsOf program).map some = ways.map (fun p => (part? p).map Constituent.visit) ∧
      (∀ p, p ∈ ways ↔ (part? p).isSome) ∧ ways.Nodup ∧ ways.Pairwise (fun p q => ¬ p <+: q) ∧
      ((Node.visitsOf program).filterMap Visit.statement?).Perm ((programRuns lines).map (Run.statement table)) ∧
      ways.filterMap (fun p => (part? p).bind Constituent.mark?) =
        (programRuns lines).flatMap (fun r => (r.statement table).marks) ∧
      ∀ r ∈ programRuns lines, ((r.statement table).marks.map Column.start).Pairwise (· < ·) := by
  intro lines program part?
  have hparts : (placesOf 0 (Node.compositesOf program)).map part? =
      (postorderOf (Node.compositesOf program)).map some := Composite.map_within_placesOf _ []
  have hitems : Node.itemsOf program = (programRuns lines).map (Run.statement table) := itemsOf_ofRuns table _
  refine ⟨placesOf 0 (Node.compositesOf program), ?_, fun p => Composite.mem_placesOf, Composite.nodup_placesOf _,
    Composite.pairwise_placesOf 0 _, ?_, ?_, fun r hr => ?_⟩
  · have hvisit : (fun p => (part? p).map Constituent.visit) = Option.map Constituent.visit ∘ part? := rfl
    rw [hvisit, ← List.map_map, hparts, ← Node.visits_postorderOf, List.map_map, List.map_map]
    rfl
  · rw [← hitems]
    exact Node.statements_visitsOf program
  · have hmark : (fun p => (part? p).bind Constituent.mark?) = (Option.bind · Constituent.mark?) ∘ part? := rfl
    rw [hmark, ← List.filterMap_map, hparts, List.filterMap_map, ← List.flatMap_map, ← hitems,
      ← Node.marks_postorderOf]
    rfl
  · obtain ⟨l, -, -, htokens⟩ := exists_line_of_mem_programRuns hr
    exact (Token.pairwise_starts (inOrder_of_mem_runs htokens)).sublist (r.starts_marks table)

end BlockBasic
