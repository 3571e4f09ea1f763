import BlockBasic.Listing
import BlockBasic.Proofs.BlockGrammar
/-!
# Levels — a listing is the lines of its runs

A listing is printed from the finished tree, what is in a block one level deeper than the block.  The same text comes of
one pass over the runs that keeps no more than the forms of the blocks that are open (`Run.openAfter`): each run is a
line of its own, indented by the number of the open blocks, or by one less if it closes the innermost (`Run.level`).  The
pass that assembles the tree has the same blocks open (`forms_step`), and puts each run at the end of the tree on that
level (`entriesOf_nodes_step`).
-/
namespace BlockBasic

/-! ## Open blocks by their forms -/

namespace Run

def ends (opened : List BlockForm) (r : Run) : Bool := opened.head?.any (fun form => closes? r.tokens == some form)

/-- **The blocks that are open after a run**, the innermost first: none but the innermost can be closed. -/
def openAfter (opened : List BlockForm) (r : Run) : List BlockForm :=
  if ends opened r then opened.tail else (opens? r.tokens).toList ++ opened

/-- **The level of a run's line**, given the blocks that are open before it. -/
def level (opened : List BlockForm) (r : Run) : Nat := if ends opened r then opened.length - 1 else opened.length

end Run

def openForms (runs : List Run) : List BlockForm := runs.foldl Run.openAfter []

/-! ## The pass -/

namespace Assembly

open Node (entriesOf entriesOf_append)

def forms (a : Assembly) : List BlockForm := a.blocks.map OpenBlock.form

theorem step_forms_cases (a : Assembly) (r : Run) :
    (∃ stray, r.ends a.forms = false ∧ Run.opens? r.tokens = none ∧ a.step r = a.add (.leaf r stray)) ∨
    (∃ form, r.ends a.forms = false ∧ Run.opens? r.tokens = some form ∧
      a.step r = ⟨⟨form, r, a.current⟩ :: a.blocks, []⟩) ∨
    ∃ b bs, r.ends a.forms = true ∧ a.blocks = b :: bs ∧
      a.step r = ⟨bs, b.before ++ [.block b.form b.header a.current (some r)]⟩ := by
  unfold step
  cases hr : r.role with
  | plain =>
    obtain ⟨hc, ho⟩ := Run.role_eq_plain.1 hr
    exact .inl ⟨false, by simp [Run.ends, hc], ho, rfl⟩
  | opens form =>
    have ho := Run.role_eq_opens.1 hr
    exact .inr (.inl ⟨form, by simp [Run.ends, Run.closes?_eq_none_of_opens? ho], ho, rfl⟩)
  | closes form =>
    have hc := Run.role_eq_closes.1 hr
    have ho := Run.opens?_eq_none_of_closes? hc
    cases hb : a.blocks with
    | nil => exact .inl ⟨true, by simp [Run.ends, forms, hb], ho, rfl⟩
    | cons b bs =>
      by_cases hf : b.form = form
      · exact .inr (.inr ⟨b, bs, by simp [Run.ends, forms, hb, hc, hf], rfl, if_pos hf⟩)
      · exact .inl ⟨true, by simp [Run.ends, forms, hb, hc, Ne.symm hf], ho, if_neg hf⟩

/-- **The pass has the blocks open that the forms tell.** -/
theorem forms_step (a : Assembly) (r : Run) : (a.step r).forms = r.openAfter a.forms := by
  unfold Run.openAfter
  rcases step_forms_cases a r with ⟨stray, hends, ho, hstep⟩ | ⟨form, hends, ho, hstep⟩ | ⟨b, bs, hends, hb, hstep⟩
  · rw [hstep, hends, ho]
    rfl
  · rw [hstep, hends, ho]
    rfl
  · rw [hstep, if_pos hends, forms, forms, hb]
    rfl

/-! ### Levels in the tree -/

/-- What stands before the innermost block, with its levels. -/
def pendingEntries : List OpenBlock → List (Nat × Run)
  | []      => []
  | b :: bs => pendingEntries bs ++ entriesOf bs.length b.before ++ [(bs.length, b.header)]

theorem entriesOf_wrap : ∀ (bs : List OpenBlock) (current : List (Node Run)),
    entriesOf 0 (wrap bs current) = pendingEntries bs ++ entriesOf bs.length current
  | [], _ => rfl
  | b :: bs, current => by
    rw [wrap_cons, entriesOf_wrap bs, entriesOf_append, pendingEntries, List.length_cons]
    simp only [entriesOf, Node.entries, Option.toList_none, List.map_nil, List.append_nil, List.append_assoc,
      List.singleton_append]

/-- **A run is put at the end of the tree, on the level that the open blocks leave to it.** -/
theorem entriesOf_nodes_step (a : Assembly) (r : Run) :
    entriesOf 0 (a.step r).nodes = entriesOf 0 a.nodes ++ [(r.level a.forms, r)] := by
  have hlength : a.forms.length = a.blocks.length := List.length_map _
  unfold Run.level
  rcases step_forms_cases a r with ⟨stray, hends, -, hstep⟩ | ⟨form, hends, -, hstep⟩ | ⟨b, bs, hends, hb, hstep⟩
  · rw [hstep, hends, nodes, nodes, entriesOf_wrap, entriesOf_wrap, add, entriesOf_append, List.append_assoc, hlength]
    rfl
  · rw [hstep, hends, nodes, nodes, entriesOf_wrap, entriesOf_wrap, pendingEntries, hlength]
    simp [entriesOf]
  · -- the block moves from the open ones into the tree, and keeps its level there
    rw [if_pos hends, hlength, hstep, nodes, nodes, entriesOf_wrap, entriesOf_wrap, hb, pendingEntries, entriesOf_append]
    simp [entriesOf, Node.entries]

theorem entriesOf_nodes_foldl : ∀ (rs : List Run) (a : Assembly), entriesOf 0 (rs.foldl step a).nodes =
    entriesOf 0 a.nodes ++ rs.zipIdx.map (fun x => (x.1.level ((rs.take x.2).foldl Run.openAfter a.forms), x.1))
  | [], a => (List.append_nil _).symm
  | r :: rs, a => by
    rw [List.foldl_cons, entriesOf_nodes_foldl rs, entriesOf_nodes_step, forms_step, List.zipIdx_cons', List.map_cons,
      List.map_map, List.append_assoc]
    rfl

end Assembly

theorem entriesOf_blockTree (runs : List Run) : Node.entriesOf 0 (blockTree runs) =
    runs.zipIdx.map (fun x => (x.1.level (openForms (runs.take x.2)), x.1)) :=
  Assembly.entriesOf_nodes_foldl runs {}

/-- **A listing is printed run by run.**  It is the text of one line for each run, in the order of the source: the
indentation inside as many blocks as are open before the run, less one if the run closes the innermost of them; the
statement of the run; and a line feed.  Terminators that close nothing and blocks that are never closed make no
difference. -/
theorem listing_run_by_run (i : Indent) (table : Table) (lines : List CodeLine) :
    listing i (Program.ofLines table lines) = (programRuns lines).zipIdx.flatMap (fun x =>
      i.text (x.1.level (openForms ((programRuns lines).take x.2))) ++ (x.1.statement table).text ++ ['\n']) := by
  rw [listing, listingLines, Program.ofLines, Program.ofRuns, Node.entriesOf_mapList, entriesOf_blockTree, List.map_map,
    List.map_map, List.flatMap_map]
  rfl

/-- A terminator that fits no open block stands where a plain statement would. -/
example : listing (.spaces 2) (Program.ofLines Table.empty
    [CodeLine.ofSource 1 "for i = 1 to 3 : wend : if i then".toList, CodeLine.ofSource 2 "endif : next".toList]) =
    "FOR i = 1 TO 3\n  WEND\n  IF i THEN\n  ENDIF\nNEXT\n".toList := by
  decide +kernel

end BlockBasic
