import BlockBasic.Construction
import BlockBasic.Proofs.Descending
import BlockBasic.Proofs.Phrases
import BlockBasic.Proofs.SameBlocks
/-!
# Composition — a program is built in parts where no block is open

The pass that builds a program carries its state from run to run.  But for the open blocks nothing of it lasts: a reader
ends every run outside all groups (`Construction.reading_eq`), and what was built and reported before is only added to
(`Construction.step_behind`).  So after lines that leave no block open the pass goes on as if it began there, and the end of
the source adds nothing (`Construction.finish_behind`).  The statements and reports of the pass are those of the
program (`Construction.ofLines_eq`).
-/
namespace BlockBasic

open Node (mapList)

namespace Construction

variable {table : Table}

/-! ## Reading a run -/

/-- **A reader that begins outside all groups ends there**, with the expressions of the run and the faults in it. -/
theorem reading_eq (table : Table) (r : Run) : (reading table 0 r).reader.depth = 0 ∧
    (reading table 0 r).items = Expression.ofNests (some maxNesting) table (r.nests (some maxNesting)) ∧
    (reading table 0 r).reader.faults = Nest.faultsOf (some maxNesting) 0 (r.nests (some maxNesting)) := by
  obtain ⟨hitems, hfaults, hdepth, -⟩ := Descent.read_eq (some maxNesting) table (Phrase.formed_phrases r.isOpen r.operands)
  exact ⟨hdepth, hitems, hfaults⟩

theorem statementOf_reading (table : Table) (r : Run) : statementOf r (reading table 0 r) = r.statement table := by
  rw [statementOf, (reading_eq table r).2.1]
  rfl

theorem faults_reading (table : Table) (r : Run) :
    (reading table 0 r).reader.faults.map (fun f => f.2.located r.number f.1) = r.diagnostics := by
  rw [(reading_eq table r).2.2]
  rfl

theorem step_eq {c : Construction} (h : c.depth = 0) (r : Run) :
    c.step table r = (c.report r.diagnostics).place r.role (r.statement table) := by
  have hafter : c.after r (reading table 0 r) = c.report r.diagnostics := by
    rw [after, (reading_eq table r).1, faults_reading, ← h]
    rfl
  rw [step, h, hafter, statementOf_reading]

theorem depth_place (c : Construction) (role : Role) (s : Statement) : (c.place role s).depth = c.depth := by
  unfold place
  split
  · rfl
  · rfl
  · split
    · split <;> rfl
    · rfl

theorem depth_step {c : Construction} (h : c.depth = 0) (r : Run) : (c.step table r).depth = 0 := by
  rw [step_eq h, depth_place]
  exact h

theorem depth_foldl (rs : List Run) {c : Construction} (h : c.depth = 0) : (rs.foldl (step table) c).depth = 0 :=
  List.foldlRecOn (motive := fun c : Construction => c.depth = 0) rs _ h fun _ hc r _ => depth_step hc r

/-! ## What was built before -/

/-- Nodes inside open blocks, with a program before all that is outside every block. -/
def nodesBehind (p : Program) (bs : List OpenBlock) (nodes : Program) : Program := if bs.isEmpty then p ++ nodes else nodes

theorem nodesBehind_append (p : Program) (bs : List OpenBlock) (xs ys : Program) :
    nodesBehind p bs (xs ++ ys) = nodesBehind p bs xs ++ ys := by
  cases bs with
  | nil       => exact (List.append_assoc p xs ys).symm
  | cons b bs => rfl

def blocksBehind (p : Program) : List OpenBlock → List OpenBlock
  | []      => []
  | b :: bs => { b with before := nodesBehind p bs b.before } :: blocksBehind p bs

/-- **The pass with a program and reports before it**, in which no block is open. -/
def behind (p : Program) (ds : List Diagnostic) (c : Construction) : Construction :=
  ⟨blocksBehind p c.blocks, nodesBehind p c.blocks c.current, c.depth, ds ++ c.diagnostics⟩

theorem add_behind (p : Program) (ds : List Diagnostic) (c : Construction) (n : Node Statement) :
    (c.behind p ds).add n = (c.add n).behind p ds := by
  rw [add, behind, behind, add, nodesBehind_append]

theorem report_behind (p : Program) (ds : List Diagnostic) (c : Construction) (es : List Diagnostic) :
    (c.behind p ds).report es = (c.report es).behind p ds := by
  rw [report, behind, behind, report, List.append_assoc]

theorem refuse_behind (p : Program) (ds : List Diagnostic) (c : Construction) (fault : Fault) (s : Statement) :
    (c.behind p ds).refuse fault s = (c.refuse fault s).behind p ds := by
  rw [refuse, report_behind, add_behind, refuse]

/-- **What is before the pass has no part in where a statement is put.** -/
theorem place_behind (p : Program) (ds : List Diagnostic) (c : Construction) (role : Role) (s : Statement) :
    (c.behind p ds).place role s = (c.place role s).behind p ds := by
  cases role with
  | plain       => exact add_behind p ds c _
  | opens form  => rfl
  | closes form =>
    obtain ⟨blocks, current, depth, diagnostics⟩ := c
    cases blocks with
    | nil       => exact refuse_behind p ds _ _ s
    | cons b bs =>
      simp only [place, behind, blocksBehind]
      by_cases hform : b.form = form
      · rw [if_pos hform, if_pos hform, nodesBehind_append]
        rfl
      · rw [if_neg hform, if_neg hform]
        exact refuse_behind p ds ⟨b :: bs, current, depth, diagnostics⟩ _ s

theorem step_behind (p : Program) (ds : List Diagnostic) (c : Construction) (r : Run) :
    (c.behind p ds).step table r = (c.step table r).behind p ds := by
  have hafter : ∀ read, (c.behind p ds).after r read = (c.after r read).behind p ds := fun read => by
    rw [after, behind, behind, after, List.append_assoc]
  rw [step, step, ← place_behind, ← hafter]
  rfl

theorem foldl_behind (p : Program) (ds : List Diagnostic) : ∀ (rs : List Run) (c : Construction),
    rs.foldl (step table) (c.behind p ds) = (rs.foldl (step table) c).behind p ds
  | [], _      => rfl
  | r :: rs, c => by rw [List.foldl_cons, step_behind, foldl_behind p ds rs, List.foldl_cons]

theorem close_behind (p : Program) (ds : List Diagnostic) : ∀ (bs : List OpenBlock) (current : Program)
    (es : List Diagnostic), close (blocksBehind p bs) (nodesBehind p bs current) (ds ++ es) =
      (p ++ (close bs current es).1, ds ++ (close bs current es).2)
  | [], _, _            => rfl
  | b :: bs, current, es => by
    rw [blocksBehind, close, close, ← close_behind p ds bs, nodesBehind_append, List.append_assoc]
    rfl

theorem finish_behind (p : Program) (ds : List Diagnostic) (c : Construction) :
    (c.behind p ds).finish = (p ++ c.finish.1, ds ++ c.finish.2) := close_behind p ds c.blocks c.current c.diagnostics

/-! ## Where no block is open -/

theorem snd_close : ∀ (bs : List OpenBlock) (current : Program) (ds : List Diagnostic), (close bs current ds).2 =
    ds ++ bs.map (fun b => (Fault.unclosed b.form).located b.header.line b.header.column)
  | [], _, ds             => (List.append_nil ds).symm
  | b :: bs, current, ds => by rw [close, snd_close bs, List.map_cons, List.append_assoc, List.singleton_append]

theorem blocks_eq_nil_of_finish {c : Construction} (h : ∀ d ∈ c.finish.2, d.code ≠ .unclosedBlock) : c.blocks = [] := by
  refine List.eq_nil_iff_forall_not_mem.2 fun b hb => ?_
  refine h ((Fault.unclosed b.form).located b.header.line b.header.column) ?_ rfl
  rw [finish, snd_close]
  exact List.mem_append_right _ (List.mem_map_of_mem hb)

theorem eq_behind {c : Construction} (hblocks : c.blocks = []) (hdepth : c.depth = 0) :
    c = behind c.current c.diagnostics {} := by
  obtain ⟨blocks, current, depth, diagnostics⟩ := c
  subst hblocks hdepth
  rw [behind, List.append_nil]
  exact congrArg (Construction.mk [] · 0 diagnostics) (List.append_nil current).symm

theorem finish_of_blocks_eq_nil {c : Construction} (h : c.blocks = []) : c.finish = (c.current, c.diagnostics) := by
  rw [finish, h]
  rfl

/-! ## The program -/

def OpenBlock.ofRun (table : Table) (b : Assembly.OpenBlock) : OpenBlock :=
  ⟨b.form, b.header.statement table, mapList (Run.statement table) b.before⟩

/-- **The pass and the assembly of the runs are in step**, each run with its statement. -/
structure Builds (table : Table) (c : Construction) (a : Assembly) : Prop where
  blocks  : c.blocks = a.blocks.map (OpenBlock.ofRun table)
  current : c.current = mapList (Run.statement table) a.current
  depth   : c.depth = 0

variable {c : Construction} {a : Assembly}

theorem Builds.report (h : Builds table c a) (ds : List Diagnostic) : Builds table (c.report ds) a :=
  ⟨h.blocks, h.current, h.depth⟩

theorem Builds.add (h : Builds table c a) (r : Run) (stray : Bool) :
    Builds table (c.add (.leaf (r.statement table) stray)) (a.add (.leaf r stray)) where
  blocks  := h.blocks
  current := by
    rw [Construction.add, Assembly.add, Node.mapList_append, ← h.current]
    rfl
  depth   := h.depth

theorem Builds.place (h : Builds table c a) (r : Run) :
    Builds table (c.place r.role (r.statement table)) (a.step r) ∧
      (c.place r.role (r.statement table)).diagnostics = c.diagnostics ++ a.terminatorDiagnostics r := by
  unfold Construction.place Assembly.step Assembly.terminatorDiagnostics Assembly.fault?
  cases r.role with
  | plain       => exact ⟨h.add r false, (List.append_nil _).symm⟩
  | opens form  =>
    refine ⟨⟨?_, rfl, h.depth⟩, (List.append_nil _).symm⟩
    rw [List.map_cons, ← h.blocks, OpenBlock.ofRun, ← h.current]
  | closes form =>
    have hblocks := h.blocks
    cases hb : a.blocks with
    | nil       =>
      rw [hb, List.map_nil] at hblocks
      simp only [hblocks]
      exact ⟨(h.report _).add r true, rfl⟩
    | cons b bs =>
      rw [hb, List.map_cons] at hblocks
      simp only [hblocks]
      by_cases hform : b.form = form
      · have hform' : (OpenBlock.ofRun table b).form = form := hform
        rw [if_pos hform, if_pos hform, if_pos hform']
        refine ⟨⟨rfl, ?_, h.depth⟩, (List.append_nil _).symm⟩
        rw [Node.mapList_append, h.current]
        rfl
      · have hform' : ¬ (OpenBlock.ofRun table b).form = form := hform
        rw [if_neg hform, if_neg hform, if_neg hform']
        exact ⟨(h.report _).add r true, rfl⟩

theorem Builds.step (h : Builds table c a) (r : Run) : Builds table (c.step table r) (a.step r) ∧
    (c.step table r).diagnostics = c.diagnostics ++ (r.diagnostics ++ a.terminatorDiagnostics r) := by
  rw [step_eq h.depth, ← List.append_assoc]
  exact (h.report r.diagnostics).place r

theorem fst_close (table : Table) : ∀ (bs : List Assembly.OpenBlock) (current : List (Node Run)) (ds : List Diagnostic),
    (close (bs.map (OpenBlock.ofRun table)) (mapList (Run.statement table) current) ds).1 =
      mapList (Run.statement table) (Assembly.wrap bs current)
  | [], _, _             => rfl
  | b :: bs, current, ds => by
    rw [List.map_cons, close, Assembly.wrap_cons, ← fst_close table bs, Node.mapList_append]
    rfl

/-- **The pass over runs** comes to the blocks of the runs and to the reports on them. -/
theorem Builds.foldl : ∀ (rs : List Run) {c : Construction} {a : Assembly}, Builds table c a →
    (rs.foldl (Construction.step table) c).finish = (mapList (Run.statement table) (rs.foldl Assembly.step a).nodes,
      c.diagnostics ++ Program.diagnosticsFrom a rs)
  | [], c, a, h      => by
    have hclose := fst_close table a.blocks a.current c.diagnostics
    rw [← h.blocks, ← h.current] at hclose
    refine Prod.ext hclose ?_
    rw [List.foldl_nil, finish, snd_close, h.blocks, List.map_map]
    rfl
  | r :: rs, c, a, h => by
    obtain ⟨hstep, hdiagnostics⟩ := h.step r
    rw [List.foldl_cons, Builds.foldl rs hstep, hdiagnostics, List.foldl_cons, Program.diagnosticsFrom, List.append_assoc]

/-- **The pass over lines builds the program of the lines**, and reports what is reported on it. -/
theorem ofLines_eq (table : Table) (lines : List CodeLine) :
    ofLines table lines = (Program.ofLines table lines, Program.diagnostics (programRuns lines)) :=
  Builds.foldl (programRuns lines) ⟨rfl, rfl, rfl⟩

/-! ## Lines after lines -/

def unindexed (r : Run) : Run := { r with index := 0 }

theorem foldl_unindexed (table : Table) (rs : List Run) (c : Construction) :
    (rs.map unindexed).foldl (step table) c = rs.foldl (step table) c := List.foldl_map

theorem map_unindexed_runsFrom (lines : List CodeLine) (i j : Nat) :
    (runsFrom i lines).map unindexed = (runsFrom j lines).map unindexed :=
  (map_runsFrom unindexed (fun _ _ _ _ => rfl) lines i).trans (map_runsFrom unindexed (fun _ _ _ _ => rfl) lines j).symm

theorem runsFrom_append : ∀ (first second : List CodeLine) (index : Nat),
    runsFrom index (first ++ second) = runsFrom index first ++ runsFrom (index + first.length) second
  | [], _, _               => rfl
  | l :: ls, second, index => by
    rw [List.cons_append, runsFrom, runsFrom, runsFrom_append ls, List.append_assoc, List.length_cons,
      Nat.add_right_comm, Nat.add_assoc]

theorem foldl_programRuns_append (table : Table) (first second : List CodeLine) (c : Construction) :
    (programRuns (first ++ second)).foldl (step table) c =
      (programRuns second).foldl (step table) ((programRuns first).foldl (step table) c) := by
  rw [programRuns, runsFrom_append, List.foldl_append, ← foldl_unindexed table (runsFrom _ second),
    map_unindexed_runsFrom second _ 0, foldl_unindexed]
  rfl

/-- **Outside all blocks and groups the pass begins anew.** -/
theorem finish_foldl (hblocks : c.blocks = []) (hdepth : c.depth = 0) (rs : List Run) :
    (rs.foldl (step table) c).finish =
      (c.finish.1 ++ (rs.foldl (step table) {}).finish.1, c.finish.2 ++ (rs.foldl (step table) {}).finish.2) := by
  have hfinish := finish_of_blocks_eq_nil hblocks
  calc (rs.foldl (step table) c).finish
      = (rs.foldl (step table) (behind c.current c.diagnostics {})).finish := by rw [← eq_behind hblocks hdepth]
    _ = (c.current ++ (rs.foldl (step table) {}).finish.1, c.diagnostics ++ (rs.foldl (step table) {}).finish.2) := by
      rw [foldl_behind, finish_behind]
    _ = _ := by rw [hfinish]

theorem ofLines_append (table : Table) {first : List CodeLine} (second : List CodeLine)
    (h : ∀ d ∈ (ofLines table first).2, d.code ≠ .unclosedBlock) : ofLines table (first ++ second) =
      ((ofLines table first).1 ++ (ofLines table second).1, (ofLines table first).2 ++ (ofLines table second).2) := by
  rw [ofLines, foldl_programRuns_append]
  exact finish_foldl (blocks_eq_nil_of_finish h) (depth_foldl (programRuns first) rfl) (programRuns second)

end Construction

/-- **Building goes part by part where no block is open.**  If no block is left unclosed in some lines, then with more
lines after them the program is that of the first lines followed by that of the others, and the reports are those on the
first lines followed by those on the others, whatever else is wrong with either.  So it is for the program and its reports,
which are those of one pass that carries its open blocks, its count of groups and its reports from run to run, and so for
that pass. -/
theorem building_append (table : Table) (first second : List CodeLine)
    (hclosed : ∀ d ∈ Program.diagnostics (programRuns first), d.code ≠ .unclosedBlock) :
    Program.ofLines table (first ++ second) = Program.ofLines table first ++ Program.ofLines table second ∧
    Program.diagnostics (programRuns (first ++ second)) =
      Program.diagnostics (programRuns first) ++ Program.diagnostics (programRuns second) ∧
    ∀ lines, Construction.ofLines table lines = (Program.ofLines table lines, Program.diagnostics (programRuns lines)) := by
  have hreports : ∀ d ∈ (Construction.ofLines table first).2, d.code ≠ .unclosedBlock := by
    rwa [Construction.ofLines_eq]
  have happend := Construction.ofLines_append table second hreports
  simp only [Construction.ofLines_eq, Prod.mk.injEq] at happend
  exact ⟨happend.1, happend.2, Construction.ofLines_eq table⟩

/-- A stray terminator and a group that is not closed, a loop that is closed over two lines, and then one that is not. -/
theorem building_append_faulty :
    let first : List CodeLine := [.ofSource 1 "WEND : OPEN \"f\" FOR INPUT (".toList, .ofSource 2 "FOR i = 1 TO 3".toList,
      .ofSource 3 "NEXT i".toList]
    let second : List CodeLine := [.ofSource 4 "ACCESS READ ) : DO".toList]
    (Program.diagnostics (programRuns first)).map Diagnostic.code = [.blockEndWithoutStart, .unbalancedDelimiter] ∧
    (Program.diagnostics (programRuns second)).map Diagnostic.code = [.unbalancedDelimiter, .unclosedBlock] ∧
    Program.ofLines Table.empty (first ++ second) =
      Program.ofLines Table.empty first ++ Program.ofLines Table.empty second ∧
    Program.diagnostics (programRuns (first ++ second)) =
      Program.diagnostics (programRuns first) ++ Program.diagnostics (programRuns second) := by
  intro first second
  have hfirst : (Program.diagnostics (programRuns first)).map Diagnostic.code =
      [.blockEndWithoutStart, .unbalancedDelimiter] := by decide +kernel
  have hclosed : ∀ d ∈ Program.diagnostics (programRuns first), d.code ≠ .unclosedBlock := by
    intro d hd hcode
    have hmem := List.mem_map_of_mem (f := Diagnostic.code) hd
    rw [hfirst, hcode] at hmem
    exact absurd hmem (by decide)
  obtain ⟨hprogram, hdiagnostics, -⟩ := building_append Table.empty first second hclosed
  exact ⟨hfirst, by decide +kernel, hprogram, hdiagnostics⟩

end BlockBasic
