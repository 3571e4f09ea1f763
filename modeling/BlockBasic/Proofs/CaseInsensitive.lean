import BlockBasic.Proofs.Pieces
import BlockBasic.Proofs.RoundTrip
import BlockBasic.Proofs.UpperDeclarations
import BlockBasic.Proofs.UpperSource
/-!
# CaseInsensitive — a program is parsed the same in any case

Every stage of a parse can be done in upper case: the stage before hands on its results in upper case, and so does the
stage itself.  So the parse of a source in upper case is its parse in upper case (`ofText_upper`), and two sources
that differ in the case of letters only have parses that differ in the case of spellings only (`parse_of_alike`).
-/
namespace BlockBasic

/-! ## Blocks -/

theorem Assembly.Alike.fault? {a b : Assembly} (h : Assembly.Alike (Run.recast .upper) id a b) (r : Run) :
    b.fault? (r.recast .upper) = a.fault? r := by
  unfold Assembly.fault?
  rw [Run.role_recast]
  cases r.role with
  | opens | plain => rfl
  | closes form =>
    rcases h.innermost with ⟨ha, hb⟩ | ⟨x, xs, y, ys, ha, hb, hxy, -⟩
    · rw [ha, hb]
    · obtain ⟨hform, hheader, -⟩ := Assembly.OpenBlock.of_view hxy
      have hnumber : x.header.number = y.header.number := (congrArg Run.number hheader :)
      simp only [ha, hb, hform, hnumber]

theorem Assembly.recast_fault? {a : Assembly} {r : Run} {f : Fault} (h : a.fault? r = some f) : f.recast .upper = f := by
  unfold Assembly.fault? at h
  split at h
  · split at h
    · split at h
      · cases h
      · cases h
        rfl
    · cases h
      rfl
  · cases h

theorem Assembly.Alike.terminatorDiagnostics_upper {a b : Assembly} (h : Assembly.Alike (Run.recast .upper) id a b)
    (r : Run) : b.terminatorDiagnostics (r.recast .upper) = (a.terminatorDiagnostics r).map Diagnostic.upper := by
  rw [Assembly.terminatorDiagnostics, h.fault?, Run.column_recast, Assembly.terminatorDiagnostics]
  cases hf : a.fault? r with
  | none => rfl
  | some f =>
    have hreport := Fault.located_recast f r.number r.column
    rw [Assembly.recast_fault? hf] at hreport
    exact congrArg (· :: []) hreport

theorem Run.diagnostics_upper (r : Run) : (r.recast .upper).diagnostics = r.diagnostics.map Diagnostic.upper := by
  rw [diagnostics_recast, diagnostics, diagnosticsWithin, List.map_map]
  exact List.map_congr_left fun f _ => Fault.located_recast f.2 r.number f.1

namespace Program

theorem diagnosticsFrom_upper : ∀ (rs : List Run) {a b : Assembly}, Assembly.Alike (Run.recast .upper) id a b →
    diagnosticsFrom b (rs.map (Run.recast .upper)) = (diagnosticsFrom a rs).map Diagnostic.upper
  | [], a, b, h => by
    let report : BlockForm × Run × List (Node Run) → Diagnostic := fun v =>
      (Fault.unclosed v.1).located v.2.1.number v.2.1.column
    have hb : b.blocks.map Assembly.unclosedDiagnostic = (b.blocks.map (Assembly.OpenBlock.view id)).map report := by
      rw [List.map_map]
      rfl
    have hreport : ∀ x : Assembly.OpenBlock,
        report (x.view (Run.recast .upper)) = (Assembly.unclosedDiagnostic x).upper := by
      intro x
      have hcolumn : (x.header.recast .upper).column = x.header.column := Run.column_recast .upper x.header
      refine (congrArg ((Fault.unclosed x.form).located x.header.number) hcolumn).trans ?_
      exact Fault.located_recast (.unclosed x.form) x.header.number x.header.column
    rw [List.map_nil, diagnosticsFrom, diagnosticsFrom, hb, ← h.blocks, List.map_map, List.map_map]
    exact List.map_congr_left fun x _ => hreport x
  | r :: rs, a, b, h => by
    have hnext := h.step (Run.role_recast .upper r).symm rfl
    rw [List.map_cons, diagnosticsFrom, diagnosticsFrom, Run.diagnostics_upper, h.terminatorDiagnostics_upper,
      diagnosticsFrom_upper rs hnext, List.map_append, List.map_append]

theorem diagnostics_upper (rs : List Run) :
    diagnostics (rs.map (Run.recast .upper)) = (diagnostics rs).map Diagnostic.upper :=
  diagnosticsFrom_upper rs ⟨rfl, rfl⟩

/-- **Runs in upper case make the program in upper case.** -/
theorem ofRuns_upper {t u : Table} (h : t.SameKeys u) {rs : List Run}
    (hrs : ∀ r ∈ rs, ∀ x ∈ r.tokens, x.Caseless .upper) :
    ofRuns u (rs.map (Run.recast .upper)) = Node.mapList (Statement.recast .upper) (ofRuns t rs) := by
  rw [ofRuns, ofRuns, Node.mapList_mapList]
  refine mapList_blockTree ?_
  rw [List.map_map]
  exact List.map_congr_left fun r hr => Prod.ext (Run.role_recast .upper r) (Run.statement_recast .upper h (hrs r hr))

end Program

/-! ## Parses -/

namespace Parse

/-- **A parse in upper case**: the spellings are, and all else is as it was. -/
def upper (p : Parse) : Parse :=
  ⟨Node.mapList (Statement.recast .upper) p.program, p.references.upper, p.lines.map CodeLine.upper,
    p.diagnostics.map Diagnostic.upper⟩

theorem caseless_programRuns (source : List SourceLine) :
    ∀ r ∈ programRuns (source.map (fun l => CodeLine.ofSource l.number l.text)), ∀ x ∈ r.tokens, x.Caseless .upper := by
  intro r hr x hx
  obtain ⟨l, hl, -, htokens⟩ := mem_runsFrom hr
  obtain ⟨s, -, rfl⟩ := List.mem_map.1 hl
  exact Lexer.caseless_scan x (CodeLine.mem_tokens_of_mem_runs htokens x hx)

theorem ofLines_upper (source : List SourceLine) : ofLines (source.map SourceLine.upper) = (ofLines source).upper := by
  have hlines : (source.map SourceLine.upper).map (fun l => CodeLine.ofSource l.number l.text) =
      (source.map (fun l => CodeLine.ofSource l.number l.text)).map CodeLine.upper := by
    rw [List.map_map, List.map_map]
    exact List.map_congr_left fun l _ => CodeLine.ofSource_upper l.number l.text
  have hcaseless := caseless_programRuns source
  unfold ofLines
  rw [hlines]
  generalize source.map (fun l => CodeLine.ofSource l.number l.text) = lines at hcaseless
  have hprogram : Program.ofLines (declarations lines).1.upper (lines.map CodeLine.upper) =
      Node.mapList (Statement.recast .upper) (Program.ofLines (declarations lines).1 lines) := by
    rw [Program.ofLines, programRuns_upper, Program.ofRuns_upper (Table.sameKeys_upper _) hcaseless, Program.ofLines]
  have hlexical : (lines.map CodeLine.upper).flatMap CodeLine.diagnostics =
      (lines.flatMap CodeLine.diagnostics).map Diagnostic.upper := by
    rw [List.flatMap_map, List.map_flatMap]
    exact congrArg (lines.flatMap ·) (funext CodeLine.diagnostics_upper)
  simp only [declarations_upper, hprogram, hlexical, programRuns_upper, Program.diagnostics_upper, upper, List.map_append]

/-- **The parse of a source in upper case is its parse in upper case.** -/
theorem ofText_upper {o : Conventions} (ho : o.Caseless) (t : Text) : ofText o t.upper = (ofText o t).upper := by
  rw [ofText_eq_ofLines, splitLines_upper, logicalLines_upper ho, ofLines_upper, ← ofText_eq_ofLines]

end Parse

/-- **Two sources that differ in the case of letters only are parsed the same**, up to the case of what is spelled: if the
characters for comments and continuation are no letters, their parses agree in upper case. -/
theorem parse_of_alike (o : Conventions) (hcomment : o.comment.isAlpha = false)
    (hcontinuation : ∀ m ∈ o.continuation, m.isAlpha = false) (s t : Text) (h : s.alike t = true) :
    (Parse.ofText o s).upper = (Parse.ofText o t).upper := by
  have ho : o.Caseless := ⟨hcomment, hcontinuation⟩
  rw [← Parse.ofText_upper ho, ← Parse.ofText_upper ho, beq_iff_eq.1 h]

/-- A file that is opened, a routine and a remark, in two spellings. -/
theorem parse_of_alike_spellings :
    (Parse.ofText .usual "Open \"a.Txt\" for input access READ as #1 : rem x\nfunction f%(Abc)\nEnd Function".toList).upper =
      (Parse.ofText .usual "oPEN \"A.tXT\" FOR Input ACCESS read AS #1 : REM X\nFUNCTION F%(aBC)\nEND fUNCTION".toList).upper :=
  parse_of_alike .usual (by decide) (fun m hm => by cases hm; decide) _ _ (by decide)

end BlockBasic
