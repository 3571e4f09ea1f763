import BlockBasic.Parse
import BlockBasic.Proofs.Dividers
import BlockBasic.Proofs.Outline
import BlockBasic.Proofs.Recast
/-!
# Sites — every report on a source is about tokens of one of its lines

Three stages report: the one that reads tokens, the one that declares and the one that builds the tree.  Whatever they
report is mended, and it is about tokens that stand in one line (`About`): the report bears the number of the line, and
its column runs from the start of one of the line's tokens to the stop of the same or a later one.  So it is for the
reports on a single line, for those of each pass over the runs, and for all that comes of a source (`about_ofLines`).
-/
namespace BlockBasic

/-- A column runs from the start of the first of some tokens to the stop of the last. -/
def Column.Spans (c : Column) (ts : List Token) : Prop :=
  ∃ t u, ts.head? = some t ∧ ts.getLast? = some u ∧ c = ⟨t.column.start, u.column.stop⟩

/-- **A report about tokens of a line**: it is not fatal, it bears the number of the line, and its column spans tokens
that follow each other in the line. -/
structure Diagnostic.About (d : Diagnostic) (number : Nat) (tokens : List Token) : Prop where
  mended : d.isFatal = false
  line   : d.line? = some number
  column : ∃ ts, ts.Sublist tokens ∧ d.column.Spans ts

def Fault.isMended (f : Fault) : Bool := f.code.failureClass != .reading

theorem Diagnostic.About.mono {d : Diagnostic} {number : Nat} {ts us : List Token} (h : d.About number ts)
    (hs : ts.Sublist us) : d.About number us := by
  obtain ⟨xs, hxs, hc⟩ := h.column
  exact ⟨h.mended, h.line, xs, hxs.trans hs, hc⟩

namespace Fault

theorem isFatal_located {f : Fault} (hf : f.isMended = true) (number : Nat) (c : Column) :
    (f.located number c).isFatal = false := by
  rw [isMended, bne_iff_ne] at hf
  simpa [Diagnostic.isFatal, located] using hf

theorem about_token {f : Fault} (hf : f.isMended = true) (number : Nat) {t : Token} {tokens : List Token}
    (ht : t ∈ tokens) : (f.located number t.column).About number tokens :=
  ⟨isFatal_located hf number _, rfl, [t], List.singleton_sublist.2 ht, t, t, rfl, rfl, rfl⟩

theorem about_run {f : Fault} (hf : f.isMended = true) {r : Run} (hr : r.tokens ≠ []) :
    (f.located r.number r.column).About r.number r.tokens := by
  obtain ⟨t, ht⟩ := Option.ne_none_iff_exists'.1 (mt List.head?_eq_none_iff.1 hr)
  obtain ⟨u, hu⟩ := Option.ne_none_iff_exists'.1 (mt List.getLast?_eq_none_iff.1 hr)
  refine ⟨isFatal_located hf _ _, rfl, r.tokens, List.Sublist.refl _, t, u, ht, hu, ?_⟩
  simp only [located, Run.column, ht, hu]

end Fault

/-! ## One line -/

theorem CodeLine.isMended_tokenFault (text : Text) : (tokenFault text).isMended = true := by
  unfold tokenFault
  split
  · rfl
  · split
    · rfl
    · split <;> rfl

theorem CodeLine.about_diagnostics (l : CodeLine) : ∀ d ∈ l.diagnostics, d.About l.number l.tokens := by
  intro d hd
  obtain ⟨t, ht, rfl⟩ := List.mem_map.1 hd
  exact Fault.about_token (isMended_tokenFault t.text) l.number (List.mem_filter.1 ht).1

/-! ## One run -/

namespace Nest

theorem site_closingFaults {b : Bracket} {o : Token} {c : Option Token} :
    ∀ f ∈ closingFaults b o c, f.2.isMended = true ∧ f.1 = o.column := by
  intro f hf
  unfold closingFaults at hf
  split at hf
  · rw [List.mem_singleton.1 hf]
    exact ⟨rfl, rfl⟩
  · cases hf

mutual

theorem site_faults (limit : Limit) (depth : Nat) : ∀ (n : Nest), ∀ f ∈ faults limit depth n,
    f.2.isMended = true ∧ ∃ t ∈ n.tokens, f.1 = t.column
  | .leaf p => by
    intro f hf
    rw [faults] at hf
    unfold phraseFaults at hf
    split at hf
    · rename_i t
      split at hf
      · rw [List.mem_singleton.1 hf]
        exact ⟨rfl, t, List.mem_singleton_self t, rfl⟩
      · rw [List.mem_singleton.1 hf]
        exact ⟨rfl, t, List.mem_singleton_self t, rfl⟩
      · cases hf
    · cases hf
  | .group b o body c => by
    have hopening : o ∈ (group b o body c).tokens := List.mem_cons_self
    have hclosing : ∀ f ∈ closingFaults b o c, f.2.isMended = true ∧ ∃ t ∈ (group b o body c).tokens, f.1 = t.column := by
      intro f hf
      exact ⟨(site_closingFaults f hf).1, o, hopening, (site_closingFaults f hf).2⟩
    intro f hf
    rw [faults] at hf
    split at hf
    · rcases List.mem_cons.1 hf with rfl | hf
      · exact ⟨rfl, o, hopening, rfl⟩
      · exact hclosing f hf
    · rcases List.mem_append.1 hf with hf | hf
      · obtain ⟨hm, t, ht, hc⟩ := site_faultsOf limit (depth + 1) body f hf
        exact ⟨hm, t, List.mem_cons_of_mem o (List.mem_append_left _ ht), hc⟩
      · exact hclosing f hf

theorem site_faultsOf (limit : Limit) (depth : Nat) : ∀ (ns : List Nest), ∀ f ∈ faultsOf limit depth ns,
    f.2.isMended = true ∧ ∃ t ∈ tokensOf ns, f.1 = t.column
  | [], _, hf => by cases hf
  | n :: ns, f, hf => by
    rw [faultsOf] at hf
    rcases List.mem_append.1 hf with hf | hf
    · obtain ⟨hm, t, ht, hc⟩ := site_faults limit depth n f hf
      exact ⟨hm, t, List.mem_append_left _ ht, hc⟩
    · obtain ⟨hm, t, ht, hc⟩ := site_faultsOf limit depth ns f hf
      exact ⟨hm, t, List.mem_append_right _ ht, hc⟩

end

end Nest

theorem Run.about_diagnostics (r : Run) : ∀ d ∈ r.diagnostics, d.About r.number r.tokens := by
  intro d hd
  obtain ⟨f, hf, rfl⟩ := List.mem_map.1 hd
  obtain ⟨hm, t, ht, hc⟩ := Nest.site_faultsOf _ 0 _ f hf
  rw [tokensOf_nests] at ht
  rw [hc]
  exact Fault.about_token hm r.number (mem_operands ht)

/-! ## The passes over the runs -/

theorem Assembly.about_terminatorDiagnostics (a : Assembly) {r : Run} (hr : r.tokens ≠ []) :
    ∀ d ∈ a.terminatorDiagnostics r, d.About r.number r.tokens := by
  intro d hd
  obtain ⟨f, hf, rfl⟩ := List.mem_map.1 hd
  refine Fault.about_run ?_ hr
  rw [Option.mem_toList] at hf
  unfold fault? at hf
  split at hf
  · split at hf
    · split at hf
      · cases hf
      · cases hf
        rfl
    · cases hf
      rfl
  · cases hf

/-- Each report of the pass that builds the tree is about one of the runs, and those that head the open blocks are among
them. -/
theorem about_diagnosticsFrom {P : Run → Prop} (hP : ∀ r, P r → r.tokens ≠ []) : ∀ (rs : List Run) (a : Assembly),
    (∀ b ∈ a.blocks, P b.header) → (∀ r ∈ rs, P r) →
      ∀ d ∈ Program.diagnosticsFrom a rs, ∃ r, P r ∧ d.About r.number r.tokens
  | [], a, ha, _, d, hd => by
    obtain ⟨b, hb, rfl⟩ := List.mem_map.1 hd
    exact ⟨b.header, ha b hb, Fault.about_run rfl (hP _ (ha b hb))⟩
  | r :: rs, a, ha, hrs, d, hd => by
    have hr := hrs r List.mem_cons_self
    rw [Program.diagnosticsFrom] at hd
    rcases List.mem_append.1 hd with hd | hd
    · rcases List.mem_append.1 hd with hd | hd
      · exact ⟨r, hr, r.about_diagnostics d hd⟩
      · exact ⟨r, hr, a.about_terminatorDiagnostics (hP r hr) d hd⟩
    · refine about_diagnosticsFrom hP rs (a.step r) (fun b hb => ?_) (fun s hs => hrs s (List.mem_cons_of_mem r hs)) d hd
      rcases a.step_cases r with ⟨stray, -, he⟩ | ⟨form, -, -, he⟩ | ⟨b', bs, -, -, hblocks, he⟩
      · rw [he] at hb
        exact ha b hb
      · rw [he] at hb
        rcases List.mem_cons.1 hb with rfl | hb
        · exact hr
        · exact ha b hb
      · rw [he] at hb
        exact ha b (hblocks ▸ List.mem_cons_of_mem b' hb)

namespace Scan

theorem about_declare (s : Scan) (r : Run) :
    ∀ d ∈ (s.declare r).2.1, d ∈ s.diagnostics ∨ d.About r.number r.tokens := by
  unfold declare
  cases routine? r.tokens with
  | none => exact fun d hd => .inl hd
  | some kind =>
    cases hname : routineName? r.tokens with
    | none =>
      intro d hd
      rcases List.mem_append.1 hd with hd | hd
      · exact .inl hd
      · obtain ⟨t, ht, rfl⟩ := Option.map_eq_some_iff.1 (Option.mem_toList.1 hd)
        exact .inr (Fault.about_token rfl r.number (List.mem_of_head? ht))
    | some name =>
      have hmem : name ∈ r.tokens := List.mem_of_getElem? (Option.filter_eq_some_iff.1 hname).1
      intro d hd
      rcases List.mem_append.1 hd with hd | hd
      · exact .inl hd
      · obtain ⟨previous, -, rfl⟩ := Option.map_eq_some_iff.1 (Option.mem_toList.1 hd)
        exact .inr (Fault.about_token rfl r.number hmem)

theorem about_step (s : Scan) (r : Run) :
    ∀ d ∈ (s.step r).diagnostics, d ∈ s.diagnostics ∨ d.About r.number r.tokens := by
  unfold step
  split
  · intro d hd
    refine .inl ?_
    split at hd
    · split at hd <;> exact hd
    · exact hd
  · exact about_declare s r
  · exact about_declare s r

theorem about_foldl : ∀ (rs : List Run) (s : Scan), ∀ d ∈ (rs.foldl step s).diagnostics,
    d ∈ s.diagnostics ∨ ∃ r ∈ rs, d.About r.number r.tokens
  | [], _, _, hd => .inl hd
  | r :: rs, s, d, hd => by
    rcases about_foldl rs (s.step r) d hd with h | ⟨x, hx, h⟩
    · rcases about_step s r d h with h | h
      · exact .inl h
      · exact .inr ⟨r, List.mem_cons_self, h⟩
    · exact .inr ⟨x, List.mem_cons_of_mem r hx, h⟩

end Scan

/-- **Whatever is reported on logical lines is mended, and about tokens of one of the lines.** -/
theorem about_ofLines (source : List SourceLine) : ∀ d ∈ (Parse.ofLines source).diagnostics,
    ∃ l ∈ (Parse.ofLines source).lines, d.About l.number l.tokens := by
  have hrun : ∀ {lines : List CodeLine} {r : Run} {d : Diagnostic}, r ∈ programRuns lines → d.About r.number r.tokens →
      ∃ l ∈ lines, d.About l.number l.tokens := by
    intro lines r d hr hd
    obtain ⟨l, hl, hn, hts⟩ := mem_runsFrom hr
    exact ⟨l, hl, hn ▸ hd.mono (CodeLine.sublist_of_mem_runs hts)⟩
  intro d hd
  rcases List.mem_append.1 hd with hd | hd
  · rcases List.mem_append.1 hd with hd | hd
    · obtain ⟨l, hl, hd⟩ := List.mem_flatMap.1 hd
      exact ⟨l, hl, l.about_diagnostics d hd⟩
    · rcases Scan.about_foldl _ {} d hd with hd | ⟨r, hr, hd⟩
      · cases hd
      · exact hrun hr hd
  · have hne : ∀ r ∈ programRuns (Parse.ofLines source).lines, r.tokens ≠ [] := by
      intro r hr
      obtain ⟨l, -, -, hts⟩ := mem_runsFrom hr
      exact CodeLine.ne_nil_of_mem_runs hts
    obtain ⟨r, hr, hd⟩ := about_diagnosticsFrom hne _ {} (fun b hb => by cases hb) (fun r hr => hr) d hd
    exact hrun hr hd

end BlockBasic
