import BlockBasic.Proofs.Indexed
import BlockBasic.Proofs.Variables
/-!
# Routines — what the headers of routines leave, and what is reported on them

The routines of a table are those of the named headers of the program, each name once and in the order of its first header
(`routines_ofRuns`); under a name stands its last header (`exists_last_header`).  A header is reported on where it has
no name, or the name of a header before it (`place_reports`), and nothing else is.  Every declaration bears the index and the
number of a line, and so does its end, which does not come before it: the runs come in the order of their lines, and only
the run at hand is ever put into the table (`Dated.step`).
-/
namespace BlockBasic

namespace Table

def routines (t : Table) : List Key := (t.entries.map Declaration.key).filter (fun k => k.scope == .routine)

theorem routines_declare_variable (t : Table) {d : Declaration} (h : d.key.scope = .variable_) :
    (t.declare d).routines = t.routines := by
  rw [routines, declare, map_key_put]
  split
  · rfl
  · rw [List.filter_append, List.filter_cons_of_neg (by simp [h]), List.filter_nil, List.append_nil]
    rfl

theorem mem_routines {t : Table} {k : Key} : k ∈ t.routines ↔ k ∈ t.entries.map Declaration.key ∧ k.scope = .routine := by
  rw [routines, List.mem_filter, beq_iff_eq]

theorem routines_declare_routine (t : Table) {d : Declaration} (h : d.key.scope = .routine) :
    (t.declare d).routines = if d.key ∈ t.routines then t.routines else t.routines ++ [d.key] := by
  have hmem : d.key ∈ t.routines ↔ d.key ∈ t.entries.map Declaration.key := mem_routines.trans (and_iff_left h)
  rw [routines, declare, map_key_put]
  by_cases hd : d.key ∈ t.entries.map Declaration.key
  · rw [if_pos hd, if_pos (hmem.2 hd)]
    rfl
  · rw [if_neg hd, if_neg (mt hmem.1 hd), List.filter_append, List.filter_cons_of_pos (by simp [h]), List.filter_nil]
    rfl

theorem routines_close (t : Table) (k : Key) (stop : BlockEnd) : (t.close k stop).routines = t.routines := by
  rw [routines, close, map_key_putEnd]
  rfl

end Table

namespace Scan

def headers (rs : List Run) : List Declaration := rs.filterMap declaration?

theorem headers_concat (rs : List Run) (r : Run) : headers (rs ++ [r]) = headers rs ++ (declaration? r).toList := by
  rw [headers, List.filterMap_append]
  cases h : declaration? r with
  | none   => rw [List.filterMap_cons_none h, List.filterMap_nil]; rfl
  | some d => rw [List.filterMap_cons_some h, List.filterMap_nil]; rfl

/-- **What `f` tells of each run in turn**, from the runs before it and the run. -/
def inTurn {β : Type} (f : List Run → Run → List β) (rs : List Run) : List β :=
  rs.zipIdx.flatMap (fun x => f (rs.take x.2) x.1)

theorem inTurn_concat {β : Type} (f : List Run → Run → List β) (rs : List Run) (r : Run) :
    inTurn f (rs ++ [r]) = inTurn f rs ++ f rs r := by
  have hsame : ∀ x ∈ rs.zipIdx, f ((rs ++ [r]).take x.2) x.1 = f (rs.take x.2) x.1 := fun x hx => by
    rw [List.take_append_of_le_length (Nat.le_of_lt (List.snd_lt_of_mem_zipIdx hx))]
  rw [inTurn, List.zipIdx_append, List.flatMap_append, List.flatMap_congr hsame, inTurn]
  simp

/-! ## The routines of the table -/

variable {r : Run}

theorem scope_of_declaration? {d : Declaration} (h : declaration? r = some d) : d.kind.scope = .routine :=
  scope_of_routineKey? (congrArg (Option.map Declaration.key) h)

theorem routines_foldl_mention (r : Run) (names : List Token) (t : Table) :
    (names.foldl (mention r) t).routines = t.routines := by
  induction names generalizing t with
  | nil            => rfl
  | cons name names ih =>
    rw [List.foldl_cons, ih, mention]
    split
    · rfl
    · exact t.routines_declare_variable rfl

theorem routines_step (s : Scan) (r : Run) : (s.step r).table.routines =
    (declaration? r).elim s.table.routines (fun d =>
      if d.key ∈ s.table.routines then s.table.routines else s.table.routines ++ [d.key]) := by
  cases hcloses : Run.closes? r.tokens with
  | some form =>
    rw [declaration?_of_routine? (offers_of_closes hcloses).1]
    rcases table_step_of_closes hcloses s with hs | ⟨k, hs⟩
    · rw [hs]
      rfl
    · rw [hs]
      exact s.table.routines_close k _
  | none      =>
    rw [table_step hcloses]
    cases hroutine : routine? r.tokens with
    | none      =>
      rw [declaration?_of_routine? hroutine, table_declare_offers hroutine]
      exact routines_foldl_mention r _ s.table
    | some kind =>
      rw [table_declare_routine hroutine, declaration?, hroutine]
      cases routineName? r.tokens with
      | none      => rfl
      | some name => exact s.table.routines_declare_routine rfl

/-- **The routines of the table are those of the headers**, each once and in the order of their first headers. -/
theorem routines_ofRuns (rs : List Run) : (ofRuns rs).table.routines = ((headers rs).map Declaration.key).eraseDups := by
  induction rs using List.reverseRecOn with
  | nil                      => rfl
  | append_singleton rs r ih =>
    rw [ofRuns_concat, routines_step, headers_concat, ih]
    cases declaration? r with
    | none   => simp
    | some d =>
      rw [Option.elim_some, Option.toList_some, List.map_append, List.map_cons, List.map_nil,
        Register.eraseDups_append_singleton]
      simp only [List.mem_eraseDups]

/-! ## The last header of a name -/

theorem isHeader_eq_true_iff {name : Text} :
    isHeader name r = true ↔ ∃ d, declaration? r = some d ∧ d.key = Key.ofName .routine name := by
  rw [isHeader, Option.any_eq_true]
  refine exists_congr fun d => and_congr_right fun hd => ?_
  rw [Table.key_eq_ofName_iff, and_iff_right (scope_of_declaration? hd)]

theorem last?_headers_concat (name : Text) (rs : List Run) (r : Run) :
    last? (Key.ofName .routine name) (headers (rs ++ [r])) =
      if isHeader name r then declaration? r else last? (Key.ofName .routine name) (headers rs) := by
  rw [headers_concat, isHeader]
  cases hd : declaration? r with
  | none   => simp
  | some d =>
    have hkey : d.key = Key.ofName .routine name ↔ Text.alike d.name name = true :=
      Table.key_eq_ofName_iff.trans (and_iff_right (scope_of_declaration? hd))
    rw [Option.toList_some, last?_concat, Option.any_some]
    simp only [hkey]

/-- **The last header of a name** is one after which no other of the name comes. -/
theorem exists_last_header {name : Text} {rs : List Run} {d : Declaration}
    (h : last? (Key.ofName .routine name) (headers rs) = some d) :
    ∃ before r after, rs = before ++ r :: after ∧ declaration? r = some d ∧ ∀ q ∈ after, isHeader name q = false := by
  induction rs using List.reverseRecOn with
  | nil                      => cases h
  | append_singleton rs r ih =>
    rw [last?_headers_concat] at h
    split at h
    · exact ⟨rs, r, [], rfl, h, List.forall_mem_nil _⟩
    · rename_i hr
      obtain ⟨before, q, after, rfl, hq, hafter⟩ := ih h
      refine ⟨before, q, after ++ [r], by rw [List.append_assoc, List.cons_append], hq, ?_⟩
      exact List.forall_mem_append.2 ⟨hafter, List.forall_mem_singleton.2 (Bool.eq_false_iff.2 hr)⟩

theorem isSome_last?_headers (name : Text) (rs : List Run) :
    (last? (Key.ofName .routine name) (headers rs)).isSome = rs.any (isHeader name) := by
  induction rs using List.reverseRecOn with
  | nil                      => rfl
  | append_singleton rs r ih =>
    rw [last?_headers_concat, List.any_append, List.any_cons, List.any_nil, Bool.or_false, ← ih]
    cases hr : isHeader name r with
    | true  =>
      obtain ⟨d, hd, -⟩ := isHeader_eq_true_iff.1 hr
      rw [if_pos rfl, hd, Bool.or_true]
      rfl
    | false => rw [if_neg Bool.false_ne_true, Bool.or_false]

/-! ## Reports -/

def place (d : Diagnostic) : Code × Option Nat × Column := (d.code, d.line?, d.column)

/-- **What is wrong with a header, and where**: it has no name, or the name of a header before it. -/
def complaint (before : List Run) (r : Run) : List (Code × Option Nat × Column) :=
  match routine? r.tokens, routineName? r.tokens with
  | none, _           => []
  | some _, none      => r.tokens.head?.toList.map (fun t => (.missingIdentifier, some r.number, t.column))
  | some _, some name =>
    if before.any (isHeader name.text) then [(.duplicateDeclaration, some r.number, name.column)] else []

theorem place_reports (rs : List Run) (r : Run) : (reports (headers rs) r).map place = complaint rs r := by
  rw [reports, complaint]
  cases routine? r.tokens with
  | none      => rfl
  | some kind =>
    cases routineName? r.tokens with
    | none      => cases r.tokens <;> rfl
    | some name =>
      have hsome := isSome_last?_headers name.text rs
      simp only [show (header r kind name).key = Key.ofName .routine name.text from rfl, ← hsome]
      cases last? (Key.ofName .routine name.text) (headers rs) <;> rfl

theorem diagnostics_inTurn (rs : List Run) :
    (ofRuns rs).diagnostics = inTurn (fun before r => reports (headers before) r) rs := by
  induction rs using List.reverseRecOn with
  | nil                      => rfl
  | append_singleton rs r ih => rw [diagnostics_concat, inTurn_concat, ih]; rfl

theorem place_diagnostics (rs : List Run) : (ofRuns rs).diagnostics.map place = inTurn complaint rs := by
  rw [diagnostics_inTurn, inTurn, List.map_flatMap]
  exact List.flatMap_congr fun x _ => place_reports _ x.1

/-! ## Lines -/

/-- **Each declaration bears the line of a run, and so does its end**, which is not that of a run in an earlier line. -/
def Dated (rs : List Run) (t : Table) : Prop :=
  ∀ d ∈ t.entries, (∃ r ∈ rs, d.index = r.index ∧ d.number = r.number) ∧
    ∀ stop, d.closedAt = some stop → d.index ≤ stop.index ∧ ∃ r ∈ rs, stop = ⟨r.index, r.number⟩

variable {rs : List Run} {t : Table}

theorem Dated.mono (h : Dated rs t) (r : Run) : Dated (rs ++ [r]) t := by
  intro d hd
  obtain ⟨⟨q, hq, hline⟩, hstop⟩ := h d hd
  refine ⟨⟨q, List.mem_append_left _ hq, hline⟩, fun stop hs => ?_⟩
  obtain ⟨hle, q, hq, hend⟩ := hstop stop hs
  exact ⟨hle, q, List.mem_append_left _ hq, hend⟩

theorem Dated.declare (h : Dated rs t) (hr : r ∈ rs) {d : Declaration} (hd : d.index = r.index ∧ d.number = r.number)
    (hopen : d.closedAt = none) : Dated rs (t.declare d) := by
  intro e he
  rcases Table.mem_put he with rfl | he
  · exact ⟨⟨r, hr, hd⟩, by rw [hopen]; nofun⟩
  · exact h e he

theorem Dated.close (h : Dated rs t) (hr : r ∈ rs) (hlast : ∀ q ∈ rs, q.index ≤ r.index) (k : Key) :
    Dated rs (t.close k ⟨r.index, r.number⟩) := by
  intro e he
  obtain ⟨d, hd, rfl | rfl⟩ := Table.mem_putEnd he
  · exact h e hd
  · obtain ⟨⟨q, hq, hline⟩, -⟩ := h d hd
    refine ⟨⟨q, hq, hline⟩, ?_⟩
    rintro stop ⟨⟩
    exact ⟨hline.1 ▸ hlast q hq, r, hr, rfl⟩

theorem Dated.foldl_mention (h : Dated rs t) (hr : r ∈ rs) (names : List Token) :
    Dated rs (names.foldl (mention r) t) := by
  refine List.foldlRecOn _ _ h fun t ht name _ => ?_
  rw [mention]
  split
  · exact ht
  · exact ht.declare hr ⟨rfl, rfl⟩ rfl

theorem Dated.step {s : Scan} (h : Dated rs s.table) (hlast : ∀ q ∈ rs, q.index ≤ r.index) :
    Dated (rs ++ [r]) (s.step r).table := by
  have hmem : r ∈ rs ++ [r] := List.mem_append_right rs List.mem_cons_self
  cases hcloses : Run.closes? r.tokens with
  | some form =>
    rcases table_step_of_closes hcloses s with hs | ⟨k, hs⟩
    · rw [hs]
      exact h.mono r
    · rw [hs]
      exact (h.mono r).close hmem
        (List.forall_mem_append.2 ⟨hlast, List.forall_mem_singleton.2 (Nat.le_refl _)⟩) k
  | none      =>
    rw [table_step hcloses]
    cases hroutine : routine? r.tokens with
    | none      =>
      rw [table_declare_offers hroutine]
      exact (h.mono r).foldl_mention hmem _
    | some kind =>
      rw [table_declare_routine hroutine]
      cases routineName? r.tokens with
      | none      => exact h.mono r
      | some name => exact (h.mono r).declare hmem ⟨rfl, rfl⟩ rfl

theorem dated_ofRuns (rs : List Run) (hrs : rs.Pairwise (fun q r => q.index ≤ r.index)) :
    Dated rs (ofRuns rs).table := by
  induction rs using List.reverseRecOn with
  | nil                      => exact List.forall_mem_nil _
  | append_singleton rs r ih =>
    obtain ⟨hbefore, -, hlast⟩ := List.pairwise_append.1 hrs
    rw [ofRuns_concat]
    exact (ih hbefore).step fun q hq => hlast q hq r List.mem_cons_self

end Scan

/-! ## The runs of lines -/

theorem line_of_mem_runsFrom : ∀ {lines : List CodeLine} {index : Nat} {r : Run}, r ∈ runsFrom index lines →
    ∃ i, r.index = index + i ∧ i < lines.length ∧ lines[i]?.map CodeLine.number = some r.number
  | [], _, _, h          => absurd h List.not_mem_nil
  | l :: ls, index, r, h => by
    rw [runsFrom] at h
    rcases List.mem_append.1 h with h | h
    · obtain ⟨ts, -, rfl⟩ := List.mem_map.1 h
      exact ⟨0, rfl, Nat.succ_pos _, rfl⟩
    · obtain ⟨i, hi, hlt, hnumber⟩ := line_of_mem_runsFrom h
      exact ⟨i + 1, by omega, Nat.succ_lt_succ hlt, hnumber⟩

theorem pairwise_index_runsFrom : ∀ (lines : List CodeLine) (index : Nat),
    (runsFrom index lines).Pairwise (fun q r => q.index ≤ r.index)
  | [], _          => List.Pairwise.nil
  | l :: ls, index => by
    rw [runsFrom, List.pairwise_append]
    refine ⟨List.pairwise_map.2 (List.pairwise_of_forall fun _ _ => Nat.le_refl _),
      pairwise_index_runsFrom ls (index + 1), ?_⟩
    intro q hq r hr
    obtain ⟨ts, -, rfl⟩ := List.mem_map.1 hq
    obtain ⟨i, hi, -⟩ := line_of_mem_runsFrom hr
    exact hi ▸ (by omega : index ≤ index + 1 + i)

theorem line_of_mem_programRuns {lines : List CodeLine} {r : Run} (h : r ∈ programRuns lines) :
    r.index < lines.length ∧ lines[r.index]?.map CodeLine.number = some r.number := by
  obtain ⟨i, hi, hline⟩ := line_of_mem_runsFrom h
  rw [Nat.zero_add] at hi
  exact hi ▸ hline

/-- **The routines of a program.**  The table has one routine for each name of a header, up to case and in the order of
the first headers, and it is as the last header of the name has it, but for its end.  The reports are one on each header
whose name a header before it has, at the name, and one on each header without a name, at its first word, in the order of
the source.  Every declaration, of a routine or a variable, bears the index and the number of a line of the program; an end,
as one `BlockEnd`, has both or is not there at all, and its line does not come before that of the declaration. -/
theorem routines_by_last_headers (lines : List CodeLine) :
    (declarations lines).1.routines = ((Scan.headers (programRuns lines)).map Declaration.key).eraseDups ∧
    (∀ d ∈ (declarations lines).1.entries, d.key.scope = .routine →
      ∃ before r after kind name, programRuns lines = before ++ r :: after ∧
        Scan.routine? r.tokens = some kind ∧ Scan.routineName? r.tokens = some name ∧
        (∀ q ∈ after, Scan.isHeader d.name q = false) ∧
        d = ⟨name.text, .routine kind, r.index, r.number, Scan.parameters (r.tokens.drop 2), d.closedAt⟩) ∧
    (declarations lines).2.map Scan.place = Scan.inTurn Scan.complaint (programRuns lines) ∧
    ∀ d ∈ (declarations lines).1.entries,
      d.index < lines.length ∧ lines[d.index]?.map CodeLine.number = some d.number ∧
      ∀ stop, d.closedAt = some stop → d.index ≤ stop.index ∧
        stop.index < lines.length ∧ lines[stop.index]?.map CodeLine.number = some stop.number := by
  refine ⟨Scan.routines_ofRuns _, fun d hd hscope => ?_, Scan.place_diagnostics _, fun d hd => ?_⟩
  · have hkey : d.key = Key.ofName .routine d.name := congrArg (Key.ofName · d.name) hscope
    have hget := (Scan.records_ofRuns (programRuns lines)).distinct.get?_of_mem hd
    have hlast := Scan.get?_routine_ofRuns hscope (programRuns lines)
    rw [hget, hkey] at hlast
    obtain ⟨before, r, after, hsplit, hr, hafter⟩ := Scan.exists_last_header hlast.symm
    obtain ⟨kind, hkind, hr⟩ := Option.bind_eq_some_iff.1 hr
    obtain ⟨name, hname, hr⟩ := Option.map_eq_some_iff.1 hr
    refine ⟨before, r, after, kind, name, hsplit, hkind, hname, hafter, ?_⟩
    exact congrArg (fun e : Declaration => { e with closedAt := d.closedAt }) hr.symm
  · obtain ⟨⟨r, hr, hindex, hnumber⟩, hstop⟩ :=
      Scan.dated_ofRuns (programRuns lines) (pairwise_index_runsFrom lines 0) d hd
    obtain ⟨hlt, hline⟩ := line_of_mem_programRuns hr
    refine ⟨hindex ▸ hlt, by rw [hindex, hnumber, hline], fun stop hs => ?_⟩
    obtain ⟨hle, q, hq, rfl⟩ := hstop stop hs
    exact ⟨hle, line_of_mem_programRuns hq⟩

/-- A function takes the place of a procedure of its name, and the end of that goes with it. -/
example : (declarations [.ofSource 10 "PROCEDURE Sum : END PROCEDURE".toList, .ofSource 20 "FUNCTION sum(a)".toList,
      .ofSource 30 "PROCEDURE : END PROCEDURE : END FUNCTION".toList]) =
    (⟨[⟨"sum".toList, .routine .function, 1, 20, ["a".toList], some ⟨2, 30⟩⟩]⟩,
      [⟨.duplicateDeclaration, some 20, ⟨9, 12⟩, "Sum FIRST DECLARED IN 10".toList⟩,
        ⟨.missingIdentifier, some 30, ⟨0, 9⟩, "PROCEDURE".toList⟩]) := by
  decide +kernel

end BlockBasic
