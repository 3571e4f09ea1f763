import BlockBasic.Proofs.Routines
/-!
# Duplicates — the declaration that a report on a duplicate names

A report on a duplicate says where the routine was first declared.  It takes that from the table, where each header has put
its declaration in the place of the one before, so what it names is the last header of the name up to there
(`diagnostics_inTurn`).  That is the first one for the second header of a name; from the third on it need not be.  Which
header is named shows in the report exactly by its spelling and its line (`message_duplicate_iff`).
-/
namespace BlockBasic

namespace Text

theorem ofNat_inj {m n : Nat} : ofNat m = ofNat n ↔ m = n := by
  refine ⟨fun h => ?_, congrArg ofNat⟩
  have hvalue := congrArg decimal? h
  rw [decimal?_ofNat, decimal?_ofNat] at hvalue
  exact Option.some.inj hvalue

theorem length_eq_of_alike {s t : Text} (h : alike s t = true) : s.length = t.length :=
  calc s.length = s.upper.length := (length_upper s).symm
    _ = t.upper.length := congrArg List.length (alike_iff.1 h)
    _ = t.length := length_upper t

end Text

theorem Fault.message_duplicate (name : Text) (line : Nat) :
    (Fault.duplicate name line).message = name ++ (" FIRST DECLARED IN ".toList ++ Text.ofNat line) :=
  List.append_assoc ..

theorem Fault.message_duplicate_iff {s t : Text} {m n : Nat} (h : Text.alike s t = true) :
    (Fault.duplicate s m).message = (Fault.duplicate t n).message ↔ s = t ∧ m = n := by
  constructor
  · intro hm
    rw [message_duplicate, message_duplicate] at hm
    obtain ⟨hs, hrest⟩ := List.append_inj hm (Text.length_eq_of_alike h)
    exact ⟨hs, Text.ofNat_inj.1 (List.append_cancel_left hrest)⟩
  · rintro ⟨rfl, rfl⟩
    rfl

namespace Scan

def namesakes (k : Key) (ds : List Declaration) : List Declaration := ds.filter (fun d => d.key == k)

def first? (k : Key) (ds : List Declaration) : Option Declaration := (namesakes k ds).head?

/-- What is reported on a run, if a report on a duplicate names the header that `choose` takes of those before it. -/
def reportsNaming (choose : Key → List Declaration → Option Declaration) (before : List Run) (r : Run) : List Diagnostic :=
  match routine? r.tokens with
  | none      => []
  | some kind =>
    match routineName? r.tokens with
    | none      => (r.tokens.head?.map (fun t => (Fault.nameless kind).located r.number t.column)).toList
    | some name => ((choose (Key.ofName .routine name.text) (headers before)).map (fun d =>
        (Fault.duplicate d.name d.number).located r.number name.column)).toList

/-- **Whether declarations have the spelling and the line of the first of them**, but for the last. -/
def Agree (ds : List Declaration) : Prop := ∀ d ∈ ds.dropLast, ∀ f ∈ ds.head?, d.name = f.name ∧ d.number = f.number

theorem agree_concat {ds : List Declaration} {d : Declaration} : Agree (ds ++ [d]) ↔
    Agree ds ∧ ∀ p ∈ ds.getLast?, ∀ f ∈ ds.head?, p.name = f.name ∧ p.number = f.number := by
  rcases List.eq_nil_or_concat' ds with rfl | ⟨es, p, rfl⟩
  · simp [Agree]
  · have hhead : (es ++ [p] ++ [d]).head? = (es ++ [p]).head? := List.head?_append_of_ne_nil _ (by simp)
    rw [Agree, Agree, hhead, List.dropLast_concat, List.dropLast_concat, List.getLast?_concat, List.forall_mem_append,
      List.forall_mem_singleton]
    simp

theorem namesakes_concat (k : Key) (ds : List Declaration) (d : Declaration) :
    namesakes k (ds ++ [d]) = if d.key = k then namesakes k ds ++ [d] else namesakes k ds := by
  rw [namesakes, List.filter_append, namesakes]
  by_cases hk : d.key = k <;> simp [hk]

theorem last?_first?_cases (k : Key) (ds : List Declaration) : (last? k ds = none ∧ first? k ds = none) ∨
    ∃ p f, last? k ds = some p ∧ first? k ds = some f ∧ Text.alike p.name f.name = true := by
  have hlast : last? k ds = (namesakes k ds).getLast? := rfl
  rw [hlast, first?]
  by_cases hne : namesakes k ds = []
  · rw [hne]
    exact .inl ⟨rfl, rfl⟩
  · refine .inr ⟨_, _, List.getLast?_eq_some_getLast hne, List.head?_eq_some_head hne, ?_⟩
    have hkey : ∀ d ∈ namesakes k ds, d.key = k := fun d hd => beq_iff_eq.1 (List.mem_filter.1 hd).2
    exact Text.alike_iff.2 (congrArg Key.name
      ((hkey _ (List.getLast_mem hne)).trans (hkey _ (List.head_mem hne)).symm))

/-! ## Naming the first header -/

theorem length_reportsNaming (rs : List Run) (r : Run) :
    (reportsNaming last? rs r).length = (reportsNaming first? rs r).length := by
  unfold reportsNaming
  cases routine? r.tokens with
  | none      => rfl
  | some kind =>
    cases routineName? r.tokens with
    | none      => rfl
    | some name =>
      rcases last?_first?_cases (Key.ofName .routine name.text) (headers rs) with ⟨hp, hf⟩ | ⟨p, f, hp, hf, -⟩ <;>
        simp [hp, hf]

/-- **The report on a run names the first header** exactly if the last one before the run agrees with it. -/
theorem reportsNaming_eq_iff (rs : List Run) (r : Run) : reportsNaming last? rs r = reportsNaming first? rs r ↔
    ∀ d, declaration? r = some d → ∀ p ∈ last? d.key (headers rs), ∀ f ∈ first? d.key (headers rs),
      p.name = f.name ∧ p.number = f.number := by
  unfold reportsNaming declaration?
  cases routine? r.tokens with
  | none      => simp
  | some kind =>
    cases routineName? r.tokens with
    | none      => simp
    | some name =>
      have hkey : (header r kind name).key = Key.ofName .routine name.text := rfl
      simp only [Option.bind_some, Option.map_some, Option.some.injEq, forall_eq', hkey]
      rcases last?_first?_cases (Key.ofName .routine name.text) (headers rs) with ⟨hp, hf⟩ | ⟨p, f, hp, hf, halike⟩
      · simp [hp, hf]
      · have hmessage := Fault.message_duplicate_iff (m := p.number) (n := f.number) halike
        simp [hp, hf, Fault.located, Fault.code, hmessage]

/-- **All reports name the first headers** exactly if the headers of each name agree with the first, but for the last. -/
theorem inTurn_reportsNaming_iff (rs : List Run) :
    inTurn (reportsNaming last?) rs = inTurn (reportsNaming first?) rs ↔ ∀ k, Agree (namesakes k (headers rs)) := by
  induction rs using List.reverseRecOn with
  | nil                      => exact iff_of_true rfl fun k => List.forall_mem_nil _
  | append_singleton rs r ih =>
    have hsplit : inTurn (reportsNaming last?) (rs ++ [r]) = inTurn (reportsNaming first?) (rs ++ [r]) ↔
        inTurn (reportsNaming last?) rs = inTurn (reportsNaming first?) rs ∧
          reportsNaming last? rs r = reportsNaming first? rs r := by
      rw [inTurn_concat, inTurn_concat]
      exact ⟨fun h => List.append_inj' h (length_reportsNaming rs r), fun ⟨h, hr⟩ => by rw [h, hr]⟩
    rw [hsplit, ih, reportsNaming_eq_iff, headers_concat]
    cases declaration? r with
    | none   => simp
    | some d =>
      have hd : (∀ k, Agree (namesakes k (headers rs ++ [d]))) ↔
          (∀ k, Agree (namesakes k (headers rs))) ∧ ∀ p ∈ last? d.key (headers rs), ∀ f ∈ first? d.key (headers rs),
            p.name = f.name ∧ p.number = f.number := by
        constructor
        · intro h
          have hown := h d.key
          rw [namesakes_concat, if_pos rfl, agree_concat] at hown
          refine ⟨fun k => ?_, hown.2⟩
          by_cases hk : d.key = k
          · exact hk ▸ hown.1
          · have hother := h k
            rwa [namesakes_concat, if_neg hk] at hother
        · rintro ⟨hall, hlast⟩ k
          rw [namesakes_concat]
          split
          · rename_i hk
            exact agree_concat.2 ⟨hall k, hk ▸ hlast⟩
          · exact hall k
      simp only [Option.some.injEq, forall_eq', Option.toList_some]
      exact hd.symm

end Scan

/-- **The declaration that a report on a duplicate names.**  It is the last header of the name before the duplicate.  So the
reports of a program name the first header of each name, by its spelling and its line, exactly if of the headers of each
name all but the last have the spelling and the line of the first. -/
theorem duplicates_name_first_iff (lines : List CodeLine) :
    (declarations lines).2 = Scan.inTurn (Scan.reportsNaming Scan.last?) (programRuns lines) ∧
    ((declarations lines).2 = Scan.inTurn (Scan.reportsNaming Scan.first?) (programRuns lines) ↔
      ∀ k, Scan.Agree (Scan.namesakes k (Scan.headers (programRuns lines)))) := by
  have hlast : (declarations lines).2 = Scan.inTurn (Scan.reportsNaming Scan.last?) (programRuns lines) :=
    Scan.diagnostics_inTurn (programRuns lines)
  refine ⟨hlast, ?_⟩
  rw [hlast, Scan.inTurn_reportsNaming_iff]

/-- **The third header of a name is reported with the spelling and the line of the second.** -/
theorem third_header_names_second :
    let lines : List CodeLine :=
      [.ofSource 1 "PROCEDURE A".toList, .ofSource 2 "PROCEDURE a".toList, .ofSource 3 "FUNCTION A".toList]
    (declarations lines).2.map Diagnostic.message =
      ["A FIRST DECLARED IN 1".toList, "a FIRST DECLARED IN 2".toList] ∧
    (declarations lines).2 ≠ Scan.inTurn (Scan.reportsNaming Scan.first?) (programRuns lines) := by
  decide +kernel

end BlockBasic
