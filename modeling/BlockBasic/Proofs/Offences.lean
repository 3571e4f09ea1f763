import BlockBasic.Proofs.Sites
/-!
# Offences — reading is all or nothing, and nothing after it is fatal

A look at a feed may find the interrupt raised, or a read that failed; the interrupt is looked for first, and once more
after the last read (`Offends`).  The first look that finds something ends the reading with its report, whatever was read
before it and however much of a continued line is pending; if no look does, every line is there (`collect_cases`).  The
stages after reading mend whatever they report, so a fatal report means that reading failed.
-/
namespace BlockBasic
namespace Feed

/-- The interrupt shows in the look at read `i`, counted from zero.  Once raised it stays raised.  The look after the last
read is the one at the number of reads. -/
def RaisedAt (f : Feed) (i : Nat) : Prop := ∃ k, f.interruptAt = some k ∧ k ≤ i

/-- **What the look at read `i` finds wrong**, with the report on it.  Lines are counted from one. -/
inductive Offends (f : Feed) : Nat → Diagnostic → Prop
  | interrupted {i : Nat} : i < f.reads.length → f.RaisedAt i → Offends f i (Fault.interrupted.inLine (i + 1))
  | unreadable {i : Nat} {reason : Text} : ¬ f.RaisedAt i → f.reads[i]? = some (.error reason) →
      Offends f i ((Fault.unreadable reason).inLine (i + 1))
  | late : f.RaisedAt f.reads.length → Offends f f.reads.length Fault.interrupted.diagnostic

def FirstOffence (f : Feed) (d : Diagnostic) : Prop := ∃ i, f.Offends i d ∧ ∀ j < i, ∀ e, ¬ f.Offends j e

variable {f : Feed}

theorem interruptedBy_iff {i : Nat} : interruptedBy f.interruptAt i = true ↔ f.RaisedAt i := by
  unfold interruptedBy RaisedAt
  cases f.interruptAt <;> simp

theorem exists_offends_iff {i : Nat} : (∃ d, f.Offends i d) ↔
    i ≤ f.reads.length ∧ (f.RaisedAt i ∨ ∃ reason, f.reads[i]? = some (.error reason)) := by
  constructor
  · rintro ⟨d, h⟩
    cases h with
    | interrupted hi hr => exact ⟨Nat.le_of_lt hi, .inl hr⟩
    | unreadable _ hr => exact ⟨Nat.le_of_lt (List.getElem?_eq_some_iff.1 hr).1, .inr ⟨_, hr⟩⟩
    | late hr => exact ⟨Nat.le_refl _, .inl hr⟩
  · rintro ⟨hi, h⟩
    by_cases hr : f.RaisedAt i
    · rcases Nat.lt_or_eq_of_le hi with hi | rfl
      · exact ⟨_, .interrupted hi hr⟩
      · exact ⟨_, .late hr⟩
    · obtain ⟨reason, hread⟩ := h.resolve_left hr
      exact ⟨_, .unreadable hr hread⟩

theorem Offends.unique {i : Nat} {d e : Diagnostic} (hd : f.Offends i d) (he : f.Offends i e) : d = e := by
  have hlast : ∀ {reason}, f.reads[f.reads.length]? ≠ some (.error reason) := by simp
  cases hd with
  | interrupted hi hr =>
    cases he with
    | interrupted => rfl
    | unreadable hn _ => exact absurd hr hn
    | late => omega
  | unreadable hn hr =>
    cases he with
    | interrupted _ hi => exact absurd hi hn
    | unreadable _ hr' =>
      rw [hr] at hr'
      cases hr'
      rfl
    | late => exact absurd hr hlast
  | late hr =>
    cases he with
    | interrupted => omega
    | unreadable _ hr' => exact absurd hr' hlast
    | late => rfl

theorem FirstOffence.unique {d e : Diagnostic} (hd : f.FirstOffence d) (he : f.FirstOffence e) : d = e := by
  obtain ⟨i, hi, hbefore⟩ := hd
  obtain ⟨j, hj, hbefore'⟩ := he
  rcases Nat.lt_trichotomy i j with h | rfl | h
  · exact absurd hi (hbefore' i h d)
  · exact hi.unique hj
  · exact absurd hj (hbefore j h e)

theorem collect_of_interrupted {k : Option Nat} {done : Nat} (h : interruptedBy k done = true) (r : Except Text Text)
    (reads : List (Except Text Text)) :
    collect k done (r :: reads) = .error (Fault.interrupted.inLine (done + 1)) := by
  cases r <;> rw [collect, if_pos h]

/-- **The walk over the reads after `pre`** gives all of their texts, and then no look from there on finds anything wrong;
or it gives the report on the first that does. -/
theorem collect_cases : ∀ (reads pre : List (Except Text Text)), f.reads = pre ++ reads →
    (∃ texts, collect f.interruptAt pre.length reads = .ok texts ∧ reads = texts.map .ok ∧
      ∀ j, pre.length ≤ j → ∀ e, ¬ f.Offends j e) ∨
    ∃ d i, collect f.interruptAt pre.length reads = .error d ∧ pre.length ≤ i ∧ f.Offends i d ∧
      ∀ j, pre.length ≤ j → j < i → ∀ e, ¬ f.Offends j e
  | [], pre, hf => by
    rw [List.append_nil] at hf
    rw [collect]
    by_cases hr : f.RaisedAt pre.length
    · rw [if_pos (interruptedBy_iff.2 hr)]
      rw [← hf] at hr ⊢
      exact .inr ⟨_, _, rfl, Nat.le_refl _, .late hr, fun j hj hlt => by omega⟩
    · rw [if_neg (mt interruptedBy_iff.1 hr)]
      refine .inl ⟨[], rfl, rfl, fun j hj e he => ?_⟩
      obtain ⟨hle, h⟩ := exists_offends_iff.1 ⟨e, he⟩
      rw [hf] at hle h
      obtain rfl := Nat.le_antisymm hj hle
      exact hr (h.resolve_right (by simp))
  | r :: reads, pre, hf => by
    have hread : f.reads[pre.length]? = some r := by rw [hf]; simp
    have hlt : pre.length < f.reads.length := (List.getElem?_eq_some_iff.1 hread).1
    by_cases hr : f.RaisedAt pre.length
    · rw [collect_of_interrupted (interruptedBy_iff.2 hr)]
      exact .inr ⟨_, _, rfl, Nat.le_refl _, .interrupted hlt hr, fun j hj hj' => by omega⟩
    · cases r with
      | error reason =>
        rw [collect, if_neg (mt interruptedBy_iff.1 hr)]
        exact .inr ⟨_, _, rfl, Nat.le_refl _, .unreadable hr hread, fun j hj hj' => by omega⟩
      | ok text =>
        rw [collect, if_neg (mt interruptedBy_iff.1 hr)]
        have hhere : ∀ e, ¬ f.Offends pre.length e := by
          intro e he
          obtain ⟨reason, h⟩ := (exists_offends_iff.1 ⟨e, he⟩).2.resolve_left hr
          rw [hread] at h
          cases h
        have hfrom : ∀ {j : Nat}, pre.length ≤ j → j = pre.length ∨ (pre ++ [Except.ok text]).length ≤ j := by
          intro j hj
          rw [List.length_append, List.length_singleton]
          omega
        have hlength : pre.length + 1 = (pre ++ [Except.ok (ε := Text) text]).length := by simp
        simp only [hlength]
        rcases collect_cases reads (pre ++ [.ok text]) (by rw [hf, List.append_assoc]; rfl) with
          ⟨texts, hc, hreads, hclean⟩ | ⟨d, i, hc, hi, hoff, hbefore⟩
        · rw [hc, hreads]
          refine .inl ⟨text :: texts, rfl, rfl, fun j hj => ?_⟩
          rcases hfrom hj with rfl | hj
          · exact hhere
          · exact hclean j hj
        · rw [hc]
          refine .inr ⟨d, i, rfl, by omega, hoff, fun j hj hji => ?_⟩
          rcases hfrom hj with rfl | hj
          · exact hhere
          · exact hbefore j hj hji

/-- **A feed gives all of its lines, or the report on its first offence.** -/
theorem logicalLines_cases (o : Conventions) (f : Feed) :
    (∃ texts, f.logicalLines o = .ok (BlockBasic.logicalLines o texts) ∧ f.reads = texts.map .ok ∧
      ∀ i e, ¬ f.Offends i e) ∨
    ∃ d, f.logicalLines o = .error d ∧ f.FirstOffence d := by
  unfold logicalLines physicalLines
  rcases collect_cases f.reads [] rfl with ⟨texts, hc, hreads, hclean⟩ | ⟨d, i, hc, -, hoff, hbefore⟩
  · rw [List.length_nil] at hc
    rw [hc]
    exact .inl ⟨texts, rfl, hreads, fun i => hclean i (Nat.zero_le i)⟩
  · rw [List.length_nil] at hc
    rw [hc]
    exact .inr ⟨d, rfl, i, hoff, fun j => hbefore j (Nat.zero_le j)⟩

theorem never_offends_iff : (∀ i e, ¬ f.Offends i e) ↔
    (∀ r ∈ f.reads, ∃ text, r = .ok text) ∧ ∀ i ≤ f.reads.length, ¬ f.RaisedAt i := by
  constructor
  · intro h
    have hnone : ∀ i ≤ f.reads.length, ¬ (f.RaisedAt i ∨ ∃ reason, f.reads[i]? = some (.error reason)) := by
      intro i hi hoff
      obtain ⟨d, hd⟩ := exists_offends_iff.2 ⟨hi, hoff⟩
      exact h i d hd
    refine ⟨fun r hr => ?_, fun i hi hraised => hnone i hi (.inl hraised)⟩
    obtain ⟨i, hi, rfl⟩ := List.getElem_of_mem hr
    cases hread : f.reads[i] with
    | ok text => exact ⟨text, rfl⟩
    | error reason =>
      exact absurd (.inr ⟨reason, by rw [List.getElem?_eq_getElem hi, hread]⟩) (hnone i (Nat.le_of_lt hi))
  · rintro ⟨hreads, hraised⟩ i e he
    obtain ⟨hi, hr | ⟨reason, hr⟩⟩ := exists_offends_iff.1 ⟨e, he⟩
    · exact hraised i hi hr
    · obtain ⟨text, htext⟩ := hreads _ (List.mem_of_getElem? hr)
      cases htext

theorem Offends.isFatal {i : Nat} {d : Diagnostic} (h : f.Offends i d) : d.isFatal = true := by
  cases h <;> rfl

end Feed

namespace Parse

theorem not_isFatal_of_mem {source : List SourceLine} {d : Diagnostic} (hd : d ∈ (ofLines source).diagnostics) :
    d.isFatal = false := by
  obtain ⟨l, -, hd⟩ := about_ofLines source d hd
  exact hd.mended

theorem not_isFatal_ofLines (source : List SourceLine) : (ofLines source).isFatal = false := by
  rw [isFatal, List.any_eq_false]
  intro d hd
  rw [not_isFatal_of_mem hd]
  exact Bool.false_ne_true

end Parse

/-- **Fatal reports come from reading alone, and leave nothing else.**  A feed gives logical lines exactly if every read
gives a text and no look, the one after the last read included, finds the interrupt raised.  Otherwise it gives the report
on its first offence, and what comes of it is that report without program, declarations or lines.  A parse is fatal
exactly if reading failed: no report on lines that were read is. -/
theorem reading_all_or_nothing (o : Conventions) (f : Feed) :
    ((∃ lines, f.logicalLines o = .ok lines) ↔
      (∀ r ∈ f.reads, ∃ text, r = .ok text) ∧ ∀ i ≤ f.reads.length, ¬ f.RaisedAt i) ∧
    (∀ d, f.logicalLines o = .error d ↔ f.FirstOffence d) ∧
    (∀ d, f.logicalLines o = .error d → (Parse.ofFeed o f).program = [] ∧
      (Parse.ofFeed o f).references = Table.empty ∧ (Parse.ofFeed o f).lines = [] ∧
      (Parse.ofFeed o f).diagnostics = [d]) ∧
    ((Parse.ofFeed o f).isFatal = true ↔ ∃ d, f.logicalLines o = .error d) ∧
    ∀ source, ∀ d ∈ (Parse.ofLines source).diagnostics, d.isFatal = false := by
  have hlines : ∀ source, ∀ d ∈ (Parse.ofLines source).diagnostics, d.isFatal = false :=
    fun source d hd => Parse.not_isFatal_of_mem hd
  unfold Parse.ofFeed
  rcases Feed.logicalLines_cases o f with ⟨texts, hread, -, hclean⟩ | ⟨d, hread, hfirst⟩
  · simp only [hread]
    refine ⟨iff_of_true ⟨_, rfl⟩ (Feed.never_offends_iff.1 hclean), fun d => ?_, nofun, ?_, hlines⟩
    · exact iff_of_false (fun h => by cases h) (fun ⟨i, hi, _⟩ => hclean i d hi)
    · rw [Parse.not_isFatal_ofLines]
      exact iff_of_false Bool.false_ne_true (fun ⟨d, hd⟩ => by cases hd)
  · simp only [hread]
    obtain ⟨i, hoff, -⟩ := id hfirst
    refine ⟨iff_of_false (fun ⟨_, h⟩ => by cases h) (fun h => ?_), fun e => ?_, fun e he => ?_, ?_, hlines⟩
    · exact Feed.never_offends_iff.2 h i d hoff
    · constructor
      · intro he
        cases he
        exact hfirst
      · intro he
        rw [hfirst.unique he]
    · cases he
      exact ⟨rfl, rfl, rfl, rfl⟩
    · refine iff_of_true ?_ ⟨d, rfl⟩
      simp [Parse.isFatal, Parse.failed, hoff.isFatal]

/-- A failed read in the second line ends the reading, although the first line waits to be continued and the interrupt is
raised at the third. -/
theorem reading_all_or_nothing_pending :
    Feed.logicalLines {} ⟨[.ok "A = 1 _".toList, .error "DISK".toList, .ok "B = 2".toList], some 2⟩ =
      .error ⟨.ioFailure, some 2, Column.none, "DISK".toList⟩ ∧
    (Parse.ofFeed {} ⟨[.ok "A = 1 _".toList, .error "DISK".toList, .ok "B = 2".toList], some 2⟩).diagnostics =
      [⟨.ioFailure, some 2, Column.none, "DISK".toList⟩] :=
  ⟨rfl, ((reading_all_or_nothing {} _).2.2.1 _ rfl).2.2.2⟩

end BlockBasic
