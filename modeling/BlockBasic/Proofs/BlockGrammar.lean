import BlockBasic.Proofs.Outline
/-!
# BlockGrammar — what is not reported is well nested

The pass that assembles the tree mends what does not fit, and reports it.  The programs on whose blocks it reports nothing
are those of a grammar: a sequence of runs is well nested if it is empty, or a plain run or a whole block comes first and
a well nested sequence follows (`WellNested`).  The blocks that are open have to be completed by what follows, so the
induction is over sequences that complete a stack of open blocks (`Completes`).
-/
namespace BlockBasic

namespace Run

/-! ## Roles -/

theorem closes?_eq_none_of_opens? {tokens : List Token} {form : BlockForm} (h : opens? tokens = some form) :
    closes? tokens = none := by
  unfold opens? at h
  unfold closes?
  cases hw : word? tokens 0 with
  | none => rfl
  | some w =>
    rw [hw] at h
    cases w with
    | endIf | next | wend | loop | end_ => cases h
    | _ => rfl

theorem opens?_eq_none_of_closes? {tokens : List Token} {form : BlockForm} (h : closes? tokens = some form) :
    opens? tokens = none := by
  cases ho : opens? tokens with
  | none => rfl
  | some g =>
    rw [closes?_eq_none_of_opens? ho] at h
    cases h

theorem role_eq_closes {r : Run} {form : BlockForm} : r.role = .closes form ↔ closes? r.tokens = some form := by
  unfold role
  cases closes? r.tokens with
  | some f => simp
  | none => cases opens? r.tokens <;> simp

theorem role_eq_opens {r : Run} {form : BlockForm} : r.role = .opens form ↔ opens? r.tokens = some form := by
  constructor
  · unfold role
    cases closes? r.tokens with
    | some f => simp
    | none => cases opens? r.tokens <;> simp
  · intro h
    rw [role, closes?_eq_none_of_opens? h, h]

theorem role_eq_plain {r : Run} : r.role = .plain ↔ closes? r.tokens = none ∧ opens? r.tokens = none := by
  unfold role
  cases closes? r.tokens with
  | some f => simp
  | none => cases opens? r.tokens <;> simp

end Run

/-! ## The grammar -/

/-- **Well nested runs**: none; or a plain run, and well nested ones; or a run that opens a block, well nested ones, the run
that closes a block of that form, and well nested ones. -/
inductive WellNested : List Run → Prop
  | nil : WellNested []
  | plain {r : Run} {rest : List Run} : Run.closes? r.tokens = none → Run.opens? r.tokens = none → WellNested rest →
      WellNested (r :: rest)
  | block {form : BlockForm} {o c : Run} {body rest : List Run} : Run.opens? o.tokens = some form → WellNested body →
      Run.closes? c.tokens = some form → WellNested rest → WellNested (o :: (body ++ c :: rest))

/-- Runs that close open blocks, the innermost of them first, and are well nested otherwise. -/
inductive Completes : List BlockForm → List Run → Prop
  | last {rs : List Run} : WellNested rs → Completes [] rs
  | close {form : BlockForm} {forms : List BlockForm} {c : Run} {body rest : List Run} : WellNested body →
      Run.closes? c.tokens = some form → Completes forms rest → Completes (form :: forms) (body ++ c :: rest)

theorem Completes.plain {forms : List BlockForm} {r : Run} {rs : List Run} (hc : Run.closes? r.tokens = none)
    (ho : Run.opens? r.tokens = none) (h : Completes forms rs) : Completes forms (r :: rs) := by
  cases h with
  | last h => exact .last (.plain hc ho h)
  | close hb hclose hrest => exact .close (.plain hc ho hb) hclose hrest

theorem Completes.opens {forms : List BlockForm} {form : BlockForm} {o : Run} {rs : List Run}
    (ho : Run.opens? o.tokens = some form) (h : Completes (form :: forms) rs) : Completes forms (o :: rs) := by
  cases h with
  | close hbody hclose hrest =>
    cases hrest with
    | last h => exact .last (.block ho hbody hclose h)
    | @close _ _ c' body' rest' hbody' hclose' hrest' =>
      -- the new block belongs to what stands before the next terminator
      have hwhole := WellNested.block ho hbody hclose hbody'
      have h := Completes.close hwhole hclose' hrest'
      simpa only [List.cons_append, List.append_assoc] using h

namespace Assembly

/-- Every terminator closes the innermost block when its turn comes. -/
def Fitting : Assembly → List Run → Prop
  | _, []      => True
  | a, r :: rs => a.fault? r = none ∧ Fitting (a.step r) rs

theorem fitting_append : ∀ (xs ys : List Run) (a : Assembly),
    Fitting a (xs ++ ys) ↔ Fitting a xs ∧ Fitting (xs.foldl step a) ys
  | [], ys, a => (iff_of_eq (true_and _)).symm
  | x :: xs, ys, a => by
    rw [List.cons_append, Fitting, Fitting, fitting_append xs ys, List.foldl_cons, and_assoc]

/-! ### What a run does to the open blocks -/

theorem step_of_plain {a : Assembly} {r : Run} (h : r.role = .plain) :
    (a.step r).blocks = a.blocks ∧ a.fault? r = none := by
  rw [step, fault?, h]
  exact ⟨rfl, rfl⟩

theorem step_of_opens {a : Assembly} {r : Run} {form : BlockForm} (h : r.role = .opens form) :
    (a.step r).blocks = ⟨form, r, a.current⟩ :: a.blocks ∧ a.fault? r = none := by
  rw [step, fault?, h]
  exact ⟨rfl, rfl⟩

theorem step_of_closes {a : Assembly} {r : Run} {form : BlockForm} (h : r.role = .closes form) :
    a.fault? r = none ↔ ∃ b, a.blocks = b :: (a.step r).blocks ∧ b.form = form := by
  rw [step, fault?, h]
  cases hb : a.blocks with
  | nil => simp
  | cons b bs =>
    by_cases hf : b.form = form
    · simp [hf]
    · simp only [hf, if_false]
      constructor
      · exact nofun
      · rintro ⟨c, hc, hcf⟩
        exact absurd ((List.cons.inj hc).1 ▸ hcf) hf

/-- **Well nested runs leave the open blocks as they are**, and each terminator among them fits. -/
theorem fitting_of_wellNested {rs : List Run} (h : WellNested rs) : ∀ (a : Assembly),
    Fitting a rs ∧ (rs.foldl step a).blocks = a.blocks := by
  induction h with
  | nil => exact fun a => ⟨trivial, rfl⟩
  | @plain r rest hc ho _ ih =>
    intro a
    obtain ⟨hblocks, hfault⟩ := step_of_plain (a := a) (Run.role_eq_plain.2 ⟨hc, ho⟩)
    obtain ⟨hfit, hrest⟩ := ih (a.step r)
    exact ⟨⟨hfault, hfit⟩, hrest.trans hblocks⟩
  | @block form o c body rest ho _ hc _ ihbody ihrest =>
    intro a
    obtain ⟨hopened, hfault⟩ := step_of_opens (a := a) (Run.role_eq_opens.2 ho)
    obtain ⟨hbody, hinside⟩ := ihbody (a.step o)
    rw [hopened] at hinside
    have hcloses := step_of_closes (a := body.foldl step (a.step o)) (Run.role_eq_closes.2 hc)
    have hclosed : ((body.foldl step (a.step o)).step c).blocks = a.blocks := by
      rw [step, Run.role_eq_closes.2 hc, hinside]
      simp
    obtain ⟨hrest, hafter⟩ := ihrest ((body.foldl step (a.step o)).step c)
    refine ⟨⟨hfault, (fitting_append body (c :: rest) _).2 ⟨hbody, ?_, hrest⟩⟩, ?_⟩
    · exact hcloses.2 ⟨⟨form, o, a.current⟩, by rw [hinside, hclosed], rfl⟩
    · rw [List.foldl_cons, List.foldl_append, List.foldl_cons, hafter, hclosed]

theorem completes_of_fitting : ∀ (rs : List Run) (a : Assembly), Fitting a rs → (rs.foldl step a).blocks = [] →
    Completes (a.blocks.map OpenBlock.form) rs
  | [], a, _, hend => by
    rw [show a.blocks = [] from hend]
    exact .last .nil
  | r :: rs, a, hfit, hend => by
    have ih := completes_of_fitting rs (a.step r) hfit.2 hend
    cases hr : r.role with
    | plain =>
      obtain ⟨hc, ho⟩ := Run.role_eq_plain.1 hr
      rw [(step_of_plain hr).1] at ih
      exact ih.plain hc ho
    | opens form =>
      rw [(step_of_opens hr).1, List.map_cons] at ih
      exact ih.opens (Run.role_eq_opens.1 hr)
    | closes form =>
      obtain ⟨b, hblocks, hform⟩ := (step_of_closes hr).1 hfit.1
      rw [hblocks, List.map_cons, hform]
      exact .close .nil (Run.role_eq_closes.1 hr) ih

theorem wellNested_iff (rs : List Run) : WellNested rs ↔ Fitting {} rs ∧ (ofRuns rs).blocks = [] := by
  constructor
  · exact fun h => fitting_of_wellNested h {}
  · rintro ⟨hfit, hend⟩
    cases completes_of_fitting rs {} hfit hend with
    | last h => exact h

end Assembly

/-! ## Reports on blocks -/

def Code.ofBlocks : List Code := [.unclosedBlock, .mismatchedBlockEnd, .blockEndWithoutStart]

namespace Nest

mutual

theorem code_faults (limit : Limit) (depth : Nat) : ∀ (n : Nest), ∀ f ∈ faults limit depth n, f.2.code ∉ Code.ofBlocks
  | .leaf p => by
    intro f hf
    rw [faults] at hf
    unfold phraseFaults at hf
    split at hf
    · split at hf
      · rw [List.mem_singleton.1 hf]
        exact (by decide : Code.unbalancedDelimiter ∉ Code.ofBlocks)
      · rw [List.mem_singleton.1 hf]
        exact (by decide : Code.badFileNumber ∉ Code.ofBlocks)
      · cases hf
    · cases hf
  | .group b o body c => by
    have hclosing : ∀ f ∈ closingFaults b o c, f.2.code ∉ Code.ofBlocks := by
      intro f hf
      unfold closingFaults at hf
      split at hf
      · rw [List.mem_singleton.1 hf]
        exact (by decide : Code.unbalancedDelimiter ∉ Code.ofBlocks)
      · cases hf
    intro f hf
    rw [faults] at hf
    split at hf
    · rcases List.mem_cons.1 hf with rfl | hf
      · exact (by decide : Code.nestingTooDeep ∉ Code.ofBlocks)
      · exact hclosing f hf
    · rcases List.mem_append.1 hf with hf | hf
      · exact code_faultsOf limit (depth + 1) body f hf
      · exact hclosing f hf

theorem code_faultsOf (limit : Limit) (depth : Nat) : ∀ (ns : List Nest), ∀ f ∈ faultsOf limit depth ns,
    f.2.code ∉ Code.ofBlocks
  | [], _, hf => by cases hf
  | n :: ns, f, hf => by
    rw [faultsOf] at hf
    rcases List.mem_append.1 hf with hf | hf
    · exact code_faults limit depth n f hf
    · exact code_faultsOf limit depth ns f hf

end

end Nest

theorem Run.code_diagnostics (r : Run) : ∀ d ∈ r.diagnostics, d.code ∉ Code.ofBlocks := by
  intro d hd
  obtain ⟨f, hf, rfl⟩ := List.mem_map.1 hd
  exact Nest.code_faultsOf _ 0 _ f hf

theorem Assembly.code_terminatorDiagnostics (a : Assembly) (r : Run) :
    (∀ d ∈ a.terminatorDiagnostics r, d.code ∉ Code.ofBlocks) ↔ a.fault? r = none := by
  unfold terminatorDiagnostics fault?
  cases r.role with
  | plain | opens => simp
  | closes form =>
    cases a.blocks with
    | nil => simp [Fault.located, Fault.code, Code.ofBlocks]
    | cons b bs =>
      by_cases hf : b.form = form
      · simp [hf]
      · simp [hf, Fault.located, Fault.code, Code.ofBlocks]

/-- **Nothing is reported on blocks** exactly where every terminator fits and no block is left open. -/
theorem code_diagnosticsFrom : ∀ (rs : List Run) (a : Assembly),
    (∀ d ∈ Program.diagnosticsFrom a rs, d.code ∉ Code.ofBlocks) ↔
      a.Fitting rs ∧ (rs.foldl Assembly.step a).blocks = []
  | [], a => by
    rw [Program.diagnosticsFrom, Assembly.Fitting, true_and, List.foldl_nil]
    cases a.blocks with
    | nil => simp
    | cons b bs => simp [Assembly.unclosedDiagnostic, Fault.located, Fault.code, Code.ofBlocks]
  | r :: rs, a => by
    rw [Program.diagnosticsFrom, List.forall_mem_append, List.forall_mem_append, code_diagnosticsFrom rs,
      Assembly.code_terminatorDiagnostics, Assembly.Fitting, List.foldl_cons, and_assoc, and_assoc]
    exact and_iff_right r.code_diagnostics

/-! ## Closed blocks -/

def Node.Frame.Whole (b : Node.Frame Run) : Prop :=
  Run.opens? b.header.tokens = some b.form ∧ ∃ t, b.terminator = some t ∧ Run.closes? t.tokens = some b.form

namespace Assembly

open Node (blocksOf)

/-- What the pass has put away is whole, and what is open was opened by its header. -/
structure Settled (a : Assembly) : Prop where
  current : ∀ p ∈ blocksOf a.current, p.1.Whole
  headers : ∀ b ∈ a.blocks, Run.opens? b.header.tokens = some b.form
  before  : ∀ b ∈ a.blocks, ∀ p ∈ blocksOf b.before, p.1.Whole

theorem Settled.add {a : Assembly} (h : a.Settled) (r : Run) (stray : Bool) : (a.add (.leaf r stray)).Settled := by
  refine ⟨?_, h.headers, h.before⟩
  rw [Assembly.add, Node.blocksOf_append, Node.blocksOf_singleton, Node.blocks, List.append_nil]
  exact h.current

/-- **One run of the pass** leaves whole blocks behind. -/
theorem Settled.step {a : Assembly} (h : a.Settled) (r : Run) : (a.step r).Settled := by
  rcases step_cases a r with ⟨stray, -, hstep⟩ | ⟨form, hr, -, hstep⟩ | ⟨b, bs, hr, -, hb, hstep⟩
  · rw [hstep]
    exact h.add r stray
  · rw [hstep]
    refine ⟨fun p hp => absurd hp List.not_mem_nil, ?_, ?_⟩
    · intro b hb
      rcases List.mem_cons.1 hb with rfl | hb
      · exact Run.role_eq_opens.1 hr
      · exact h.headers b hb
    · intro b hb
      rcases List.mem_cons.1 hb with rfl | hb
      · exact h.current
      · exact h.before b hb
  · rw [hstep]
    have hmem : ∀ x ∈ b :: bs, x ∈ a.blocks := fun x hx => hb ▸ hx
    have hrest : ∀ x ∈ bs, x ∈ a.blocks := fun x hx => hmem x (List.mem_cons_of_mem b hx)
    refine ⟨?_, fun x hx => h.headers x (hrest x hx), fun x hx => h.before x (hrest x hx)⟩
    intro p hp
    rw [Node.blocksOf_append, Node.blocksOf_singleton, Node.blocks] at hp
    rcases List.mem_append.1 hp with hp | hp
    · exact h.before b (hmem b List.mem_cons_self) p hp
    rcases List.mem_cons.1 hp with rfl | hp
    · exact ⟨h.headers b (hmem b List.mem_cons_self), r, rfl, Run.role_eq_closes.1 hr⟩
    · obtain ⟨q, hq, rfl⟩ := List.mem_map.1 hp
      exact h.current q hq

theorem Settled.foldl : ∀ (rs : List Run) {a : Assembly}, a.Settled → (rs.foldl Assembly.step a).Settled
  | [], _, h => h
  | r :: rs, _, h => Settled.foldl rs (h.step r)

theorem settled_ofRuns (rs : List Run) : (ofRuns rs).Settled :=
  Settled.foldl rs ⟨fun _ hp => absurd hp List.not_mem_nil, fun _ hb => absurd hb List.not_mem_nil,
    fun _ hb => absurd hb List.not_mem_nil⟩

end Assembly

theorem WellNested.whole {rs : List Run} (h : WellNested rs) : ∀ p ∈ Node.blocksOf (blockTree rs), p.1.Whole := by
  have hend := ((Assembly.wellNested_iff rs).1 h).2
  rw [blockTree, Assembly.nodes, hend]
  exact (Assembly.settled_ofRuns rs).current

/-- **The programs without a report on blocks are the well nested ones.**  Nothing is reported unclosed, mismatched or
unopened if and only if the runs are a sentence of the grammar; and then each block of the tree, whatever the names refer
to, stands between the statement of a run that opens a block of its form and the statement of one that closes it. -/
theorem unreported_iff_wellNested (lines : List CodeLine) :
    ((∀ d ∈ Program.diagnostics (programRuns lines),
        d.code ≠ .unclosedBlock ∧ d.code ≠ .mismatchedBlockEnd ∧ d.code ≠ .blockEndWithoutStart) ↔
      WellNested (programRuns lines)) ∧
    (WellNested (programRuns lines) → ∀ (table : Table), ∀ p ∈ Node.blocksOf (Program.ofLines table lines),
      ∃ q ∈ Node.blocksOf (blockTree (programRuns lines)), p.1 = q.1.map (Run.statement table) ∧
        Run.opens? q.1.header.tokens = some q.1.form ∧
        ∃ t, q.1.terminator = some t ∧ Run.closes? t.tokens = some q.1.form) := by
  constructor
  · rw [Assembly.wellNested_iff, Assembly.ofRuns, ← code_diagnosticsFrom, Program.diagnostics]
    simp only [Code.ofBlocks, List.mem_cons, List.not_mem_nil, or_false, not_or, ne_eq]
  · intro h table p hp
    rw [Program.ofLines, Program.ofRuns, Node.blocksOf_mapList] at hp
    obtain ⟨q, hq, rfl⟩ := List.mem_map.1 hp
    exact ⟨q, hq, rfl, h.whole q hq⟩

/-- A loop and a conditional in a procedure, the conditional on the line of the loop's end. -/
theorem unreported_iff_wellNested_procedure :
    WellNested (programRuns [.ofSource 1 "PROCEDURE P(a)".toList, .ofSource 2 "FOR i = 1 TO a : IF b THEN PRINT i".toList,
      .ofSource 3 "NEXT : IF b THEN : END IF".toList, .ofSource 7 "END PROCEDURE".toList]) ∧
    ∀ p ∈ Node.blocksOf (Program.ofLines .empty [.ofSource 1 "PROCEDURE P(a)".toList,
        .ofSource 2 "FOR i = 1 TO a : IF b THEN PRINT i".toList, .ofSource 3 "NEXT : IF b THEN : END IF".toList,
        .ofSource 7 "END PROCEDURE".toList]), p.1.terminator.isSome = true := by
  have h := unreported_iff_wellNested [.ofSource 1 "PROCEDURE P(a)".toList,
    .ofSource 2 "FOR i = 1 TO a : IF b THEN PRINT i".toList, .ofSource 3 "NEXT : IF b THEN : END IF".toList,
    .ofSource 7 "END PROCEDURE".toList]
  have hnested := h.1.1 (by decide +kernel)
  refine ⟨hnested, fun p hp => ?_⟩
  obtain ⟨q, -, hq, -, t, ht, -⟩ := h.2 hnested .empty p hp
  rw [hq, Node.Frame.map, ht]
  rfl

end BlockBasic
