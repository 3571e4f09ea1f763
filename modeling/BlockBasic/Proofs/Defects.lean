import BlockBasic.Proofs.BlockGrammar
/-!
# Defects — the reports on blocks are the defects of the tree

What is wrong with the blocks of a program shows twice: in the tree, as blocks that nothing closes and terminators that
close nothing, and among the reports.  Both say the same.  The blocks left open at the end of the pass are the unclosed
ones of the tree (`unclosedOf_nodes`), and each terminator is reported on where it is put away as stray
(`withCodes_terminators`).  The unclosed blocks stand one in the other along the last nodes of the tree: that is
its `Spine`.
-/
namespace BlockBasic

def Code.ofTerminators : List Code := [.mismatchedBlockEnd, .blockEndWithoutStart]

namespace Diagnostic

def withCodes (codes : List Code) (ds : List Diagnostic) : List Diagnostic := ds.filter (fun d => codes.contains d.code)

variable {codes : List Code} {ds : List Diagnostic}

theorem withCodes_append (codes : List Code) (ds es : List Diagnostic) :
    withCodes codes (ds ++ es) = withCodes codes ds ++ withCodes codes es := List.filter_append ..

theorem withCodes_eq_nil (h : ∀ d ∈ ds, d.code ∉ codes) : withCodes codes ds = [] :=
  List.filter_eq_nil_iff.2 (fun d hd hc => h d hd (List.contains_iff_mem.1 hc))

theorem withCodes_eq_self (h : ∀ d ∈ ds, d.code ∈ codes) : withCodes codes ds = ds :=
  List.filter_eq_self.2 (fun d hd => List.contains_iff_mem.2 (h d hd))

end Diagnostic

namespace Node

variable {α β : Type}

/-! ## Defects in a tree -/

def unclosedOf (ns : List (Node α)) : List (Frame α) :=
  ((blocksOf ns).map Prod.fst).filter (fun b => b.terminator.isNone)

def straysOf (ns : List (Node α)) : List α := ((partsOf ns).filter (fun x => x.1 == .stray)).map Prod.snd

theorem unclosedOf_mapList (f : α → β) (ns : List (Node α)) :
    unclosedOf (mapList f ns) = (unclosedOf ns).map (Frame.map f) := by
  rw [unclosedOf, unclosedOf, blocksOf_mapList, List.map_map,
    show Prod.fst ∘ Prod.map (Frame.map f) (List.map (Frame.map f)) = Frame.map f ∘ Prod.fst from rfl, ← List.map_map,
    List.filter_map]
  congr 2
  funext b
  exact Option.isNone_map

theorem straysOf_mapList (f : α → β) (ns : List (Node α)) : straysOf (mapList f ns) = (straysOf ns).map f := by
  rw [straysOf, straysOf, partsOf_mapList, List.filter_map, List.map_map, List.map_map]
  rfl

/-! ## Where unclosed blocks stand -/

/-- **Nodes that stand together in a tree**, with the blocks around them, the innermost first: those at the top, and those
in a block. -/
inductive Siblings (roots : List (Node α)) : List (Node α) → List (Node α) → Prop
  | top : Siblings roots [] roots
  | inside {around siblings : List (Node α)} {form : BlockForm} {header : α} {body : List (Node α)}
      {terminator : Option α} : Siblings roots around siblings → .block form header body terminator ∈ siblings →
      Siblings roots (.block form header body terminator :: around) body

def AllClosed (ns : List (Node α)) : Prop := ∀ p ∈ blocksOf ns, p.1.terminator ≠ none

/-- **Nodes that are closed but for the last**, which may be a block that nothing closes, with such nodes in it. -/
inductive Spine : List (Node α) → Prop
  | closed {ns : List (Node α)} : AllClosed ns → Spine ns
  | snoc {ns : List (Node α)} {form : BlockForm} {header : α} {body : List (Node α)} : AllClosed ns → Spine body →
      Spine (ns ++ [.block form header body none])

theorem AllClosed.mapList {ns : List (Node α)} (h : AllClosed ns) (f : α → β) : AllClosed (mapList f ns) := by
  intro p hp
  rw [blocksOf_mapList] at hp
  obtain ⟨q, hq, rfl⟩ := List.mem_map.1 hp
  exact fun hnone => h q hq (Option.map_eq_none_iff.1 hnone)

theorem Spine.mapList {ns : List (Node α)} (h : Spine ns) (f : α → β) : Spine (Node.mapList f ns) := by
  induction h with
  | closed h => exact .closed (h.mapList f)
  | @snoc ns form header body hns _ ih =>
    rw [mapList_append]
    exact .snoc (hns.mapList f) ih

theorem blocksOf_eq_flatMap (ns : List (Node α)) : blocksOf ns = ns.flatMap blocks := by
  induction ns with
  | nil => rfl
  | cons n ns ih => rw [blocksOf, ih, List.flatMap_cons]

theorem AllClosed.of_mem {ns : List (Node α)} (h : AllClosed ns) {n : Node α} (hn : n ∈ ns) : AllClosed [n] := by
  intro p hp
  rw [blocksOf_singleton] at hp
  refine h p ?_
  rw [blocksOf_eq_flatMap]
  exact List.mem_flatMap.2 ⟨n, hn, hp⟩

theorem AllClosed.isUnclosed {n : Node α} (h : AllClosed [n]) : n.isUnclosed = false := by
  cases n with
  | leaf => rfl
  | block form header body terminator =>
    have hclosed := h (⟨form, header, terminator⟩, []) List.mem_cons_self
    exact Option.isNone_eq_false_iff.2 (Option.isSome_iff_ne_none.2 hclosed)

theorem AllClosed.body {form : BlockForm} {header : α} {body : List (Node α)} {terminator : Option α}
    (h : AllClosed [.block form header body terminator]) : AllClosed body := by
  intro p hp
  rw [AllClosed, blocksOf_singleton, blocks] at h
  exact h (within [⟨form, header, terminator⟩] p) (List.mem_cons_of_mem _ (List.mem_map_of_mem hp))

theorem Spine.open_around {ns : List (Node α)} (h : Spine ns) : ∀ p ∈ blocksOf ns, p.1.terminator = none →
    ∀ b ∈ p.2, b.terminator = none := by
  induction h with
  | closed hclosed => exact fun p hp hopen => absurd hopen (hclosed p hp)
  | snoc hns _ ih =>
    intro p hp hopen
    rw [blocksOf_append, blocksOf_singleton, blocks] at hp
    rcases List.mem_append.1 hp with hp | hp
    · exact absurd hopen (hns p hp)
    rcases List.mem_cons.1 hp with rfl | hp
    · exact fun b hb => absurd hb List.not_mem_nil
    · obtain ⟨q, hq, rfl⟩ := List.mem_map.1 hp
      intro b hb
      rcases List.mem_append.1 hb with hb | hb
      · exact ih q hq hopen b hb
      · rw [List.mem_singleton.1 hb]

/-- **Down a spine** nodes either have all their blocks closed, or are a spine themselves and stand in unclosed blocks
only. -/
theorem Siblings.closed_or_spine {roots around siblings : List (Node α)} (h : Siblings roots around siblings)
    (hroots : Spine roots) : AllClosed siblings ∨ Spine siblings ∧ ∀ b ∈ around, b.isUnclosed = true := by
  induction h with
  | top => exact .inr ⟨hroots, fun _ hb => absurd hb List.not_mem_nil⟩
  | @inside around siblings form header body terminator _ hmem ih =>
    rcases ih with hclosed | ⟨hspine, haround⟩
    · exact .inl (hclosed.of_mem hmem).body
    · cases hspine with
      | closed hclosed => exact .inl (hclosed.of_mem hmem).body
      | snoc hns hbody =>
        -- below any node but the last everything is closed; the last is unclosed and a spine inside
        rcases List.mem_append.1 hmem with hmem | hmem
        · exact .inl (hns.of_mem hmem).body
        · cases List.mem_singleton.1 hmem
          exact .inr ⟨hbody, List.forall_mem_cons.2 ⟨rfl, haround⟩⟩

/-- **An unclosed block in a spine is the last among its siblings**, and the blocks around it are unclosed. -/
theorem Siblings.unclosed_last {roots around siblings : List (Node α)} (h : Siblings roots around siblings)
    (hroots : Spine roots) {pre post : List (Node α)} {n : Node α} (hn : siblings = pre ++ n :: post)
    (hopen : n.isUnclosed = true) : post = [] ∧ ∀ b ∈ around, b.isUnclosed = true := by
  have hnot : ∀ {ns : List (Node α)}, AllClosed ns → n ∉ ns := fun hns hmem =>
    Bool.false_ne_true ((hns.of_mem hmem).isUnclosed.symm.trans hopen)
  have hmem : n ∈ siblings := hn ▸ List.mem_append_right pre List.mem_cons_self
  rcases h.closed_or_spine hroots with hclosed | ⟨hspine, haround⟩
  · exact absurd hmem (hnot hclosed)
  · refine ⟨?_, haround⟩
    cases hspine with
    | closed hclosed => exact absurd hmem (hnot hclosed)
    | @snoc ns _ _ _ hns _ =>
      -- were there a node after it, it would be one of those before the last
      refine Classical.byContradiction (fun hpost => hnot hns ?_)
      obtain ⟨rest, last, rfl⟩ := (List.eq_nil_or_concat post).resolve_left hpost
      rw [List.concat_eq_append, ← List.cons_append, ← List.append_assoc] at hn
      rw [(List.append_inj' hn rfl).1]
      exact List.mem_append_right pre List.mem_cons_self

/-! ## Terminators of blocks -/

mutual

theorem mem_itemsOf_terminator_node {p : Frame α × List (Frame α)} {t : α} (ht : p.1.terminator = some t) :
    ∀ {n : Node α}, p ∈ blocks n → t ∈ itemsOf [n]
  | .leaf _ _, hp => absurd hp List.not_mem_nil
  | .block form header body terminator, hp => by
    rw [itemsOf_block]
    refine List.mem_cons_of_mem header (List.mem_append.2 ?_)
    rcases List.mem_cons.1 hp with rfl | hp
    · exact .inr (Option.mem_toList.2 ht)
    · obtain ⟨q, hq, rfl⟩ := List.mem_map.1 hp
      exact .inl (mem_itemsOf_terminator (p := q) ht hq)

theorem mem_itemsOf_terminator {p : Frame α × List (Frame α)} {t : α} (ht : p.1.terminator = some t) :
    ∀ {ns : List (Node α)}, p ∈ blocksOf ns → t ∈ itemsOf ns
  | [], hp => absurd hp List.not_mem_nil
  | n :: ns, hp => by
    rw [← List.singleton_append, itemsOf_append]
    rcases List.mem_append.1 hp with hp | hp
    · exact List.mem_append_left _ (mem_itemsOf_terminator_node ht hp)
    · exact List.mem_append_right _ (mem_itemsOf_terminator ht hp)

end

end Node

/-- A block whose terminator, if it has one, closes blocks of its form. -/
def Node.Frame.Ended (b : Node.Frame Run) : Prop := ∀ t, b.terminator = some t → Run.closes? t.tokens = some b.form

theorem Node.Frame.Whole.ended {b : Node.Frame Run} (h : b.Whole) : b.Ended := by
  obtain ⟨-, t, ht, hcloses⟩ := h
  intro u hu
  cases ht.symm.trans hu
  exact hcloses

/-! ## The pass -/

namespace Assembly

open Node (blocksOf AllClosed Spine unclosedOf)

theorem Settled.allClosed {a : Assembly} (h : a.Settled) :
    AllClosed a.current ∧ ∀ b ∈ a.blocks, AllClosed b.before := by
  have hwhole : ∀ {ns : List (Node Run)}, (∀ p ∈ blocksOf ns, p.1.Whole) → AllClosed ns := by
    intro ns hns p hp
    obtain ⟨-, t, ht, -⟩ := hns p hp
    rw [ht]
    exact Option.some_ne_none t
  exact ⟨hwhole h.current, fun b hb => hwhole (h.before b hb)⟩

theorem spine_wrap : ∀ (bs : List OpenBlock) {current : List (Node Run)}, Spine current →
    (∀ b ∈ bs, AllClosed b.before) → Spine (wrap bs current)
  | [], _, h, _ => h
  | b :: bs, _, h, hbs =>
    spine_wrap bs (.snoc (hbs b List.mem_cons_self) h) (fun x hx => hbs x (List.mem_cons_of_mem b hx))

theorem filter_map_within (outer : List (Node.Frame Run)) {ns : List (Node Run)} (h : AllClosed ns) :
    (((blocksOf ns).map (Node.within outer)).map Prod.fst).filter (fun b => b.terminator.isNone) = [] := by
  refine List.filter_eq_nil_iff.2 (fun b hb => ?_)
  rw [List.map_map] at hb
  obtain ⟨p, hp, rfl⟩ := List.mem_map.1 hb
  exact fun hnone => h p hp (Option.isNone_iff_eq_none.1 hnone)

theorem unclosedOf_wrap {bs : List OpenBlock} {current : List (Node Run)} (hc : AllClosed current)
    (hbs : ∀ b ∈ bs, AllClosed b.before) : unclosedOf (wrap bs current) = (bs.map OpenBlock.frame).reverse := by
  have hpending : ∀ bs : List OpenBlock, (∀ b ∈ bs, AllClosed b.before) →
      ((pendingBlocks bs).map Prod.fst).filter (fun b => b.terminator.isNone) = (bs.map OpenBlock.frame).reverse := by
    intro bs
    induction bs with
    | nil => exact fun _ => rfl
    | cons b bs ih =>
      intro h
      rw [pendingBlocks, List.map_append, List.map_append, List.filter_append, List.filter_append,
        ih (fun x hx => h x (List.mem_cons_of_mem b hx)), filter_map_within _ (h b List.mem_cons_self), List.append_nil,
        List.map_cons, List.map_cons, List.reverse_cons]
      rfl
  rw [unclosedOf, blocksOf_wrap, List.map_append, List.filter_append, hpending bs hbs, filter_map_within _ hc,
    List.append_nil]

theorem unclosedOf_nodes (rs : List Run) :
    unclosedOf (blockTree rs) = ((ofRuns rs).blocks.map OpenBlock.frame).reverse :=
  unclosedOf_wrap (settled_ofRuns rs).allClosed.1 (settled_ofRuns rs).allClosed.2

theorem spine_blockTree (rs : List Run) : Spine (blockTree rs) :=
  spine_wrap _ (.closed (settled_ofRuns rs).allClosed.1) (settled_ofRuns rs).allClosed.2

theorem closes_wrap : ∀ (bs : List OpenBlock) {current : List (Node Run)}, (∀ p ∈ blocksOf current, p.1.Ended) →
    (∀ b ∈ bs, ∀ p ∈ blocksOf b.before, p.1.Ended) → ∀ p ∈ blocksOf (wrap bs current), p.1.Ended
  | [], _, hc, _ => hc
  | b :: bs, current, hc, hbs => by
    refine closes_wrap bs (fun p hp => ?_) (fun x hx => hbs x (List.mem_cons_of_mem b hx))
    rw [Node.blocksOf_append, Node.blocksOf_singleton, Node.blocks] at hp
    rcases List.mem_append.1 hp with hp | hp
    · exact hbs b List.mem_cons_self p hp
    rcases List.mem_cons.1 hp with rfl | hp
    · exact fun t ht => absurd ht (Option.some_ne_none t).symm
    · obtain ⟨q, hq, rfl⟩ := List.mem_map.1 hp
      exact hc q hq

theorem closes_blockTree (rs : List Run) : ∀ p ∈ blocksOf (blockTree rs), p.1.Ended :=
  closes_wrap _ (fun p hp => ((settled_ofRuns rs).current p hp).ended)
    (fun b hb p hp => ((settled_ofRuns rs).before b hb p hp).ended)

/-! ### Reports -/

/-- **A terminator is reported on where it is put away as stray**, in its line and at its column. -/
theorem terminatorDiagnostics_cases (a : Assembly) (r : Run) :
    (a.part r ≠ .stray ∧ a.terminatorDiagnostics r = []) ∨
    (a.part r = .stray ∧ ∃ d, a.terminatorDiagnostics r = [d] ∧ d.code ∈ Code.ofTerminators ∧ d.line? = some r.number ∧
      d.column = r.column) := by
  unfold part terminatorDiagnostics fault?
  cases r.role with
  | plain => exact .inl ⟨nofun, rfl⟩
  | opens form => exact .inl ⟨nofun, rfl⟩
  | closes form =>
    cases a.blocks with
    | nil => exact .inr (by simp [Fault.located, Fault.code, Code.ofTerminators])
    | cons b bs =>
      by_cases hf : b.form = form
      · exact .inl (by simp [hf])
      · exact .inr (by simp [hf, Fault.located, Fault.code, Code.ofTerminators])

end Assembly

namespace Program

open Diagnostic (withCodes withCodes_append withCodes_eq_nil withCodes_eq_self)

/-- **The reports on unclosed blocks** are those on the blocks that are open at the end, the innermost first. -/
theorem withCodes_unclosed : ∀ (rs : List Run) (a : Assembly), withCodes [.unclosedBlock] (diagnosticsFrom a rs) =
    (rs.foldl Assembly.step a).blocks.map Assembly.unclosedDiagnostic
  | [], a => withCodes_eq_self (fun d hd => by
      obtain ⟨b, -, rfl⟩ := List.mem_map.1 hd
      exact List.mem_singleton.2 rfl)
  | r :: rs, a => by
    have hrun : ∀ d ∈ r.diagnostics, d.code ∉ [Code.unclosedBlock] := fun d hd hc =>
      r.code_diagnostics d hd (List.mem_singleton.1 hc ▸ (by decide : Code.unclosedBlock ∈ Code.ofBlocks))
    have hend : ∀ d ∈ a.terminatorDiagnostics r, d.code ∉ [Code.unclosedBlock] := by
      intro d hd hc
      rcases a.terminatorDiagnostics_cases r with ⟨-, hnil⟩ | ⟨-, e, he, hcode, -⟩
      · rw [hnil] at hd
        cases hd
      · rw [he, List.mem_singleton] at hd
        rw [← hd, List.mem_singleton.1 hc] at hcode
        exact absurd hcode (by decide)
    rw [diagnosticsFrom, withCodes_append, withCodes_append, withCodes_eq_nil hrun, withCodes_eq_nil hend,
      withCodes_unclosed rs, List.foldl_cons]
    rfl

/-- **The reports on terminators** are those on the stray ones, in order. -/
theorem withCodes_terminators : ∀ (rs : List Run) (a : Assembly),
    (withCodes Code.ofTerminators (diagnosticsFrom a rs)).map (fun d => (d.line?, d.column)) =
      (((Assembly.partsFrom a rs).filter (fun x => x.1 == .stray)).map Prod.snd).map
        (fun r => (some r.number, r.column))
  | [], a => by
    rw [diagnosticsFrom, withCodes_eq_nil]
    · rfl
    · intro d hd
      obtain ⟨b, -, rfl⟩ := List.mem_map.1 hd
      exact (by decide : Code.unclosedBlock ∉ Code.ofTerminators)
  | r :: rs, a => by
    have hrun : ∀ d ∈ r.diagnostics, d.code ∉ Code.ofTerminators := fun d hd hc =>
      r.code_diagnostics d hd ((by decide : Code.ofTerminators ⊆ Code.ofBlocks) hc)
    have ih := withCodes_terminators rs (a.step r)
    rw [diagnosticsFrom, withCodes_append, withCodes_append, withCodes_eq_nil hrun, List.nil_append, List.map_append, ih,
      Assembly.partsFrom]
    rcases a.terminatorDiagnostics_cases r with ⟨hpart, hnil⟩ | ⟨hpart, d, hd, hcode, hline, hcolumn⟩
    · rw [hnil, List.filter_cons_of_neg (by simpa using hpart)]
      rfl
    · rw [hd, withCodes_eq_self (by simpa using hcode), List.filter_cons_of_pos (by simpa using hpart)]
      simp only [List.map_cons, List.map_nil, hline, hcolumn, List.singleton_append]

end Program

/-- **The reports on blocks account for the defects of the tree**, neither more nor less.

- The reports of unclosed blocks are one for each block that nothing closes, the innermost first, in the line and at the
  column of the statement that opens it.
- The reports of terminators, mismatched or without a block, are one for each statement that is marked as stray, in source
  order, in its line and at its column.
- The terminator of a block is the statement of a run that closes a block of that form and opens none.
- A block that nothing closes is the last node where it stands, and the blocks around it are unclosed as well. -/
theorem block_reports_match_tree (table : Table) (lines : List CodeLine) :
    let p := Program.ofLines table lines
    let ds := Program.diagnostics (programRuns lines)
    Diagnostic.withCodes [.unclosedBlock] ds =
      (Node.unclosedOf p).reverse.map (fun b => (Fault.unclosed b.form).located b.header.line b.header.column) ∧
    (Diagnostic.withCodes [.mismatchedBlockEnd, .blockEndWithoutStart] ds).map (fun d => (d.line?, d.column)) =
      (Node.straysOf p).map (fun s => (some s.line, s.column)) ∧
    (∀ b ∈ Node.blocksOf p, ∀ t, b.1.terminator = some t → ∃ r ∈ programRuns lines, t = r.statement table ∧
      Run.closes? r.tokens = some b.1.form ∧ Run.opens? r.tokens = none) ∧
    ∀ around siblings, Node.Siblings p around siblings → ∀ pre n post, siblings = pre ++ n :: post →
      n.isUnclosed = true → post = [] ∧ ∀ b ∈ around, b.isUnclosed = true := by
  refine ⟨?_, ?_, ?_, ?_⟩
  · rw [Program.diagnostics, Program.withCodes_unclosed, Program.ofLines, Program.ofRuns,
      Node.unclosedOf_mapList, Assembly.unclosedOf_nodes, ← List.map_reverse, List.reverse_reverse, List.map_map,
      List.map_map]
    rfl
  · rw [Program.ofLines, Program.ofRuns, Node.straysOf_mapList, Node.straysOf, partsOf_blockTree, List.map_map]
    exact Program.withCodes_terminators (programRuns lines) {}
  · intro b hb t ht
    rw [Program.ofLines, Program.ofRuns, Node.blocksOf_mapList] at hb
    obtain ⟨q, hq, rfl⟩ := List.mem_map.1 hb
    obtain ⟨r, hr, rfl⟩ := Option.map_eq_some_iff.1 ht
    have hmem := Node.mem_itemsOf_terminator hr hq
    rw [itemsOf_blockTree] at hmem
    have hcloses := Assembly.closes_blockTree (programRuns lines) q hq r hr
    exact ⟨r, hmem, rfl, hcloses, Run.opens?_eq_none_of_closes? hcloses⟩
  · intro around siblings h pre n post hn hopen
    exact h.unclosed_last ((Assembly.spine_blockTree _).mapList _) hn hopen

/-- The blocks that stay open when a `NEXT` comes too early, and the `NEXT`. -/
example : Program.diagnostics (programRuns [CodeLine.ofSource 1 "FOR i = 1 TO 3 : WHILE i : NEXT".toList]) =
    [(Fault.mismatched .whileWend 1).located 1 ⟨27, 31⟩, (Fault.unclosed .whileWend).located 1 ⟨17, 24⟩,
      (Fault.unclosed .forNext).located 1 ⟨0, 14⟩] := by
  decide +kernel

end BlockBasic
