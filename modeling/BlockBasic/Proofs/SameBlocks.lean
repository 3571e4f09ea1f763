import BlockBasic.Proofs.SourceOrder
/-!
# SameBlocks — runs of the same roles are put into the same blocks

What a run holds has no part in how it nests.  Two sequences of runs with the same roles go through the pass in step, so
their trees are the same tree over different things (`mapList_blockTree`), and a terminator or a block is reported on in
both or in neither (`diagnosticsFrom_eq_nil`).
-/
namespace BlockBasic

namespace Node

variable {α β : Type}

theorem mapList_eq_map (f : α → β) (ns : List (Node α)) : mapList f ns = ns.map (map f) := by
  induction ns with
  | nil => rfl
  | cons n ns ih => rw [mapList, ih, List.map_cons]

@[simp] theorem mapList_append (f : α → β) (xs ys : List (Node α)) :
    mapList f (xs ++ ys) = mapList f xs ++ mapList f ys := by
  simp only [mapList_eq_map, List.map_append]

mutual

theorem map_map {γ : Type} (f : α → β) (g : β → γ) : ∀ (n : Node α), (n.map f).map g = n.map (g ∘ f)
  | .leaf a stray => rfl
  | .block form header body terminator => by
    rw [map, map, map, mapList_mapList f g body, Option.map_map]
    rfl

theorem mapList_mapList {γ : Type} (f : α → β) (g : β → γ) : ∀ (ns : List (Node α)),
    mapList g (mapList f ns) = mapList (g ∘ f) ns
  | [] => rfl
  | n :: ns => by rw [mapList, mapList, mapList, map_map f g n, mapList_mapList f g ns]

end

end Node

namespace Assembly

open Node (mapList)

variable {β : Type} {f g : Run → β}

/-- An open block, with what stands for its runs. -/
def OpenBlock.view (f : Run → β) (b : OpenBlock) : BlockForm × β × List (Node β) :=
  (b.form, f b.header, mapList f b.before)

/-- **Two states of the pass that nest the same things**, the runs of one seen through `f` and those of the other through
`g`. -/
structure Alike (f g : Run → β) (a b : Assembly) : Prop where
  blocks  : a.blocks.map (OpenBlock.view f) = b.blocks.map (OpenBlock.view g)
  current : mapList f a.current = mapList g b.current

theorem OpenBlock.of_view {x y : OpenBlock} (h : x.view f = y.view g) :
    x.form = y.form ∧ f x.header = g y.header ∧ mapList f x.before = mapList g y.before :=
  ⟨congrArg Prod.fst h, congrArg (fun v => v.2.1) h, congrArg (fun v => v.2.2) h⟩

/-- What is open in two such states: nothing, or an innermost block each, and these nest the same. -/
theorem Alike.innermost {a b : Assembly} (h : Alike f g a b) :
    (a.blocks = [] ∧ b.blocks = []) ∨ ∃ x xs y ys, a.blocks = x :: xs ∧ b.blocks = y :: ys ∧ x.view f = y.view g ∧
      xs.map (OpenBlock.view f) = ys.map (OpenBlock.view g) := by
  have hblocks := h.blocks
  cases ha : a.blocks with
  | nil =>
    rw [ha, List.map_nil] at hblocks
    exact .inl ⟨rfl, List.map_eq_nil_iff.1 hblocks.symm⟩
  | cons x xs =>
    cases hb : b.blocks with
    | nil =>
      rw [ha, hb] at hblocks
      cases hblocks
    | cons y ys =>
      rw [ha, hb] at hblocks
      obtain ⟨hxy, hrest⟩ := List.cons.inj hblocks
      exact .inr ⟨x, xs, y, ys, rfl, rfl, hxy, hrest⟩

theorem Alike.add {a b : Assembly} (h : Alike f g a b) {m n : Node Run} (hn : m.map f = n.map g) :
    Alike f g (a.add m) (b.add n) := by
  refine ⟨h.blocks, ?_⟩
  simp only [Assembly.add, Node.mapList_append, h.current, mapList, hn]

theorem Alike.step {a b : Assembly} (h : Alike f g a b) {r s : Run} (hrole : r.role = s.role) (hf : f r = g s) :
    Alike f g (a.step r) (b.step s) := by
  have hleaf : ∀ stray, (Node.leaf r stray).map f = (Node.leaf s stray).map g := fun stray => by
    rw [Node.map, Node.map, hf]
  unfold Assembly.step
  rw [hrole]
  cases s.role with
  | plain => exact h.add (hleaf false)
  | opens form =>
    refine ⟨?_, rfl⟩
    rw [List.map_cons, List.map_cons, h.blocks, OpenBlock.view, OpenBlock.view, hf, h.current]
  | closes form =>
    rcases h.innermost with ⟨ha, hb⟩ | ⟨x, xs, y, ys, ha, hb, hxy, hrest⟩
    · rw [ha, hb]
      exact h.add (hleaf true)
    · obtain ⟨hform, hheader, hbefore⟩ := OpenBlock.of_view hxy
      simp only [ha, hb, hform]
      split
      · refine ⟨hrest, ?_⟩
        simp only [Node.mapList_append, mapList, Node.map, hbefore, hheader, h.current, Option.map_some, hf]
      · exact h.add (hleaf true)

theorem Alike.foldl : ∀ {rs ss : List Run}, rs.map (fun r => (r.role, f r)) = ss.map (fun s => (s.role, g s)) →
    ∀ {a b : Assembly}, Alike f g a b → Alike f g (rs.foldl Assembly.step a) (ss.foldl Assembly.step b)
  | [], [], _, _, _, h => h
  | r :: rs, s :: ss, hrs, a, b, h => by
    obtain ⟨hr, hrs⟩ := List.cons.inj hrs
    rw [List.foldl_cons, List.foldl_cons]
    exact Alike.foldl hrs (h.step (congrArg Prod.fst hr) (congrArg Prod.snd hr))

theorem mapList_wrap : ∀ {xs ys : List OpenBlock}, xs.map (OpenBlock.view f) = ys.map (OpenBlock.view g) →
    ∀ {m n : List (Node Run)}, mapList f m = mapList g n → mapList f (wrap xs m) = mapList g (wrap ys n)
  | [], [], _, _, _, h => h
  | x :: xs, y :: ys, hxs, m, n, h => by
    obtain ⟨hxy, hrest⟩ := List.cons.inj hxs
    obtain ⟨hform, hheader, hbefore⟩ := OpenBlock.of_view hxy
    rw [wrap_cons, wrap_cons]
    refine mapList_wrap hrest ?_
    simp only [Node.mapList_append, mapList, Node.map, hbefore, hheader, h, hform, Option.map_none]

/-! ## Reports -/

theorem Alike.terminatorDiagnostics {a b : Assembly} (h : Alike f g a b) {r s : Run} (hrole : r.role = s.role)
    (hr : a.terminatorDiagnostics r = []) : b.terminatorDiagnostics s = [] := by
  have hfault : a.fault? r = none := by
    cases hf : a.fault? r with
    | none => rfl
    | some x => simp [Assembly.terminatorDiagnostics, hf] at hr
  have hnone : b.fault? s = none := by
    unfold fault? at hfault ⊢
    rw [hrole] at hfault
    cases hs : s.role with
    | plain | opens => rfl
    | closes form =>
      rw [hs] at hfault
      rcases h.innermost with ⟨ha, -⟩ | ⟨x, xs, y, ys, ha, hb, hxy, -⟩
      · simp [ha] at hfault
      · simp only [ha, hb, (OpenBlock.of_view hxy).1] at hfault ⊢
        split
        · rfl
        · rename_i hne
          rw [if_neg hne] at hfault
          cases hfault
  rw [Assembly.terminatorDiagnostics, hnone]
  rfl

end Assembly

/-- **The trees of runs with the same roles are the same**, if what is put for the runs is. -/
theorem mapList_blockTree {β : Type} {f g : Run → β} {rs ss : List Run}
    (h : rs.map (fun r => (r.role, f r)) = ss.map (fun s => (s.role, g s))) :
    Node.mapList f (blockTree rs) = Node.mapList g (blockTree ss) := by
  have ha : Assembly.Alike f g (Assembly.ofRuns rs) (Assembly.ofRuns ss) := Assembly.Alike.foldl h ⟨rfl, rfl⟩
  exact Assembly.mapList_wrap ha.blocks ha.current

theorem diagnosticsFrom_eq_nil {β : Type} {f g : Run → β} : ∀ {rs ss : List Run} {a b : Assembly},
    rs.map (fun r => (r.role, f r)) = ss.map (fun s => (s.role, g s)) → Assembly.Alike f g a b →
      Program.diagnosticsFrom a rs = [] → (∀ s ∈ ss, s.diagnostics = []) → Program.diagnosticsFrom b ss = []
  | [], [], a, b, _, h, hd, _ => by
    rw [Program.diagnosticsFrom, List.map_eq_nil_iff] at hd ⊢
    have hblocks := h.blocks
    rw [hd] at hblocks
    exact List.map_eq_nil_iff.1 hblocks.symm
  | r :: rs, s :: ss, a, b, hrs, h, hd, hss => by
    obtain ⟨hr, hrs⟩ := List.cons.inj hrs
    have hrole : r.role = s.role := congrArg Prod.fst hr
    rw [Program.diagnosticsFrom, List.append_eq_nil_iff, List.append_eq_nil_iff] at hd ⊢
    exact ⟨⟨hss s List.mem_cons_self, h.terminatorDiagnostics hrole hd.1.2⟩,
      diagnosticsFrom_eq_nil hrs (h.step hrole (congrArg Prod.snd hr)) hd.2
        (fun x hx => hss x (List.mem_cons_of_mem s hx))⟩

theorem diagnostics_of_mem : ∀ {rs : List Run} {a : Assembly}, Program.diagnosticsFrom a rs = [] →
    ∀ r ∈ rs, r.diagnostics = []
  | [], _, _, r, hr => absurd hr List.not_mem_nil
  | x :: xs, a, h, r, hr => by
    rw [Program.diagnosticsFrom, List.append_eq_nil_iff, List.append_eq_nil_iff] at h
    rcases List.mem_cons.1 hr with rfl | hr
    · exact h.1.1
    · exact diagnostics_of_mem h.2 r hr

end BlockBasic
