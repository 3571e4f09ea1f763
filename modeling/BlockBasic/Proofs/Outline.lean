import BlockBasic.Proofs.SameBlocks
/-!
# Outline — the parts that things take in a tree, and its blocks

Two readings of a tree of blocks, both in the order of the source: each thing with its part in the tree (`partsOf`), and
each block with the blocks around it (`blocksOf`).  For a tree that the pass assembles both can be read off the states of
the pass: the part of a run is decided by the blocks that are open before it (`partsOf_blockTree`), and at any moment the
blocks are those that are closed and the open ones around them (`blocksOf_wrap`).
-/
namespace BlockBasic

namespace Node

variable {α β : Type}

/-! ## Parts -/

inductive Part where
  | plain | stray | header | terminator
deriving DecidableEq

mutual

def parts : Node α → List (Part × α)
  | .leaf a stray                   => [(if stray then .stray else .plain, a)]
  | .block _ header body terminator =>
    (.header, header) :: (partsOf body ++ terminator.toList.map (fun t => (.terminator, t)))

def partsOf : List (Node α) → List (Part × α)
  | []      => []
  | n :: ns => parts n ++ partsOf ns

end

@[simp] theorem partsOf_nil : partsOf ([] : List (Node α)) = [] := rfl

@[simp] theorem partsOf_append (xs ys : List (Node α)) : partsOf (xs ++ ys) = partsOf xs ++ partsOf ys := by
  induction xs with
  | nil => rfl
  | cons x xs ih => rw [List.cons_append, partsOf, partsOf, ih, List.append_assoc]

@[simp] theorem partsOf_singleton (n : Node α) : partsOf [n] = parts n := by rw [partsOf, partsOf, List.append_nil]

mutual

theorem parts_map (f : α → β) : ∀ (n : Node α), parts (map f n) = (parts n).map (Prod.map id f)
  | .leaf a stray => rfl
  | .block _ header body terminator => by
    rw [map, parts, parts, partsOf_mapList f body, List.map_cons, List.map_append]
    cases terminator <;> rfl

theorem partsOf_mapList (f : α → β) : ∀ (ns : List (Node α)), partsOf (mapList f ns) = (partsOf ns).map (Prod.map id f)
  | [] => rfl
  | n :: ns => by rw [mapList, partsOf, partsOf, List.map_append, parts_map f n, partsOf_mapList f ns]

end

/-! ## Blocks -/

/-- A block without what is in it. -/
structure Frame (α : Type) where
  form       : BlockForm
  header     : α
  terminator : Option α
deriving DecidableEq

def Frame.map (f : α → β) (b : Frame α) : Frame β := ⟨b.form, f b.header, b.terminator.map f⟩

/-- A block, and the blocks around it from the inside outwards, put into the blocks `outer`. -/
def within (outer : List (Frame α)) (p : Frame α × List (Frame α)) : Frame α × List (Frame α) := (p.1, p.2 ++ outer)

mutual

/-- **The blocks of a node** in the order of their headers, each with the blocks around it, the innermost first. -/
def blocks : Node α → List (Frame α × List (Frame α))
  | .leaf _ _                          => []
  | .block form header body terminator =>
    (⟨form, header, terminator⟩, []) :: (blocksOf body).map (within [⟨form, header, terminator⟩])

def blocksOf : List (Node α) → List (Frame α × List (Frame α))
  | []      => []
  | n :: ns => blocks n ++ blocksOf ns

end

@[simp] theorem blocksOf_nil : blocksOf ([] : List (Node α)) = [] := rfl

@[simp] theorem blocksOf_append (xs ys : List (Node α)) : blocksOf (xs ++ ys) = blocksOf xs ++ blocksOf ys := by
  induction xs with
  | nil => rfl
  | cons x xs ih => rw [List.cons_append, blocksOf, blocksOf, ih, List.append_assoc]

@[simp] theorem blocksOf_singleton (n : Node α) : blocksOf [n] = blocks n := by
  rw [blocksOf, blocksOf, List.append_nil]

theorem map_within_nil (ps : List (Frame α × List (Frame α))) : ps.map (within []) = ps :=
  (List.map_congr_left (fun p _ => by rw [within, List.append_nil]; rfl)).trans (List.map_id ps)

theorem map_within_within (inner outer : List (Frame α)) (ps : List (Frame α × List (Frame α))) :
    (ps.map (within inner)).map (within outer) = ps.map (within (inner ++ outer)) := by
  rw [List.map_map]
  exact List.map_congr_left (fun p _ => by
    rw [Function.comp_apply, within, within, within, List.append_assoc])

mutual

theorem blocks_map (f : α → β) : ∀ (n : Node α),
    blocks (map f n) = (blocks n).map (Prod.map (Frame.map f) (List.map (Frame.map f)))
  | .leaf a stray => rfl
  | .block form header body terminator => by
    rw [map, blocks, blocks, blocksOf_mapList f body, List.map_cons, List.map_map, List.map_map]
    congr 1
    refine List.map_congr_left (fun p _ => ?_)
    simp [within, Frame.map]

theorem blocksOf_mapList (f : α → β) : ∀ (ns : List (Node α)),
    blocksOf (mapList f ns) = (blocksOf ns).map (Prod.map (Frame.map f) (List.map (Frame.map f)))
  | [] => rfl
  | n :: ns => by rw [mapList, blocksOf, blocksOf, List.map_append, blocks_map f n, blocksOf_mapList f ns]

end

end Node

namespace Assembly

open Node (Part Frame partsOf blocksOf within)

/-! ## Parts in the pass -/

def part (a : Assembly) (r : Run) : Part :=
  match r.role with
  | .plain       => .plain
  | .opens _     => .header
  | .closes form =>
    match a.blocks with
    | b :: _ => if b.form = form then .terminator else .stray
    | []     => .stray

/-- **What one run does**: it is put away as a leaf, opens a block, or closes the innermost one. -/
theorem step_cases (a : Assembly) (r : Run) :
    (∃ stray, a.part r = (if stray then .stray else .plain) ∧ a.step r = a.add (.leaf r stray)) ∨
    (∃ form, r.role = .opens form ∧ a.part r = .header ∧ a.step r = ⟨⟨form, r, a.current⟩ :: a.blocks, []⟩) ∨
    ∃ b bs, r.role = .closes b.form ∧ a.part r = .terminator ∧ a.blocks = b :: bs ∧
      a.step r = ⟨bs, b.before ++ [.block b.form b.header a.current (some r)]⟩ := by
  unfold part step
  cases r.role with
  | plain => exact .inl ⟨false, rfl, rfl⟩
  | opens form => exact .inr (.inl ⟨form, rfl, rfl, rfl⟩)
  | closes form =>
    cases a.blocks with
    | nil => exact .inl ⟨true, rfl, rfl⟩
    | cons b bs =>
      by_cases hf : b.form = form
      · exact .inr (.inr ⟨b, bs, by rw [hf], if_pos hf, rfl, if_pos hf⟩)
      · exact .inl ⟨true, if_neg hf, if_neg hf⟩

def partsFrom : Assembly → List Run → List (Part × Run)
  | _, []      => []
  | a, r :: rs => (a.part r, r) :: partsFrom (a.step r) rs

/-- What stands before the innermost block, with its parts. -/
def pendingParts : List OpenBlock → List (Part × Run)
  | []      => []
  | b :: bs => pendingParts bs ++ partsOf b.before ++ [(.header, b.header)]

theorem partsOf_wrap : ∀ (bs : List OpenBlock) (current : List (Node Run)),
    partsOf (wrap bs current) = pendingParts bs ++ partsOf current
  | [], _ => rfl
  | b :: bs, current => by
    rw [wrap_cons, partsOf_wrap bs, Node.partsOf_append, Node.partsOf_singleton, Node.parts, pendingParts]
    simp

/-- **A run is put at the end of the tree, in the part that the open blocks leave to it.** -/
theorem partsOf_nodes_step (a : Assembly) (r : Run) :
    partsOf (a.step r).nodes = partsOf a.nodes ++ [(a.part r, r)] := by
  have hleaf : ∀ stray, partsOf (a.add (.leaf r stray)).nodes =
      partsOf a.nodes ++ [(if stray then Part.stray else Part.plain, r)] := by
    intro stray
    rw [nodes, nodes, partsOf_wrap, partsOf_wrap, add, Node.partsOf_append, List.append_assoc]
    rfl
  rcases step_cases a r with ⟨stray, hpart, hstep⟩ | ⟨form, -, hpart, hstep⟩ | ⟨b, bs, -, hpart, hb, hstep⟩
  · rw [hstep, hpart]
    exact hleaf stray
  · rw [hstep, hpart]
    simp only [nodes, partsOf_wrap, pendingParts, Node.partsOf_nil, List.append_nil]
  · rw [hstep, hpart]
    simp only [nodes, hb, partsOf_wrap, pendingParts, Node.partsOf_append, Node.partsOf_singleton, Node.parts,
      Option.toList_some, List.map_cons, List.map_nil, List.append_assoc, List.cons_append, List.nil_append]

theorem partsOf_nodes_foldl : ∀ (rs : List Run) (a : Assembly),
    partsOf (rs.foldl step a).nodes = partsOf a.nodes ++ partsFrom a rs
  | [], a => (List.append_nil _).symm
  | r :: rs, a => by
    rw [List.foldl_cons, partsOf_nodes_foldl rs, partsOf_nodes_step, partsFrom, List.append_assoc,
      List.singleton_append]

theorem getElem?_partsFrom : ∀ (rs : List Run) (a : Assembly) (n : Nat),
    (partsFrom a rs)[n]? = rs[n]?.map (fun r => (((rs.take n).foldl step a).part r, r))
  | [], _, n => by rw [partsFrom, List.getElem?_nil, List.getElem?_nil, Option.map_none]
  | r :: rs, a, 0 => rfl
  | r :: rs, a, n + 1 => by
    rw [partsFrom, List.getElem?_cons_succ, getElem?_partsFrom rs, List.getElem?_cons_succ, List.take_succ_cons,
      List.foldl_cons]

/-! ## Blocks in the pass -/

def OpenBlock.frame (b : OpenBlock) : Frame Run := ⟨b.form, b.header, none⟩

/-- The open blocks and those before them, each with the blocks around it. -/
def pendingBlocks : List OpenBlock → List (Frame Run × List (Frame Run))
  | []      => []
  | b :: bs =>
    pendingBlocks bs ++ (blocksOf b.before).map (within (bs.map OpenBlock.frame)) ++ [(b.frame, bs.map OpenBlock.frame)]

/-- **The blocks at a moment of the pass**: those before the innermost open block, that one, and those in it. -/
theorem blocksOf_wrap : ∀ (bs : List OpenBlock) (current : List (Node Run)),
    blocksOf (wrap bs current) = pendingBlocks bs ++ (blocksOf current).map (within (bs.map OpenBlock.frame))
  | [], current => by
    rw [List.map_nil, Node.map_within_nil]
    rfl
  | b :: bs, current => by
    rw [wrap_cons, blocksOf_wrap bs, Node.blocksOf_append, Node.blocksOf_singleton, Node.blocks, List.map_append,
      List.map_cons, Node.map_within_within, pendingBlocks]
    simp only [List.append_assoc, List.singleton_append, List.map_cons]
    rfl

end Assembly

theorem partsOf_blockTree (runs : List Run) :
    Node.partsOf (blockTree runs) = Assembly.partsFrom {} runs :=
  Assembly.partsOf_nodes_foldl runs {}

end BlockBasic
