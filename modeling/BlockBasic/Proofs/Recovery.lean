import BlockBasic.Proofs.Defects
/-!
# Recovery — a terminator that closes nothing leaves the blocks alone

A terminator that does not fit is put away as a stray leaf, and the pass goes on with the blocks that were open before it.
So the strays can be deleted from the source: what is left is put into the same blocks, and the same blocks stay open.
Two passes are compared, one over all runs and one over those that are left; the second is always in the state of the
first with its stray leaves taken out (`cleared_step`).
-/
namespace BlockBasic

namespace Node

variable {α β : Type}

/-! ## Trees without strays -/

mutual

def cleared : Node α → Node α
  | .leaf a stray                      => .leaf a stray
  | .block form header body terminator => .block form header (clearedOf body) terminator

/-- **Nodes with the stray leaves deleted**, those among them and those in their blocks. -/
def clearedOf : List (Node α) → List (Node α)
  | []      => []
  | n :: ns => if n.isStray then clearedOf ns else cleared n :: clearedOf ns

end

@[simp] theorem clearedOf_append (xs ys : List (Node α)) : clearedOf (xs ++ ys) = clearedOf xs ++ clearedOf ys := by
  induction xs with
  | nil => rfl
  | cons x xs ih =>
    rw [List.cons_append, clearedOf, clearedOf, ih]
    split <;> rfl

theorem clearedOf_stray (a : α) : clearedOf [.leaf a true] = [] := rfl

theorem clearedOf_plain (a : α) : clearedOf [.leaf a false] = [.leaf a false] := rfl

theorem clearedOf_block (form : BlockForm) (header : α) (body : List (Node α)) (terminator : Option α) :
    clearedOf [.block form header body terminator] = [.block form header (clearedOf body) terminator] := rfl

theorem isStray_map (f : α → β) (n : Node α) : (map f n).isStray = n.isStray := by cases n <;> rfl

mutual

theorem cleared_map (f : α → β) : ∀ (n : Node α), cleared (map f n) = map f (cleared n)
  | .leaf _ _ => rfl
  | .block form header body terminator => by rw [map, cleared, cleared, map, clearedOf_mapList f body]

theorem clearedOf_mapList (f : α → β) : ∀ (ns : List (Node α)), clearedOf (mapList f ns) = mapList f (clearedOf ns)
  | [] => rfl
  | n :: ns => by
    rw [mapList, clearedOf, clearedOf, isStray_map, cleared_map f n, clearedOf_mapList f ns]
    split <;> rfl

end

mutual

theorem part_cleared : ∀ {n : Node α}, n.isStray = false → ∀ x ∈ parts (cleared n), x.1 ≠ .stray
  | .leaf a stray, h, x, hx => by
    rw [List.mem_singleton.1 hx, show stray = false from h]
    exact nofun
  | .block form header body terminator, _, x, hx => by
    rcases List.mem_cons.1 hx with rfl | hx
    · exact nofun
    rcases List.mem_append.1 hx with hx | hx
    · exact part_clearedOf body x hx
    · obtain ⟨t, -, rfl⟩ := List.mem_map.1 hx
      exact nofun

theorem part_clearedOf : ∀ (ns : List (Node α)), ∀ x ∈ partsOf (clearedOf ns), x.1 ≠ .stray
  | [], _, hx => absurd hx List.not_mem_nil
  | n :: ns, x, hx => by
    rw [clearedOf] at hx
    split at hx
    · exact part_clearedOf ns x hx
    · rename_i hn
      rcases List.mem_append.1 hx with hx | hx
      · exact part_cleared (Bool.eq_false_iff.2 hn) x hx
      · exact part_clearedOf ns x hx

end

theorem straysOf_clearedOf (ns : List (Node α)) : straysOf (clearedOf ns) = [] := by
  rw [straysOf, List.filter_eq_nil_iff.2 (fun x hx => by simpa using part_clearedOf ns x hx), List.map_nil]

end Node

/-! ## The pass -/

namespace Assembly

open Node (clearedOf clearedOf_append)

def OpenBlock.cleared (b : OpenBlock) : OpenBlock := ⟨b.form, b.header, clearedOf b.before⟩

/-- **A state of the pass with its stray leaves deleted.** -/
def cleared (a : Assembly) : Assembly := ⟨a.blocks.map OpenBlock.cleared, clearedOf a.current⟩

/-- **One run of the pass**: a stray changes nothing but for its leaf, and any other run does the same without the stray
leaves before it. -/
theorem cleared_step (a : Assembly) (r : Run) :
    (a.part r = .stray ∧ (a.step r).cleared = a.cleared) ∨
    (a.part r ≠ .stray ∧ (a.step r).cleared = a.cleared.step r) := by
  have hstray : (a.add (.leaf r true)).cleared = a.cleared := by
    rw [cleared, add, clearedOf_append, Node.clearedOf_stray, List.append_nil, cleared]
  have hplain : (a.add (.leaf r false)).cleared = a.cleared.add (.leaf r false) := by
    rw [cleared, add, clearedOf_append, Node.clearedOf_plain, add, cleared]
  unfold part step
  cases r.role with
  | plain => exact .inr ⟨by simp, hplain⟩
  | opens form => exact .inr ⟨by simp, rfl⟩
  | closes form =>
    cases hb : a.blocks with
    | nil => exact .inl ⟨rfl, hstray⟩
    | cons b bs =>
      have hblocks : a.cleared.blocks = b.cleared :: bs.map OpenBlock.cleared := by rw [cleared, hb, List.map_cons]
      by_cases hf : b.form = form
      · refine .inr ⟨by simp [hf], ?_⟩
        rw [hblocks]
        simp only [OpenBlock.cleared, hf, if_true, cleared, clearedOf_append, Node.clearedOf_block]
      · exact .inl ⟨if_neg hf, by simpa [hf] using hstray⟩

/-- The runs that are not put away as strays after a state. -/
def keptFrom (a : Assembly) (rs : List Run) : List Run :=
  ((partsFrom a rs).filter (fun x => x.1 != .stray)).map Prod.snd

theorem keptFrom_cons (a : Assembly) (r : Run) (rs : List Run) :
    keptFrom a (r :: rs) = if a.part r = .stray then keptFrom (a.step r) rs else r :: keptFrom (a.step r) rs := by
  by_cases h : a.part r = .stray <;> simp [keptFrom, partsFrom, h]

/-- **The pass over the runs that are left** ends in the state of the whole pass, but for the stray leaves. -/
theorem foldl_keptFrom : ∀ (rs : List Run) (a : Assembly),
    (keptFrom a rs).foldl step a.cleared = (rs.foldl step a).cleared
  | [], _ => rfl
  | r :: rs, a => by
    rw [keptFrom_cons, List.foldl_cons, ← foldl_keptFrom rs]
    rcases cleared_step a r with ⟨hpart, hstep⟩ | ⟨hpart, hstep⟩
    · rw [if_pos hpart, hstep]
    · rw [if_neg hpart, hstep, List.foldl_cons]

theorem clearedOf_wrap : ∀ (bs : List OpenBlock) (current : List (Node Run)),
    clearedOf (wrap bs current) = wrap (bs.map OpenBlock.cleared) (clearedOf current)
  | [], _ => rfl
  | b :: bs, current => by
    rw [wrap_cons, clearedOf_wrap bs, clearedOf_append, Node.clearedOf_block]
    rfl

theorem snd_partsFrom : ∀ (rs : List Run) (a : Assembly), (partsFrom a rs).map Prod.snd = rs
  | [], _ => rfl
  | r :: rs, a => by rw [partsFrom, List.map_cons, snd_partsFrom rs]

end Assembly

namespace Program

/-- **The runs that are left** when those are deleted whose statements a program marks as stray. -/
def keptRuns (table : Table) (runs : List Run) : List Run :=
  ((runs.zip (Node.partsOf (ofRuns table runs))).filter (fun x => x.2.1 != .stray)).map Prod.fst

theorem partsOf_ofRuns (table : Table) (runs : List Run) : Node.partsOf (ofRuns table runs) =
    (Assembly.partsFrom {} runs).map (Prod.map id (Run.statement table)) := by
  rw [ofRuns, Node.partsOf_mapList, partsOf_blockTree]

theorem keptRuns_eq (table : Table) (runs : List Run) : keptRuns table runs = Assembly.keptFrom {} runs := by
  have hzip : ∀ (rs : List Run) (a : Assembly),
      rs.zip ((Assembly.partsFrom a rs).map (Prod.map id (Run.statement table))) =
      (Assembly.partsFrom a rs).map (fun x => (x.2, (x.1, x.2.statement table))) := by
    intro rs
    induction rs with
    | nil => exact fun _ => rfl
    | cons r rs ih =>
      intro a
      rw [Assembly.partsFrom, List.map_cons, List.zip_cons_cons, ih, List.map_cons]
      rfl
  rw [keptRuns, partsOf_ofRuns, hzip, List.filter_map, List.map_map]
  rfl

end Program

theorem blockTree_keptFrom (runs : List Run) :
    blockTree (Assembly.keptFrom {} runs) = Node.clearedOf (blockTree runs) := by
  have h : Assembly.ofRuns (Assembly.keptFrom {} runs) = (Assembly.ofRuns runs).cleared := Assembly.foldl_keptFrom runs {}
  rw [blockTree, h, Assembly.nodes, blockTree, Assembly.nodes, Assembly.clearedOf_wrap]
  rfl

/-- **Strays leave the blocks alone.**  The statements of a program, each with its part in the tree, are those of its runs
in order.  With the runs deleted whose statements are marked as stray, no statement is marked so; the tree is the same but
for the stray leaves, which are gone from the top and from every block; and the same blocks are reported as unclosed, in
the same order and words. -/
theorem strays_leave_blocks (table : Table) (runs : List Run) :
    let p := Program.ofRuns table runs
    let kept := Program.keptRuns table runs
    (Node.partsOf p).map Prod.snd = runs.map (Run.statement table) ∧
    Node.straysOf (Program.ofRuns table kept) = [] ∧
    Program.ofRuns table kept = Node.clearedOf p ∧
    Diagnostic.withCodes [.unclosedBlock] (Program.diagnostics kept) =
      Diagnostic.withCodes [.unclosedBlock] (Program.diagnostics runs) := by
  have htree : Program.ofRuns table (Program.keptRuns table runs) = Node.clearedOf (Program.ofRuns table runs) := by
    rw [Program.keptRuns_eq, Program.ofRuns, Program.ofRuns, blockTree_keptFrom, Node.clearedOf_mapList]
  refine ⟨?_, ?_, htree, ?_⟩
  · rw [Program.partsOf_ofRuns, List.map_map,
      show Prod.snd ∘ Prod.map id (Run.statement table) = Run.statement table ∘ Prod.snd from rfl, ← List.map_map,
      Assembly.snd_partsFrom]
  · rw [htree, Node.straysOf_clearedOf]
  · have hstate : (Assembly.keptFrom {} runs).foldl Assembly.step {} = (runs.foldl Assembly.step {}).cleared :=
      Assembly.foldl_keptFrom runs {}
    rw [Program.keptRuns_eq, Program.diagnostics, Program.diagnostics, Program.withCodes_unclosed,
      Program.withCodes_unclosed, hstate, Assembly.cleared, List.map_map]
    rfl

/-- With the `WEND` gone the `NEXT` still ends its `FOR`. -/
example : (Program.keptRuns Table.empty (programRuns [CodeLine.ofSource 1 "FOR i = 1 TO 3 : WEND : NEXT".toList])).map
    Run.role = [.opens .forNext, .closes .forNext] := by
  decide +kernel

end BlockBasic
