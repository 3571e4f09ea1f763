import BlockBasic.Program
/-!
# SourceOrder — the blocks keep every statement, in the order of the source

Putting runs into blocks moves them between open blocks, finished blocks and the top of the program, but reading the
nodes from the front, a header before what is in its block and a terminator after it, always gives the runs back as they
came.  The invariant is over the whole state of the pass: the nodes before each open block and its header, from the
outermost block inwards, and then the nodes of the innermost (`Assembly.seen`).  Each run is added at its end
(`seen_step`), whichever of the five ways it takes.
-/
namespace BlockBasic

namespace Node

variable {α β : Type}

/-! ## The things of nodes in order -/

def itemsOf (ns : List (Node α)) : List α := (entriesOf 0 ns).map Prod.snd

theorem entriesOf_append (depth : Nat) : ∀ (xs ys : List (Node α)),
    entriesOf depth (xs ++ ys) = entriesOf depth xs ++ entriesOf depth ys
  | [], _ => rfl
  | x :: xs, ys => by rw [List.cons_append, entriesOf, entriesOf, entriesOf_append depth xs, List.append_assoc]

mutual

theorem snd_entries (d e : Nat) : ∀ (n : Node α), (entries d n).map Prod.snd = (entries e n).map Prod.snd
  | .leaf a _ => rfl
  | .block _ header body terminator => by
    simp only [entries, List.map_cons, List.map_append, List.map_map, snd_entriesOf (d + 1) (e + 1) body]
    rfl

theorem snd_entriesOf (d e : Nat) : ∀ (ns : List (Node α)), (entriesOf d ns).map Prod.snd = (entriesOf e ns).map Prod.snd
  | [] => rfl
  | n :: ns => by rw [entriesOf, entriesOf, List.map_append, List.map_append, snd_entries d e n, snd_entriesOf d e ns]

end

@[simp] theorem itemsOf_nil : itemsOf ([] : List (Node α)) = [] := rfl

@[simp] theorem itemsOf_append (xs ys : List (Node α)) : itemsOf (xs ++ ys) = itemsOf xs ++ itemsOf ys := by
  rw [itemsOf, entriesOf_append, List.map_append]
  rfl

@[simp] theorem itemsOf_leaf (a : α) (stray : Bool) : itemsOf [.leaf a stray] = [a] := rfl

@[simp] theorem itemsOf_block (form : BlockForm) (header : α) (body : List (Node α)) (terminator : Option α) :
    itemsOf [.block form header body terminator] = header :: (itemsOf body ++ terminator.toList) := by
  have hbody := snd_entriesOf 1 0 body
  have hlast : ((terminator.toList.map (fun t => (0, t))).map Prod.snd) = terminator.toList := by
    cases terminator <;> rfl
  simp only [itemsOf, entriesOf, entries, List.append_nil, List.map_cons, List.map_append, hlast]
  rw [hbody]

mutual

theorem entries_map (f : α → β) (d : Nat) : ∀ (n : Node α), entries d (map f n) = (entries d n).map (Prod.map id f)
  | .leaf a _ => rfl
  | .block _ header body terminator => by
    simp only [map, entries, entriesOf_mapList f (d + 1) body, List.map_cons, List.map_append]
    cases terminator <;> rfl

theorem entriesOf_mapList (f : α → β) (d : Nat) : ∀ (ns : List (Node α)),
    entriesOf d (mapList f ns) = (entriesOf d ns).map (Prod.map id f)
  | [] => rfl
  | n :: ns => by rw [mapList, entriesOf, entriesOf, List.map_append, entries_map f d n, entriesOf_mapList f d ns]

end

theorem itemsOf_mapList (f : α → β) (ns : List (Node α)) : itemsOf (mapList f ns) = (itemsOf ns).map f := by
  rw [itemsOf, itemsOf, entriesOf_mapList, List.map_map, List.map_map]
  rfl

end Node

/-! ## The pass -/

namespace Assembly

open Node (itemsOf)

/-- What stands before the innermost block: for each open block, from the outermost inwards, the nodes before it and
its header. -/
def pending : List OpenBlock → List Run
  | []      => []
  | b :: bs => pending bs ++ itemsOf b.before ++ [b.header]

/-- **The runs that the pass has seen**, read off its state. -/
def seen (a : Assembly) : List Run := pending a.blocks ++ itemsOf a.current

theorem seen_add (a : Assembly) (r : Run) (stray : Bool) : (a.add (.leaf r stray)).seen = a.seen ++ [r] := by
  simp [seen, add]

/-- **One run of the pass is added at the end**, whether it opens a block, closes the innermost one, fails to, or does
neither. -/
theorem seen_step (a : Assembly) (r : Run) : (a.step r).seen = a.seen ++ [r] := by
  unfold step
  split
  · exact seen_add a r false
  · simp [seen, pending]
  · split
    · rename_i form _ b bs hb
      split
      · simp [seen, pending, hb]
      · exact seen_add a r true
    · exact seen_add a r true

theorem seen_foldl : ∀ (rs : List Run) (a : Assembly), (rs.foldl step a).seen = a.seen ++ rs
  | [], a => by rw [List.foldl_nil, List.append_nil]
  | r :: rs, a => by rw [List.foldl_cons, seen_foldl rs, seen_step, List.append_assoc, List.singleton_append]

theorem wrap_cons (b : OpenBlock) (bs : List OpenBlock) (current : List (Node Run)) :
    wrap (b :: bs) current = wrap bs (b.before ++ [.block b.form b.header current none]) := rfl

theorem itemsOf_wrap : ∀ (bs : List OpenBlock) (current : List (Node Run)),
    itemsOf (wrap bs current) = pending bs ++ itemsOf current
  | [], current => rfl
  | b :: bs, current => by
    rw [wrap_cons, itemsOf_wrap bs]
    simp [pending]

end Assembly

/-- **The blocks of a sequence of runs hold exactly those runs, in order.** -/
theorem itemsOf_blockTree (runs : List Run) : Node.itemsOf (blockTree runs) = runs := by
  rw [blockTree, Assembly.nodes, Assembly.itemsOf_wrap]
  exact Assembly.seen_foldl runs {}

theorem itemsOf_ofRuns (table : Table) (runs : List Run) :
    Node.itemsOf (Program.ofRuns table runs) = runs.map (Run.statement table) := by
  rw [Program.ofRuns, Node.itemsOf_mapList, itemsOf_blockTree]

theorem mem_runsFrom : ∀ {lines : List CodeLine} {index : Nat} {r : Run}, r ∈ runsFrom index lines →
    ∃ l ∈ lines, r.number = l.number ∧ r.tokens ∈ l.runs
  | [], _, _, h => absurd h List.not_mem_nil
  | l :: ls, index, r, h => by
    rw [runsFrom] at h
    rcases List.mem_append.1 h with h | h
    · obtain ⟨ts, hts, rfl⟩ := List.mem_map.1 h
      exact ⟨l, List.mem_cons_self, rfl, hts⟩
    · obtain ⟨m, hm, hr⟩ := mem_runsFrom h
      exact ⟨m, List.mem_cons_of_mem l hm, hr⟩

theorem map_runsFrom {β : Type} (f : Run → β) (hf : ∀ i j n ts, f ⟨i, n, ts⟩ = f ⟨j, n, ts⟩) :
    ∀ (lines : List CodeLine) (index : Nat),
      (runsFrom index lines).map f = lines.flatMap (fun l => l.runs.map (fun ts => f ⟨0, l.number, ts⟩))
  | [], _ => rfl
  | l :: ls, index => by
    rw [runsFrom, List.map_append, map_runsFrom f hf ls, List.flatMap_cons, List.map_map]
    congr 1
    exact List.map_congr_left (fun ts _ => hf index 0 l.number ts)

/-- **No statement is lost, doubled or moved.**  Whatever blocks are opened, closed, mismatched or left open, the
statements of the program, each before the nodes in its block and those before the block's terminator, are the
statements of the lines' runs in the order of the source. -/
theorem statements_in_source_order (table : Table) (lines : List CodeLine) :
    (Node.entriesOf 0 (Program.ofLines table lines)).map Prod.snd =
      lines.flatMap (fun l => l.runs.map (fun tokens => Run.statement table ⟨0, l.number, tokens⟩)) := by
  have h : Node.itemsOf (Program.ofLines table lines) = (programRuns lines).map (Run.statement table) :=
    itemsOf_ofRuns table (programRuns lines)
  exact h.trans (map_runsFrom (Run.statement table) (fun _ _ _ _ => rfl) lines 0)

end BlockBasic
