import BlockBasic.Proofs.Defects
import BlockBasic.Proofs.Keys
import BlockBasic.Proofs.OpenBlocks
/-!
# RoutineEnds — the end that is recorded for a routine

A routine that is declared again takes the place of the one before, and the declaration that stays is that of the last
header of its name.  Its recorded end, though, is set by key: every terminator of a block of that name sets it, and the
last to come is the one of the outermost block.  So what is recorded is the end of the outermost closed block of the name
among the routine's own block and those around it (`recorded_end_iff`), which is not its own end where a routine is
declared again inside itself.

The table says so at every moment of the two passes: under each key of a routine it holds what the blocks of the tree up
to there leave (`Records`).
-/
namespace BlockBasic

namespace Node.Frame

def stop? (b : Frame Run) : Option BlockEnd := b.terminator.map (fun t => ⟨t.index, t.number⟩)

def isOf (k : Key) (b : Frame Run) : Bool := Scan.routineKey? b.header == some k

end Node.Frame

namespace Scan

open Node (Frame blocksOf within)

/-! ## What blocks leave under a key -/

def lastOf? (k : Key) (ps : List (Frame Run × List (Frame Run))) : Option (Frame Run × List (Frame Run)) :=
  (ps.filter (fun p => p.1.isOf k)).getLast?

/-- The outermost closed block of a routine, of blocks from the inside outwards. -/
def outermost? (k : Key) (bs : List (Frame Run)) : Option (Frame Run) :=
  (bs.filter (fun b => b.isOf k && b.terminator.isSome)).getLast?

/-- The declaration of a block's header, closed where the outermost closed block of its name ends. -/
def record (k : Key) (p : Frame Run × List (Frame Run)) : Option Declaration :=
  (declaration? p.1.header).map (fun d => { d with closedAt := (outermost? k (p.1 :: p.2)).bind Frame.stop? })

/-- **What blocks leave under a key.** -/
def record? (k : Key) (ps : List (Frame Run × List (Frame Run))) : Option Declaration := (lastOf? k ps).bind (record k)

theorem lastOf?_append (k : Key) (ps qs : List (Frame Run × List (Frame Run))) :
    lastOf? k (ps ++ qs) = (lastOf? k qs).or (lastOf? k ps) := by
  rw [lastOf?, List.filter_append, List.getLast?_append]
  rfl

theorem lastOf?_singleton (k : Key) (p : Frame Run × List (Frame Run)) :
    lastOf? k [p] = if p.1.isOf k then some p else none := by
  rw [lastOf?, List.filter_cons]
  split <;> rfl

theorem lastOf?_map_within (k : Key) (outer : List (Frame Run)) (ps : List (Frame Run × List (Frame Run))) :
    lastOf? k (ps.map (within outer)) = (lastOf? k ps).map (within outer) := by
  rw [lastOf?, lastOf?, List.filter_map, List.getLast?_map]
  rfl

theorem isOf_of_lastOf? {k : Key} {ps : List (Frame Run × List (Frame Run))} {p : Frame Run × List (Frame Run)}
    (h : lastOf? k ps = some p) : p ∈ ps ∧ p.1.isOf k = true := List.mem_filter.1 (List.mem_of_getLast? h)

theorem record_isSome {k : Key} {p : Frame Run × List (Frame Run)} (h : p.1.isOf k = true) :
    ∃ d, record k p = some d := by
  obtain ⟨d, hd, -⟩ := Option.map_eq_some_iff.1 (beq_iff_eq.1 h)
  exact ⟨_, congrArg (Option.map _) hd⟩

theorem record?_append (k : Key) (ps qs : List (Frame Run × List (Frame Run))) :
    record? k (ps ++ qs) = (record? k qs).or (record? k ps) := by
  rw [record?, record?, lastOf?_append]
  cases hq : lastOf? k qs with
  | none => rfl
  | some q =>
    obtain ⟨d, hd⟩ := record_isSome (isOf_of_lastOf? hq).2
    rw [Option.some_or, Option.bind_some, hd, Option.some_or]

theorem outermost?_append_open {k : Key} (bs : List (Frame Run)) {outer : List (Frame Run)}
    (h : ∀ b ∈ outer, b.terminator = none) : outermost? k (bs ++ outer) = outermost? k bs := by
  have hnone : outer.filter (fun b => b.isOf k && b.terminator.isSome) = [] :=
    List.filter_eq_nil_iff.2 (fun b hb => by rw [h b hb]; simp)
  rw [outermost?, List.filter_append, hnone, List.append_nil]
  rfl

theorem outermost?_append_closed {k : Key} (bs : List (Frame Run)) {b : Frame Run} {outer : List (Frame Run)}
    (hb : b.terminator.isSome = true) (h : ∀ b ∈ outer, b.terminator = none) :
    outermost? k (bs ++ b :: outer) = if b.isOf k then some b else outermost? k bs := by
  rw [List.append_cons, outermost?_append_open _ h, outermost?, List.filter_append, List.filter_cons, hb, Bool.and_true]
  split
  · exact List.getLast?_concat
  · rw [List.filter_nil, List.append_nil]
    rfl

/-! ## Headers -/

theorem closedAt_declaration? {r : Run} {d : Declaration} (h : declaration? r = some d) : d.closedAt = none := by
  obtain ⟨kind, -, h⟩ := Option.bind_eq_some_iff.1 h
  obtain ⟨name, -, rfl⟩ := Option.map_eq_some_iff.1 h
  rfl

theorem routine?_eq_none_of_plain {r : Run} (h : r.role = .plain) : routine? r.tokens = none := by
  have ho := (Run.role_eq_plain.1 h).2
  unfold Run.opens? at ho
  unfold routine?
  split
  · rename_i hw
    rw [hw] at ho
    cases ho
  · rename_i hw
    rw [hw] at ho
    cases ho
  · rfl

theorem routineKey?_of_plain {r : Run} (h : r.role = .plain) : routineKey? r = none := by
  rw [routineKey?, declaration?, routine?_eq_none_of_plain h]
  rfl

theorem get?_mention {k : Key} (hk : k.scope = .routine) (r : Run) (t : Table) (name : Token) :
    (mention r t name).get? k = t.get? k := by
  rw [mention]
  split
  · rfl
  · rw [Table.get?_declare, if_neg]
    rintro rfl
    cases hk

theorem get?_foldl_mention {k : Key} (hk : k.scope = .routine) (r : Run) : ∀ (names : List Token) (t : Table),
    (names.foldl (mention r) t).get? k = t.get? k
  | [], _ => rfl
  | name :: names, t => by rw [List.foldl_cons, get?_foldl_mention hk r names, get?_mention hk]

theorem get?_declare_routine {k : Key} (hk : k.scope = .routine) (s : Scan) (r : Run) :
    (s.declare r).1.get? k = if routineKey? r = some k then declaration? r else s.table.get? k := by
  unfold declare routineKey? declaration?
  cases routine? r.tokens with
  | none => exact get?_foldl_mention hk r _ s.table
  | some kind =>
    cases routineName? r.tokens with
    | none => rfl
    | some name =>
      simp only [Option.bind_some, Option.map_some, Table.get?_declare, Option.some.injEq]

theorem distinct_declare {s : Scan} (h : s.table.Distinct) (r : Run) : (s.declare r).1.Distinct := by
  have hmention : ∀ (names : List Token) {t : Table}, t.Distinct → (names.foldl (mention r) t).Distinct := by
    intro names
    induction names with
    | nil => exact fun ht => ht
    | cons name names ih =>
      intro t ht
      refine ih ?_
      rw [mention]
      split
      · exact ht
      · exact ht.declare _
  unfold declare
  cases routine? r.tokens with
  | none => exact hmention _ h
  | some kind =>
    cases routineName? r.tokens with
    | none => exact h
    | some name => exact h.declare _

/-! ## The two passes -/

theorem blocksOf_nodes_add (a : Assembly) (r : Run) (stray : Bool) :
    blocksOf (a.add (.leaf r stray)).nodes = blocksOf a.nodes := by
  rw [Assembly.nodes, Assembly.nodes, Assembly.blocksOf_wrap, Assembly.blocksOf_wrap, Assembly.add,
    Node.blocksOf_append, Node.blocksOf_singleton, Node.blocks, List.append_nil]

theorem open_of_mem {bs : List Assembly.OpenBlock} : ∀ b ∈ bs.map Assembly.OpenBlock.frame, b.terminator = none := by
  intro b hb
  obtain ⟨x, -, rfl⟩ := List.mem_map.1 hb
  rfl

/-- A block and the blocks in it, with open blocks around them. -/
def family (b : Frame Run) (inside : List (Frame Run × List (Frame Run))) (outer : List (Frame Run)) :
    List (Frame Run × List (Frame Run)) := (b, outer) :: inside.map (within (b :: outer))

theorem lastOf?_family (k : Key) (b : Frame Run) (inside : List (Frame Run × List (Frame Run)))
    (outer : List (Frame Run)) : lastOf? k (family b inside outer) =
      ((lastOf? k inside).map (within (b :: outer))).or (if b.isOf k then some (b, outer) else none) := by
  rw [family, ← List.singleton_append, lastOf?_append, lastOf?_singleton, lastOf?_map_within]

theorem record?_family {k : Key} {b : Frame Run} (inside : List (Frame Run × List (Frame Run))) (outer : List (Frame Run))
    (hb : b.isOf k = true) : ∃ d, record? k (family b inside outer) = some d := by
  rw [record?, lastOf?_family, if_pos hb]
  cases hin : lastOf? k inside with
  | none => exact record_isSome hb
  | some p => exact record_isSome (p := within (b :: outer) p) (isOf_of_lastOf? hin).2

/-- **Closing a block** sets the end of what its name has, if it has one in the block, and changes nothing else. -/
theorem record?_close {k : Key} {b : Frame Run} (hb : b.terminator = none) (r : Run)
    (inside : List (Frame Run × List (Frame Run))) {outer : List (Frame Run)} (ho : ∀ b ∈ outer, b.terminator = none) :
    record? k (family { b with terminator := some r } inside outer) =
      if b.isOf k then
        (record? k (family b inside outer)).map (fun d => { d with closedAt := some ⟨r.index, r.number⟩ })
      else record? k (family b inside outer) := by
  have hof : Frame.isOf k { b with terminator := some r } = b.isOf k := rfl
  have hbefore : ∀ bs, outermost? k (bs ++ b :: outer) = outermost? k bs := fun bs =>
    outermost?_append_open bs (fun x hx => (List.mem_cons.1 hx).elim (fun h => h ▸ hb) (ho x))
  have hafter : ∀ bs, outermost? k (bs ++ { b with terminator := some r } :: outer) =
      if b.isOf k then some { b with terminator := some r } else outermost? k bs := fun bs =>
    outermost?_append_closed bs rfl ho
  rw [record?, record?, lastOf?_family, lastOf?_family, hof]
  cases lastOf? k inside with
  | some p =>
    have hb' := hbefore (p.1 :: p.2)
    have ha' := hafter (p.1 :: p.2)
    simp only [List.cons_append] at hb' ha'
    simp only [Option.map_some, Option.some_or, Option.bind_some, record, within, hb', ha', Option.map_map]
    cases b.isOf k <;> rfl
  | none =>
    have hb' := hbefore []
    have ha' := hafter []
    simp only [List.nil_append] at hb' ha'
    cases hk : b.isOf k with
    | false => rfl
    | true =>
      simp only [Option.map_none, Option.none_or, if_true, Option.bind_some, record, hb', ha', hk, Option.map_map]
      rfl

theorem blocksOf_opened (form : BlockForm) (r : Run) (a : Assembly) :
    blocksOf (Assembly.nodes ⟨⟨form, r, a.current⟩ :: a.blocks, []⟩) =
      blocksOf a.nodes ++ family ⟨form, r, none⟩ [] (a.blocks.map Assembly.OpenBlock.frame) := by
  rw [Assembly.nodes, Assembly.nodes, Assembly.blocksOf_wrap, Assembly.blocksOf_wrap, Assembly.pendingBlocks,
    Node.blocksOf_nil, List.map_nil, List.append_nil]
  rfl

theorem blocksOf_closed (b : Assembly.OpenBlock) (bs : List Assembly.OpenBlock) (current : List (Node Run)) (r : Run) :
    ∃ before, blocksOf (Assembly.nodes ⟨b :: bs, current⟩) =
        before ++ family b.frame (blocksOf current) (bs.map Assembly.OpenBlock.frame) ∧
      blocksOf (Assembly.nodes ⟨bs, b.before ++ [.block b.form b.header current (some r)]⟩) =
        before ++ family { b.frame with terminator := some r } (blocksOf current) (bs.map Assembly.OpenBlock.frame) := by
  refine ⟨Assembly.pendingBlocks bs ++ (blocksOf b.before).map (within (bs.map Assembly.OpenBlock.frame)), ?_, ?_⟩
  · rw [Assembly.nodes, Assembly.blocksOf_wrap, Assembly.pendingBlocks, List.append_assoc, family]
    rfl
  · rw [Assembly.nodes, Assembly.blocksOf_wrap, Node.blocksOf_append, Node.blocksOf_singleton, Node.blocks,
      List.map_append, List.map_cons, Node.map_within_within, ← List.append_assoc]
    rfl

theorem record?_opened (k : Key) (form : BlockForm) (r : Run) {outer : List (Frame Run)}
    (ho : ∀ b ∈ outer, b.terminator = none) :
    record? k (family ⟨form, r, none⟩ [] outer) = if routineKey? r = some k then declaration? r else none := by
  have hopen : ∀ b ∈ (⟨form, r, none⟩ : Frame Run) :: outer, b.terminator = none :=
    fun x hx => (List.mem_cons.1 hx).elim (fun h => h ▸ rfl) (ho x)
  have hout : outermost? k (⟨form, r, none⟩ :: outer) = none := outermost?_append_open [] hopen
  rw [record?, family, List.map_nil, lastOf?_singleton, Frame.isOf]
  by_cases hkey : routineKey? r = some k
  · rw [hkey, if_pos (beq_self_eq_true (some k)), if_pos rfl, Option.bind_some, record, hout]
    cases hd : declaration? r with
    | none => rfl
    | some d => rw [Option.map_some, Option.bind_none, ← closedAt_declaration? hd]
  · rw [if_neg (fun h => hkey (beq_iff_eq.1 h)), if_neg hkey]
    rfl

theorem get?_finish (t : Table) (r : Run) (key : Option Key) (k : Key) :
    (finish t r key).get? k =
      if key = some k then (t.get? k).map (fun d => { d with closedAt := some ⟨r.index, r.number⟩ }) else t.get? k := by
  cases key with
  | none => rfl
  | some l => simp only [finish, Table.get?_close, Option.some.injEq]

theorem distinct_finish {t : Table} (h : t.Distinct) (r : Run) (key : Option Key) : (finish t r key).Distinct := by
  cases key with
  | none => exact h
  | some k => exact h.close k _

/-- **The table holds what the blocks leave**, under the key of every routine. -/
structure Records (s : Scan) (a : Assembly) : Prop where
  follows  : s.Follows a
  distinct : s.table.Distinct
  routines : ∀ k : Key, k.scope = .routine → s.table.get? k = record? k (blocksOf a.nodes)

theorem Records.distinct_step {s : Scan} {a : Assembly} (h : s.Records a) (r : Run) : (s.step r).table.Distinct := by
  rcases h.follows.step_cases r with ⟨-, -, -, hs⟩ | ⟨form, -, -, -, hs⟩ | ⟨-, -, hs⟩ | ⟨b, bs, -, -, -, hs⟩
  · rw [hs]
    exact distinct_declare h.distinct r
  · rw [hs]
    exact distinct_declare h.distinct r
  · rw [hs]
    exact h.distinct
  · rw [hs]
    exact distinct_finish h.distinct r _

theorem Records.step {s : Scan} {a : Assembly} (h : s.Records a) (r : Run) : (s.step r).Records (a.step r) := by
  refine ⟨h.follows.step r, h.distinct_step r, ?_⟩
  intro k hk
  have hsame := h.routines k hk
  rcases h.follows.step_cases r with ⟨hr, -, ha, hs⟩ | ⟨form, -, -, ha, hs⟩ | ⟨-, ha, hs⟩ | ⟨b, bs, hb, -, ha, hs⟩
  · rw [ha, hs, blocksOf_nodes_add, get?_declare_routine hk, routineKey?_of_plain hr]
    exact hsame
  · rw [ha, hs, get?_declare_routine hk, blocksOf_opened, record?_append, record?_opened k form r open_of_mem, hsame]
    by_cases hkey : routineKey? r = some k
    · rw [if_pos hkey, if_pos hkey]
      obtain ⟨d, hd, -⟩ := Option.map_eq_some_iff.1 hkey
      rw [hd, Option.some_or]
    · rw [if_neg hkey, if_neg hkey, Option.none_or]
  · rw [ha, hs, blocksOf_nodes_add]
    exact hsame
  · obtain ⟨before, hold, hnew⟩ := blocksOf_closed b bs a.current r
    rw [← hb] at hold
    rw [hold, record?_append] at hsame
    rw [ha, hs, get?_finish, hnew, record?_append, record?_close rfl r _ open_of_mem]
    by_cases hkey : routineKey? b.header = some k
    · have hof : b.frame.isOf k = true := beq_iff_eq.2 hkey
      obtain ⟨d, hd⟩ := record?_family (blocksOf a.current) (bs.map Assembly.OpenBlock.frame) hof
      rw [hd, Option.some_or] at hsame
      rw [if_pos hkey, if_pos hof, hsame, hd]
      rfl
    · have hof : b.frame.isOf k = false := beq_eq_false_iff_ne.2 hkey
      rw [if_neg hkey, hof, if_neg Bool.false_ne_true, hsame]

theorem Records.foldl : ∀ (rs : List Run) {s : Scan} {a : Assembly}, s.Records a →
    (rs.foldl Scan.step s).Records (rs.foldl Assembly.step a)
  | [], _, _, h => h
  | r :: rs, _, _, h => Records.foldl rs (h.step r)

theorem records_ofRuns (rs : List Run) : (ofRuns rs).Records (Assembly.ofRuns rs) :=
  Records.foldl rs ⟨rfl, List.nodup_nil, fun _ _ => rfl⟩

/-! ## Open blocks -/

theorem open_around_blockTree (rs : List Run) : ∀ p ∈ blocksOf (blockTree rs), p.1.terminator = none →
    ∀ b ∈ p.2, b.terminator = none := (Assembly.spine_blockTree rs).open_around

theorem outermost?_cons {k : Key} {own : Frame Run} {around : List (Frame Run)} (hown : own.isOf k = true)
    (hopen : own.terminator = none → ∀ b ∈ around, b.terminator = none) :
    (outermost? k (own :: around)).bind Frame.stop? = ((outermost? k around).map Frame.stop?).getD own.stop? := by
  cases ht : own.terminator with
  | none =>
    have hnone : ∀ bs : List (Frame Run), (∀ b ∈ bs, b.terminator = none) → outermost? k bs = none :=
      fun bs h => outermost?_append_open [] h
    rw [hnone (own :: around) (fun b hb => (List.mem_cons.1 hb).elim (fun h => h ▸ ht) (hopen ht b)),
      hnone around (hopen ht), Frame.stop?, ht]
    rfl
  | some t =>
    rw [outermost?, outermost?, List.filter_cons_of_pos (by rw [hown, ht]; rfl), List.getLast?_cons]
    cases hout : (around.filter (fun b => b.isOf k && b.terminator.isSome)).getLast? <;> rfl

end Scan

open Node (Frame) in
/-- **The end that is recorded for a routine.**  A routine of the table is declared by the last header of its name, whose
block is in the tree.  It is recorded as closed exactly if that block is closed; what is recorded is the end of the
outermost closed block of the name among that block and those around it; and so it is the end of the routine's own block
exactly if no closed block of the same name stands around that, or the outermost one ends in the same line. -/
theorem recorded_end_iff (lines : List CodeLine) (d : Declaration) (hd : d ∈ (declarations lines).1.entries)
    (hroutine : d.key.scope = .routine) :
    ∃ own around, Scan.lastOf? d.key (Node.blocksOf (blockTree (programRuns lines))) = some (own, around) ∧
      (∀ table, (own.map (Run.statement table), around.map (Frame.map (Run.statement table))) ∈
        Node.blocksOf (Program.ofLines table lines)) ∧
      Scan.declaration? own.header = some { d with closedAt := none } ∧
      (d.isClosed = true ↔ own.terminator.isSome = true) ∧
      d.closedAt = (Scan.outermost? d.key (own :: around)).bind Frame.stop? ∧
      (d.closedAt = own.stop? ↔ ∀ b, Scan.outermost? d.key around = some b → b.stop? = own.stop?) := by
  have hrecords := Scan.records_ofRuns (programRuns lines)
  have hget := hrecords.distinct.get?_of_mem hd
  rw [hrecords.routines d.key hroutine] at hget
  obtain ⟨⟨own, around⟩, hlast, hrecord⟩ := Option.bind_eq_some_iff.1 hget
  obtain ⟨e, hheader, he⟩ := Option.map_eq_some_iff.1 hrecord
  obtain ⟨hmem, hown⟩ := Scan.isOf_of_lastOf? hlast
  have hopen := Scan.open_around_blockTree (programRuns lines) (own, around) hmem
  have hend : d.closedAt = (Scan.outermost? d.key (own :: around)).bind Frame.stop? :=
    (congrArg Declaration.closedAt he).symm
  have hown' := Scan.outermost?_cons hown hopen
  refine ⟨own, around, hlast, fun table => ?_, ?_, ?_, hend, ?_⟩
  · rw [Program.ofLines, Program.ofRuns, Node.blocksOf_mapList]
    exact List.mem_map_of_mem (f := fun p : Frame Run × List (Frame Run) =>
      (p.1.map (Run.statement table), p.2.map (Frame.map (Run.statement table)))) hmem
  · rw [hheader, ← Scan.closedAt_declaration? hheader]
    exact congrArg (fun x : Declaration => some { x with closedAt := e.closedAt }) he
  · rw [Declaration.isClosed, hend, hown']
    cases hout : Scan.outermost? d.key around with
    | none => rw [Option.map_none, Option.getD_none, Frame.stop?, Option.isSome_map]
    | some b =>
      have hb := (List.mem_filter.1 (List.mem_of_getLast? hout))
      have hclosed : b.terminator.isSome = true := (Bool.and_eq_true_iff.1 hb.2).2
      rw [Option.map_some, Option.getD_some, Frame.stop?, Option.isSome_map, hclosed]
      refine iff_of_true rfl ?_
      cases ht : own.terminator with
      | some t => rfl
      | none =>
        rw [hopen ht b hb.1] at hclosed
        cases hclosed
  · rw [hend, hown']
    cases Scan.outermost? d.key around <;> simp

/-- A procedure declared twice, one after the other, and a function in the second. -/
theorem recorded_end_iff_sequence :
    ∃ own around, Scan.lastOf? ⟨.routine, "P".toList⟩ (Node.blocksOf (blockTree (programRuns
        [.ofSource 10 "PROCEDURE P : END PROCEDURE".toList, .ofSource 20 "PROCEDURE p(a) : FUNCTION f".toList,
          .ofSource 30 "END FUNCTION".toList, .ofSource 40 "x = 1 : END PROCEDURE".toList]))) = some (own, around) ∧
      own.header.index = 1 ∧ own.stop? = some ⟨3, 40⟩ := by
  obtain ⟨own, around, hlast, -, hheader, -, -, hown⟩ := recorded_end_iff
    [.ofSource 10 "PROCEDURE P : END PROCEDURE".toList, .ofSource 20 "PROCEDURE p(a) : FUNCTION f".toList,
      .ofSource 30 "END FUNCTION".toList, .ofSource 40 "x = 1 : END PROCEDURE".toList]
    ⟨"p".toList, .routine .procedure, 1, 20, ["a".toList], some ⟨3, 40⟩⟩ (by decide +kernel) rfl
  refine ⟨own, around, hlast, ?_, (hown.2 fun b hb => ?_).symm⟩
  · obtain ⟨kind, -, hd⟩ := Option.bind_eq_some_iff.1 hheader
    obtain ⟨name, -, hd⟩ := Option.map_eq_some_iff.1 hd
    exact congrArg Declaration.index hd
  · have hnone : (Scan.lastOf? ⟨.routine, "P".toList⟩ (Node.blocksOf (blockTree (programRuns
        [.ofSource 10 "PROCEDURE P : END PROCEDURE".toList, .ofSource 20 "PROCEDURE p(a) : FUNCTION f".toList,
          .ofSource 30 "END FUNCTION".toList, .ofSource 40 "x = 1 : END PROCEDURE".toList])))).bind
        (fun p => Scan.outermost? ⟨.routine, "P".toList⟩ p.2) = none := by decide +kernel
    rw [show Scan.lastOf? ⟨.routine, "P".toList⟩ _ = _ from hlast, Option.bind_some] at hnone
    rw [show Scan.outermost? ⟨.routine, "P".toList⟩ around = _ from hb] at hnone
    cases hnone

/-- **The end that is recorded need not be the routine's own**: a procedure that is declared again inside itself is recorded
to end where the outer block does. -/
theorem recorded_end_not_own :
    ¬ ∀ d ∈ (declarations [.ofSource 1 "PROCEDURE P".toList, .ofSource 2 "PROCEDURE P".toList,
          .ofSource 3 "END PROCEDURE".toList, .ofSource 4 "END PROCEDURE".toList]).1.entries, d.key.scope = .routine →
        ∃ own around, Scan.lastOf? d.key (Node.blocksOf (blockTree (programRuns
            [.ofSource 1 "PROCEDURE P".toList, .ofSource 2 "PROCEDURE P".toList, .ofSource 3 "END PROCEDURE".toList,
              .ofSource 4 "END PROCEDURE".toList]))) = some (own, around) ∧
          d.closedAt = own.stop? := by
  intro h
  obtain ⟨own, around, hlast, hend⟩ :=
    h ⟨"P".toList, .routine .procedure, 1, 2, [], some ⟨3, 4⟩⟩ (by decide +kernel) rfl
  have hown : (Scan.lastOf? ⟨.routine, "P".toList⟩ (Node.blocksOf (blockTree (programRuns
      [.ofSource 1 "PROCEDURE P".toList, .ofSource 2 "PROCEDURE P".toList, .ofSource 3 "END PROCEDURE".toList,
        .ofSource 4 "END PROCEDURE".toList])))).bind (fun p => p.1.stop?) = some ⟨2, 3⟩ := by decide +kernel
  rw [show Scan.lastOf? ⟨.routine, "P".toList⟩ _ = _ from hlast, Option.bind_some, ← hend] at hown
  cases hown

end BlockBasic
