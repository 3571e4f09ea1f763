import BlockBasic.Proofs.Declared
import BlockBasic.Reference.Register
import Mathlib.Data.Finset.Card
/-!
# Indexed — the index of a table, and what operations leave in it

The index of a register gives each key the one position that has it (`Indexed`), and declaring and closing keep it so.
Under it they are the operations of a table (`Indexed.table_declare`, `Indexed.table_close`), and what they leave under a
key is read off their sequence: the last declaration made for the key, closed where the last closing after it says
(`Recorded`).  `keeps_after` puts this together for every sequence of operations.
-/
namespace BlockBasic
namespace Register

variable {r : Register} {d e : Declaration} {k l : Key} {stop : BlockEnd}

/-! ## The index -/

def keyAt? (r : Register) (i : Nat) : Option Key := r.declarations[i]?.map Declaration.key

/-- **The index has for each key the position with that key**, and has every position. -/
def Indexed (r : Register) : Prop := ∀ k i, r.index.lookup k = some i ↔ r.keyAt? i = some k

theorem keyAt?_eq_some {i : Nat} : r.keyAt? i = some k ↔ ∃ d, r.declarations[i]? = some d ∧ d.key = k :=
  Option.map_eq_some_iff

theorem Indexed.eq_of_keyAt? (h : r.Indexed) {i j : Nat} (hi : r.keyAt? i = some k) (hj : r.keyAt? j = some k) :
    i = j := by
  have := ((h k i).2 hi).symm.trans ((h k j).2 hj)
  exact Option.some.inj this

theorem Indexed.key_ne (h : r.Indexed) (hk : r.index.lookup k = none) (hd : d ∈ r.declarations) : d.key ≠ k := by
  intro hdk
  obtain ⟨i, hi⟩ := List.mem_iff_getElem?.1 hd
  have := (h k i).2 (keyAt?_eq_some.2 ⟨d, hi, hdk⟩)
  rw [hk] at this
  cases this

theorem Indexed.lookup_ne (h : r.Indexed) {i : Nat} (hi : r.declarations.length ≤ i) : r.index.lookup k ≠ some i := by
  rw [Ne, h k, keyAt?, List.getElem?_eq_none hi]
  simp

theorem Indexed.getElem? (h : r.Indexed) {i : Nat} (hi : r.index.lookup k = some i) :
    ∃ d, r.declarations[i]? = some d ∧ d.key = k := keyAt?_eq_some.1 ((h k i).1 hi)

theorem Indexed.key_iff (h : r.Indexed) {i j : Nat} (hi : r.index.lookup k = some i) (hd : r.declarations[j]? = some d) :
    d.key = k ↔ i = j := by
  constructor
  · exact fun hdk => h.eq_of_keyAt? ((h k i).1 hi) (keyAt?_eq_some.2 ⟨d, hd, hdk⟩)
  · rintro rfl
    obtain ⟨e, he, hek⟩ := h.getElem? hi
    rw [Option.some.inj (hd.symm.trans he)]
    exact hek

theorem Indexed.isSome_iff (h : r.Indexed) : (r.index.lookup k).isSome ↔ ∃ d ∈ r.declarations, d.key = k := by
  constructor
  · intro hk
    obtain ⟨i, hi⟩ := Option.isSome_iff_exists.1 hk
    obtain ⟨d, hd, hdk⟩ := h.getElem? hi
    exact ⟨d, List.mem_of_getElem? hd, hdk⟩
  · rintro ⟨d, hd, hdk⟩
    rw [Option.isSome_iff_ne_none]
    exact fun hk => h.key_ne hk hd hdk

/-! ## What one operation does -/

def atKey (k : Key) (f : Declaration → Declaration) (e : Declaration) : Declaration := if e.key = k then f e else e

theorem Indexed.map_atKey (h : r.Indexed) {i : Nat} (hi : r.index.lookup k = some i) (f : Declaration → Declaration) :
    r.declarations.map (atKey k f) = r.declarations.modify i f := by
  refine List.ext_getElem? fun j => ?_
  rw [List.getElem?_map, List.getElem?_modify]
  cases hj : r.declarations[j]? with
  | none   => rfl
  | some d =>
    rw [Option.map_some, Option.map_eq_map, Option.map_some, atKey, if_congr (h.key_iff hi hj) rfl rfl]

theorem map_atKey_of_ne {f : Declaration → Declaration} {es : List Declaration} (h : ∀ e ∈ es, e.key ≠ k) :
    es.map (atKey k f) = es := by
  refine (List.map_congr_left fun e he => ?_).trans (List.map_id es)
  rw [atKey, if_neg (h e he)]
  rfl

theorem Indexed.declare_eq (h : r.Indexed) (d : Declaration) :
    r.declare d = (r.get? d.key,
      if (r.index.lookup d.key).isSome then { r with declarations := r.declarations.map (atKey d.key (fun _ => d)) }
      else ⟨r.declarations ++ [d], (d.key, r.declarations.length) :: r.index⟩) := by
  rw [declare, get?]
  cases hi : r.index.lookup d.key with
  | none   => rfl
  | some i => rw [h.map_atKey hi, ← List.set_eq_modify]; rfl

theorem Indexed.close_eq (h : r.Indexed) (k : Key) (stop : BlockEnd) :
    r.close k stop = ((r.index.lookup k).isSome, { r with declarations := r.declarations.map (atKey k (closing stop)) }) := by
  rw [close]
  cases hi : r.index.lookup k with
  | none   => rw [map_atKey_of_ne fun e he => h.key_ne hi he]; rfl
  | some i => rw [h.map_atKey hi]; rfl

/-! ## The index under operations -/

theorem map_key_map_atKey {f : Declaration → Declaration} (hf : ∀ e : Declaration, e.key = k → (f e).key = k)
    (es : List Declaration) : (es.map (atKey k f)).map Declaration.key = es.map Declaration.key := by
  rw [List.map_map]
  refine List.map_congr_left fun e _ => ?_
  rw [Function.comp_apply, atKey]
  by_cases he : e.key = k
  · rw [if_pos he, hf e he, he]
  · rw [if_neg he]

theorem keyAt?_map_atKey {f : Declaration → Declaration} (hf : ∀ e : Declaration, e.key = k → (f e).key = k) (i : Nat) :
    keyAt? { r with declarations := r.declarations.map (atKey k f) } i = r.keyAt? i := by
  rw [keyAt?, ← List.getElem?_map, map_key_map_atKey hf, List.getElem?_map, keyAt?]

theorem Indexed.map_declarations (h : r.Indexed) {f : Declaration → Declaration}
    (hf : ∀ e : Declaration, e.key = k → (f e).key = k) :
    Indexed { r with declarations := r.declarations.map (atKey k f) } := by
  intro l i
  rw [keyAt?_map_atKey hf]
  exact h l i

theorem lookup_cons (k l : Key) (i : Nat) (ps : List (Key × Nat)) :
    List.lookup l ((k, i) :: ps) = if k = l then some i else ps.lookup l := by
  rw [List.lookup_cons]
  by_cases hk : k = l
  · rw [if_pos hk, beq_iff_eq.2 hk.symm]
  · rw [if_neg hk, beq_eq_false_iff_ne.2 (Ne.symm hk)]

theorem Indexed.push (h : r.Indexed) (hd : r.index.lookup d.key = none) :
    Indexed ⟨r.declarations ++ [d], (d.key, r.declarations.length) :: r.index⟩ := by
  intro k i
  rw [lookup_cons, keyAt?]
  rcases Nat.lt_trichotomy i r.declarations.length with hi | rfl | hi
  · -- An old position has its old key, which is not the new one.
    rw [List.getElem?_append_left hi, ← keyAt?, ← h k i]
    by_cases hk : d.key = k
    · subst hk
      simp [hd, Nat.ne_of_gt hi]
    · simp [hk]
  · rw [List.getElem?_append_right (Nat.le_refl _), Nat.sub_self]
    by_cases hk : d.key = k <;> simp [hk, h.lookup_ne (Nat.le_refl _)]
  · rw [List.getElem?_eq_none (by simp; omega)]
    by_cases hk : d.key = k <;> simp [hk, h.lookup_ne (Nat.le_of_lt hi), Nat.ne_of_lt hi]

theorem Indexed.declare (h : r.Indexed) (d : Declaration) : (r.declare d).2.Indexed := by
  rw [h.declare_eq]
  by_cases hd : (r.index.lookup d.key).isSome
  · rw [if_pos hd]
    exact h.map_declarations fun _ _ => rfl
  · rw [if_neg hd]
    exact h.push (Option.not_isSome_iff_eq_none.1 hd)

theorem Indexed.close (h : r.Indexed) (k : Key) (stop : BlockEnd) : (r.close k stop).2.Indexed := by
  rw [h.close_eq]
  exact h.map_declarations fun _ he => he

theorem Indexed.apply (h : r.Indexed) : ∀ o : Operation, (r.apply o).Indexed
  | .declare d    => h.declare d
  | .close k stop => h.close k stop

theorem indexed_empty : Indexed {} := by
  intro k i
  simp [keyAt?]

theorem after_append_singleton (os : List Operation) (o : Operation) : after (os ++ [o]) = (after os).apply o := by
  rw [after, List.foldl_append]
  rfl

/-- **Every sequence of operations leaves the index right.** -/
theorem indexed_after (os : List Operation) : (after os).Indexed := by
  induction os using List.reverseRecOn with
  | nil            => exact indexed_empty
  | append_singleton os o ih =>
    rw [after_append_singleton]
    exact ih.apply o

/-! ## The table under the index -/

theorem Indexed.nodup (h : r.Indexed) : (r.declarations.map Declaration.key).Nodup := by
  rw [List.nodup_iff_getElem?_ne_getElem?]
  intro i j hij hj heq
  rw [List.length_map] at hj
  rw [List.getElem?_map, List.getElem?_map] at heq
  have hk : r.keyAt? j = some r.declarations[j].key := keyAt?_eq_some.2 ⟨_, List.getElem?_eq_getElem hj, rfl⟩
  exact absurd (h.eq_of_keyAt? (heq.trans hk) hk) (Nat.ne_of_lt hij)

theorem Indexed.distinct (h : r.Indexed) : r.table.Distinct := h.nodup

/-- **A declaration is found under its key**, and no other is. -/
theorem Indexed.get?_eq_some (h : r.Indexed) : r.get? k = some d ↔ d ∈ r.declarations ∧ d.key = k := by
  rw [get?, Option.bind_eq_some_iff]
  constructor
  · rintro ⟨i, hi, hd⟩
    exact ⟨List.mem_of_getElem? hd, (h.key_iff hi hd).2 rfl⟩
  · rintro ⟨hd, hk⟩
    obtain ⟨i, hi⟩ := List.mem_iff_getElem?.1 hd
    exact ⟨i, (h k i).2 (keyAt?_eq_some.2 ⟨d, hi, hk⟩), hi⟩

theorem Indexed.get?_eq (h : r.Indexed) (k : Key) : r.get? k = r.table.get? k := by
  refine Option.ext fun d => ?_
  rw [h.get?_eq_some]
  constructor
  · rintro ⟨hd, rfl⟩
    exact h.distinct.get?_of_mem hd
  · exact fun hd => ⟨List.mem_of_find?_eq_some hd, Table.key_of_get? hd⟩

theorem Indexed.isSome_iff_mem_keys (h : r.Indexed) : (r.index.lookup k).isSome ↔ k ∈ r.declarations.map Declaration.key := by
  rw [h.isSome_iff, List.mem_map]

theorem key_ne_of_not_mem {es : List Declaration} (hk : k ∉ es.map Declaration.key) : ∀ e ∈ es, e.key ≠ k :=
  fun e he hek => hk (List.mem_map.2 ⟨e, he, hek⟩)

theorem put_eq (d : Declaration) : ∀ {es : List Declaration}, (es.map Declaration.key).Nodup →
    Table.put d es = if d.key ∈ es.map Declaration.key then es.map (atKey d.key (fun _ => d)) else es ++ [d]
  | [], _ => rfl
  | e :: es, h => by
    obtain ⟨he, hes⟩ := List.nodup_cons.1 h
    rw [Table.put, List.map_cons, List.map_cons, atKey]
    by_cases hed : e.key = d.key
    · -- The key is found here, and nowhere further on.
      rw [if_pos hed, if_pos hed, if_pos (hed ▸ List.mem_cons_self),
        map_atKey_of_ne (key_ne_of_not_mem (hed ▸ he))]
    · rw [if_neg hed, if_neg hed, put_eq d hes]
      have hmem : d.key ∈ e.key :: es.map Declaration.key ↔ d.key ∈ es.map Declaration.key := by
        rw [List.mem_cons, or_iff_right (Ne.symm hed)]
      by_cases hd : d.key ∈ es.map Declaration.key
      · rw [if_pos hd, if_pos (hmem.2 hd)]
      · rw [if_neg hd, if_neg (fun hm => hd (hmem.1 hm)), List.cons_append]

theorem putEnd_eq (k : Key) (stop : BlockEnd) : ∀ {es : List Declaration}, (es.map Declaration.key).Nodup →
    Table.putEnd k stop es = es.map (atKey k (closing stop))
  | [], _ => rfl
  | e :: es, h => by
    obtain ⟨he, hes⟩ := List.nodup_cons.1 h
    rw [Table.putEnd, List.map_cons, atKey]
    by_cases hek : e.key = k
    · rw [if_pos hek, if_pos hek, map_atKey_of_ne (key_ne_of_not_mem (hek ▸ he))]
      rfl
    · rw [if_neg hek, if_neg hek, putEnd_eq k stop hes]

theorem Indexed.table_declare (h : r.Indexed) (d : Declaration) : (r.declare d).2.table = r.table.declare d := by
  rw [h.declare_eq, Table.declare, table, table, put_eq d h.nodup]
  by_cases hd : (r.index.lookup d.key).isSome
  · rw [if_pos hd, if_pos (h.isSome_iff_mem_keys.1 hd)]
  · rw [if_neg hd, if_neg (fun hm => hd (h.isSome_iff_mem_keys.2 hm))]

theorem Indexed.table_close (h : r.Indexed) (k : Key) (stop : BlockEnd) :
    (r.close k stop).2.table = r.table.close k stop := by
  rw [h.close_eq, Table.close, table, table, putEnd_eq k stop h.nodup]

def Operation.onTable (t : Table) : Operation → Table
  | .declare d    => t.declare d
  | .close k stop => t.close k stop

theorem Indexed.table_apply (h : r.Indexed) : ∀ o : Operation, (r.apply o).table = o.onTable r.table
  | .declare d    => h.table_declare d
  | .close k stop => h.table_close k stop

theorem table_after (os : List Operation) : (after os).table = os.foldl Operation.onTable Table.empty := by
  induction os using List.reverseRecOn with
  | nil => rfl
  | append_singleton os o ih =>
    rw [after_append_singleton, (indexed_after os).table_apply, List.foldl_append, ih]
    rfl

/-! ## What operations leave under a key -/

def Operation.declared? : Operation → Option Key
  | .declare d => some d.key
  | .close _ _ => none

def Operation.stop? (k : Key) : Operation → Option BlockEnd
  | .declare _    => none
  | .close l stop => if l = k then some stop else none

/-- The end that operations set last under a key. -/
def lastStop? (k : Key) (os : List Operation) : Option BlockEnd := (os.filterMap (Operation.stop? k)).getLast?

/-- **What operations leave under a key**: the last declaration made for it, closed where the last closing after that
says. -/
def Recorded (os : List Operation) (k : Key) (d : Declaration) : Prop :=
  ∃ before made later, os = before ++ Operation.declare made :: later ∧ made.key = k ∧
    (∀ o ∈ later, o.declared? ≠ some k) ∧ d = { made with closedAt := (lastStop? k later).or made.closedAt }

variable {os : List Operation}

theorem lastStop?_append_singleton (k : Key) (os : List Operation) (o : Operation) :
    lastStop? k (os ++ [o]) = (o.stop? k).or (lastStop? k os) := by
  rw [lastStop?, List.filterMap_append, List.getLast?_append, List.filterMap_cons]
  cases o.stop? k <;> rfl

theorem append_singleton_eq_append_cons {before later : List Operation} {o x : Operation} :
    os ++ [o] = before ++ x :: later ↔
      (later = [] ∧ os = before ∧ o = x) ∨ ∃ tail, later = tail ++ [o] ∧ os = before ++ x :: tail := by
  constructor
  · intro h
    rcases List.eq_nil_or_concat' later with rfl | ⟨tail, y, rfl⟩
    · obtain ⟨hos, ho⟩ := List.append_inj' h rfl
      exact .inl ⟨rfl, hos, List.singleton_inj.1 ho⟩
    · rw [← List.cons_append, ← List.append_assoc] at h
      obtain ⟨hos, ho⟩ := List.append_inj' h rfl
      exact .inr ⟨tail, by rw [List.singleton_inj.1 ho], hos⟩
  · rintro (⟨rfl, rfl, rfl⟩ | ⟨tail, rfl, rfl⟩)
    · rfl
    · rw [List.append_assoc, List.cons_append]

/-- **One more operation** puts its own declaration under the key, or leaves the one that is there, with another end if
it sets one. -/
theorem recorded_append_singleton {o : Operation} :
    Recorded (os ++ [o]) k d ↔ (o = .declare d ∧ d.key = k) ∨
      (o.declared? ≠ some k ∧ ∃ e, Recorded os k e ∧ d = { e with closedAt := (o.stop? k).or e.closedAt }) := by
  constructor
  · rintro ⟨before, made, later, hsplit, hk, hlater, rfl⟩
    rcases append_singleton_eq_append_cons.1 hsplit with ⟨rfl, -, rfl⟩ | ⟨tail, rfl, hos⟩
    · exact .inl ⟨rfl, hk⟩
    · refine .inr ⟨hlater o (by simp), _, ⟨before, made, tail, hos, hk, ?_, rfl⟩, ?_⟩
      · exact fun p hp => hlater p (List.mem_append_left _ hp)
      · rw [lastStop?_append_singleton, Option.or_assoc]
  · rintro (⟨rfl, hk⟩ | ⟨ho, e, ⟨before, made, tail, hos, hk, htail, rfl⟩, rfl⟩)
    · exact ⟨os, d, [], rfl, hk, fun _ h => absurd h List.not_mem_nil, rfl⟩
    · refine ⟨before, made, tail ++ [o], append_singleton_eq_append_cons.2 (.inr ⟨tail, rfl, hos⟩), hk, ?_, ?_⟩
      · intro p hp
        rcases List.mem_append.1 hp with hp | hp
        · exact htail p hp
        · rw [List.mem_singleton.1 hp]
          exact ho
      · rw [lastStop?_append_singleton, Option.or_assoc]

theorem Indexed.get?_apply (h : r.Indexed) (o : Operation) :
    (r.apply o).get? k = some d ↔ (o = .declare d ∧ d.key = k) ∨
      (o.declared? ≠ some k ∧ ∃ e, r.get? k = some e ∧ d = { e with closedAt := (o.stop? k).or e.closedAt }) := by
  rw [(h.apply o).get?_eq, h.table_apply, h.get?_eq]
  cases o with
  | declare e =>
    rw [Operation.onTable, Table.get?_declare]
    by_cases hk : e.key = k
    · rw [if_pos hk]
      constructor
      · rintro ⟨⟩
        exact .inl ⟨rfl, hk⟩
      · rintro (⟨⟨⟩, -⟩ | ⟨hne, -⟩)
        · rfl
        · exact absurd (congrArg some hk) hne
    · rw [if_neg hk]
      constructor
      · exact fun hd => .inr ⟨fun he => hk (Option.some.inj he), d, hd, rfl⟩
      · rintro (⟨⟨⟩, hd⟩ | ⟨-, c, hc, rfl⟩)
        · exact absurd hd hk
        · exact hc
  | close l stop =>
    rw [Operation.onTable, Table.get?_close]
    by_cases hk : l = k <;> simp [hk, Operation.declared?, Operation.stop?, eq_comm]

/-- **A register has under a key what its operations left there.** -/
theorem get?_after (os : List Operation) (k : Key) : ∀ d, (after os).get? k = some d ↔ Recorded os k d := by
  induction os using List.reverseRecOn with
  | nil =>
    intro d
    rw [(indexed_after []).get?_eq_some]
    constructor
    · exact fun hd => absurd hd.1 List.not_mem_nil
    · rintro ⟨before, made, later, h, -⟩
      simp at h
  | append_singleton os o ih =>
    intro d
    rw [after_append_singleton, (indexed_after os).get?_apply, recorded_append_singleton]
    simp only [ih]

/-! ## The declarations in their order -/

def declaredKeys (os : List Operation) : List Key := os.filterMap Operation.declared?

theorem declaredKeys_append_singleton (os : List Operation) (o : Operation) :
    declaredKeys (os ++ [o]) = declaredKeys os ++ o.declared?.toList := by
  rw [declaredKeys, List.filterMap_append, List.filterMap_cons]
  cases o.declared? <;> rfl

theorem eraseDups_append_singleton (ks : List Key) (k : Key) :
    (ks ++ [k]).eraseDups = if k ∈ ks then ks.eraseDups else ks.eraseDups ++ [k] := by
  rw [List.eraseDups_append]
  by_cases hk : k ∈ ks <;> simp [hk, List.removeAll, List.eraseDups_cons]

/-- **The keys stand in the order in which they were first declared.** -/
theorem map_key_after (os : List Operation) :
    (after os).declarations.map Declaration.key = (declaredKeys os).eraseDups := by
  induction os using List.reverseRecOn with
  | nil => rfl
  | append_singleton os o ih =>
    rw [after_append_singleton, declaredKeys_append_singleton]
    cases o with
    | declare d =>
      rw [apply, (indexed_after os).declare_eq, Operation.declared?, Option.toList_some, eraseDups_append_singleton,
        ← ih]
      have hmem : ((after os).index.lookup d.key).isSome ↔ d.key ∈ declaredKeys os := by
        rw [(indexed_after os).isSome_iff_mem_keys, ih, List.mem_eraseDups]
      by_cases hd : ((after os).index.lookup d.key).isSome
      · rw [if_pos hd, if_pos (hmem.1 hd), map_key_map_atKey fun _ _ => rfl]
      · rw [if_neg hd, if_neg (fun hm => hd (hmem.2 hm)), List.map_append]
        rfl
    | close k stop =>
      rw [apply, (indexed_after os).close_eq, Operation.declared?, Option.toList_none, List.append_nil, ← ih]
      exact map_key_map_atKey (f := closing stop) (fun _ he => he) _

/-- **There are as many declarations as keys that were declared.** -/
theorem size_after (os : List Operation) : (after os).size = (declaredKeys os).toFinset.card := by
  have hset : (declaredKeys os).toFinset = ((after os).declarations.map Declaration.key).toFinset := by
    ext k
    rw [map_key_after, List.mem_toFinset, List.mem_toFinset, List.mem_eraseDups]
  rw [hset, List.toFinset_card_of_nodup (indexed_after os).nodup, List.length_map]
  rfl

theorem Indexed.get?_eq_none (h : r.Indexed) : r.get? k = none ↔ ∀ d ∈ r.declarations, d.key ≠ k := by
  rw [Option.eq_none_iff_forall_not_mem]
  exact ⟨fun hk d hd hdk => hk d (h.get?_eq_some.2 ⟨hd, hdk⟩), fun hk d hd => hk d (h.get?_eq_some.1 hd).1
    (h.get?_eq_some.1 hd).2⟩

theorem Indexed.isSome_get? (h : r.Indexed) : (r.get? k).isSome ↔ (r.index.lookup k).isSome := by
  rw [h.isSome_iff, Option.isSome_iff_exists]
  exact exists_congr fun d => h.get?_eq_some

/-- **A name refers to the routine of that name**, or to the variable of that name when there is no such routine. -/
theorem Indexed.lookup_eq_some (h : r.Indexed) {name : Text} :
    r.lookup name = some d ↔ d ∈ r.declarations ∧ Text.alike d.name name = true ∧
      ((∃ e ∈ r.declarations, e.kind.scope = .routine ∧ Text.alike e.name name = true) → d.kind.scope = .routine) := by
  rw [lookup, Option.or_eq_some_iff, h.get?_eq_some, h.get?_eq_none, h.get?_eq_some, Table.key_eq_ofName_iff,
    Table.key_eq_ofName_iff]
  constructor
  · rintro (⟨hd, hscope, hname⟩ | ⟨hnone, hd, -, hname⟩)
    · exact ⟨hd, hname, fun _ => hscope⟩
    · refine ⟨hd, hname, ?_⟩
      rintro ⟨e, he, hroutine⟩
      exact absurd (Table.key_eq_ofName_iff.2 hroutine) (hnone e he)
  · rintro ⟨hd, hname, hfirst⟩
    cases hscope : d.kind.scope with
    | routine   => exact .inl ⟨hd, rfl, hname⟩
    | variable_ =>
      refine .inr ⟨fun e he hk => ?_, hd, rfl, hname⟩
      have := hscope.symm.trans (hfirst ⟨e, he, Table.key_eq_ofName_iff.1 hk⟩)
      cases this

/-! ## All together -/

/-- **What a register is after operations**: the map from keys to declarations that the operations describe, in the order
of first declaration. -/
structure Keeps (os : List Operation) (r : Register) : Prop where
  /-- The index has for each key the one position that has it, and has every position. -/
  index : ∀ k i, r.index.lookup k = some i ↔ ∃ d : Declaration, r.declarations[i]? = some d ∧ d.key = k
  /-- The keys stand in the order of their first declarations. -/
  order : r.declarations.map Declaration.key = (declaredKeys os).eraseDups
  size  : r.size = (declaredKeys os).toFinset.card
  /-- Under a key is what the operations left there. -/
  get?  : ∀ k d, r.get? k = some d ↔ Recorded os k d
  /-- Declaring gives back what was under the key, -/
  given : ∀ d : Declaration, (r.declare d).1 = r.get? d.key
  /-- puts the declaration in the place of that, -/
  place : ∀ d : Declaration, (r.get? d.key).isSome → (r.declare d).2 =
    { r with declarations := r.declarations.map (fun e => if e.key = d.key then d else e) }
  /-- or at the end when there was nothing. -/
  last  : ∀ d : Declaration, r.get? d.key = none → (r.declare d).2.declarations = r.declarations ++ [d]
  /-- Closing says whether there is something under the key, -/
  told  : ∀ k stop, (r.close k stop).1 = true ↔ ∃ d ∈ r.declarations, d.key = k
  /-- and sets the end of that, and nothing else. -/
  close : ∀ k stop, (r.close k stop).2 =
    { r with declarations := r.declarations.map (fun e => if e.key = k then { e with closedAt := some stop } else e) }
  /-- A name refers to a declaration of that name, a routine if there is one. -/
  lookup : ∀ name d, r.lookup name = some d ↔ d ∈ r.declarations ∧ Text.alike d.name name = true ∧
    ((∃ e ∈ r.declarations, e.kind.scope = .routine ∧ Text.alike e.name name = true) → d.kind.scope = .routine)
  /-- The declarations are those of the table that searches them. -/
  table : r.table = os.foldl Operation.onTable Table.empty

/-- **A register is the map that its operations describe**, whatever they are. -/
theorem keeps_after (os : List Operation) : Keeps os (after os) where
  index k i := (indexed_after os k i).trans keyAt?_eq_some
  order := map_key_after os
  size := size_after os
  get? := get?_after os
  given d := by rw [(indexed_after os).declare_eq]
  place d hd := by
    rw [(indexed_after os).declare_eq, if_pos ((indexed_after os).isSome_get?.1 hd)]
    rfl
  last d hd := by
    have hnone : ¬ ((after os).index.lookup d.key).isSome := by
      rw [← (indexed_after os).isSome_get?, hd]
      exact Bool.false_ne_true
    rw [(indexed_after os).declare_eq, if_neg hnone]
  told k stop := by rw [(indexed_after os).close_eq, (indexed_after os).isSome_iff]
  close k stop := by
    rw [(indexed_after os).close_eq]
    rfl
  lookup name d := (indexed_after os).lookup_eq_some
  table := table_after os

end Register
end BlockBasic
