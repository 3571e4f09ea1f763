import BlockBasic.Reference.Table
/-!
# Keys — a table as a map from keys

Under a key a table holds what was declared there last, with the end that was set there last; nothing that is done under
one key shows under another (`get?_declare`, `get?_close`).  No key is in a table twice, so each declaration is found
under its own (`Distinct.get?_of_mem`).
-/
namespace BlockBasic
namespace Table

/-! ## Under one key -/

def first? (k : Key) (es : List Declaration) : Option Declaration := es.find? (fun e => e.key == k)

theorem first?_cons (k : Key) (e : Declaration) (es : List Declaration) :
    first? k (e :: es) = if e.key = k then some e else first? k es := by
  rw [first?, List.find?_cons]
  by_cases h : e.key = k
  · rw [if_pos h, beq_iff_eq.2 h]
  · rw [if_neg h, beq_eq_false_iff_ne.2 h]
    rfl

theorem first?_put (d : Declaration) (k : Key) : ∀ (es : List Declaration),
    first? k (put d es) = if d.key = k then some d else first? k es
  | [] => by
    rw [put, first?_cons]
  | e :: es => by
    rw [put]
    by_cases he : e.key = d.key
    · rw [if_pos he, first?_cons, first?_cons, he]
      split <;> rfl
    · rw [if_neg he, first?_cons, first?_cons, first?_put d k es]
      by_cases hek : e.key = k
      · rw [if_pos hek, if_pos hek, if_neg (fun h => he (hek.trans h.symm))]
      · rw [if_neg hek, if_neg hek]

theorem get?_declare (t : Table) (d : Declaration) (k : Key) :
    (t.declare d).get? k = if d.key = k then some d else t.get? k := first?_put d k t.entries

theorem first?_putEnd (l k : Key) (stop : BlockEnd) : ∀ (es : List Declaration),
    first? k (putEnd l stop es) =
      if l = k then (first? k es).map (fun e => { e with closedAt := some stop }) else first? k es
  | [] => by
    rw [putEnd]
    split <;> rfl
  | e :: es => by
    rw [putEnd]
    by_cases hel : e.key = l
    · rw [if_pos hel, first?_cons, first?_cons, show Declaration.key { e with closedAt := some stop } = e.key from rfl,
        hel]
      split <;> rfl
    · rw [if_neg hel, first?_cons, first?_cons, first?_putEnd l k stop es]
      by_cases hek : e.key = k
      · rw [if_pos hek, if_pos hek, if_neg (fun h => hel (hek.trans h.symm))]
      · rw [if_neg hek, if_neg hek]

theorem get?_close (t : Table) (l k : Key) (stop : BlockEnd) :
    (t.close l stop).get? k =
      if l = k then (t.get? k).map (fun e => { e with closedAt := some stop }) else t.get? k :=
  first?_putEnd l k stop t.entries

/-! ## All keys -/

def Distinct (t : Table) : Prop := (t.entries.map Declaration.key).Nodup

theorem mem_put {d e : Declaration} : ∀ {es : List Declaration}, e ∈ put d es → e = d ∨ e ∈ es
  | [], h => .inl (List.mem_singleton.1 h)
  | a :: es, h => by
    rw [put] at h
    split at h
    · exact (List.mem_cons.1 h).imp_right (List.mem_cons_of_mem a)
    · rcases List.mem_cons.1 h with rfl | h
      · exact .inr List.mem_cons_self
      · exact (mem_put h).imp_right (List.mem_cons_of_mem a)

theorem map_key_put (d : Declaration) : ∀ (es : List Declaration), (put d es).map Declaration.key =
    if d.key ∈ es.map Declaration.key then es.map Declaration.key else es.map Declaration.key ++ [d.key]
  | []      => rfl
  | e :: es => by
    rw [put]
    by_cases he : e.key = d.key
    · rw [if_pos he, List.map_cons, List.map_cons, he, if_pos List.mem_cons_self]
    · have hmem : d.key ∈ e.key :: es.map Declaration.key ↔ d.key ∈ es.map Declaration.key :=
        List.mem_cons.trans (or_iff_right (Ne.symm he))
      rw [if_neg he, List.map_cons, map_key_put d es, List.map_cons]
      by_cases hd : d.key ∈ es.map Declaration.key
      · rw [if_pos hd, if_pos (hmem.2 hd)]
      · rw [if_neg hd, if_neg (mt hmem.1 hd), List.cons_append]

theorem nodup_put {d : Declaration} {es : List Declaration} (h : (es.map Declaration.key).Nodup) :
    ((put d es).map Declaration.key).Nodup := by
  rw [map_key_put]
  split
  · exact h
  · rename_i hnew
    refine List.nodup_append.2 ⟨h, List.nodup_cons.2 ⟨List.not_mem_nil, List.nodup_nil⟩, fun k hk l hl heq => hnew ?_⟩
    rw [← List.mem_singleton.1 hl, ← heq]
    exact hk

theorem map_key_putEnd (k : Key) (stop : BlockEnd) : ∀ (es : List Declaration),
    (putEnd k stop es).map Declaration.key = es.map Declaration.key
  | [] => rfl
  | e :: es => by
    rw [putEnd]
    split
    · rfl
    · rw [List.map_cons, List.map_cons, map_key_putEnd k stop es]

theorem mem_putEnd {k : Key} {stop : BlockEnd} {e : Declaration} : ∀ {es : List Declaration}, e ∈ putEnd k stop es →
    ∃ d ∈ es, e = d ∨ e = { d with closedAt := some stop }
  | a :: es, h => by
    rw [putEnd] at h
    split at h
    · rcases List.mem_cons.1 h with rfl | h
      · exact ⟨a, List.mem_cons_self, .inr rfl⟩
      · exact ⟨e, List.mem_cons_of_mem a h, .inl rfl⟩
    · rcases List.mem_cons.1 h with rfl | h
      · exact ⟨e, List.mem_cons_self, .inl rfl⟩
      · obtain ⟨d, hd, he⟩ := mem_putEnd h
        exact ⟨d, List.mem_cons_of_mem a hd, he⟩

theorem Distinct.declare {t : Table} (h : t.Distinct) (d : Declaration) : (t.declare d).Distinct := nodup_put h

theorem Distinct.close {t : Table} (h : t.Distinct) (k : Key) (stop : BlockEnd) : (t.close k stop).Distinct := by
  rw [Distinct, Table.close, map_key_putEnd]
  exact h

theorem first?_of_mem {d : Declaration} : ∀ {es : List Declaration}, (es.map Declaration.key).Nodup → d ∈ es →
    first? d.key es = some d
  | [], _, hd => absurd hd List.not_mem_nil
  | e :: es, h, hd => by
    obtain ⟨he, hes⟩ := List.nodup_cons.1 h
    rw [first?_cons]
    rcases List.mem_cons.1 hd with rfl | hd
    · rw [if_pos rfl]
    · have hne : e.key ≠ d.key := fun hk => he (by rw [hk]; exact List.mem_map_of_mem hd)
      rw [if_neg hne, first?_of_mem hes hd]

theorem Distinct.get?_of_mem {t : Table} (h : t.Distinct) {d : Declaration} (hd : d ∈ t.entries) :
    t.get? d.key = some d := first?_of_mem h hd

end Table
end BlockBasic
