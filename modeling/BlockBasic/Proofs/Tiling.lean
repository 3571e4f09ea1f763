import BlockBasic.Proofs.Places
/-!
# Tiling — columns that share tokens out among them

Columns are in order if each is one character wide at least and none begins before the one before it stops.  The tokens of a
line are in order, and columns that span stretches of such tokens, one stretch after the other, are in order too
(`Tiles.inOrder`), and hold each of the tokens once (`Tiles.countP_holds`).  What a column holds is what it spans
(`filter_holds`).
-/
namespace BlockBasic

namespace Column

def holds (c : Column) (t : Token) : Bool := decide (c.start ≤ t.column.start) && decide (t.column.stop ≤ c.stop)

theorem holds_iff {c : Column} {t : Token} : c.holds t = true ↔ c.start ≤ t.column.start ∧ t.column.stop ≤ c.stop := by
  rw [holds, Bool.and_eq_true, decide_eq_true_eq, decide_eq_true_eq]

/-- **Columns in order**: each wider than nothing, and none begins before the one before it stops. -/
structure InOrder (cs : List Column) : Prop where
  wide  : ∀ c ∈ cs, c.start < c.stop
  apart : cs.Pairwise (fun c d => c.stop ≤ d.start)

theorem InOrder.sublist {cs ds : List Column} (h : InOrder ds) (hs : cs.Sublist ds) : InOrder cs :=
  ⟨fun c hc => h.wide c (hs.subset hc), h.apart.sublist hs⟩

theorem inOrder_append {cs ds : List Column} : InOrder (cs ++ ds) ↔
    InOrder cs ∧ InOrder ds ∧ ∀ c ∈ cs, ∀ d ∈ ds, c.stop ≤ d.start := by
  constructor
  · intro h
    obtain ⟨hcs, hds, hbetween⟩ := List.pairwise_append.1 h.apart
    exact ⟨⟨fun c hc => h.wide c (List.mem_append_left _ hc), hcs⟩,
      ⟨fun d hd => h.wide d (List.mem_append_right _ hd), hds⟩, hbetween⟩
  · rintro ⟨hcs, hds, hbetween⟩
    exact ⟨fun c hc => (List.mem_append.1 hc).elim (hcs.wide c) (hds.wide c),
      List.pairwise_append.2 ⟨hcs.apart, hds.apart, hbetween⟩⟩

theorem InOrder.narrow {cs ds : List Column} {start short stop : Nat} (h : InOrder (cs ++ ⟨start, stop⟩ :: ds))
    (hwide : start < short) (hshort : short ≤ stop) : InOrder (cs ++ ⟨start, short⟩ :: ds) := by
  obtain ⟨hcs, hds, hbetween⟩ := inOrder_append.1 h
  refine inOrder_append.2 ⟨hcs, ⟨?_, ?_⟩, ?_⟩
  · exact List.forall_mem_cons.2 ⟨hwide, fun d hd => hds.wide d (List.mem_cons_of_mem _ hd)⟩
  · obtain ⟨hhead, htail⟩ := List.pairwise_cons.1 hds.apart
    exact List.pairwise_cons.2 ⟨fun d hd => Nat.le_trans hshort (hhead d hd), htail⟩
  · intro c hc
    exact List.forall_mem_cons.2 ⟨hbetween c hc ⟨start, stop⟩ List.mem_cons_self,
      fun d hd => hbetween c hc d (List.mem_cons_of_mem _ hd)⟩

theorem InOrder.stretch {cs : List Column} {start stop long : Nat} (h : InOrder (cs ++ [⟨start, stop⟩]))
    (hlong : stop ≤ long) : InOrder (cs ++ [⟨start, long⟩]) := by
  obtain ⟨hcs, hlast, hbetween⟩ := inOrder_append.1 h
  refine inOrder_append.2 ⟨hcs, ⟨?_, List.pairwise_singleton _ _⟩, ?_⟩
  · exact List.forall_mem_singleton.2 (Nat.lt_of_lt_of_le (hlast.wide ⟨start, stop⟩ List.mem_cons_self) hlong)
  · exact fun c hc => List.forall_mem_singleton.2 (hbetween c hc ⟨start, stop⟩ List.mem_cons_self)

theorem InOrder.countP_holds_le {t : Token} (ht : t.column.start < t.column.stop) : ∀ {cs : List Column}, InOrder cs →
    cs.countP (·.holds t) ≤ 1
  | [], _ => Nat.zero_le 1
  | c :: cs, h => by
    have hcs : InOrder cs := h.sublist (List.sublist_cons_self c cs)
    rw [List.countP_cons]
    by_cases hc : c.holds t = true
    · -- The columns after this one begin where the token has begun already.
      have hnone : cs.countP (·.holds t) = 0 := by
        refine List.countP_eq_zero.2 fun d hd hdt => ?_
        have := List.rel_of_pairwise_cons h.apart hd
        rw [holds_iff] at hc hdt
        omega
      exact Nat.le_of_eq (by rw [hnone, if_pos hc])
    · rw [if_neg hc]
      exact hcs.countP_holds_le ht

theorem InOrder.countP_holds_eq_one {cs : List Column} (h : InOrder cs) {t : Token}
    (ht : t.column.start < t.column.stop) (hmem : ∃ c ∈ cs, c.holds t = true) : cs.countP (·.holds t) = 1 :=
  Nat.le_antisymm (h.countP_holds_le ht) (List.countP_pos_iff.2 hmem)

end Column

open Column (InOrder inOrder_append holds_iff)

def Token.columns (ts : List Token) : List Column := ts.map Token.column

theorem Token.columns_append (ts us : List Token) : columns (ts ++ us) = columns ts ++ columns us := List.map_append

theorem Token.inOrder_append {ts us : List Token} : InOrder (columns (ts ++ us)) ↔
    InOrder (columns ts) ∧ InOrder (columns us) ∧ ∀ t ∈ ts, ∀ u ∈ us, t.column.stop ≤ u.column.start := by
  rw [columns_append, Column.inOrder_append, columns, columns, List.forall_mem_map]
  simp only [List.forall_mem_map]

theorem Token.inOrder_sublist {ts us : List Token} (h : InOrder (columns us)) (hs : ts.Sublist us) :
    InOrder (columns ts) := h.sublist (hs.map Token.column)

theorem Token.wide_of_mem {ts : List Token} (h : InOrder (columns ts)) {t : Token} (ht : t ∈ ts) :
    t.column.start < t.column.stop := h.wide _ (List.mem_map_of_mem ht)

theorem inOrder_tokenize (text : Text) : InOrder (Token.columns (tokenize text)) := by
  have hspelled := Lexer.spelled_scan text.chomp 0
  refine ⟨?_, ?_⟩
  · intro c hc
    obtain ⟨t, ht, rfl⟩ := List.mem_map.1 hc
    exact (hspelled.bounds t ht).2.1
  · exact List.pairwise_map.2 (hspelled.ordered.imp And.right)

theorem inOrder_of_mem_runs {number : Nat} {text : Text} {tokens : List Token}
    (h : tokens ∈ (CodeLine.ofSource number text).runs) : InOrder (Token.columns tokens) :=
  Token.inOrder_sublist (inOrder_tokenize text) (CodeLine.sublist_of_mem_runs h)

/-! ## What one column spans -/

namespace Column.Spans

variable {c : Column} {ts : List Token}

theorem ne_nil (h : c.Spans ts) : ts ≠ [] := by
  obtain ⟨t, u, ht, -, -⟩ := h
  rintro rfl
  cases ht

theorem holds_of_mem (h : c.Spans ts) (horder : InOrder (Token.columns ts)) : ∀ t ∈ ts, c.holds t = true := by
  obtain ⟨first, last, hfirst, hlast, rfl⟩ := h
  intro t ht
  rw [holds_iff]
  constructor
  · obtain ⟨rest, rfl⟩ := List.head?_eq_some_iff.1 hfirst
    have hwide := Token.wide_of_mem horder List.mem_cons_self
    rcases List.mem_cons.1 ht with rfl | ht
    · exact Nat.le_refl _
    · have := List.rel_of_pairwise_cons horder.apart (List.mem_map_of_mem ht)
      simp only
      omega
  · obtain ⟨init, rfl⟩ := List.getLast?_eq_some_iff.1 hlast
    have hwide := Token.wide_of_mem horder (List.mem_append_right init List.mem_cons_self)
    rcases List.mem_append.1 ht with ht | ht
    · have := (Token.inOrder_append.1 horder).2.2 t ht last List.mem_cons_self
      simp only
      omega
    · exact Nat.le_of_eq (by rw [List.mem_singleton.1 ht])

theorem wide (h : c.Spans ts) (horder : InOrder (Token.columns ts)) : c.start < c.stop := by
  obtain ⟨t, ht⟩ := List.exists_mem_of_ne_nil ts h.ne_nil
  have hwide := Token.wide_of_mem horder ht
  have hholds := holds_iff.1 (h.holds_of_mem horder t ht)
  omega

theorem stop_le (h : c.Spans ts) {n : Nat} (hn : ∀ t ∈ ts, t.column.stop ≤ n) : c.stop ≤ n := by
  obtain ⟨t, u, -, hu, rfl⟩ := h
  exact hn u (List.mem_of_getLast? hu)

theorem le_start (h : c.Spans ts) {n : Nat} (hn : ∀ t ∈ ts, n ≤ t.column.start) : n ≤ c.start := by
  obtain ⟨t, u, ht, -, rfl⟩ := h
  exact hn t (List.mem_of_head? ht)

theorem append {d : Column} {us : List Token} (h : c.Spans ts) (hd : d.Spans us) :
    Column.Spans ⟨c.start, d.stop⟩ (ts ++ us) := by
  obtain ⟨t, -, ht, -, rfl⟩ := h
  obtain ⟨-, u, -, hu, rfl⟩ := hd
  refine ⟨t, u, ?_, ?_, rfl⟩
  · rw [List.head?_append, ht]
    rfl
  · rw [List.getLast?_append, hu]
    rfl

end Column.Spans

theorem filter_holds {c : Column} {ts tokens : List Token} (h : c.Spans ts) (hts : ts <:+: tokens)
    (horder : InOrder (Token.columns tokens)) : tokens.filter c.holds = ts := by
  obtain ⟨before, behind, rfl⟩ := hts
  obtain ⟨hleft, -, hbehind⟩ := Token.inOrder_append.1 horder
  obtain ⟨-, hin, hbefore⟩ := Token.inOrder_append.1 hleft
  have hnot : ∀ t ∈ before ++ ts ++ behind, t ∈ before ∨ t ∈ behind → ¬ c.holds t = true := by
    intro t ht hout hc
    have hwide := Token.wide_of_mem horder ht
    rw [holds_iff] at hc
    rcases hout with hout | hout
    · have := h.le_start fun u hu => hbefore t hout u hu
      omega
    · have := h.stop_le fun u hu => hbehind u (List.mem_append_right _ hu) t hout
      omega
  rw [List.filter_append, List.filter_append,
    List.filter_eq_nil_iff.2 fun t ht => hnot t (by simp [ht]) (.inl ht),
    List.filter_eq_self.2 (h.holds_of_mem hin),
    List.filter_eq_nil_iff.2 fun t ht => hnot t (by simp [ht]) (.inr ht), List.nil_append, List.append_nil]

/-! ## Columns that tile -/

/-- **Columns that share tokens out**: each spans some of them, and the next one goes on where it stops. -/
def Tiles : List Column → List Token → Prop
  | [], ts      => ts = []
  | c :: cs, ts => ∃ us rest, ts = us ++ rest ∧ c.Spans us ∧ Tiles cs rest

theorem tiles_append : ∀ {cs ds : List Column} {ts us : List Token}, Tiles cs ts → Tiles ds us →
    Tiles (cs ++ ds) (ts ++ us)
  | [], _, _, _, rfl, hds => hds
  | c :: cs, _, _, us, ⟨xs, rest, hts, hc, hcs⟩, hds =>
    ⟨xs, rest ++ us, by rw [hts, List.append_assoc], hc, tiles_append hcs hds⟩

theorem tiles_columns : ∀ (ts : List Token), Tiles (Token.columns ts) ts
  | []      => rfl
  | t :: ts => ⟨[t], ts, rfl, ⟨t, t, rfl, rfl, rfl⟩, tiles_columns ts⟩

theorem tiles_flatMap {α : Type} {column : α → Column} {tokens : α → List Token} : ∀ {xs : List α},
    (∀ x ∈ xs, (column x).Spans (tokens x)) → Tiles (xs.map column) (xs.flatMap tokens)
  | [], _ => rfl
  | x :: xs, h => by
    rw [List.map_cons, List.flatMap_cons]
    exact ⟨tokens x, xs.flatMap tokens, rfl, h x List.mem_cons_self,
      tiles_flatMap fun y hy => h y (List.mem_cons_of_mem x hy)⟩

namespace Tiles

theorem exists_spans : ∀ {cs : List Column} {ts : List Token}, Tiles cs ts → ∀ c ∈ cs, ∃ us, us.Sublist ts ∧ c.Spans us
  | c :: cs, _, ⟨us, rest, hts, hc, hcs⟩, d, hd => by
    rw [hts]
    rcases List.mem_cons.1 hd with rfl | hd
    · exact ⟨us, List.sublist_append_left us rest, hc⟩
    · obtain ⟨xs, hxs, hd⟩ := hcs.exists_spans d hd
      exact ⟨xs, hxs.trans (List.sublist_append_right us rest), hd⟩

/-- **Columns that tile tokens in order are in order.** -/
theorem inOrder : ∀ {cs : List Column} {ts : List Token}, Tiles cs ts → InOrder (Token.columns ts) → InOrder cs
  | [], _, _, _ => ⟨nofun, .nil⟩
  | c :: cs, _, ⟨us, rest, hts, hc, hcs⟩, h => by
    rw [hts] at h
    obtain ⟨hus, hrest, hbetween⟩ := Token.inOrder_append.1 h
    rw [← List.singleton_append, inOrder_append]
    refine ⟨⟨fun d hd => ?_, List.pairwise_singleton _ c⟩, hcs.inOrder hrest, fun d hd e he => ?_⟩
    · rw [List.mem_singleton.1 hd]
      exact hc.wide hus
    · rw [List.mem_singleton.1 hd]
      obtain ⟨xs, hxs, he⟩ := hcs.exists_spans e he
      exact hc.stop_le fun t ht => he.le_start fun u hu => hbetween t ht u (hxs.subset hu)

theorem exists_holds : ∀ {cs : List Column} {ts : List Token}, Tiles cs ts → InOrder (Token.columns ts) →
    ∀ t ∈ ts, ∃ c ∈ cs, c.holds t = true
  | [], _, h, _, t, ht => by
    rw [h] at ht
    cases ht
  | c :: cs, _, ⟨us, rest, hts, hc, hcs⟩, h, t, ht => by
    rw [hts] at h ht
    obtain ⟨hus, hrest, -⟩ := Token.inOrder_append.1 h
    rcases List.mem_append.1 ht with ht | ht
    · exact ⟨c, List.mem_cons_self, hc.holds_of_mem hus t ht⟩
    · obtain ⟨d, hd, hdt⟩ := hcs.exists_holds hrest t ht
      exact ⟨d, List.mem_cons_of_mem c hd, hdt⟩

/-- **Each token lies in exactly one column.** -/
theorem countP_holds {cs : List Column} {ts : List Token} (h : Tiles cs ts) (horder : InOrder (Token.columns ts)) :
    ∀ t ∈ ts, cs.countP (·.holds t) = 1 := fun t ht =>
  (h.inOrder horder).countP_holds_eq_one (Token.wide_of_mem horder ht) (h.exists_holds horder t ht)

theorem ends : ∀ {cs : List Column} {ts : List Token}, Tiles cs ts →
    cs.head?.map Column.start = ts.head?.map (·.column.start) ∧ cs.getLast?.map Column.stop = ts.getLast?.map (·.column.stop)
  | [], _, h => by
    rw [h]
    exact ⟨rfl, rfl⟩
  | c :: cs, _, ⟨us, rest, hts, hc, hcs⟩ => by
    obtain ⟨t, u, ht, hu, rfl⟩ := hc
    have hlast := hcs.ends.2
    rw [hts, List.head?_append, ht, List.getLast?_append, hu, List.getLast?_cons]
    refine ⟨rfl, ?_⟩
    cases hc : cs.getLast? <;> cases hr : rest.getLast? <;> rw [hc, hr] at hlast <;> simp_all

end Tiles

end BlockBasic
