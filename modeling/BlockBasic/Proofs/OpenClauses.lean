import BlockBasic.Proofs.StatementColumns
/-!
# OpenClauses — what becomes of the clauses of an `OPEN` statement

A clause of access reaches back: it widens the last mode before it, whatever stands between, and where there is no mode its
first word is kept and the others are lost.  That is all that a nest can do to the expressions before it (`Step`).  So the
tokens of nests are kept exactly if each clause of access has a mode before it (`holding_items`, `moded_of_kept`), and the
columns stay in order exactly if each that has one directly follows it, or another such clause (`inOrder_items_iff`).
-/
namespace BlockBasic

open Column (InOrder holds_iff)

namespace Nest

def isMode : Nest → Bool
  | .leaf (.mode _ _ _) => true
  | _                   => false

/-- **Whether every clause of access has a mode before it**; `seen` says whether one stands before all of the nests. -/
def moded : (seen : Bool) → List Nest → Bool
  | _, []         => true
  | seen, n :: ns => (!n.isAccess || seen) && moded (seen || n.isMode) ns

/-- **Whether every clause of access that has a mode before it follows that directly**, or another clause of access that
does; `seen` says whether a mode stands before all of the nests, and `direct` whether it or such a clause is the last thing
there. -/
def placed : (seen direct : Bool) → List Nest → Bool
  | _, _, []              => true
  | seen, direct, n :: ns => (!(n.isAccess && seen) || direct) && placed (seen || n.isMode) (n.isMode || n.isAccess) ns

end Nest

namespace Expression

variable {limit : Limit} {table : Table} {depth : Nat} {es fs : List Expression} {n : Nest} {ns : List Nest}
  {ds : List Token}

theorem isMode_tokenAtom (table : Table) (t : Token) : (atom t.column (tokenAtom table t)).isMode = false := by
  unfold tokenAtom
  cases t.kind with
  | integer => cases Literal.ofDigits? t.text <;> rfl
  | float   => cases Double.ofDecimal? t.text <;> rfl
  | _       => rfl

theorem isMode_ofNest (h : n.isAccess = false) : (ofNest limit table depth n).isMode = n.isMode := by
  cases n with
  | leaf p =>
    cases p with
    | token t       => exact isMode_tokenAtom table t
    | handle | mode => rfl
    | access        => cases h
  | group b o body c =>
    obtain ⟨e, he, -, -, hmode⟩ := nestPiece_group limit table depth b o body c
    rw [ofNest_of_nestPiece he, hmode]
    rfl

theorem any_isMode_middle (before : List Expression) (c : Column) (m : FileMode) (access : Option FileAccess)
    (after : List Expression) : (before ++ atom c (.mode m access) :: after).any isMode = true :=
  List.any_eq_true.2 ⟨_, List.mem_append_right before List.mem_cons_self, rfl⟩

/-! ## One step -/

def next (limit : Limit) (table : Table) (depth : Nat) (es : List Expression) (n : Nest) : List Expression :=
  settle es (nestPiece limit table depth n)

/-- **What one nest does to the expressions before it.**  It adds its own; or it is a clause of access and widens the last
mode; or it is one without a mode before it, and of its words only the first is added. -/
inductive Step (limit : Limit) (table : Table) (depth : Nat) : List Expression → Nest → List Expression → Prop
  | adds {es : List Expression} {n : Nest} : n.isAccess = false →
      Step limit table depth es n (es ++ [ofNest limit table depth n])
  | widens {before after : List Expression} {c : Column} {m : FileMode} {access : Option FileAccess} {t u : Token}
      {more : Option Token} {a : FileAccess} : (∀ e ∈ after, e.isMode = false) →
      Step limit table depth (before ++ atom c (.mode m access) :: after) (.leaf (.access t u more a))
        (before ++ atom ⟨c.start, (Phrase.access t u more a).column.stop⟩ (.mode m (some a)) :: after)
  | loses {es : List Expression} {t u : Token} {more : Option Token} {a : FileAccess} : (∀ e ∈ es, e.isMode = false) →
      Step limit table depth es (.leaf (.access t u more a)) (es ++ [atom t.column (.keyword (.word .access))])

theorem exists_of_isAccess (h : n.isAccess = true) : ∃ t u more a, n = .leaf (.access t u more a) := by
  cases n with
  | leaf p =>
    cases p with
    | token | handle | mode => cases h
    | access t u more a     => exact ⟨t, u, more, a, rfl⟩
  | group => cases h

theorem step_next (limit : Limit) (table : Table) (depth : Nat) (es : List Expression) (n : Nest) :
    Step limit table depth es n (next limit table depth es n) := by
  cases hn : n.isAccess with
  | false =>
    rw [next, nestPiece_of_not_access hn]
    exact .adds hn
  | true =>
    obtain ⟨t, u, more, a, rfl⟩ := exists_of_isAccess hn
    rw [next, show nestPiece limit table depth (.leaf (.access t u more a)) =
      .access t a (Phrase.access t u more a).column.stop from rfl, settle]
    cases hg : grant? a (Phrase.access t u more a).column.stop es with
    | some granted =>
      obtain ⟨before, c, m, access, after, rfl, hafter, rfl⟩ := grant?_eq_some hg
      exact .widens hafter
    | none => exact .loses (grant?_eq_none.1 hg)

theorem items_eq_foldl (limit : Limit) (table : Table) (depth : Nat) (ns : List Nest) :
    items limit table depth ns = ns.foldl (next limit table depth) [] := by
  rw [items, nestPieces_eq_map, List.foldl_map]
  rfl

/-- Each expression spans tokens among `ds`. -/
def Spanning (ds : List Token) (es : List Expression) : Prop := ∀ e ∈ es, ∃ us, us.Sublist ds ∧ e.column.Spans us

theorem Spanning.mono {us : List Token} (h : Spanning ds es) (hs : ds.Sublist us) : Spanning us es := by
  intro e he
  obtain ⟨xs, hxs, he⟩ := h e he
  exact ⟨xs, hxs.trans hs, he⟩

theorem Spanning.append {us : List Token} (h : Spanning ds es) (hf : Spanning us fs) :
    Spanning (ds ++ us) (es ++ fs) :=
  List.forall_mem_append.2 ⟨h.mono (List.sublist_append_left ds us), hf.mono (List.sublist_append_right ds us)⟩

theorem Spanning.stop_le (h : Spanning ds es) {n : Nat} (hn : ∀ t ∈ ds, t.column.stop ≤ n) :
    ∀ e ∈ es, e.column.stop ≤ n := by
  intro e he
  obtain ⟨us, hus, he⟩ := h e he
  exact he.stop_le fun t ht => hn t (hus.subset ht)

theorem Spanning.wide (h : Spanning ds es) (horder : InOrder (Token.columns ds)) :
    ∀ e ∈ es, e.column.start < e.column.stop := by
  intro e he
  obtain ⟨us, hus, he⟩ := h e he
  exact he.wide (Token.inOrder_sublist horder hus)

theorem Spanning.step (h : Spanning ds es) (hstep : Step limit table depth es n fs) : Spanning (ds ++ n.tokens) fs := by
  cases hstep with
  | adds hn => exact h.append (List.forall_mem_singleton.2 ⟨n.tokens, List.Sublist.refl _, spans_ofNest hn⟩)
  | @widens before after c m access t u more a _ =>
    obtain ⟨hbefore, hrest⟩ := List.forall_mem_append.1 h
    obtain ⟨⟨us, hus, hc⟩, hafter⟩ := List.forall_mem_cons.1 hrest
    have hmono {gs : List Expression} (hgs : Spanning ds gs) : Spanning (ds ++ (Phrase.access t u more a).tokens) gs :=
      hgs.mono (List.sublist_append_left _ _)
    exact List.forall_mem_append.2 ⟨hmono hbefore, List.forall_mem_cons.2
      ⟨⟨us ++ (Phrase.access t u more a).tokens, hus.append_right _, hc.append (Phrase.spans_column _)⟩, hmono hafter⟩⟩
  | @loses _ t u more a _ =>
    exact h.append (List.forall_mem_singleton.2
      ⟨[t], List.singleton_sublist.2 List.mem_cons_self, t, t, rfl, rfl, rfl⟩)

theorem Step.any_isMode (hstep : Step limit table depth es n fs) : fs.any isMode = (es.any isMode || n.isMode) := by
  cases hstep with
  | adds hn   => rw [List.any_append, List.any_cons, List.any_nil, Bool.or_false, isMode_ofNest hn]
  | widens _  =>
    rw [any_isMode_middle, any_isMode_middle]
    rfl
  | loses _   =>
    rw [List.any_append]
    rfl

theorem Spanning.stop_le_phrase {p : Phrase} (h : Spanning ds es) (horder : InOrder (Token.columns (ds ++ p.tokens))) :
    ∀ e ∈ es, e.column.stop ≤ p.column.stop := by
  obtain ⟨-, htokens, hbetween⟩ := Token.inOrder_append.1 horder
  exact h.stop_le fun t ht => Nat.le_trans (p.spans_column.le_start fun u hu => hbetween t ht u hu)
    (Nat.le_of_lt (p.spans_column.wide htokens))

/-! ## Tokens that are kept -/

/-- Each of the tokens lies in an expression, and in a separator only if it is one. -/
def Holding (ds : List Token) (es : List Expression) : Prop :=
  ∀ t ∈ ds, ∃ e ∈ es, e.column.holds t = true ∧ (e.isSeparator = true → t.kind = .separator)

theorem Holding.append {us : List Token} (h : Holding ds es) (hf : Holding us fs) : Holding (ds ++ us) (es ++ fs) := by
  refine List.forall_mem_append.2 ⟨fun t ht => ?_, fun t ht => ?_⟩
  · obtain ⟨e, hmem, hin⟩ := h t ht
    exact ⟨e, List.mem_append_left fs hmem, hin⟩
  · obtain ⟨e, hmem, hin⟩ := hf t ht
    exact ⟨e, List.mem_append_right es hmem, hin⟩

theorem Holding.widen {before after : List Expression} {start stop long : Nat} {m : FileMode}
    {access access' : Option FileAccess} (h : Holding ds (before ++ atom ⟨start, stop⟩ (.mode m access) :: after))
    (hlong : stop ≤ long) : Holding ds (before ++ atom ⟨start, long⟩ (.mode m access') :: after) := by
  intro t ht
  obtain ⟨e, hmem, hin, hseparator⟩ := h t ht
  rcases List.mem_append.1 hmem with hmem | hmem
  · exact ⟨e, List.mem_append_left _ hmem, hin, hseparator⟩
  rcases List.mem_cons.1 hmem with rfl | hmem
  · obtain ⟨hstart, hstop⟩ := holds_iff.1 hin
    exact ⟨_, List.mem_append_cons_self, holds_iff.2 ⟨hstart, Nat.le_trans hstop hlong⟩, nofun⟩
  · exact ⟨e, List.mem_append_right _ (List.mem_cons_of_mem _ hmem), hin, hseparator⟩

theorem Holding.step (h : Holding ds es) (hs : Spanning ds es) (horder : InOrder (Token.columns (ds ++ n.tokens)))
    (hn : n.isAccess = true → es.any isMode = true) (hstep : Step limit table depth es n fs) :
    Holding (ds ++ n.tokens) fs := by
  obtain ⟨hds, htokens, hbetween⟩ := Token.inOrder_append.1 horder
  cases hstep with
  | adds hno =>
    refine h.append fun t ht => ⟨_, List.mem_cons_self, (spans_ofNest hno).holds_of_mem htokens t ht, fun hs => ?_⟩
    obtain ⟨u, rfl, hu⟩ := isSeparator_ofNest hs
    rw [List.mem_singleton.1 ht]
    exact hu
  | @widens before after c m access t u more a _ =>
    refine List.forall_mem_append.2 ⟨h.widen ?_, fun v hv => ?_⟩
    · exact hs.stop_le_phrase (p := .access t u more a) horder _ List.mem_append_cons_self
    · -- The mode begins before the clause and stops with it.
      have hwide := hs.wide hds _ List.mem_append_cons_self
      have hstop := hs.stop_le (fun w hw => hbetween w hw v hv) _ List.mem_append_cons_self
      have hclause := holds_iff.1 ((Phrase.spans_column (.access t u more a)).holds_of_mem htokens v hv)
      exact ⟨_, List.mem_append_cons_self, holds_iff.2
        ⟨Nat.le_of_lt (Nat.lt_of_lt_of_le hwide hstop), hclause.2⟩, nofun⟩
  | loses hnone =>
    obtain ⟨e, hmem, hmode⟩ := List.any_eq_true.1 (hn rfl)
    rw [hnone e hmem] at hmode
    cases hmode

/-- **Where each clause of access has a mode before it, no token is lost.** -/
theorem holding_foldl : ∀ {ns : List Nest} {es : List Expression} {ds : List Token}, Holding ds es → Spanning ds es →
    InOrder (Token.columns (ds ++ Nest.tokensOf ns)) → Nest.moded (es.any isMode) ns = true →
      Holding (ds ++ Nest.tokensOf ns) (ns.foldl (Expression.next limit table depth) es)
  | [], _, ds, h, _, _, _ => by
    rw [Nest.tokensOf_nil, List.append_nil]
    exact h
  | n :: ns, es, ds, h, hs, horder, hm => by
    rw [Nest.moded, Bool.and_eq_true, Bool.or_eq_true, Bool.not_eq_true'] at hm
    rw [Nest.tokensOf, ← List.append_assoc] at horder ⊢
    rw [List.foldl_cons]
    have hstep := step_next limit table depth es n
    refine holding_foldl (h.step hs (Token.inOrder_append.1 horder).1 (fun hn => ?_) hstep) (hs.step hstep) horder ?_
    · exact hm.1.resolve_left (by rw [hn]; exact Bool.noConfusion)
    · rw [hstep.any_isMode]
      exact hm.2

/-! ## Tokens that are lost -/

/-- A token that lies in no expression and never will: what ends before it is no mode. -/
def Lost (u : Token) (es : List Expression) : Prop :=
  ∀ e ∈ es, (e.isMode = false ∧ e.column.stop ≤ u.column.start) ∨ u.column.stop ≤ e.column.start

theorem Lost.not_holds {u : Token} (h : Lost u es) (hu : u.column.start < u.column.stop) :
    ∀ e ∈ es, ¬ e.column.holds u = true := by
  intro e he hholds
  rw [holds_iff] at hholds
  rcases h e he with ⟨-, hstop⟩ | hstart <;> omega

theorem Lost.append {u : Token} (h : Lost u es) (hf : Lost u fs) : Lost u (es ++ fs) :=
  fun e he => (List.mem_append.1 he).elim (h e) (hf e)

theorem Lost.step {u : Token} (h : Lost u es) (hu : ∀ t ∈ n.tokens, u.column.stop ≤ t.column.start)
    (hstep : Step limit table depth es n fs) : Lost u fs := by
  cases hstep with
  | adds hn => exact h.append (List.forall_mem_singleton.2 (.inr ((spans_ofNest hn).le_start hu)))
  | widens _ =>
    -- The mode begins behind the token, or the token were not lost.
    obtain ⟨hbefore, hrest⟩ := List.forall_mem_append.1 h
    obtain ⟨hmode, hafter⟩ := List.forall_mem_cons.1 hrest
    refine List.forall_mem_append.2 ⟨hbefore, List.forall_mem_cons.2 ⟨.inr ?_, hafter⟩⟩
    exact hmode.resolve_left fun hno => nomatch hno.1
  | loses _ => exact h.append (List.forall_mem_singleton.2 (.inr (hu _ List.mem_cons_self)))

theorem Lost.foldl {u : Token} : ∀ {ns : List Nest} {es : List Expression}, Lost u es →
    (∀ t ∈ Nest.tokensOf ns, u.column.stop ≤ t.column.start) → Lost u (ns.foldl (Expression.next limit table depth) es)
  | [], _, h, _ => h
  | n :: ns, _, h, hu => by
    rw [List.foldl_cons]
    exact (h.step (fun t ht => hu t (List.mem_append_left _ ht)) (step_next limit table depth _ n)).foldl
      fun t ht => hu t (List.mem_append_right _ ht)

theorem lost_of_access {t u : Token} {more : Option Token} {a : FileAccess} (hs : Spanning ds es)
    (horder : InOrder (Token.columns (ds ++ (Phrase.access t u more a).tokens))) (hnone : ∀ e ∈ es, e.isMode = false) :
    Lost u (es ++ [atom t.column (.keyword (.word .access))]) := by
  obtain ⟨-, htokens, hbetween⟩ := Token.inOrder_append.1 horder
  refine Lost.append (fun e he => .inl ⟨hnone e he, ?_⟩) (List.forall_mem_singleton.2 (.inl ⟨rfl, ?_⟩))
  · exact hs.stop_le (fun v hv => hbetween v hv u (List.mem_cons_of_mem t List.mem_cons_self)) e he
  · exact List.rel_of_pairwise_cons htokens.apart List.mem_cons_self

theorem isKeyword_of_formed {inOpen : Bool} {t u : Token} {more : Option Token} {a : FileAccess}
    (h : (Phrase.access t u more a).Formed inOpen) : u.kind.isKeyword = true := by
  have hword : ∃ w, u.word? = some w := by
    cases more with
    | none   => exact h.2.2.elim (fun h => ⟨_, h.1⟩) (fun h => ⟨_, h.1⟩)
    | some v => exact ⟨_, h.2.2.1⟩
  obtain ⟨w, hw⟩ := hword
  rw [Phrase.kind_of_word? hw]
  rfl

/-- **A clause of access without a mode before it loses a word.** -/
theorem lost_foldl {inOpen : Bool} : ∀ {ns : List Nest} {es : List Expression} {ds : List Token}, Spanning ds es →
    InOrder (Token.columns (ds ++ Nest.tokensOf ns)) → (∀ n ∈ ns, Nest.Paired limit inOpen depth n) →
      Nest.moded (es.any isMode) ns = false → ∃ u ∈ Nest.tokensOf ns, u.kind.isKeyword = true ∧
        Lost u (ns.foldl (Expression.next limit table depth) es)
  | [], _, _, _, _, _, hm => nomatch hm
  | n :: ns, es, ds, hs, horder, hp, hm => by
    rw [Nest.tokensOf, ← List.append_assoc] at horder
    obtain ⟨hfirst, -, hbetween⟩ := Token.inOrder_append.1 horder
    rw [List.foldl_cons]
    have hstep := step_next limit table depth es n
    have hspanning := hs.step hstep
    have hany := hstep.any_isMode
    generalize Expression.next limit table depth es n = fs at hstep hspanning hany
    -- Either the others lose a word, or this one does.
    cases hrest : Nest.moded (fs.any isMode) ns with
    | false =>
      obtain ⟨u, hu, hkeyword, hlost⟩ :=
        lost_foldl hspanning horder (fun m hmem => hp m (List.mem_cons_of_mem n hmem)) hrest
      exact ⟨u, List.mem_append_right _ hu, hkeyword, hlost⟩
    | true =>
      rw [Nest.moded, ← hany, hrest, Bool.and_true] at hm
      cases hstep with
      | adds hno =>
        rw [hno] at hm
        cases hm
      | widens _ =>
        rw [any_isMode_middle, Bool.or_true] at hm
        cases hm
      | @loses _ t u more a hnone =>
        have hformed : (Phrase.access t u more a).Formed inOpen := by
          cases hp _ List.mem_cons_self with
          | leaf h _ => exact h
        refine ⟨u, List.mem_cons_of_mem t List.mem_cons_self, isKeyword_of_formed hformed,
          (lost_of_access (a := a) hs hfirst hnone).foldl fun v hv => ?_⟩
        exact hbetween u (List.mem_append_right _ (List.mem_cons_of_mem t List.mem_cons_self)) v hv

/-! ## The order of the columns -/

theorem columns_append (xs ys : List Expression) : columns (xs ++ ys) = columns xs ++ columns ys := List.map_append

theorem inOrder_snoc {e : Expression} {us : List Token} (h : InOrder (columns es)) (hs : Spanning ds es)
    (horder : InOrder (Token.columns (ds ++ us))) (he : ∃ xs, xs.Sublist us ∧ e.column.Spans xs) :
    InOrder (columns (es ++ [e])) := by
  obtain ⟨-, hus, hbetween⟩ := Token.inOrder_append.1 horder
  obtain ⟨xs, hxs, he⟩ := he
  rw [columns_append]
  refine Column.inOrder_append.2 ⟨h, ⟨?_, List.pairwise_singleton _ _⟩, ?_⟩
  · exact List.forall_mem_singleton.2 (he.wide (Token.inOrder_sublist hus hxs))
  · refine List.forall_mem_map.2 fun f hf => List.forall_mem_singleton.2 (he.le_start fun u hu => ?_)
    exact hs.stop_le (fun t ht => hbetween t ht u (hxs.subset hu)) f hf

theorem inOrder_of_step (hs : Spanning ds es) (horder : InOrder (Token.columns (ds ++ n.tokens)))
    (hstep : Step limit table depth es n fs) (h : InOrder (columns fs)) : InOrder (columns es) := by
  cases hstep with
  | adds _ | loses _ =>
    rw [columns_append] at h
    exact (Column.inOrder_append.1 h).1
  | @widens before after c m access t u more a _ =>
    rw [columns_append] at h ⊢
    exact h.narrow (hs.wide (Token.inOrder_append.1 horder).1 _ List.mem_append_cons_self)
      (hs.stop_le_phrase (p := .access t u more a) horder _ List.mem_append_cons_self)

theorem inOrder_of_foldl : ∀ {ns : List Nest} {es : List Expression} {ds : List Token}, Spanning ds es →
    InOrder (Token.columns (ds ++ Nest.tokensOf ns)) →
      InOrder (columns (ns.foldl (Expression.next limit table depth) es)) → InOrder (columns es)
  | [], _, _, _, _, h => h
  | n :: ns, es, _, hs, horder, h => by
    rw [Nest.tokensOf, ← List.append_assoc] at horder
    have hstep := step_next limit table depth es n
    exact inOrder_of_step hs (Token.inOrder_append.1 horder).1 hstep (inOrder_of_foldl (hs.step hstep) horder h)

/-- Widening a mode that is not the last expression brings it over the next one. -/
theorem not_inOrder_widened {before after : List Expression} {c : Column} {p : Phrase} {m m' : Atom} (hne : after ≠ [])
    (hs : Spanning ds (before ++ atom c m :: after)) (horder : InOrder (Token.columns (ds ++ p.tokens))) :
    ¬ InOrder (columns (before ++ atom ⟨c.start, p.column.stop⟩ m' :: after)) := by
  intro h
  obtain ⟨e, rest, rfl⟩ := List.exists_cons_of_ne_nil hne
  have hmem : e ∈ before ++ atom c m :: e :: rest := by simp
  rw [columns_append] at h
  have hover : p.column.stop ≤ e.column.start :=
    List.rel_of_pairwise_cons (Column.inOrder_append.1 h).2.1.apart List.mem_cons_self
  have hwide := hs.wide (Token.inOrder_append.1 horder).1 e hmem
  have hstop := hs.stop_le_phrase horder e hmem
  omega

/-- **Expressions in order**, of which the last one is a mode or not as `direct` says, once there is a mode. -/
structure Ready (ds : List Token) (es : List Expression) (direct : Bool) : Prop where
  spanning : Spanning ds es
  inOrder  : InOrder (columns es)
  last     : es.any isMode = true → es.getLast?.any isMode = direct

variable {direct : Bool}

theorem Ready.eq_nil {before after : List Expression} {c : Column} {m : FileMode} {access : Option FileAccess}
    (h : Ready ds (before ++ atom c (.mode m access) :: after) direct) (hafter : ∀ e ∈ after, e.isMode = false) :
    after = [] ↔ direct = true := by
  rw [← h.last (any_isMode_middle before c m access after), List.getLast?_append, List.getLast?_cons]
  by_cases hne : after = []
  · rw [hne]
    exact iff_of_true rfl rfl
  · rw [List.getLast?_eq_some_getLast hne]
    exact iff_of_false hne (Bool.eq_false_iff.1 (hafter _ (List.getLast_mem hne)))

theorem Ready.step (h : Ready ds es direct) (horder : InOrder (Token.columns (ds ++ n.tokens)))
    (hn : n.isAccess = true → es.any isMode = true → direct = true) (hstep : Step limit table depth es n fs) :
    Ready (ds ++ n.tokens) fs (n.isMode || n.isAccess) := by
  refine ⟨h.spanning.step hstep, ?_, ?_⟩
  · cases hstep with
    | adds hno => exact inOrder_snoc h.inOrder h.spanning horder ⟨n.tokens, List.Sublist.refl _, spans_ofNest hno⟩
    | @widens before after c m access t u more a hafter =>
      obtain rfl := (h.eq_nil hafter).2 (hn rfl (any_isMode_middle before c m access after))
      have hbefore := h.inOrder
      rw [columns_append] at hbefore ⊢
      exact hbefore.stretch (h.spanning.stop_le_phrase (p := .access t u more a) horder _ List.mem_append_cons_self)
    | @loses _ t u more a _ =>
      exact inOrder_snoc h.inOrder h.spanning horder ⟨[t], List.singleton_sublist.2 List.mem_cons_self, t, t, rfl, rfl, rfl⟩
  · intro hany
    rw [hstep.any_isMode] at hany
    cases hstep with
    | adds hno => rw [List.getLast?_concat, Option.any_some, isMode_ofNest hno, hno, Bool.or_false]
    | @widens before after c m access _ _ _ _ hafter =>
      obtain rfl := (h.eq_nil hafter).2 (hn rfl (any_isMode_middle before c m access after))
      rw [List.getLast?_concat]
      rfl
    | loses hnone =>
      rw [List.any_eq_false.2 fun e hmem => Bool.eq_false_iff.1 (hnone e hmem)] at hany
      cases hany

/-- **A clause that does not follow its mode directly** brings the mode over what stands between. -/
theorem Ready.not_inOrder_step (h : Ready ds es false) (horder : InOrder (Token.columns (ds ++ n.tokens)))
    (hn : n.isAccess = true) (hany : es.any isMode = true) (hstep : Step limit table depth es n fs) :
    ¬ InOrder (columns fs) := by
  cases hstep with
  | adds hno =>
    rw [hn] at hno
    cases hno
  | @widens _ _ _ _ _ t u more a hafter =>
    exact not_inOrder_widened (p := .access t u more a) (fun hnil => nomatch (h.eq_nil hafter).1 hnil) h.spanning horder
  | loses hnone =>
    rw [List.any_eq_false.2 fun e hmem => Bool.eq_false_iff.1 (hnone e hmem)] at hany
    cases hany

/-- **The columns stay in order exactly if every clause of access that has a mode before it follows it directly**, or
another such clause. -/
theorem inOrder_foldl_iff : ∀ {ns : List Nest} {es : List Expression} {ds : List Token} {direct : Bool},
    Ready ds es direct → InOrder (Token.columns (ds ++ Nest.tokensOf ns)) →
      (InOrder (columns (ns.foldl (Expression.next limit table depth) es)) ↔
        Nest.placed (es.any isMode) direct ns = true)
  | [], _, _, _, h, _ => iff_of_true h.inOrder rfl
  | n :: ns, es, ds, direct, h, horder => by
    rw [Nest.tokensOf, ← List.append_assoc] at horder
    have hfirst := (Token.inOrder_append.1 horder).1
    have hstep := step_next limit table depth es n
    rw [List.foldl_cons, Nest.placed, Bool.and_eq_true]
    by_cases hn : n.isAccess = true → es.any isMode = true → direct = true
    · have hplaced : (!(n.isAccess && es.any isMode) || direct) = true := by
        cases hno : n.isAccess <;> cases hany : es.any isMode <;> simp_all
      rw [inOrder_foldl_iff (h.step hfirst hn hstep) horder, hstep.any_isMode]
      exact ⟨fun hrest => ⟨hplaced, hrest⟩, And.right⟩
    · simp only [Classical.not_imp, Bool.not_eq_true] at hn
      obtain ⟨hno, hany, rfl⟩ := hn
      refine iff_of_false (fun hall => ?_) (fun hall => ?_)
      · exact h.not_inOrder_step hfirst hno hany hstep (inOrder_of_foldl (h.spanning.step hstep) horder hall)
      · rw [hno, hany] at hall
        exact Bool.false_ne_true hall.1

/-! ## A sequence of nests -/

theorem spanning_nil (ds : List Token) : Spanning ds [] := List.forall_mem_nil _

/-- **Where each clause of access has a mode before it, the expressions of nests keep each token**, -/
theorem holding_items (limit : Limit) (table : Table) (depth : Nat) (h : Nest.moded false ns = true)
    (horder : InOrder (Token.columns (Nest.tokensOf ns))) : Holding (Nest.tokensOf ns) (items limit table depth ns) := by
  rw [items_eq_foldl]
  exact holding_foldl (List.forall_mem_nil _) (spanning_nil []) horder h

/-- **and where the words are kept, each clause of access has a mode before it.** -/
theorem moded_of_kept (table : Table) {inOpen : Bool} (horder : InOrder (Token.columns (Nest.tokensOf ns)))
    (hp : ∀ n ∈ ns, Nest.Paired limit inOpen depth n) (h : ∀ u ∈ Nest.tokensOf ns, u.kind.isKeyword = true →
      ∃ e ∈ items limit table depth ns, e.column.holds u = true) : Nest.moded false ns = true := by
  refine Bool.of_not_eq_false fun hm => ?_
  obtain ⟨u, hu, hword, hlost⟩ := lost_foldl (spanning_nil []) horder hp hm
  rw [← items_eq_foldl] at hlost
  obtain ⟨e, he, heu⟩ := h u hu hword
  exact hlost.not_holds (Token.wide_of_mem horder hu) e he heu

theorem inOrder_items_iff (horder : InOrder (Token.columns (Nest.tokensOf ns))) :
    InOrder (columns (items limit table depth ns)) ↔ Nest.placed false false ns = true := by
  rw [items_eq_foldl]
  exact inOrder_foldl_iff ⟨spanning_nil [], ⟨List.forall_mem_nil _, .nil⟩, nofun⟩ horder

theorem mem_columns_argumentsOf {c : Column} :
    c ∈ ((argumentsOf es).map columns).flatten ↔ ∃ e ∈ es, e.isSeparator = false ∧ e.column = c := by
  rw [show columns = List.map column from rfl, ← List.map_flatten, flatten_argumentsOf, List.mem_map]
  simp only [List.mem_filter, Bool.not_eq_true', and_assoc]

end Expression

/-! ## The statement and its groups -/

open Expression (holding_items moded_of_kept mem_columns_argumentsOf)

/-- **Every word of a group lies in an argument exactly if each clause of access in the group has a mode before it
there.** -/
theorem Nest.Built.words_kept_iff {limit : Limit} (table : Table) {inOpen : Bool} {tokens : List Token} {x : Nest.Built}
    (horder : InOrder (Token.columns tokens)) (htokens : x.nest.tokens <:+: tokens)
    (hdepth : limit.exceeded x.depth = false) (hpaired : Nest.Paired limit inOpen x.depth x.nest) :
    (∀ t ∈ tokens, t.kind.isKeyword = true → (x.group limit table).column.holds t = true →
      ∃ c ∈ (x.group limit table).arguments.flatten, c.holds t = true) ↔ Nest.moded false x.body = true := by
  have hspans := x.spans_column limit table
  have hgroup : InOrder (Token.columns x.nest.tokens) := Token.inOrder_sublist horder htokens.sublist
  have hbody := inOrder_body hgroup
  constructor
  · intro hall
    have hnests : ∀ n ∈ x.body, Nest.Paired limit inOpen (x.depth + 1) n := by
      cases hpaired with
      | group _ _ hnests => exact hnests
    refine moded_of_kept table hbody hnests fun u hu hword => ?_
    have hmem : u ∈ x.nest.tokens := List.mem_cons_of_mem _ (List.mem_append_left _ hu)
    obtain ⟨c, hc, hcu⟩ := hall u (htokens.subset hmem) hword (hspans.holds_of_mem hgroup u hmem)
    obtain ⟨e, he, -, rfl⟩ := mem_columns_argumentsOf.1 hc
    exact ⟨e, he, hcu⟩
  · intro hm t ht hword hholds
    obtain ⟨hopening, hclosing⟩ := kind_brackets hdepth hpaired
    -- A word in the column of the group is none of its brackets.
    have hmem : t ∈ Nest.tokensOf x.body := by
      have hin : t ∈ x.opening :: (Nest.tokensOf x.body ++ x.closing.toList) := by
        rw [← filter_holds hspans htokens horder]
        exact List.mem_filter.2 ⟨ht, hholds⟩
      rcases List.mem_cons.1 hin with rfl | hin
      · rw [hopening] at hword
        cases hword
      · refine (List.mem_append.1 hin).resolve_right fun hlast => ?_
        rw [hclosing t (Option.mem_toList.1 hlast)] at hword
        cases hword
    obtain ⟨e, he, hin, hseparator⟩ := holding_items limit table (x.depth + 1) hm hbody t hmem
    refine ⟨e.column, mem_columns_argumentsOf.2 ⟨e, he, Bool.eq_false_iff.2 fun hs => ?_, rfl⟩, hin⟩
    rw [hseparator hs] at hword
    cases hword

namespace Run

/-- **Every token of a statement lies in its keyword or one of its expressions exactly if each clause of access outside
groups has a mode before it.** -/
theorem tokens_kept_iff {r : Run} (table : Table) (horder : InOrder (Token.columns r.tokens)) :
    (∀ t ∈ r.tokens, ∃ c ∈ (r.statement table).columns, c.holds t = true) ↔
      Nest.moded false (r.nests nestingLimit) = true := by
  obtain ⟨ts, hts, hkeyword⟩ := r.tiles_keyword
  rw [hts, ← tokensOf_nests nestingLimit r] at horder ⊢
  obtain ⟨hfirst, hnests, hbetween⟩ := Token.inOrder_append.1 horder
  have hcolumns : (r.statement table).columns = (r.keyword?.map Prod.fst).toList ++
      Expression.columns (Expression.items nestingLimit table 0 (r.nests nestingLimit)) := by
    rw [← columns_expressions]
    rfl
  rw [hcolumns]
  constructor
  · refine fun hall => moded_of_kept table hnests (r.paired_nests nestingLimit) fun u hu _ => ?_
    obtain ⟨c, hc, hcu⟩ := hall u (List.mem_append_right ts hu)
    rcases List.mem_append.1 hc with hc | hc
    · -- The keyword stops before the operands.
      obtain ⟨us, hus, hspans⟩ := hkeyword.exists_spans c hc
      have hstop := hspans.stop_le fun t ht => hbetween t (hus.subset ht) u hu
      have hholds := holds_iff.1 hcu
      have hwide := Token.wide_of_mem hnests hu
      omega
    · obtain ⟨e, he, rfl⟩ := List.mem_map.1 hc
      exact ⟨e, he, hcu⟩
  · refine fun hm => List.forall_mem_append.2 ⟨fun t ht => ?_, fun t ht => ?_⟩
    · obtain ⟨c, hc, hct⟩ := hkeyword.exists_holds hfirst t ht
      exact ⟨c, List.mem_append_left _ hc, hct⟩
    · obtain ⟨e, he, het, -⟩ := holding_items nestingLimit table 0 hm hnests t ht
      exact ⟨e.column, List.mem_append_right _ (List.mem_map_of_mem he), het⟩

end Run

/-- **What an `OPEN` statement keeps.**  Every token lies in the keyword or an expression exactly if each clause of access
outside groups has a mode before it; every word of a group lies in an argument exactly if each clause of access in a group
has a mode before it in that group; and the columns of the expressions are in order exactly if each clause of access outside
groups that has a mode before it follows it directly, or another such clause. -/
theorem open_clauses_kept_iff (number : Nat) (text : Text) {tokens : List Token}
    (hrun : tokens ∈ (CodeLine.ofSource number text).runs) (index : Nat) (table : Table) :
    let r : Run := ⟨index, number, tokens⟩
    let s := r.statement table
    ((∀ t ∈ tokens, ∃ c ∈ s.columns, c.holds t = true) ↔ Nest.moded false (r.nests nestingLimit) = true) ∧
    ((∀ g ∈ Expression.groupsOf s.expressions, ∀ t ∈ tokens, t.kind.isKeyword = true → g.column.holds t = true →
        ∃ c ∈ g.arguments.flatten, c.holds t = true) ↔
      ∀ x ∈ Nest.builtOf nestingLimit 0 (r.nests nestingLimit), Nest.moded false x.body = true) ∧
    (InOrder (Expression.columns s.expressions) ↔ Nest.placed false false (r.nests nestingLimit) = true) := by
  intro r s
  have horder : InOrder (Token.columns r.tokens) := inOrder_of_mem_runs hrun
  have hoperands : Nest.tokensOf (r.nests nestingLimit) <:+: r.tokens := by
    rw [Run.tokensOf_nests]
    exact r.operands_suffix.isInfix
  refine ⟨Run.tokens_kept_iff table horder, ?_, ?_⟩
  · have hgroups : Expression.groupsOf s.expressions =
        (Nest.builtOf nestingLimit 0 (r.nests nestingLimit)).map (Nest.Built.group nestingLimit table) :=
      Run.groups_expressions nestingLimit table r
    rw [hgroups, List.forall_mem_map]
    refine forall₂_congr fun x hx => ?_
    obtain ⟨hdepth, hpaired⟩ := Nest.paired_builtOf (r.paired_nests nestingLimit) x hx
    exact x.words_kept_iff table horder ((Nest.tokens_built hx).trans hoperands) hdepth hpaired
  · have hcolumns : Expression.columns s.expressions =
        Expression.columns (Expression.items nestingLimit table 0 (r.nests nestingLimit)) :=
      Run.columns_expressions nestingLimit table r
    rw [hcolumns]
    exact Expression.inOrder_items_iff (Token.inOrder_sublist horder hoperands.sublist)

/-- Clauses that follow their modes, outside groups and in one, and nothing is lost or out of order. -/
theorem open_clauses_kept_iff_followed :
    let text := "OPEN FOR INPUT ACCESS READ (\"f\", FOR OUTPUT ACCESS WRITE) #2".toList
    let s := (⟨0, 1, tokenize text⟩ : Run).statement Table.empty
    tokenize text ∈ (CodeLine.ofSource 1 text).runs ∧
    (∀ t ∈ tokenize text, ∃ c ∈ s.columns, c.holds t = true) ∧
    (∀ g ∈ Expression.groupsOf s.expressions, ∀ t ∈ tokenize text, t.kind.isKeyword = true → g.column.holds t = true →
      ∃ c ∈ g.arguments.flatten, c.holds t = true) ∧
    InOrder (Expression.columns s.expressions) := by
  have hrun : tokenize "OPEN FOR INPUT ACCESS READ (\"f\", FOR OUTPUT ACCESS WRITE) #2".toList ∈
      (CodeLine.ofSource 1 "OPEN FOR INPUT ACCESS READ (\"f\", FOR OUTPUT ACCESS WRITE) #2".toList).runs := by decide +kernel
  obtain ⟨hkept, hwords, horder⟩ := open_clauses_kept_iff 1 _ hrun 0 Table.empty
  exact ⟨hrun, hkept.2 (by decide +kernel), hwords.2 (by decide +kernel), horder.2 (by decide +kernel)⟩

/-- **The access is lost** where a file is opened in no mode. -/
theorem open_clause_lost :
    let text := "OPEN ACCESS READ".toList
    let r : Run := ⟨0, 1, tokenize text⟩
    tokenize text ∈ (CodeLine.ofSource 1 text).runs ∧ r.isOpen = true ∧
    ∃ t ∈ tokenize text, t.text = "READ".toList ∧ ∀ c ∈ (r.statement Table.empty).columns, ¬ c.holds t = true := by
  decide +kernel

end BlockBasic
