import BlockBasic.Proofs.Groups
import BlockBasic.Proofs.RoundTrip
/-!
# StatementColumns — the expressions of a statement share out its tokens

Where no access is granted, each nest is an expression of its own, and the column of that spans the tokens of the nest
(`spans_ofNest`).  So the columns of a statement tile its tokens (`tiles_statement`).  In a group the same is true of what
stands between two separators, and the separators part the arguments (`parted_cutArguments`); whether the group is closed,
and what is too deep in it, makes no difference (`Nest.Built.tiled`).
-/
namespace BlockBasic

open Column (InOrder holds_iff)

/-! ## The expression of one nest -/

namespace Nest

def isAccess : Nest → Bool
  | .leaf p          => p.isAccess
  | .group _ _ _ _   => false

theorem spans_groupColumn (o : Token) (body : List Nest) (c : Option Token) :
    (groupColumn o body c).Spans (o :: (tokensOf body ++ c.toList)) := by
  refine ⟨o, _, rfl, ?_, rfl⟩
  rw [List.getLastD_eq_getLast?, List.getLast?_cons]
  rfl

end Nest

theorem Phrase.spans_column (p : Phrase) : p.column.Spans p.tokens := by
  cases p with
  | token t            => exact ⟨t, t, rfl, rfl, rfl⟩
  | handle t u n       => exact ⟨t, u, rfl, rfl, rfl⟩
  | mode t u m         => exact ⟨t, u, rfl, rfl, rfl⟩
  | access t u more a  =>
    cases more with
    | none   => exact ⟨t, u, rfl, rfl, rfl⟩
    | some v => exact ⟨t, v, rfl, rfl, rfl⟩

namespace Expression

variable {limit : Limit} {table : Table} {depth : Nat} {n : Nest}

theorem ofNest_of_nestPiece {e : Expression} (h : nestPiece limit table depth n = .expression e) :
    ofNest limit table depth n = e := by
  rw [ofNest, h]

theorem nestPiece_group (limit : Limit) (table : Table) (depth : Nat) (b : Bracket) (o : Token) (body : List Nest)
    (c : Option Token) : ∃ e, nestPiece limit table depth (.group b o body c) = .expression e ∧
      e.column = Nest.groupColumn o body c ∧ e.isSeparator = false ∧ e.isMode = false := by
  unfold nestPiece
  split <;> exact ⟨_, rfl, rfl, rfl, rfl⟩

theorem nestPiece_of_not_access (h : n.isAccess = false) :
    nestPiece limit table depth n = .expression (ofNest limit table depth n) := by
  cases n with
  | leaf p =>
    cases p with
    | token | handle | mode => rfl
    | access => cases h
  | group b o body c =>
    obtain ⟨e, he, -⟩ := nestPiece_group limit table depth b o body c
    rw [ofNest_of_nestPiece he, he]

/-- **The column of a nest's expression spans the tokens of the nest**, also where the group is not looked into. -/
theorem spans_ofNest (h : n.isAccess = false) : (ofNest limit table depth n).column.Spans n.tokens := by
  cases n with
  | leaf p =>
    cases p with
    | token t      => exact Phrase.spans_column (.token t)
    | handle t u k => exact Phrase.spans_column (.handle t u k)
    | mode t u m   => exact Phrase.spans_column (.mode t u m)
    | access       => cases h
  | group b o body c =>
    obtain ⟨e, he, hcolumn, -⟩ := nestPiece_group limit table depth b o body c
    rw [ofNest_of_nestPiece he, hcolumn]
    exact Nest.spans_groupColumn o body c

theorem isSeparator_ofNest (h : (ofNest limit table depth n).isSeparator = true) :
    ∃ t, n = .leaf (.token t) ∧ t.kind = .separator := by
  cases n with
  | leaf p =>
    cases p with
    | token t =>
      refine ⟨t, rfl, ?_⟩
      rw [← beq_iff_eq, ← isSeparator_tokenAtom table t]
      exact h
    | handle | mode | access => cases h
  | group b o body c =>
    obtain ⟨e, he, -, hseparator, -⟩ := nestPiece_group limit table depth b o body c
    rw [ofNest_of_nestPiece he, hseparator] at h
    cases h

theorem items_of_not_access {ns : List Nest} (h : ∀ n ∈ ns, n.isAccess = false) :
    items limit table depth ns = ns.map (ofNest limit table depth) := by
  have hpieces : nestPieces limit table depth ns = (ns.map (ofNest limit table depth)).map .expression := by
    rw [nestPieces_eq_map, List.map_map]
    exact List.map_congr_left (fun n hn => nestPiece_of_not_access (h n hn))
  rw [items, hpieces, foldl_settle_expressions, List.nil_append]

/-- **The expressions of nests tile the tokens of the nests.** -/
theorem tiles_items {ns : List Nest} (h : ∀ n ∈ ns, n.isAccess = false) :
    Tiles (columns (items limit table depth ns)) (Nest.tokensOf ns) := by
  rw [items_of_not_access h, columns, List.map_map, Nest.tokensOf_eq_flatMap]
  exact tiles_flatMap fun n hn => spans_ofNest (h n hn)

end Expression

/-! ## Arguments -/

/-- **Tokens parted by separators**, one part for each argument, each part with the columns of its argument as `P` says. -/
inductive Parted (P : List Column → List Token → Prop) : List (List Column) → List Token → Prop
  | last {cs : List Column} {ts : List Token} : P cs ts → Parted P [cs] ts
  | more {cs : List Column} {css : List (List Column)} {ts us : List Token} {t : Token} :
      P cs ts → t.kind = .separator → Parted P css us → Parted P (cs :: css) (ts ++ t :: us)

namespace Parted

variable {P Q : List Column → List Token → Prop} {css : List (List Column)} {ts : List Token}

theorem imp (h : Parted P css ts) : (∀ cs ∈ css, ∀ us, us.Sublist ts → P cs us → Q cs us) → Parted Q css ts := by
  induction h with
  | last hp => exact fun hpq => .last (hpq _ List.mem_cons_self _ (List.Sublist.refl _) hp)
  | @more cs css ts us t hp ht _ ih =>
    refine fun hpq => .more (hpq _ List.mem_cons_self _ (List.sublist_append_left _ _) hp) ht (ih fun ds hds xs hxs => ?_)
    exact hpq ds (List.mem_cons_of_mem cs hds) xs ((hxs.cons t).trans (List.sublist_append_right ts (t :: us)))

theorem tiles (h : Parted Tiles css ts) : ∃ us, us.Sublist ts ∧ Tiles css.flatten us := by
  induction h with
  | @last cs ts hp =>
    refine ⟨ts, List.Sublist.refl ts, ?_⟩
    rwa [List.flatten_cons, List.flatten_nil, List.append_nil]
  | @more cs css ts us t hp _ _ ih =>
    obtain ⟨xs, hxs, hcss⟩ := ih
    exact ⟨ts ++ xs, (hxs.cons t).append_left ts, tiles_append hp hcss⟩

theorem cons {c : Column} {cs : List Column} {us : List Token} (h : Parted Tiles (cs :: css) ts) (hc : c.Spans us) :
    Parted Tiles ((c :: cs) :: css) (us ++ ts) := by
  cases h with
  | last hp => exact .last ⟨us, ts, rfl, hc, hp⟩
  | more hp ht h =>
    rw [← List.append_assoc]
    exact .more ⟨us, _, rfl, hc, hp⟩ ht h

end Parted

/-- **Between two separators the expressions of an argument tile the tokens.** -/
theorem parted_cutArguments (limit : Limit) (table : Table) (depth : Nat) : ∀ {ns : List Nest},
    (∀ n ∈ ns, n.isAccess = false) → Parted Tiles
      ((Expression.cutArguments (ns.map (Expression.ofNest limit table depth))).map Expression.columns) (Nest.tokensOf ns)
  | [], _ => .last rfl
  | n :: ns, h => by
    have ih := parted_cutArguments limit table depth fun m hm => h m (List.mem_cons_of_mem n hm)
    rw [List.map_cons, Expression.cutArguments, Nest.tokensOf]
    cases hs : (Expression.ofNest limit table depth n).isSeparator with
    | true =>
      obtain ⟨t, rfl, ht⟩ := Expression.isSeparator_ofNest hs
      rw [if_pos rfl]
      exact .more (show Tiles [] [] from rfl) ht ih
    | false =>
      rw [if_neg Bool.false_ne_true]
      cases hc : Expression.cutArguments (ns.map (Expression.ofNest limit table depth)) with
      | nil       => exact absurd hc (Expression.cutArguments_ne_nil _)
      | cons a as =>
        rw [hc] at ih
        exact ih.cons (Expression.spans_ofNest (h n List.mem_cons_self))

/-! ## Groups -/

/-- **How a group shares out the tokens in its column.**  They are an opening bracket, what stands in the group, and the
closing bracket if there is one.  The columns of the arguments' expressions are in order between the brackets, and of what
stands in the group each token lies in one of them, of the argument it belongs to, except for the separators between the
arguments. -/
def Group.Tiled (tokens : List Token) (g : Group) : Prop :=
  ∃ opening inner closing, tokens.filter g.column.holds = opening :: (inner ++ Option.toList closing) ∧
    opening.kind = .opener g.bracket ∧ closing.isSome = g.closed ∧ (∀ t, closing = some t → t.kind = .closer g.bracket) ∧
    InOrder (opening.column :: (g.arguments.flatten ++ Token.columns closing.toList)) ∧
    (∀ c ∈ g.arguments.flatten, g.column.start ≤ c.start ∧ c.stop ≤ g.column.stop) ∧
    (g.arguments = [] ∧ inner = [] ∨ Parted (fun cs ts => ∀ t ∈ ts,
      cs.countP (·.holds t) = 1 ∧ g.arguments.flatten.countP (·.holds t) = 1) g.arguments inner)

namespace Nest.Built

variable {limit : Limit} {table : Table} {inOpen : Bool} {x : Nest.Built}

theorem spans_column (limit : Limit) (table : Table) (x : Nest.Built) :
    (x.group limit table).column.Spans (x.opening :: (tokensOf x.body ++ x.closing.toList)) :=
  spans_groupColumn x.opening x.body x.closing

theorem inOrder_body (h : InOrder (Token.columns x.nest.tokens)) : InOrder (Token.columns (tokensOf x.body)) :=
  Token.inOrder_sublist h ((List.sublist_append_left _ _).cons x.opening)

theorem kind_brackets (hdepth : limit.exceeded x.depth = false) (h : Paired limit inOpen x.depth x.nest) :
    x.opening.kind = .opener x.bracket ∧ ∀ t, x.closing = some t → t.kind = .closer x.bracket := by
  cases h with
  | group hopening hclosing _ =>
    refine ⟨hopening, fun t ht => ?_⟩
    obtain ⟨b, hkind, rfl | hdeep⟩ := hclosing t ht
    · exact hkind
    · rw [hdepth] at hdeep
      cases hdeep

theorem parted (limit : Limit) (table : Table) (hno : ∀ n ∈ x.body, n.isAccess = false) :
    (x.group limit table).arguments = [] ∧ tokensOf x.body = [] ∨
      Parted Tiles (x.group limit table).arguments (tokensOf x.body) := by
  rw [group, Expression.items_of_not_access hno]
  cases hbody : x.body with
  | nil       => exact .inl ⟨rfl, rfl⟩
  | cons n ns => exact .inr (parted_cutArguments limit table (x.depth + 1) (hbody ▸ hno))

theorem tiles (limit : Limit) (table : Table) (hno : ∀ n ∈ x.body, n.isAccess = false) :
    ∃ us, us.Sublist (tokensOf x.body) ∧ Tiles (x.group limit table).arguments.flatten us := by
  rcases parted limit table hno with ⟨hnil, -⟩ | h
  · rw [hnil]
    exact ⟨[], List.nil_sublist _, rfl⟩
  · exact h.tiles

/-- **A group shares its tokens out.** -/
theorem tiled {tokens : List Token} (horder : InOrder (Token.columns tokens)) (htokens : x.nest.tokens <:+: tokens)
    (hdepth : limit.exceeded x.depth = false) (hpaired : Paired limit inOpen x.depth x.nest)
    (hno : ∀ n ∈ x.body, n.isAccess = false) : (x.group limit table).Tiled tokens := by
  have hspans := x.spans_column limit table
  have hgroup : InOrder (Token.columns x.nest.tokens) := Token.inOrder_sublist horder htokens.sublist
  have hbody := inOrder_body hgroup
  obtain ⟨hopening, hclosing⟩ := kind_brackets hdepth hpaired
  obtain ⟨us, hus, htiles⟩ := tiles limit table hno
  have hflat := htiles.inOrder (Token.inOrder_sublist hbody hus)
  refine ⟨x.opening, tokensOf x.body, x.closing, filter_holds hspans htokens horder, hopening, rfl, hclosing, ?_, ?_, ?_⟩
  · have hall : Tiles (x.opening.column :: ((x.group limit table).arguments.flatten ++ Token.columns x.closing.toList))
        (x.opening :: (us ++ x.closing.toList)) :=
      ⟨[x.opening], us ++ x.closing.toList, rfl, ⟨x.opening, x.opening, rfl, rfl, rfl⟩,
        tiles_append htiles (tiles_columns _)⟩
    exact hall.inOrder (Token.inOrder_sublist hgroup ((hus.append_right _).cons_cons x.opening))
  · intro d hd
    obtain ⟨xs, hxs, hd⟩ := htiles.exists_spans d hd
    have hholds : ∀ t ∈ xs, (x.group limit table).column.holds t = true := fun t ht =>
      hspans.holds_of_mem hgroup t (List.mem_cons_of_mem _ (List.mem_append_left _ (hus.subset (hxs.subset ht))))
    exact ⟨hd.le_start fun t ht => (holds_iff.1 (hholds t ht)).1, hd.stop_le fun t ht => (holds_iff.1 (hholds t ht)).2⟩
  · refine (parted limit table hno).imp_right fun hparted => hparted.imp fun cs hcs ts hts htiles t ht => ?_
    have hpart := Token.inOrder_sublist hbody hts
    obtain ⟨d, hd, hdt⟩ := htiles.exists_holds hpart t ht
    exact ⟨htiles.countP_holds hpart t ht,
      hflat.countP_holds_eq_one (Token.wide_of_mem hpart ht) ⟨d, List.mem_flatten.2 ⟨cs, hcs, hd⟩, hdt⟩⟩

end Nest.Built

/-! ## The statement -/

def Statement.columns (s : Statement) : List Column :=
  (s.keyword.map Prod.fst).toList ++ Expression.columns s.expressions

namespace Nest

theorem isAccess_of_flatOf {ns : List Nest} (h : ∀ p ∈ flatOf ns, p.isAccess = false) : ∀ n ∈ ns, n.isAccess = false := by
  intro n hn
  cases n with
  | leaf p  =>
    refine h p ?_
    rw [flatOf_eq_flatMap]
    exact List.mem_flatMap.2 ⟨_, hn, List.mem_singleton_self p⟩
  | group => rfl

end Nest

namespace Run

theorem columns_expressions (limit : Limit) (table : Table) (r : Run) :
    Expression.columns (r.expressions limit table) = Expression.columns (Expression.items limit table 0 (r.nests limit)) := by
  rw [expressions]
  split
  · exact (Expression.groups_nameFile _).1
  · rfl

theorem groups_expressions (limit : Limit) (table : Table) (r : Run) :
    Expression.groupsOf (r.expressions limit table) =
      (Nest.builtOf limit 0 (r.nests limit)).map (Nest.Built.group limit table) := by
  rw [expressions, ← Nest.groups_items]
  split
  · exact (Expression.groups_nameFile _).2
  · rfl

theorem tiles_keyword (r : Run) : ∃ ts, r.tokens = ts ++ r.operands ∧ Tiles (r.keyword?.map Prod.fst).toList ts := by
  cases hk : r.keyword? with
  | none => exact ⟨[], (operands_of_keyword?_eq_none hk).symm, rfl⟩
  | some k =>
    obtain ⟨c, k⟩ := k
    obtain ⟨t, ts, hts, -, hoperands⟩ := keyword?_eq_some hk
    have hcolumn : t.column = c := by
      rw [keyword?, hts] at hk
      obtain ⟨k', -, he⟩ := Option.map_eq_some_iff.1 hk
      exact (Prod.mk.inj he).1
    rw [hts, hoperands, ← hcolumn]
    exact ⟨[t], rfl, tiles_columns [t]⟩

/-- **The keyword and the expressions tile the tokens of a statement** in which no access is granted. -/
theorem tiles_statement {r : Run} (table : Table) (hno : ∀ p ∈ phrases r.isOpen r.operands, p.isAccess = false) :
    Tiles (r.statement table).columns r.tokens := by
  obtain ⟨ts, hts, hkeyword⟩ := r.tiles_keyword
  rw [hts, Statement.columns, show (r.statement table).expressions = r.expressions nestingLimit table from rfl,
    columns_expressions, ← tokensOf_nests nestingLimit r]
  refine tiles_append hkeyword (Expression.tiles_items (Nest.isAccess_of_flatOf ?_))
  rwa [Clean.flatOf_nests]

end Run

namespace Run

theorem operands_suffix (r : Run) : r.operands <:+ r.tokens := by
  obtain ⟨ts, hts, -⟩ := r.tiles_keyword
  exact ⟨ts, hts.symm⟩

theorem tokensOf_nests_within (limit : Limit) (r : Run) : Nest.tokensOf (r.nests limit) <:+: r.tokens := by
  rw [tokensOf_nests]
  exact r.operands_suffix.isInfix

theorem paired_nests (limit : Limit) (r : Run) : ∀ n ∈ r.nests limit, Nest.Paired limit r.isOpen 0 n :=
  Nest.paired_ofPhrases (Phrase.formed_phrases r.isOpen r.operands)

/-- **Each group of a statement shares its tokens out**, where no access is granted. -/
theorem tiled_groups {r : Run} (table : Table) (horder : InOrder (Token.columns r.tokens))
    (hno : ∀ p ∈ phrases r.isOpen r.operands, p.isAccess = false) :
    ∀ g ∈ Expression.groupsOf (r.statement table).expressions, g.Tiled r.tokens := by
  intro g hg
  rw [show (r.statement table).expressions = r.expressions nestingLimit table from rfl, groups_expressions] at hg
  obtain ⟨x, hx, rfl⟩ := List.mem_map.1 hg
  obtain ⟨hdepth, hpaired⟩ := Nest.paired_builtOf (paired_nests nestingLimit r) x hx
  refine Nest.Built.tiled horder ?_ hdepth hpaired (Nest.isAccess_of_flatOf fun p hp => hno p ?_)
  · exact (Nest.tokens_built hx).trans (tokensOf_nests_within nestingLimit r)
  · rw [← Clean.flatOf_nests]
    exact (Nest.flatOf_built x hx).subset (List.mem_cons_of_mem _ (List.mem_append_left _ hp))

theorem column_eq {r : Run} (hne : r.tokens ≠ []) : r.tokens.head?.map (·.column.start) = some r.column.start ∧
    r.tokens.getLast?.map (·.column.stop) = some r.column.stop := by
  rw [column, List.head?_eq_some_head hne, List.getLast?_eq_some_getLast hne]
  exact ⟨rfl, rfl⟩

end Run

/-- **The expressions of a statement tile it, and those of each group tile the group.**  In a statement that is no `OPEN`
with an `ACCESS` in it, the columns of the keyword and of the expressions are in order, run from the start of the statement
to its stop, and hold each token once; every group, closed or not, shares out the tokens in its column in the same way. -/
theorem columns_tile_statement (number : Nat) (text : Text) {tokens : List Token}
    (hrun : tokens ∈ (CodeLine.ofSource number text).runs) (index : Nat) (table : Table)
    (hno : ¬ ((⟨index, number, tokens⟩ : Run).isOpen = true ∧ ∃ t ∈ tokens, t.word? = some .access)) :
    let s := (⟨index, number, tokens⟩ : Run).statement table
    InOrder s.columns ∧
    s.columns.head?.map Column.start = some s.column.start ∧ s.columns.getLast?.map Column.stop = some s.column.stop ∧
    (∀ t ∈ tokens, s.columns.countP (·.holds t) = 1) ∧
    ∀ g ∈ Expression.groupsOf s.expressions, g.Tiled tokens := by
  have hphrases := not_access_of_no_word (r := ⟨index, number, tokens⟩) fun hopen t ht hword => hno ⟨hopen, t, ht, hword⟩
  have horder := inOrder_of_mem_runs hrun
  have htiles := Run.tiles_statement table hphrases
  obtain ⟨hstart, hstop⟩ := Run.column_eq (r := ⟨index, number, tokens⟩) (CodeLine.ne_nil_of_mem_runs hrun)
  exact ⟨htiles.inOrder horder, htiles.ends.1.trans hstart, htiles.ends.2.trans hstop, htiles.countP_holds horder,
    Run.tiled_groups table horder hphrases⟩

/-- A mode, a file name in a group that is not closed, in that a size with a stray bracket, and a file handle. -/
theorem columns_tile_statement_open :
    let text := "OPEN FOR INPUT (\"f\", [a); #2".toList
    let r : Run := ⟨0, 1, tokenize text⟩
    let s := r.statement Table.empty
    tokenize text ∈ (CodeLine.ofSource 1 text).runs ∧
    ¬ (r.isOpen = true ∧ ∃ t ∈ tokenize text, t.word? = some .access) ∧
    InOrder s.columns ∧
    s.columns.head?.map Column.start = some s.column.start ∧ s.columns.getLast?.map Column.stop = some s.column.stop ∧
    (∀ t ∈ tokenize text, s.columns.countP (·.holds t) = 1) ∧
    ∀ g ∈ Expression.groupsOf s.expressions, g.Tiled (tokenize text) := by
  have hrun : tokenize "OPEN FOR INPUT (\"f\", [a); #2".toList ∈
      (CodeLine.ofSource 1 "OPEN FOR INPUT (\"f\", [a); #2".toList).runs := by decide
  have hno : ¬ ((⟨0, 1, tokenize "OPEN FOR INPUT (\"f\", [a); #2".toList⟩ : Run).isOpen = true ∧
      ∃ t ∈ tokenize "OPEN FOR INPUT (\"f\", [a); #2".toList, t.word? = some .access) := by decide
  exact ⟨hrun, hno, columns_tile_statement 1 _ hrun 0 Table.empty hno⟩

end BlockBasic
