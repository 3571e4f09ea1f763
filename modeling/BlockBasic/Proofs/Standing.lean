import BlockBasic.Proofs.Descending
import BlockBasic.Proofs.Malformed
import BlockBasic.Proofs.StatementColumns
/-!
# Standing — what stands somewhere in a statement

Expressions stand in a statement if they come one right after the other in it, or in an argument of one of its groups
(`Expression.Stands`).  Those that are firm stay where they are, whatever access is granted around them, however arguments
are cut, and whichever string becomes the name of the file.

What the walk that pairs brackets has put into an open group it carries to the end (`Nest.Pairing.Carried`).  So what is
put down while the groups are within the limit stands in the statement (`Run.stands`), and a token met when more are open
is in a group that the statement does not look into (`Run.passed_over`).
-/
namespace BlockBasic

open Nest (Frame Pairing tokensOf faultsOf groupColumn)

/-! ## Expressions that stand in others -/

namespace Expression

/-- **Expressions that stand next to each other** in a sequence, at any depth. -/
inductive Stands (xs : List Expression) : List Expression → Prop
  | here {es : List Expression} : xs <:+: es → Stands xs es
  | inside {es a : List Expression} {c : Column} {b : Bracket} {arguments : List (List Expression)} {closed : Bool} :
      .group c b arguments closed ∈ es → a ∈ arguments → Stands xs a → Stands xs es

/-- An expression that building leaves as it is: no mode, no separator and nothing that holds a string. -/
def isFirm (e : Expression) : Bool := !e.isMode && !e.isSeparator && (nameFile? e).isNone

variable {xs es : List Expression}

theorem isFirm_iff {e : Expression} : e.isFirm = true ↔ e.isMode = false ∧ e.isSeparator = false ∧ nameFile? e = none := by
  simp [isFirm, and_assoc]

theorem Stands.of_infix (h : Stands xs es) {fs : List Expression} (hes : es <:+: fs) : Stands xs fs := by
  cases h with
  | here h         => exact .here (h.trans hes)
  | inside hg ha h => exact .inside (hes.subset hg) ha h

/-- What is next to each other and does not hold `x` is on one side of it, and stays when `x` is replaced. -/
theorem infix_replace {α : Type} {ys before after : List α} {x y : α} (hx : x ∉ ys) (h : ys <:+: before ++ x :: after) :
    ys <:+: before ++ y :: after := by
  have hbefore : before <:+: before ++ y :: after := (List.prefix_append _ _).isInfix
  have hafter : after <:+: before ++ y :: after := ((List.suffix_cons y after).trans (List.suffix_append _ _)).isInfix
  rcases List.infix_append_iff.1 h with h | h | ⟨us, vs, rfl, hus, hvs⟩
  · exact h.trans hbefore
  · rcases List.infix_cons_iff.1 h with h | h
    · cases ys with
      | nil       => exact List.nil_infix
      | cons u us => exact absurd ((List.cons_prefix_cons.1 h).1 ▸ List.mem_cons_self) hx
    · exact h.trans hafter
  · cases vs with
    | nil       => exact (List.append_nil us).symm ▸ hus.isInfix.trans hbefore
    | cons v vs => exact absurd ((List.cons_prefix_cons.1 hvs).1 ▸ List.mem_append_right us List.mem_cons_self) hx

theorem mem_replace {α : Type} {before after : List α} {x y z : α} (hz : z ≠ x) (h : z ∈ before ++ x :: after) :
    z ∈ before ++ y :: after := by
  rw [List.mem_append, List.mem_cons] at h ⊢
  exact h.imp_right fun h => .inr (h.resolve_left hz)

/-! ### Arguments -/

theorem prefix_cutArguments : ∀ {xs es : List Expression}, (∀ x ∈ xs, x.isSeparator = false) → xs <+: es →
    ∃ a as, cutArguments es = a :: as ∧ xs <+: a
  | [], es, _, _ => by
    obtain ⟨a, as, h⟩ := List.exists_cons_of_ne_nil (cutArguments_ne_nil es)
    exact ⟨a, as, h, List.nil_prefix⟩
  | x :: xs, e :: es, hx, h => by
    obtain ⟨rfl, htail⟩ := List.cons_prefix_cons.1 h
    obtain ⟨a, as, has, hprefix⟩ := prefix_cutArguments (fun y hy => hx y (List.mem_cons_of_mem x hy)) htail
    refine ⟨x :: a, as, ?_, List.cons_prefix_cons.2 ⟨rfl, hprefix⟩⟩
    rw [cutArguments, hx x List.mem_cons_self, if_neg Bool.false_ne_true, has]

/-- **What holds no separator is cut nowhere.** -/
theorem infix_cutArguments (hxs : ∀ x ∈ xs, x.isSeparator = false) (h : xs <:+: es) :
    ∃ a ∈ cutArguments es, xs <:+: a := by
  induction es with
  | nil => exact ⟨[], List.mem_singleton_self _, h⟩
  | cons e es ih =>
    rcases List.infix_cons_iff.1 h with h | h
    · obtain ⟨a, as, has, hprefix⟩ := prefix_cutArguments hxs h
      exact ⟨a, has ▸ List.mem_cons_self, hprefix.isInfix⟩
    · obtain ⟨a, ha, hin⟩ := ih h
      rw [cutArguments]
      split
      · exact ⟨a, List.mem_cons_of_mem _ ha, hin⟩
      · obtain ⟨first, as, has⟩ := List.exists_cons_of_ne_nil (cutArguments_ne_nil es)
        rw [has] at ha ⊢
        rcases List.mem_cons.1 ha with rfl | ha
        · exact ⟨e :: a, List.mem_cons_self, hin.trans (List.suffix_cons e a).isInfix⟩
        · exact ⟨a, List.mem_cons_of_mem _ ha, hin⟩

/-! ### The name of a file -/

/-- **One expression of a sequence is named**, and nothing else changes. -/
theorem nameFileIn?_eq_some {named : List Expression} (h : nameFileIn? es = some named) :
    ∃ before e e' after, es = before ++ e :: after ∧ nameFile? e = some e' ∧ named = before ++ e' :: after := by
  induction es generalizing named with
  | nil          => cases h
  | cons e es ih =>
    rw [nameFileIn?] at h
    cases he : nameFile? e with
    | some e' =>
      rw [he] at h
      cases h
      exact ⟨[], e, e', es, rfl, he, rfl⟩
    | none =>
      rw [he] at h
      obtain ⟨rest, hr, rfl⟩ := Option.map_eq_some_iff.1 h
      obtain ⟨before, x, x', after, rfl, hx, rfl⟩ := ih hr
      exact ⟨e :: before, x, x', after, rfl, hx, rfl⟩

theorem nameFileInArguments?_eq_some {as named : List (List Expression)} (h : nameFileInArguments? as = some named) :
    ∃ before a a' after, as = before ++ a :: after ∧ nameFileIn? a = some a' ∧ named = before ++ a' :: after := by
  induction as generalizing named with
  | nil          => cases h
  | cons a as ih =>
    rw [nameFileInArguments?] at h
    cases ha : nameFileIn? a with
    | some a' =>
      rw [ha] at h
      cases h
      exact ⟨[], a, a', as, rfl, ha, rfl⟩
    | none =>
      rw [ha] at h
      obtain ⟨rest, hr, rfl⟩ := Option.map_eq_some_iff.1 h
      obtain ⟨before, x, x', after, rfl, hx, rfl⟩ := ih hr
      exact ⟨a :: before, x, x', after, rfl, hx, rfl⟩

/-! ### Firm expressions stay -/

section

variable (hfirm : ∀ x ∈ xs, x.isFirm = true)
include hfirm

theorem Stands.settle (h : Stands xs es) (p : Piece) : Stands xs (settle es p) := by
  cases p with
  | expression e => exact h.of_infix (List.prefix_append _ _).isInfix
  | access word a stop =>
    rw [Expression.settle]
    cases hg : grant? a stop es with
    | none         => exact h.of_infix (List.prefix_append _ _).isInfix
    | some granted =>
      obtain ⟨before, c, m, access, after, rfl, -, rfl⟩ := grant?_eq_some hg
      cases h with
      | here h         => exact .here (infix_replace (fun hm => Bool.noConfusion (isFirm_iff.1 (hfirm _ hm)).1) h)
      | inside hg ha h => exact .inside (mem_replace (by simp) hg) ha h

theorem Stands.exists_argument (hne : xs ≠ []) (h : Stands xs es) : ∃ a ∈ argumentsOf es, Stands xs a := by
  cases h with
  | here h =>
    cases es with
    | nil       => exact absurd (List.infix_nil.1 h) hne
    | cons e es =>
      obtain ⟨a, ha, hin⟩ := infix_cutArguments (fun x hx => (isFirm_iff.1 (hfirm x hx)).2.1) h
      exact ⟨a, ha, .here hin⟩
  | inside hg ha h =>
    have hkept := List.mem_filter (p := fun e => !e.isSeparator).2 ⟨hg, rfl⟩
    rw [← flatten_argumentsOf] at hkept
    obtain ⟨a, hmem, hg⟩ := List.mem_flatten.1 hkept
    exact ⟨a, hmem, .inside hg ha h⟩

theorem Stands.nameFileIn? (h : Stands xs es) : ∀ {named : List Expression}, nameFileIn? es = some named →
    Stands xs named := by
  induction h with
  | here h =>
    intro named hnamed
    obtain ⟨before, e, e', after, rfl, he, rfl⟩ := nameFileIn?_eq_some hnamed
    exact .here (infix_replace (fun hm => Option.some_ne_none _ (he.symm.trans (isFirm_iff.1 (hfirm e hm)).2.2)) h)
  | @inside es a c b arguments closed hg ha h ih =>
    intro named hnamed
    obtain ⟨before, e, e', after, rfl, he, rfl⟩ := nameFileIn?_eq_some hnamed
    by_cases hsame : Expression.group c b arguments closed = e
    · -- The string is in the group itself, which holds the same arguments but for the one with the string.
      rw [← hsame] at he
      obtain ⟨as, has, rfl⟩ := Option.map_eq_some_iff.1 he
      obtain ⟨xs', x, x', ys', rfl, hx, rfl⟩ := nameFileInArguments?_eq_some has
      have hgroup : Expression.group c b (xs' ++ x' :: ys') closed ∈
          before ++ .group c b (xs' ++ x' :: ys') closed :: after := List.mem_append_right _ List.mem_cons_self
      by_cases hax : a = x
      · exact .inside hgroup (List.mem_append_right _ List.mem_cons_self) (ih (hax ▸ hx))
      · exact .inside hgroup (mem_replace hax ha) h
    · exact .inside (mem_replace hsame hg) ha h

theorem Stands.nameFile (h : Stands xs es) : Stands xs (nameFile es) := by
  rw [Expression.nameFile]
  cases hn : Expression.nameFileIn? es with
  | none       => exact h
  | some named => exact h.nameFileIn? hfirm hn

end

end Expression

/-! ## What the walk carries to its end -/

/-- Whether what is inside `depth` groups is looked into. -/
def Limit.allows (limit : Limit) (depth : Nat) : Prop := ∀ d < depth, limit.exceeded d = false

theorem Limit.allows_zero (limit : Limit) : limit.allows 0 := nofun

theorem Limit.allows_succ {limit : Limit} {depth : Nat} :
    limit.allows (depth + 1) ↔ limit.allows depth ∧ limit.exceeded depth = false := by
  refine ⟨fun h => ⟨fun d hd => h d (Nat.lt_succ_of_lt hd), h depth (Nat.lt_succ_self depth)⟩, fun h d hd => ?_⟩
  rcases Nat.lt_succ_iff_lt_or_eq.1 hd with hd | rfl
  · exact h.1 d hd
  · exact h.2

theorem Limit.allows_some {k depth : Nat} : Limit.allows (some k) depth ↔ depth ≤ k := by
  simp only [Limit.allows, Limit.exceeded_some, decide_eq_false_iff_not]
  exact ⟨fun h => Nat.le_of_not_lt fun hlt => h k hlt (Nat.le_refl k), fun h d hd => by omega⟩

namespace Nest.Pairing

open Expression (Stands items settle nestPiece nestPieces_eq_map)

/-- **What a walk carries**: it stays when more is put after it, and goes out with the group it is in. -/
structure Carried (Q : Nat → List Nest → Prop) : Prop where
  append : ∀ {depth : Nat} {ns : List Nest} (n : Nest), Q depth ns → Q depth (ns ++ [n])
  inside : ∀ {depth : Nat} {body : List Nest} (before : List Nest) (b : Bracket) (o : Token) (c : Option Token),
    Q (depth + 1) body → Q depth (before ++ [.group b o body c])

/-- That it is in one of the open groups. -/
def Has (Q : Nat → List Nest → Prop) : List Frame → List Nest → Prop
  | [], current      => Q 0 current
  | f :: fs, current => Q (fs.length + 1) current ∨ Has Q fs f.before

namespace Carried

variable {Q : Nat → List Nest → Prop} {frames : List Frame} {current : List Nest} {limit : Limit}

theorem has_innermost (h : Q frames.length current) : Has Q frames current := by
  cases frames with
  | nil       => exact h
  | cons f fs => exact .inl h

variable (hQ : Carried Q)
include hQ

theorem add (n : Nest) (h : Has Q frames current) : Has Q frames (current ++ [n]) := by
  cases frames with
  | nil       => exact hQ.append n h
  | cons f fs => exact h.imp_left (hQ.append n)

theorem close {f : Frame} {fs : List Frame} (c : Option Token) (h : Has Q (f :: fs) current) :
    Has Q fs (f.before ++ [.group f.bracket f.opening current c]) := by
  rcases h with h | h
  · exact has_innermost (hQ.inside f.before f.bracket f.opening c h)
  · exact hQ.add _ h

theorem step {s : Pairing} (p : Phrase) (h : Has Q s.frames s.current) :
    Has Q (s.step limit p).frames (s.step limit p).current := by
  rcases p.first.kind.bracket_cases with ⟨b, hk⟩ | ⟨b, hk⟩ | hk
  · rw [step_opener hk]
    exact .inr h
  · obtain ⟨frames, current⟩ := s
    cases frames with
    | nil =>
      rw [step_stray hk (by simp)]
      exact hQ.add _ h
    | cons f fs =>
      cases hfits : fits limit b f fs with
      | true =>
        rw [step_closes hk hfits]
        exact hQ.close _ h
      | false =>
        rw [step_stray hk (by rintro g gs ⟨⟩; exact hfits)]
        exact hQ.add _ h
  · rw [step_other hk]
    exact hQ.add _ h

theorem foldl (ps : List Phrase) : ∀ {s : Pairing}, Has Q s.frames s.current →
    Has Q (ps.foldl (Pairing.step limit) s).frames (ps.foldl (Pairing.step limit) s).current := by
  induction ps with
  | nil          => exact id
  | cons p ps ih => exact fun h => ih (hQ.step p h)

theorem finish : ∀ {frames : List Frame} {current : List Nest}, Has Q frames current →
    Q 0 (Pairing.finish frames current)
  | [], _, h            => h
  | f :: fs, current, h =>
    show Q 0 (Pairing.finish fs (f.before ++ [.group f.bracket f.opening current none])) from finish (hQ.close none h)

theorem ofPhrases (ps qs : List Phrase) (h : let s := ps.foldl (Pairing.step limit) {}; Q s.frames.length s.current) :
    Q 0 (Nest.ofPhrases limit (ps ++ qs)) := by
  rw [Nest.ofPhrases, List.foldl_append]
  exact hQ.finish (hQ.foldl qs (has_innermost h))

end Carried

/-! ## What is carried -/

variable {limit : Limit} {table : Table}

theorem items_append (depth : Nat) (ns : List Nest) (n : Nest) :
    items limit table depth (ns ++ [n]) = settle (items limit table depth ns) (nestPiece limit table depth n) := by
  simp only [items, nestPieces_eq_map, List.map_append, List.map_singleton, List.foldl_append, List.foldl_cons,
    List.foldl_nil]

theorem carried_stands {xs : List Expression} (hfirm : ∀ x ∈ xs, x.isFirm = true) (hne : xs ≠ []) :
    Carried (fun depth ns => limit.allows depth ∧ Stands xs (items limit table depth ns)) where
  append n h := ⟨h.1, items_append _ _ n ▸ h.2.settle hfirm _⟩
  inside {depth body} before b o c h := by
    obtain ⟨hallows, hroom⟩ := Limit.allows_succ.1 h.1
    obtain ⟨a, ha, hstands⟩ := h.2.exists_argument hfirm hne
    refine ⟨hallows, ?_⟩
    rw [items_append, nestPiece, hroom, if_neg Bool.false_ne_true]
    exact .inside (List.mem_append_right _ (List.mem_singleton_self _)) ha hstands

theorem carried_faults (f : Column × Fault) :
    Carried (fun depth ns => limit.allows depth ∧ f ∈ faultsOf limit depth ns) where
  append {depth ns} n h := by
    obtain ⟨m, hm, hf⟩ := mem_faultsOf.1 h.2
    exact ⟨h.1, mem_faultsOf.2 ⟨m, List.mem_append_left _ hm, hf⟩⟩
  inside {depth body} before b o c h := by
    obtain ⟨hallows, hroom⟩ := Limit.allows_succ.1 h.1
    refine ⟨hallows, mem_faultsOf.2 ⟨_, List.mem_append_right _ (List.mem_singleton_self _), ?_⟩⟩
    rw [faults, hroom, if_neg Bool.false_ne_true]
    exact List.mem_append_left _ h.2

/-- **That `t` is in a group that is too deep**, if what is around it is not. -/
def PassedOver (limit : Limit) (t : Token) (depth : Nat) (ns : List Nest) : Prop :=
  t ∈ tokensOf ns ∧ (limit.allows depth → ∃ o body c text, t ∈ tokensOf body ∧
    o :: (tokensOf body ++ c.toList) <:+: tokensOf ns ∧ (groupColumn o body c, text) ∈ malformedOf limit depth ns ∧
    (o.column, .tooDeep (limit.getD 0)) ∈ faultsOf limit depth ns)

theorem carried_passedOver (limit : Limit) (t : Token) : Carried (PassedOver limit t) where
  append {depth ns} n h := by
    refine ⟨?_, fun hallows => ?_⟩
    · rw [tokensOf_append]
      exact List.mem_append_left _ h.1
    · obtain ⟨o, body, c, text, ht, hin, hm, hf⟩ := h.2 hallows
      obtain ⟨m, hmem, hm⟩ := mem_malformedOf.1 hm
      refine ⟨o, body, c, text, ht, ?_, mem_malformedOf.2 ⟨m, List.mem_append_left _ hmem, hm⟩,
        ((carried_faults _).append n ⟨hallows, hf⟩).2⟩
      rw [tokensOf_append]
      exact hin.trans (List.prefix_append _ _).isInfix
  inside {depth body} before b o c h := by
    have htokens : tokensOf (before ++ [.group b o body c]) = tokensOf before ++ o :: (tokensOf body ++ c.toList) := by
      rw [tokensOf_append]
      simp [tokensOf, tokens]
    have hlast : Nest.group b o body c ∈ before ++ [.group b o body c] := List.mem_append_right _ (List.mem_singleton_self _)
    refine ⟨by simp [htokens, h.1], fun hallows => ?_⟩
    cases hdeep : limit.exceeded depth with
    | true =>
      -- This is the group that is too deep.
      refine ⟨o, body, c, rawText b body c, h.1, htokens ▸ (List.suffix_append _ _).isInfix,
        mem_malformedOf.2 ⟨_, hlast, ?_⟩, mem_faultsOf.2 ⟨_, hlast, ?_⟩⟩
      · rw [malformed, if_pos hdeep]
        exact List.mem_singleton_self _
      · rw [faults, if_pos hdeep]
        exact List.mem_cons_self
    | false =>
      have hsucc := Limit.allows_succ.2 ⟨hallows, hdeep⟩
      obtain ⟨o', body', c', text, ht, hin, hm, hf⟩ := h.2 hsucc
      refine ⟨o', body', c', text, ht, ?_, mem_malformedOf.2 ⟨_, hlast, ?_⟩,
        ((carried_faults _).inside before b o c ⟨hsucc, hf⟩).2⟩
      · exact hin.trans (htokens ▸ ⟨tokensOf before ++ [o], c.toList, by simp⟩)
      · rwa [malformed, if_neg (by simp [hdeep])]

end Nest.Pairing

/-! ## From some point of a run -/

def Nest.openGroups (limit : Limit) (ps : List Phrase) : Nat := (ps.foldl (Pairing.step limit) {}).frames.length

theorem Nest.Pairing.foldl_leaves {limit : Limit} {leaves : List Phrase} (s : Pairing)
    (h : ∀ p ∈ leaves, p.first.kind.isBracket = false) :
    leaves.foldl (Pairing.step limit) s = { s with current := s.current ++ leaves.map .leaf } := by
  have hflat : Nest.flatOf (leaves.map .leaf) = leaves := by
    rw [Nest.flatOf_eq_flatMap, List.flatMap_map]
    exact List.flatMap_singleton' leaves
  rw [← foldl_flatOf, hflat]
  intro n hn s
  obtain ⟨p, hp, rfl⟩ := List.mem_map.1 hn
  exact step_other (h p hp)

namespace Run

open Expression (Stands items malformedOf ofNests phrasePiece nestPiece nestPieces_eq_map foldl_settle_expressions)
open Nest (openGroups phraseFaults)
open Nest.Pairing (Carried foldl_leaves carried_stands carried_faults carried_passedOver)

variable {r : Run} {limit : Limit} {ps leaves qs : List Phrase}
  (hphrases : phrases r.isOpen r.operands = ps ++ leaves ++ qs)
  (hplain : ∀ p ∈ leaves, p.first.kind.isBracket = false)
include hphrases hplain

theorem carried {Q : Nat → List Nest → Prop} (hQ : Carried Q)
    (h : ∀ ns, Q (openGroups limit ps) (ns ++ leaves.map .leaf)) : Q 0 (r.nests limit) := by
  rw [nests, hphrases]
  refine hQ.ofPhrases (ps ++ leaves) qs ?_
  rw [List.foldl_append, foldl_leaves _ hplain]
  exact h _

/-- **What is put down while no more groups are open than the limit allows stands in the statement.** -/
theorem stands (hallows : limit.allows (openGroups limit ps)) {table : Table} {xs : List Expression}
    (hxs : leaves.map (phrasePiece table) = xs.map .expression) (hfirm : ∀ x ∈ xs, x.isFirm = true) (hne : xs ≠ []) :
    Stands xs (r.expressions limit table) := by
  have hstands : Stands xs (ofNests limit table (r.nests limit)) := by
    refine (carried hphrases hplain (carried_stands hfirm hne) fun ns => ⟨hallows, .here ?_⟩).2
    have hpieces : (leaves.map Nest.leaf).map (nestPiece limit table (openGroups limit ps)) = xs.map .expression := by
      rw [List.map_map, ← hxs]
      rfl
    rw [items, nestPieces_eq_map, List.map_append, List.foldl_append, hpieces, foldl_settle_expressions]
    exact (List.suffix_append _ _).isInfix
  rw [expressions]
  split
  · exact hstands.nameFile hfirm
  · exact hstands

/-- **What is found wrong while no more groups are open than the limit allows is reported.** -/
theorem reported (hallows : limit.allows (openGroups limit ps)) {p : Phrase} (hp : p ∈ leaves) {f : Column × Fault}
    (hf : f ∈ phraseFaults p) : f.2.located r.number f.1 ∈ r.diagnosticsWithin limit := by
  refine List.mem_map_of_mem (carried hphrases hplain (carried_faults f) fun ns => ⟨hallows, ?_⟩).2
  exact Nest.mem_faultsOf.2 ⟨_, List.mem_append_right _ (List.mem_map_of_mem hp), hf⟩

/-- **A token met when more groups are open than the limit allows** lies in the column of a malformed expression, a group
that is reported as too deep where it begins. -/
theorem passed_over (hdeep : ¬ limit.allows (openGroups limit ps)) {table : Table} (hlexed : ∀ t ∈ r.tokens, t.Lexed)
    (horder : Column.InOrder (Token.columns r.tokens)) {p : Phrase} (hp : p ∈ leaves) {t : Token} (ht : t ∈ p.tokens) :
    ∃ x ∈ malformedOf (r.expressions limit table), x.1.holds t = true ∧
      ∃ c, c.start = x.1.start ∧ (Fault.tooDeep (limit.getD 0)).located r.number c ∈ r.diagnosticsWithin limit := by
  obtain ⟨-, hin⟩ := carried hphrases hplain (carried_passedOver limit t) fun ns =>
    ⟨Nest.mem_tokensOf (List.mem_append_right _ (List.mem_map_of_mem hp)) ht, fun hallows => absurd hallows hdeep⟩
  obtain ⟨o, body, c, text, ht, hbody, hm, hf⟩ := hin (Limit.allows_zero limit)
  rw [tokensOf_nests] at hbody
  have hgroup := Token.inOrder_sublist horder (hbody.sublist.trans (operands_sublist r))
  refine ⟨(groupColumn o body c, text), ?_, ?_, o.column, rfl, List.mem_map_of_mem hf⟩
  · rw [malformedOf_expressions hlexed]
    exact hm
  · exact (Nest.spans_groupColumn o body c).holds_of_mem hgroup t (List.mem_cons_of_mem o (List.mem_append_left _ ht))

end Run
end BlockBasic
