import BlockBasic.Proofs.BracketWords
import BlockBasic.Proofs.Descending
/-!
# Nesting — the limit changes nothing but the groups that are too deep

Without a limit the groups of a statement nest as its brackets do, with one only so deep (`Expression.nesting_ofNest_none`,
`Expression.nesting_ofNest_le`).  Where the brackets nest no deeper than the limit, the pairing never gets to it and all
comes out the same (`Nest.ofPhrases_of_height`).  Where they are balanced the pairing is the same at every depth
(`Nest.ofPhrases_of_balanced`), and the limit only replaces the groups beyond it by their text (`Expression.pruned`).
-/
namespace BlockBasic

open Diagnostic (withCodes)
open Descent (spaced)

namespace Expression

/-! ## Nesting -/

mutual

def nesting : Expression → Nat
  | .atom _ _              => 0
  | .group _ _ arguments _ => nestingOfArguments arguments + 1

def nestingOf : List Expression → Nat
  | []      => 0
  | e :: es => max (nesting e) (nestingOf es)

def nestingOfArguments : List (List Expression) → Nat
  | []      => 0
  | a :: as => max (nestingOf a) (nestingOfArguments as)

end

theorem nestingOf_le {es : List Expression} {k : Nat} : nestingOf es ≤ k ↔ ∀ e ∈ es, nesting e ≤ k := by
  induction es with
  | nil         => simp [nestingOf]
  | cons e es ih => rw [nestingOf, Nat.max_le, ih]; simp

theorem nestingOfArguments_le {as : List (List Expression)} {k : Nat} :
    nestingOfArguments as ≤ k ↔ ∀ e ∈ as.flatten, nesting e ≤ k := by
  induction as with
  | nil         => simp [nestingOfArguments]
  | cons a as ih => rw [nestingOfArguments, Nat.max_le, ih, nestingOf_le, List.flatten_cons, List.forall_mem_append]

theorem nesting_separator {e : Expression} (h : e.isSeparator = true) : nesting e = 0 := by
  cases e with
  | atom  => rfl
  | group => cases h

theorem nestingOf_argumentsOf (es : List Expression) : nestingOfArguments (argumentsOf es) = nestingOf es := by
  -- Compared by their bounds, as only these forget the separators.
  have hiff : ∀ k, nestingOfArguments (argumentsOf es) ≤ k ↔ nestingOf es ≤ k := by
    intro k
    rw [nestingOfArguments_le, nestingOf_le, flatten_argumentsOf]
    constructor
    · intro h e he
      by_cases hs : e.isSeparator = true
      · rw [nesting_separator hs]
        exact Nat.zero_le k
      · exact h e (List.mem_filter.2 ⟨he, by simp [hs]⟩)
    · exact fun h e he => h e (List.mem_filter.1 he).1
  exact Nat.le_antisymm ((hiff _).2 (Nat.le_refl _)) ((hiff _).1 (Nat.le_refl _))

/-! ## Cutting off -/

mutual

/-- **An expression cut off below `levels` groups**: a group inside so many others becomes malformed, with the text that
there is at its column. -/
def pruned (text : Column → Text) : (levels : Nat) → Expression → Expression
  | _, .atom c a                         => .atom c a
  | 0, .group c _ _ _                    => .atom c (.malformed (text c))
  | levels + 1, .group c b arguments closed => .group c b (prunedArguments text levels arguments) closed

def prunedOf (text : Column → Text) : (levels : Nat) → List Expression → List Expression
  | _, []           => []
  | levels, e :: es => pruned text levels e :: prunedOf text levels es

def prunedArguments (text : Column → Text) : (levels : Nat) → List (List Expression) → List (List Expression)
  | _, []           => []
  | levels, a :: as => prunedOf text levels a :: prunedArguments text levels as

end

mutual

def cutOff : (levels : Nat) → Expression → List Column
  | _, .atom _ _                       => []
  | 0, .group c _ _ _                  => [c]
  | levels + 1, .group _ _ arguments _ => cutOffArguments levels arguments

def cutOffOf : (levels : Nat) → List Expression → List Column
  | _, []           => []
  | levels, e :: es => cutOff levels e ++ cutOffOf levels es

def cutOffArguments : (levels : Nat) → List (List Expression) → List Column
  | _, []           => []
  | levels, a :: as => cutOffOf levels a ++ cutOffArguments levels as

end

variable (text : Column → Text) (levels : Nat)

theorem prunedOf_eq_map (es : List Expression) : prunedOf text levels es = es.map (pruned text levels) := by
  induction es with
  | nil         => rfl
  | cons e es ih => rw [prunedOf, ih, List.map_cons]

theorem isSeparator_pruned (e : Expression) : (pruned text levels e).isSeparator = e.isSeparator := by
  cases e with
  | atom  => simp [pruned]
  | group => cases levels <;> rfl

theorem pruned_argumentsOf (es : List Expression) :
    prunedArguments text levels (argumentsOf es) = argumentsOf (prunedOf text levels es) := by
  have hcut : ∀ es, prunedArguments text levels (cutArguments es) = cutArguments (prunedOf text levels es) := by
    intro es
    induction es with
    | nil         => rfl
    | cons e es ih =>
      rw [prunedOf, cutArguments, cutArguments, isSeparator_pruned, ← ih]
      split
      · rfl
      · cases hc : cutArguments es with
        | nil       => exact absurd hc (cutArguments_ne_nil es)
        | cons a as => rfl
  cases es with
  | nil       => rfl
  | cons e es => exact hcut (e :: es)

theorem cutOffOf_append (xs ys : List Expression) :
    cutOffOf levels (xs ++ ys) = cutOffOf levels xs ++ cutOffOf levels ys := by
  induction xs with
  | nil         => rfl
  | cons x xs ih => simp only [List.cons_append, cutOffOf, ih, List.append_assoc]

theorem cutOff_argumentsOf (es : List Expression) : cutOffArguments levels (argumentsOf es) = cutOffOf levels es := by
  have hflatten : ∀ as, cutOffArguments levels as = cutOffOf levels as.flatten := by
    intro as
    induction as with
    | nil         => rfl
    | cons a as ih => rw [cutOffArguments, ih, List.flatten_cons, cutOffOf_append]
  rw [hflatten, flatten_argumentsOf]
  induction es with
  | nil         => rfl
  | cons e es ih =>
    by_cases he : e.isSeparator = true
    · have hnil : cutOff levels e = [] := by
        cases e with
        | atom  => simp [cutOff]
        | group => cases he
      simp [he, ih, cutOffOf, hnil]
    · simp [he, ih, cutOffOf]

/-! ## The groups of nests -/

section

variable {limit : Limit} {table : Table} {depth k : Nat} {b : Bracket} {o : Token} {body : List Nest} {c : Option Token}

theorem ofNest_deep (hd : limit.exceeded depth = true) : ofNest limit table depth (.group b o body c) =
    .atom (Nest.groupColumn o body c) (.malformed (Nest.rawText b body c)) := by
  simp [ofNest, nestPiece, hd]

theorem ofNest_group_of_not_access (hd : limit.exceeded depth = false) (h : ∀ p ∈ Nest.flatOf body, p.isAccess = false) :
    ofNest limit table depth (.group b o body c) =
      .group (Nest.groupColumn o body c) b (argumentsOf (body.map (ofNest limit table (depth + 1)))) c.isSome := by
  rw [← items_of_not_access (Nest.isAccess_of_flatOf h)]
  simp [ofNest, nestPiece, hd, items]

theorem not_access_body (h : ∀ p ∈ Nest.flat (.group b o body c), p.isAccess = false) :
    ∀ p ∈ Nest.flatOf body, p.isAccess = false := fun p hp => h p (List.mem_cons_of_mem _ (List.mem_append_left _ hp))

theorem not_access_of_mem {ns : List Nest} (h : ∀ p ∈ Nest.flatOf ns, p.isAccess = false) {n : Nest} (hn : n ∈ ns) :
    ∀ p ∈ Nest.flat n, p.isAccess = false := by
  intro p hp
  refine h p ?_
  rw [Nest.flatOf_eq_flatMap]
  exact List.mem_flatMap.2 ⟨n, hn, hp⟩

theorem nestingOf_map {f : Nest → Expression} {ns : List Nest} (h : ∀ n ∈ ns, nesting (f n) = n.height) :
    nestingOf (ns.map f) = Nest.heightOf ns := by
  induction ns with
  | nil         => rfl
  | cons n ns ih =>
    rw [List.map_cons, nestingOf, h n List.mem_cons_self, ih fun m hm => h m (List.mem_cons_of_mem n hm), Nest.heightOf]

theorem nesting_leaf (limit : Limit) (table : Table) (depth : Nat) (p : Phrase) :
    nesting (ofNest limit table depth (.leaf p)) = 0 := by
  cases p <;> rfl

/-- **Without a limit expressions nest as their brackets do.** -/
theorem nesting_ofNest_none (table : Table) {n : Nest} : ∀ (depth : Nat), (∀ p ∈ Nest.flat n, p.isAccess = false) →
    nesting (ofNest none table depth n) = n.height := by
  induction n using Nest.induction with
  | leaf p             => exact fun depth _ => nesting_leaf none table depth p
  | group b o body c ih =>
    intro depth h
    have hbody := not_access_body h
    rw [ofNest_group_of_not_access rfl hbody, nesting, nestingOf_argumentsOf,
      nestingOf_map fun n hn => ih n hn (depth + 1) (not_access_of_mem hbody hn), Nest.height]

theorem nesting_ofNest_le (table : Table) {n : Nest} : ∀ (depth : Nat), (∀ p ∈ Nest.flat n, p.isAccess = false) →
    nesting (ofNest (some k) table depth n) ≤ k - depth := by
  induction n using Nest.induction with
  | leaf p             => exact fun depth _ => nesting_leaf (some k) table depth p ▸ Nat.zero_le _
  | group b o body c ih =>
    intro depth h
    have hbody := not_access_body h
    by_cases hd : k ≤ depth
    · rw [ofNest_deep (by simp [hd])]
      exact Nat.zero_le _
    · have hin : nestingOf (body.map (ofNest (some k) table (depth + 1))) ≤ k - (depth + 1) := by
        rw [nestingOf_le, List.forall_mem_map]
        exact fun n hn => ih n hn (depth + 1) (not_access_of_mem hbody hn)
      rw [ofNest_group_of_not_access (by simp [hd]) hbody, nesting, nestingOf_argumentsOf]
      omega

end

end Expression

/-! ## Brackets that nest no deeper than the limit -/

namespace Nest

variable {k : Nat}

theorem same_of_room (table : Table) {n : Nest} : ∀ (depth : Nat), depth ≤ k → n.height ≤ k - depth →
    Expression.nestPiece (some k) table depth n = Expression.nestPiece none table depth n ∧
      faults (some k) depth n = faults none depth n := by
  induction n using Nest.induction with
  | leaf p             => exact fun _ _ _ => ⟨rfl, rfl⟩
  | group b o body c ih =>
    intro depth hdepth hheight
    rw [height] at hheight
    have hroom : Limit.exceeded (some k) depth = false := by
      rw [Limit.exceeded_some, decide_eq_false_iff_not]
      omega
    have hbody : ∀ n ∈ body, Expression.nestPiece (some k) table (depth + 1) n =
        Expression.nestPiece none table (depth + 1) n ∧ faults (some k) (depth + 1) n = faults none (depth + 1) n :=
      fun n hn => ih n hn (depth + 1) (by omega) (heightOf_le.1 (by omega) n hn)
    constructor
    · simp only [Expression.nestPiece, hroom, Expression.nestPieces_eq_map,
        List.map_congr_left fun n hn => (hbody n hn).1]
      rfl
    · have hfaults : faultsOf (some k) (depth + 1) body = faultsOf none (depth + 1) body := by
        rw [faultsOf_eq_flatMap, faultsOf_eq_flatMap, List.flatMap_def, List.flatMap_def,
          List.map_congr_left fun n hn => (hbody n hn).2]
      simp only [faults, hroom, hfaults]
      rfl

namespace Pairing

theorem heightOf_finish_le {xs ys : List Nest} (fs : List Frame) (h : heightOf xs ≤ heightOf ys) :
    heightOf (finish fs xs) ≤ heightOf (finish fs ys) := by
  induction fs generalizing xs ys with
  | nil         => exact h
  | cons f fs ih =>
    refine ih ?_
    simp only [heightOf_append, heightOf, height]
    omega

theorem length_le_heightOf_finish (fs : List Frame) (current : List Nest) :
    fs.length + heightOf current ≤ heightOf (finish fs current) := by
  induction fs generalizing current with
  | nil         => simp [finish]
  | cons f fs ih =>
    have hih := ih (f.before ++ [.group f.bracket f.opening current none])
    simp only [heightOf_append, heightOf, height] at hih
    rw [show finish (f :: fs) current = finish fs (f.before ++ [.group f.bracket f.opening current none]) from rfl,
      List.length_cons]
    omega

/-- **The height never falls**: what has been opened stays. -/
theorem heightOf_step (limit : Limit) (s : Pairing) (p : Phrase) :
    heightOf (finish s.frames s.current) ≤ heightOf (finish (s.step limit p).frames (s.step limit p).current) := by
  have hadd (n : Nest) :
      heightOf (finish s.frames s.current) ≤ heightOf (finish s.frames (s.current ++ [n])) :=
    heightOf_finish_le _ (by rw [heightOf_append]; omega)
  unfold step
  split
  · exact hadd _
  · split
    · rename_i f fs hf
      split
      · have hclosed : heightOf (f.before ++ [.group f.bracket f.opening s.current none])
            ≤ heightOf (f.before ++ [.group f.bracket f.opening s.current (some p.first)]) := by
          simp [heightOf_append, heightOf, height]
        rw [hf]
        exact heightOf_finish_le fs hclosed
      · exact hadd _
    · exact hadd _
  · exact hadd _

theorem heightOf_walk (limit : Limit) (s : Pairing) (ps : List Phrase) :
    heightOf (finish s.frames s.current) ≤ heightOf (walk limit s ps) := by
  induction ps generalizing s with
  | nil         => exact Nat.le_refl _
  | cons p ps ih => exact Nat.le_trans (heightOf_step limit s p) (ih _)

theorem step_of_room {s : Pairing} (h : s.frames.length ≤ k) (p : Phrase) : s.step (some k) p = s.step none p := by
  unfold step
  split
  · rfl
  · split
    · rename_i b _ _ f fs hf
      rw [hf, List.length_cons] at h
      have hroom : Limit.exceeded (some k) fs.length = Limit.exceeded none fs.length := by
        rw [Limit.exceeded_some, Limit.exceeded_none, decide_eq_false_iff_not]
        omega
      rw [show fits (some k) b f fs = fits none b f fs by simp only [fits, hroom]]
    · rfl
  · rfl

theorem foldl_of_height {s : Pairing} {ps : List Phrase} (h : heightOf (walk none s ps) ≤ k) :
    ps.foldl (step (some k)) s = ps.foldl (step none) s := by
  induction ps generalizing s with
  | nil         => rfl
  | cons p ps ih =>
    -- The open groups are no more than the height they come to, so there is room for one phrase more.
    have hlength := length_le_heightOf_finish s.frames s.current
    have hheight := heightOf_walk none s (p :: ps)
    rw [List.foldl_cons, List.foldl_cons, step_of_room (by omega) p]
    exact ih h

theorem Keeps.step_eq {inOpen : Bool} {opened : List Bracket} {s : Pairing} (h : s.Keeps inOpen opened) (limit : Limit)
    {p : Phrase} {ts : List Token} (hb : balanced opened (p.tokens ++ ts) = true) :
    s.step limit p = s.step none p := by
  unfold Pairing.step
  split
  · rfl
  · split
    · rename_i b hk _ f fs hf
      have htokens : p.tokens = p.first :: p.tokens.tail := p.tokens_eq_cons
      rw [htokens, List.cons_append] at hb
      obtain ⟨left, hleft, -⟩ := (balanced_closer_iff hk).1 hb
      have hbracket := h.brackets
      rw [hf, hleft, List.map_cons, List.cons.injEq] at hbracket
      simp [fits, hbracket.1]
    · rfl
  · rfl

theorem foldl_of_balanced {inOpen : Bool} (limit : Limit) : ∀ {ps : List Phrase} {s : Pairing} {opened : List Bracket},
    s.Keeps inOpen opened → (∀ p ∈ ps, p.Formed inOpen) → balanced opened (ps.flatMap Phrase.tokens) = true →
      ps.foldl (step limit) s = ps.foldl (step none) s
  | [], _, _, _, _, _ => rfl
  | p :: ps, s, _, h, hps, hb => by
    rw [List.flatMap_cons] at hb
    obtain ⟨left, hleft, hrest⟩ := h.step none (hps p List.mem_cons_self) hb
    rw [List.foldl_cons, List.foldl_cons, h.step_eq limit hb]
    exact foldl_of_balanced limit hleft (fun q hq => hps q (List.mem_cons_of_mem p hq)) hrest

end Pairing

/-- **Brackets that nest no deeper than the limit are paired as without one.** -/
theorem ofPhrases_of_height {ps : List Phrase} (h : heightOf (ofPhrases none ps) ≤ k) :
    ofPhrases (some k) ps = ofPhrases none ps := by
  rw [ofPhrases, ofPhrases, Pairing.foldl_of_height h]

/-- **Balanced brackets are paired alike under any limit**, however deep they nest. -/
theorem ofPhrases_of_balanced (limit : Limit) {inOpen : Bool} {ts : List Token} (h : balanced [] ts = true) :
    ofPhrases limit (phrases inOpen ts) = ofPhrases none (phrases inOpen ts) := by
  have hstart : Pairing.Keeps inOpen [] {} := ⟨rfl, nofun, nofun⟩
  rw [← Phrase.flatMap_tokens_phrases inOpen ts] at h
  rw [ofPhrases, ofPhrases, Pairing.foldl_of_balanced limit hstart (Phrase.formed_phrases inOpen ts) h]

end Nest

/-! ## Groups that are cut off -/

def textIn (tokens : List Token) (c : Column) : Text := (tokens.filter c.holds).flatMap spaced

namespace Nest

open Expression (ofNest pruned cutOff not_access_body not_access_of_mem ofNest_deep ofNest_group_of_not_access)

variable {k : Nat} {table : Table} {inOpen : Bool} {tokens : List Token} {n : Nest}

theorem tokens_within {ns : List Nest} (hn : n ∈ ns) : n.tokens <:+: tokensOf ns := by
  obtain ⟨xs, ys, rfl⟩ := List.append_of_mem hn
  exact ⟨tokensOf xs, tokensOf ys, by simp [tokensOf]⟩

theorem tokens_within_group {b : Bracket} {o : Token} {body : List Nest} {c : Option Token} (hn : n ∈ body) :
    n.tokens <:+: (group b o body c).tokens :=
  (tokens_within hn).trans ⟨[o], c.toList, by simp [Nest.tokens]⟩

theorem textIn_groupColumn (horder : Column.InOrder (Token.columns tokens)) (hlexed : ∀ t ∈ tokens, t.Lexed)
    {b : Bracket} {o : Token} {body : List Nest} {c : Option Token} (ho : o.kind = .opener b)
    (hin : (group b o body c).tokens <:+: tokens) : textIn tokens (groupColumn o body c) = rawText b body c := by
  have hopening : spaced o = [b.opening] := by
    have htext := (hlexed o (hin.subset List.mem_cons_self)).text_of_mark (x := b.opening) (by rw [ho]; rfl)
    simp [spaced, Token.source, ho, htext]
  rw [textIn, filter_holds (spans_groupColumn o body c) hin horder, List.flatMap_cons, hopening]
  rfl

section

variable (horder : Column.InOrder (Token.columns tokens)) (hlexed : ∀ t ∈ tokens, t.Lexed)
include horder hlexed

/-- **The limit cuts off the groups beyond it**, and leaves the others as they are. -/
theorem Closed.pruned_ofNest (h : Closed inOpen n) : ∀ {depth : Nat}, (∀ p ∈ flat n, p.isAccess = false) →
    n.tokens <:+: tokens → ofNest (some k) table depth n =
      pruned (textIn tokens) (k - depth) (ofNest none table depth n) := by
  induction h with
  | @leaf p _ _ =>
    intro depth _ _
    cases p <;> simp [ofNest, Expression.nestPiece, Expression.phrasePiece, pruned]
  | @group b o c body ho _ _ ih =>
    intro depth hno hin
    have hbody := not_access_body hno
    rw [ofNest_group_of_not_access (Limit.exceeded_none depth) hbody]
    by_cases hd : k ≤ depth
    · rw [ofNest_deep (by simp [hd]), Nat.sub_eq_zero_of_le hd, pruned,
        textIn_groupColumn horder hlexed ho hin]
    · have hlevels : k - depth = k - (depth + 1) + 1 := by omega
      have hsame : body.map (ofNest (some k) table (depth + 1)) =
          Expression.prunedOf (textIn tokens) (k - (depth + 1)) (body.map (ofNest none table (depth + 1))) := by
        rw [Expression.prunedOf_eq_map, List.map_map]
        exact List.map_congr_left fun n hn =>
          ih n hn (not_access_of_mem hbody hn) ((tokens_within_group hn).trans hin)
      rw [ofNest_group_of_not_access (by simp [hd]) hbody, hlevels, pruned, Expression.pruned_argumentsOf, hsame]

end

def deepStarts (fs : List (Column × Fault)) : List Nat :=
  (fs.filter (fun f => decide (f.2.code = .nestingTooDeep))).map (fun f => f.1.start)

theorem deepStarts_append (fs gs : List (Column × Fault)) : deepStarts (fs ++ gs) = deepStarts fs ++ deepStarts gs := by
  simp [deepStarts]

theorem deepStarts_faultsOf {limit : Limit} {depth levels : Nat} {f : Nest → Expression} {ns : List Nest}
    (h : ∀ n ∈ ns, deepStarts (faults limit depth n) = (cutOff levels (f n)).map Column.start) :
    deepStarts (faultsOf limit depth ns) = (Expression.cutOffOf levels (ns.map f)).map Column.start := by
  induction ns with
  | nil         => rfl
  | cons n ns ih =>
    rw [faultsOf, deepStarts_append, h n List.mem_cons_self, ih fun m hm => h m (List.mem_cons_of_mem n hm),
      List.map_cons, Expression.cutOffOf, List.map_append]

/-- **Each group that is cut off is reported once**, where it begins. -/
theorem Closed.deepStarts_faults (h : Closed inOpen n) : ∀ {depth : Nat}, (∀ p ∈ flat n, p.isAccess = false) →
    deepStarts (faults (some k) depth n) = (cutOff (k - depth) (ofNest none table depth n)).map Column.start := by
  induction h with
  | @leaf p _ _ =>
    intro depth _
    have hcut : cutOff (k - depth) (ofNest none table depth (.leaf p)) = [] := by
      cases p <;> simp [ofNest, Expression.nestPiece, Expression.phrasePiece, cutOff]
    have hfaults : ∀ f ∈ phraseFaults p, ¬ decide (f.2.code = .nestingTooDeep) = true := by
      unfold phraseFaults
      split
      · split <;> simp [Fault.code]
      · simp
    rw [hcut, faults, deepStarts, List.filter_eq_nil_iff.2 hfaults]
    rfl
  | @group b o c body ho _ _ ih =>
    intro depth hno
    have hbody := not_access_body hno
    rw [ofNest_group_of_not_access (Limit.exceeded_none depth) hbody, faults]
    by_cases hd : k ≤ depth
    · rw [if_pos (by simp [hd]), Nat.sub_eq_zero_of_le hd, cutOff]
      simp [deepStarts, closingFaults, Fault.code, groupColumn]
    · have hlevels : k - depth = k - (depth + 1) + 1 := by omega
      rw [if_neg (by simp [hd]), hlevels, cutOff, Expression.cutOff_argumentsOf, deepStarts_append,
        show closingFaults b o (some c) = [] from rfl]
      exact (List.append_nil _).trans (deepStarts_faultsOf fun n hn => ih n hn (not_access_of_mem hbody hn))

end Nest

/-! ## The statement -/

namespace Run

open Expression (ofNest)

variable {r : Run}

theorem expressions_of_not_open (h : r.isOpen = false) (limit : Limit) (table : Table) :
    (∀ n ∈ r.nests limit, ∀ p ∈ Nest.flat n, p.isAccess = false) ∧
    r.expressions limit table = (r.nests limit).map (ofNest limit table 0) := by
  have hno : ∀ p ∈ Nest.flatOf (r.nests limit), p.isAccess = false := by
    rw [nests, Nest.flatOf_ofPhrases limit (Phrase.formed_phrases r.isOpen r.operands)]
    exact not_access_of_not_open h
  refine ⟨fun n hn => Expression.not_access_of_mem hno hn, ?_⟩
  rw [expressions, if_neg (by simp [h])]
  exact Expression.items_of_not_access (Nest.isAccess_of_flatOf hno)

/-- **Descending into the groups of a run comes to its statement and its reports**, and to no open group. -/
theorem read_eq (h : r.isOpen = false) (limit : Limit) (table : Table) :
    let read := Descent.read limit table (phrases r.isOpen r.operands)
    (r.statementWithin limit table).expressions = read.items ∧
    r.diagnosticsWithin limit = read.reader.faults.map (fun f => f.2.located r.number f.1) ∧ read.reader.depth = 0 := by
  obtain ⟨hitems, hfaults, hdepth, -⟩ := Descent.read_eq limit table
    (Phrase.formed_phrases r.isOpen r.operands)
  refine ⟨?_, ?_, hdepth⟩
  · rw [hitems]
    exact if_neg (by simp [h])
  · rw [hfaults]
    rfl

theorem nesting_le (h : r.isOpen = false) (k : Nat) (table : Table) :
    Expression.nestingOf (r.expressions (some k) table) ≤ k := by
  obtain ⟨hno, hexpressions⟩ := expressions_of_not_open h (some k) table
  rw [hexpressions, Expression.nestingOf_le, List.forall_mem_map]
  exact fun n hn => Expression.nesting_ofNest_le table 0 (hno n hn)

/-- **A run whose groups are all within the limit is built as without one.** -/
theorem same_of_nesting (h : r.isOpen = false) {k : Nat} {table : Table}
    (hk : Expression.nestingOf (r.expressions none table) ≤ k) :
    r.statementWithin (some k) table = r.statementWithin none table ∧
      r.diagnosticsWithin (some k) = r.diagnosticsWithin none := by
  obtain ⟨hno, hexpressions⟩ := expressions_of_not_open h none table
  rw [hexpressions, Expression.nestingOf_map fun n hn => Expression.nesting_ofNest_none table 0 (hno n hn)] at hk
  have hnests : r.nests (some k) = r.nests none := Nest.ofPhrases_of_height hk
  have hsame : ∀ n ∈ r.nests none, Expression.nestPiece (some k) table 0 n = Expression.nestPiece none table 0 n ∧
      Nest.faults (some k) 0 n = Nest.faults none 0 n := fun n hn =>
    Nest.same_of_room table 0 (Nat.zero_le k) (Nest.heightOf_le.1 hk n hn)
  constructor
  · simp only [statementWithin, expressions, hnests, Expression.ofNests, Expression.nestPieces_eq_map,
      List.map_congr_left fun n hn => (hsame n hn).1]
  · simp only [diagnosticsWithin, hnests, Nest.faultsOf_eq_flatMap, List.flatMap_def,
      List.map_congr_left fun n hn => (hsame n hn).2]

/-- **Of balanced brackets the limit cuts off the groups beyond it**, each with one report. -/
theorem pruned_of_balanced (h : r.isOpen = false) (horder : Column.InOrder (Token.columns r.tokens))
    (hlexed : ∀ t ∈ r.tokens, t.Lexed) (hb : balanced [] r.tokens = true) (k : Nat) (table : Table) :
    r.expressions (some k) table = Expression.prunedOf (textIn r.tokens) k (r.expressions none table) ∧
    Nest.deepStarts (Nest.faultsOf (some k) 0 (r.nests (some k))) =
      (Expression.cutOffOf k (r.expressions none table)).map Column.start := by
  rw [← balanced_filter, ← filter_isBracket_operands, balanced_filter] at hb
  have hnests : r.nests (some k) = r.nests none := Nest.ofPhrases_of_balanced (some k) hb
  have hclosed : ∀ n ∈ r.nests none, Nest.Closed r.isOpen n := Nest.closed_ofPhrases none r.isOpen hb
  have hin : ∀ n ∈ r.nests none, n.tokens <:+: r.tokens := fun n hn =>
    (Nest.tokens_within hn).trans (tokensOf_nests_within none r)
  obtain ⟨hno, hexpressions⟩ := expressions_of_not_open h none table
  rw [(expressions_of_not_open h (some k) table).2, hnests, hexpressions]
  constructor
  · rw [Expression.prunedOf_eq_map, List.map_map]
    exact List.map_congr_left fun n hn => (hclosed n hn).pruned_ofNest horder hlexed (hno n hn) (hin n hn)
  · exact Nest.deepStarts_faultsOf fun n hn => (hclosed n hn).deepStarts_faults (hno n hn)

theorem withCodes_deep (limit : Limit) (r : Run) :
    (withCodes [.nestingTooDeep] (r.diagnosticsWithin limit)).map (fun d => (d.line?, d.column.start)) =
      (Nest.deepStarts (Nest.faultsOf limit 0 (r.nests limit))).map (fun start => (some r.number, start)) := by
  rw [withCodes_diagnosticsWithin, List.map_map, Nest.deepStarts, List.map_map]
  rfl

end Run

/-- **The nesting limit changes nothing but the groups that are too deep.**  Of a statement that is no `OPEN`, compared with
the same one built without a limit:

- its groups are nested 64 deep at most; with any limit, a reader that descends into groups and counts how many it is in
  comes to the same expressions and reports, and its count is back at zero;
- if without the limit the groups are nested no deeper than that, statement and reports are the same;
- if its brackets are balanced by type, each group at level 65 is replaced by its text at the same column, and is reported
  once as too deep, where it begins. -/
theorem limit_cuts_deep_groups (number : Nat) (text : Text) {tokens : List Token}
    (hrun : tokens ∈ (CodeLine.ofSource number text).runs) (index : Nat) (table : Table)
    (hopen : (⟨index, number, tokens⟩ : Run).isOpen = false) :
    let r : Run := ⟨index, number, tokens⟩
    let unlimited := r.statementWithin none table
    Expression.nestingOf (r.statement table).expressions ≤ maxNesting ∧
    (∀ limit, let read := Descent.read limit table (phrases r.isOpen r.operands)
      (r.statementWithin limit table).expressions = read.items ∧
      r.diagnosticsWithin limit = read.reader.faults.map (fun f => f.2.located number f.1) ∧ read.reader.depth = 0) ∧
    (Expression.nestingOf unlimited.expressions ≤ maxNesting →
      r.statement table = unlimited ∧ r.diagnostics = r.diagnosticsWithin none) ∧
    (balanced [] tokens = true →
      r.statement table =
        { unlimited with expressions := Expression.prunedOf (textIn tokens) maxNesting unlimited.expressions } ∧
      (withCodes [.nestingTooDeep] r.diagnostics).map (fun d => (d.line?, d.column.start)) =
        (Expression.cutOffOf maxNesting unlimited.expressions).map (fun c => (some number, c.start))) := by
  refine ⟨Run.nesting_le hopen maxNesting table, fun limit => Run.read_eq hopen limit table, Run.same_of_nesting hopen,
    fun hb => ?_⟩
  obtain ⟨hpruned, hstarts⟩ := Run.pruned_of_balanced hopen (inOrder_of_mem_runs hrun) (lexed_of_mem_runs hrun) hb
    maxNesting table
  refine ⟨congrArg (Statement.mk _ _ _) hpruned, ?_⟩
  rw [Run.diagnostics, Run.withCodes_deep, hstarts, List.map_map]
  rfl

/-- Sixty-five groups in each other: the innermost is cut off, and is reported at the seventieth character. -/
theorem limit_cuts_deep_groups_innermost :
    let text := "PRINT ".toList ++ (List.replicate 65 '(' ++ List.replicate 65 ')')
    let r : Run := ⟨0, 1, tokenize text⟩
    let unlimited := r.statementWithin none Table.empty
    tokenize text ∈ (CodeLine.ofSource 1 text).runs ∧ r.isOpen = false ∧
    Expression.nestingOf (r.statement Table.empty).expressions ≤ maxNesting ∧
    (Descent.read (some maxNesting) Table.empty (phrases r.isOpen r.operands)).reader.depth = 0 ∧
    Expression.nestingOf unlimited.expressions = 65 ∧ balanced [] (tokenize text) = true ∧
    r.statement Table.empty =
      { unlimited with expressions := Expression.prunedOf (textIn (tokenize text)) maxNesting unlimited.expressions } ∧
    (Expression.cutOffOf maxNesting unlimited.expressions).map (fun c => (some 1, c.start)) = [(some 1, 70)] := by
  intro text r unlimited
  have hrun : tokenize text ∈ (CodeLine.ofSource 1 text).runs := by decide +kernel
  have hopen : r.isOpen = false := by decide +kernel
  have hbalanced : balanced [] (tokenize text) = true := by decide +kernel
  have hreports : (withCodes [.nestingTooDeep] r.diagnostics).map (fun d => (d.line?, d.column.start)) =
      [(some 1, 70)] := by decide +kernel
  obtain ⟨hnesting, hread, -, hcut⟩ := limit_cuts_deep_groups 1 text hrun 0 Table.empty hopen
  obtain ⟨hpruned, hstarts⟩ := hcut hbalanced
  exact ⟨hrun, hopen, hnesting, (hread (some maxNesting)).2.2, by decide +kernel, hbalanced, hpruned,
    hstarts.symm.trans hreports⟩

end BlockBasic
