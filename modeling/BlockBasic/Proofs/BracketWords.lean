import BlockBasic.Proofs.Defects
import BlockBasic.Proofs.Malformed
import BlockBasic.Proofs.StatementColumns
/-!
# BracketWords — the reports on brackets are those of a balanced word

Some brackets are a balanced word if each closes the last one that is open before it, by type; `Nested k` says so with `k`
as the greatest depth.  The nests of a run are closed, and no higher than `k`, exactly if its brackets are such a word
(`nested_iff`), and nothing is reported on brackets exactly if the nests are like that.  Where no group is too deep, what is
reported on brackets shows in the tree, report by report: as a group that is not closed, or as a closing bracket that stands
alone (`Nest.countP_unbalanced`).
-/
namespace BlockBasic

open CodeLine (depthAfter)
open Diagnostic (withCodes)

/-- **A balanced word of brackets**, in which none stands inside more than `k` others. -/
inductive Nested : Nat → List Token → Prop
  | nil {k : Nat} : Nested k []
  | group {k : Nat} {b : Bracket} {o c : Token} {xs ys : List Token} : o.kind = .opener b → c.kind = .closer b →
      Nested k xs → Nested (k + 1) ys → Nested (k + 1) (o :: (xs ++ c :: ys))

/-! ## The depth of a word -/

/-- The greatest depth on the way through tokens that begin inside `depth` brackets. -/
def peak : (depth : Nat) → List Token → Nat
  | depth, []      => depth
  | depth, t :: ts => max depth (peak (depthAfter depth t) ts)

theorem le_peak (depth : Nat) (ts : List Token) : depth ≤ peak depth ts := by
  cases ts with
  | nil       => exact Nat.le_refl depth
  | cons t ts => exact Nat.le_max_left _ _

theorem peak_append (depth : Nat) (xs ys : List Token) :
    peak depth (xs ++ ys) = max (peak depth xs) (peak (xs.foldl depthAfter depth) ys) := by
  induction xs generalizing depth with
  | nil =>
    have := le_peak depth ys
    simp only [List.nil_append, List.foldl_nil, peak]
    omega
  | cons x xs ih => simp only [List.cons_append, List.foldl_cons, peak, ih, Nat.max_assoc]

theorem depthAfter_other {t : Token} (h : t.kind.isBracket = false) (depth : Nat) : depthAfter depth t = depth := by
  unfold depthAfter
  split <;> simp_all [Kind.isBracket]

theorem depthAfter_opener {t : Token} {b : Bracket} (h : t.kind = .opener b) (depth : Nat) :
    depthAfter depth t = depth + 1 := by simp [depthAfter, h]

theorem depthAfter_closer {t : Token} {b : Bracket} (h : t.kind = .closer b) (depth : Nat) :
    depthAfter depth t = depth - 1 := by simp [depthAfter, h]

theorem foldl_depthAfter_others : ∀ {ts : List Token} (depth : Nat), (∀ t ∈ ts, t.kind.isBracket = false) →
    ts.foldl depthAfter depth = depth ∧ peak depth ts = depth
  | [], _, _ => ⟨rfl, rfl⟩
  | t :: ts, depth, h => by
    have ht := depthAfter_other (h t List.mem_cons_self) depth
    obtain ⟨h1, h2⟩ := foldl_depthAfter_others depth fun u hu => h u (List.mem_cons_of_mem t hu)
    simp [ht, peak, h1, h2]

def Token.isBracket (t : Token) : Bool := t.kind.isBracket

theorem balanced_filter (opened : List Bracket) (ts : List Token) :
    balanced opened (ts.filter Token.isBracket) = balanced opened ts := by
  induction ts generalizing opened with
  | nil => rfl
  | cons t ts ih =>
    by_cases ht : t.isBracket = true
    · rw [List.filter_cons_of_pos ht]
      simp only [balanced, ih]
    · rw [List.filter_cons_of_neg ht, ih, balanced_other (by simpa [Token.isBracket] using ht)]

theorem peak_filter (depth : Nat) (ts : List Token) : peak depth (ts.filter Token.isBracket) = peak depth ts := by
  induction ts generalizing depth with
  | nil => rfl
  | cons t ts ih =>
    by_cases ht : t.isBracket = true
    · rw [List.filter_cons_of_pos ht, peak, peak, ih]
    · have hle := le_peak depth ts
      rw [List.filter_cons_of_neg ht, ih, peak, depthAfter_other (by simpa [Token.isBracket] using ht)]
      omega

/-- **A balanced word leaves the open brackets and the depth as it finds them**, and goes no deeper than it may. -/
theorem Nested.through {k : Nat} {xs : List Token} (h : Nested k xs) : (∀ opened rest,
    balanced opened (xs ++ rest) = balanced opened rest) ∧
    ∀ depth, xs.foldl depthAfter depth = depth ∧ peak depth xs ≤ depth + k := by
  induction h with
  | nil => exact ⟨fun _ _ => rfl, fun depth => ⟨rfl, Nat.le_add_right depth _⟩⟩
  | @group k b o c xs ys ho hc _ _ ihx ihy =>
    refine ⟨fun opened rest => ?_, fun depth => ?_⟩
    · rw [List.cons_append, List.append_assoc, balanced_opener ho, ihx.1, List.cons_append, balanced_closer hc, ihy.1]
    · obtain ⟨hx, hpx⟩ := ihx.2 (depth + 1)
      obtain ⟨hy, hpy⟩ := ihy.2 depth
      have hback : depthAfter (depth + 1) c = depth := depthAfter_closer hc (depth + 1)
      refine ⟨?_, ?_⟩
      · rw [List.foldl_cons, depthAfter_opener ho, List.foldl_append, hx, List.foldl_cons, hback, hy]
      · rw [peak, depthAfter_opener ho, peak_append, hx, peak, hback]
        omega

theorem Nested.append {k : Nat} {xs ys : List Token} (hx : Nested k xs) (hy : Nested k ys) : Nested k (xs ++ ys) := by
  induction hx with
  | nil => exact hy
  | group ho hc hxs _ _ ih =>
    rw [List.cons_append, List.append_assoc, List.cons_append]
    exact .group ho hc hxs (ih hy)

/-! ## The height of nests -/

namespace Nest

mutual

def height : Nest → Nat
  | .leaf _           => 0
  | .group _ _ body _ => heightOf body + 1

def heightOf : List Nest → Nat
  | []      => 0
  | n :: ns => max (height n) (heightOf ns)

end

theorem heightOf_le {ns : List Nest} {k : Nat} : heightOf ns ≤ k ↔ ∀ n ∈ ns, height n ≤ k := by
  induction ns with
  | nil         => simp [heightOf]
  | cons n ns ih => rw [heightOf, Nat.max_le, ih]; simp

theorem heightOf_append (xs ys : List Nest) : heightOf (xs ++ ys) = max (heightOf xs) (heightOf ys) := by
  induction xs with
  | nil         => simp [heightOf]
  | cons x xs ih => simp only [List.cons_append, heightOf, ih, Nat.max_assoc]

variable {inOpen : Bool}

theorem through_tokensOf {ns : List Nest} (h : ∀ n ∈ ns, ∀ depth, n.tokens.foldl depthAfter depth = depth ∧
    peak depth n.tokens = depth + n.height) (depth : Nat) : (tokensOf ns).foldl depthAfter depth = depth ∧
      peak depth (tokensOf ns) = depth + heightOf ns := by
  induction ns with
  | nil => exact ⟨rfl, rfl⟩
  | cons n ns ih =>
    obtain ⟨h1, h2⟩ := h n List.mem_cons_self depth
    obtain ⟨h3, h4⟩ := ih fun m hm => h m (List.mem_cons_of_mem n hm)
    refine ⟨by rw [tokensOf, List.foldl_append, h1, h3], ?_⟩
    rw [tokensOf, peak_append, h1, h2, h4, heightOf]
    omega

theorem Closed.through {n : Nest} (h : Closed inOpen n) : ∀ depth,
    n.tokens.foldl depthAfter depth = depth ∧ peak depth n.tokens = depth + n.height := by
  induction h with
  | leaf hp hno => exact fun depth => foldl_depthAfter_others depth (hp.no_bracket hno)
  | @group b o c body ho hc _ ih =>
    intro depth
    obtain ⟨h1, h2⟩ := through_tokensOf ih (depth + 1)
    have hback : depthAfter (depth + 1) c = depth := depthAfter_closer hc (depth + 1)
    refine ⟨?_, ?_⟩
    · rw [tokens, List.foldl_cons, depthAfter_opener ho, List.foldl_append, h1, Option.toList_some, List.foldl_cons,
        hback, List.foldl_nil]
    · rw [tokens, peak, depthAfter_opener ho, peak_append, h1, h2, Option.toList_some, peak, peak, hback, height]
      omega

theorem nested_tokensOf {k : Nat} {ns : List Nest} (h : ∀ n ∈ ns, Nested k (n.tokens.filter Token.isBracket)) :
    Nested k ((tokensOf ns).filter Token.isBracket) := by
  induction ns with
  | nil => exact .nil
  | cons n ns ih =>
    rw [tokensOf, List.filter_append]
    exact (h n List.mem_cons_self).append (ih fun m hm => h m (List.mem_cons_of_mem n hm))

theorem Closed.nested {n : Nest} (h : Closed inOpen n) : ∀ {k : Nat}, n.height ≤ k →
    Nested k (n.tokens.filter Token.isBracket) := by
  induction h with
  | @leaf p hp hno =>
    intro k _
    rw [tokens, List.filter_eq_nil_iff.2 fun t ht => by simp [Token.isBracket, hp.no_bracket hno t ht]]
    exact .nil
  | @group b o c body ho hc _ ih =>
    intro k hk
    rw [height] at hk
    obtain ⟨k, rfl⟩ : ∃ j, k = j + 1 := ⟨k - 1, by omega⟩
    have hbody := nested_tokensOf fun n hn => ih n hn (heightOf_le.1 (Nat.le_of_succ_le_succ hk) n hn)
    have hword := Nested.group ho hc hbody .nil
    simpa [tokens, Token.isBracket, Kind.isBracket, ho, hc] using hword

end Nest

/-- **A balanced word is what the check by type passes**, and its depth is what the count of brackets comes to. -/
theorem nested_iff {k : Nat} {ts : List Token} :
    Nested k (ts.filter Token.isBracket) ↔ balanced [] ts = true ∧ peak 0 ts ≤ k := by
  constructor
  · intro h
    obtain ⟨hb, hd⟩ := h.through
    have hbalanced := hb [] []
    rw [List.append_nil, balanced_filter] at hbalanced
    have hpeak := (hd 0).2
    rw [peak_filter] at hpeak
    exact ⟨hbalanced, by omega⟩
  · rintro ⟨hb, hd⟩
    have hclosed := Nest.closed_ofPhrases none false hb
    have htokens := Nest.tokensOf_ofPhrases_phrases none false ts
    have hheight := (Nest.through_tokensOf (fun n hn => (hclosed n hn).through) 0).2
    rw [htokens, Nat.zero_add] at hheight
    have hnested := Nest.nested_tokensOf fun n hn =>
      (hclosed n hn).nested (Nest.heightOf_le.1 (hheight ▸ hd) n hn)
    rwa [htokens] at hnested

/-! ## The reports on brackets -/

def Code.ofBrackets : List Code := [.unbalancedDelimiter, .nestingTooDeep]

namespace Nest

variable {k depth : Nat} {inOpen : Bool}

theorem phraseFaults_brackets {p : Phrase} (hp : p.Formed inOpen) (ho : ∀ b, p.first.kind ≠ .opener b) :
    (∀ f ∈ phraseFaults p, f.2.code ∉ Code.ofBrackets) ↔ p.first.kind.isBracket = false := by
  cases p with
  | token t =>
    simp only [Phrase.first] at ho ⊢
    cases hk : t.kind with
    | opener b => exact absurd hk (ho b)
    | _        => simp [phraseFaults, hk, Kind.isBracket, Fault.code, Code.ofBrackets]
  | handle t u n      => simp [phraseFaults, Phrase.first, hp.1, Kind.isBracket]
  | mode t u m        => simp [phraseFaults, Phrase.first, hp.2.1, Kind.isBracket]
  | access t u more a =>
    have ht : t.kind = .word .access := by cases more <;> exact hp.2.1
    simp [phraseFaults, Phrase.first, ht, Kind.isBracket]

theorem closingFaults_brackets (b : Bracket) (o : Token) (c : Option Token) :
    (∀ f ∈ closingFaults b o c, f.2.code ∉ Code.ofBrackets) ↔ c.isSome = true := by
  cases c <;> simp [closingFaults, Fault.code, Code.ofBrackets]

/-- **Brackets are not reported on in a nest that is closed and no higher than there is room**, and only there. -/
theorem Paired.faults_brackets {n : Nest} (h : Paired (some k) inOpen depth n) :
    (∀ f ∈ faults (some k) depth n, f.2.code ∉ Code.ofBrackets) ↔ Closed inOpen n ∧ n.height ≤ k - depth := by
  induction h with
  | @leaf depth p hp ho =>
    rw [faults, phraseFaults_brackets hp ho, height]
    refine ⟨fun hno => ⟨.leaf hp hno, Nat.zero_le _⟩, ?_⟩
    rintro ⟨hc, -⟩
    cases hc with
    | leaf _ hno => exact hno
  | @group depth b o body c ho hc _ ih =>
    rw [faults, height]
    by_cases hdeep : k ≤ depth
    · -- The group is too deep, and there is no room left for it.
      simp [hdeep, Fault.code, Code.ofBrackets]
    · have hdeep' : Limit.exceeded (some k) depth = false := by simp [hdeep]
      have hroom : heightOf body + 1 ≤ k - depth ↔ heightOf body ≤ k - (depth + 1) := by omega
      rw [if_neg (by simp [hdeep']), hroom, heightOf_le]
      simp only [List.forall_mem_append, closingFaults_brackets, mem_faultsOf]
      constructor
      · rintro ⟨hbody, hsome⟩
        obtain ⟨t, rfl⟩ := Option.isSome_iff_exists.1 hsome
        obtain ⟨b', ht, hb⟩ := hc t rfl
        obtain rfl : b = b' := hb.resolve_right (by simp [hdeep'])
        have hall : ∀ n ∈ body, Closed inOpen n ∧ n.height ≤ k - (depth + 1) := fun n hn =>
          (ih n hn).1 fun f hf => hbody f ⟨n, hn, hf⟩
        exact ⟨.group ho ht fun n hn => (hall n hn).1, fun n hn => (hall n hn).2⟩
      · rintro ⟨hclosed, hheight⟩
        cases hclosed with
        | group _ _ hbody =>
          refine ⟨?_, rfl⟩
          rintro f ⟨n, hn, hf⟩
          exact (ih n hn).2 ⟨hbody n hn, hheight n hn⟩ f hf

end Nest

def Text.isCloser (t : Text) : Bool := t == [')'] || t == [']']

theorem Token.Lexed.isCloser_text {t : Token} (h : t.Lexed) (hs : t.kind ≠ .string) :
    t.text.isCloser = true ↔ ∃ b, t.kind = .closer b := by
  constructor
  · intro ht
    rw [Text.isCloser, Bool.or_eq_true, beq_iff_eq, beq_iff_eq] at ht
    rcases ht with ht | ht
    · exact ⟨.round, Option.some.inj (h.kind_of_text hs (by decide) ht).symm⟩
    · exact ⟨.square, Option.some.inj (h.kind_of_text hs (by decide) ht).symm⟩
  · rintro ⟨b, hb⟩
    rw [h.text_of_mark (x := b.closing) (by rw [hb]; rfl)]
    cases b <;> rfl

namespace Nest

def isUnbalanced (f : Column × Fault) : Bool := decide (f.2.code = .unbalancedDelimiter)

variable {k depth : Nat} {inOpen : Bool}

theorem countP_leaf {limit : Limit} {p : Phrase} (hlexed : ∀ t ∈ p.tokens, t.Lexed)
    (ho : ∀ b, p.first.kind ≠ .opener b) : (phraseFaults p).countP isUnbalanced =
      (malformed limit depth (.leaf p)).countP (fun m => m.2.isCloser) := by
  cases p with
  | token t =>
    simp only [Phrase.first] at ho
    have hcloser := (hlexed t (List.mem_singleton_self t)).isCloser_text
    cases hk : t.kind with
    | opener b                     => exact absurd hk (ho b)
    | closer | hash | colon | error =>
      simp_all [phraseFaults, malformed, Kind.isBare, isUnbalanced, Fault.code]
    | _                            => simp [phraseFaults, malformed, hk, Kind.isBare]
  | handle | mode | access => rfl

mutual

/-- **What is reported on brackets shows in the nests**, where none is too deep: as a group that nothing closes, or as a
closing bracket that is left as text. -/
theorem countP_unbalanced {limit : Limit} {depth : Nat} : ∀ {n : Nest}, Paired limit inOpen depth n →
    (∀ t ∈ n.tokens, t.Lexed) → (∀ f ∈ faults limit depth n, f.2.code ≠ .nestingTooDeep) →
    (faults limit depth n).countP isUnbalanced = (built limit depth n).countP (fun x => x.closing.isNone) +
      (malformed limit depth n).countP (fun m => m.2.isCloser)
  | .leaf p, .leaf hp ho, hlexed, _ => by
    rw [faults, built, List.countP_nil, Nat.zero_add, countP_leaf hlexed ho]
  | .group b o body c, .group _ _ hbody, hlexed, hdeep => by
    rw [faults] at hdeep
    split at hdeep
    · exact absurd rfl (hdeep _ List.mem_cons_self)
    · rename_i hroom
      have hin := countP_unbalancedOf hbody
        (fun t ht => hlexed t (List.mem_cons_of_mem o (List.mem_append_left _ ht)))
        (fun f hf => hdeep f (List.mem_append_left _ hf))
      have hclosing : (closingFaults b o c).countP isUnbalanced = if c.isNone then 1 else 0 := by
        cases c <;> rfl
      simp only [faults, built, malformed, if_neg hroom, List.countP_append, hin, hclosing, List.countP_cons]
      omega

theorem countP_unbalancedOf {limit : Limit} {depth : Nat} : ∀ {ns : List Nest}, (∀ n ∈ ns, Paired limit inOpen depth n) →
    (∀ t ∈ tokensOf ns, t.Lexed) → (∀ f ∈ faultsOf limit depth ns, f.2.code ≠ .nestingTooDeep) →
    (faultsOf limit depth ns).countP isUnbalanced = (builtOf limit depth ns).countP (fun x => x.closing.isNone) +
      (malformedOf limit depth ns).countP (fun m => m.2.isCloser)
  | [], _, _, _ => rfl
  | n :: ns, h, hlexed, hdeep => by
    have hn := countP_unbalanced (h n List.mem_cons_self) (fun t ht => hlexed t (List.mem_append_left _ ht))
      (fun f hf => hdeep f (List.mem_append_left _ hf))
    have hns := countP_unbalancedOf (fun m hm => h m (List.mem_cons_of_mem n hm))
      (fun t ht => hlexed t (List.mem_append_right _ ht)) (fun f hf => hdeep f (List.mem_append_right _ hf))
    rw [faultsOf, builtOf, malformedOf, List.countP_append, List.countP_append, List.countP_append, hn, hns]
    omega

end

end Nest

/-! ## The statement -/

namespace Run

variable {r : Run}

theorem code_diagnosticsWithin (p : Code → Prop) (limit : Limit) (r : Run) :
    (∀ d ∈ r.diagnosticsWithin limit, p d.code) ↔ ∀ f ∈ Nest.faultsOf limit 0 (r.nests limit), p f.2.code := by
  rw [diagnosticsWithin, List.forall_mem_map]
  rfl

theorem withCodes_diagnosticsWithin (code : Code) (limit : Limit) (r : Run) :
    withCodes [code] (r.diagnosticsWithin limit) = ((Nest.faultsOf limit 0 (r.nests limit)).filter
      (fun f => decide (f.2.code = code))).map (fun f => f.2.located r.number f.1) := by
  have hcode : ∀ f : Column × Fault, [code].contains (f.2.located r.number f.1).code = decide (f.2.code = code) := by
    intro f
    simp [Fault.located]
  rw [withCodes, diagnosticsWithin, List.filter_map]
  simp only [Function.comp_def, hcode]

theorem filter_isBracket_operands (r : Run) : r.operands.filter Token.isBracket = r.tokens.filter Token.isBracket := by
  cases hk : r.keyword? with
  | none   => rw [operands_of_keyword?_eq_none hk]
  | some k =>
    obtain ⟨c, k⟩ := k
    obtain ⟨t, ts, hts, ht, hoperands⟩ := keyword?_eq_some hk
    have hno : t.isBracket = false := by rw [Token.isBracket, ht]; cases k <;> rfl
    rw [hts, hoperands, List.filter_cons_of_neg (by simp [hno])]

/-- **Nothing is reported on the brackets of a statement exactly if they are a balanced word** that is no deeper than the
limit. -/
theorem brackets_iff (k : Nat) (r : Run) : (∀ d ∈ r.diagnosticsWithin (some k), d.code ∉ Code.ofBrackets) ↔
    Nested k (r.tokens.filter Token.isBracket) := by
  have hpaired := paired_nests (some k) r
  have htokens := tokensOf_nests (some k) r
  rw [code_diagnosticsWithin (· ∉ Code.ofBrackets), ← filter_isBracket_operands, nested_iff, ← htokens]
  constructor
  · intro h
    have hall : ∀ n ∈ r.nests (some k), Nest.Closed r.isOpen n ∧ n.height ≤ k := by
      intro n hn
      exact (hpaired n hn).faults_brackets.1 fun f hf => h f (Nest.mem_faultsOf.2 ⟨n, hn, hf⟩)
    have hheight := (Nest.through_tokensOf (fun n hn => (hall n hn).1.through) 0).2
    refine ⟨Nest.balanced_tokensOf fun n hn => (hall n hn).1, ?_⟩
    rw [hheight, Nat.zero_add]
    exact Nest.heightOf_le.2 fun n hn => (hall n hn).2
  · rintro ⟨hb, hd⟩
    rw [htokens] at hb
    have hclosed : ∀ n ∈ r.nests (some k), Nest.Closed r.isOpen n := Nest.closed_ofPhrases (some k) r.isOpen hb
    rw [(Nest.through_tokensOf (fun n hn => (hclosed n hn).through) 0).2, Nat.zero_add] at hd
    intro f hf
    obtain ⟨n, hn, hf⟩ := Nest.mem_faultsOf.1 hf
    exact (hpaired n hn).faults_brackets.2 ⟨hclosed n hn, Nest.heightOf_le.1 hd n hn⟩ f hf

/-- **The reports of unbalanced brackets show in the expressions**, where no group is too deep. -/
theorem length_unbalanced {limit : Limit} (table : Table) (hlexed : ∀ t ∈ r.tokens, t.Lexed)
    (hdeep : ∀ d ∈ r.diagnosticsWithin limit, d.code ≠ .nestingTooDeep) :
    (withCodes [.unbalancedDelimiter] (r.diagnosticsWithin limit)).length =
      (Expression.groupsOf (r.expressions limit table)).countP (fun g => !g.closed) +
        (Expression.malformedOf (r.expressions limit table)).countP (fun m => m.2.isCloser) := by
  have hcount := Nest.countP_unbalancedOf (paired_nests limit r) (fun t ht => hlexed t (mem_of_nests ht))
    ((code_diagnosticsWithin (· ≠ .nestingTooDeep) limit r).1 hdeep)
  have hopen : ∀ x : Nest.Built, (!(x.group limit table).closed) = x.closing.isNone := by
    intro x
    simp [Nest.Built.group]
  rw [groups_expressions, malformedOf_expressions hlexed, List.countP_map, withCodes_diagnosticsWithin, List.length_map,
    ← List.countP_eq_length_filter]
  simp only [Function.comp_def, hopen]
  exact hcount

end Run

theorem lexed_of_mem_runs {number : Nat} {text : Text} {tokens : List Token}
    (h : tokens ∈ (CodeLine.ofSource number text).runs) : ∀ t ∈ tokens, t.Lexed := fun t ht =>
  Lexer.lexed_of_mem_tokenize t ((CodeLine.sublist_of_mem_runs h).subset ht)

/-- **The grammar of brackets.**  Building a statement reports neither an unbalanced bracket nor a group that is too deep
exactly if its brackets are a balanced word by type, of a depth of 64 at most.  Where no group is too deep, the reports of
unbalanced brackets are as many as there are groups in the expressions that are not closed, and closing brackets in them
that stand by themselves. -/
theorem bracket_reports_match_word (number : Nat) (text : Text) {tokens : List Token}
    (hrun : tokens ∈ (CodeLine.ofSource number text).runs) (index : Nat) (table : Table) :
    let r : Run := ⟨index, number, tokens⟩
    let es := (r.statement table).expressions
    ((∀ d ∈ r.diagnostics, d.code ≠ .unbalancedDelimiter ∧ d.code ≠ .nestingTooDeep) ↔
      Nested maxNesting (tokens.filter Token.isBracket)) ∧
    ((∀ d ∈ r.diagnostics, d.code ≠ .nestingTooDeep) →
      (withCodes [.unbalancedDelimiter] r.diagnostics).length =
        (Expression.groupsOf es).countP (fun g => !g.closed) +
          (Expression.malformedOf es).countP (fun m => m.2.isCloser)) := by
  refine ⟨?_, Run.length_unbalanced table (lexed_of_mem_runs hrun)⟩
  rw [← Run.brackets_iff maxNesting ⟨index, number, tokens⟩]
  simp [Code.ofBrackets, Run.diagnostics]

/-- A size that a round bracket does not close and a square one does, in a group that nothing closes. -/
theorem bracket_reports_match_word_astray :
    let text := "PRINT (a[1) ]".toList
    let r : Run := ⟨0, 1, tokenize text⟩
    let es := (r.statement Table.empty).expressions
    tokenize text ∈ (CodeLine.ofSource 1 text).runs ∧
    ((∀ d ∈ r.diagnostics, d.code ≠ .unbalancedDelimiter ∧ d.code ≠ .nestingTooDeep) ↔
      Nested maxNesting ((tokenize text).filter Token.isBracket)) ∧
    (∀ d ∈ r.diagnostics, d.code ≠ .nestingTooDeep) ∧ (withCodes [.unbalancedDelimiter] r.diagnostics).length = 2 ∧
    (Expression.groupsOf es).countP (fun g => !g.closed) + (Expression.malformedOf es).countP (fun m => m.2.isCloser) =
      2 := by
  have hrun : tokenize "PRINT (a[1) ]".toList ∈ (CodeLine.ofSource 1 "PRINT (a[1) ]".toList).runs := by decide
  obtain ⟨hword, hcount⟩ := bracket_reports_match_word 1 _ hrun 0 Table.empty
  have hdeep : ∀ d ∈ (⟨0, 1, tokenize "PRINT (a[1) ]".toList⟩ : Run).diagnostics, d.code ≠ .nestingTooDeep := by
    decide +kernel
  have htwo : (withCodes [.unbalancedDelimiter] (⟨0, 1, tokenize "PRINT (a[1) ]".toList⟩ : Run).diagnostics).length =
      2 := by decide +kernel
  exact ⟨hrun, hword, hdeep, htwo, (hcount hdeep).symm.trans htwo⟩

end BlockBasic
