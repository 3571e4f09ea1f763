import BlockBasic.Proofs.Phrases
import BlockBasic.Expression.Nest
/-!
# Brackets — the pairing of brackets loses nothing and can be undone

Pairing puts phrases into groups and leaves their order as it is (`flatOf_ofPhrases`).  A statement whose brackets are
reported on nowhere is `Whole`: every group is closed by the bracket of its own type and none is too deep.  The phrases
of whole nests are paired into the same nests again (`ofPhrases_flatOf`).
-/
namespace BlockBasic

namespace Limit

@[simp] theorem exceeded_none (depth : Nat) : exceeded none depth = false := rfl

@[simp] theorem exceeded_some (k depth : Nat) : exceeded (some k) depth = decide (k ≤ depth) := rfl

theorem exceeded_of_le {limit : Limit} {m n : Nat} (h : limit.exceeded m = true) (hmn : m ≤ n) :
    limit.exceeded n = true := by
  cases limit with
  | none   => cases h
  | some k => exact decide_eq_true (Nat.le_trans (of_decide_eq_true h) hmn)

end Limit

namespace Nest

@[elab_as_elim] theorem induction {P : Nest → Prop} (leaf : ∀ p, P (.leaf p))
    (group : ∀ b o body c, (∀ n ∈ body, P n) → P (.group b o body c)) : ∀ n, P n
  | .leaf p => leaf p
  | .group b o body c => group b o body c (all body)
where
  all : ∀ (ns : List Nest), ∀ n ∈ ns, P n
    | [], _, h => absurd h List.not_mem_nil
    | m :: ms, n, h => (List.mem_cons.1 h).elim (fun e => e ▸ induction leaf group m) (fun h => all ms n h)

/-! ## The phrases of nests in order -/

mutual

/-- The phrases of a nest in order; a bracket of a group is a phrase of one token. -/
def flat : Nest → List Phrase
  | .leaf p                       => [p]
  | .group _ opening body closing => .token opening :: (flatOf body ++ closing.toList.map Phrase.token)

def flatOf : List Nest → List Phrase
  | []      => []
  | n :: ns => flat n ++ flatOf ns

end

theorem flatOf_eq_flatMap : ∀ (ns : List Nest), flatOf ns = ns.flatMap flat
  | [] => rfl
  | n :: ns => by rw [flatOf, flatOf_eq_flatMap ns, List.flatMap_cons]

@[simp] theorem flatOf_nil : flatOf [] = [] := rfl

@[simp] theorem flatOf_append (xs ys : List Nest) : flatOf (xs ++ ys) = flatOf xs ++ flatOf ys := by
  simp only [flatOf_eq_flatMap, List.flatMap_append]

theorem tokensOf_eq_flatMap : ∀ (ns : List Nest), tokensOf ns = ns.flatMap tokens
  | [] => rfl
  | n :: ns => by rw [tokensOf, tokensOf_eq_flatMap ns, List.flatMap_cons]

theorem mem_tokensOf {ns : List Nest} {n : Nest} (hn : n ∈ ns) {t : Token} (ht : t ∈ n.tokens) : t ∈ tokensOf ns := by
  rw [tokensOf_eq_flatMap]
  exact List.mem_flatMap.2 ⟨n, hn, ht⟩

theorem mem_tokens_group {b : Bracket} {o : Token} {body : List Nest} {c : Option Token} {n : Nest} (hn : n ∈ body)
    {t : Token} (ht : t ∈ n.tokens) : t ∈ (group b o body c).tokens :=
  List.mem_cons_of_mem o (List.mem_append_left _ (mem_tokensOf hn ht))

@[simp] theorem tokensOf_nil : tokensOf [] = [] := rfl

@[simp] theorem tokensOf_append (xs ys : List Nest) : tokensOf (xs ++ ys) = tokensOf xs ++ tokensOf ys := by
  simp only [tokensOf_eq_flatMap, List.flatMap_append]

mutual

theorem flatMap_tokens_flat : ∀ (n : Nest), (flat n).flatMap Phrase.tokens = tokens n
  | .leaf p => by simp [flat, tokens]
  | .group _ o body c => by
    have hc : (c.toList.map Phrase.token).flatMap Phrase.tokens = c.toList := by cases c <;> rfl
    rw [flat, tokens, List.flatMap_cons, List.flatMap_append, flatMap_tokens_flatOf body, hc]
    rfl

theorem flatMap_tokens_flatOf : ∀ (ns : List Nest), (flatOf ns).flatMap Phrase.tokens = tokensOf ns
  | [] => rfl
  | n :: ns => by rw [flatOf, tokensOf, List.flatMap_append, flatMap_tokens_flat n, flatMap_tokens_flatOf ns]

end

theorem faultsOf_eq_flatMap (limit : Limit) (depth : Nat) : ∀ (ns : List Nest),
    faultsOf limit depth ns = ns.flatMap (faults limit depth)
  | [] => rfl
  | n :: ns => by rw [faultsOf, faultsOf_eq_flatMap limit depth ns, List.flatMap_cons]

theorem mem_faultsOf {limit : Limit} {depth : Nat} {ns : List Nest} {f : Column × Fault} :
    f ∈ faultsOf limit depth ns ↔ ∃ n ∈ ns, f ∈ faults limit depth n := by
  rw [faultsOf_eq_flatMap, List.mem_flatMap]

theorem faultsOf_eq_nil {limit : Limit} {depth : Nat} {ns : List Nest} :
    faultsOf limit depth ns = [] ↔ ∀ n ∈ ns, faults limit depth n = [] := by
  rw [faultsOf_eq_flatMap, List.flatMap_eq_nil_iff]

/-! ## Pairing keeps the phrases -/

namespace Pairing

def pending : List Frame → List Phrase
  | []      => []
  | f :: fs => pending fs ++ flatOf f.before ++ [.token f.opening]

def seen (s : Pairing) : List Phrase := pending s.frames ++ flatOf s.current

theorem seen_add (s : Pairing) (p : Phrase) : (s.add (.leaf p)).seen = s.seen ++ [p] := by
  simp [seen, add, flatOf, flat]

theorem eq_token_of_bracket {inOpen : Bool} {p : Phrase} (hp : p.Formed inOpen)
    (h : (∃ b, p.first.kind = .opener b) ∨ ∃ b, p.first.kind = .closer b) : p = .token p.first := by
  cases p with
  | token t => rfl
  | handle t u n =>
    have ht : t.kind = .hash := hp.1
    simp [Phrase.first, ht] at h
  | mode t u m =>
    have ht : t.kind = .word .for_ := hp.2.1
    simp [Phrase.first, ht] at h
  | access t u more a =>
    have ht : t.kind = .word .access := by
      cases more with
      | none => exact hp.2.1
      | some v => exact hp.2.1
    simp [Phrase.first, ht] at h

theorem seen_step {inOpen : Bool} (limit : Limit) (s : Pairing) {p : Phrase} (hp : p.Formed inOpen) :
    (s.step limit p).seen = s.seen ++ [p] := by
  unfold step
  split
  · rename_i b hb
    rw [eq_token_of_bracket hp (.inl ⟨b, hb⟩)]
    simp [seen, pending, Phrase.first]
  · rename_i b hb
    split
    · rename_i f fs hf
      split
      · rw [eq_token_of_bracket hp (.inr ⟨b, hb⟩)]
        simp [seen, pending, hf, flatOf, flat, Phrase.first]
      · exact seen_add s p
    · exact seen_add s p
  · exact seen_add s p

theorem seen_foldl {inOpen : Bool} (limit : Limit) : ∀ (ps : List Phrase) (s : Pairing), (∀ p ∈ ps, p.Formed inOpen) →
    (ps.foldl (step limit) s).seen = s.seen ++ ps
  | [], s, _ => by rw [List.foldl_nil, List.append_nil]
  | p :: ps, s, h => by
    rw [List.foldl_cons, seen_foldl limit ps _ (fun q hq => h q (List.mem_cons_of_mem p hq)),
      seen_step limit s (h p List.mem_cons_self), List.append_assoc, List.singleton_append]

theorem flatOf_finish : ∀ (fs : List Frame) (current : List Nest), flatOf (finish fs current) = pending fs ++ flatOf current
  | [], _ => rfl
  | f :: fs, current => by
    have h : finish (f :: fs) current = finish fs (f.before ++ [.group f.bracket f.opening current none]) := rfl
    rw [h, flatOf_finish fs]
    simp [pending, flatOf, flat]

end Pairing

/-- **The pairing of brackets keeps every phrase in its place.** -/
theorem flatOf_ofPhrases {inOpen : Bool} (limit : Limit) {ps : List Phrase} (h : ∀ p ∈ ps, p.Formed inOpen) :
    flatOf (ofPhrases limit ps) = ps := by
  rw [ofPhrases, Pairing.flatOf_finish]
  exact Pairing.seen_foldl limit ps {} h

theorem tokensOf_ofPhrases_phrases (limit : Limit) (inOpen : Bool) (ts : List Token) :
    tokensOf (ofPhrases limit (phrases inOpen ts)) = ts := by
  rw [← flatMap_tokens_flatOf, flatOf_ofPhrases limit (Phrase.formed_phrases inOpen ts),
    Phrase.flatMap_tokens_phrases]

/-! ## What pairing makes -/

/-- A nest as pairing leaves it inside `depth` groups: a group begins with its bracket, and ends with a closing one of
the same type unless it is too deep to be looked into. -/
inductive Paired (limit : Limit) (inOpen : Bool) : Nat → Nest → Prop
  | leaf {depth : Nat} {p : Phrase} : p.Formed inOpen → (∀ b, p.first.kind ≠ .opener b) → Paired limit inOpen depth (.leaf p)
  | group {depth : Nat} {b : Bracket} {o : Token} {body : List Nest} {c : Option Token} : o.kind = .opener b →
      (∀ t, c = some t → ∃ b', t.kind = .closer b' ∧ (b = b' ∨ limit.exceeded depth = true)) →
      (∀ n ∈ body, Paired limit inOpen (depth + 1) n) → Paired limit inOpen depth (.group b o body c)

namespace Pairing

/-- What stands before each open group is paired, at the depth it stands at. -/
def FramesPaired (limit : Limit) (inOpen : Bool) : List Frame → Prop
  | []      => True
  | f :: fs => f.opening.kind = .opener f.bracket ∧ (∀ n ∈ f.before, Paired limit inOpen fs.length n) ∧
      FramesPaired limit inOpen fs

/-- The invariant of the walk. -/
def AllPaired (limit : Limit) (inOpen : Bool) (s : Pairing) : Prop :=
  FramesPaired limit inOpen s.frames ∧ ∀ n ∈ s.current, Paired limit inOpen s.frames.length n

theorem allPaired_add {limit : Limit} {inOpen : Bool} {s : Pairing} (hs : s.AllPaired limit inOpen) {n : Nest}
    (hn : Paired limit inOpen s.frames.length n) : (s.add n).AllPaired limit inOpen := by
  refine ⟨hs.1, fun m hm => ?_⟩
  rcases List.mem_append.1 hm with hm | hm
  · exact hs.2 m hm
  · rw [List.mem_singleton.1 hm]
    exact hn

theorem allPaired_step {limit : Limit} {inOpen : Bool} {s : Pairing} (hs : s.AllPaired limit inOpen) {p : Phrase}
    (hp : p.Formed inOpen) : (s.step limit p).AllPaired limit inOpen := by
  unfold step
  split
  · rename_i b hb
    exact ⟨⟨hb, hs.2, hs.1⟩, fun n hn => absurd hn List.not_mem_nil⟩
  · rename_i b hb
    have hleaf : Paired limit inOpen s.frames.length (.leaf p) := .leaf hp (fun b' => by rw [hb]; simp)
    split
    · rename_i f fs hf
      split
      · rename_i hfits
        obtain ⟨⟨ho, hbefore, hfs⟩, hcur⟩ : FramesPaired limit inOpen (f :: fs) ∧ _ := by
          rw [← hf]
          exact hs
        refine ⟨hfs, fun n hn => ?_⟩
        rcases List.mem_append.1 hn with hn | hn
        · exact hbefore n hn
        · rw [List.mem_singleton.1 hn]
          refine .group ho (fun t ht => ⟨b, ?_, ?_⟩) (fun m hm => ?_)
          · rw [← Option.some.inj ht]
            exact hb
          · simpa [fits] using hfits
          · have := hs.2 m hm
            rwa [hf] at this
      · exact allPaired_add hs hleaf
    · exact allPaired_add hs hleaf
  · rename_i hno _
    exact allPaired_add hs (.leaf hp hno)

theorem allPaired_foldl {limit : Limit} {inOpen : Bool} : ∀ (ps : List Phrase) (s : Pairing), s.AllPaired limit inOpen →
    (∀ p ∈ ps, p.Formed inOpen) → (ps.foldl (step limit) s).AllPaired limit inOpen
  | [], _, hs, _ => hs
  | p :: ps, s, hs, h => by
    rw [List.foldl_cons]
    exact allPaired_foldl ps _ (allPaired_step hs (h p List.mem_cons_self)) (fun q hq => h q (List.mem_cons_of_mem p hq))

theorem paired_finish {limit : Limit} {inOpen : Bool} : ∀ (fs : List Frame) (current : List Nest),
    FramesPaired limit inOpen fs → (∀ n ∈ current, Paired limit inOpen fs.length n) →
      ∀ n ∈ finish fs current, Paired limit inOpen 0 n
  | [], _, _, h => h
  | f :: fs, current, hf, h => by
    have he : finish (f :: fs) current = finish fs (f.before ++ [.group f.bracket f.opening current none]) := rfl
    rw [he]
    refine paired_finish fs _ hf.2.2 (fun n hn => ?_)
    rcases List.mem_append.1 hn with hn | hn
    · exact hf.2.1 n hn
    · rw [List.mem_singleton.1 hn]
      exact .group hf.1 (fun t ht => by cases ht) h

end Pairing

theorem paired_ofPhrases {limit : Limit} {inOpen : Bool} {ps : List Phrase} (h : ∀ p ∈ ps, p.Formed inOpen) :
    ∀ n ∈ ofPhrases limit ps, Paired limit inOpen 0 n := by
  have hs : (ps.foldl (Pairing.step limit) {}).AllPaired limit inOpen :=
    Pairing.allPaired_foldl ps {} ⟨trivial, fun n hn => absurd hn List.not_mem_nil⟩ h
  exact Pairing.paired_finish _ _ hs.1 hs.2

/-! ## Nests without a fault -/

/-- **A nest with which nothing is wrong**: its groups are closed, each by a bracket of its own type, and not too deep;
outside them stand neither brackets nor a `#` without its number. -/
inductive Whole (limit : Limit) (inOpen : Bool) : Nat → Nest → Prop
  | leaf {depth : Nat} {p : Phrase} : p.Formed inOpen → p.isSettled = true → Whole limit inOpen depth (.leaf p)
  | group {depth : Nat} {b : Bracket} {o t : Token} {body : List Nest} : o.kind = .opener b → t.kind = .closer b →
      limit.exceeded depth = false → (∀ n ∈ body, Whole limit inOpen (depth + 1) n) →
      Whole limit inOpen depth (.group b o body (some t))

theorem phraseFaults_eq_nil {inOpen : Bool} {p : Phrase} (hp : p.Formed inOpen) (ho : ∀ b, p.first.kind ≠ .opener b) :
    phraseFaults p = [] ↔ p.isSettled = true := by
  cases p with
  | token t =>
    simp only [Phrase.first] at ho
    have hs : (Phrase.token t).isSettled = true ↔ (∀ b, t.kind ≠ .closer b) ∧ t.kind ≠ .hash := by
      simp only [Phrase.isSettled]
      split <;> simp_all
    rw [hs]
    simp only [phraseFaults]
    split <;> simp_all
  | handle | mode | access => simp [phraseFaults, Phrase.isSettled]

theorem Paired.whole {limit : Limit} {inOpen : Bool} {depth : Nat} {n : Nest} (h : Paired limit inOpen depth n) :
    faults limit depth n = [] → Whole limit inOpen depth n := by
  induction h with
  | leaf hp ho =>
    intro hf
    rw [faults] at hf
    exact .leaf hp ((phraseFaults_eq_nil hp ho).1 hf)
  | @group depth b o body c ho hc _ ih =>
    intro hf
    rw [faults] at hf
    split at hf
    · cases hf
    · rename_i hdeep
      have hdeep : limit.exceeded depth = false := by simpa using hdeep
      obtain ⟨hbody, hclosed⟩ := List.append_eq_nil_iff.1 hf
      cases c with
      | none => simp [closingFaults] at hclosed
      | some t =>
        obtain ⟨b', ht, hb⟩ := hc t rfl
        obtain rfl : b = b' := hb.resolve_right (by simp [hdeep])
        exact .group ho ht hdeep (fun n hn => ih n hn (faultsOf_eq_nil.1 hbody n hn))

theorem whole_of_faultsOf_eq_nil {limit : Limit} {inOpen : Bool} {ps : List Phrase} (h : ∀ p ∈ ps, p.Formed inOpen)
    (hf : faultsOf limit 0 (ofPhrases limit ps) = []) : ∀ n ∈ ofPhrases limit ps, Whole limit inOpen 0 n :=
  fun n hn => (paired_ofPhrases h n hn).whole (faultsOf_eq_nil.1 hf n hn)

theorem Whole.faults_eq_nil {limit : Limit} {inOpen : Bool} {depth : Nat} {n : Nest} (h : Whole limit inOpen depth n) :
    faults limit depth n = [] := by
  induction h with
  | @leaf depth p hp hs =>
    have ho : ∀ b, p.first.kind ≠ .opener b := by
      intro b hb
      rw [Pairing.eq_token_of_bracket hp (.inl ⟨b, hb⟩)] at hs
      simp [Phrase.isSettled, hb] at hs
    rw [faults]
    exact (phraseFaults_eq_nil hp ho).2 hs
  | group _ _ hdeep _ ih =>
    rw [faults, if_neg (by simp [hdeep]), faultsOf_eq_nil.2 ih]
    rfl

/-! ## Whole nests are paired again -/

namespace Pairing

theorem step_leaf {inOpen : Bool} {p : Phrase} (limit : Limit) (s : Pairing) (hp : p.Formed inOpen)
    (hs : p.isSettled = true) : s.step limit p = s.add (.leaf p) := by
  unfold step
  split
  · rename_i b hb
    rw [eq_token_of_bracket hp (.inl ⟨b, hb⟩)] at hs
    simp [Phrase.isSettled, hb] at hs
  · rename_i b hb
    rw [eq_token_of_bracket hp (.inr ⟨b, hb⟩)] at hs
    simp [Phrase.isSettled, hb] at hs
  · rfl

theorem foldl_flatOf {limit : Limit} : ∀ (ns : List Nest) (s : Pairing),
    (∀ n ∈ ns, ∀ s : Pairing, (flat n).foldl (step limit) s = s.add n) →
      (flatOf ns).foldl (step limit) s = { s with current := s.current ++ ns }
  | [], s, _ => by simp
  | n :: ns, s, h => by
    rw [flatOf, List.foldl_append, h n List.mem_cons_self,
      foldl_flatOf ns _ (fun m hm => h m (List.mem_cons_of_mem n hm))]
    simp [add]

end Pairing

theorem Whole.foldl_flat {limit : Limit} {inOpen : Bool} {depth : Nat} {n : Nest} (h : Whole limit inOpen depth n) :
    ∀ s : Pairing, (flat n).foldl (Pairing.step limit) s = s.add n := by
  induction h with
  | leaf hp hs =>
    intro s
    exact Pairing.step_leaf limit s hp hs
  | @group depth b o t body ho ht _ _ ih =>
    intro s
    have hopen : s.step limit (.token o) = ⟨⟨b, o, s.current⟩ :: s.frames, []⟩ := by
      simp [Pairing.step, Phrase.first, ho]
    rw [flat, List.foldl_cons, hopen, List.foldl_append, Pairing.foldl_flatOf body _ ih]
    simp [Pairing.step, Phrase.first, ht, Pairing.fits, Pairing.add]

/-- **The phrases of whole nests are paired into the same nests.** -/
theorem ofPhrases_flatOf {limit : Limit} {inOpen : Bool} {ns : List Nest} (h : ∀ n ∈ ns, Whole limit inOpen 0 n) :
    ofPhrases limit (flatOf ns) = ns := by
  rw [ofPhrases, Pairing.foldl_flatOf ns {} (fun n hn => (h n hn).foldl_flat)]
  rfl

end Nest
end BlockBasic
