import BlockBasic.Expression.Phrase
/-!
# Phrases — where tokens are cut into phrases

A phrase takes as many of the tokens after its first one as it can: it never `joins` the token that comes next.  So the
cut of tokens into phrases is the one cut into well-formed phrases in which no phrase joins its successor
(`phrases_flatMap`, `unjoined_phrases`), and of all cuts of the same tokens it has the fewest phrases
(`length_phrases_le`).
-/
namespace BlockBasic
namespace Phrase

def joins (inOpen : Bool) (p : Phrase) (t : Token) : Bool :=
  match p with
  | .token h                =>
    match h.kind with
    | .hash         => (handle? t).isSome
    | .word .for_   => inOpen && (t.word?.bind FileMode.ofWord?).isSome
    | .word .access => inOpen && (t.word? == some .read || t.word? == some .write)
    | _             => false
  | .access _ _ none .read  => t.word? == some .write
  | _                       => false

def unjoined (inOpen : Bool) : List Phrase → Bool
  | []      => true
  | p :: ps => !(ps.head?.any (fun q => p.joins inOpen q.first)) && unjoined inOpen ps

def Formed (inOpen : Bool) : Phrase → Prop
  | .token _               => True
  | .handle t u n          => t.kind = .hash ∧ handle? u = some n
  | .mode t u m            => inOpen = true ∧ t.kind = .word .for_ ∧ u.word?.bind FileMode.ofWord? = some m
  | .access t u none a     => inOpen = true ∧ t.kind = .word .access ∧
      (u.word? = some .read ∧ a = .read ∨ u.word? = some .write ∧ a = .write)
  | .access t u (some v) a => inOpen = true ∧ t.kind = .word .access ∧ u.word? = some .read ∧ v.word? = some .write ∧
      a = .readWrite

theorem handle?_eq_some {t : Token} {n : Nat} (h : handle? t = some n) :
    t.kind = .integer ∧ t.text.decimal? = some n ∧ n ≤ maxHandle := by
  unfold handle? at h
  split at h
  · rename_i hk
    obtain ⟨hd, hn⟩ := Option.filter_eq_some_iff.1 h
    exact ⟨hk, hd, of_decide_eq_true hn⟩
  · cases h

def isSettled : Phrase → Bool
  | .token t =>
    match t.kind with
    | .opener _ | .closer _ | .hash => false
    | _                             => true
  | _        => true

theorem tokens_eq_cons : ∀ (p : Phrase), p.tokens = p.first :: p.tokens.tail
  | .token _ | .handle _ _ _ | .mode _ _ _ | .access _ _ _ _ => rfl

/-! ## One phrase -/

/-- What `starting` makes of a token: the token alone, or a phrase of the tokens from there on. -/
structure Starts (inOpen : Bool) (t : Token) (rest : List Token) (p : Phrase) : Prop where
  formed : p.Formed inOpen
  first  : p.first = t
  taken  : p.tokens.tail = rest.take (p.tokens.length - 1)
  stops  : (rest.drop (p.tokens.length - 1)).head?.any (p.joins inOpen) = false

theorem starts_token {inOpen : Bool} {t : Token} {rest : List Token}
    (h : rest.head?.any ((Phrase.token t).joins inOpen) = false) : Starts inOpen t rest (.token t) :=
  ⟨trivial, rfl, rfl, h⟩

theorem starts_ofHash {inOpen : Bool} {t : Token} (ht : t.kind = .hash) : ∀ (rest : List Token),
    Starts inOpen t rest (ofHash t rest)
  | [] => starts_token rfl
  | u :: rest => by
    unfold ofHash
    simp only
    split
    · rename_i n hn
      refine ⟨⟨ht, hn⟩, rfl, rfl, ?_⟩
      cases rest <;> rfl
    · rename_i hn
      exact starts_token (by simp [joins, ht, hn])

theorem starts_ofFor {inOpen : Bool} {t : Token} (hi : inOpen = true) (ht : t.kind = .word .for_) :
    ∀ (rest : List Token), Starts inOpen t rest (ofFor t rest)
  | [] => starts_token rfl
  | u :: rest => by
    unfold ofFor
    simp only
    split
    · rename_i m hm
      refine ⟨⟨hi, ht, hm⟩, rfl, rfl, ?_⟩
      cases rest <;> rfl
    · rename_i hm
      exact starts_token (by simp [joins, ht, hm])

theorem starts_ofAccess {inOpen : Bool} {t : Token} (hi : inOpen = true) (ht : t.kind = .word .access) :
    ∀ (rest : List Token), Starts inOpen t rest (ofAccess t rest)
  | [] => starts_token rfl
  | u :: rest => by
    unfold ofAccess
    simp only
    split
    · rename_i hu
      refine ⟨⟨hi, ht, .inr ⟨hu, rfl⟩⟩, rfl, rfl, ?_⟩
      cases rest <;> rfl
    · rename_i hu
      cases rest with
      | nil => exact ⟨⟨hi, ht, .inl ⟨hu, rfl⟩⟩, rfl, rfl, rfl⟩
      | cons v vs =>
        simp only
        split
        · rename_i hv
          refine ⟨⟨hi, ht, hu, hv, rfl⟩, rfl, rfl, ?_⟩
          cases vs <;> rfl
        · rename_i hv
          refine ⟨⟨hi, ht, .inl ⟨hu, rfl⟩⟩, rfl, rfl, ?_⟩
          simpa [joins, Phrase.tokens] using hv
    · rename_i hw hr
      refine starts_token ?_
      simp only [List.head?_cons, Option.any_some, joins, ht, hi, Bool.true_and]
      simp only [Bool.or_eq_false_iff, beq_eq_false_iff_ne]
      exact ⟨hr, hw⟩

/-- **A phrase begins with its first token, is made of the tokens after it, and stops where it can take no more.** -/
theorem starts_starting (inOpen : Bool) (t : Token) (rest : List Token) :
    Starts inOpen t rest (starting inOpen t rest) := by
  unfold starting
  split
  · rename_i ht
    exact starts_ofHash ht rest
  · rename_i ht
    split
    · rename_i hi
      exact starts_ofFor hi ht rest
    · rename_i hi
      exact starts_token (by cases rest <;> simp [joins, ht, hi])
  · rename_i ht
    split
    · rename_i hi
      exact starts_ofAccess hi ht rest
    · rename_i hi
      exact starts_token (by cases rest <;> simp [joins, ht, hi])
  · rename_i h1 h2 h3
    refine starts_token ?_
    cases rest with
    | nil => rfl
    | cons u us =>
      simp only [List.head?_cons, Option.any_some, joins]

/-- **A well-formed phrase is found again** in front of tokens that it does not take. -/
theorem starting_formed {inOpen : Bool} : ∀ {p : Phrase} {next : List Token}, p.Formed inOpen →
    next.head?.any (p.joins inOpen) = false → starting inOpen p.first (p.tokens.tail ++ next) = p
  | .token t, [], _, _ => by
    simp only [first, tokens, List.tail_cons, List.append_nil]
    unfold starting ofHash ofFor ofAccess
    split <;> simp
  | .token t, u :: next, _, h => by
    simp only [List.head?_cons, Option.any_some, joins] at h
    simp only [first, tokens, List.tail_cons, List.nil_append]
    unfold starting
    split
    · rename_i ht
      have hu : handle? u = none := by simpa [ht] using h
      simp only [ofHash, hu]
    · rename_i ht
      split
      · rename_i hi
        have hu : u.word?.bind FileMode.ofWord? = none := by simpa [ht, hi] using h
        simp only [ofFor, hu]
      · rfl
    · rename_i ht
      split
      · rename_i hi
        simp only [ht, hi, Bool.true_and, Bool.or_eq_false_iff, beq_eq_false_iff_ne] at h
        unfold ofAccess
        simp only
        split
        · rename_i hu; exact absurd hu h.2
        · rename_i hu; exact absurd hu h.1
        · rfl
      · rfl
    · rfl
  | .handle t u n, next, hp, _ => by
    simp only [first, tokens, List.tail_cons, List.singleton_append, starting, hp.1, ofHash, hp.2]
  | .mode t u m, next, hp, _ => by
    simp only [first, tokens, List.tail_cons, List.singleton_append, starting, hp.2.1, hp.1, if_true, ofFor, hp.2.2]
  | .access t u none a, next, hp, h => by
    obtain ⟨hi, ht, ⟨hu, rfl⟩ | ⟨hu, rfl⟩⟩ := hp
    · simp only [first, tokens, Option.toList_none, List.tail_cons, List.singleton_append, starting, ht, hi, if_true,
        ofAccess, hu]
      cases next with
      | nil => rfl
      | cons v vs =>
        have hv : v.word? ≠ some .write := by simpa [joins] using h
        simp only [if_neg hv]
    · simp only [first, tokens, Option.toList_none, List.tail_cons, List.singleton_append, starting, ht, hi, if_true,
        ofAccess, hu]
  | .access t u (some v) a, next, hp, _ => by
    obtain ⟨hi, ht, hu, hv, rfl⟩ := hp
    simp only [first, tokens, Option.toList_some, List.tail_cons, List.cons_append, List.nil_append, starting, ht, hi,
      if_true, ofAccess, hu, hv]

/-! ## The walk -/

theorem scan_taken (inOpen : Bool) : ∀ (k : Nat) (ts : List Token), scan inOpen k ts = scan inOpen 0 (ts.drop k)
  | 0, _ => rfl
  | k + 1, [] => by rw [List.drop_nil, scan, scan]
  | k + 1, t :: ts => by rw [scan, scan_taken inOpen k, List.drop_succ_cons]

theorem scan_cons (inOpen : Bool) (t : Token) (ts : List Token) :
    scan inOpen 0 (t :: ts) = starting inOpen t ts ::
      scan inOpen 0 (ts.drop ((starting inOpen t ts).tokens.length - 1)) := by
  rw [scan, scan_taken]

theorem scan_append {inOpen : Bool} {p : Phrase} {next : List Token} (hp : p.Formed inOpen)
    (h : next.head?.any (p.joins inOpen) = false) :
    scan inOpen 0 (p.tokens ++ next) = p :: scan inOpen 0 next := by
  rw [tokens_eq_cons, List.cons_append, scan_cons, starting_formed hp h]
  congr 2
  rw [show p.tokens.length - 1 = p.tokens.tail.length by rw [List.length_tail], List.drop_left]

theorem head?_flatMap_tokens (ps : List Phrase) : (ps.flatMap tokens).head? = ps.head?.map first := by
  cases ps with
  | nil => rfl
  | cons p ps => rw [List.flatMap_cons, tokens_eq_cons]; rfl

theorem phrases_flatMap_append {inOpen : Bool} {next : List Token} {ps : List Phrase} (hf : ∀ p ∈ ps, p.Formed inOpen)
    (hu : unjoined inOpen ps = true) (hlast : ∀ p ∈ ps.getLast?, next.head?.any (p.joins inOpen) = false) :
    phrases inOpen (ps.flatMap tokens ++ next) = ps ++ phrases inOpen next := by
  induction ps with
  | nil          => rfl
  | cons p ps ih =>
    simp only [unjoined, Bool.and_eq_true, Bool.not_eq_true'] at hu
    have hrest : phrases inOpen (ps.flatMap tokens ++ next) = ps ++ phrases inOpen next := by
      refine ih (fun q hq => hf q (List.mem_cons_of_mem p hq)) hu.2 fun q hq => ?_
      obtain ⟨init, rfl⟩ := List.getLast?_eq_some_iff.1 hq
      exact hlast q (List.getLast?_eq_some_iff.2 ⟨p :: init, rfl⟩)
    have hhead : (ps.flatMap tokens ++ next).head?.any (p.joins inOpen) = false := by
      cases ps with
      | nil       => exact hlast p rfl
      | cons q qs =>
        rw [List.flatMap_cons, tokens_eq_cons]
        exact hu.1
    rw [List.flatMap_cons, List.append_assoc, phrases, scan_append (hf p List.mem_cons_self) hhead]
    exact congrArg (p :: ·) hrest

/-- **A cut into well-formed phrases that join no successor is the cut that the walk makes.** -/
theorem phrases_flatMap {inOpen : Bool} {ps : List Phrase} (hf : ∀ p ∈ ps, p.Formed inOpen)
    (hu : unjoined inOpen ps = true) : phrases inOpen (ps.flatMap tokens) = ps := by
  have h : phrases inOpen (ps.flatMap tokens ++ []) = ps ++ phrases inOpen [] :=
    phrases_flatMap_append hf hu fun _ _ => rfl
  rwa [List.append_nil, phrases, phrases, scan, List.append_nil] at h

theorem scan_spec (inOpen : Bool) : ∀ (ts : List Token), (∀ p ∈ scan inOpen 0 ts, p.Formed inOpen) ∧
    unjoined inOpen (scan inOpen 0 ts) = true ∧ (scan inOpen 0 ts).flatMap tokens = ts
  | [] => ⟨fun p hp => absurd hp (by simp [scan]), rfl, rfl⟩
  | t :: ts => by
    have hs := starts_starting inOpen t ts
    have ⟨h1, h2, h3⟩ := scan_spec inOpen (ts.drop ((starting inOpen t ts).tokens.length - 1))
    have hhead := head?_flatMap_tokens (scan inOpen 0 (ts.drop ((starting inOpen t ts).tokens.length - 1)))
    rw [h3] at hhead
    rw [scan_cons]
    refine ⟨fun p hp => ?_, ?_, ?_⟩
    · rcases List.mem_cons.1 hp with rfl | hp
      · exact hs.formed
      · exact h1 p hp
    · simp only [unjoined, h2, Bool.and_true, Bool.not_eq_true']
      have := hs.stops
      rw [hhead, Option.any_map] at this
      exact this
    · have hp : (starting inOpen t ts).tokens = t :: ts.take ((starting inOpen t ts).tokens.length - 1) :=
        (tokens_eq_cons _).trans (by rw [hs.first, hs.taken])
      rw [List.flatMap_cons, h3]
      conv => lhs; lhs; rw [hp]
      rw [List.cons_append, List.take_append_drop]
termination_by ts => ts.length
decreasing_by
  simp only [List.length_drop, List.length_cons]
  omega

theorem formed_phrases (inOpen : Bool) (ts : List Token) : ∀ p ∈ phrases inOpen ts, p.Formed inOpen :=
  (scan_spec inOpen ts).1

theorem unjoined_phrases (inOpen : Bool) (ts : List Token) : unjoined inOpen (phrases inOpen ts) = true :=
  (scan_spec inOpen ts).2.1

/-- **The phrases hold the tokens in order.** -/
theorem flatMap_tokens_phrases (inOpen : Bool) (ts : List Token) : (phrases inOpen ts).flatMap tokens = ts :=
  (scan_spec inOpen ts).2.2

theorem getLast?_tokens (p : Phrase) : p.tokens.getLast? = some p.last := by
  cases p with
  | access t u more a => cases more <;> rfl
  | _                 => rfl

theorem getLast?_flatMap_tokens {ps : List Phrase} {p : Phrase} (hp : p ∈ ps.getLast?) :
    p.last ∈ (ps.flatMap tokens).getLast? := by
  obtain ⟨init, rfl⟩ := List.getLast?_eq_some_iff.1 hp
  rw [List.flatMap_append, List.flatMap_singleton, List.getLast?_append, getLast?_tokens]
  exact Option.mem_some_self _

theorem phrases_append {inOpen : Bool} {xs ys : List Token} {u : Token}
    (hj : ∀ p : Phrase, p.last ∈ xs.getLast? → p.joins inOpen u = false) :
    phrases inOpen (xs ++ u :: ys) = phrases inOpen xs ++ phrases inOpen (u :: ys) := by
  have htokens := flatMap_tokens_phrases inOpen xs
  have h : phrases inOpen ((phrases inOpen xs).flatMap tokens ++ u :: ys) =
      phrases inOpen xs ++ phrases inOpen (u :: ys) :=
    phrases_flatMap_append (formed_phrases inOpen xs) (unjoined_phrases inOpen xs) fun p hp =>
      hj p (htokens ▸ getLast?_flatMap_tokens hp)
  rwa [htokens] at h

/-! ## No cut has fewer phrases -/

theorem eq_token_of_formed {inOpen : Bool} {p : Phrase} (hp : p.Formed inOpen) (h1 : p.first.kind ≠ .hash)
    (h2 : p.first.kind ≠ .word .for_) (h3 : p.first.kind ≠ .word .access) : p = .token p.first := by
  cases p with
  | token t => rfl
  | handle t u n => exact absurd hp.1 h1
  | mode t u m => exact absurd hp.2.1 h2
  | access t u more a =>
    cases more with
    | none => exact absurd hp.2.1 h3
    | some v => exact absurd hp.2.1 h3

theorem kind_of_word? {t : Token} {w : Word} (h : t.word? = some w) : t.kind = .word w := by
  unfold Token.word? at h
  split at h
  · rename_i hk
    rw [hk, Option.some.inj h]
  · cases h

theorem eq_token_of_word {inOpen : Bool} {p : Phrase} (hp : p.Formed inOpen) {w : Word} (h : p.first.word? = some w)
    (h1 : w ≠ .for_) (h2 : w ≠ .access) : p = .token p.first := by
  have hk := kind_of_word? h
  refine eq_token_of_formed hp ?_ ?_ ?_ <;> rw [hk] <;> simp [h1, h2]

/-- **A phrase that takes the first token of the next one takes all of it**, and the two make one phrase. -/
theorem exists_merged {inOpen : Bool} {p q : Phrase} (hp : p.Formed inOpen) (hq : q.Formed inOpen)
    (h : p.joins inOpen q.first = true) : ∃ m : Phrase, m.Formed inOpen ∧ m.tokens = p.tokens ++ q.tokens := by
  cases p with
  | handle | mode => cases h
  | token t =>
    simp only [joins] at h
    split at h
    · rename_i ht
      obtain ⟨n, hn⟩ := Option.isSome_iff_exists.1 h
      have hk := (handle?_eq_some hn).1
      have hq' := eq_token_of_formed hq (by rw [hk]; simp) (by rw [hk]; simp) (by rw [hk]; simp)
      exact ⟨.handle t q.first n, ⟨ht, hn⟩, by rw [hq']; rfl⟩
    · rename_i ht
      rw [Bool.and_eq_true] at h
      obtain ⟨m, hm⟩ := Option.isSome_iff_exists.1 h.2
      obtain ⟨w, hw, hmode⟩ := Option.bind_eq_some_iff.1 hm
      have hq' := eq_token_of_word hq hw (by rintro rfl; cases hmode) (by rintro rfl; cases hmode)
      exact ⟨.mode t q.first m, ⟨h.1, ht, hm⟩, by rw [hq']; rfl⟩
    · rename_i ht
      rw [Bool.and_eq_true, Bool.or_eq_true, beq_iff_eq, beq_iff_eq] at h
      rcases h with ⟨hi, hw | hw⟩
      · have hq' := eq_token_of_word hq hw (by decide) (by decide)
        exact ⟨.access t q.first none .read, ⟨hi, ht, .inl ⟨hw, rfl⟩⟩, by rw [hq']; rfl⟩
      · have hq' := eq_token_of_word hq hw (by decide) (by decide)
        exact ⟨.access t q.first none .write, ⟨hi, ht, .inr ⟨hw, rfl⟩⟩, by rw [hq']; rfl⟩
    · cases h
  | access t u more a =>
    cases more with
    | some v => cases h
    | none =>
      obtain ⟨hi, ht, hu⟩ := hp
      cases a with
      | write | readWrite => cases h
      | read =>
        have hw : q.first.word? = some .write := by simpa [joins] using h
        have hu : u.word? = some .read := by simpa using hu
        have hq' := eq_token_of_word hq hw (by decide) (by decide)
        exact ⟨.access t u (some q.first) .readWrite, ⟨hi, ht, hu, hw, rfl⟩, by rw [hq']; rfl⟩

/-- **No cut of the same tokens into well-formed phrases has fewer phrases than the walk's**, and one that has as many
joins no successor. -/
theorem length_phrases_le {inOpen : Bool} : ∀ {ps : List Phrase}, (∀ p ∈ ps, p.Formed inOpen) →
    (phrases inOpen (ps.flatMap tokens)).length ≤ ps.length ∧
      (ps.length ≤ (phrases inOpen (ps.flatMap tokens)).length → unjoined inOpen ps = true)
  | [], _ => ⟨Nat.le_refl 0, fun _ => rfl⟩
  | [p], hf => by
    have h := phrases_flatMap hf rfl
    rw [h]
    exact ⟨Nat.le_refl _, fun _ => rfl⟩
  | p :: q :: ps, hf => by
    have hp := hf p List.mem_cons_self
    have hq := hf q (List.mem_cons_of_mem p List.mem_cons_self)
    have hps := fun r hr => hf r (List.mem_cons_of_mem p (List.mem_cons_of_mem q hr))
    cases hj : p.joins inOpen q.first with
    | true =>
      -- joined, the two make one phrase of a shorter cut
      obtain ⟨m, hm, hmt⟩ := exists_merged hp hq hj
      have hall : ∀ r ∈ m :: ps, r.Formed inOpen := by
        intro r hr
        rcases List.mem_cons.1 hr with rfl | hr
        · exact hm
        · exact hps r hr
      have hflat : (p :: q :: ps).flatMap tokens = (m :: ps).flatMap tokens := by
        rw [List.flatMap_cons, List.flatMap_cons, List.flatMap_cons, hmt, List.append_assoc]
      obtain ⟨hle, -⟩ := length_phrases_le hall
      rw [hflat]
      simp only [List.length_cons] at hle ⊢
      exact ⟨by omega, fun h => absurd h (by omega)⟩
    | false =>
      obtain ⟨hle, heq⟩ := length_phrases_le (fun r hr => hf r (List.mem_cons_of_mem p hr))
      have hhead : ((q :: ps).flatMap tokens).head?.any (p.joins inOpen) = false := by
        rw [head?_flatMap_tokens]
        exact hj
      have hwalk : phrases inOpen ((p :: q :: ps).flatMap tokens) = p :: phrases inOpen ((q :: ps).flatMap tokens) := by
        rw [phrases, List.flatMap_cons, scan_append hp hhead]
        rfl
      rw [hwalk]
      simp only [List.length_cons] at hle heq ⊢
      refine ⟨by omega, fun h => ?_⟩
      rw [unjoined, heq (by omega), List.head?_cons, Option.any_some, hj]
      rfl
termination_by ps => ps.length

end Phrase
end BlockBasic
