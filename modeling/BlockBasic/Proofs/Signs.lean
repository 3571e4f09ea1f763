import BlockBasic.Proofs.Faultless
/-!
# Signs — what is looked at in a token

Apart from its spelling, a token is its kind, and its text if it is a name: that is its `sign`.  A statement without an
access clause is listed phrase for phrase, and every phrase has the signs that it had in the source
(`signs_nestsOf_ofNests`).  Where phrases end is a matter of signs as well, but for a `#` that lacks its number
(`unjoined_signs`).
-/
namespace BlockBasic

/-- **What is looked at in a token**: its kind, and its text if it is a name. -/
def Token.sign (t : Token) : Token := ⟨t.kind, if t.kind = .name then t.text else [], Column.none⟩

@[simp] theorem Token.kind_sign (t : Token) : t.sign.kind = t.kind := rfl

theorem Token.sign_eq_of_kind {t u : Token} (h : t.kind = u.kind) (hn : u.kind ≠ .name) : t.sign = u.sign := by
  simp only [Token.sign, h, if_neg hn]

theorem Token.Sound.sign_listed {t : Token} (h : t.Sound) : t.listed.sign = t.sign := by
  by_cases hn : t.kind = .name
  · rw [Token.listed_of_other (by rw [hn]; rfl) (by rw [hn]; rfl)]
    rfl
  · exact Token.sign_eq_of_kind h.kind_listed hn

namespace Phrase

def signs (ps : List Phrase) : List Phrase := ps.map (map Token.sign)

theorem signs_append (ps qs : List Phrase) : signs (ps ++ qs) = signs ps ++ signs qs := List.map_append

theorem flatMap_tokens_signs (ps : List Phrase) : (signs ps).flatMap tokens = (ps.flatMap tokens).map Token.sign :=
  flatMap_tokens_map Token.sign ps

def isAccess : Phrase → Bool
  | .access _ _ _ _ => true
  | _               => false

def isLoneHash : Phrase → Bool
  | .token t => t.kind == .hash
  | _        => false

theorem joins_sign {inOpen : Bool} {p : Phrase} (h : p.isLoneHash = false) (t : Token) :
    (p.map Token.sign).joins inOpen t.sign = p.joins inOpen t := by
  cases p with
  | token u =>
    have hu : u.kind ≠ .hash := by simpa [isLoneHash] using h
    simp only [map, joins, Token.kind_sign]
    split
    · rename_i hk
      exact absurd hk hu
    all_goals rfl
  | handle | mode => rfl
  | access t u more a => cases more <;> cases a <;> rfl

/-- **Where phrases end is a matter of signs.** -/
theorem unjoined_signs {inOpen : Bool} : ∀ {ps : List Phrase}, (∀ p ∈ ps, p.isLoneHash = false) →
    unjoined inOpen (signs ps) = unjoined inOpen ps
  | [], _ => rfl
  | [p], _ => rfl
  | p :: q :: ps, h => by
    have ih : unjoined inOpen (signs (q :: ps)) = unjoined inOpen (q :: ps) :=
      unjoined_signs (fun r hr => h r (List.mem_cons_of_mem p hr))
    rw [signs] at ih
    rw [signs, List.map_cons, unjoined, unjoined, ih]
    simp only [List.map_cons, List.head?_cons, Option.any_some, first_map, joins_sign (h p List.mem_cons_self)]

end Phrase

/-! ## Whole nests hold no stray sign -/

namespace Nest

theorem Whole.not_loneHash {limit : Limit} {inOpen : Bool} {depth : Nat} {n : Nest} (h : Whole limit inOpen depth n) :
    ∀ p ∈ flat n, p.isLoneHash = false := by
  induction h with
  | @leaf depth p _ hs =>
    intro q hq
    rw [flat, List.mem_singleton] at hq
    rw [hq]
    cases p with
    | token t => simpa [Phrase.isLoneHash] using (Expression.kind_of_isSettled hs).2.2
    | handle | mode | access => rfl
  | @group depth b o t body ho hc _ _ ih =>
    intro q hq
    rw [flat, flatOf_eq_flatMap] at hq
    rcases List.mem_cons.1 hq with rfl | hq
    · simp [Phrase.isLoneHash, ho]
    rcases List.mem_append.1 hq with hq | hq
    · obtain ⟨n, hn, hq⟩ := List.mem_flatMap.1 hq
      exact ih n hn q hq
    · rw [show q = .token t by simpa using hq]
      simp [Phrase.isLoneHash, hc]

theorem not_loneHash_flatOf {limit : Limit} {inOpen : Bool} {depth : Nat} {ns : List Nest}
    (h : ∀ n ∈ ns, Whole limit inOpen depth n) : ∀ p ∈ flatOf ns, p.isLoneHash = false := by
  intro p hp
  rw [flatOf_eq_flatMap] at hp
  obtain ⟨n, hn, hp⟩ := List.mem_flatMap.1 hp
  exact (h n hn).not_loneHash p hp

theorem Whole.formed {limit : Limit} {inOpen : Bool} {depth : Nat} {n : Nest} (h : Whole limit inOpen depth n) :
    ∀ p ∈ flat n, p.Formed inOpen := by
  induction h with
  | leaf hp _ =>
    intro q hq
    rw [flat, List.mem_singleton] at hq
    rw [hq]
    exact hp
  | group _ _ _ _ ih =>
    intro q hq
    rw [flat, flatOf_eq_flatMap] at hq
    rcases List.mem_cons.1 hq with rfl | hq
    · exact trivial
    rcases List.mem_append.1 hq with hq | hq
    · obtain ⟨n, hn, hq⟩ := List.mem_flatMap.1 hq
      exact ih n hn q hq
    · obtain ⟨t, -, rfl⟩ := List.mem_map.1 hq
      exact trivial

theorem formed_flatOf {limit : Limit} {inOpen : Bool} {depth : Nat} {ns : List Nest}
    (h : ∀ n ∈ ns, Whole limit inOpen depth n) : ∀ p ∈ flatOf ns, p.Formed inOpen := by
  intro p hp
  rw [flatOf_eq_flatMap] at hp
  obtain ⟨n, hn, hp⟩ := List.mem_flatMap.1 hp
  exact (h n hn).formed p hp

end Nest

/-! ## A listing keeps the signs -/

namespace Expression

open Nest (flat flatOf)
open Phrase (signs)

def listedSigns (es : List Expression) : List Phrase := signs (flatOf (nestsOf es))

theorem listedSigns_cons (e : Expression) (es : List Expression) :
    listedSigns (e :: es) = signs (flatOf (nests e)) ++ listedSigns es := by
  rw [listedSigns, nestsOf, Nest.flatOf_append, Phrase.signs_append]
  rfl

theorem signs_separator {e : Expression} (h : e.isSeparator = true) :
    signs (flatOf (nests e)) = signs (flatOf [commaNest]) := by
  cases e with
  | group => cases h
  | atom c a =>
    cases a with
    | separator x => rfl
    | _ => cases h

theorem signs_argumentNests_cutArguments (es : List Expression) :
    signs (flatOf (argumentNests (cutArguments es))) = listedSigns es := by
  induction es with
  | nil => rfl
  | cons e es ih =>
    cases hc : cutArguments es with
    | nil => exact absurd hc (cutArguments_ne_nil es)
    | cons a as =>
      rw [hc] at ih
      rw [listedSigns_cons, ← ih, cutArguments, hc]
      split
      · rename_i hs
        rw [signs_separator hs, ← Phrase.signs_append, ← Nest.flatOf_append]
        rfl
      · simp only [argumentNests, nestsOf, Nest.flatOf_append, Phrase.signs_append, List.append_assoc]

theorem signs_argumentNests (es : List Expression) : signs (flatOf (argumentNests (argumentsOf es))) = listedSigns es := by
  cases es with
  | nil => rfl
  | cons e es => exact signs_argumentNests_cutArguments (e :: es)

theorem foldl_settle_expressions : ∀ (es before : List Expression),
    (es.map Piece.expression).foldl settle before = before ++ es
  | [], before => (List.append_nil before).symm
  | e :: es, before => by
    rw [List.map_cons, List.foldl_cons, foldl_settle_expressions es, settle, List.append_assoc, List.singleton_append]

theorem signs_nestPieces {limit : Limit} {table : Table} {depth : Nat} : ∀ {ns : List Nest},
    (∀ n ∈ ns, ∃ e, nestPiece limit table depth n = .expression e ∧ signs (flatOf (nests e)) = signs (flat n)) →
      ∃ es, nestPieces limit table depth ns = es.map .expression ∧ listedSigns es = signs (flatOf ns)
  | [], _ => ⟨[], rfl, rfl⟩
  | n :: ns, h => by
    obtain ⟨e, he, hs⟩ := h n List.mem_cons_self
    obtain ⟨es, hes, hss⟩ := signs_nestPieces (fun m hm => h m (List.mem_cons_of_mem n hm))
    refine ⟨e :: es, by rw [nestPieces, he, hes, List.map_cons], ?_⟩
    rw [listedSigns_cons, hs, hss, flatOf, Phrase.signs_append]

theorem signs_leaf {limit : Limit} {table : Table} {inOpen : Bool} {depth : Nat} {p : Phrase} (hp : p.Formed inOpen)
    (hs : p.isSettled = true) (ht : ∀ t ∈ p.tokens, t.Sound) (ha : p.isAccess = false) :
    ∃ e, nestPiece limit table depth (.leaf p) = .expression e ∧ signs (flatOf (nests e)) = signs [p] := by
  cases p with
  | token t =>
    have hsound : t.Sound := ht t List.mem_cons_self
    have hphrases : (tokenAtom table t).phrases = [.token t.listed] := (tokenAtom_listed hsound hs).1
    refine ⟨_, rfl, ?_⟩
    rw [nests, hphrases]
    show [Phrase.token t.listed.sign] = [Phrase.token t.sign]
    rw [hsound.sign_listed]
  | handle t u n =>
    have hu := (Phrase.handle?_eq_some hp.2).1
    have hsign : Token.sign ⟨.hash, ['#'], Column.none⟩ = t.sign :=
      Token.sign_eq_of_kind hp.1.symm (by rw [hp.1]; simp)
    have hsign' : Token.sign ⟨.integer, Text.ofNat n, Column.none⟩ = u.sign :=
      Token.sign_eq_of_kind hu.symm (by rw [hu]; simp)
    refine ⟨_, rfl, ?_⟩
    show [Phrase.handle (Token.sign ⟨.hash, ['#'], Column.none⟩) (Token.sign ⟨.integer, Text.ofNat n, Column.none⟩) n] = _
    rw [hsign, hsign']
    rfl
  | mode t u m =>
    have hu : u.kind = .word m.word := FileMode.kind_eq hp.2.2
    have hsign : (Keyword.word .for_).token.sign = t.sign :=
      Token.sign_eq_of_kind hp.2.1.symm (by rw [hp.2.1]; simp)
    have hsign' : (Keyword.word m.word).token.sign = u.sign :=
      Token.sign_eq_of_kind hu.symm (by rw [hu]; simp)
    refine ⟨_, rfl, ?_⟩
    show [Phrase.mode (Keyword.word .for_).token.sign (Keyword.word m.word).token.sign m] = _
    rw [hsign, hsign']
    rfl
  | access => cases ha

theorem signs_nestPiece {limit : Limit} {table : Table} {inOpen : Bool} {depth : Nat} {n : Nest}
    (h : Nest.Whole limit inOpen depth n) : (∀ t ∈ n.tokens, t.Sound) → (∀ p ∈ flat n, p.isAccess = false) →
      ∃ e, nestPiece limit table depth n = .expression e ∧ signs (flatOf (nests e)) = signs (flat n) := by
  induction h with
  | leaf hp hs =>
    intro ht ha
    exact signs_leaf hp hs ht (ha _ List.mem_cons_self)
  | @group depth b o t body ho hc hdeep _ ih =>
    intro ht ha
    obtain ⟨es, hes, hsigns⟩ : ∃ es, nestPieces limit table (depth + 1) body = es.map .expression ∧
        listedSigns es = signs (flatOf body) := by
      refine signs_nestPieces (fun n hn => ih n hn (fun u hu => ht u (Nest.mem_tokens_group hn hu)) (fun p hp => ha p ?_))
      rw [flat, Nest.flatOf_eq_flatMap]
      exact List.mem_cons_of_mem _ (List.mem_append_left _ (List.mem_flatMap.2 ⟨n, hn, hp⟩))
    refine ⟨.group (Nest.groupColumn o body (some t)) b (argumentsOf es) true, ?_, ?_⟩
    · rw [nestPiece, hdeep, if_neg (by simp), hes, foldl_settle_expressions]
      rfl
    · have hopen : b.openingToken.sign = o.sign := Token.sign_eq_of_kind ho.symm (by rw [ho]; simp)
      have hclose : b.closingToken.sign = t.sign := Token.sign_eq_of_kind hc.symm (by rw [hc]; simp)
      have hbody := signs_argumentNests es
      rw [hsigns] at hbody
      simp only [signs, nests, flatOf, flat, List.append_nil, List.map_cons, List.map_append, Phrase.map, hopen,
        Option.toList_some, List.map_nil, hclose] at hbody ⊢
      rw [hbody]

/-- **Without an access clause a listing writes the phrases as they were, up to the spelling of words and numbers.** -/
theorem signs_nestsOf_ofNests {limit : Limit} {table : Table} {inOpen : Bool} {ns : List Nest}
    (h : ∀ n ∈ ns, Nest.Whole limit inOpen 0 n) (ht : ∀ t ∈ Nest.tokensOf ns, t.Sound)
    (ha : ∀ p ∈ flatOf ns, p.isAccess = false) : listedSigns (ofNests limit table ns) = signs (flatOf ns) := by
  obtain ⟨es, hes, hs⟩ : ∃ es, nestPieces limit table 0 ns = es.map .expression ∧ listedSigns es = signs (flatOf ns) := by
    refine signs_nestPieces (fun n hn => signs_nestPiece (h n hn) (fun t hm => ht t (Nest.mem_tokensOf hn hm))
      (fun p hp => ha p ?_))
    rw [Nest.flatOf_eq_flatMap]
    exact List.mem_flatMap.2 ⟨n, hn, hp⟩
  rw [ofNests, hes, foldl_settle_expressions, List.nil_append, hs]

end Expression
end BlockBasic
