import BlockBasic.Proofs.Brackets
import BlockBasic.Reference.Scan
/-!
# Balanced — brackets that close each other by type

Tokens are balanced if each closing bracket is of the type of the innermost open one, and none stays open.  Pairing keeps
the same stack of open brackets as this check, so that all groups of balanced tokens are closed by a bracket of their type
and none stands astray, however deep they are nested (`closed_ofPhrases`).

The pass that declares counts brackets and does not look at their types.  Where all groups are closed it needs no types: a
count that has entered a group is back where it was behind the group (`Scan.itemNames_balanced`,
`Scan.groupInside_balanced`).
-/
namespace BlockBasic

def Kind.isBracket : Kind → Bool
  | .opener _ | .closer _ => true
  | _                     => false

theorem Kind.ne_opener {k : Kind} (h : k.isBracket = false) (b : Bracket) : k ≠ .opener b := by
  rintro rfl
  cases h

/-- **Whether brackets close each other by type**, where those of `opened` are open before, the innermost first. -/
def balanced : (opened : List Bracket) → List Token → Bool
  | opened, []      => opened.isEmpty
  | opened, t :: ts =>
    match t.kind with
    | .opener b => balanced (b :: opened) ts
    | .closer b =>
      match opened with
      | o :: os => o == b && balanced os ts
      | []      => false
    | _         => balanced opened ts

theorem balanced_opener {t : Token} {b : Bracket} (h : t.kind = .opener b) (opened : List Bracket) (ts : List Token) :
    balanced opened (t :: ts) = balanced (b :: opened) ts := by
  rw [balanced, h]

theorem balanced_closer {t : Token} {b : Bracket} (h : t.kind = .closer b) (opened : List Bracket) (ts : List Token) :
    balanced (b :: opened) (t :: ts) = balanced opened ts := by
  simp [balanced, h]

theorem balanced_closer_iff {t : Token} {b : Bracket} (h : t.kind = .closer b) {opened : List Bracket} {ts : List Token} :
    balanced opened (t :: ts) = true ↔ ∃ os, opened = b :: os ∧ balanced os ts = true := by
  rw [balanced, h]
  cases opened with
  | nil => simp
  | cons o os =>
    simp only [Bool.and_eq_true, beq_iff_eq]
    constructor
    · rintro ⟨rfl, hos⟩
      exact ⟨os, rfl, hos⟩
    · rintro ⟨_, he, hos⟩
      cases he
      exact ⟨rfl, hos⟩

theorem balanced_other {t : Token} (h : t.kind.isBracket = false) (opened : List Bracket) (ts : List Token) :
    balanced opened (t :: ts) = balanced opened ts := by
  rw [balanced]
  cases hk : t.kind with
  | opener | closer => rw [hk] at h; cases h
  | _ => rfl

theorem balanced_others (opened : List Bracket) (ts : List Token) : ∀ {xs : List Token},
    (∀ t ∈ xs, t.kind.isBracket = false) → balanced opened (xs ++ ts) = balanced opened ts
  | [], _ => rfl
  | x :: xs, h => by
    rw [List.cons_append, balanced_other (h x List.mem_cons_self),
      balanced_others opened ts (fun t ht => h t (List.mem_cons_of_mem x ht))]

namespace Phrase

theorem isBracket_of_word? {t : Token} {w : Word} (h : t.word? = some w) : t.kind.isBracket = false := by
  rw [kind_of_word? h]
  rfl

theorem Formed.no_bracket {inOpen : Bool} {p : Phrase} (hp : p.Formed inOpen) (h : p.first.kind.isBracket = false) :
    ∀ t ∈ p.tokens, t.kind.isBracket = false := by
  rw [tokens_eq_cons, List.forall_mem_cons]
  refine ⟨h, fun u hu => ?_⟩
  cases p with
  | token t => cases hu
  | handle t v n =>
    rw [List.mem_singleton.1 hu, (handle?_eq_some hp.2).1]
    rfl
  | mode t v m =>
    obtain ⟨w, hw, -⟩ := Option.bind_eq_some_iff.1 hp.2.2
    rw [List.mem_singleton.1 hu]
    exact isBracket_of_word? hw
  | access t v more a =>
    cases more with
    | none =>
      rw [List.mem_singleton.1 hu]
      rcases hp.2.2 with ⟨hv, -⟩ | ⟨hv, -⟩
      · exact isBracket_of_word? hv
      · exact isBracket_of_word? hv
    | some x =>
      obtain ⟨-, -, hv, hx, -⟩ := hp
      rcases List.mem_cons.1 hu with rfl | hu
      · exact isBracket_of_word? hv
      · rw [List.mem_singleton.1 hu]
        exact isBracket_of_word? hx

end Phrase

/-! ## Closed nests -/

namespace Nest

/-- **A closed nest**: its groups end in a bracket of their type, and no other brackets are in it. -/
inductive Closed (inOpen : Bool) : Nest → Prop
  | leaf {p : Phrase} : p.Formed inOpen → p.first.kind.isBracket = false → Closed inOpen (.leaf p)
  | group {b : Bracket} {o c : Token} {body : List Nest} : o.kind = .opener b → c.kind = .closer b →
      (∀ n ∈ body, Closed inOpen n) → Closed inOpen (.group b o body (some c))

namespace Pairing

/-- **The invariant of pairing balanced tokens**: the brackets of its open groups are those that are open, and all that is
in place is closed. -/
structure Keeps (inOpen : Bool) (opened : List Bracket) (s : Pairing) : Prop where
  brackets : s.frames.map Frame.bracket = opened
  frames   : ∀ f ∈ s.frames, f.opening.kind = .opener f.bracket ∧ ∀ n ∈ f.before, Closed inOpen n
  current  : ∀ n ∈ s.current, Closed inOpen n

variable {inOpen : Bool} {opened : List Bracket} {s : Pairing}

theorem Keeps.add (h : s.Keeps inOpen opened) {n : Nest} (hn : Closed inOpen n) : (s.add n).Keeps inOpen opened := by
  refine ⟨h.brackets, h.frames, fun m hm => ?_⟩
  rcases List.mem_append.1 hm with hm | hm
  · exact h.current m hm
  · rw [List.mem_singleton.1 hm]
    exact hn

theorem Keeps.opens (h : s.Keeps inOpen opened) (limit : Limit) {b : Bracket} {o : Token} (ho : o.kind = .opener b) :
    (s.step limit (.token o)).Keeps inOpen (b :: opened) := by
  have hstep : s.step limit (.token o) = ⟨⟨b, o, s.current⟩ :: s.frames, []⟩ := by simp [step, Phrase.first, ho]
  rw [hstep]
  refine ⟨by rw [List.map_cons, h.brackets], fun f hf => ?_, fun n hn => absurd hn List.not_mem_nil⟩
  rcases List.mem_cons.1 hf with rfl | hf
  · exact ⟨ho, h.current⟩
  · exact h.frames f hf

theorem Keeps.closes {b : Bracket} (h : s.Keeps inOpen (b :: opened)) (limit : Limit) {c : Token} (hc : c.kind = .closer b) :
    (s.step limit (.token c)).Keeps inOpen opened := by
  cases hframes : s.frames with
  | nil => exact absurd h.brackets (by simp [hframes])
  | cons f fs =>
    have hb : f.bracket = b ∧ fs.map Frame.bracket = opened := by
      have := h.brackets
      rwa [hframes, List.map_cons, List.cons.injEq] at this
    have hmem : ∀ g ∈ f :: fs, g ∈ s.frames := fun g hg => hframes ▸ hg
    have hstep : s.step limit (.token c) = ⟨fs, f.before ++ [.group f.bracket f.opening s.current (some c)]⟩ := by
      simp [step, Phrase.first, hc, hframes, fits, hb.1]
    obtain ⟨ho, hbefore⟩ := h.frames f (hmem f List.mem_cons_self)
    rw [hstep]
    refine ⟨hb.2, fun g hg => h.frames g (hmem g (List.mem_cons_of_mem f hg)), fun n hn => ?_⟩
    rcases List.mem_append.1 hn with hn | hn
    · exact hbefore n hn
    · rw [List.mem_singleton.1 hn]
      exact .group ho (hb.1 ▸ hc) h.current

/-- **One phrase**: the open brackets change alike in pairing and in the check. -/
theorem Keeps.step (h : s.Keeps inOpen opened) (limit : Limit) {p : Phrase} (hp : p.Formed inOpen) {ts : List Token}
    (hb : balanced opened (p.tokens ++ ts) = true) :
    ∃ left, (s.step limit p).Keeps inOpen left ∧ balanced left ts = true := by
  cases hk : p.first.kind with
  | opener b =>
    rw [eq_token_of_bracket hp (.inl ⟨b, hk⟩)] at hb ⊢
    exact ⟨b :: opened, h.opens limit hk, (balanced_opener hk opened ts).symm.trans hb⟩
  | closer b =>
    rw [eq_token_of_bracket hp (.inr ⟨b, hk⟩)] at hb ⊢
    obtain ⟨left, rfl, hleft⟩ := (balanced_closer_iff hk).1 hb
    exact ⟨left, h.closes limit hk, hleft⟩
  | _ =>
    have hno : p.first.kind.isBracket = false := by rw [hk]; rfl
    refine ⟨opened, ?_, (balanced_others opened ts (hp.no_bracket hno)).symm.trans hb⟩
    simp only [Pairing.step, hk]
    exact h.add (.leaf hp hno)

theorem Keeps.foldl (limit : Limit) : ∀ {ps : List Phrase} {s : Pairing} {opened : List Bracket}, s.Keeps inOpen opened →
    (∀ p ∈ ps, p.Formed inOpen) → balanced opened (ps.flatMap Phrase.tokens) = true →
      (ps.foldl (Pairing.step limit) s).Keeps inOpen []
  | [], _, opened, h, _, hb => by
    obtain rfl : opened = [] := List.isEmpty_iff.1 hb
    exact h
  | p :: ps, _, _, h, hps, hb => by
    rw [List.flatMap_cons] at hb
    obtain ⟨left, hleft, hrest⟩ := h.step limit (hps p List.mem_cons_self) hb
    exact hleft.foldl limit (fun q hq => hps q (List.mem_cons_of_mem p hq)) hrest

end Pairing

/-- **The nests of balanced tokens are closed**, whatever the limit. -/
theorem closed_ofPhrases (limit : Limit) (inOpen : Bool) {ts : List Token} (h : balanced [] ts = true) :
    ∀ n ∈ ofPhrases limit (phrases inOpen ts), Closed inOpen n := by
  have hstart : Pairing.Keeps inOpen [] {} :=
    ⟨rfl, fun f hf => absurd hf List.not_mem_nil, fun n hn => absurd hn List.not_mem_nil⟩
  rw [← Phrase.flatMap_tokens_phrases inOpen ts] at h
  have hend := hstart.foldl limit (Phrase.formed_phrases inOpen ts) h
  rw [ofPhrases, List.map_eq_nil_iff.1 hend.brackets]
  exact hend.current

theorem tokensOf_token (t : Token) (ns : List Nest) : tokensOf (.leaf (.token t) :: ns) = t :: tokensOf ns := rfl

theorem tokensOf_handle (t u : Token) (k : Nat) (ns : List Nest) :
    tokensOf (.leaf (.handle t u k) :: ns) = t :: u :: tokensOf ns := rfl

theorem tokensOf_group (b : Bracket) (o c : Token) (body ns : List Nest) :
    tokensOf (.group b o body (some c) :: ns) = o :: (tokensOf body ++ c :: tokensOf ns) := by
  simp [tokensOf, tokens]

theorem tokensOf_append_of {α : Type} {f : List Token → α} : ∀ {ns : List Nest},
    (∀ n ∈ ns, ∀ rest, f (tokens n ++ rest) = f rest) → ∀ rest, f (tokensOf ns ++ rest) = f rest
  | [], _, _ => rfl
  | n :: ns, h, rest => by
    rw [tokensOf, List.append_assoc, h n List.mem_cons_self,
      tokensOf_append_of (fun m hm => h m (List.mem_cons_of_mem n hm))]

theorem Closed.balanced_append {inOpen : Bool} {n : Nest} (h : Closed inOpen n) : ∀ (opened : List Bracket)
    (rest : List Token), balanced opened (tokens n ++ rest) = balanced opened rest := by
  induction h with
  | leaf hp hno => exact fun opened rest => balanced_others opened rest (hp.no_bracket hno)
  | @group b o c body ho hc _ ih =>
    intro opened rest
    rw [tokens, List.cons_append, List.append_assoc, balanced_opener ho, tokensOf_append_of (fun n hn => ih n hn _),
      Option.toList_some, List.singleton_append, balanced_closer hc]

theorem balanced_tokensOf {inOpen : Bool} {ns : List Nest} (h : ∀ n ∈ ns, Closed inOpen n) :
    balanced [] (tokensOf ns) = true := by
  have := tokensOf_append_of (fun n hn => (h n hn).balanced_append []) []
  rwa [List.append_nil] at this

end Nest

/-! ## Counting balanced brackets -/

namespace Scan

theorem itemNames_opener {t : Token} {b : Bracket} (h : t.kind = .opener b) (depth : Int) (wanted : Bool)
    (ts : List Token) : itemNames depth wanted (t :: ts) = itemNames (depth + 1) wanted ts := by
  rw [itemNames, h]

theorem itemNames_closer {t : Token} {b : Bracket} (h : t.kind = .closer b) (depth : Int) (wanted : Bool)
    (ts : List Token) : itemNames depth wanted (t :: ts) = itemNames (depth - 1) wanted ts := by
  rw [itemNames, h]

theorem itemNames_outside {t : Token} (h : t.kind.isBracket = false) (wanted : Bool) (ts : List Token) :
    itemNames 0 wanted (t :: ts) =
      if t.kind = .separator then itemNames 0 true ts
      else if wanted then
        if t.kind = .name then t :: itemNames 0 false ts else itemNames 0 true ts
      else itemNames 0 false ts := by
  rw [itemNames]
  cases hk : t.kind with
  | opener | closer => rw [hk] at h; cases h
  | _ => cases wanted <;> simp

theorem itemNames_inside {depth : Int} (hd : 0 < depth) (wanted : Bool) {t : Token} (h : t.kind.isBracket = false)
    (ts : List Token) : itemNames depth wanted (t :: ts) = itemNames depth wanted ts := by
  have hne : (depth == 0) = false := by simp; omega
  rw [itemNames, hne, Bool.or_false, Bool.false_and, if_neg Bool.false_ne_true]
  cases hk : t.kind with
  | opener | closer => rw [hk] at h; cases h
  | _ => rfl

/-- **Balanced tokens inside a group offer no name**, and the count is back where it was behind them. -/
theorem itemNames_balanced {depth : Int} (hd : 0 < depth) (wanted : Bool) (rest : List Token) :
    ∀ {opened : List Bracket} {ts : List Token}, balanced opened ts = true →
      itemNames (depth + opened.length) wanted (ts ++ rest) = itemNames depth wanted rest
  | opened, [], h => by
    rw [List.isEmpty_iff.1 h]
    simp
  | opened, t :: ts, h => by
    cases hk : t.kind with
    | opener b =>
      rw [balanced_opener hk] at h
      rw [List.cons_append, itemNames_opener hk, ← itemNames_balanced hd wanted rest h]
      simp only [List.length_cons, Int.natCast_succ, Int.add_assoc]
    | closer b =>
      obtain ⟨os, rfl, hos⟩ := (balanced_closer_iff hk).1 h
      rw [List.cons_append, itemNames_closer hk, ← itemNames_balanced hd wanted rest hos]
      simp only [List.length_cons, Int.natCast_succ, ← Int.add_assoc, Int.add_sub_cancel]
    | _ =>
      have hno : t.kind.isBracket = false := by rw [hk]; rfl
      rw [balanced_other hno] at h
      rw [List.cons_append, itemNames_inside (by omega) wanted hno, itemNames_balanced hd wanted rest h]

/-- **Balanced tokens do not close the group that they are in.** -/
theorem groupInside_balanced (depth : Nat) (rest : List Token) : ∀ {opened : List Bracket} {ts : List Token},
    balanced opened ts = true → groupInside (depth + opened.length) (ts ++ rest) = ts ++ groupInside depth rest
  | opened, [], h => by
    rw [List.isEmpty_iff.1 h]
    rfl
  | opened, t :: ts, h => by
    cases hk : t.kind with
    | opener b =>
      rw [balanced_opener hk] at h
      rw [List.cons_append, List.cons_append, ← groupInside_balanced depth rest h]
      simp only [groupInside, hk, List.length_cons, Nat.add_assoc]
    | closer b =>
      obtain ⟨os, rfl, hos⟩ := (balanced_closer_iff hk).1 h
      rw [List.cons_append, List.cons_append, ← groupInside_balanced depth rest hos, List.length_cons, ← Nat.add_assoc]
      simp only [groupInside, hk]
    | _ =>
      have hno : t.kind.isBracket = false := by rw [hk]; rfl
      rw [balanced_other hno] at h
      rw [List.cons_append, List.cons_append, ← groupInside_balanced depth rest h]
      simp only [groupInside, hk]

section

variable {ts : List Token} (h : balanced [] ts = true) {b : Bracket} {c : Token} (hc : c.kind = .closer b)
  (rest : List Token)
include h hc

theorem groupInside_closed : groupInside 0 (ts ++ c :: rest) = ts := by
  have hrest : groupInside 0 (c :: rest) = [] := by simp only [groupInside, hc]
  have := groupInside_balanced 0 (c :: rest) h
  rwa [hrest, List.append_nil] at this

theorem afterGroup_closed : afterGroup (ts ++ c :: rest) = rest := by
  rw [afterGroup, groupInside_closed h hc, ← List.drop_drop, List.drop_left, List.drop_one, List.tail_cons]

theorem itemNames_group {o : Token} {b' : Bracket} (ho : o.kind = .opener b') (wanted : Bool) :
    itemNames 0 wanted (o :: (ts ++ c :: rest)) = itemNames 0 wanted rest := by
  have hinside : itemNames (1 + 0) wanted (ts ++ c :: rest) = itemNames 1 wanted (c :: rest) :=
    itemNames_balanced (by decide) wanted (c :: rest) h
  rw [itemNames_opener ho]
  exact hinside.trans (itemNames_closer hc 1 wanted rest)

end

end Scan
end BlockBasic
