import BlockBasic.Proofs.Brackets
import BlockBasic.CodeLine
/-!
# Dividers — where a line is cut into statements

A colon divides a line only outside brackets, so no stretch of a line holds a divider of its own (`undivided_stretches`),
and tokens that hold none are one stretch (`stretches_of_undivided`).  Nests with which nothing is wrong leave the depth
of brackets as they find it (`depth_tokensOf`); what they hold is undivided if and only if no colon stands outside their
groups.
-/
namespace BlockBasic
namespace CodeLine

/-- Whether tokens that begin inside `depth` brackets hold no divider. -/
def undivided : Nat → List Token → Bool
  | _, []          => true
  | depth, t :: ts => !isDivider depth t && undivided (depthAfter depth t) ts

theorem undivided_append : ∀ (depth : Nat) (xs ys : List Token),
    undivided depth (xs ++ ys) = (undivided depth xs && undivided (xs.foldl depthAfter depth) ys)
  | _, [], _ => rfl
  | depth, x :: xs, ys => by
    rw [List.cons_append, undivided, undivided_append (depthAfter depth x) xs ys, undivided, Bool.and_assoc]
    rfl

theorem stretches_of_undivided : ∀ {depth : Nat} {ts : List Token}, undivided depth ts = true → stretches depth ts = [ts]
  | _, [], _ => rfl
  | depth, t :: ts, h => by
    rw [undivided, Bool.and_eq_true, Bool.not_eq_true'] at h
    rw [stretches, h.1, if_neg (by simp), stretches_of_undivided h.2]

/-- **No stretch of a line holds a divider.**  The first one begins inside `depth` brackets, the others outside all. -/
theorem undivided_stretches : ∀ (depth : Nat) (ts : List Token), ∃ r rs, stretches depth ts = r :: rs ∧
    undivided depth r = true ∧ ∀ s ∈ rs, undivided 0 s = true
  | _, [] => ⟨[], [], rfl, rfl, fun s hs => absurd hs List.not_mem_nil⟩
  | depth, t :: ts => by
    by_cases hd : isDivider depth t = true
    · obtain ⟨r, rs, he, hr, hrs⟩ := undivided_stretches depth ts
      have hzero : depth = 0 := by
        rw [isDivider, Bool.and_eq_true, beq_iff_eq, beq_iff_eq] at hd
        exact hd.2
      refine ⟨[], r :: rs, by rw [stretches, if_pos hd, he], rfl, fun s hs => ?_⟩
      rcases List.mem_cons.1 hs with rfl | hs
      · rw [← hzero]
        exact hr
      · exact hrs s hs
    · obtain ⟨r, rs, he, hr, hrs⟩ := undivided_stretches (depthAfter depth t) ts
      refine ⟨t :: r, rs, by rw [stretches, if_neg hd, he], ?_, hrs⟩
      rw [undivided, hr, Bool.and_true, Bool.not_eq_true']
      simpa using hd

theorem undivided_of_mem_runs {l : CodeLine} {ts : List Token} (h : ts ∈ l.runs) : undivided 0 ts = true := by
  obtain ⟨r, rs, he, hr, hrs⟩ := undivided_stretches 0 l.tokens
  have hm := (List.mem_filter.1 h).1
  rw [he] at hm
  rcases List.mem_cons.1 hm with rfl | hm
  · exact hr
  · exact hrs ts hm

theorem runs_of_undivided {l : CodeLine} (h : undivided 0 l.tokens = true) (hne : l.tokens ≠ []) : l.runs = [l.tokens] := by
  have hkeep : (!l.tokens.isEmpty) = true := by
    cases ht : l.tokens with
    | nil => exact absurd ht hne
    | cons t ts => rfl
  rw [runs, stretches_of_undivided h]
  simp only [List.filter_cons, hkeep, if_true, List.filter_nil]

theorem sublist_of_mem_stretches : ∀ {depth : Nat} {ts r : List Token}, r ∈ stretches depth ts → r.Sublist ts
  | _, [], r, hr => by
    rw [stretches, List.mem_singleton] at hr
    subst hr
    exact List.nil_sublist []
  | depth, x :: xs, r, hr => by
    rw [stretches] at hr
    split at hr
    · rcases List.mem_cons.1 hr with rfl | hr
      · exact List.nil_sublist _
      · exact (sublist_of_mem_stretches hr).cons x
    · cases hs : stretches (depthAfter depth x) xs with
      | nil =>
        rw [hs, List.mem_singleton] at hr
        rw [hr]
        exact List.singleton_sublist.2 List.mem_cons_self
      | cons y ys =>
        rw [hs] at hr
        rcases List.mem_cons.1 hr with rfl | hr
        · exact (sublist_of_mem_stretches (hs ▸ List.mem_cons_self)).cons_cons x
        · exact (sublist_of_mem_stretches (hs ▸ List.mem_cons_of_mem y hr)).cons x

theorem sublist_of_mem_runs {l : CodeLine} {ts : List Token} (h : ts ∈ l.runs) : ts.Sublist l.tokens :=
  sublist_of_mem_stretches (List.mem_filter.1 h).1

theorem mem_tokens_of_mem_runs {l : CodeLine} {ts : List Token} (h : ts ∈ l.runs) : ∀ t ∈ ts, t ∈ l.tokens :=
  fun _ ht => (sublist_of_mem_runs h).subset ht

theorem ne_nil_of_mem_runs {l : CodeLine} {ts : List Token} (h : ts ∈ l.runs) : ts ≠ [] := by
  have hne := (List.mem_filter.1 h).2
  rintro rfl
  exact absurd hne (by simp)

end CodeLine

/-! ## Whole nests -/

namespace Nest

open CodeLine (undivided depthAfter isDivider undivided_append)

def isInner (t : Token) : Bool :=
  match t.kind with
  | .opener _ | .closer _ | .colon => false
  | _                              => true

theorem depthAfter_of_isInner {t : Token} (h : isInner t = true) (depth : Nat) : depthAfter depth t = depth := by
  unfold isInner at h
  unfold depthAfter
  split at h <;> simp_all

theorem isDivider_of_isInner {t : Token} (h : isInner t = true) (depth : Nat) : isDivider depth t = false := by
  unfold isInner at h
  unfold isDivider
  split at h <;> simp_all

theorem foldl_depthAfter_inner : ∀ {ts : List Token} (depth : Nat), (∀ t ∈ ts, isInner t = true) →
    ts.foldl depthAfter depth = depth ∧ undivided depth ts = true
  | [], _, _ => ⟨rfl, rfl⟩
  | t :: ts, depth, h => by
    have ht := h t List.mem_cons_self
    obtain ⟨h1, h2⟩ := foldl_depthAfter_inner depth (fun u hu => h u (List.mem_cons_of_mem t hu))
    rw [List.foldl_cons, undivided, depthAfter_of_isInner ht, isDivider_of_isInner ht]
    exact ⟨h1, h2⟩

theorem isInner_phrase {inOpen : Bool} {p : Phrase} (hp : p.Formed inOpen) (hs : p.isSettled = true) :
    (p.first.kind = .colon ∧ p.tokens = [p.first]) ∨ ∀ t ∈ p.tokens, isInner t = true := by
  cases p with
  | token t =>
    by_cases hc : t.kind = .colon
    · exact .inl ⟨hc, rfl⟩
    · refine .inr (fun u hu => ?_)
      rw [List.mem_singleton.1 hu]
      simp only [Phrase.isSettled] at hs
      unfold isInner
      split at hs
      · cases hs
      · cases hs
      · cases hs
      · split <;> simp_all
  | handle t u n =>
    have hu := (Phrase.handle?_eq_some hp.2).1
    exact .inr (by simp [Phrase.tokens, isInner, hp.1, hu])
  | mode t u m =>
    have hw : u.word?.bind FileMode.ofWord? = some m := hp.2.2
    obtain ⟨w, hw, -⟩ := Option.bind_eq_some_iff.1 hw
    exact .inr (by simp [Phrase.tokens, isInner, hp.2.1, Phrase.kind_of_word? hw])
  | access t u more a =>
    cases more with
    | none =>
      obtain ⟨-, ht, ⟨hu, -⟩ | ⟨hu, -⟩⟩ := hp
      · exact .inr (by simp [Phrase.tokens, isInner, ht, Phrase.kind_of_word? hu])
      · exact .inr (by simp [Phrase.tokens, isInner, ht, Phrase.kind_of_word? hu])
    | some v =>
      obtain ⟨-, ht, hu, hv, -⟩ := hp
      exact .inr (by simp [Phrase.tokens, isInner, ht, Phrase.kind_of_word? hu, Phrase.kind_of_word? hv])

theorem foldl_depthAfter_tokensOf : ∀ {ns : List Nest} (depth : Nat),
    (∀ n ∈ ns, n.tokens.foldl depthAfter depth = depth) → (tokensOf ns).foldl depthAfter depth = depth
  | [], _, _ => rfl
  | n :: ns, depth, h => by
    rw [tokensOf, List.foldl_append, h n List.mem_cons_self,
      foldl_depthAfter_tokensOf depth (fun m hm => h m (List.mem_cons_of_mem n hm))]

theorem Whole.foldl_depthAfter {limit : Limit} {inOpen : Bool} {k : Nat} {n : Nest} (h : Whole limit inOpen k n) :
    ∀ depth, n.tokens.foldl depthAfter depth = depth := by
  induction h with
  | @leaf k p hp hs =>
    intro depth
    rcases isInner_phrase hp hs with ⟨hc, ht⟩ | hi
    · rw [tokens, ht, List.foldl_cons, List.foldl_nil, depthAfter, hc]
    · exact (foldl_depthAfter_inner depth hi).1
  | @group k b o t body ho hc _ _ ih =>
    intro depth
    have hbody := foldl_depthAfter_tokensOf (depth + 1) (fun n hn => ih n hn (depth + 1))
    have hopen : depthAfter depth o = depth + 1 := by rw [depthAfter, ho]
    have hclose : depthAfter (depth + 1) t = depth := by rw [depthAfter, hc]; rfl
    rw [tokens, List.foldl_cons, hopen, List.foldl_append, hbody, Option.toList_some, List.foldl_cons, hclose,
      List.foldl_nil]

/-- **Whole nests leave the depth of brackets as they find it.** -/
theorem depth_tokensOf {limit : Limit} {inOpen : Bool} {k : Nat} {ns : List Nest}
    (h : ∀ n ∈ ns, Whole limit inOpen k n) (depth : Nat) : (tokensOf ns).foldl depthAfter depth = depth :=
  foldl_depthAfter_tokensOf depth (fun n hn => (h n hn).foldl_depthAfter depth)

theorem undivided_tokensOf_of_each {limit : Limit} {inOpen : Bool} {k depth : Nat} : ∀ {ns : List Nest},
    (∀ n ∈ ns, Whole limit inOpen k n) → (∀ n ∈ ns, undivided depth n.tokens = true) →
      undivided depth (tokensOf ns) = true
  | [], _, _ => rfl
  | n :: ns, hw, h => by
    rw [tokensOf, undivided_append, h n List.mem_cons_self, (hw n List.mem_cons_self).foldl_depthAfter,
      undivided_tokensOf_of_each (fun m hm => hw m (List.mem_cons_of_mem n hm))
        (fun m hm => h m (List.mem_cons_of_mem n hm))]
    rfl

theorem Whole.undivided {limit : Limit} {inOpen : Bool} {k : Nat} {n : Nest} (h : Whole limit inOpen k n) :
    ∀ depth, (depth = 0 → ∀ p, n = .leaf p → p.first.kind ≠ .colon) → undivided depth n.tokens = true := by
  induction h with
  | @leaf k p hp hs =>
    intro depth hcolon
    rcases isInner_phrase hp hs with ⟨hc, ht⟩ | hi
    · have hd : depth ≠ 0 := fun hd => hcolon hd p rfl hc
      rw [tokens, ht]
      simp [CodeLine.undivided, isDivider, hd]
    · exact (foldl_depthAfter_inner depth hi).2
  | @group k b o t body ho hc _ hbody ih =>
    intro depth _
    have hopen : depthAfter depth o = depth + 1 := by rw [depthAfter, ho]
    have hinside : CodeLine.undivided (depth + 1) (tokensOf body) = true :=
      undivided_tokensOf_of_each hbody (fun n hn => ih n hn (depth + 1) (fun hd => absurd hd (Nat.succ_ne_zero depth)))
    rw [tokens, CodeLine.undivided, hopen, undivided_append, hinside, depth_tokensOf hbody]
    simp [CodeLine.undivided, isDivider, ho, hc]

/-- **Whole nests without a colon outside their groups hold no divider.** -/
theorem undivided_tokensOf {limit : Limit} {inOpen : Bool} {ns : List Nest} (h : ∀ n ∈ ns, Whole limit inOpen 0 n)
    (hcolon : ∀ p, Nest.leaf p ∈ ns → p.first.kind ≠ .colon) : undivided 0 (tokensOf ns) = true :=
  undivided_tokensOf_of_each h (fun n hn => (h n hn).undivided 0 (fun _ p hp => hcolon p (hp ▸ hn)))

theorem ne_colon_of_undivided {limit : Limit} {inOpen : Bool} {ns : List Nest} (h : ∀ n ∈ ns, Whole limit inOpen 0 n)
    (hu : undivided 0 (tokensOf ns) = true) : ∀ p, Nest.leaf p ∈ ns → p.first.kind ≠ .colon := by
  intro p hp hc
  obtain ⟨xs, ys, rfl⟩ := List.append_of_mem hp
  have hxs := depth_tokensOf (fun n hn => h n (List.mem_append_left _ hn)) 0
  rw [tokensOf_append, undivided_append, hxs, tokensOf, tokens, Phrase.tokens_eq_cons, List.cons_append,
    CodeLine.undivided] at hu
  simp [isDivider, hc] at hu

end Nest
end BlockBasic
