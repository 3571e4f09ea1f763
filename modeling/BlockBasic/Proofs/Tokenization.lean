import BlockBasic.Proofs.Lexeme
/-!
# Tokenization — a line is its tokens and the gaps between them

Nothing of a line is lost: from left to right it is the tokens' sources, each at the token's column, and spaces and tabs
between them (`Spelled`).  What the columns are, what they leave over and what they hold all follow from that one
reading (`tokenize_lossless`).
-/
namespace BlockBasic
namespace Lexer

theorem scan_taken : ∀ (k i : Nat) (cs : Text), scan i k cs = scan (i + k) 0 (cs.drop k)
  | 0, _, _ => rfl
  | k + 1, i, [] => by rw [List.drop_nil, scan, scan]
  | k + 1, i, c :: cs => by
    rw [scan, scan_taken k, List.drop_succ_cons, Nat.add_assoc, Nat.add_comm 1 k]

theorem scan_cons {c : Char} (hc : isGap c = false) (i : Nat) (cs : Text) :
    scan i 0 (c :: cs) = (lexeme c cs).token i ::
      scan (i + (lexeme c cs).width) 0 (cs.drop ((lexeme c cs).width - 1)) := by
  have hp := (covers_lexeme c cs).pos
  rw [scan, hc, if_neg (by simp), scan_taken, show i + 1 + ((lexeme c cs).width - 1) = i + (lexeme c cs).width by omega]
  rfl

theorem scan_gap {c : Char} (hc : isGap c = true) (i : Nat) (cs : Text) : scan i 0 (c :: cs) = scan (i + 1) 0 cs := by
  rw [scan, if_pos hc]

theorem scan_step {c : Char} (hc : isGap c = false) (i : Nat) (cs : Text) :
    ((lexeme c cs).token i).source ≠ [] ∧
    ((lexeme c cs).token i).column = ⟨i, i + ((lexeme c cs).token i).source.length⟩ ∧
    ∃ rest, rest.length ≤ cs.length ∧ c :: cs = ((lexeme c cs).token i).source ++ rest ∧
      scan i 0 (c :: cs) = (lexeme c cs).token i :: scan (i + ((lexeme c cs).token i).source.length) 0 rest := by
  have hcov := covers_lexeme c cs
  have hlen : ((lexeme c cs).token i).source.length = (lexeme c cs).width := by
    rw [show ((lexeme c cs).token i).source = _ from hcov.source, List.length_take, Nat.min_eq_left hcov.le]
  refine ⟨List.ne_nil_of_length_pos (by rw [hlen]; exact hcov.pos), by rw [hlen]; rfl,
    cs.drop ((lexeme c cs).width - 1), by simp, ?_, by rw [scan_cons hc, hlen]⟩
  rw [show ((lexeme c cs).token i).source = _ from hcov.cons_take.symm, List.cons_append, List.take_append_drop]

/-- **A text spelled out as tokens**: from position `i` on it is the source of each token at the token's column, with
spaces and tabs between. -/
inductive Spelled : Nat → Text → List Token → Prop
  | nil (i : Nat) : Spelled i [] []
  | gap {i : Nat} {c : Char} {cs : Text} {ts : List Token} :
      isGap c = true → Spelled (i + 1) cs ts → Spelled i (c :: cs) ts
  | token {i : Nat} {t : Token} {rest : Text} {ts : List Token} :
      t.source ≠ [] → t.column = ⟨i, i + t.source.length⟩ → Spelled (i + t.source.length) rest ts →
        Spelled i (t.source ++ rest) (t :: ts)

/-- **The walk spells out the text.** -/
theorem spelled_scan : ∀ (t : Text) (i : Nat), Spelled i t (scan i 0 t)
  | [], i => by
    rw [scan]
    exact .nil i
  | c :: cs, i => by
    cases hc : isGap c with
    | true =>
      rw [scan_gap hc]
      exact .gap hc (spelled_scan cs (i + 1))
    | false =>
      obtain ⟨hne, hcol, rest, hrest, hsplit, hscan⟩ := scan_step hc i cs
      rw [hscan, hsplit]
      exact .token hne hcol (spelled_scan rest _)
termination_by t => t.length
decreasing_by
  · simp only [List.length_cons]
    omega
  · simp

/-! ## What the columns are -/

theorem Spelled.bounds {i : Nat} {text : Text} {ts : List Token} (h : Spelled i text ts) :
    ∀ t ∈ ts, i ≤ t.column.start ∧ t.column.start < t.column.stop ∧ t.column.stop ≤ i + text.length := by
  induction h with
  | nil => intro t ht; cases ht
  | gap _ _ ih =>
    intro t ht
    have := ih t ht
    simp only [List.length_cons]
    omega
  | @token i u rest ts hne hcol _ ih =>
    have hpos := List.length_pos_iff.2 hne
    intro t ht
    rw [List.length_append]
    rcases List.mem_cons.1 ht with rfl | ht
    · rw [hcol]
      exact ⟨Nat.le_refl i, by simp only; omega, by simp only; omega⟩
    · have := ih t ht
      omega

theorem Spelled.ordered {i : Nat} {text : Text} {ts : List Token} (h : Spelled i text ts) :
    ts.Pairwise (fun t u => t.column.start < u.column.start ∧ t.column.stop ≤ u.column.start) := by
  induction h with
  | nil => exact .nil
  | gap _ _ ih => exact ih
  | @token i t rest ts hne hcol hrest ih =>
    have hpos := List.length_pos_iff.2 hne
    refine .cons (fun u hu => ?_) ih
    have := (hrest.bounds u hu).1
    rw [hcol]
    exact ⟨by simp only; omega, this⟩

theorem Spelled.gaps {i : Nat} {text : Text} {ts : List Token} (h : Spelled i text ts) :
    ∀ (j : Nat) (x : Char), text[j]? = some x →
      (∀ t ∈ ts, ¬ (t.column.start ≤ i + j ∧ i + j < t.column.stop)) → isGap x = true := by
  induction h with
  | nil => intro j x hx; simp at hx
  | @gap i c cs ts hc _ ih =>
    intro j x hx hout
    cases j with
    | zero =>
      obtain rfl : c = x := by simpa using hx
      exact hc
    | succ j =>
      refine ih j x (by simpa using hx) (fun t ht hin => hout t ht ?_)
      rwa [show i + (j + 1) = i + 1 + j by omega]
  | @token i t rest ts _ hcol _ ih =>
    intro j x hx hout
    have hj : t.source.length ≤ j := by
      have := hout t List.mem_cons_self
      rw [hcol] at this
      simp only at this
      omega
    rw [List.getElem?_append_right hj] at hx
    refine ih (j - t.source.length) x hx (fun u hu hin => hout u (List.mem_cons_of_mem t hu) ?_)
    rwa [show i + t.source.length + (j - t.source.length) = i + j by omega] at hin

theorem Spelled.slices {i : Nat} {text : Text} {ts : List Token} (h : Spelled i text ts) :
    ∀ t ∈ ts, t.source = (text.drop (t.column.start - i)).take (t.column.stop - t.column.start) := by
  induction h with
  | nil => intro t ht; cases ht
  | @gap i c cs ts _ hrest ih =>
    intro t ht
    have := (hrest.bounds t ht).1
    rw [show t.column.start - i = t.column.start - (i + 1) + 1 by omega, List.drop_succ_cons]
    exact ih t ht
  | @token i u rest ts _ hcol hrest ih =>
    intro t ht
    rcases List.mem_cons.1 ht with rfl | ht
    · rw [hcol]
      simp
    · have := (hrest.bounds t ht).1
      have hu : u.source.length ≤ t.column.start - i := by omega
      rw [List.drop_append, List.drop_eq_nil_of_le hu, List.nil_append, Nat.sub_sub]
      exact ih t ht

theorem Spelled.mem_source {i : Nat} {text : Text} {ts : List Token} (h : Spelled i text ts) {t : Token} (ht : t ∈ ts)
    {c : Char} (hc : c ∈ t.source) : c ∈ text := by
  rw [h.slices t ht] at hc
  exact List.mem_of_mem_drop (List.mem_of_mem_take hc)

end Lexer

/-- **Nothing of a line is lost or made up in its tokens.**  Their columns are not empty, follow each other without
overlap and stay inside the line less the breaks at its end; what lies outside them is spaces and tabs; and each token,
written as source, is what the line holds at its column. -/
theorem tokenize_lossless (s : Text) :
    (∀ t ∈ tokenize s, t.column.start < t.column.stop ∧ t.column.stop ≤ s.chomp.length) ∧
    (tokenize s).Pairwise (fun t u => t.column.start < u.column.start ∧ t.column.stop ≤ u.column.start) ∧
    (∀ (j : Nat) (x : Char), s.chomp[j]? = some x →
      (∀ t ∈ tokenize s, ¬ (t.column.start ≤ j ∧ j < t.column.stop)) → x = ' ' ∨ x = '\t') ∧
    (∀ t ∈ tokenize s, t.source = (s.chomp.drop t.column.start).take (t.column.stop - t.column.start)) := by
  have h := Lexer.spelled_scan s.chomp 0
  refine ⟨fun t ht => ?_, h.ordered, fun j x hx hout => ?_, fun t ht => ?_⟩
  · have := h.bounds t ht
    omega
  · have hg := h.gaps j x hx (fun t ht => by rw [Nat.zero_add]; exact hout t ht)
    simpa [Lexer.isGap] using hg
  · simpa using h.slices t ht

end BlockBasic
