import BlockBasic.Proofs.Patterns
import Mathlib.Logic.ExistsUnique
/-!
# Munch — a line is the longest texts of the grammar, one after the other

From left to right a line is taken apart in one way only: gaps are passed over, and at any other place stands the longest
text of the grammar that begins there, or a stray character where none does (`Reads`).  The tokens of a line are what it
is taken apart into (`munched_iff`).
-/
namespace BlockBasic

theorem Text.doubleQuotes_append : ∀ s t : Text, doubleQuotes (s ++ t) = doubleQuotes s ++ doubleQuotes t
  | [], _     => rfl
  | c :: s, t => by
    rw [List.cons_append, doubleQuotes, doubleQuotes, doubleQuotes_append s t]
    split <;> rfl

namespace Lexer

theorem Numeral.append {x : Text} (h : Numeral x) {c : Char} (hc : isNumeric c = true) : Numeral (x ++ [c]) := by
  cases x with
  | nil       => exact h.elim
  | cons d ds =>
    obtain ⟨hbegins, hnumeric⟩ := h
    refine ⟨hbegins.imp_right (And.imp_right fun hd => ?_), fun e he => ?_⟩
    · cases ds with
      | nil => cases hd
      | cons e es => exact hd
    · rcases List.mem_append.1 (show e ∈ (d :: ds) ++ [c] from he) with he | he
      · exact hnumeric e he
      · rw [List.mem_singleton.1 he]
        exact hc

/-! ## One token -/

/-- **What a pattern reads before `rest`**: the longest text of the grammar, or a stray character where there is none. -/
inductive Reads : Pattern → Text → Text → Kind → Text → Prop
  | longest {p : Pattern} {x rest : Text} {k : Kind} {u : Text} : Spells p x k u →
      (∀ y, y ≠ [] → y <+: rest → ¬ Spelt (x ++ y)) → Reads p x rest k u
  | stray {c : Char} {rest : Text} : isGap c = false → (∀ y, y ≠ [] → y <+: c :: rest → ¬ Spelt y) →
      Reads .stray [c] rest .error [c]

/-- **The lexer reads the longest text of the grammar**, or a stray character. -/
theorem reads_lexeme {c : Char} (hc : isGap c = false) (cs : Text) : ∃ p zs rest, cs = zs ++ rest ∧
    (lexeme c cs).width = zs.length + 1 ∧ Reads p (c :: zs) rest (lexeme c cs).kind (lexeme c cs).text := by
  have hcov := covers_lexeme c cs
  rcases spelled_lexeme c cs with ⟨p, hp⟩ | ⟨hq, hl⟩
  · have hwidth : (lexeme c cs).width = (cs.take ((lexeme c cs).width - 1)).length + 1 := by
      have hpos := hcov.pos
      have hle := hcov.le
      rw [List.length_cons] at hle
      rw [List.length_take]
      omega
    rw [← hcov.cons_take] at hp
    refine ⟨p, _, _, (List.take_append_drop ((lexeme c cs).width - 1) cs).symm, hwidth, .longest hp fun y hy hrest => ?_⟩
    have hpre : cs.take ((lexeme c cs).width - 1) ++ y <+: cs := by
      conv => rhs; rw [← List.take_append_drop ((lexeme c cs).width - 1) cs]
      exact (List.prefix_append_right_inj _).2 hrest
    have hlonger : (lexeme c cs).width < (c :: (cs.take ((lexeme c cs).width - 1) ++ y)).length := by
      have hpos := List.length_pos_iff.2 hy
      rw [List.length_cons, List.length_append]
      omega
    exact not_spelt_of_width_lt hpre hlonger
  · have hnone : ∀ y, y ≠ [] → y <+: c :: cs → ¬ Spelt y := by
      intro y hy hpre
      obtain ⟨d, zs, rfl⟩ := List.exists_cons_of_ne_nil hy
      obtain ⟨rfl, hzs⟩ := List.cons_prefix_cons.1 hpre
      cases zs with
      | cons e zs =>
        refine not_spelt_of_width_lt hzs ?_
        rw [hl, List.length_cons, List.length_cons]
        exact Nat.succ_lt_succ (Nat.succ_pos _)
      | nil =>
        -- by itself the character is read as it is in its place, as an error
        rintro ⟨p, k, u, h⟩
        obtain ⟨d', zs, hx, -, hread⟩ := h.lexeme_eq
        cases hx
        have htake := lexeme_take d cs
        rw [hl] at htake
        cases hread.symm.trans htake
        exact hq h.eq_quote
    rw [hl]
    exact ⟨.stray, [], cs, rfl, rfl, .stray hc hnone⟩

namespace Reads

variable {p q : Pattern} {x rest : Text} {k l : Kind} {u v : Text}

theorem lexeme_eq (h : Reads p x rest k u) : ∃ c cs, x = c :: cs ∧ isGap c = false ∧
    lexeme c (cs ++ rest) = ⟨k, u, cs.length + 1⟩ := by
  cases h with
  | longest hs hlong =>
    obtain ⟨c, cs, rfl, hc, hl⟩ := hs.lexeme_eq
    have hle := hs.length_le rest
    have htake := lexeme_take c (cs ++ rest)
    have hw : (lexeme c (cs ++ rest)).width - 1 = cs.length := by
      refine Nat.le_antisymm (Nat.le_of_not_lt fun hlt => ?_) (Nat.le_sub_of_add_le hle)
      have hcov := covers_lexeme c (cs ++ rest)
      rcases spelled_lexeme c (cs ++ rest) with ⟨r, hr⟩ | ⟨-, hstray⟩
      · rw [← hcov.cons_take, List.take_append, List.take_of_length_le (Nat.le_of_lt hlt)] at hr
        refine hlong _ (List.ne_nil_of_length_pos ?_) (List.take_prefix _ _) ⟨r, _, _, hr⟩
        have hroom := hcov.le
        rw [List.length_cons, List.length_append] at hroom
        rw [List.length_take]
        omega
      · rw [hstray] at hlt
        exact Nat.not_lt_zero _ hlt
    rw [hw, List.take_left] at htake
    exact ⟨c, cs, rfl, hc, by rw [← htake, hl]; rfl⟩
  | @stray c _ hc hnone =>
    refine ⟨c, [], rfl, hc, ?_⟩
    rw [List.nil_append]
    rcases spelled_lexeme c rest with ⟨r, hr⟩ | ⟨-, hstray⟩
    · have hcov := covers_lexeme c rest
      refine absurd ⟨r, _, _, hr⟩ (hnone _ (ne_nil_of_spells hr) ?_)
      rw [hcov.source]
      exact List.take_prefix _ _
    · exact hstray

theorem kind_eq (h : Reads p x rest k u) (hs : Spells q x l v) : k = l := by
  cases h with
  | longest hp =>
    obtain ⟨c, cs, rfl, -, hread⟩ := hp.lexeme_eq
    obtain ⟨d, ds, hx, -, hread'⟩ := hs.lexeme_eq
    cases hx
    exact congrArg Lexeme.kind (hread.symm.trans hread')
  | stray _ hnone => exact absurd ⟨q, _, v, hs⟩ (hnone _ (List.cons_ne_nil _ _) ⟨rest, rfl⟩)

theorem pattern_eq (h : Reads p x rest k u) (h' : Reads q x rest k v) : p = q := by
  cases h with
  | longest hp =>
    cases h' with
    | longest hq        => exact hp.eq_ofToken.trans hq.eq_ofToken.symm
    | stray _ hnone     => exact absurd ⟨p, _, u, hp⟩ (hnone _ (List.cons_ne_nil _ _) ⟨rest, rfl⟩)
  | stray _ hnone =>
    cases h' with
    | longest hq => exact absurd ⟨q, _, v, hq⟩ (hnone _ (List.cons_ne_nil _ _) ⟨rest, rfl⟩)
    | stray      => rfl

/-- **What is read cannot be extended** by the next character. -/
theorem not_spelt_append (h : Reads p x rest k u) {c : Char} (hc : rest.head? = some c) : ¬ Spelt (x ++ [c]) := by
  have hnext : [c] <+: rest := by
    cases rest with
    | nil       => cases hc
    | cons d ds =>
      cases hc
      exact ⟨ds, rfl⟩
  cases h with
  | longest _ hlong => exact hlong [c] (List.cons_ne_nil c []) hnext
  | stray _ hnone   => exact hnone _ (List.cons_ne_nil _ _) (List.cons_prefix_cons.2 ⟨rfl, hnext⟩)

/-- **The errors**: longest runs of digits and dots with two dots or more that begin as a number does, strings that are
open at the end of the line, and stray characters. -/
theorem kind_eq_error_iff (h : Reads p x rest k u) : k = .error ↔
    (Numeral x ∧ 2 ≤ x.count '.' ∧ rest.head?.all (fun c => !isNumeric c) = true) ∨
    (rest = [] ∧ ∃ content : Text, x = '"' :: content.doubleQuotes) ∨
    ∃ c, x = [c] ∧ ∀ y, y ≠ [] → y <+: c :: rest → ¬ Spelt y := by
  constructor
  · rintro rfl
    cases id h with
    | @stray c _ hc hnone => exact .inr (.inr ⟨c, rfl, hnone⟩)
    | longest hp =>
      have hpattern := hp.eq_ofToken
      rw [Pattern.ofToken] at hpattern
      split at hpattern
      · subst hpattern
        cases hp with
        | unterminated content =>
          refine .inr (.inl ⟨?_, content, rfl⟩)
          cases hrest : rest.head? with
          | none   => exact List.head?_eq_none_iff.1 hrest
          | some c =>
            refine absurd ?_ (h.not_spelt_append hrest)
            by_cases hc : c = '"'
            · exact ⟨.string, .string, content, by rw [hc]; exact .string content⟩
            · have hmore := Spells.unterminated (content ++ [c])
              rw [Text.doubleQuotes_append, Text.doubleQuotes, if_neg hc] at hmore
              exact ⟨_, _, _, hmore⟩
      · subst hpattern
        cases hp with
        | malformed hx hcount =>
          refine .inl ⟨hx, hcount, ?_⟩
          cases hrest : rest.head? with
          | none   => rfl
          | some c =>
            rw [Option.all_some, Bool.not_eq_true', ← Bool.not_eq_true]
            intro hc
            refine h.not_spelt_append hrest ⟨_, _, _, .malformed (hx.append hc) ?_⟩
            rw [List.count_append]
            omega
  · rintro (⟨hx, hcount, -⟩ | ⟨-, content, rfl⟩ | ⟨c, rfl, hnone⟩)
    · exact h.kind_eq (.malformed hx hcount)
    · exact h.kind_eq (.unterminated content)
    · cases h with
      | longest hp => exact absurd ⟨p, k, u, hp⟩ (hnone _ (List.cons_ne_nil _ _) ⟨rest, rfl⟩)
      | stray      => rfl

end Reads

/-! ## All tokens of a line -/

/-- **A text taken apart by the grammar**, from position `i` on. -/
inductive Munched : Nat → Text → List Token → Prop
  | nil (i : Nat) : Munched i [] []
  | gap {i : Nat} {c : Char} {cs : Text} {ts : List Token} : isGap c = true → Munched (i + 1) cs ts → Munched i (c :: cs) ts
  | token {i : Nat} {p : Pattern} {x rest : Text} {k : Kind} {u : Text} {ts : List Token} : Reads p x rest k u →
      Munched (i + x.length) rest ts → Munched i (x ++ rest) (⟨k, u, ⟨i, i + x.length⟩⟩ :: ts)

theorem munched_scan : ∀ (text : Text) (i : Nat), Munched i text (scan i 0 text)
  | [], i      => by
    rw [scan]
    exact .nil i
  | c :: cs, i => by
    cases hc : isGap c with
    | true  =>
      rw [scan_gap hc]
      exact .gap hc (munched_scan cs (i + 1))
    | false =>
      obtain ⟨p, zs, rest, hsplit, hwidth, hp⟩ := reads_lexeme hc cs
      have hrest := munched_scan rest (i + (zs.length + 1))
      rw [scan_cons hc, Lexeme.token, hwidth, Nat.add_sub_cancel]
      rw [hsplit] at hp ⊢
      rw [List.drop_left]
      exact .token hp hrest
termination_by text => text.length
decreasing_by
  · rw [hsplit, List.length_cons, List.length_append]
    omega
  · simp

theorem Munched.scan_eq {i : Nat} {text : Text} {ts : List Token} (h : Munched i text ts) : scan i 0 text = ts := by
  induction h with
  | nil              => rw [scan]
  | gap hc _ ih      => rw [scan_gap hc, ih]
  | token hp _ ih =>
    obtain ⟨c, cs, rfl, hc, hl⟩ := hp.lexeme_eq
    rw [List.cons_append, scan_cons hc, hl]
    simp only [Nat.add_sub_cancel, List.drop_left]
    exact congrArg _ ih

/-- **The walk takes a text apart by the grammar**, and there is no other way to. -/
theorem munched_iff {i : Nat} {text : Text} {ts : List Token} : scan i 0 text = ts ↔ Munched i text ts :=
  ⟨fun h => h ▸ munched_scan text i, Munched.scan_eq⟩

theorem Munched.reads {i : Nat} {text : Text} {ts : List Token} (h : Munched i text ts) : ∀ t ∈ ts,
    ∃ before x rest, text = before ++ (x ++ rest) ∧
      t.column = ⟨i + before.length, i + before.length + x.length⟩ ∧ ∃ p, Reads p x rest t.kind t.text := by
  induction h with
  | nil => exact fun t ht => absurd ht List.not_mem_nil
  | @gap i c cs ts _ _ ih =>
    intro t ht
    obtain ⟨before, x, rest, rfl, hcol, hp⟩ := ih t ht
    refine ⟨c :: before, x, rest, rfl, ?_, hp⟩
    rw [hcol, List.length_cons, Nat.add_assoc i 1, Nat.add_comm 1]
  | @token i p x rest k u ts hp _ ih =>
    intro t ht
    rcases List.mem_cons.1 ht with rfl | ht
    · exact ⟨[], x, rest, rfl, rfl, p, hp⟩
    · obtain ⟨before, y, rest', rfl, hcol, hq⟩ := ih t ht
      refine ⟨x ++ before, y, rest', (List.append_assoc _ _ _).symm, ?_, hq⟩
      rw [hcol, List.length_append, Nat.add_assoc i x.length]

end Lexer

/-- **The lexical grammar of a line.**  The tokens of a line are what it is taken apart into, in the only way there is.
Each of them is read by exactly one pattern: an integer, a number with one dot, a string, a word with at most one type
mark, an operator, a delimiter, or one of the three that make errors.  Its source is the longest text of the grammar in
its place, so that the next character cannot be added to it.  The errors are exactly the longest runs of digits and dots
that begin as a number does and have two dots or more, the strings that are open at the end of the line, and the
characters at which nothing of the grammar begins. -/
theorem tokenize_by_grammar (s : Text) :
    (∀ ts, tokenize s = ts ↔ Lexer.Munched 0 s.chomp ts) ∧
    ∀ t ∈ tokenize s, t.kind ≠ .unknown ∧ t.kind ≠ .quotation ∧
      ∃ before x rest, s.chomp = before ++ (x ++ rest) ∧ t.column = ⟨before.length, before.length + x.length⟩ ∧
        (∃! p, Lexer.Reads p x rest t.kind t.text) ∧
        (∀ c, rest.head? = some c → ¬ Lexer.Spelt (x ++ [c])) ∧
        (t.kind = .error ↔
          (Lexer.Numeral x ∧ 2 ≤ x.count '.' ∧ rest.head?.all (fun c => !Lexer.isNumeric c) = true) ∨
          (rest = [] ∧ ∃ content : Text, x = '"' :: content.doubleQuotes) ∨
          ∃ c, x = [c] ∧ ∀ y, y ≠ [] → y <+: c :: rest → ¬ Lexer.Spelt y) := by
  refine ⟨fun ts => Lexer.munched_iff, fun t ht => ?_⟩
  have hlexed := Lexer.lexed_of_mem_tokenize t ht
  obtain ⟨before, x, rest, hs, hcol, p, hp⟩ := (Lexer.munched_scan s.chomp 0).reads t ht
  rw [Nat.zero_add] at hcol
  exact ⟨hlexed.kind_ne_unknown, hlexed.kind_ne_quotation, before, x, rest, hs, hcol,
    ⟨p, hp, fun q hq => hq.pattern_eq hp⟩, fun c hc => hp.not_spelt_append hc, hp.kind_eq_error_iff⟩

end BlockBasic
