import BlockBasic.Proofs.Tokenization
/-!
# Quotes — where a string is open, by the quotes alone and by the tokens

Whether a string is open at some place of a line can be told by the quotes before it: each opens one or closes one
(`openAfter`).  The lexer does not count quotes, it pairs doubled ones inside a string and begins anew after every other
token; but all quotes of a line stand in its strings, and a string that is closed has an even number of them.  So the two
agree: a place before which a string is open lies in the column of a string token (`Strung.mem_string`), and a line
leaves a string open exactly if its last token is an unterminated string (`Strung.getLast?_isUnterminated`).
-/
namespace BlockBasic

/-! ## By the quotes alone -/

namespace Text

/-- **Whether a string is open behind a text**, if `inString` says whether one is open before it. -/
def openAfter (inString : Bool) (t : Text) : Bool := t.foldl (fun b c => if c = '"' then !b else b) inString

@[simp] theorem openAfter_nil (b : Bool) : openAfter b [] = b := rfl

theorem openAfter_quote_cons (b : Bool) (t : Text) : openAfter b ('"' :: t) = openAfter (!b) t := rfl

theorem openAfter_cons_of_ne {c : Char} (hc : c ≠ '"') (b : Bool) (t : Text) : openAfter b (c :: t) = openAfter b t := by
  rw [openAfter, List.foldl_cons, if_neg hc, openAfter]

theorem openAfter_append (b : Bool) (s t : Text) : openAfter b (s ++ t) = openAfter (openAfter b s) t := by
  rw [openAfter, List.foldl_append]
  rfl

theorem openAfter_of_not_mem : ∀ {t : Text}, '"' ∉ t → ∀ b, openAfter b t = b
  | [], _, _ => rfl
  | c :: t, h, b => by
    rw [List.mem_cons, not_or] at h
    rw [openAfter_cons_of_ne (Ne.symm h.1), openAfter_of_not_mem h.2]

theorem openAfter_doubleQuotes : ∀ (t : Text) (b : Bool), openAfter b t.doubleQuotes = b
  | [], _ => rfl
  | c :: t, b => by
    rw [doubleQuotes]
    split
    · rw [openAfter_quote_cons, openAfter_quote_cons, Bool.not_not, openAfter_doubleQuotes t]
    · rename_i hc
      rw [openAfter_cons_of_ne hc, openAfter_doubleQuotes t]

theorem openAfter_quote (t : Text) (b : Bool) : openAfter b t.quote = b := by
  rw [quote, openAfter_quote_cons, openAfter_append, openAfter_doubleQuotes, openAfter_quote_cons, Bool.not_not]
  rfl

end Text

def Token.isUnterminated (t : Token) : Bool := t.kind == .error && t.text.head? == some '"'

namespace Lexer

open Text (openAfter openAfter_append openAfter_of_not_mem)

/-! ## In one lexeme -/

theorem openAfter_of_stringBody_eq_none (cs : Text) : stringBody cs = none → openAfter true cs = true := by
  fun_induction stringBody cs with
  | case1 => exact fun _ => rfl
  | case2 cs ih =>
    intro h
    rw [Text.openAfter_quote_cons, Text.openAfter_quote_cons]
    exact ih (Option.map_eq_none_iff.1 h)
  | case3 =>
    intro h
    cases h
  | case4 c cs _ hc ih =>
    intro h
    rw [Text.openAfter_cons_of_ne hc]
    exact ih (Option.map_eq_none_iff.1 h)

theorem not_mem_markLexeme {c : Char} (hq : c ≠ '"') : '"' ∉ (markLexeme c).text := by
  rw [markLexeme, Lexeme.plain, List.mem_singleton]
  exact hq.symm

/-- **A lexeme that does not begin with a quote holds none.** -/
theorem not_mem_lexeme {c : Char} (hq : c ≠ '"') (cs : Text) : '"' ∉ (lexeme c cs).text := by
  rw [lexeme, if_neg hq]
  split
  · intro h
    exact absurd (List.all_eq_true.1 List.all_takeWhile _ h) (by decide)
  split
  · intro h
    rcases List.mem_append.1 h with h | h
    · exact absurd (List.all_eq_true.1 List.all_takeWhile _ h) (by decide)
    · exact absurd (List.mem_filter.1 h).2 (by decide)
  · cases cs with
    | nil => exact not_mem_markLexeme hq
    | cons d ds =>
      rw [symbolLexeme]
      split
      · rename_i k hk
        have hd : d ≠ '"' := by
          rintro rfl
          exact absurd (operatorKind?_pair hk).2 (by decide)
        simp [Lexeme.plain, hq.symm, hd.symm]
      · exact not_mem_markLexeme hq

theorem not_mem_source_lexeme {c : Char} (hq : c ≠ '"') (cs : Text) (i : Nat) :
    '"' ∉ ((lexeme c cs).token i).source ∧ ((lexeme c cs).token i).isUnterminated = false := by
  have hstart : c :: cs.take ((lexeme c cs).width - 1) = ((lexeme c cs).token i).source := (covers_lexeme c cs).cons_take
  have htext := not_mem_lexeme hq cs
  have hsource : ((lexeme c cs).token i).source = (lexeme c cs).text := by
    refine Lexeme.source_token (fun hk => ?_) i
    rw [Token.source, show ((lexeme c cs).token i).kind = .string from hk, Text.quote] at hstart
    exact hq (List.cons.inj hstart).1
  refine ⟨by rwa [hsource], ?_⟩
  rw [Token.isUnterminated, Bool.and_eq_false_iff]
  refine .inr (beq_eq_false_iff_ne.2 (fun h => htext (List.mem_of_head? h)))

/-! ## In a line -/

/-- **A text read as strings, other tokens and gaps**, from position `i` on.  Quotes stand in strings only, and a string
that is not closed takes all the rest. -/
inductive Strung : Nat → Text → List Token → Prop
  | nil (i : Nat) : Strung i [] []
  | gap {i : Nat} {c : Char} {cs : Text} {ts : List Token} :
      isGap c = true → Strung (i + 1) cs ts → Strung i (c :: cs) ts
  | plain {i : Nat} {t : Token} {rest : Text} {ts : List Token} :
      '"' ∉ t.source → t.isUnterminated = false → t.column = ⟨i, i + t.source.length⟩ →
        Strung (i + t.source.length) rest ts → Strung i (t.source ++ rest) (t :: ts)
  | string {i : Nat} {t : Token} {rest : Text} {ts : List Token} :
      t.kind = .string → t.column = ⟨i, i + t.source.length⟩ →
        Strung (i + t.source.length) rest ts → Strung i (t.source ++ rest) (t :: ts)
  | unterminated {i : Nat} {t : Token} {rest : Text} :
      t.isUnterminated = true → t.column = ⟨i, i + rest.length⟩ → openAfter false rest = true → Strung i rest [t]

theorem strung_scan : ∀ (t : Text) (i : Nat), Strung i t (scan i 0 t)
  | [], i => by
    rw [scan]
    exact .nil i
  | c :: cs, i => by
    by_cases hc : isGap c = true
    · rw [scan_gap hc]
      exact .gap hc (strung_scan cs (i + 1))
    · have hc : isGap c = false := by simpa using hc
      obtain ⟨-, hcol, rest, hlen, hsplit, hscan⟩ := scan_step hc i cs
      have hrest := strung_scan rest (i + ((lexeme c cs).token i).source.length)
      rw [hscan]
      by_cases hq : c = '"'
      · cases hb : stringBody cs with
        | some b =>
          have hk : ((lexeme c cs).token i).kind = .string := by
            simp only [Lexeme.token, lexeme_eq_string hq, stringLexeme, hb]
          rw [hsplit]
          exact .string hk hcol hrest
        | none =>
          -- the string is never closed, so it takes the rest of the line
          have hl : lexeme c cs = .plain .error (c :: cs) := by
            rw [lexeme_eq_string hq, stringLexeme, hb, hq]
          have hsource : ((lexeme c cs).token i).source = c :: cs := by
            rw [hl]
            rfl
          obtain rfl : rest = [] := by simpa [hsource] using hsplit
          rw [scan]
          refine .unterminated ?_ (by rw [hcol, hsource]) ?_
          · rw [hl, hq]
            rfl
          · rw [hq, Text.openAfter_quote_cons]
            exact openAfter_of_stringBody_eq_none cs hb
      · obtain ⟨hnone, hclosed⟩ := not_mem_source_lexeme hq cs i
        rw [hsplit]
        exact .plain hnone hclosed hcol hrest
termination_by t => t.length
decreasing_by
  · simp
  · simp only [List.length_cons]
    omega

theorem openAfter_source {t : Token} (hk : t.kind = .string) (b : Bool) : openAfter b t.source = b := by
  rw [Token.source, hk]
  exact Text.openAfter_quote t.text b

/-- **A place before which a string is open lies in a string token.** -/
theorem Strung.mem_string {i : Nat} {text : Text} {ts : List Token} (h : Strung i text ts) :
    ∀ j < text.length, openAfter false (text.take j) = true →
      ∃ t ∈ ts, (t.kind = .string ∨ t.isUnterminated = true) ∧ t.column.start ≤ i + j ∧ i + j < t.column.stop := by
  induction h with
  | nil => exact fun j hj => absurd hj (Nat.not_lt_zero j)
  | @gap i c cs ts hc _ ih =>
    intro j hj hopen
    cases j with
    | zero => cases hopen
    | succ j =>
      have hne : c ≠ '"' := by
        rintro rfl
        exact absurd hc (by decide)
      rw [List.take_succ_cons, Text.openAfter_cons_of_ne hne] at hopen
      have := ih j (by simpa using hj) hopen
      rwa [show i + 1 + j = i + (j + 1) by omega] at this
  | @plain i t rest ts hnone _ _ _ ih =>
    intro j hj hopen
    by_cases hin : j ≤ t.source.length
    · -- no string is open inside a token that has no quote in it
      rw [List.take_append_of_le_length hin,
        openAfter_of_not_mem (fun h => hnone (List.mem_of_mem_take h))] at hopen
      cases hopen
    · rw [List.length_append] at hj
      rw [List.take_append, List.take_of_length_le (by omega), openAfter_append, openAfter_of_not_mem hnone] at hopen
      obtain ⟨u, hu, hk, hstart, hstop⟩ := ih (j - t.source.length) (by omega) hopen
      exact ⟨u, List.mem_cons_of_mem t hu, hk, by omega, by omega⟩
  | @string i t rest ts hk hcol _ ih =>
    intro j hj hopen
    by_cases hin : j < t.source.length
    · refine ⟨t, List.mem_cons_self, .inl hk, ?_⟩
      rw [hcol]
      simp only
      omega
    · rw [List.length_append] at hj
      rw [List.take_append, List.take_of_length_le (by omega), openAfter_append, openAfter_source hk] at hopen
      obtain ⟨u, hu, hk, hstart, hstop⟩ := ih (j - t.source.length) (by omega) hopen
      exact ⟨u, List.mem_cons_of_mem t hu, hk, by omega, by omega⟩
  | @unterminated i t rest hu hcol _ =>
    intro j hj _
    refine ⟨t, List.mem_cons_self, .inr hu, ?_⟩
    rw [hcol]
    simp only
    omega

/-- **A text leaves a string open exactly if its last token is an unterminated string.** -/
theorem Strung.getLast?_isUnterminated {i : Nat} {text : Text} {ts : List Token} (h : Strung i text ts) :
    ts.getLast?.any Token.isUnterminated = openAfter false text := by
  have hcons : ∀ {t : Token} (us : List Token), t.isUnterminated = false →
      (t :: us).getLast?.any Token.isUnterminated = us.getLast?.any Token.isUnterminated := by
    intro t us ht
    cases us with
    | nil => simpa using ht
    | cons u us => rw [List.getLast?_cons_cons]
  induction h with
  | nil => rfl
  | @gap i c cs ts hc _ ih =>
    have hne : c ≠ '"' := by
      rintro rfl
      exact absurd hc (by decide)
    rw [Text.openAfter_cons_of_ne hne, ih]
  | plain hnone hclosed _ _ ih => rw [hcons _ hclosed, ih, openAfter_append, openAfter_of_not_mem hnone]
  | @string i t rest ts hk _ _ ih =>
    have hclosed : t.isUnterminated = false := by rw [Token.isUnterminated, hk]; rfl
    rw [hcons _ hclosed, ih, openAfter_append, openAfter_source hk]
  | unterminated hu _ hopen => rw [hopen]; exact hu

end Lexer
end BlockBasic
