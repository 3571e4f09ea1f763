import BlockBasic.Proofs.Malformed
/-!
# Patterns — the forms of tokens

A grammar says what the source of a token can be, pattern by pattern, and which token it is then (`Spells`).  What the
lexer reads at a place is of the grammar, or a single stray character (`spelled_lexeme`).  Nothing longer that begins
there is of the grammar (`not_spelt_of_width_lt`), because a text of the grammar, read by itself, is one lexeme
(`Spells.lexeme_eq`), and whatever comes after it the lexeme at its place is no shorter (`Spells.length_le`).
-/
namespace BlockBasic

/-- The patterns of tokens.  The last one is that of a character at which no other begins. -/
inductive Pattern where
  | integer | float | string | word | operator | delimiter | malformed | unterminated | stray
deriving DecidableEq

namespace Lexer

/-! ## The grammar -/

/-- A run of digits and dots that begins with a digit, or with a dot before one. -/
def Numeral : Text → Prop
  | []      => False
  | c :: cs => (c.isDigit = true ∨ c = '.' ∧ cs.head?.any Char.isDigit = true) ∧ ∀ d ∈ c :: cs, isNumeric d = true

namespace Numeral

variable {x : Text}

theorem of_digits (hne : x ≠ []) (h : ∀ c ∈ x, c.isDigit = true) : Numeral x := by
  cases x with
  | nil       => exact hne rfl
  | cons c cs => exact ⟨.inl (h c List.mem_cons_self), fun d hd => by rw [isNumeric, h d hd, Bool.true_or]⟩

theorem ne_nil (h : Numeral x) : x ≠ [] := by
  rintro rfl
  exact h

theorem isNumeric_of_mem (h : Numeral x) : ∀ c ∈ x, isNumeric c = true := by
  cases x with
  | nil       => exact fun c hc => absurd hc List.not_mem_nil
  | cons c cs => exact h.2

end Numeral

/-- **The lexical grammar**: the sources of each pattern, with the kind and the text of the token that they spell. -/
inductive Spells : Pattern → Text → Kind → Text → Prop
  | integer {x : Text} : x ≠ [] → (∀ c ∈ x, c.isDigit = true) → Spells .integer x .integer x
  | float {x : Text} : Numeral x → x.count '.' = 1 → Spells .float x .float x
  | string (content : Text) : Spells .string content.quote .string content
  | word {c : Char} {run mark : Text} : isWordStart c = true → (∀ d ∈ run, isWordChar d = true) → mark.length ≤ 1 →
      (∀ d ∈ mark, isTypeMark d = true) →
      Spells .word (c :: (run ++ mark)) ((Kind.ofSpelling? (c :: (run ++ mark))).getD .name) (c :: (run ++ mark))
  | operator {o : Operator} : o.isWord = false → Spells .operator o.spelling (.ofOperator o) o.spelling
  | delimiter {c : Char} {k : Kind} : c ≠ '"' → Kind.ofDelimiter? c = some k → Spells .delimiter [c] k [c]
  | malformed {x : Text} : Numeral x → 2 ≤ x.count '.' → Spells .malformed x .error x
  | unterminated (content : Text) :
      Spells .unterminated ('"' :: content.doubleQuotes) .error ('"' :: content.doubleQuotes)

def Spelt (x : Text) : Prop := ∃ p k u, Spells p x k u

/-! ## Texts of the grammar before others -/

theorem not_isGap_of {p : Char → Bool} (hspace : p ' ' = false) (htab : p '\t' = false) {c : Char} (hc : p c = true) :
    isGap c = false := by
  refine Bool.eq_false_iff.2 fun hg => ?_
  rw [isGap, Bool.or_eq_true, beq_iff_eq, beq_iff_eq] at hg
  rcases hg with rfl | rfl
  · rw [hspace] at hc
    cases hc
  · rw [htab] at hc
    cases hc

section

variable {c : Char} {cs : Text}

theorem Numeral.lexeme_append (h : Numeral (c :: cs)) (rest : Text) : isGap c = false ∧
    lexeme c (cs ++ rest) = numberLexeme (c :: (cs ++ rest)) ∧
    (c :: (cs ++ rest)).takeWhile isNumeric = c :: cs ++ rest.takeWhile isNumeric := by
  obtain ⟨hbegins, hnumeric⟩ := h
  have hc := hnumeric c List.mem_cons_self
  have hrun : (c :: cs ++ rest).takeWhile isNumeric = c :: cs ++ rest.takeWhile isNumeric :=
    List.takeWhile_append_of_pos hnumeric
  refine ⟨not_isGap_of (by decide) (by decide) hc, lexeme_eq_number ?_ ?_, hrun⟩
  · rintro rfl
    exact absurd hc (by decide)
  · rcases hbegins with hd | ⟨rfl, hd⟩
    · rw [hd]
      rfl
    · cases cs with
      | nil => cases hd
      | cons d ds => exact hd

end

theorem isWordChar_of_start {c : Char} {run : Text} (hc : isWordStart c = true) (hrun : ∀ d ∈ run, isWordChar d = true) :
    ∀ d ∈ c :: run, isWordChar d = true := List.forall_mem_cons.2 ⟨by rw [isWordChar, hc, Bool.true_or], hrun⟩

theorem wordText_append_of_mark {run mark : Text} (hrun : ∀ d ∈ run, isWordChar d = true) (hone : mark.length ≤ 1)
    (hmark : ∀ d ∈ mark, isTypeMark d = true) (rest : Text) : (run ++ mark).length ≤ (wordText (run ++ mark ++ rest)).length ∧
      wordText (run ++ mark) = run ++ mark := by
  rw [List.append_assoc, wordText, wordText, List.takeWhile_append_of_pos hrun, List.dropWhile_append_of_pos hrun,
    List.takeWhile_append_of_pos hrun, List.dropWhile_append_of_pos hrun]
  cases mark with
  | nil       => simp
  | cons m ms =>
    obtain rfl : ms = [] := List.length_eq_zero_iff.1 (Nat.le_zero.1 (Nat.le_of_succ_le_succ hone))
    have hm := hmark m List.mem_cons_self
    have hw := not_isWordChar_of_isTypeMark hm
    simp [hm, hw]

theorem stringBody_doubleQuotes_append (r : Text) : ∀ (t : Text), stringBody (t.doubleQuotes ++ r) =
    (stringBody r).map (fun b => (t ++ b.1, t.doubleQuotes.length + b.2))
  | []     => by simp [Text.doubleQuotes]
  | c :: t => by
    have ih := stringBody_doubleQuotes_append r t
    rw [Text.doubleQuotes]
    split
    · rename_i hc
      rw [List.cons_append, List.cons_append, stringBody, ih, Option.map_map, hc]
      refine congrArg (Option.map · _) (funext fun b => Prod.ext rfl ?_)
      simp only [Function.comp_apply, List.length_cons]
      omega
    · rename_i hc
      rw [List.cons_append, stringBody, ih, Option.map_map]
      · refine congrArg (Option.map · _) (funext fun b => Prod.ext rfl ?_)
        simp only [Function.comp_apply, List.length_cons]
        omega
      · exact fun _ hq _ => hc hq
      · exact hc

theorem eq_doubleQuotes_of_stringBody_eq_none (cs : Text) : stringBody cs = none → ∃ t : Text, cs = t.doubleQuotes := by
  fun_induction stringBody cs with
  | case1            => exact fun _ => ⟨[], rfl⟩
  | case2 cs ih      =>
    intro h
    obtain ⟨t, rfl⟩ := ih (Option.map_eq_none_iff.1 h)
    exact ⟨'"' :: t, rfl⟩
  | case3            =>
    intro h
    cases h
  | case4 c cs _ hc ih =>
    intro h
    obtain ⟨t, rfl⟩ := ih (Option.map_eq_none_iff.1 h)
    exact ⟨c :: t, by rw [Text.doubleQuotes, if_neg hc]⟩

theorem le_width_stringLexeme (t : Text) {r : Text} {n : Nat} (hone : n ≤ 1) (hr : n ≤ r.length) :
    t.doubleQuotes.length + n + 1 ≤ (stringLexeme (t.doubleQuotes ++ r)).width := by
  rw [stringLexeme, stringBody_doubleQuotes_append]
  cases hb : stringBody r with
  | none   =>
    simp only [Option.map_none, Lexeme.plain, List.length_cons, List.length_append]
    omega
  | some b =>
    have hpos : b.2 ≠ 0 := by
      intro hzero
      have := (take_stringBody r hb).1
      rw [hzero, List.take_zero] at this
      simp at this
    simp only [Option.map_some]
    omega

theorem operatorKind?_spelling (o : Operator) : operatorKind? o.spelling = some (.ofOperator o) := by
  rw [operatorKind?, Kind.ofSpelling?_operator]
  cases o <;> rfl

theorem spelling_of_not_isWord : ∀ o ∈ Operator.all, o.isWord = false → o.spelling.length ≤ 2 ∧
    o.spelling.head?.any (fun c => c != '"' && !isGap c && !(c.isDigit || c == '.') && !isWordStart c) = true := by
  decide +kernel

theorem lexeme_operator {o : Operator} (ho : o.isWord = false) {c : Char} {cs : Text} (h : o.spelling = c :: cs) :
    isGap c = false ∧ lexeme c cs = ⟨.ofOperator o, o.spelling, o.spelling.length⟩ ∧
      ∀ rest, o.spelling.length ≤ (lexeme c (cs ++ rest)).width := by
  have hkind := operatorKind?_spelling o
  obtain ⟨htwo, hfirst⟩ := spelling_of_not_isWord o o.mem_all ho
  rw [h] at hkind htwo hfirst ⊢
  simp only [List.head?_cons, Option.any_some, Bool.and_eq_true, Bool.not_eq_true', bne_iff_ne, Bool.or_eq_false_iff]
    at hfirst
  obtain ⟨⟨⟨hq, hg⟩, hd, hdot⟩, hw⟩ := hfirst
  have hsymbol : ∀ us, lexeme c us = symbolLexeme c us :=
    fun us => lexeme_eq_symbol hq (by rw [hd, hdot]; rfl) hw
  match cs with
  | []  =>
    refine ⟨hg, ?_, fun rest => (covers_lexeme c _).pos⟩
    rw [hsymbol, symbolLexeme, markLexeme, hkind]
    rfl
  | [d] =>
    have hpair : ∀ us, lexeme c (d :: us) = ⟨.ofOperator o, [c, d], 2⟩ := by
      intro us
      rw [hsymbol, symbolLexeme, hkind]
      rfl
    exact ⟨hg, hpair [], fun rest => by rw [List.singleton_append, hpair rest]; exact Nat.le_refl 2⟩
  | _ :: _ :: _ => simp at htwo

theorem mem_delimiters {c : Char} {k : Kind} (hq : c ≠ '"') (h : Kind.ofDelimiter? c = some k) : c ∈ delimiters := by
  unfold Kind.ofDelimiter? at h
  split at h <;> first | decide | (exact absurd rfl hq) | cases h

namespace Spells

variable {p : Pattern} {x : Text} {k : Kind} {u : Text}

/-- **A text of the grammar, read by itself, is the token that it spells.** -/
theorem lexeme_eq (h : Spells p x k u) : ∃ c cs, x = c :: cs ∧ isGap c = false ∧ lexeme c cs = ⟨k, u, x.length⟩ := by
  have hnumeral : ∀ {x : Text}, Numeral x → ∃ c cs, x = c :: cs ∧ isGap c = false ∧
      lexeme c cs = ⟨numberKind x, x, x.length⟩ := by
    intro x hx
    cases x with
    | nil       => exact hx.elim
    | cons c cs =>
      obtain ⟨hg, hl, hrun⟩ := hx.lexeme_append []
      rw [List.append_nil] at hl hrun
      rw [List.takeWhile_nil, List.append_nil] at hrun
      exact ⟨c, cs, rfl, hg, by rw [hl, numberLexeme, hrun]; rfl⟩
  cases h with
  | integer hne hd =>
    have hx : Numeral x := .of_digits hne hd
    have hcount : x.count '.' = 0 := List.count_eq_zero.2 fun hm => absurd (hd _ hm) (by decide)
    have := hnumeral hx
    rwa [numberKind, hcount] at this
  | float hx hcount =>
    have := hnumeral hx
    rwa [numberKind, hcount] at this
  | malformed hx hcount =>
    have hkind : numberKind x = .error := by
      unfold numberKind
      split
      · omega
      · omega
      · rfl
    have := hnumeral hx
    rwa [hkind] at this
  | string =>
    refine ⟨'"', _, rfl, rfl, ?_⟩
    rw [lexeme_eq_string rfl, stringLexeme, stringBody_doubleQuotes_append]
    simp [stringBody, Text.quote]
  | unterminated content =>
    have hbody := stringBody_doubleQuotes_append [] content
    rw [List.append_nil] at hbody
    refine ⟨'"', _, rfl, rfl, ?_⟩
    rw [lexeme_eq_string rfl, stringLexeme, hbody]
    rfl
  | @word c run mark hc hrun hone hmark =>
    have hword := (wordText_append_of_mark (isWordChar_of_start hc hrun) hone hmark []).2
    rw [List.cons_append] at hword
    exact ⟨c, run ++ mark, rfl, not_isGap_of (by decide) (by decide) hc,
      by rw [lexeme_eq_word hc, wordLexeme, hword]; rfl⟩
  | @operator o ho =>
    cases hspelling : o.spelling with
    | nil       => cases o <;> cases hspelling
    | cons c cs =>
      obtain ⟨hg, hl, -⟩ := lexeme_operator ho hspelling
      exact ⟨c, cs, rfl, hg, by rw [hl, hspelling]⟩
  | @delimiter c k hq hk =>
    have hc := mem_delimiters hq hk
    exact ⟨c, [], rfl, (delimiter_alone hc).2.2.2.1, by rw [lexeme_delimiter hc, hk]; rfl⟩

/-- **Whatever comes after it**, what is read at the place of a text of the grammar is no shorter. -/
theorem length_le {c : Char} {cs : Text} (h : Spells p (c :: cs) k u) (rest : Text) :
    (c :: cs).length ≤ (lexeme c (cs ++ rest)).width := by
  have hnumeral : Numeral (c :: cs) → (c :: cs).length ≤ (lexeme c (cs ++ rest)).width := by
    intro hx
    obtain ⟨-, hl, hrun⟩ := hx.lexeme_append rest
    rw [hl, numberLexeme, Lexeme.plain, hrun, List.length_append]
    exact Nat.le_add_right _ _
  have hstring : ∀ t r : Text, '"' :: (t.doubleQuotes ++ r) = c :: cs → r.length ≤ 1 →
      (c :: cs).length ≤ (lexeme c (cs ++ rest)).width := by
    intro t r hx hone
    obtain ⟨rfl, rfl⟩ := List.cons.inj hx
    have := le_width_stringLexeme t (r := r ++ rest) hone (by simp)
    rw [lexeme_eq_string rfl, List.append_assoc, List.length_cons, List.length_append]
    exact this
  generalize hx : c :: cs = x at h
  cases h with
  | integer hne hd =>
    subst hx
    exact hnumeral (.of_digits hne hd)
  | float hnum | malformed hnum =>
    subst hx
    exact hnumeral hnum
  | string => exact hx ▸ hstring u ['"'] hx.symm (Nat.le_refl 1)
  | unterminated content => exact hx ▸ hstring content [] (by rw [List.append_nil, hx]) (Nat.zero_le 1)
  | @word c' run mark hc hrun hone hmark =>
    obtain ⟨rfl, rfl⟩ := List.cons.inj hx
    rw [lexeme_eq_word hc]
    exact (wordText_append_of_mark (isWordChar_of_start hc hrun) hone hmark rest).1
  | operator ho => exact (lexeme_operator ho hx.symm).2.2 rest
  | delimiter =>
    obtain ⟨rfl, rfl⟩ := List.cons.inj hx
    exact (covers_lexeme c _).pos

end Spells

/-! ## The longest text of the grammar -/

theorem ne_nil_of_spells {p : Pattern} {x : Text} {k : Kind} {u : Text} (h : Spells p x k u) : x ≠ [] := by
  obtain ⟨c, cs, rfl, -⟩ := h.lexeme_eq
  exact List.cons_ne_nil c cs

theorem not_spelt_of_width_lt {c : Char} {cs zs : Text} (hz : zs <+: cs) (hw : (lexeme c cs).width < (c :: zs).length) :
    ¬ Spelt (c :: zs) := by
  rintro ⟨p, k, u, h⟩
  obtain ⟨rest, rfl⟩ := hz
  exact absurd (h.length_le rest) (Nat.not_le.2 hw)

def Lexeme.Spelled (l : Lexeme) : Prop := ∃ p, Spells p (l.token 0).source l.kind l.text

theorem Lexeme.spelled_plain {p : Pattern} {k : Kind} {x : Text} (hk : k ≠ .string) (h : Spells p x k x) :
    (Lexeme.plain k x).Spelled := ⟨p, by rw [Lexeme.source_token hk]; exact h⟩

theorem spelled_stringLexeme (cs : Text) : (stringLexeme cs).Spelled := by
  unfold stringLexeme
  cases hb : stringBody cs with
  | some b => exact ⟨.string, .string b.1⟩
  | none   =>
    obtain ⟨t, rfl⟩ := eq_doubleQuotes_of_stringBody_eq_none cs hb
    exact Lexeme.spelled_plain (by simp) (.unterminated t)

theorem spells_numeral {x : Text} (h : Numeral x) : ∃ p, Spells p x (numberKind x) x := by
  unfold numberKind
  split
  · rename_i hcount
    refine ⟨.integer, .integer h.ne_nil fun c hc => ?_⟩
    have hnumeric := h.isNumeric_of_mem c hc
    rw [isNumeric, Bool.or_eq_true, beq_iff_eq] at hnumeric
    refine hnumeric.resolve_right ?_
    rintro rfl
    exact List.count_eq_zero.1 hcount hc
  · rename_i hcount
    exact ⟨.float, .float h hcount⟩
  · rename_i hzero hone
    have hzero' : x.count '.' ≠ 0 := hzero
    have hone' : x.count '.' ≠ 1 := hone
    exact ⟨.malformed, .malformed h (by omega)⟩

theorem spelled_numberLexeme {c : Char} {cs : Text} (h : c.isDigit = true ∨ c = '.' ∧ cs.head?.any Char.isDigit = true) :
    (numberLexeme (c :: cs)).Spelled := by
  have hc : isNumeric c = true := by
    rw [isNumeric, Bool.or_eq_true, beq_iff_eq]
    exact h.imp_right And.left
  have hnumeral : Numeral ((c :: cs).takeWhile isNumeric) := by
    rw [List.takeWhile_cons_of_pos hc]
    refine ⟨h.imp_right (And.imp_right fun hd => ?_), List.forall_mem_cons.2 ⟨hc, fun d hd => ?_⟩⟩
    · cases cs with
      | nil       => cases hd
      | cons d ds =>
        have hd' : d.isDigit = true := hd
        rw [List.takeWhile_cons_of_pos (by rw [isNumeric, hd', Bool.true_or])]
        exact hd
    · exact List.all_eq_true.1 List.all_takeWhile d hd
  obtain ⟨p, hp⟩ := spells_numeral hnumeral
  exact Lexeme.spelled_plain (numberKind_ne_string _) hp

theorem spelled_wordLexeme {c : Char} (hc : isWordStart c = true) (cs : Text) : (wordLexeme (c :: cs)).Spelled := by
  have htext : wordText (c :: cs) = c :: (cs.takeWhile isWordChar ++
      (((c :: cs).dropWhile isWordChar).take 1).filter isTypeMark) := by
    rw [wordText, List.takeWhile_cons_of_pos (by rw [isWordChar, hc, Bool.true_or]), List.cons_append]
  have hone := Nat.le_trans (List.length_filter_le isTypeMark (((c :: cs).dropWhile isWordChar).take 1))
    (List.length_take_le 1 _)
  refine Lexeme.spelled_plain (wordLexeme_ne_string (c :: cs)) (p := .word) ?_
  rw [htext]
  exact .word hc (fun d hd => List.all_eq_true.1 List.all_takeWhile d hd) hone (fun d hd => (List.mem_filter.1 hd).2)

theorem operator_of_mem_vocabulary : ∀ p ∈ Kind.vocabulary, p.2.operator?.isSome = true →
    p ∈ Operator.all.map (fun o => (o.spelling, Kind.ofOperator o)) := by decide +kernel

theorem isUpper_spelling : ∀ o ∈ Operator.all, o.spelling.head?.any Char.isUpper = o.isWord ∧
    (o.isWord = false → ∀ c ∈ o.spelling, c.isUpper = false) := by
  have hall : Operator.all.all (fun o => o.spelling.head?.any Char.isUpper == o.isWord &&
      (o.isWord || o.spelling.all (fun c => !c.isUpper))) = true := by decide +kernel
  intro o ho
  have h := List.all_eq_true.1 hall o ho
  rw [Bool.and_eq_true, beq_iff_eq] at h
  refine ⟨h.1, fun hword c hc => ?_⟩
  rw [hword, Bool.false_or] at h
  rw [← Bool.not_eq_true']
  exact List.all_eq_true.1 h.2 c hc

theorem spells_of_operatorKind? {c : Char} {cs : Text} {k : Kind} (hc : isWordStart c = false)
    (h : operatorKind? (c :: cs) = some k) : Spells .operator (c :: cs) k (c :: cs) := by
  obtain ⟨hs, hk⟩ := operatorKind?_eq_some h
  obtain ⟨o, -, ho⟩ := List.mem_map.1 (operator_of_mem_vocabulary _ (Kind.mem_vocabulary hs) hk)
  obtain ⟨hspelling, rfl⟩ := Prod.mk.inj ho
  obtain ⟨hfirst, hrest⟩ := isUpper_spelling o o.mem_all
  have hword : o.isWord = false := by
    rw [← hfirst, hspelling]
    cases hu : c.toUpper.isUpper with
    | false => exact hu
    | true  =>
      rw [isWordStart_of_isUpper_toUpper hu] at hc
      cases hc
  have hsame : Text.upper (c :: cs) = c :: cs := by
    refine (List.map_congr_left fun d hd => ?_).trans (List.map_id _)
    exact (Text.toUpper_eq_self rfl (hrest hword _ (hspelling ▸ List.mem_map_of_mem hd))).symm
  rw [hsame] at hspelling
  rw [← hspelling]
  exact .operator hword

theorem spelled_markLexeme {c : Char} (hq : c ≠ '"') (hw : isWordStart c = false) :
    (markLexeme c).Spelled ∨ markLexeme c = ⟨.error, [c], 1⟩ := by
  unfold markLexeme
  cases ho : operatorKind? [c] with
  | some k =>
    exact .inl (Lexeme.spelled_plain (ne_string_of_ofSpelling? (operatorKind?_eq_some ho).1) (spells_of_operatorKind? hw ho))
  | none   =>
    cases hd : Kind.ofDelimiter? c with
    | none   => exact .inr rfl
    | some k =>
      have hk : k ≠ .string := by
        rintro rfl
        unfold Kind.ofDelimiter? at hd
        split at hd <;> cases hd
      exact .inl (Lexeme.spelled_plain hk (.delimiter hq hd))

theorem spelled_symbolLexeme {c : Char} (hq : c ≠ '"') (hw : isWordStart c = false) (cs : Text) :
    (symbolLexeme c cs).Spelled ∨ symbolLexeme c cs = ⟨.error, [c], 1⟩ := by
  unfold symbolLexeme
  split
  · exact spelled_markLexeme hq hw
  · split
    · rename_i k ho
      exact .inl (Lexeme.spelled_plain (ne_string_of_ofSpelling? (operatorKind?_eq_some ho).1) (spells_of_operatorKind? hw ho))
    · exact spelled_markLexeme hq hw

/-- **What is read at a place is of the grammar**, or else a stray character. -/
theorem spelled_lexeme (c : Char) (cs : Text) : (lexeme c cs).Spelled ∨ c ≠ '"' ∧ lexeme c cs = ⟨.error, [c], 1⟩ := by
  unfold lexeme
  split
  · exact .inl (spelled_stringLexeme cs)
  rename_i hq
  split
  · rename_i hn
    rw [Bool.or_eq_true, Bool.and_eq_true, beq_iff_eq] at hn
    exact .inl (spelled_numberLexeme hn)
  split
  · rename_i hw
    exact .inl (spelled_wordLexeme hw cs)
  · rename_i hw
    exact (spelled_symbolLexeme hq (Bool.eq_false_iff.2 hw) cs).imp_right fun h => ⟨hq, h⟩

/-! ## One pattern for each token -/

end Lexer

def Pattern.ofToken (k : Kind) (x : Text) : Pattern :=
  match k with
  | .integer => .integer
  | .float   => .float
  | .string  => .string
  | .error   => if x.head? = some '"' then .unterminated else .malformed
  | k        => if k.isDelimiter then .delimiter else if x.head?.any Lexer.isWordStart then .word else .operator

theorem Pattern.ofToken_of_entry {k : Kind} (h : k.isKeyword = true ∨ k.operator?.isSome = true) (x : Text) :
    ofToken k x = if x.head?.any Lexer.isWordStart then .word else .operator := by
  cases k <;> first | rfl | (simp [Kind.isKeyword, Kind.operator?] at h)

namespace Lexer

theorem Spells.eq_ofToken {p : Pattern} {x : Text} {k : Kind} {u : Text} (h : Spells p x k u) :
    p = Pattern.ofToken k x := by
  cases h with
  | integer | float | string | unterminated => rfl
  | malformed hx =>
    cases x with
    | nil       => rfl
    | cons c cs =>
      have hq : ¬ (c :: cs).head? = some '"' := by
        rintro hq
        cases hq
        exact absurd (hx.2 _ List.mem_cons_self) (by decide)
      exact (if_neg hq).symm
  | @word c run mark hc =>
    cases hk : Kind.ofSpelling? (c :: (run ++ mark)) with
    | none   => simp [Pattern.ofToken, Kind.isDelimiter, hc]
    | some k =>
      rw [Option.getD_some, Pattern.ofToken_of_entry (Kind.isKeyword_or_operator_of_ofSpelling? hk)]
      simp [hc]
  | @operator o ho =>
    have hfirst := (isUpper_spelling o o.mem_all).1
    have hstart : o.spelling.head?.any isWordStart = false := by
      have := (spelling_of_not_isWord o o.mem_all ho).2
      cases hs : o.spelling with
      | nil       => rfl
      | cons c cs =>
        rw [hs] at this
        simp_all
    rw [Pattern.ofToken_of_entry (.inr (operatorKind?_eq_some (operatorKind?_spelling o)).2), hstart]
    rfl
  | @delimiter c k hq hk =>
    unfold Kind.ofDelimiter? at hk
    split at hk <;> cases hk <;> rfl

/-- A single character that is an error by itself and yet of the grammar is a quote. -/
theorem Spells.eq_quote {p : Pattern} {c : Char} {u : Text} (h : Spells p [c] .error u) : c = '"' := by
  have hp := h.eq_ofToken
  rw [Pattern.ofToken] at hp
  split at hp
  · rename_i hq
    exact Option.some.inj hq
  · subst hp
    cases h with
    | malformed _ hcount =>
      have := List.count_le_length (a := '.') (l := [c])
      rw [List.length_singleton] at this
      omega

end Lexer
end BlockBasic
