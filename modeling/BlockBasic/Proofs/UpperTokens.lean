import BlockBasic.Proofs.Recast
/-!
# UpperTokens — the tokens of a line in upper case

The lexer looks at classes of characters and at the vocabulary, and neither tells a letter from the same in upper case.
So the tokens of a line in upper case are its tokens in upper case (`tokenize_upper`): they have the same kinds and the
same columns.  With the tokens go the statements of a line and the reports on it.
-/
namespace BlockBasic

open Text (upper)

/-! ## Lexemes -/

theorem Kind.ofSpelling?_upper (t : Text) : ofSpelling? t.upper = ofSpelling? t := by
  rw [ofSpelling?, ofSpelling?, Text.upper_upper]

theorem Kind.ofDelimiter?_of_isAlpha {c : Char} (h : c.isAlpha = true) : ofDelimiter? c = none := by
  unfold ofDelimiter?
  split
  all_goals first | rfl | exact absurd h (by decide)

namespace Lexer

theorem blind_isGap : Text.Blind isGap := (Text.blind_beq (by decide)).or (Text.blind_beq (by decide))

theorem blind_isNumeric : Text.Blind isNumeric := Text.blind_isDigit.or (Text.blind_beq (by decide))

theorem blind_isWordStart : Text.Blind isWordStart := Text.blind_isAlpha.or (Text.blind_beq (by decide))

theorem blind_isWordChar : Text.Blind isWordChar := blind_isWordStart.or Text.blind_isDigit

theorem blind_isTypeMark : Text.Blind isTypeMark :=
  ((Text.blind_beq (by decide)).or (Text.blind_beq (by decide))).or (Text.blind_beq (by decide))

def Lexeme.upper (l : Lexeme) : Lexeme := ⟨l.kind, l.text.upper, l.width⟩

theorem Lexeme.plain_upper (k : Kind) (t : Text) : Lexeme.plain k t.upper = (Lexeme.plain k t).upper := by
  rw [Lexeme.plain, Text.length_upper]
  rfl

theorem stringBody_upper (cs : Text) : stringBody cs.upper = (stringBody cs).map (Prod.map upper id) := by
  have hquote : ∀ c : Char, c.toUpper = '"' ↔ c = '"' := fun c => Text.toUpper_eq_iff (by decide)
  have hsame : '"'.toUpper = '"' := rfl
  fun_induction stringBody cs with
  | case1 => rfl
  | case2 cs ih =>
    rw [Text.upper_cons, Text.upper_cons, hsame, stringBody, ih, Option.map_map, Option.map_map]
    rfl
  | case3 cs hne =>
    rw [Text.upper_cons, hsame, stringBody]
    · rfl
    · intro ds hds
      cases cs with
      | nil => cases hds
      | cons d cs =>
        injection hds with hd _
        exact hne cs (by rw [(hquote d).1 hd])
  | case4 c cs _ hc ih =>
    have hc' : ¬ c.toUpper = '"' := fun h => hc ((hquote c).1 h)
    rw [Text.upper_cons, stringBody, ih, Option.map_map, Option.map_map]
    · rfl
    · exact fun _ h _ => hc' h
    · exact hc'

theorem stringLexeme_upper (cs : Text) : stringLexeme cs.upper = (stringLexeme cs).upper := by
  rw [stringLexeme, stringLexeme, stringBody_upper]
  cases stringBody cs with
  | none => exact Lexeme.plain_upper .error ('"' :: cs)
  | some b => rfl

theorem numberKind_upper (t : Text) : numberKind t.upper = numberKind t := by
  have hcount : List.count '.' t.upper = List.count '.' t := by
    rw [upper, List.count_eq_countP, List.countP_map, (Text.blind_beq (by decide)).comp_toUpper, List.count_eq_countP]
  rw [numberKind, numberKind, hcount]

theorem numberLexeme_upper (cs : Text) : numberLexeme cs.upper = (numberLexeme cs).upper := by
  rw [numberLexeme, numberLexeme, blind_isNumeric.takeWhile, numberKind_upper, Lexeme.plain_upper]

theorem wordText_upper (cs : Text) : wordText cs.upper = (wordText cs).upper := by
  have hmark : List.take 1 (upper (cs.dropWhile isWordChar)) = upper ((cs.dropWhile isWordChar).take 1) :=
    List.map_take.symm
  rw [wordText, wordText, blind_isWordChar.takeWhile, blind_isWordChar.dropWhile, hmark, blind_isTypeMark.filter,
    Text.upper_append]

theorem wordLexeme_upper (cs : Text) : wordLexeme cs.upper = (wordLexeme cs).upper := by
  rw [wordLexeme, wordLexeme, wordText_upper, Kind.ofSpelling?_upper, Lexeme.plain_upper]

theorem operatorKind?_upper (t : Text) : operatorKind? t.upper = operatorKind? t := by
  rw [operatorKind?, operatorKind?, Kind.ofSpelling?_upper]

theorem markLexeme_upper (c : Char) : markLexeme c.toUpper = (markLexeme c).upper := by
  have hoperator : operatorKind? [c.toUpper] = operatorKind? [c] := operatorKind?_upper [c]
  have hdelimiter : Kind.ofDelimiter? c.toUpper = Kind.ofDelimiter? c :=
    Text.blind_of_isAlpha none (fun _ => Kind.ofDelimiter?_of_isAlpha) c
  rw [markLexeme, markLexeme, hoperator, hdelimiter]
  rfl

theorem symbolLexeme_upper (c : Char) : ∀ (cs : Text), symbolLexeme c.toUpper cs.upper = (symbolLexeme c cs).upper
  | [] => markLexeme_upper c
  | d :: cs => by
    have hoperator : operatorKind? [c.toUpper, d.toUpper] = operatorKind? [c, d] := operatorKind?_upper [c, d]
    rw [Text.upper_cons, symbolLexeme, symbolLexeme]
    simp only [hoperator, markLexeme_upper]
    split <;> rfl

theorem lexeme_upper (c : Char) (cs : Text) : lexeme c.toUpper cs.upper = (lexeme c cs).upper := by
  have hquote : c.toUpper = '"' ↔ c = '"' := Text.toUpper_eq_iff (by decide)
  have hdot : (c.toUpper == '.') = (c == '.') := Text.blind_beq (by decide) c
  rw [lexeme, lexeme, Text.blind_isDigit c, hdot, Text.blind_isDigit.any_head?, blind_isWordStart c, stringLexeme_upper,
    symbolLexeme_upper, ← Text.upper_cons, numberLexeme_upper, wordLexeme_upper]
  simp only [hquote]
  split
  · rfl
  · split
    · rfl
    · split <;> rfl

theorem scan_upper : ∀ (i taken : Nat) (cs : Text), scan i taken cs.upper = (scan i taken cs).map (Token.recast .upper)
  | _, 0, [] | _, _ + 1, [] => rfl
  | i, taken + 1, _ :: cs => scan_upper (i + 1) taken cs
  | i, 0, c :: cs => by
    rw [Text.upper_cons, scan, scan, blind_isGap, lexeme_upper, Lexeme.upper, scan_upper (i + 1) 0 cs,
      scan_upper (i + 1) _ cs]
    split <;> rfl

end Lexer

/-- **The tokens of a line in upper case are its tokens in upper case.** -/
theorem tokenize_upper (line : Text) : tokenize line.upper = (tokenize line).map (Token.recast .upper) := by
  rw [tokenize, Text.chomp_upper, Lexer.scan_upper, tokenize]

/-! ## Separators -/

namespace Lexer

theorem ne_separator_of_ofSpelling? {t : Text} {k : Kind} (h : Kind.ofSpelling? t = some k) : k ≠ .separator := by
  rintro rfl
  have := Kind.isKeyword_or_operator_of_ofSpelling? h
  simp [Kind.isKeyword, Kind.operator?] at this

theorem upper_of_separator_mark {c : Char} (h : (markLexeme c).kind = .separator) :
    (markLexeme c).text.upper = (markLexeme c).text := by
  have hkind : ((operatorKind? [c]).or (Kind.ofDelimiter? c)).getD .error = .separator := h
  cases ho : operatorKind? [c] with
  | some k =>
    rw [ho] at hkind
    exact absurd hkind (ne_separator_of_ofSpelling? (operatorKind?_eq_some ho).1)
  | none =>
    have hc : c.isAlpha = false := by
      cases hc : c.isAlpha with
      | false => rfl
      | true =>
        rw [ho, Kind.ofDelimiter?_of_isAlpha hc] at hkind
        cases hkind
    exact congrArg (· :: []) ((Text.toUpper_eq_iff hc).2 rfl)

theorem upper_of_separator {c : Char} {cs : Text} (h : (lexeme c cs).kind = .separator) :
    (lexeme c cs).text.upper = (lexeme c cs).text := by
  unfold lexeme at h ⊢
  split
  · rename_i hq
    rw [if_pos hq, stringLexeme] at h
    split at h <;> cases h
  rename_i hq
  rw [if_neg hq] at h
  split
  · rename_i hn
    rw [if_pos hn] at h
    have hkind : numberKind ((c :: cs).takeWhile isNumeric) = .separator := h
    unfold numberKind at hkind
    split at hkind <;> cases hkind
  rename_i hn
  rw [if_neg hn] at h
  split
  · rename_i hw
    rw [if_pos hw] at h
    have hkind : (Kind.ofSpelling? (wordText (c :: cs))).getD .name = .separator := h
    cases ho : Kind.ofSpelling? (wordText (c :: cs)) with
    | none =>
      rw [ho] at hkind
      cases hkind
    | some k =>
      rw [ho] at hkind
      exact absurd hkind (ne_separator_of_ofSpelling? ho)
  rename_i hw
  rw [if_neg hw] at h
  unfold symbolLexeme at h ⊢
  split
  · exact upper_of_separator_mark h
  · split
    · rename_i k ho
      simp only [ho] at h
      exact absurd h (ne_separator_of_ofSpelling? (operatorKind?_eq_some ho).1)
    · rename_i ho
      simp only [ho] at h
      exact upper_of_separator_mark h

theorem caseless_scan : ∀ {i taken : Nat} {cs : Text}, ∀ t ∈ scan i taken cs, t.Caseless .upper
  | _, 0, [], _, h | _, _ + 1, [], _, h => absurd h List.not_mem_nil
  | i, taken + 1, _ :: cs, t, h => by
    rw [scan] at h
    exact caseless_scan t h
  | i, 0, c :: cs, t, h => by
    rw [scan] at h
    split at h
    · exact caseless_scan t h
    · rcases List.mem_cons.1 h with rfl | h
      · exact upper_of_separator
      · exact caseless_scan t h

end Lexer

/-! ## Reports -/

def Diagnostic.upper (d : Diagnostic) : Diagnostic := { d with message := d.message.upper }

namespace Fault

theorem code_recast (g : Guise) (f : Fault) : (f.recast g).code = f.code := by cases f <;> rfl

theorem upper_ofNat (n : Nat) : (Text.ofNat n).upper = Text.ofNat n :=
  Guise.upper.text_eq_self fun _ hc => Text.isAlpha_of_isDigit (Nat.isDigit_of_mem_toDigits (by decide) (by decide) hc)

theorem upper_terminator (form : BlockForm) : form.terminator.upper = form.terminator := by cases form <;> decide

theorem upper_word (form : BlockForm) : form.word.spelling.upper = form.word.spelling := by cases form <;> decide

theorem upper_append_self {s t : Text} (hs : s.upper = s) (ht : t.upper = t) : upper (s ++ t) = s ++ t := by
  rw [Text.upper_append, hs, ht]

/-- **The wording of a cause is in upper case**, but for the texts in it that are the program's. -/
theorem message_recast (f : Fault) : (f.recast .upper).message = f.message.upper := by
  cases f with
  | unreadable | interrupted | unterminatedString | malformedNumber | unexpectedCharacter | badHandle => rfl
  | unclosed form =>
    exact (upper_append_self (upper_append_self (upper_word form) (by decide)) (upper_terminator form)).symm
  | unopened form =>
    exact (upper_append_self (upper_append_self (upper_terminator form) (by decide)) (upper_word form)).symm
  | mismatched form line =>
    have hexpected : upper ("EXPECTED ".toList ++ form.terminator ++ " FOR ".toList) = _ :=
      upper_append_self (upper_append_self (by decide) (upper_terminator form)) (by decide)
    exact (upper_append_self (upper_append_self (upper_append_self hexpected (upper_word form)) (by decide))
      (upper_ofNat line)).symm
  | strayCloser text =>
    have hword : upper "UNEXPECTED ".toList = "UNEXPECTED ".toList := by decide
    exact ((Text.upper_append _ text).trans (congrArg (· ++ text.upper) hword)).symm
  | missingCloser b => cases b <;> decide
  | tooDeep limit => exact (upper_append_self (upper_append_self (by decide) (upper_ofNat limit)) (by decide)).symm
  | nameless kind => cases kind <;> decide
  | duplicate name line =>
    have hword : upper " FIRST DECLARED IN ".toList = " FIRST DECLARED IN ".toList := by decide
    change name.upper ++ " FIRST DECLARED IN ".toList ++ Text.ofNat line =
      upper (name ++ " FIRST DECLARED IN ".toList ++ Text.ofNat line)
    rw [Text.upper_append, Text.upper_append, hword, upper_ofNat]

theorem located_recast (f : Fault) (line : Nat) (column : Column) :
    (f.recast .upper).located line column = (f.located line column).upper := by
  rw [located, located, code_recast, message_recast]
  rfl

end Fault

/-! ## Lines of code -/

namespace CodeLine

def upper (l : CodeLine) : CodeLine := ⟨l.number, l.source.upper, l.tokens.map (Token.recast .upper)⟩

theorem ofSource_upper (number : Nat) (source : Text) :
    ofSource number source.upper = (ofSource number source).upper := by
  rw [ofSource, Text.chomp_upper, tokenize_upper]
  rfl

theorem tokenFault_upper (t : Text) : tokenFault t.upper = tokenFault t := by
  cases t with
  | nil => rfl
  | cons c t =>
    have hquote : c.toUpper = '"' ↔ c = '"' := Text.toUpper_eq_iff (by decide)
    have hdot : (c.toUpper == '.') = (c == '.') := Text.blind_beq (by decide) c
    simp only [Text.upper_cons, tokenFault, hquote, hdot, Text.blind_isDigit c]

theorem recast_tokenFault (g : Guise) (t : Text) : (tokenFault t).recast g = tokenFault t := by
  unfold tokenFault
  split
  · rfl
  · split
    · rfl
    · split <;> rfl

theorem diagnostics_upper (l : CodeLine) : l.upper.diagnostics = l.diagnostics.map Diagnostic.upper := by
  rw [diagnostics, diagnostics, upper, List.filter_map, List.map_map, List.map_map]
  refine List.map_congr_left fun t _ => ?_
  have hfault : tokenFault (t.recast .upper).text = (tokenFault t.text).recast .upper :=
    (tokenFault_upper t.text).trans (recast_tokenFault .upper t.text).symm
  rw [Function.comp_apply, Function.comp_apply, hfault, Fault.located_recast]
  rfl

theorem runs_upper (l : CodeLine) : l.upper.runs = l.runs.map (List.map (Token.recast .upper)) := by
  rw [runs, runs, upper, stretches_map (Token.kind_recast .upper), List.filter_map]
  congr 2
  funext r
  cases r <;> rfl

end CodeLine

theorem runsFrom_upper : ∀ (index : Nat) (lines : List CodeLine),
    runsFrom index (lines.map CodeLine.upper) = (runsFrom index lines).map (Run.recast .upper)
  | _, [] => rfl
  | index, l :: ls => by
    rw [List.map_cons, runsFrom, runsFrom, runsFrom_upper (index + 1) ls, CodeLine.runs_upper, List.map_append,
      List.map_map, List.map_map]
    rfl

theorem programRuns_upper (lines : List CodeLine) :
    programRuns (lines.map CodeLine.upper) = (programRuns lines).map (Run.recast .upper) := runsFrom_upper 0 lines

end BlockBasic
