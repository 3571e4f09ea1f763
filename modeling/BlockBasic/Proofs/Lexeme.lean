import BlockBasic.Token.Lexer
/-!
# Lexeme — what one lexeme covers, and how far it looks

A lexeme stands for the characters that it covers, and for no others: written as source, it is the stretch of the line
from its first character on (`covers_lexeme`), never empty and never past the end.  What follows a lexeme has a
say in it only through the next character: a text that was read as a lexeme is read as the same lexeme wherever the next
character cannot be part of it (`lexeme_append`).
-/
namespace BlockBasic

/-! ## Letters by their code points -/

theorem Text.isUpper_iff {c : Char} : c.isUpper = true ↔ 65 ≤ c.toNat ∧ c.toNat ≤ 90 :=
  (decide_eq_true_iff (p := 'A'.val ≤ c.val ∧ c.val ≤ 'Z'.val)).trans
    (and_congr UInt32.le_iff_toNat_le UInt32.le_iff_toNat_le)

theorem Text.isLower_iff {c : Char} : c.isLower = true ↔ 97 ≤ c.toNat ∧ c.toNat ≤ 122 :=
  Bool.and_eq_true_iff.trans (and_congr (decide_eq_true_iff.trans UInt32.le_iff_toNat_le)
    (decide_eq_true_iff.trans UInt32.le_iff_toNat_le))

theorem Text.isAlpha_iff {c : Char} : c.isAlpha = true ↔ c.isUpper = true ∨ c.isLower = true := Bool.or_eq_true_iff

/-! ## The vocabulary as a table -/

theorem Text.toUpper_eq_self {c x : Char} (h : c.toUpper = x) (hx : x.isUpper = false) : c = x := by
  unfold Char.toUpper at h
  split at h
  · rename_i hc
    subst h
    have h1 : 97 ≤ c.val.toNat := UInt32.le_iff_toNat_le.1 hc.1
    have h2 : c.val.toNat ≤ 122 := UInt32.le_iff_toNat_le.1 hc.2
    have hv : (c.val + ('A'.val - 'a'.val)).toNat = c.val.toNat - 32 := by
      rw [UInt32.toNat_add, show ('A'.val - 'a'.val).toNat = 4294967264 from rfl]
      omega
    rw [← Bool.not_eq_true, Text.isUpper_iff, Char.toNat, hv] at hx
    omega
  · exact h

namespace Kind

theorem mem_vocabulary {t : Text} {k : Kind} (h : ofSpelling? t = some k) : (t.upper, k) ∈ vocabulary := by
  obtain ⟨l₁, l₂, hl, -⟩ := List.lookup_eq_some_iff.1 h
  rw [hl]
  exact List.mem_append_right _ List.mem_cons_self

theorem lookup_of_mem_vocabulary : ∀ p ∈ vocabulary, ofSpelling? p.1 = some p.2 := by decide +kernel

theorem ofSpelling?_operator (o : Operator) : ofSpelling? o.spelling = some (ofOperator o) :=
  lookup_of_mem_vocabulary (o.spelling, ofOperator o) (by
    simp only [vocabulary, List.mem_append, List.mem_map]
    exact .inr ⟨o, o.mem_all, rfl⟩)

theorem isKeyword_or_operator : ∀ p ∈ vocabulary, p.2.isKeyword = true ∨ p.2.operator?.isSome = true := by decide +kernel

theorem isKeyword_or_operator_of_ofSpelling? {t : Text} {k : Kind} (h : ofSpelling? t = some k) :
    k.isKeyword = true ∨ k.operator?.isSome = true := isKeyword_or_operator _ (mem_vocabulary h)

end Kind

namespace Lexer

/-! ## What a lexeme covers -/

def Lexeme.token (l : Lexeme) (i : Nat) : Token := ⟨l.kind, l.text, ⟨i, i + l.width⟩⟩

/-- A lexeme that stands for a beginning of `t`, and not for nothing. -/
structure Lexeme.Covers (l : Lexeme) (t : Text) : Prop where
  source : (l.token 0).source = t.take l.width
  pos    : 0 < l.width
  le     : l.width ≤ t.length

theorem Lexeme.source_token {l : Lexeme} (h : l.kind ≠ .string) (i : Nat) : (l.token i).source = l.text := by
  unfold Token.source Lexeme.token
  split
  · rename_i hk
    exact absurd hk h
  · rfl

theorem Lexeme.covers_plain {k : Kind} {x t : Text} (hk : k ≠ .string) (hx : x ≠ []) (h : x <+: t) :
    (Lexeme.plain k x).Covers t where
  source := by
    rw [Lexeme.source_token hk]
    exact List.prefix_iff_eq_take.1 h
  pos := List.length_pos_iff.2 hx
  le := h.length_le

theorem take_stringBody : ∀ (cs : Text) {content : Text} {n : Nat}, stringBody cs = some (content, n) →
    cs.take n = content.doubleQuotes ++ ['"'] ∧ n ≤ cs.length := by
  intro cs
  fun_induction stringBody cs with
  | case1 => intro content n h; cases h
  | case2 cs ih =>
    intro content n h
    obtain ⟨⟨d, m⟩, hb, he⟩ := Option.map_eq_some_iff.1 h
    cases he
    obtain ⟨h1, h2⟩ := ih hb
    exact ⟨by simp [Text.doubleQuotes, h1], by simp only [List.length_cons]; omega⟩
  | case3 cs _ =>
    intro content n h
    cases h
    exact ⟨by simp [Text.doubleQuotes], by simp⟩
  | case4 c cs _ hc ih =>
    intro content n h
    obtain ⟨⟨d, m⟩, hb, he⟩ := Option.map_eq_some_iff.1 h
    cases he
    obtain ⟨h1, h2⟩ := ih hb
    exact ⟨by rw [List.take_succ_cons, h1, Text.doubleQuotes, if_neg hc]; rfl, by simp only [List.length_cons]; omega⟩

theorem covers_stringLexeme (cs : Text) : (stringLexeme cs).Covers ('"' :: cs) := by
  unfold stringLexeme
  split
  · rename_i content n h
    obtain ⟨h1, h2⟩ := take_stringBody cs h
    exact ⟨by simp [Lexeme.token, Token.source, Text.quote, h1], Nat.succ_pos n, Nat.succ_le_succ h2⟩
  · exact Lexeme.covers_plain (by simp) (by simp) (List.prefix_refl _)

theorem numberKind_ne_string (run : Text) : numberKind run ≠ .string := by
  unfold numberKind
  split <;> simp

theorem covers_numberLexeme {c : Char} (cs : Text) (hc : isNumeric c = true) : (numberLexeme (c :: cs)).Covers (c :: cs) :=
  Lexeme.covers_plain (numberKind_ne_string _) (by simp [hc]) (List.takeWhile_prefix _)

theorem prefix_wordText (cs : Text) : wordText cs <+: cs := by
  have h : ((cs.dropWhile isWordChar).take 1).filter isTypeMark <+: cs.dropWhile isWordChar := by
    cases cs.dropWhile isWordChar with
    | nil => exact List.prefix_refl _
    | cons d ds =>
      by_cases hd : isTypeMark d = true
      · simp [hd]
      · simp [hd]
  obtain ⟨u, hu⟩ := h
  exact ⟨u, by rw [wordText, List.append_assoc, hu, List.takeWhile_append_dropWhile]⟩

theorem ne_string_of_ofSpelling? {t : Text} {k : Kind} (h : Kind.ofSpelling? t = some k) : k ≠ .string := by
  rintro rfl
  have := Kind.isKeyword_or_operator_of_ofSpelling? h
  simp [Kind.isKeyword, Kind.operator?] at this

theorem wordLexeme_ne_string (cs : Text) : (wordLexeme cs).kind ≠ .string := by
  unfold wordLexeme Lexeme.plain
  cases h : Kind.ofSpelling? (wordText cs) with
  | none => simp
  | some k => exact ne_string_of_ofSpelling? h

theorem covers_wordLexeme {c : Char} (cs : Text) (hc : isWordStart c = true) : (wordLexeme (c :: cs)).Covers (c :: cs) :=
  Lexeme.covers_plain (wordLexeme_ne_string _) (by simp [wordText, isWordChar, hc]) (prefix_wordText _)

theorem operatorKind?_eq_some {t : Text} {k : Kind} (h : operatorKind? t = some k) :
    Kind.ofSpelling? t = some k ∧ k.operator?.isSome = true := Option.filter_eq_some_iff.1 h

theorem covers_markLexeme (c : Char) (cs : Text) : (markLexeme c).Covers (c :: cs) := by
  refine Lexeme.covers_plain ?_ (by simp) ⟨cs, rfl⟩
  cases h : operatorKind? [c] with
  | some k => exact ne_string_of_ofSpelling? (operatorKind?_eq_some h).1
  | none =>
    unfold Kind.ofDelimiter?
    split <;> simp

theorem covers_symbolLexeme (c : Char) (cs : Text) : (symbolLexeme c cs).Covers (c :: cs) := by
  unfold symbolLexeme
  split
  · exact covers_markLexeme c []
  · rename_i d ds
    split
    · rename_i k h
      exact Lexeme.covers_plain (ne_string_of_ofSpelling? (operatorKind?_eq_some h).1) (by simp) ⟨ds, rfl⟩
    · exact covers_markLexeme c _

/-- **A lexeme stands for the characters that it covers**: as source it is the beginning of the rest of the line. -/
theorem covers_lexeme (c : Char) (cs : Text) : (lexeme c cs).Covers (c :: cs) := by
  unfold lexeme
  split
  · rename_i hc
    rw [hc]
    exact covers_stringLexeme cs
  split
  · rename_i hn
    refine covers_numberLexeme cs ?_
    simp only [Bool.or_eq_true, Bool.and_eq_true] at hn
    rcases hn with hd | hd
    · simp [isNumeric, hd]
    · simp [isNumeric, hd.1]
  split
  · rename_i hw
    exact covers_wordLexeme cs hw
  · exact covers_symbolLexeme c cs

/-! ## How far a lexeme looks

A token goes on with letters, digits, an underscore, a dot, a mark of type, a quote or the second character of an
operator.  Before any other character, which is `apart`, each lexeme ends where it would end at the end of the line; the
one exception is a string that is still open. -/

/-- A character that no token goes on with, outside strings. -/
def isApart (c : Char) : Bool :=
  !(isWordChar c || c == '.' || isTypeMark c || c == '"' || ['=', '<', '>', '+', '-'].contains c)

theorem pair_of_operator : ∀ p ∈ Kind.vocabulary, p.2.operator?.isSome = true → p.1.length = 2 →
    p.1.head?.any ['+', '-', '*', '/', '=', '<', '>', 'O'].contains = true ∧
      p.1.getLast?.any ['=', '<', '>', '+', '-', 'R'].contains = true := by
  decide +kernel

theorem operatorKind?_pair {c d : Char} {k : Kind} (h : operatorKind? [c, d] = some k) :
    c.toUpper ∈ ['+', '-', '*', '/', '=', '<', '>', 'O'] ∧ d.toUpper ∈ ['=', '<', '>', '+', '-', 'R'] := by
  obtain ⟨hs, ho⟩ := operatorKind?_eq_some h
  have hp := pair_of_operator _ (Kind.mem_vocabulary hs) ho rfl
  simpa [Text.upper] using hp

theorem isWordStart_of_isUpper_toUpper {c : Char} (h : c.toUpper.isUpper = true) : isWordStart c = true := by
  unfold Char.toUpper at h
  split at h
  · rename_i hc
    have hl : c.isLower = true := Text.isLower_iff.2 ⟨UInt32.le_iff_toNat_le.1 hc.1, UInt32.le_iff_toNat_le.1 hc.2⟩
    rw [isWordStart, Text.isAlpha_iff.2 (.inr hl), Bool.true_or]
  · rw [isWordStart, Text.isAlpha_iff.2 (.inl h), Bool.true_or]

theorem operatorKind?_pair_apart (c : Char) {d : Char} (hd : isApart d = true) : operatorKind? [c, d] = none := by
  cases h : operatorKind? [c, d] with
  | none => rfl
  | some k =>
    have hd' := (operatorKind?_pair h).2
    by_cases hu : d.toUpper.isUpper = true
    · simp [isApart, isWordChar, isWordStart_of_isUpper_toUpper hu] at hd
    · rw [← Text.toUpper_eq_self rfl (by simpa using hu)] at hd'
      simp only [List.mem_cons, List.not_mem_nil, or_false] at hd'
      rcases hd' with rfl | rfl | rfl | rfl | rfl | rfl <;> simp [isApart, isWordChar, isWordStart] at hd

theorem takeWhile_append_of_head? {p : Char → Bool} {t rest : Text} (h : rest.head?.all (fun c => !p c) = true) :
    (t ++ rest).takeWhile p = t.takeWhile p := by
  rw [List.takeWhile_append]
  split
  · rename_i hl
    have ht : t.takeWhile p = t := (List.takeWhile_prefix p).eq_of_length hl
    cases rest with
    | nil => rw [List.takeWhile_nil, List.append_nil, ht]
    | cons d ds =>
      have hd : ¬ p d = true := by simpa using h
      rw [List.takeWhile_cons_of_neg hd, List.append_nil, ht]
  · rfl

theorem dropWhile_append_of_head? {p : Char → Bool} {t rest : Text} (h : rest.head?.all (fun c => !p c) = true) :
    (t ++ rest).dropWhile p = t.dropWhile p ++ rest := by
  have hl : t.takeWhile p ++ (t ++ rest).dropWhile p = t.takeWhile p ++ (t.dropWhile p ++ rest) := by
    rw [← List.append_assoc, List.takeWhile_append_dropWhile, ← takeWhile_append_of_head? h,
      List.takeWhile_append_dropWhile]
  exact List.append_cancel_left hl

/-- **A word ends before anything that is neither of its characters nor a mark of type.** -/
theorem wordText_append {t rest : Text} (h : rest.head?.all (fun c => !isWordChar c && !isTypeMark c) = true) :
    wordText (t ++ rest) = wordText t := by
  have hw : rest.head?.all (fun c => !isWordChar c) = true := by
    cases rest with
    | nil => rfl
    | cons d ds =>
      simp only [List.head?_cons, Option.all_some, Bool.and_eq_true] at h ⊢
      exact h.1
  unfold wordText
  rw [takeWhile_append_of_head? hw, dropWhile_append_of_head? hw]
  congr 1
  cases t.dropWhile isWordChar with
  | cons d ds => rfl
  | nil =>
    cases rest with
    | nil => rfl
    | cons d ds =>
      simp only [List.head?_cons, Option.all_some, Bool.and_eq_true, Bool.not_eq_true'] at h
      simp [h.2]

theorem stringBody_append {rest : Text} (h : rest.head? ≠ some '"') : ∀ (cs : Text),
    (stringBody cs).isSome = true → stringBody (cs ++ rest) = stringBody cs := by
  intro cs
  fun_induction stringBody cs with
  | case1 => intro hs; cases hs
  | case2 cs ih =>
    intro hs
    rw [List.cons_append, List.cons_append, stringBody, ih (by simpa using hs)]
  | case3 cs hne =>
    intro _
    have hne' : ∀ cs', cs ++ rest = '"' :: cs' → False := by
      intro cs' hcs
      cases cs with
      | nil => exact h (by rw [← List.nil_append rest, hcs]; rfl)
      | cons d ds =>
        injection hcs with hd _
        exact hne ds (by rw [hd])
    rw [List.cons_append, stringBody]
    exact hne'
  | case4 c cs _ hc ih =>
    intro hs
    rw [List.cons_append, stringBody, ih (by simpa using hs)]
    · exact fun _ hq _ => hc hq
    · exact hc

/-- **A lexeme before a character that is apart** is the one at the end of the line, unless it is an open string. -/
theorem lexeme_append (c : Char) (cs : Text) {rest : Text} (hs : c = '"' → (stringBody cs).isSome = true)
    (h : rest.head?.all isApart = true) : lexeme c (cs ++ rest) = lexeme c cs := by
  have hpart : ∀ p : Char → Bool, (∀ d, isApart d = true → p d = false) → rest.head?.all (fun d => !p d) = true := by
    intro p hp
    cases rest with
    | nil => rfl
    | cons d ds => simpa using hp d (by simpa using h)
  unfold lexeme
  split
  · rename_i hc
    have hq : rest.head? ≠ some '"' := by
      intro hr
      rw [hr] at h
      exact absurd h (by decide)
    unfold stringLexeme
    rw [stringBody_append hq cs (hs hc)]
    cases hb : stringBody cs with
    | none => simp [hb] at hs; exact absurd hc hs
    | some b => rfl
  rename_i hc
  have hdot : (cs ++ rest).head?.any Char.isDigit = cs.head?.any Char.isDigit := by
    cases cs with
    | cons d ds => rfl
    | nil =>
      have := hpart Char.isDigit (fun d hd => by
        simp only [isApart, isWordChar, Bool.not_eq_true', Bool.or_eq_false_iff] at hd
        exact hd.1.1.1.1.2)
      cases rest with
      | nil => rfl
      | cons d ds => simpa using this
  rw [hdot]
  split
  · unfold numberLexeme
    rw [← List.cons_append, takeWhile_append_of_head? (hpart isNumeric (fun d hd => by
      simp only [isApart, isWordChar, Bool.not_eq_true', Bool.or_eq_false_iff] at hd
      simp [isNumeric, hd]))]
  split
  · unfold wordLexeme
    rw [← List.cons_append, wordText_append]
    cases rest with
    | nil => rfl
    | cons d ds =>
      simp only [List.head?_cons, Option.all_some, isApart, Bool.not_eq_true', Bool.or_eq_false_iff] at h
      simp [h]
  · cases cs with
    | cons d ds => rfl
    | nil =>
      cases rest with
      | nil => rfl
      | cons d ds =>
        have hd : operatorKind? [c, d] = none := operatorKind?_pair_apart c (by simpa using h)
        simp only [List.nil_append, symbolLexeme, hd]

theorem stringBody_doubleQuotes {rest : Text} (h : rest.head? ≠ some '"') : ∀ (t : Text),
    stringBody (t.doubleQuotes ++ '"' :: rest) = some (t, t.doubleQuotes.length + 1)
  | [] => by
    simp only [Text.doubleQuotes, List.nil_append, List.length_nil]
    rw [stringBody]
    intro cs hcs
    exact h (by rw [hcs]; rfl)
  | c :: t => by
    rw [Text.doubleQuotes]
    split
    · rename_i hc
      rw [List.cons_append, List.cons_append, stringBody, stringBody_doubleQuotes h t, hc]
      rfl
    · rename_i hc
      rw [List.cons_append, stringBody, stringBody_doubleQuotes h t]
      · rfl
      · exact fun _ hq _ => hc hq
      · exact hc

theorem takeWhile_takeWhile_self (p : Char → Bool) (t : Text) : (t.takeWhile p).takeWhile p = t.takeWhile p := by
  induction t with
  | nil => rfl
  | cons c t ih =>
    by_cases hc : p c = true
    · rw [List.takeWhile_cons_of_pos hc, List.takeWhile_cons_of_pos hc, ih]
    · rw [List.takeWhile_cons_of_neg hc, List.takeWhile_nil]

theorem not_isWordChar_of_isTypeMark {c : Char} (h : isTypeMark c = true) : isWordChar c = false := by
  simp only [isTypeMark, Bool.or_eq_true, beq_iff_eq] at h
  rcases h with (rfl | rfl) | rfl <;> decide

theorem wordText_wordText (t : Text) : wordText (wordText t) = wordText t := by
  have hm : (((t.dropWhile isWordChar).take 1).filter isTypeMark).head?.all (fun c => !isWordChar c) = true := by
    cases t.dropWhile isWordChar with
    | nil => rfl
    | cons d ds =>
      by_cases hd : isTypeMark d = true
      · simp [hd, not_isWordChar_of_isTypeMark hd]
      · simp [hd]
  generalize hb : ((t.dropWhile isWordChar).take 1).filter isTypeMark = b at hm
  have hd : (t.takeWhile isWordChar).dropWhile isWordChar = [] := by
    have h := List.takeWhile_append_dropWhile (p := isWordChar) (l := t.takeWhile isWordChar)
    rw [takeWhile_takeWhile_self] at h
    exact List.append_cancel_left (h.trans (List.append_nil _).symm)
  have hbb : (b.take 1).filter isTypeMark = b := by
    rw [← hb]
    cases t.dropWhile isWordChar with
    | nil => rfl
    | cons d ds => by_cases hd : isTypeMark d = true <;> simp [hd]
  rw [show wordText t = t.takeWhile isWordChar ++ b by rw [wordText, hb], wordText, takeWhile_append_of_head? hm,
    dropWhile_append_of_head? hm, takeWhile_takeWhile_self, hd, List.nil_append, hbb]

theorem lexeme_eq_string {c : Char} (h : c = '"') (cs : Text) : lexeme c cs = stringLexeme cs := if_pos h

theorem lexeme_eq_number {c : Char} {cs : Text} (hq : c ≠ '"')
    (h : (c.isDigit || (c == '.' && cs.head?.any Char.isDigit)) = true) : lexeme c cs = numberLexeme (c :: cs) := by
  rw [lexeme, if_neg hq, if_pos h]

theorem lexeme_eq_word {c : Char} (h : isWordStart c = true) (cs : Text) : lexeme c cs = wordLexeme (c :: cs) := by
  have hq : c ≠ '"' := by rintro rfl; exact absurd h (by decide)
  have hd : c.isDigit = false := by
    cases hd : c.isDigit with
    | false => rfl
    | true =>
      simp only [Char.isDigit, Bool.and_eq_true, decide_eq_true_eq, UInt32.le_iff_toNat_le, ge_iff_le] at hd
      rw [isWordStart, Bool.or_eq_true, Text.isAlpha_iff, Text.isUpper_iff, Text.isLower_iff, beq_iff_eq] at h
      rcases h with (h | h) | rfl
      · exact absurd (Nat.le_trans h.1 hd.2) (by decide)
      · exact absurd (Nat.le_trans h.1 hd.2) (by decide)
      · exact absurd hd.2 (by decide)
  have hp : (c == '.') = false := by
    rw [beq_eq_false_iff_ne]
    rintro rfl
    exact absurd h (by decide)
  rw [lexeme, if_neg hq, hd, hp, if_neg (by simp), if_pos h]

theorem lexeme_eq_symbol {c : Char} {cs : Text} (hq : c ≠ '"')
    (hn : (c.isDigit || (c == '.' && cs.head?.any Char.isDigit)) = false) (hw : isWordStart c = false) :
    lexeme c cs = symbolLexeme c cs := by
  rw [lexeme, if_neg hq, hn, hw, if_neg (by simp), if_neg (by simp)]

theorem Lexeme.Covers.cons_take {l : Lexeme} {c : Char} {cs : Text} (h : l.Covers (c :: cs)) :
    c :: cs.take (l.width - 1) = (l.token 0).source := by
  obtain ⟨m, hm⟩ := Nat.exists_eq_succ_of_ne_zero (Nat.pos_iff_ne_zero.1 h.pos)
  rw [h.source, hm, Nat.succ_sub_one, List.take_succ_cons]

theorem stringLexeme_take (cs : Text) : stringLexeme (cs.take ((stringLexeme cs).width - 1)) = stringLexeme cs := by
  unfold stringLexeme
  cases hb : stringBody cs with
  | none => simp [Lexeme.plain, hb]
  | some b =>
    obtain ⟨content, n⟩ := b
    obtain ⟨h1, h2⟩ := take_stringBody cs hb
    have hn : content.doubleQuotes.length + 1 = n := by
      have := congrArg List.length h1
      rw [List.length_take, Nat.min_eq_left h2, List.length_append] at this
      exact this.symm
    simp only [Nat.add_sub_cancel]
    rw [h1, stringBody_doubleQuotes (by simp), hn]

theorem symbolLexeme_take {c : Char} (hq : c ≠ '"') (hw : isWordStart c = false) : ∀ {cs : Text},
    (c.isDigit || (c == '.' && cs.head?.any Char.isDigit)) = false →
      lexeme c (cs.take ((symbolLexeme c cs).width - 1)) = symbolLexeme c cs
  | [], hn => by
    rw [List.take_nil]
    exact lexeme_eq_symbol hq hn hw
  | d :: ds, hn => by
    cases ho : operatorKind? [c, d] with
    | some k =>
      have hl : ∀ us, symbolLexeme c (d :: us) = .plain k [c, d] := fun us => by simp only [symbolLexeme, ho]
      have hone : lexeme c [d] = symbolLexeme c [d] := lexeme_eq_symbol hq hn hw
      rw [hl, show (d :: ds).take ((Lexeme.plain k [c, d]).width - 1) = [d] from rfl, hone, hl]
    | none =>
      have hl : symbolLexeme c (d :: ds) = markLexeme c := by simp only [symbolLexeme, ho]
      have hd : c.isDigit = false := (Bool.or_eq_false_iff.1 hn).1
      rw [hl]
      exact lexeme_eq_symbol hq (by rw [hd]; simp [markLexeme, Lexeme.plain]) hw

/-- **A lexeme depends on the characters that it covers only.** -/
theorem lexeme_take (c : Char) (cs : Text) : lexeme c (cs.take ((lexeme c cs).width - 1)) = lexeme c cs := by
  by_cases hq : c = '"'
  · rw [lexeme_eq_string hq, lexeme_eq_string hq, stringLexeme_take]
  by_cases hn : (c.isDigit || (c == '.' && cs.head?.any Char.isDigit)) = true
  · have hc : isNumeric c = true := by
      simp only [Bool.or_eq_true, Bool.and_eq_true] at hn
      rcases hn with hd | hd
      · simp [isNumeric, hd]
      · simp [isNumeric, hd.1]
    have ht : cs.take ((lexeme c cs).width - 1) = cs.takeWhile isNumeric := by
      rw [lexeme_eq_number hq hn, numberLexeme, List.takeWhile_cons_of_pos hc]
      exact (List.prefix_iff_eq_take.1 (List.takeWhile_prefix _)).symm
    have hn' : (c.isDigit || (c == '.' && (cs.takeWhile isNumeric).head?.any Char.isDigit)) = true := by
      cases cs with
      | nil => exact hn
      | cons d ds =>
        by_cases hd : d.isDigit = true
        · rwa [List.takeWhile_cons_of_pos (by simp [isNumeric, hd])]
        · simp only [List.head?_cons, Option.any_some, hd, Bool.and_false, Bool.or_false] at hn
          simp [hn]
    rw [ht, lexeme_eq_number hq hn, lexeme_eq_number hq hn', numberLexeme, numberLexeme, List.takeWhile_cons_of_pos hc,
      List.takeWhile_cons_of_pos hc, takeWhile_takeWhile_self]
  by_cases hw : isWordStart c = true
  · have ht : c :: cs.take ((wordLexeme (c :: cs)).width - 1) = wordText (c :: cs) :=
      (covers_wordLexeme cs hw).cons_take.trans (Lexeme.source_token (wordLexeme_ne_string _) 0)
    have hl : ∀ t, wordLexeme (wordText t) = wordLexeme t := fun t => by simp only [wordLexeme, wordText_wordText]
    rw [lexeme_eq_word hw, lexeme_eq_word hw, ht, hl]
  · have hl : lexeme c cs = symbolLexeme c cs := lexeme_eq_symbol hq (by simpa using hn) (by simpa using hw)
    rw [hl]
    exact symbolLexeme_take hq (by simpa using hw) (by simpa using hn)

end Lexer
end BlockBasic
