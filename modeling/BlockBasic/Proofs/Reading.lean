import BlockBasic.Proofs.Tokenization
import BlockBasic.Proofs.Unplaced
/-!
# Reading — text that was written as tokens is read as those tokens

`read` gives the tokens of a text without their places.  A token `isReadable` if its source, standing alone, is read as
the token itself; every token of a line is, but for the errors (`Token.Lexed.isReadable`), and so is every entry of the
vocabulary in the spelling of a listing.  A readable token is read before anything that is apart from it
(`read_source_append`), a delimiter before anything at all (`read_delimiter`).
-/
namespace BlockBasic
namespace Lexer

/-! ## Tokens without places -/

theorem scan_unplaced : ∀ (t : Text) (i j : Nat), (scan i 0 t).map Token.unplaced = (scan j 0 t).map Token.unplaced
  | [], _, _ => by rw [scan, scan]
  | c :: cs, i, j => by
    cases hc : isGap c with
    | true => rw [scan_gap hc, scan_gap hc, scan_unplaced cs]
    | false =>
      rw [scan_cons hc, scan_cons hc, List.map_cons, List.map_cons,
        scan_unplaced (cs.drop ((lexeme c cs).width - 1)) (i + (lexeme c cs).width) (j + (lexeme c cs).width)]
      rfl
termination_by t => t.length
decreasing_by
  all_goals
    simp only [List.length_drop, List.length_cons]
    omega

/-- **The tokens of a text, without their places.** -/
def read (t : Text) : List Token := (scan 0 0 t).map Token.unplaced

@[simp] theorem read_nil : read [] = [] := rfl

theorem read_gap {c : Char} (hc : isGap c = true) (cs : Text) : read (c :: cs) = read cs := by
  rw [read, scan_gap hc, scan_unplaced cs (0 + 1) 0]
  rfl

@[simp] theorem read_space (cs : Text) : read (' ' :: cs) = read cs := read_gap rfl cs

theorem read_gaps : ∀ {gaps : Text} (cs : Text), (∀ c ∈ gaps, isGap c = true) → read (gaps ++ cs) = read cs
  | [], _, _ => rfl
  | c :: gaps, cs, h => by
    rw [List.cons_append, read_gap (h c List.mem_cons_self), read_gaps cs (fun d hd => h d (List.mem_cons_of_mem c hd))]

theorem read_cons {c : Char} (hc : isGap c = false) (cs : Text) :
    read (c :: cs) = ((lexeme c cs).token 0).unplaced :: read (cs.drop ((lexeme c cs).width - 1)) := by
  rw [read, scan_cons hc, List.map_cons, scan_unplaced (cs.drop ((lexeme c cs).width - 1)) _ 0]
  rfl

/-! ## Readable tokens -/

def first? (t : Text) : Option Lexeme :=
  match t with
  | []      => none
  | c :: cs => if isGap c || (c == '"' && (stringBody cs).isNone) then none else some (lexeme c cs)

end Lexer

open Lexer

/-- **A token whose source, standing alone, is read as the token.** -/
def Token.isReadable (t : Token) : Bool := first? t.source == some ⟨t.kind, t.text, t.source.length⟩

def Token.isWord (t : Token) : Bool := t.source.head?.any isWordStart

namespace Lexer

theorem isReadable_iff {t : Token} : t.isReadable = true ↔ ∃ c cs, t.source = c :: cs ∧ isGap c = false ∧
    (c = '"' → (stringBody cs).isSome = true) ∧ lexeme c cs = ⟨t.kind, t.text, cs.length + 1⟩ := by
  rw [Token.isReadable, beq_iff_eq]
  cases ht : t.source with
  | nil => simp [first?]
  | cons c cs =>
    have hq : ¬ (isGap c || (c == '"' && (stringBody cs).isNone)) = true ↔
        isGap c = false ∧ (c = '"' → (stringBody cs).isSome = true) := by
      cases hb : stringBody cs <;> simp
    rw [first?]
    constructor
    · intro h
      split at h
      · cases h
      · rename_i hg
        exact ⟨c, cs, rfl, (hq.1 hg).1, (hq.1 hg).2, Option.some.inj h⟩
    · rintro ⟨c', cs', he, hg, hs, hl⟩
      cases he
      rw [if_neg (hq.2 ⟨hg, hs⟩), hl]
      rfl

theorem read_of_lexeme {c : Char} {cs rest : Text} {k : Kind} {x : Text} (hg : isGap c = false)
    (hl : lexeme c (cs ++ rest) = ⟨k, x, cs.length + 1⟩) :
    read (c :: (cs ++ rest)) = ⟨k, x, Column.none⟩ :: read rest := by
  rw [read_cons hg, hl]
  simp only [Lexeme.token, Token.unplaced, Nat.add_sub_cancel, List.drop_left]

/-- **A readable token is read before any text that is apart from it.** -/
theorem read_source_append {t : Token} (ht : t.isReadable = true) {rest : Text} (h : rest.head?.all isApart = true) :
    read (t.source ++ rest) = t.unplaced :: read rest := by
  obtain ⟨c, cs, hsource, hg, hs, hl⟩ := isReadable_iff.1 ht
  rw [hsource]
  exact read_of_lexeme hg ((lexeme_append c cs hs h).trans hl)

/-- **A word is read before any text that does not go on with it.** -/
theorem read_word_append {t : Token} (ht : t.isReadable = true) (hw : t.isWord = true) {rest : Text}
    (h : rest.head?.all (fun c => !isWordChar c && !isTypeMark c) = true) :
    read (t.source ++ rest) = t.unplaced :: read rest := by
  obtain ⟨c, cs, hsource, hg, -, hl⟩ := isReadable_iff.1 ht
  have hc : isWordStart c = true := by simpa [Token.isWord, hsource] using hw
  rw [hsource]
  refine read_of_lexeme hg ?_
  rw [← hl, lexeme_eq_word hc, lexeme_eq_word hc, wordLexeme, wordLexeme, ← List.cons_append, wordText_append h]

def delimiters : Text := ['(', ')', '[', ']', ':', ',', ';', '#']

theorem operatorKind?_delimiter {c : Char} (hc : c ∈ delimiters) (d : Char) : operatorKind? [c, d] = none := by
  cases h : operatorKind? [c, d] with
  | none => rfl
  | some k =>
    have hp := (operatorKind?_pair h).1
    have hno : delimiters.all (fun x => decide (x.toUpper ∉ ['+', '-', '*', '/', '=', '<', '>', 'O'])) = true := by decide
    exact absurd hp (of_decide_eq_true (List.all_eq_true.1 hno c hc))

theorem delimiter_alone {c : Char} (hc : c ∈ delimiters) : c ≠ '"' ∧ (c.isDigit || c == '.') = false ∧
    isWordStart c = false ∧ isGap c = false ∧ operatorKind? [c] = none := by
  have h : delimiters.all (fun x => decide (x ≠ '"' ∧ (x.isDigit || x == '.') = false ∧ isWordStart x = false ∧
      isGap x = false ∧ operatorKind? [x] = none)) = true := by decide +kernel
  exact of_decide_eq_true (List.all_eq_true.1 h c hc)

theorem lexeme_delimiter {c : Char} (hc : c ∈ delimiters) (rest : Text) :
    lexeme c rest = .plain ((Kind.ofDelimiter? c).getD .error) [c] := by
  obtain ⟨hq, hd, hw, -, ho⟩ := delimiter_alone hc
  have hn : (c.isDigit || (c == '.' && rest.head?.any Char.isDigit)) = false := by
    rw [Bool.or_eq_false_iff] at hd
    rw [hd.1, hd.2]
    rfl
  have hl : lexeme c rest = markLexeme c := by
    rw [lexeme_eq_symbol hq hn hw]
    cases rest with
    | nil => rfl
    | cons d ds => simp only [symbolLexeme, operatorKind?_delimiter hc d]
  rw [hl, markLexeme, ho]
  rfl

theorem read_delimiter {c : Char} (hc : c ∈ delimiters) (rest : Text) :
    read (c :: rest) = ⟨(Kind.ofDelimiter? c).getD .error, [c], Column.none⟩ :: read rest := by
  rw [read_cons (delimiter_alone hc).2.2.2.1, lexeme_delimiter hc]
  rfl

/-! ## The forms of lexemes -/

end Lexer

def Kind.isDelimiter : Kind → Bool
  | .opener _ | .closer _ | .colon | .separator | .quotation | .hash => true
  | _                                                                => false

namespace Lexer

/-- **What a lexeme can be**, by the character it begins with. -/
inductive Form (c : Char) (cs : Text) : Lexeme → Prop
  | string {content : Text} {n : Nat} : c = '"' → stringBody cs = some (content, n) →
      Form c cs ⟨.string, content, n + 1⟩
  | number : isNumeric c = true → (c = '.' → cs.head?.any Char.isDigit = true) →
      Form c cs (.plain (numberKind ((c :: cs).takeWhile isNumeric)) ((c :: cs).takeWhile isNumeric))
  | entry {k : Kind} {x : Text} : Kind.ofSpelling? x = some k → Form c cs (.plain k x)
  | name : isWordStart c = true → Form c cs (.plain .name (wordText (c :: cs)))
  | delimiter {k : Kind} : c ≠ '"' → Kind.ofDelimiter? c = some k → Form c cs (.plain k [c])
  | error {x : Text} : Form c cs (.plain .error x)

theorem form_markLexeme {c : Char} (hq : c ≠ '"') (cs : Text) : Form c cs (markLexeme c) := by
  unfold markLexeme
  cases h : operatorKind? [c] with
  | some k => exact .entry (operatorKind?_eq_some h).1
  | none =>
    cases hd : Kind.ofDelimiter? c with
    | some k => exact .delimiter hq hd
    | none => exact .error

theorem form_lexeme (c : Char) (cs : Text) : Form c cs (lexeme c cs) := by
  unfold lexeme
  split
  · rename_i hq
    unfold stringLexeme
    split
    · rename_i h
      exact .string hq h
    · exact .error
  rename_i hq
  split
  · rename_i hn
    simp only [Bool.or_eq_true, Bool.and_eq_true, beq_iff_eq] at hn
    refine .number ?_ (fun hdot => ?_)
    · rcases hn with hd | ⟨hd, -⟩
      · simp [isNumeric, hd]
      · simp [isNumeric, hd]
    · subst hdot
      exact hn.elim (fun hd => absurd hd (by decide)) And.right
  split
  · rename_i hw
    unfold wordLexeme
    cases h : Kind.ofSpelling? (wordText (c :: cs)) with
    | some k => exact .entry h
    | none => exact .name hw
  · unfold symbolLexeme
    split
    · exact form_markLexeme hq []
    · split
      · rename_i h
        exact .entry (operatorKind?_eq_some h).1
      · exact form_markLexeme hq _

theorem numberKind_cases (run : Text) : numberKind run = .integer ∨ numberKind run = .float ∨ numberKind run = .error := by
  unfold numberKind
  split <;> simp

theorem Form.isWordStart_of_name {c : Char} {cs : Text} {l : Lexeme} (h : Form c cs l) (hk : l.kind = .name) :
    isWordStart c = true := by
  cases h with
  | string | error => cases hk
  | number =>
    rcases numberKind_cases ((c :: cs).takeWhile isNumeric) with hn | hn | hn <;> simp [Lexeme.plain, hn] at hk
  | entry hs =>
    cases hk
    have := Kind.isKeyword_or_operator_of_ofSpelling? hs
    simp [Kind.isKeyword, Kind.operator?] at this
  | name hw => exact hw
  | delimiter _ hd =>
    cases hk
    unfold Kind.ofDelimiter? at hd
    split at hd <;> cases hd

theorem Form.delimiter_of_kind {c : Char} {cs : Text} {l : Lexeme} (h : Form c cs l) (hk : l.kind.isDelimiter = true) :
    c ≠ '"' ∧ Kind.ofDelimiter? c = some l.kind ∧ l.text = [c] := by
  cases h with
  | string | error | name => cases hk
  | number =>
    rcases numberKind_cases ((c :: cs).takeWhile isNumeric) with hn | hn | hn <;>
      simp [Lexeme.plain, hn, Kind.isDelimiter] at hk
  | @entry k x hs =>
    have := Kind.isKeyword_or_operator_of_ofSpelling? hs
    cases k <;> simp [Kind.isKeyword, Kind.operator?, Lexeme.plain, Kind.isDelimiter] at this hk
  | delimiter hq hd => exact ⟨hq, hd, rfl⟩

theorem Form.number_of_kind {c : Char} {cs : Text} {l : Lexeme} (h : Form c cs l)
    (hk : l.kind = .integer ∨ l.kind = .float) :
    l.kind = numberKind l.text ∧ (∀ x ∈ l.text, isNumeric x = true) ∧ l.text ≠ [] ∧ l.text ≠ ['.'] := by
  cases h with
  | string | error | name => rcases hk with hk | hk <;> cases hk
  | @entry k x hs =>
    have := Kind.isKeyword_or_operator_of_ofSpelling? hs
    rcases hk with hk | hk <;> cases hk <;> simp [Kind.isKeyword, Kind.operator?] at this
  | delimiter _ hd =>
    rcases hk with hk | hk <;> cases hk <;> unfold Kind.ofDelimiter? at hd <;> split at hd <;> cases hd
  | number hc hdot =>
    refine ⟨rfl, fun x hx => List.all_eq_true.1 List.all_takeWhile x hx, ?_, ?_⟩
    · simp [Lexeme.plain, hc]
    · simp only [Lexeme.plain, List.takeWhile_cons_of_pos hc]
      intro he
      obtain ⟨rfl, hnil⟩ := List.cons.inj he
      cases cs with
      | nil => exact absurd (hdot rfl) (by simp)
      | cons d ds =>
        have hd : d.isDigit = true := by simpa using hdot rfl
        simp [isNumeric, hd] at hnil

theorem Form.entry_of_kind {c : Char} {cs : Text} {l : Lexeme} (h : Form c cs l)
    (hk : l.kind.isKeyword = true ∨ l.kind.operator?.isSome = true) : Kind.ofSpelling? l.text = some l.kind := by
  cases h with
  | string | error | name => rcases hk with hk | hk <;> cases hk
  | number =>
    rcases numberKind_cases ((c :: cs).takeWhile isNumeric) with hn | hn | hn <;>
      simp [Lexeme.plain, hn, Kind.isKeyword, Kind.operator?] at hk
  | entry hs => exact hs
  | delimiter _ hd =>
    unfold Kind.ofDelimiter? at hd
    split at hd <;> cases hd <;> simp [Lexeme.plain, Kind.isKeyword, Kind.operator?] at hk

theorem Form.kind_ne_unknown {c : Char} {cs : Text} {l : Lexeme} (h : Form c cs l) : l.kind ≠ .unknown := by
  intro hk
  cases h with
  | string | error | name => cases hk
  | number =>
    rcases numberKind_cases ((c :: cs).takeWhile isNumeric) with hn | hn | hn <;> simp [Lexeme.plain, hn] at hk
  | entry hs =>
    cases hk
    have := Kind.isKeyword_or_operator_of_ofSpelling? hs
    simp [Kind.isKeyword, Kind.operator?] at this
  | delimiter _ hd =>
    cases hk
    unfold Kind.ofDelimiter? at hd
    split at hd <;> cases hd

end Lexer

theorem Text.mem_doubleQuotes {c : Char} : ∀ {t : Text}, c ∈ t.doubleQuotes ↔ c ∈ t
  | [] => Iff.rfl
  | d :: t => by
    rw [Text.doubleQuotes]
    split
    · rename_i hd
      simp [hd, Text.mem_doubleQuotes]
    · simp [Text.mem_doubleQuotes]

namespace Lexer

/-! ## The tokens of a line -/

theorem kind_stringLexeme {cs : Text} (h : (stringLexeme cs).kind ≠ .error) : (stringBody cs).isSome = true := by
  unfold stringLexeme at h
  cases hb : stringBody cs with
  | some b => rfl
  | none => simp [hb, Lexeme.plain] at h

/-- **What is read at a place is readable**, unless it is a string that is left open. -/
theorem isReadable_token {c : Char} {cs : Text} (hc : isGap c = false) (hs : c = '"' → (stringBody cs).isSome = true)
    (i : Nat) : ((lexeme c cs).token i).isReadable = true := by
  have hcov := covers_lexeme c cs
  have hsource : ((lexeme c cs).token i).source = c :: cs.take ((lexeme c cs).width - 1) := hcov.cons_take.symm
  have hlen : (cs.take ((lexeme c cs).width - 1)).length + 1 = (lexeme c cs).width := by
    have h1 := hcov.pos
    have h2 := hcov.le
    rw [List.length_cons] at h2
    rw [List.length_take]
    omega
  refine isReadable_iff.2 ⟨c, _, hsource, hc, fun hq => ?_, ?_⟩
  · have htake := lexeme_take c cs
    obtain ⟨b, hb⟩ := Option.isSome_iff_exists.1 (hs hq)
    refine kind_stringLexeme ?_
    rw [← lexeme_eq_string hq, htake, lexeme_eq_string hq, stringLexeme, hb]
    simp
  · rw [lexeme_take, hlen]
    rfl

end Lexer

/-- **A token of a line**: a lexeme that begins where no gap is. -/
def Token.Lexed (t : Token) : Prop := ∃ c cs i, isGap c = false ∧ t = (lexeme c cs).token i

namespace Lexer

theorem lexed_of_mem_scan : ∀ (text : Text) (i : Nat), ∀ t ∈ scan i 0 text, t.Lexed
  | [], i, t, ht => by simp [scan] at ht
  | c :: cs, i, t, ht => by
    cases hc : isGap c with
    | true =>
      rw [scan_gap hc] at ht
      exact lexed_of_mem_scan cs (i + 1) t ht
    | false =>
      rw [scan_cons hc] at ht
      rcases List.mem_cons.1 ht with rfl | ht
      · exact ⟨c, cs, i, hc, rfl⟩
      · exact lexed_of_mem_scan _ _ t ht
termination_by text => text.length
decreasing_by
  all_goals
    simp only [List.length_drop, List.length_cons]
    omega

theorem lexed_of_mem_tokenize {line : Text} : ∀ t ∈ tokenize line, t.Lexed := lexed_of_mem_scan line.chomp 0

end Lexer

namespace Token.Lexed

variable {t : Token}

/-- **Every token of a line is readable**, the errors apart. -/
theorem isReadable (h : t.Lexed) (he : t.kind ≠ .error) : t.isReadable = true := by
  obtain ⟨c, cs, i, hc, rfl⟩ := h
  refine isReadable_token hc (fun hq => ?_) i
  have hk : (lexeme c cs).kind ≠ .error := he
  rw [lexeme_eq_string hq] at hk
  exact kind_stringLexeme hk

theorem form (h : t.Lexed) : ∃ c cs, Form c cs ⟨t.kind, t.text, t.column.stop - t.column.start⟩ := by
  obtain ⟨c, cs, i, -, rfl⟩ := h
  refine ⟨c, cs, ?_⟩
  have hl : (⟨((lexeme c cs).token i).kind, ((lexeme c cs).token i).text,
      ((lexeme c cs).token i).column.stop - ((lexeme c cs).token i).column.start⟩ : Lexeme) = lexeme c cs := by
    simp [Lexeme.token]
  rw [hl]
  exact form_lexeme c cs

theorem kind_of_text (h : t.Lexed) (hs : t.kind ≠ .string) {d : Char} (hd : d ∈ delimiters) (ht : t.text = [d]) :
    Kind.ofDelimiter? d = some t.kind := by
  obtain ⟨c, cs, i, -, rfl⟩ := h
  have hsource := (covers_lexeme c cs).cons_take
  rw [Lexeme.source_token hs, show (lexeme c cs).text = [d] from ht] at hsource
  obtain rfl : c = d := (List.cons.inj hsource).1
  have hsome : ∀ x ∈ delimiters, (Kind.ofDelimiter? x).isSome = true := by simp [delimiters, Kind.ofDelimiter?]
  obtain ⟨k, hk⟩ := Option.isSome_iff_exists.1 (hsome c hd)
  rw [Lexeme.token, lexeme_delimiter hd, hk]
  rfl

end Token.Lexed

namespace Lexer

end Lexer

/-! ## Sound tokens -/

/-- **A token that a line can hold**: it is read from its source and is not an error, and a string does not go over the end
of a line. -/
structure Token.Sound (t : Token) : Prop where
  readable : t.isReadable = true
  noError  : t.kind ≠ .error
  unbroken : t.kind = .string → '\n' ∉ t.text

namespace Lexer

theorem mem_text_of_mem_tokens {text : Text} {i : Nat} : ∀ t ∈ scan i 0 text, ∀ c ∈ t.text, c ∈ text := by
  intro t ht c hc
  refine (spelled_scan text i).mem_source ht ?_
  unfold Token.source
  split
  · exact List.mem_cons_of_mem _ (List.mem_append_left _ (Text.mem_doubleQuotes.2 hc))
  · exact hc

theorem sound_of_diagnostics {l : Text} {n : Nat} (hl : '\n' ∉ l.chomp)
    (h : (CodeLine.ofSource n l).diagnostics = []) : ∀ t ∈ tokenize l, t.Sound := by
  intro t ht
  have he : t.kind ≠ .error := by
    intro he
    rw [CodeLine.diagnostics, List.map_eq_nil_iff, List.filter_eq_nil_iff] at h
    exact h t ht (by rw [Token.isError, he]; rfl)
  exact ⟨(lexed_of_mem_tokenize t ht).isReadable he, he, fun _ hm => hl (mem_text_of_mem_tokens t ht _ hm)⟩

/-- A character that is seen on the line: of ASCII, and neither blank nor a control. -/
def isVisible (c : Char) : Bool := decide (33 ≤ c.toNat) && decide (c.toNat ≤ 126)

theorem isVisible_of_isNumeric {c : Char} (h : isNumeric c = true) : isVisible c = true := by
  rw [isNumeric, Bool.or_eq_true, beq_iff_eq] at h
  rcases h with h | rfl
  · simp only [Char.isDigit, Bool.and_eq_true, decide_eq_true_eq, ge_iff_le, UInt32.le_iff_toNat_le] at h
    have h1 : 48 ≤ c.toNat := h.1
    have h2 : c.toNat ≤ 57 := h.2
    simp only [isVisible, Bool.and_eq_true, decide_eq_true_eq]
    omega
  · decide

theorem isVisible_of_isWordStart {c : Char} (h : isWordStart c = true) : isVisible c = true := by
  rw [isWordStart, Bool.or_eq_true, Text.isAlpha_iff, Text.isUpper_iff, Text.isLower_iff, beq_iff_eq] at h
  rcases h with h | rfl
  · simp only [isVisible, Bool.and_eq_true, decide_eq_true_eq]
    omega
  · decide

theorem isVisible_of_isWordChar {c : Char} (h : isWordChar c = true) : isVisible c = true := by
  rw [isWordChar, Bool.or_eq_true] at h
  exact h.elim isVisible_of_isWordStart (fun hd => isVisible_of_isNumeric (by rw [isNumeric, hd]; rfl))

theorem isVisible_of_toUpper {c : Char} (h : isVisible c.toUpper = true) : isVisible c = true := by
  by_cases hu : c.toUpper.isUpper = true
  · exact isVisible_of_isWordStart (isWordStart_of_isUpper_toUpper hu)
  · rwa [← Text.toUpper_eq_self rfl (by simpa using hu)] at h

theorem isVisible_vocabulary : ∀ p ∈ Kind.vocabulary, p.1.all isVisible = true := by decide +kernel

/-- **What is neither a string nor an error is made of visible characters.** -/
theorem Form.isVisible {c : Char} {cs : Text} {l : Lexeme} (h : Form c cs l) (hs : l.kind ≠ .string)
    (he : l.kind ≠ .error) : ∀ x ∈ l.text, isVisible x = true := by
  intro x hx
  cases h with
  | string => exact absurd rfl hs
  | error => exact absurd rfl he
  | number => exact isVisible_of_isNumeric (List.all_eq_true.1 List.all_takeWhile x hx)
  | entry hk =>
    have hu : x.toUpper ∈ Text.upper _ := List.mem_map_of_mem hx
    exact isVisible_of_toUpper (List.all_eq_true.1 (isVisible_vocabulary _ (Kind.mem_vocabulary hk)) _ hu)
  | name =>
    rcases List.mem_append.1 hx with hx | hx
    · exact isVisible_of_isWordChar (List.all_eq_true.1 List.all_takeWhile x hx)
    · have hm := (List.mem_filter.1 hx).2
      simp only [isTypeMark, Bool.or_eq_true, beq_iff_eq] at hm
      rcases hm with (rfl | rfl) | rfl <;> decide
  | delimiter _ hd =>
    rw [show x = c from List.mem_singleton.1 hx]
    unfold Kind.ofDelimiter? at hd
    split at hd
    all_goals first | decide | cases hd

end Lexer

theorem Token.source_of_ne_string {t : Token} (h : t.kind ≠ .string) : t.source = t.text := by
  unfold Token.source
  split
  · rename_i hk
    exact absurd hk h
  · rfl

namespace Token.Sound

variable {t : Token}

theorem form (h : t.Sound) : ∃ c cs, t.source = c :: cs ∧ Form c cs ⟨t.kind, t.text, cs.length + 1⟩ := by
  obtain ⟨c, cs, hs, -, -, hl⟩ := isReadable_iff.1 h.readable
  exact ⟨c, cs, hs, hl ▸ form_lexeme c cs⟩

theorem isVisible (h : t.Sound) (hs : t.kind ≠ .string) : ∀ c ∈ t.text, Lexer.isVisible c = true := by
  obtain ⟨c, cs, -, hf⟩ := h.form
  exact hf.isVisible hs h.noError

end Token.Sound
end BlockBasic
