import BlockBasic.Proofs.Written
/-!
# ListedText — the text of a listing is read as the tokens it was written from

The spaces of a listing are few: a separator is tight to what precedes it, and so are a group and a step after a name or
a function.  They are enough.  Wherever two expressions stand without a space between them, the second begins with a
character that the last token of the first does not go on with (`stops_sequenceText`), so the lexer ends each token where
the listing ended it (`read_sequenceText`).
-/
namespace BlockBasic

open Lexer

/-! ## What is expected of the text that follows -/

namespace Expression

/-- **Whether a text can follow an expression without a space.**  After a name or a function all may follow that does not
make the word longer, and after anything else what is apart from every token. -/
def stops (e : Expression) (rest : Text) : Bool :=
  rest.head?.all isApart || (e.applies && rest.head?.all (fun c => !isWordChar c && !isTypeMark c))

theorem stops_of_apart (e : Expression) {rest : Text} (h : rest.head?.all isApart = true) : e.stops rest = true := by
  rw [stops, h, Bool.true_or]

theorem isApart_opening (b : Bracket) : isApart b.opening = true := by cases b <;> decide

theorem isApart_closing (b : Bracket) : isApart b.closing = true := by cases b <;> decide

theorem isApart_of_delimiter {c : Char} {k : Kind} (hq : c ≠ '"') (h : Kind.ofDelimiter? c = some k) :
    isApart c = true := by
  unfold Kind.ofDelimiter? at h
  split at h
  all_goals first | rfl | exact absurd rfl hq | cases h

theorem isApart_separator {table : Table} {inOpen : Bool} {c : Char} (h : (Atom.separator c).Restorable table inOpen) :
    isApart c = true := by
  have hr := (h.sound _ List.mem_cons_self _ List.mem_cons_self).readable
  obtain ⟨d, ds, hs, -, -, hl⟩ := isReadable_iff.1 hr
  have hd : [c] = d :: ds := hs
  cases hd
  have hc := (form_lexeme c []).delimiter_of_kind (by rw [hl]; rfl)
  rw [hl] at hc
  exact isApart_of_delimiter hc.1 hc.2.1

theorem stops_sequenceText {limit : Limit} {table : Table} {inOpen : Bool} {depth : Nat} (e : Expression)
    {es : List Expression} (h : ∀ x ∈ es, Restorable limit table inOpen depth x) {rest : Text}
    (hrest : rest.head?.all isApart = true) : e.stops (sequenceText (some e) es ++ rest) = true := by
  cases es with
  | nil => exact stops_of_apart e hrest
  | cons x xs =>
    have hx := h x List.mem_cons_self
    rw [sequenceText, gap]
    split
    · exact stops_of_apart e rfl
    · rename_i hspaced
      unfold spaced at hspaced
      split at hspaced
      · cases hx with
        | atom ha _ =>
          refine stops_of_apart e ?_
          rw [text]
          exact isApart_separator ha
      · rename_i c b arguments closed
        refine stops_of_apart e ?_
        rw [text]
        exact isApart_opening b
      · have he : e.applies = true := by simpa using hspaced
        rw [stops, he, text]
        rfl
      · have he : e.applies = true := by simpa using hspaced
        rw [stops, he, text]
        rfl
      · exact absurd rfl hspaced

/-! ## Atoms -/

theorem isWord_of_applies {table : Table} {inOpen : Bool} {c : Column} {a : Atom} (ha : a.Restorable table inOpen)
    (h : (Expression.atom c a).applies = true) :
    ∃ t : Token, a.phrases = [.token t] ∧ a.text = t.source ∧ t.unplaced = t ∧ t.isWord = true := by
  cases a with
  | reference name key =>
    refine ⟨⟨.name, name, Column.none⟩, rfl, rfl, rfl, ?_⟩
    have hr := (ha.sound _ List.mem_cons_self _ List.mem_cons_self).readable
    obtain ⟨d, ds, hs, -, -, hl⟩ := isReadable_iff.1 hr
    rw [Token.isWord, hs]
    exact (form_lexeme d ds).isWordStart_of_name (by rw [hl])
  | keyword k =>
    cases k with
    | function f =>
      have hall : ∀ f ∈ Function.all, (Keyword.function f).token.isWord = true := by decide +kernel
      exact ⟨(Keyword.function f).token, rfl, rfl, rfl, hall f f.mem_all⟩
    | word | dataType => cases h
  | _ => cases h

theorem read_keyword_space (k : Keyword) (rest : Text) : read (k.spelling ++ ' ' :: rest) = k.token :: read rest := by
  have hs : k.token.source = k.spelling := by cases k <;> rfl
  rw [← hs, read_source_append k.isReadable_token rfl, read_space]
  rfl

theorem read_keyword (k : Keyword) {rest : Text} (h : rest.head?.all isApart = true) :
    read (k.spelling ++ rest) = k.token :: read rest := by
  have hs : k.token.source = k.spelling := by cases k <;> rfl
  rw [← hs, read_source_append k.isReadable_token h]
  rfl

theorem read_mode (m : FileMode) {rest : Text} (h : rest.head?.all isApart = true) :
    read ("FOR ".toList ++ m.text ++ rest) = m.phrase.tokens ++ read rest := by
  have hfor := read_keyword_space (.word .for_) (m.text ++ rest)
  have hword := read_keyword (.word m.word) h
  rw [FileMode.text_eq_spelling] at hfor ⊢
  rw [List.append_assoc]
  exact hfor.trans (congrArg ((Keyword.word .for_).token :: ·) hword)

theorem read_access (a : FileAccess) {rest : Text} (h : rest.head?.all isApart = true) :
    read (" ACCESS ".toList ++ a.text ++ rest) = a.phrase.tokens ++ read rest := by
  have haccess : ∀ t, read (" ACCESS ".toList ++ t) = (Keyword.word .access).token :: read t :=
    fun t => (read_space _).trans (read_keyword_space (.word .access) t)
  rw [List.append_assoc, haccess]
  cases a with
  | read => exact congrArg _ (read_keyword (.word .read) h)
  | write => exact congrArg _ (read_keyword (.word .write) h)
  | readWrite =>
    exact congrArg _ ((read_keyword_space (.word .read) _).trans (congrArg _ (read_keyword (.word .write) h)))

/-- **The text of an atom is read as the tokens of its phrases.** -/
theorem read_atomText {table : Table} {inOpen : Bool} {a : Atom} (ha : a.Restorable table inOpen) {rest : Text}
    (h : rest.head?.all isApart = true) : read (a.text ++ rest) = a.phrases.flatMap Phrase.tokens ++ read rest := by
  have hone : ∀ t : Token, a.phrases = [.token t] → t.unplaced = t → t.source = a.text →
      read (a.text ++ rest) = a.phrases.flatMap Phrase.tokens ++ read rest := by
    intro t hp hcol hs
    have hr := (ha.sound (.token t) (by rw [hp]; exact List.mem_cons_self) t List.mem_cons_self).readable
    rw [hp, ← hs, read_source_append hr h, hcol]
    rfl
  cases a with
  | keyword k => exact read_keyword k h
  | handle n =>
    have hr := ha.sound _ List.mem_cons_self ⟨.integer, Text.ofNat n, Column.none⟩
      (List.mem_cons_of_mem _ List.mem_cons_self)
    exact (read_delimiter (by decide) _).trans (congrArg _ (read_source_append hr.readable h))
  | mode m access =>
    cases access with
    | none => exact (read_mode m h).trans (by simp [Atom.phrases])
    | some x =>
      have hmode : read ("FOR ".toList ++ m.text ++ (" ACCESS ".toList ++ x.text ++ rest)) =
          m.phrase.tokens ++ read (" ACCESS ".toList ++ x.text ++ rest) := read_mode m rfl
      rw [read_access x h] at hmode
      simpa [Atom.text, Atom.phrases] using hmode
  | fileName t => exact hone _ rfl rfl rfl
  | literal value spelling =>
    cases value with
    | string t => exact hone _ rfl rfl rfl
    | integer n => exact hone _ rfl rfl (Token.source_of_ne_string (numberKind_ne_string _))
    | float x => exact hone _ rfl rfl (Token.source_of_ne_string (numberKind_ne_string _))
  | operator o =>
    refine hone _ rfl rfl (Token.source_of_ne_string ?_)
    exact ne_string_of_ofSpelling? (Kind.ofSpelling?_operator o)
  | reference name key => exact hone _ rfl rfl rfl
  | separator c => exact hone _ rfl rfl rfl
  | malformed t => exact hone _ rfl rfl rfl

/-! ## Sequences and groups -/

theorem read_sequence {limit : Limit} {table : Table} {inOpen : Bool} {depth : Nat} : ∀ {es : List Expression},
    (∀ e ∈ es, Restorable limit table inOpen depth e) →
    (∀ e ∈ es, ∀ rest, e.stops rest = true → read (text e ++ rest) = Nest.tokensOf (nests e) ++ read rest) →
    ∀ (previous : Option Expression) {rest : Text}, rest.head?.all isApart = true →
      read (sequenceText previous es ++ rest) = Nest.tokensOf (nestsOf es) ++ read rest
  | [], _, _, _, _, _ => rfl
  | e :: es, hr, h, previous, rest, hrest => by
    have hes := fun x hx => hr x (List.mem_cons_of_mem e hx)
    have hgap : ∀ t, read (gap previous e ++ t) = read t := by
      intro t
      refine read_gaps t (fun c hc => ?_)
      unfold gap at hc
      split at hc
      · split at hc
        · rw [List.mem_singleton.1 hc]
          rfl
        · cases hc
      · cases hc
    rw [sequenceText, List.append_assoc, List.append_assoc, hgap,
      h e List.mem_cons_self _ (stops_sequenceText e hes hrest),
      read_sequence hes (fun x hx => h x (List.mem_cons_of_mem e hx)) (some e) hrest, nestsOf, Nest.tokensOf_append,
      List.append_assoc]

theorem read_laterArguments {limit : Limit} {table : Table} {inOpen : Bool} {depth : Nat} :
    ∀ {as : List (List Expression)}, (∀ a ∈ as, ∀ e ∈ a, Restorable limit table inOpen depth e) →
    (∀ a ∈ as, ∀ e ∈ a, ∀ rest, e.stops rest = true → read (text e ++ rest) = Nest.tokensOf (nests e) ++ read rest) →
    ∀ {rest : Text}, rest.head?.all isApart = true →
      read (laterArgumentsText as ++ rest) = Nest.tokensOf (laterNests as) ++ read rest ∧
        (laterArgumentsText as ++ rest).head?.all isApart = true
  | [], _, _, _, hrest => ⟨rfl, hrest⟩
  | a :: as, hr, h, rest, hrest => by
    obtain ⟨hlater, hapart⟩ := read_laterArguments (fun x hx => hr x (List.mem_cons_of_mem a hx))
      (fun x hx => h x (List.mem_cons_of_mem a hx)) hrest
    have hcomma : ∀ t, read (", ".toList ++ t) = ⟨.separator, [','], Column.none⟩ :: read t :=
      fun t => (read_delimiter (by decide) _).trans (congrArg _ (read_space t))
    refine ⟨?_, rfl⟩
    rw [laterArgumentsText, List.append_assoc, List.append_assoc, hcomma,
      read_sequence (hr a List.mem_cons_self) (h a List.mem_cons_self) none hapart, hlater, laterNests]
    simp [commaNest, Nest.tokensOf, Nest.tokens, Phrase.tokens]

/-- **A restorable expression is read as the tokens that a listing writes for it.** -/
theorem Restorable.read_text {limit : Limit} {table : Table} {inOpen : Bool} {depth : Nat} {e : Expression}
    (h : Restorable limit table inOpen depth e) : ∀ rest, e.stops rest = true →
      read (text e ++ rest) = Nest.tokensOf (nests e) ++ read rest := by
  induction h with
  | @atom depth c a ha _ =>
    intro rest hrest
    have htokens : Nest.tokensOf (nests (.atom c a)) = a.phrases.flatMap Phrase.tokens := by
      rw [nests, Nest.tokensOf_eq_flatMap, List.flatMap_map]
      rfl
    rw [text, htokens]
    cases happlies : (Expression.atom c a).applies with
    | false =>
      rw [stops, happlies, Bool.false_and, Bool.or_false] at hrest
      exact read_atomText ha hrest
    | true =>
      rw [stops, happlies, Bool.true_and, Bool.or_eq_true] at hrest
      rcases hrest with hrest | hrest
      · exact read_atomText ha hrest
      · obtain ⟨t, hp, hs, hcol, hw⟩ := isWord_of_applies ha happlies
        have hr := (ha.sound (.token t) (by rw [hp]; exact List.mem_cons_self) t List.mem_cons_self).readable
        rw [hp, hs, read_word_append hr hw hrest, hcol]
        rfl
  | @group depth c b arguments hdeep hne hsep hr ih =>
    intro rest _
    have hopening : ∀ t, read (b.opening :: t) = b.openingToken :: read t := by
      intro t
      cases b <;> exact read_delimiter (by decide) t
    have hclosing : read (b.closing :: rest) = b.closingToken :: read rest := by
      cases b <;> exact read_delimiter (by decide) rest
    have hbody : read (argumentsText arguments ++ b.closing :: rest) =
        Nest.tokensOf (argumentNests arguments) ++ read (b.closing :: rest) := by
      have hapart : (b.closing :: rest).head?.all isApart = true := isApart_closing b
      cases arguments with
      | nil => rfl
      | cons a as =>
        obtain ⟨hlater, hl⟩ := read_laterArguments (fun x hx => hr x (List.mem_cons_of_mem a hx))
          (fun x hx => ih x (List.mem_cons_of_mem a hx)) hapart
        rw [argumentsText, List.append_assoc,
          read_sequence (hr a List.mem_cons_self) (ih a List.mem_cons_self) none hl, hlater, argumentNests,
          Nest.tokensOf_append, List.append_assoc]
    rw [text, if_pos rfl, List.cons_append, hopening, List.append_assoc, List.singleton_append, hbody, hclosing]
    simp [nests, Nest.tokensOf, Nest.tokens]

/-- **A listed sequence is read as the tokens it was written from.** -/
theorem read_sequenceText {limit : Limit} {table : Table} {inOpen : Bool} {depth : Nat} {es : List Expression}
    (h : ∀ e ∈ es, Restorable limit table inOpen depth e) :
    read (sequenceText none es) = Nest.tokensOf (nestsOf es) := by
  have hr : read (sequenceText none es ++ []) = Nest.tokensOf (nestsOf es) ++ read [] :=
    read_sequence h (fun e he => (h e he).read_text) none rfl
  simpa using hr

end Expression
end BlockBasic
