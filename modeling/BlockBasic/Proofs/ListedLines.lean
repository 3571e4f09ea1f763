import BlockBasic.Proofs.Relisting
import BlockBasic.Source.Feed
/-!
# ListedLines — each statement of a listing has a line of its own

The text of a clean statement is `Firm`: it begins and ends with a character that is seen, and no line feed is in it
(`firm_text`).  So lines of such texts, cut at their line feeds, are these lines again (`splitLines_flatMap`), nothing is cut
off at the end of one, and each of them is one run of tokens (`runs_listed`).
-/
namespace BlockBasic

open Lexer
open Expression (Restorable nestsOf ofNests sequenceText argumentsText laterArgumentsText)

/-! ## Firm texts -/

/-- **A text that a line can hold by itself**: it begins and ends with a visible character, and does not break. -/
structure Text.Firm (t : Text) : Prop where
  first    : t.head?.any isVisible = true
  last     : t.getLast?.any isVisible = true
  unbroken : '\n' ∉ t

namespace Text.Firm

theorem ne_nil {t : Text} (h : t.Firm) : t ≠ [] := by
  rintro rfl
  exact absurd h.first (by simp)

theorem of_visible {t : Text} (hne : t ≠ []) (h : ∀ c ∈ t, isVisible c = true) : t.Firm := by
  refine ⟨?_, ?_, fun hm => absurd (h _ hm) (by decide)⟩
  · cases t with
    | nil => exact absurd rfl hne
    | cons c cs => exact h c List.mem_cons_self
  · rw [List.getLast?_eq_some_getLast hne]
    exact h _ (List.getLast_mem hne)

theorem singleton {c : Char} (h : isVisible c = true) : Text.Firm [c] :=
  of_visible (List.cons_ne_nil c []) (fun _ hd => (List.mem_singleton.1 hd) ▸ h)

theorem getLast?_any_append {s t : Text} (h : t.getLast?.any isVisible = true) :
    (s ++ t).getLast?.any isVisible = true := by
  rw [List.getLast?_append]
  cases ht : t.getLast? with
  | none => simp [ht] at h
  | some c => simpa [ht] using h

theorem head?_any_append {s t : Text} (h : s.head?.any isVisible = true) : (s ++ t).head?.any isVisible = true := by
  cases s with
  | nil => simp at h
  | cons c cs => exact h

theorem append {s m t : Text} (hs : s.Firm) (hm : '\n' ∉ m) (ht : t.Firm) : (s ++ (m ++ t)).Firm :=
  ⟨head?_any_append hs.first, getLast?_any_append (getLast?_any_append ht.last), by simp [hs.unbroken, hm, ht.unbroken]⟩

theorem quote {t : Text} (h : '\n' ∉ t) : t.quote.Firm := by
  refine ⟨rfl, ?_, ?_⟩
  · rw [Text.quote, ← List.cons_append, List.getLast?_append]
    rfl
  · simp [Text.quote, Text.mem_doubleQuotes, h]

end Text.Firm

theorem Token.Sound.firm {t : Token} (h : t.Sound) : t.source.Firm := by
  by_cases hs : t.kind = .string
  · have hq : t.source = t.text.quote := by rw [Token.source, hs]
    rw [hq]
    exact .quote (h.unbroken hs)
  · obtain ⟨c, cs, hc, -⟩ := isReadable_iff.1 h.readable
    have hsource := Token.source_of_ne_string hs
    rw [hsource] at hc ⊢
    exact .of_visible (by rw [hc]; simp) (h.isVisible hs)

theorem Keyword.firm_spelling (k : Keyword) : k.spelling.Firm := by
  have h := k.sound_token.firm
  rwa [show k.token.source = k.spelling by cases k <;> rfl] at h

/-! ## Expressions -/

namespace Expression

theorem firm_atomText {table : Table} {inOpen : Bool} {a : Atom} (ha : a.Restorable table inOpen) : a.text.Firm := by
  have hone : ∀ t : Token, a.phrases = [.token t] → t.source = a.text → a.text.Firm := by
    intro t hp hs
    rw [← hs]
    exact (ha.sound (.token t) (by rw [hp]; exact List.mem_cons_self) t List.mem_cons_self).firm
  have hmode : ∀ m : FileMode, Text.Firm ("FOR ".toList ++ m.text) := by
    intro m
    rw [FileMode.text_eq_spelling]
    exact (Keyword.word .for_).firm_spelling.append (m := [' ']) (by decide) (Keyword.word m.word).firm_spelling
  cases a with
  | keyword k => exact k.firm_spelling
  | handle n =>
    have hn := (ha.sound _ List.mem_cons_self ⟨.integer, Text.ofNat n, Column.none⟩
      (List.mem_cons_of_mem _ List.mem_cons_self)).firm
    have hhash : Text.Firm ['#'] := .singleton (by decide)
    exact hhash.append (m := []) (by decide) hn
  | mode m access =>
    cases access with
    | none => exact hmode m
    | some x =>
      have hx : x.text.Firm := by
        cases x with
        | read => exact (Keyword.word .read).firm_spelling
        | write => exact (Keyword.word .write).firm_spelling
        | readWrite =>
          exact (Keyword.word .read).firm_spelling.append (m := [' ']) (by decide) (Keyword.word .write).firm_spelling
      rw [Atom.text, List.append_assoc]
      exact (hmode m).append (by decide) hx
  | fileName t => exact hone _ rfl rfl
  | literal value spelling =>
    cases value with
    | string t => exact hone _ rfl rfl
    | integer n => exact hone _ rfl (Token.source_of_ne_string (numberKind_ne_string _))
    | float x => exact hone _ rfl (Token.source_of_ne_string (numberKind_ne_string _))
  | operator o =>
    exact hone _ rfl (Token.source_of_ne_string (ne_string_of_ofSpelling? (Kind.ofSpelling?_operator o)))
  | reference name key => exact hone _ rfl rfl
  | separator c => exact hone _ rfl rfl
  | malformed t => exact hone _ rfl rfl

theorem unbroken_gap (previous : Option Expression) (e : Expression) : '\n' ∉ gap previous e := by
  unfold gap
  split
  · split <;> simp
  · simp

theorem firm_sequence : ∀ {es : List Expression}, (∀ e ∈ es, e.text.Firm) → ∀ previous,
    '\n' ∉ sequenceText previous es ∧ (es ≠ [] → (sequenceText previous es).getLast?.any isVisible = true)
  | [], _, _ => ⟨List.not_mem_nil, fun h => absurd rfl h⟩
  | e :: es, h, previous => by
    have he := h e List.mem_cons_self
    obtain ⟨h1, h2⟩ := firm_sequence (fun x hx => h x (List.mem_cons_of_mem e hx)) (some e)
    rw [sequenceText]
    refine ⟨by simp [unbroken_gap, he.unbroken, h1], fun _ => ?_⟩
    cases es with
    | nil =>
      rw [sequenceText, List.append_nil]
      exact Text.Firm.getLast?_any_append he.last
    | cons x xs => exact Text.Firm.getLast?_any_append (h2 (by simp))

theorem firm_sequenceText {es : List Expression} (h : ∀ e ∈ es, e.text.Firm) (hne : es ≠ []) :
    (sequenceText none es).Firm := by
  obtain ⟨h1, h2⟩ := firm_sequence h none
  refine ⟨?_, h2 hne, h1⟩
  cases es with
  | nil => exact absurd rfl hne
  | cons e es =>
    rw [sequenceText, gap, List.nil_append]
    exact Text.Firm.head?_any_append (h e List.mem_cons_self).first

theorem unbroken_laterArguments : ∀ {as : List (List Expression)}, (∀ a ∈ as, ∀ e ∈ a, e.text.Firm) →
    '\n' ∉ laterArgumentsText as
  | [], _ => List.not_mem_nil
  | a :: as, h => by
    have ih := unbroken_laterArguments (fun x hx => h x (List.mem_cons_of_mem a hx))
    simp [laterArgumentsText, (firm_sequence (h a List.mem_cons_self) none).1, ih]

theorem Restorable.firm {limit : Limit} {table : Table} {inOpen : Bool} {depth : Nat} {e : Expression}
    (h : Restorable limit table inOpen depth e) : e.text.Firm := by
  induction h with
  | atom ha _ => exact firm_atomText ha
  | @group depth c b arguments _ _ _ _ ih =>
    have hopen : Text.Firm [b.opening] := .singleton (by cases b <;> decide)
    have hclose : Text.Firm [b.closing] := .singleton (by cases b <;> decide)
    have hbody : '\n' ∉ argumentsText arguments := by
      cases arguments with
      | nil => exact List.not_mem_nil
      | cons a as =>
        have hlater := unbroken_laterArguments (fun x hx => ih x (List.mem_cons_of_mem a hx))
        simp [argumentsText, (firm_sequence (ih a List.mem_cons_self) none).1, hlater]
    exact hopen.append hbody hclose

end Expression

/-! ## Statements -/

namespace Run

theorem Clean.words_ne_nil {r : Run} (hr : r.Clean) (table : Table) : (r.statement table).words ≠ [] := by
  intro hnil
  cases hk : r.keyword? with
  | some k =>
    rw [words_statement, hk] at hnil
    simp at hnil
  | none =>
    have hsign := hr.sign_words table (not_access_of_not_open (isOpen_of_keyword?_eq_none hk))
    rw [hnil, List.map_nil] at hsign
    exact hr.nonempty (List.map_eq_nil_iff.1 hsign.symm)

theorem Clean.firm_text {r : Run} (hr : r.Clean) (table : Table) : (r.statement table).text.Firm := by
  have hfirm : ∀ e ∈ ofNests nestingLimit table (r.nests nestingLimit), e.text.Firm :=
    fun e he => (hr.restorable table e he).firm
  have hoperands : (r.statement table).operandsText =
      sequenceText none (ofNests nestingLimit table (r.nests nestingLimit)) := (looksLike_expressions table r).1
  have hkey : (r.statement table).keyword = r.keyword? := rfl
  have hwords := hr.words_ne_nil table
  rw [words_statement] at hwords
  rw [Statement.text, hkey, hoperands]
  cases hk : r.keyword? with
  | none =>
    refine Expression.firm_sequenceText hfirm (fun hnil => hwords ?_)
    rw [hk, hnil]
    rfl
  | some k =>
    simp only
    split
    · exact k.2.firm_spelling
    · rename_i hne
      have hes : ofNests nestingLimit table (r.nests nestingLimit) ≠ [] := fun hnil => hne (by rw [hnil]; rfl)
      exact k.2.firm_spelling.append (m := [' ']) (by decide) (Expression.firm_sequenceText hfirm hes)

theorem Clean.undivided_words {r : Run} (hr : r.Clean) (table : Table) :
    CodeLine.undivided 0 (r.statement table).words = true := by
  have hes := hr.restorable table
  have hoperands : CodeLine.undivided 0
      (Nest.tokensOf (nestsOf (ofNests nestingLimit table (r.nests nestingLimit)))) = true := by
    refine Nest.undivided_tokensOf (Expression.whole_nestsOf hes) (fun p hp => ?_)
    obtain ⟨e, he, hp⟩ := Expression.mem_nestsOf.1 hp
    cases hes e he with
    | atom _ hcolon =>
      obtain ⟨q, hq, hqp⟩ := List.mem_map.1 hp
      cases hqp
      exact hcolon rfl p hq
    | group =>
      rw [Expression.nests, List.mem_singleton] at hp
      cases hp
  rw [words_statement]
  cases r.keyword? with
  | none => exact hoperands
  | some k =>
    have hinner : Nest.isInner k.2.token = true := isInner_keyword rfl
    simp only [Option.map_some, Option.toList_some, List.singleton_append, CodeLine.undivided,
      Nest.isDivider_of_isInner hinner, Nest.depthAfter_of_isInner hinner]
    exact hoperands

end Run

/-! ## Lines -/

theorem Text.dropTail_eq_self {p : Char → Bool} {t : Text} (h : t.getLast?.all (fun c => !p c) = true) :
    Text.dropTail p t = t := by
  rw [Text.dropTail]
  rw [← List.head?_reverse] at h
  have hd : t.reverse.dropWhile p = t.reverse := by
    cases hr : t.reverse with
    | nil => rfl
    | cons c cs =>
      rw [hr] at h
      exact List.dropWhile_cons_of_neg (by simpa using h)
  rw [hd, List.reverse_reverse]

theorem Text.mem_of_mem_chomp {c : Char} {t : Text} (h : c ∈ t.chomp) : c ∈ t := by
  rw [Text.chomp, Text.dropTail, List.mem_reverse] at h
  exact List.mem_reverse.1 (List.dropWhile_subset _ h)

theorem Text.chomp_append_of_firm (s : Text) {t : Text} (h : t.Firm) : (s ++ t).chomp = s ++ t := by
  have hlast : (s ++ t).getLast?.any isVisible = true := Text.Firm.getLast?_any_append h.last
  refine Text.dropTail_eq_self ?_
  cases hl : (s ++ t).getLast? with
  | none => rfl
  | some c =>
    rw [hl] at hlast
    have hb : isBreak c = false := by
      rw [isBreak, Bool.or_eq_false_iff, beq_eq_false_iff_ne, beq_eq_false_iff_ne]
      exact ⟨by rintro rfl; exact absurd hlast (by decide), by rintro rfl; exact absurd hlast (by decide)⟩
    simp [hb]

theorem isGap_of_mem_indent {i : Indent} {depth : Nat} : ∀ c ∈ i.text depth, isGap c = true := by
  intro c hc
  cases i with
  | spaces n => rw [List.eq_of_mem_replicate hc]; rfl
  | tab => rw [List.eq_of_mem_replicate hc]; rfl

theorem CodeLine.undivided_unplaced : ∀ (depth : Nat) (ts : List Token),
    CodeLine.undivided depth (ts.map Token.unplaced) = CodeLine.undivided depth ts
  | _, [] => rfl
  | depth, t :: ts => by
    rw [List.map_cons, CodeLine.undivided, CodeLine.undivided, ← CodeLine.undivided_unplaced _ ts]
    rfl

theorem Run.Clean.tokens_listed {r : Run} (hr : r.Clean) (table : Table) {gaps : Text} (hg : ∀ c ∈ gaps, isGap c = true)
    (number : Nat) : (CodeLine.ofSource number (gaps ++ (r.statement table).text)).tokens.map Token.unplaced =
      (r.statement table).words := by
  rw [CodeLine.ofSource, tokenize, Text.chomp_append_of_firm gaps (hr.firm_text table)]
  exact (read_gaps _ hg).trans (hr.read_text table)

/-- **The line of a clean statement is one run.** -/
theorem Run.Clean.runs_listed {r : Run} (hr : r.Clean) (table : Table) {gaps : Text} (hg : ∀ c ∈ gaps, isGap c = true)
    (number : Nat) : (CodeLine.ofSource number (gaps ++ (r.statement table).text)).runs =
      [(CodeLine.ofSource number (gaps ++ (r.statement table).text)).tokens] := by
  have htokens := hr.tokens_listed table hg number
  refine CodeLine.runs_of_undivided ?_ ?_
  · rw [← CodeLine.undivided_unplaced, htokens]
    exact hr.undivided_words table
  · intro hnil
    rw [hnil] at htokens
    exact hr.words_ne_nil table htokens.symm

theorem Run.Clean.diagnostics_listed {r : Run} (hr : r.Clean) (table : Table) {gaps : Text}
    (hg : ∀ c ∈ gaps, isGap c = true) (number : Nat) :
    (CodeLine.ofSource number (gaps ++ (r.statement table).text)).diagnostics = [] := by
  have htokens := hr.tokens_listed table hg number
  rw [CodeLine.diagnostics, List.map_eq_nil_iff, List.filter_eq_nil_iff]
  intro t ht he
  have hmem : t.unplaced ∈ (r.statement table).words := by
    rw [← htokens]
    exact List.mem_map_of_mem ht
  exact (hr.sound_words table _ hmem).noError (by simpa [Token.isError] using he)

/-! ## Splitting a listing -/

theorem splitLines_append_break : ∀ {l : Text} (rest : Text), '\n' ∉ l → l.getLast? ≠ some '\r' →
    splitLines '\r' '\n' (l ++ '\n' :: rest) = l :: splitLines '\r' '\n' rest
  | [], rest, _, _ => by rw [List.nil_append, splitLines, if_pos rfl]
  | c :: l, rest, hl, hr => by
    have hc : c ≠ '\n' := fun he => hl (he ▸ List.mem_cons_self)
    have hrest : '\n' ∉ l := fun hm => hl (List.mem_cons_of_mem c hm)
    have hend : ¬ (c = '\r' ∧ (l ++ '\n' :: rest).head? = some '\n') := by
      rintro ⟨rfl, hh⟩
      cases l with
      | nil => exact hr rfl
      | cons d ds => exact hrest (by rw [← Option.some.inj hh]; exact List.mem_cons_self)
    have hlast : l.getLast? ≠ some '\r' := by
      intro he
      apply hr
      rw [List.getLast?_cons, he]
      rfl
    rw [List.cons_append, splitLines, if_neg hc, if_neg hend, splitLines_append_break rest hrest hlast]

theorem splitLines_flatMap : ∀ {lines : List Text}, (∀ l ∈ lines, '\n' ∉ l ∧ l.getLast? ≠ some '\r') →
    splitLines '\r' '\n' (lines.flatMap (fun l => l ++ ['\n'])) = lines
  | [], _ => rfl
  | l :: ls, h => by
    obtain ⟨h1, h2⟩ := h l List.mem_cons_self
    rw [List.flatMap_cons, List.append_assoc, List.singleton_append, splitLines_append_break _ h1 h2,
      splitLines_flatMap (fun x hx => h x (List.mem_cons_of_mem l hx))]

end BlockBasic
