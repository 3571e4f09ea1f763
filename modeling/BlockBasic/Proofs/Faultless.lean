import BlockBasic.Proofs.Written
/-!
# Faultless — what is built without a report can be restored

The tokens of a line, errors apart, are `Sound`: each is read from its own source as itself.  From sound tokens in nests
with which nothing is wrong come atoms that a listing can give back (`restorable_tokenAtom`), and so do the expressions of
a statement (`restorable_ofNests`).
-/
namespace BlockBasic

open Lexer

/-! ## Numbers -/

namespace Text

theorem decimal?_of_digits {t : Text} (hne : t ≠ []) (h : ∀ c ∈ t, c.isDigit = true) :
    decimal? t = some (digitsValue 0 t) := if_pos ⟨hne, List.all_eq_true.2 h⟩

theorem isDigit_ofNat (n : Nat) : ∀ c ∈ ofNat n, c.isDigit = true :=
  fun _ hc => Nat.isDigit_of_mem_toDigits (by decide) (by decide) hc

theorem ofNat_ne_nil (n : Nat) : ofNat n ≠ [] := Nat.toDigits_ne_nil

theorem decimal?_ofNat (n : Nat) : decimal? (ofNat n) = some n := by
  have hv : digitsValue 0 (ofNat n) = n := Nat.ofDigitChars_ten_toDigits
  rw [decimal?_of_digits (ofNat_ne_nil n) (isDigit_ofNat n), hv]

end Text

namespace Lexer

theorem isDigit_of_numeric {t : Text} (h : ∀ c ∈ t, isNumeric c = true) (hdot : '.' ∉ t) :
    ∀ c ∈ t, c.isDigit = true := by
  intro c hc
  have hn := h c hc
  rw [isNumeric, Bool.or_eq_true, beq_iff_eq] at hn
  exact hn.resolve_right (fun he => hdot (he ▸ hc))

theorem numberKind_eq_integer {t : Text} : numberKind t = .integer ↔ '.' ∉ t := by
  rw [← List.count_eq_zero]
  unfold numberKind
  split <;> simp_all

theorem numberKind_eq_float {t : Text} : numberKind t = .float ↔ t.count '.' = 1 := by
  unfold numberKind
  split <;> simp_all

theorem ofDigits?_isSome {t : Text} (hne : t ≠ []) (h : ∀ c ∈ t, isNumeric c = true) (hdot : '.' ∉ t) :
    (Literal.ofDigits? t).isSome = true := by
  rw [Literal.ofDigits?, Text.decimal?_of_digits hne (isDigit_of_numeric h hdot)]
  rfl

theorem ofDecimal?_isSome {t : Text} (h : ∀ c ∈ t, isNumeric c = true) (hdot : t.count '.' = 1) (hne : t ≠ ['.']) :
    (Double.ofDecimal? t).isSome = true := by
  obtain ⟨whole, fraction, rfl, hw⟩ := List.eq_append_cons_of_mem (List.count_pos_iff.1 (by rw [hdot]; decide))
  have hf : '.' ∉ fraction := by
    rw [List.count_append, List.count_eq_zero.2 hw, List.count_cons_self] at hdot
    exact List.count_eq_zero.1 (by omega)
  have hpos : ∀ c ∈ whole, (c != '.') = true := fun c hc => bne_iff_ne.2 (fun he => hw (he ▸ hc))
  have htake : (whole ++ '.' :: fraction).takeWhile (· != '.') = whole := by
    rw [List.takeWhile_append_of_pos hpos, List.takeWhile_cons_of_neg (by simp), List.append_nil]
  have hdrop : (whole ++ '.' :: fraction).dropWhile (· != '.') = '.' :: fraction := by
    rw [List.dropWhile_append_of_pos hpos, List.dropWhile_cons_of_neg (by simp)]
  have hdigits : ∀ c ∈ whole ++ fraction, c.isDigit = true := by
    refine isDigit_of_numeric (fun c hc => h c ?_) (by simp [hw, hf])
    simp only [List.mem_append, List.mem_cons] at hc ⊢
    exact hc.imp_right .inr
  have hsome : whole ++ fraction ≠ [] := by
    intro he
    obtain ⟨rfl, rfl⟩ := List.append_eq_nil_iff.1 he
    exact hne rfl
  simp only [Double.ofDecimal?, htake, hdrop, List.drop_succ_cons, List.drop_zero, Option.isSome_map,
    Text.decimal?_of_digits hsome hdigits, Option.isSome_some]

end Lexer

/-! ## Sound tokens -/

namespace Token.Sound

variable {t : Token}

theorem ofDigits?_isSome (h : t.Sound) (hk : t.kind = .integer) : (Literal.ofDigits? t.text).isSome = true := by
  obtain ⟨c, cs, -, hf⟩ := h.form
  obtain ⟨hkind, hnum, hne, -⟩ := hf.number_of_kind (.inl hk)
  exact Lexer.ofDigits?_isSome hne hnum (numberKind_eq_integer.1 (hkind.symm.trans hk))

theorem ofDecimal?_isSome (h : t.Sound) (hk : t.kind = .float) : (Double.ofDecimal? t.text).isSome = true := by
  obtain ⟨c, cs, -, hf⟩ := h.form
  obtain ⟨hkind, hnum, -, hne⟩ := hf.number_of_kind (.inr hk)
  exact Lexer.ofDecimal?_isSome hnum (numberKind_eq_float.1 (hkind.symm.trans hk)) hne

theorem kind_eq_numberKind (h : t.Sound) (hk : t.kind = .integer ∨ t.kind = .float) : numberKind t.text = t.kind := by
  obtain ⟨c, cs, -, hf⟩ := h.form
  exact (hf.number_of_kind hk).1.symm

theorem delimiter (h : t.Sound) (hk : t.kind.isDelimiter = true) :
    ∃ c, t.text = [c] ∧ c ≠ '"' ∧ Kind.ofDelimiter? c = some t.kind := by
  obtain ⟨c, cs, -, hf⟩ := h.form
  obtain ⟨hq, hd, hx⟩ := hf.delimiter_of_kind hk
  exact ⟨c, hx, hq, hd⟩

theorem eq_ofOperator : ∀ p ∈ Kind.vocabulary, ∀ o ∈ Operator.all, p.2.operator? = some o → p.2 = Kind.ofOperator o := by
  decide +kernel

theorem kind_eq_ofOperator_of_readable (h : t.isReadable = true) {o : Operator} (ho : t.kind.operator? = some o) :
    t.kind = Kind.ofOperator o := by
  obtain ⟨c, cs, -, -, -, hl⟩ := isReadable_iff.1 h
  have hf : Form c cs ⟨t.kind, t.text, cs.length + 1⟩ := hl ▸ form_lexeme c cs
  have hx := hf.entry_of_kind (.inr (by rw [ho]; rfl))
  exact eq_ofOperator _ (Kind.mem_vocabulary hx) o o.mem_all ho

theorem kind_eq_ofOperator (h : t.Sound) {o : Operator} (ho : t.kind.operator? = some o) : t.kind = Kind.ofOperator o :=
  kind_eq_ofOperator_of_readable h.readable ho

end Token.Sound

/-- **A token as a listing writes it**: words and operators in their own spelling, all else as it stands. -/
def Token.listed (t : Token) : Token :=
  match Keyword.ofKind? t.kind, t.kind.operator? with
  | some k, _    => k.token
  | none, some o => o.token
  | none, none   => t.unplaced

theorem Token.listed_of_keyword {t : Token} {k : Keyword} (h : Keyword.ofKind? t.kind = some k) : t.listed = k.token := by
  simp only [Token.listed, h]

theorem Token.listed_of_operator {t : Token} {o : Operator} (h : Keyword.ofKind? t.kind = none)
    (ho : t.kind.operator? = some o) : t.listed = o.token := by
  simp only [Token.listed, h, ho]

theorem Token.listed_of_other {t : Token} (h : Keyword.ofKind? t.kind = none) (ho : t.kind.operator? = none) :
    t.listed = t.unplaced := by
  simp only [Token.listed, h, ho]

theorem Token.Sound.kind_listed {t : Token} (h : t.Sound) : t.listed.kind = t.kind := by
  cases hk : Keyword.ofKind? t.kind with
  | some k => rw [Token.listed_of_keyword hk, Keyword.eq_kind_of_ofKind? hk]; rfl
  | none =>
    cases ho : t.kind.operator? with
    | some o => rw [Token.listed_of_operator hk ho, h.kind_eq_ofOperator ho]; rfl
    | none => rw [Token.listed_of_other hk ho]; rfl

theorem Token.Sound.listed {t : Token} (h : t.Sound) : t.listed.Sound := by
  cases hk : Keyword.ofKind? t.kind with
  | some k => rw [Token.listed_of_keyword hk]; exact k.sound_token
  | none =>
    cases ho : t.kind.operator? with
    | some o => rw [Token.listed_of_operator hk ho]; exact o.sound_token
    | none => rw [Token.listed_of_other hk ho]; exact ⟨h.readable, h.noError, h.unbroken⟩

namespace Expression

theorem kind_of_isSettled {t : Token} (h : (Phrase.token t).isSettled = true) :
    (∀ b, t.kind ≠ .opener b) ∧ (∀ b, t.kind ≠ .closer b) ∧ t.kind ≠ .hash := by
  refine ⟨fun b hb => ?_, fun b hb => ?_, fun hb => ?_⟩ <;> simp [Phrase.isSettled, hb] at h

theorem tokenAtom_keyword (table : Table) {t : Token} {k : Keyword} (h : Keyword.ofKind? t.kind = some k) :
    tokenAtom table t = .keyword k := by
  have hk := Keyword.eq_kind_of_ofKind? h
  unfold tokenAtom
  cases k <;> simp [hk, Keyword.kind, Keyword.ofKind?]

theorem tokenAtom_operator (table : Table) {t : Token} {o : Operator} (h : t.kind = Kind.ofOperator o) :
    tokenAtom table t = .operator o := by
  unfold tokenAtom
  cases o <;> simp [h, Kind.ofOperator, Keyword.ofKind?, Kind.operator?]

theorem ofDigits?_ne_string {t x : Text} : Literal.ofDigits? t ≠ some (.string x) := by
  rw [Literal.ofDigits?]
  cases t.decimal? with
  | none => simp
  | some n =>
    simp only [Option.map_some]
    split <;> simp

/-- **The atom of a sound token is listed as that token, and is its atom again.** -/
theorem tokenAtom_listed {table : Table} {t : Token} (h : t.Sound) (hs : (Phrase.token t).isSettled = true) :
    (tokenAtom table t).phrases = [.token t.listed] ∧ tokenAtom table t.listed = tokenAtom table t := by
  obtain ⟨hopen, hclose, hhash⟩ := kind_of_isSettled hs
  cases hkey : Keyword.ofKind? t.kind with
  | some k =>
    rw [Token.listed_of_keyword hkey, tokenAtom_keyword table hkey,
      tokenAtom_keyword table (t := k.token) (Keyword.ofKind?_kind k)]
    exact ⟨rfl, rfl⟩
  | none =>
    cases ho : t.kind.operator? with
    | some o =>
      rw [Token.listed_of_operator hkey ho, tokenAtom_operator table (h.kind_eq_ofOperator ho),
        tokenAtom_operator table (t := o.token) rfl]
      exact ⟨rfl, rfl⟩
    | none =>
      refine ⟨?_, by rw [Token.listed_of_other hkey ho]; rfl⟩
      rw [Token.listed_of_other hkey ho]
      obtain ⟨c, cs, -, hf⟩ := h.form
      obtain ⟨kind, text, column⟩ := t
      cases kind with
      | word | dataType | function => cases hkey
      | arithmetic | assignment | comparison | logical | bitwise | increment | decrement => cases ho
      | error => exact absurd rfl h.noError
      | unknown => exact absurd rfl hf.kind_ne_unknown
      | opener b => exact absurd rfl (hopen b)
      | closer b => exact absurd rfl (hclose b)
      | hash => exact absurd rfl hhash
      | name => rfl
      | string => rfl
      | colon => rfl
      | quotation =>
        obtain ⟨d, -, hq, hd⟩ := h.delimiter rfl
        unfold Kind.ofDelimiter? at hd
        split at hd <;> first | exact absurd rfl hq | cases hd
      | separator =>
        obtain ⟨d, hx, -, -⟩ := h.delimiter rfl
        simp only at hx
        subst hx
        rfl
      | integer =>
        have hn := h.kind_eq_numberKind (.inl rfl)
        have hv := h.ofDigits?_isSome rfl
        simp only at hn hv
        cases hd : Literal.ofDigits? text with
        | none => simp [hd] at hv
        | some value =>
          cases value with
          | string x => exact absurd hd ofDigits?_ne_string
          | integer n => simp [tokenAtom, hd, Atom.phrases, hn, Token.unplaced]
          | float x => simp [tokenAtom, hd, Atom.phrases, hn, Token.unplaced]
      | float =>
        have hn := h.kind_eq_numberKind (.inr rfl)
        have hv := h.ofDecimal?_isSome rfl
        simp only at hn hv
        cases hd : Double.ofDecimal? text with
        | none => simp [hd] at hv
        | some x => simp [tokenAtom, hd, Atom.phrases, hn, Token.unplaced]

/-! ## Atoms that can be restored -/

theorem restorable_tokenAtom {table : Table} {inOpen : Bool} {t : Token} (h : t.Sound)
    (hs : (Phrase.token t).isSettled = true) : (tokenAtom table t).Restorable table inOpen := by
  obtain ⟨hp, ha⟩ : (tokenAtom table t).phrases = [.token t.listed] ∧ _ := tokenAtom_listed h hs
  refine ⟨?_, ?_, fun before => ?_⟩
  · rw [hp]
    intro p hp
    rw [List.mem_singleton.1 hp]
    refine ⟨trivial, ?_⟩
    rw [Phrase.isSettled, h.kind_listed]
    exact hs
  · rw [hp]
    intro p hp u hu
    rw [List.mem_singleton.1 hp] at hu
    rw [List.mem_singleton.1 hu]
    exact h.listed
  · rw [hp]
    show before ++ [.atom Column.none (tokenAtom table t.listed)] = _
    rw [ha]

theorem isReadable_ofNat (n : Nat) : (⟨.integer, Text.ofNat n, Column.none⟩ : Token).isReadable = true := by
  have hdigits := Text.isDigit_ofNat n
  have hkind : numberKind (Text.ofNat n) = .integer :=
    numberKind_eq_integer.2 (fun hm => absurd (hdigits _ hm) (by decide))
  have hne := Text.ofNat_ne_nil n
  refine isReadable_iff.2 ?_
  rw [show (⟨.integer, Text.ofNat n, Column.none⟩ : Token).source = Text.ofNat n from rfl]
  cases ht : Text.ofNat n with
  | nil => exact absurd ht hne
  | cons c cs =>
    rw [ht] at hdigits hkind
    have hc : c.isDigit = true := hdigits c List.mem_cons_self
    have hq : c ≠ '"' := by rintro rfl; exact absurd hc (by decide)
    have hg : isGap c = false := by
      rw [isGap, Bool.or_eq_false_iff, beq_eq_false_iff_ne, beq_eq_false_iff_ne]
      exact ⟨by rintro rfl; exact absurd hc (by decide), by rintro rfl; exact absurd hc (by decide)⟩
    have hrun : (c :: cs).takeWhile isNumeric = c :: cs := by
      have hall : ∀ x ∈ c :: cs, isNumeric x = true := fun x hx => by rw [isNumeric, hdigits x hx]; rfl
      rw [← List.append_nil (c :: cs), List.takeWhile_append_of_pos hall, List.takeWhile_nil]
    refine ⟨c, cs, rfl, hg, fun h => absurd h hq, ?_⟩
    rw [lexeme_eq_number hq (by rw [hc]; rfl), numberLexeme, hrun, hkind]
    rfl

theorem restorable_handle {table : Table} {inOpen : Bool} {u : Token} {n : Nat} (h : Phrase.handle? u = some n) :
    (Atom.handle n).Restorable table inOpen := by
  have hn := (Phrase.handle?_eq_some h).2.2
  refine ⟨fun p hp => ?_, fun p hp t ht => ?_, fun before => rfl⟩
  · rw [List.mem_singleton.1 hp]
    refine ⟨⟨rfl, ?_⟩, rfl⟩
    simp [Phrase.handle?, Text.decimal?_ofNat, hn]
  · rw [List.mem_singleton.1 hp] at ht
    rcases List.mem_cons.1 ht with rfl | ht
    · exact ⟨by decide +kernel, Kind.noConfusion, Kind.noConfusion⟩
    · rw [List.mem_singleton.1 ht]
      exact ⟨isReadable_ofNat n, Kind.noConfusion, Kind.noConfusion⟩

theorem formed_modePhrase (m : FileMode) : m.phrase.Formed true := by
  refine ⟨rfl, rfl, ?_⟩
  exact FileMode.ofWord?_word m

theorem formed_accessPhrase (a : FileAccess) : a.phrase.Formed true := by
  cases a with
  | read => exact ⟨rfl, rfl, .inl ⟨rfl, rfl⟩⟩
  | write => exact ⟨rfl, rfl, .inr ⟨rfl, rfl⟩⟩
  | readWrite => exact ⟨rfl, rfl, rfl, rfl, rfl⟩

theorem grant?_append_mode (a : FileAccess) (stop : Nat) (c : Column) (m : FileMode) (x : Option FileAccess)
    (es : List Expression) : grant? a stop (es ++ [.atom c (.mode m x)]) =
      some (es ++ [.atom ⟨c.start, stop⟩ (.mode m (some a))]) := by
  induction es with
  | nil => rfl
  | cons e es ih =>
    rw [List.cons_append]
    unfold grant?
    rw [ih]
    rfl

theorem restorable_mode (table : Table) (m : FileMode) (x : Option FileAccess) :
    (Atom.mode m x).Restorable table true := by
  have hread : ∀ t ∈ m.phrase.tokens, t.Sound := by
    intro t ht
    rcases List.mem_cons.1 ht with rfl | ht
    · exact Keyword.sound_token _
    · rw [List.mem_singleton.1 ht]
      exact Keyword.sound_token _
  cases x with
  | none =>
    refine ⟨fun p hp => ?_, fun p hp => ?_, fun before => rfl⟩
    · rw [List.mem_singleton.1 hp]
      exact ⟨formed_modePhrase m, rfl⟩
    · rw [List.mem_singleton.1 hp]
      exact hread
  | some a =>
    have ha : ∀ t ∈ a.phrase.tokens, t.Sound := by
      intro t ht
      obtain ⟨k, rfl⟩ : ∃ k : Keyword, t = k.token := by
        cases a <;> simp [FileAccess.phrase, Phrase.tokens] at ht
        · exact ht.elim (fun h => ⟨_, h⟩) (fun h => ⟨_, h⟩)
        · exact ht.elim (fun h => ⟨_, h⟩) (fun h => ⟨_, h⟩)
        · exact ht.elim (fun h => ⟨_, h⟩) (fun h => h.elim (fun h => ⟨_, h⟩) (fun h => ⟨_, h⟩))
      exact Keyword.sound_token k
    refine ⟨fun p hp => ?_, fun p hp => ?_, fun before => ?_⟩
    · rcases List.mem_cons.1 hp with rfl | hp
      · exact ⟨formed_modePhrase m, rfl⟩
      · rw [List.mem_singleton.1 hp]
        exact ⟨formed_accessPhrase a, by cases a <;> rfl⟩
    · rcases List.mem_cons.1 hp with rfl | hp
      · exact hread
      · rw [List.mem_singleton.1 hp]
        exact ha
    · have hpiece : (phrasePiece table a.phrase).unplaced = .access (Keyword.word .access).token a 0 := by cases a <;> rfl
      have hmode : (phrasePiece table m.phrase).unplaced = .expression (.atom Column.none (.mode m none)) := rfl
      simp only [Atom.phrases, List.map_cons, List.map_nil, hpiece, hmode, List.foldl_cons, List.foldl_nil, settle,
        grant?_append_mode, Option.getD_some]
      rfl

/-! ## Expressions that can be restored -/

/-- A piece that leaves the expressions before it restorable, and is restorable itself if it is an expression. -/
def Piece.Restorable (limit : Limit) (table : Table) (inOpen : Bool) (depth : Nat) : Piece → Prop
  | .expression e => Expression.Restorable limit table inOpen depth e
  | .access _ _ _ => inOpen = true

section
variable {limit : Limit} {table : Table} {inOpen : Bool} {depth : Nat}

theorem restorable_mode_atom (hi : inOpen = true) (c : Column) (m : FileMode) (x : Option FileAccess) :
    Restorable limit table inOpen depth (.atom c (.mode m x)) := by
  rw [hi]
  refine .atom (restorable_mode table m x) (fun _ p hp => ?_)
  cases x with
  | none =>
    rw [List.mem_singleton.1 hp]
    exact Kind.noConfusion
  | some a =>
    rcases List.mem_cons.1 hp with rfl | hp
    · exact Kind.noConfusion
    · rw [List.mem_singleton.1 hp]
      cases a <;> exact Kind.noConfusion

theorem restorable_grant? (hi : inOpen = true) {a : FileAccess} {stop : Nat} : ∀ {es granted : List Expression},
    (∀ e ∈ es, Restorable limit table inOpen depth e) → grant? a stop es = some granted →
      ∀ e ∈ granted, Restorable limit table inOpen depth e
  | [], _, _, hg => by cases hg
  | x :: xs, granted, h, hg => by
    have hxs := fun e he => h e (List.mem_cons_of_mem x he)
    unfold grant? at hg
    cases hr : grant? a stop xs with
    | some rest =>
      rw [hr] at hg
      cases hg
      intro e he
      rcases List.mem_cons.1 he with rfl | he
      · exact h e List.mem_cons_self
      · exact restorable_grant? hi hxs hr e he
    | none =>
      rw [hr] at hg
      simp only at hg
      split at hg
      · cases hg
        intro e he
        rcases List.mem_cons.1 he with rfl | he
        · exact restorable_mode_atom hi _ _ _
        · exact hxs e he
      · cases hg

theorem restorable_settle {es : List Expression} {p : Piece} (h : ∀ e ∈ es, Restorable limit table inOpen depth e)
    (hp : p.Restorable limit table inOpen depth) : ∀ e ∈ settle es p, Restorable limit table inOpen depth e := by
  have hadd : ∀ x, Restorable limit table inOpen depth x → ∀ e ∈ es ++ [x], Restorable limit table inOpen depth e := by
    intro x hx e he
    rcases List.mem_append.1 he with he | he
    · exact h e he
    · rw [List.mem_singleton.1 he]
      exact hx
  cases p with
  | expression x => exact hadd x hp
  | access word a stop =>
    rw [settle]
    cases hg : grant? a stop es with
    | some granted => exact restorable_grant? hp h hg
    | none =>
      have hatom : (Atom.keyword (.word .access)).Restorable table inOpen :=
        restorable_tokenAtom (t := (Keyword.word .access).token) (Keyword.sound_token _) rfl
      refine hadd _ (.atom hatom (fun _ p hp => ?_))
      rw [List.mem_singleton.1 hp]
      exact Kind.noConfusion

theorem restorable_foldl_settle : ∀ {ps : List Piece} {es : List Expression},
    (∀ e ∈ es, Restorable limit table inOpen depth e) → (∀ p ∈ ps, p.Restorable limit table inOpen depth) →
      ∀ e ∈ ps.foldl settle es, Restorable limit table inOpen depth e
  | [], _, h, _ => h
  | p :: ps, es, h, hp => by
    rw [List.foldl_cons]
    exact restorable_foldl_settle (restorable_settle h (hp p List.mem_cons_self))
      (fun q hq => hp q (List.mem_cons_of_mem p hq))

end

theorem cutArguments_ne_nil (es : List Expression) : cutArguments es ≠ [] := by
  cases es with
  | nil => simp [cutArguments]
  | cons e es =>
    rw [cutArguments]
    split
    · simp
    · split <;> simp

theorem mem_cutArguments : ∀ {es a : List Expression}, a ∈ cutArguments es → ∀ e ∈ a, e ∈ es ∧ e.isSeparator = false
  | [], a, ha, e, he => by
    rw [cutArguments, List.mem_singleton] at ha
    rw [ha] at he
    cases he
  | x :: xs, a, ha, e, he => by
    rw [cutArguments] at ha
    split at ha
    · rcases List.mem_cons.1 ha with rfl | ha
      · cases he
      · exact (mem_cutArguments ha e he).imp_left (List.mem_cons_of_mem x)
    · rename_i hx
      have hx : x.isSeparator = false := by simpa using hx
      cases hc : cutArguments xs with
      | nil => exact absurd hc (cutArguments_ne_nil xs)
      | cons b bs =>
        rw [hc] at ha
        rcases List.mem_cons.1 ha with rfl | ha
        · rcases List.mem_cons.1 he with rfl | he
          · exact ⟨List.mem_cons_self, hx⟩
          · exact (mem_cutArguments (hc ▸ List.mem_cons_self) e he).imp_left (List.mem_cons_of_mem x)
        · exact (mem_cutArguments (hc ▸ List.mem_cons_of_mem b ha) e he).imp_left (List.mem_cons_of_mem x)

theorem mem_argumentsOf {es a : List Expression} (ha : a ∈ argumentsOf es) : ∀ e ∈ a, e ∈ es ∧ e.isSeparator = false := by
  unfold argumentsOf at ha
  split at ha
  · cases ha
  · exact mem_cutArguments ha

/-- A group does not have one argument that is empty: it would have none. -/
theorem argumentsOf_ne (es : List Expression) : argumentsOf es ≠ [[]] := by
  cases es with
  | nil => simp [argumentsOf]
  | cons e es =>
    intro h
    have h : cutArguments (e :: es) = [[]] := h
    rw [cutArguments] at h
    split at h
    · exact cutArguments_ne_nil es (List.cons.inj h).2
    · split at h <;> simp at h

theorem restorable_nestPieces {limit : Limit} {table : Table} {inOpen : Bool} {depth : Nat} {ns : List Nest}
    (h : ∀ n ∈ ns, (nestPiece limit table depth n).Restorable limit table inOpen depth) :
    ∀ e ∈ (nestPieces limit table depth ns).foldl settle [], Restorable limit table inOpen depth e := by
  refine restorable_foldl_settle (fun e he => absurd he List.not_mem_nil) (fun p hp => ?_)
  rw [nestPieces_eq_map] at hp
  obtain ⟨n, hn, rfl⟩ := List.mem_map.1 hp
  exact h n hn

theorem restorable_nestPiece {limit : Limit} {table : Table} {inOpen : Bool} {depth : Nat} {n : Nest}
    (h : Nest.Whole limit inOpen depth n) : (∀ t ∈ n.tokens, t.Sound) →
      (depth = 0 → ∀ p, n = .leaf p → p.first.kind ≠ .colon) →
      (nestPiece limit table depth n).Restorable limit table inOpen depth := by
  induction h with
  | @leaf depth p hp hs =>
    intro ht hcolon
    cases p with
    | token t =>
      have hsound : t.Sound := ht t List.mem_cons_self
      have hphrases : (tokenAtom table t).phrases = [.token t.listed] := (tokenAtom_listed hsound hs).1
      refine .atom (restorable_tokenAtom hsound hs) (fun hd p hp => ?_)
      rw [hphrases, List.mem_singleton] at hp
      rw [hp]
      exact fun he => hcolon hd _ rfl (hsound.kind_listed.symm.trans he)
    | handle t u n =>
      refine .atom (restorable_handle hp.2) (fun _ p hp => ?_)
      rw [List.mem_singleton.1 hp]
      exact Kind.noConfusion
    | mode t u m => exact restorable_mode_atom hp.1 _ _ _
    | access t u more a =>
      cases more with
      | none => exact hp.1
      | some v => exact hp.1
  | @group depth b o t body ho hc hdeep hbody ih =>
    intro ht _
    have hitems : ∀ e ∈ (nestPieces limit table (depth + 1) body).foldl settle [],
        Restorable limit table inOpen (depth + 1) e :=
      restorable_nestPieces (fun n hn => ih n hn (fun u hu => ht u (Nest.mem_tokens_group hn hu))
        (fun hd => absurd hd (Nat.succ_ne_zero depth)))
    rw [nestPiece, hdeep, if_neg (by simp)]
    exact .group hdeep (argumentsOf_ne _) (fun a ha e he => (mem_argumentsOf ha e he).2)
      (fun a ha e he => hitems e (mem_argumentsOf ha e he).1)

/-- **Sound tokens in nests with which nothing is wrong make expressions that a listing gives back**, unless a colon stands
outside all groups. -/
theorem restorable_ofNests {limit : Limit} {table : Table} {inOpen : Bool} {ns : List Nest}
    (h : ∀ n ∈ ns, Nest.Whole limit inOpen 0 n) (ht : ∀ t ∈ Nest.tokensOf ns, t.Sound)
    (hcolon : ∀ p, Nest.leaf p ∈ ns → p.first.kind ≠ .colon) :
    ∀ e ∈ ofNests limit table ns, Restorable limit table inOpen 0 e :=
  restorable_nestPieces (fun n hn => restorable_nestPiece (h n hn) (fun t hm => ht t (Nest.mem_tokensOf hn hm))
    (fun _ p hp => hcolon p (hp ▸ hn)))

end Expression
end BlockBasic
