import BlockBasic.Proofs.Reported
import BlockBasic.Proofs.Standing
/-!
# Numbers — what becomes of the digits of a line

An integer token of a line is a run of decimal digits, of any length and with any zeros in front, and `Token.value` is the
number they are.  The number decides what they become: a literal that is an integer up to the largest one of sixty-three
bits and a float beyond it, or, right after a `#`, a handle up to the largest one of thirty-two bits; beyond that the `#`
stands alone, and the digits are a literal after all (`numbers_at_their_bounds`).
-/
namespace BlockBasic

open Expression (Stands tokenAtom malformedOf phrasePiece)

/-! ## Digits -/

namespace Token

def value (t : Token) : Nat := Nat.ofDigitChars 10 t.text 0

def numeral (t : Token) : Atom :=
  .literal (if t.value ≤ Nat.pow 2 63 - 1 then .integer t.value else .float (Double.ofRatio t.value 1)) t.text

theorem isFirm_numeral (t : Token) (c : Column) : (Expression.atom c t.numeral).isFirm = true := by
  rw [numeral]
  split <;> rfl

variable {t : Token}

theorem Lexed.digits (h : t.Lexed) (hk : t.kind = .integer) : t.text ≠ [] ∧ ∀ c ∈ t.text, c.isDigit = true := by
  obtain ⟨c, cs, hform⟩ := h.form
  obtain ⟨hkind, hnumeric, hne, -⟩ := hform.number_of_kind (.inl hk)
  exact ⟨hne, Lexer.isDigit_of_numeric hnumeric (Lexer.numberKind_eq_integer.1 (hkind.symm.trans hk))⟩

theorem Lexed.decimal? (h : t.Lexed) (hk : t.kind = .integer) : t.text.decimal? = some t.value :=
  Text.decimal?_of_digits (h.digits hk).1 (h.digits hk).2

theorem Lexed.tokenAtom_integer (h : t.Lexed) (hk : t.kind = .integer) (table : Table) :
    tokenAtom table t = t.numeral := by
  rw [tokenAtom, hk]
  simp only [Literal.ofDigits?, h.decimal? hk]
  rfl

theorem tokenAtom_hash (hk : t.kind = .hash) (table : Table) : tokenAtom table t = .malformed ['#'] := by
  rw [tokenAtom, hk]

theorem Lexed.handle? (h : t.Lexed) (hk : t.kind = .integer) :
    Phrase.handle? t = if t.value ≤ Nat.pow 2 32 - 1 then some t.value else none := by
  rw [Phrase.handle?, if_pos hk, h.decimal? hk, Option.filter_some]
  simp only [decide_eq_true_eq]
  rfl

end Token

/-! ## Phrases -/

namespace Phrase

variable {inOpen : Bool} {h t u : Token} {p : Phrase}

theorem starting_integer (hk : t.kind = .integer) (rest : List Token) : starting inOpen t rest = .token t := by
  rw [starting, hk]

theorem phrases_integer (hk : t.kind = .integer) (rest : List Token) :
    phrases inOpen (t :: rest) = .token t :: phrases inOpen rest := by
  rw [phrases, scan_cons, starting_integer hk]
  rfl

/-- **A `#` takes the number after it, or stands alone** and leaves the number. -/
theorem phrases_hash (hh : h.kind = .hash) (hk : t.kind = .integer) (ht : t.Lexed) (rest : List Token) :
    phrases inOpen (h :: t :: rest) =
      if t.value ≤ Nat.pow 2 32 - 1 then .handle h t t.value :: phrases inOpen rest
      else .token h :: .token t :: phrases inOpen rest := by
  have hstarting : starting inOpen h (t :: rest) = ofHash h (t :: rest) := by rw [starting, hh]
  rw [phrases, scan_cons, hstarting, ofHash, ht.handle? hk]
  by_cases hv : t.value ≤ Nat.pow 2 32 - 1
  · rw [if_pos hv, if_pos hv]
    rfl
  · rw [if_neg hv, if_neg hv, ← phrases_integer hk]
    rfl

theorem kind_last_of_joins (hk : u.kind = .integer) (hj : p.joins inOpen u = true) : p.last.kind = .hash := by
  have hword : u.word? = none := by rw [Token.word?, hk]
  cases p with
  | token t =>
    simp only [joins, hword] at hj
    split at hj <;> simp_all [last]
  | handle | mode => cases hj
  | access t v more a => cases more <;> cases a <;> simp [joins, hword] at hj

theorem joins_hash (hk : u.kind = .hash) : p.joins inOpen u = false := by
  have hword : u.word? = none := by rw [Token.word?, hk]
  cases p with
  | token t =>
    simp only [joins, hword]
    split <;> simp [handle?, hk]
  | handle | mode     => rfl
  | access t v more a => cases more <;> cases a <;> simp [joins, hword]

end Phrase

/-! ## The tokens before a number -/

namespace Run

variable {index number : Nat} {before after : List Token} {h t : Token}

theorem operands_append (hk : Keyword.ofKind? t.kind = none) : (⟨index, number, before ++ t :: after⟩ : Run).operands =
    (⟨index, number, before⟩ : Run).operands ++ t :: after := by
  cases before with
  | nil =>
    rw [operands_of_keyword?_eq_none (by simp [keyword?, hk])]
    rfl
  | cons u us => cases hu : Keyword.ofKind? u.kind <;> simp [operands, keyword?, hu]

def operandPhrases (r : Run) : List Phrase := phrases r.isOpen r.operands

/-- **The phrases before a token that is no keyword are those of the run up to it**, if none of them takes the token. -/
theorem operandPhrases_append (hk : Keyword.ofKind? t.kind = none)
    (hj : ∀ (inOpen : Bool) (p : Phrase), p.last ∈ before.getLast? → p.joins inOpen t = false) :
    (⟨index, number, before ++ t :: after⟩ : Run).operandPhrases = (⟨index, number, before⟩ : Run).operandPhrases ++
      phrases (⟨index, number, before ++ t :: after⟩ : Run).isOpen (t :: after) := by
  have hlast : ∀ u ∈ (⟨index, number, before⟩ : Run).operands.getLast?, u ∈ before.getLast? := by
    intro u hu
    rw [operands] at hu
    split at hu
    · cases before with
      | nil       => cases hu
      | cons v vs =>
        obtain ⟨init, hvs⟩ := List.getLast?_eq_some_iff.1 hu
        exact List.getLast?_eq_some_iff.2 ⟨v :: init, congrArg (v :: ·) hvs⟩
    · exact hu
  rw [operandPhrases, operands_append hk, Phrase.phrases_append fun p hp => hj _ p (hlast _ hp)]
  congr 1
  -- Whether a run is an `OPEN` statement is told by its first token.
  cases before <;> rfl

def openGroups (r : Run) : Nat := Nest.openGroups nestingLimit r.operandPhrases

section

variable (index number : Nat) (before after : List Token)

theorem operandPhrases_number (hk : t.kind = .integer) (hno : ∀ h ∈ before.getLast?, h.kind ≠ .hash) :
    ∃ qs, (⟨index, number, before ++ t :: after⟩ : Run).operandPhrases =
      (⟨index, number, before⟩ : Run).operandPhrases ++ [.token t] ++ qs := by
  rw [operandPhrases_append (by rw [hk]; rfl) fun inOpen p hp => ?_, Phrase.phrases_integer hk]
  · exact ⟨_, List.append_cons ..⟩
  · exact Bool.eq_false_iff.2 fun hj => hno _ hp (Phrase.kind_last_of_joins hk hj)

theorem operandPhrases_hash (hh : h.kind = .hash) (hk : t.kind = .integer) (ht : t.Lexed) :
    ∃ qs, (⟨index, number, before ++ [h] ++ t :: after⟩ : Run).operandPhrases =
      (⟨index, number, before⟩ : Run).operandPhrases ++
        (if t.value ≤ Nat.pow 2 32 - 1 then [.handle h t t.value] else [.token h, .token t]) ++ qs := by
  rw [List.append_assoc, List.singleton_append, operandPhrases_append (by rw [hh]; rfl) fun _ _ _ => Phrase.joins_hash hh,
    Phrase.phrases_hash hh hk ht]
  split
  · exact ⟨_, List.append_cons ..⟩
  · exact ⟨_, by rw [List.append_assoc]; rfl⟩

end

theorem openGroups_hash (hh : h.kind = .hash) : (⟨index, number, before ++ [h]⟩ : Run).openGroups =
    Nest.openGroups nestingLimit (⟨index, number, before⟩ : Run).operandPhrases := by
  have hone : ∀ inOpen, phrases inOpen [h] = [.token h] := fun inOpen => by
    simp [phrases, Phrase.scan, Phrase.starting, hh, Phrase.ofHash]
  rw [openGroups, operandPhrases_append (by rw [hh]; rfl) fun _ _ _ => Phrase.joins_hash hh, hone, Nest.openGroups,
    List.foldl_append, List.foldl_cons, List.foldl_nil, Nest.Pairing.step_other (by rw [Phrase.first, hh]; rfl)]
  rfl

/-! ## What a number becomes in a statement -/

variable {table : Table}

theorem stands_number (hk : t.kind = .integer) (ht : t.Lexed) (hno : ∀ h ∈ before.getLast?, h.kind ≠ .hash)
    (hdepth : (⟨index, number, before⟩ : Run).openGroups ≤ maxNesting) :
    Stands [.atom t.column t.numeral] ((⟨index, number, before ++ t :: after⟩ : Run).statement table).expressions := by
  obtain ⟨qs, hphrases⟩ := operandPhrases_number index number before after hk hno
  refine stands hphrases (by simp [Phrase.first, hk, Kind.isBracket]) (Limit.allows_some.2 hdepth) ?_
    (List.forall_mem_singleton.2 (t.isFirm_numeral t.column)) (List.cons_ne_nil _ _)
  simp [phrasePiece, ht.tokenAtom_integer hk]

/-- **A number after a `#`** is in its handle, or after it as it is. -/
theorem stands_hash (hh : h.kind = .hash) (hk : t.kind = .integer) (ht : t.Lexed)
    (hdepth : (⟨index, number, before ++ [h]⟩ : Run).openGroups ≤ maxNesting) :
    let r : Run := ⟨index, number, before ++ [h] ++ t :: after⟩
    if t.value ≤ Nat.pow 2 32 - 1 then
      Stands [.atom ⟨h.column.start, t.column.stop⟩ (.handle t.value)] (r.statement table).expressions
    else Stands [.atom h.column (.malformed ['#']), .atom t.column t.numeral] (r.statement table).expressions ∧
      Fault.badHandle.located number h.column ∈ r.diagnostics := by
  obtain ⟨qs, hphrases⟩ := operandPhrases_hash index number before after hh hk ht
  rw [openGroups_hash hh] at hdepth
  have hallows := Limit.allows_some.2 hdepth
  intro r
  split at hphrases
  · rename_i hv
    rw [if_pos hv]
    exact stands hphrases (by simp [Phrase.first, hh, Kind.isBracket]) hallows rfl (List.forall_mem_singleton.2 rfl)
      (List.cons_ne_nil _ _)
  · rename_i hv
    have hplain : ∀ p ∈ [Phrase.token h, .token t], p.first.kind.isBracket = false := by
      simp [Phrase.first, hh, hk, Kind.isBracket]
    rw [if_neg hv]
    refine ⟨stands hphrases hplain hallows ?_ ?_ (List.cons_ne_nil _ _), ?_⟩
    · simp [phrasePiece, ht.tokenAtom_integer hk, Token.tokenAtom_hash hh]
    · exact List.forall_mem_cons.2 ⟨rfl, List.forall_mem_singleton.2 (t.isFirm_numeral t.column)⟩
    · exact reported hphrases hplain hallows (p := .token h) List.mem_cons_self
        (f := (h.column, .badHandle)) (by simp [Nest.phraseFaults, hh])

/-- **A number too deep to be built** is in the text of a group. -/
theorem number_passed_over (hk : t.kind = .integer) (hlexed : ∀ u ∈ before ++ t :: after, u.Lexed)
    (horder : Column.InOrder (Token.columns (before ++ t :: after)))
    (hdepth : maxNesting < (⟨index, number, before⟩ : Run).openGroups) :
    let r : Run := ⟨index, number, before ++ t :: after⟩
    ∃ x ∈ malformedOf (r.statement table).expressions, x.1.holds t = true ∧
      ∃ c, c.start = x.1.start ∧ (Fault.tooDeep maxNesting).located number c ∈ r.diagnostics := by
  intro r
  by_cases hhash : ∃ h ∈ before.getLast?, h.kind = .hash
  · obtain ⟨h, hlast, hh⟩ := hhash
    obtain ⟨init, rfl⟩ := List.getLast?_eq_some_iff.1 hlast
    have ht : t.Lexed := hlexed t (List.mem_append_right _ List.mem_cons_self)
    obtain ⟨qs, hphrases⟩ := operandPhrases_hash index number init after hh hk ht
    rw [openGroups_hash hh] at hdepth
    have hdeep := fun hallows => Nat.not_le_of_lt hdepth (Limit.allows_some.1 hallows)
    split at hphrases
    · exact passed_over hphrases (by simp [Phrase.first, hh, Kind.isBracket]) hdeep hlexed horder
        List.mem_cons_self (List.mem_cons_of_mem h List.mem_cons_self)
    · exact passed_over hphrases (by simp [Phrase.first, hh, hk, Kind.isBracket]) hdeep hlexed horder
        (List.mem_cons_of_mem _ List.mem_cons_self) (List.mem_singleton_self t)
  · obtain ⟨qs, hphrases⟩ := operandPhrases_number index number before after hk
      fun h hlast hh => hhash ⟨h, hlast, hh⟩
    exact passed_over hphrases (by simp [Phrase.first, hk, Kind.isBracket])
      (fun hallows => Nat.not_le_of_lt hdepth (Limit.allows_some.1 hallows)) hlexed horder
      List.mem_cons_self (List.mem_singleton_self t)

end Run

/-! ## The reader at a number -/

namespace Descent

/-- **That a reader takes one expression** from the front of the tokens `ts`, wherever it is: it puts down `e`, notes that
the last token stops at `stop`, finds the faults, and goes on with `rest`. -/
def Takes (table : Table) (ts : List Token) (e : Expression) (stop : Nat) (faults : List (Column × Fault))
    (rest : List Token) : Prop :=
  ∀ (limit : Limit) (inOpen : Bool) (closing? : Option Bracket) (items : List Expression) (s : Reader),
    reading limit table closing? items s (phrases inOpen ts) =
      reading limit table closing? (items ++ [e]) ⟨s.depth, stop, s.faults ++ faults⟩ (phrases inOpen rest)

variable {table : Table} {h t : Token} {rest : List Token}

theorem takes_leaf {limit : Limit} {closing? : Option Bracket} {items : List Expression} {s : Reader} {p : Phrase}
    {ps : List Phrase} {e : Expression} (hp : p.first.kind.isBracket = false) (he : phrasePiece table p = .expression e) :
    reading limit table closing? items s (p :: ps) =
      reading limit table closing? (items ++ [e]) ⟨s.depth, p.last.column.stop, s.faults ++ Nest.phraseFaults p⟩ ps := by
  rw [reading_leaf (Kind.ne_opener hp) (fun b hb => by rw [hb] at hp; cases hp), he]
  rfl

theorem takes_number (ht : t.Lexed) (hk : t.kind = .integer) :
    Takes table (t :: rest) (.atom t.column t.numeral) t.column.stop [] rest := by
  intro limit inOpen closing? items s
  rw [Phrase.phrases_integer hk, takes_leaf (p := .token t) (by simp [Phrase.first, hk, Kind.isBracket]) rfl]
  simp [Nest.phraseFaults, hk, ht.tokenAtom_integer hk, Phrase.last]

theorem takes_hash (hh : h.kind = .hash) (ht : t.Lexed) (hk : t.kind = .integer) :
    if t.value ≤ Nat.pow 2 32 - 1 then
      Takes table (h :: t :: rest) (.atom ⟨h.column.start, t.column.stop⟩ (.handle t.value)) t.column.stop [] rest
    else Takes table (h :: t :: rest) (.atom h.column (.malformed ['#'])) h.column.stop [(h.column, .badHandle)]
      (t :: rest) := by
  split
  · rename_i hv
    intro limit inOpen closing? items s
    rw [Phrase.phrases_hash hh hk ht, if_pos hv,
      takes_leaf (p := .handle h t t.value) (by simp [Phrase.first, hh, Kind.isBracket]) rfl]
    rfl
  · rename_i hv
    intro limit inOpen closing? items s
    rw [Phrase.phrases_hash hh hk ht, if_neg hv,
      takes_leaf (p := .token h) (by simp [Phrase.first, hh, Kind.isBracket]) rfl, Phrase.phrases_integer hk]
    simp [Nest.phraseFaults, hh, Token.tokenAtom_hash hh, Phrase.last]

end Descent

/-! ## The bounds -/

/-- **Numbers are read exactly up to their bounds**, however many digits they have.

- An integer token of a line is a run of digits, and nothing malformed begins where it does.
- Wherever a reader is, it makes the token a literal spelled as the token is: an integer of its value up to the largest one
  of sixty-three bits, and the nearest double beyond.  Right after a `#` it makes the two a handle of its value, up to the
  largest one of thirty-two bits; beyond that it makes the `#` malformed, reports it, and goes on at the token.
- So the literal or the handle stands in the statement if no more groups are open before it than are built.  Otherwise the
  token is in the text of a group that is reported as too deep. -/
theorem numbers_at_their_bounds {number : Nat} {source : Text} {tokens before after : List Token} {t : Token}
    (hrun : tokens ∈ (CodeLine.ofSource number source).runs) (hsplit : tokens = before ++ t :: after)
    (hk : t.kind = .integer) (index : Nat) (table : Table) :
    let r : Run := ⟨index, number, tokens⟩
    let es := (r.statement table).expressions
    let v := Nat.ofDigitChars 10 t.text 0
    let literal := Expression.atom t.column
      (.literal (if v ≤ Nat.pow 2 63 - 1 then .integer v else .float (Double.ofRatio v 1)) t.text)
    let depth := (⟨index, number, before⟩ : Run).openGroups
    (t.text ≠ [] ∧ ∀ c ∈ t.text, c.isDigit = true) ∧
    (∀ x ∈ malformedOf es, x.1.start ≠ t.column.start) ∧
    (∀ rest, Descent.Takes table (t :: rest) literal t.column.stop [] rest) ∧
    (∀ h rest, h.kind = .hash →
      if v ≤ Nat.pow 2 32 - 1 then
        Descent.Takes table (h :: t :: rest) (.atom ⟨h.column.start, t.column.stop⟩ (.handle v)) t.column.stop [] rest
      else Descent.Takes table (h :: t :: rest) (.atom h.column (.malformed ['#'])) h.column.stop [(h.column, .badHandle)]
        (t :: rest)) ∧
    (depth ≤ maxNesting →
      ((∀ h ∈ before.getLast?, h.kind ≠ .hash) → Stands [literal] es) ∧
      ∀ h ∈ before.getLast?, h.kind = .hash →
        if v ≤ Nat.pow 2 32 - 1 then Stands [.atom ⟨h.column.start, t.column.stop⟩ (.handle v)] es
        else Stands [.atom h.column (.malformed ['#']), literal] es ∧
          Fault.badHandle.located number h.column ∈ r.diagnostics) ∧
    (maxNesting < depth → ∃ x ∈ malformedOf es, x.1.holds t = true ∧
      ∃ c, c.start = x.1.start ∧ (Fault.tooDeep maxNesting).located number c ∈ r.diagnostics) := by
  subst hsplit
  intro r es v literal depth
  have hlexed : ∀ u ∈ r.tokens, u.Lexed := lexed_of_mem_runs hrun
  have horder := inOrder_of_mem_runs hrun
  have hmem : t ∈ before ++ t :: after := List.mem_append_right _ List.mem_cons_self
  have ht := hlexed t hmem
  refine ⟨ht.digits hk, ?_, fun rest => Descent.takes_number ht hk, fun h rest hh => Descent.takes_hash hh ht hk, ?_, ?_⟩
  · exact fun x hx => Run.malformed_not_at hlexed horder hmem (by rw [hk]; rfl) hx
  · refine fun hdepth => ⟨fun hno => Run.stands_number hk ht hno hdepth, fun h hlast hh => ?_⟩
    obtain ⟨init, rfl⟩ := List.getLast?_eq_some_iff.1 hlast
    exact Run.stands_hash hh hk ht hdepth
  · exact Run.number_passed_over hk hlexed horder

/-- In one line, a number one too large for a handle, for all its zeros, and one too large for an integer. -/
theorem numbers_at_their_bounds_in_group :
    let text := "F(#00004294967296, 9223372036854775808)".toList
    let r : Run := ⟨0, 1, tokenize text⟩
    let es := (r.statement Table.empty).expressions
    let file : Token := ⟨.integer, "00004294967296".toList, ⟨3, 17⟩⟩
    let size : Token := ⟨.integer, "9223372036854775808".toList, ⟨19, 38⟩⟩
    r.tokens ∈ (CodeLine.ofSource 1 text).runs ∧
    Stands [.atom ⟨2, 3⟩ (.malformed ['#']), .atom file.column (.literal (.integer 4294967296) file.text)] es ∧
    Fault.badHandle.located 1 ⟨2, 3⟩ ∈ r.diagnostics ∧
    Stands [.atom size.column (.literal (.float ⟨0x43E0000000000000⟩) size.text)] es := by
  intro text r es file size
  have hrun : r.tokens ∈ (CodeLine.ofSource 1 text).runs := by decide +kernel
  have hfile : r.tokens = [⟨.name, ['F'], ⟨0, 1⟩⟩, ⟨.opener .round, ['('], ⟨1, 2⟩⟩, ⟨.hash, ['#'], ⟨2, 3⟩⟩] ++
      file :: [⟨.separator, [','], ⟨17, 18⟩⟩, size, ⟨.closer .round, [')'], ⟨38, 39⟩⟩] := by decide +kernel
  have hsize : r.tokens = [⟨.name, ['F'], ⟨0, 1⟩⟩, ⟨.opener .round, ['('], ⟨1, 2⟩⟩, ⟨.hash, ['#'], ⟨2, 3⟩⟩, file,
      ⟨.separator, [','], ⟨17, 18⟩⟩] ++ size :: [⟨.closer .round, [')'], ⟨38, 39⟩⟩] := hfile
  have hvalue : Nat.ofDigitChars 10 file.text 0 = 4294967296 := by decide +kernel
  have hbeyond : Nat.ofDigitChars 10 size.text 0 = 9223372036854775808 := by decide +kernel
  have hdouble : Double.ofRatio 9223372036854775808 1 = ⟨0x43E0000000000000⟩ := by decide +kernel
  obtain ⟨-, -, -, -, hread, -⟩ := numbers_at_their_bounds hrun hfile rfl 0 Table.empty
  have hhash := (hread (by decide +kernel)).2 ⟨.hash, ['#'], ⟨2, 3⟩⟩ rfl rfl
  obtain ⟨-, -, -, -, hread, -⟩ := numbers_at_their_bounds hrun hsize rfl 0 Table.empty
  have hstands := (hread (by decide +kernel)).1 (by decide)
  clear_value file size
  rw [hvalue, if_neg (by decide), if_pos (by decide)] at hhash
  rw [hbeyond, if_neg (by decide), hdouble] at hstands
  exact ⟨hrun, hhash.1, hhash.2, hstands⟩

end BlockBasic
