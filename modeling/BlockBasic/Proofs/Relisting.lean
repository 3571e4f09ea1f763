import BlockBasic.Proofs.Dividers
import BlockBasic.Proofs.Effects
import BlockBasic.Proofs.ListedText
/-!
# Relisting — a statement listed and read again

The line that a listing gives to a statement is read as the statement's `words` (`read_text`).  The run of these words
makes the statement again, with nothing wrong with it (`statement_relisted`), on one condition: no phrase of the listing
takes the first word of the next one.  That can only happen where an access clause was moved to its mode
(`unjoined_of_no_access`).
-/
namespace BlockBasic

open Lexer
open Expression (Restorable nestsOf ofNests unplacedList)

def Statement.words (s : Statement) : List Token :=
  (s.keyword.map (fun k => k.2.token)).toList ++ Nest.tokensOf (nestsOf s.expressions)

/-- The run of the tokens that a listing writes. -/
def Statement.relisted (s : Statement) : Run := ⟨0, 0, s.words⟩

abbrev nestingLimit : Limit := some maxNesting

namespace Run

/-- **A run with which nothing is wrong.** -/
structure Clean (r : Run) : Prop where
  sound       : ∀ t ∈ r.tokens, t.Sound
  undivided   : CodeLine.undivided 0 r.tokens = true
  nonempty    : r.tokens ≠ []
  diagnostics : r.diagnostics = []

/-! ## The keyword of a run -/

theorem keyword?_eq_some {r : Run} {c : Column} {k : Keyword} (h : r.keyword? = some (c, k)) :
    ∃ t ts, r.tokens = t :: ts ∧ t.kind = k.kind ∧ r.operands = ts := by
  have hsome : r.keyword?.isSome = true := by rw [h]; rfl
  rw [keyword?] at h
  obtain ⟨t, ht, hk⟩ := Option.bind_eq_some_iff.1 h
  obtain ⟨k', hk', he⟩ := Option.map_eq_some_iff.1 hk
  obtain ⟨ts, hts⟩ := List.head?_eq_some_iff.1 ht
  cases he
  exact ⟨t, ts, hts, Keyword.eq_kind_of_ofKind? hk', by rw [operands, if_pos hsome, hts, List.drop_one, List.tail_cons]⟩

theorem operands_of_keyword?_eq_none {r : Run} (h : r.keyword? = none) : r.operands = r.tokens := by
  rw [operands, h]
  rfl

theorem keyword?_of_isOpen {r : Run} (h : r.isOpen = true) : ∃ c, r.keyword? = some (c, .word .open_) := by
  obtain ⟨index, number, ts⟩ := r
  cases ts with
  | nil => cases h
  | cons t ts =>
    have hw : t.word? = some .open_ := by simpa [isOpen, word?] using h
    have hk := Phrase.kind_of_word? hw
    exact ⟨t.column, by simp [keyword?, hk, Keyword.ofKind?]⟩

theorem isOpen_of_keyword?_eq_none {r : Run} (h : r.keyword? = none) : r.isOpen = false := by
  cases ho : r.isOpen with
  | false => rfl
  | true =>
    obtain ⟨c, hc⟩ := keyword?_of_isOpen ho
    rw [h] at hc
    cases hc

theorem isInner_keyword {t : Token} {k : Keyword} (h : t.kind = k.kind) : Nest.isInner t = true := by
  cases k <;> simp [Nest.isInner, h, Keyword.kind]

theorem undivided_operands {r : Run} (h : CodeLine.undivided 0 r.tokens = true) :
    CodeLine.undivided 0 r.operands = true := by
  cases hk : r.keyword? with
  | none =>
    rw [operands_of_keyword?_eq_none hk]
    exact h
  | some k =>
    obtain ⟨t, ts, hts, hkind, ho⟩ := keyword?_eq_some hk
    rw [hts, CodeLine.undivided, Nest.depthAfter_of_isInner (isInner_keyword hkind), Bool.and_eq_true] at h
    rw [ho]
    exact h.2

/-! ## What a clean run is made of -/

namespace Clean

variable {r : Run} {table : Table}

theorem flatOf_nests (r : Run) : Nest.flatOf (r.nests nestingLimit) = phrases r.isOpen r.operands :=
  Nest.flatOf_ofPhrases nestingLimit (Phrase.formed_phrases r.isOpen r.operands)

theorem whole_nests (hr : r.Clean) : ∀ n ∈ r.nests nestingLimit, Nest.Whole nestingLimit r.isOpen 0 n := by
  refine Nest.whole_of_faultsOf_eq_nil (Phrase.formed_phrases r.isOpen r.operands) ?_
  have h := hr.diagnostics
  rw [Run.diagnostics, diagnosticsWithin, List.map_eq_nil_iff] at h
  exact h

theorem sound_nests (hr : r.Clean) : ∀ t ∈ Nest.tokensOf (r.nests nestingLimit), t.Sound := by
  rw [tokensOf_nests]
  exact fun t ht => hr.sound t (mem_operands ht)

/-- **The expressions of a clean run can be restored**, before a file is named. -/
theorem restorable (hr : r.Clean) (table : Table) :
    ∀ e ∈ ofNests nestingLimit table (r.nests nestingLimit), Restorable nestingLimit table r.isOpen 0 e := by
  refine Expression.restorable_ofNests hr.whole_nests hr.sound_nests
    (Nest.ne_colon_of_undivided hr.whole_nests ?_)
  rw [tokensOf_nests]
  exact Run.undivided_operands hr.undivided

end Clean

theorem looksLike_expressions (table : Table) (r : Run) :
    Expression.sequenceText none (r.expressions nestingLimit table) =
      Expression.sequenceText none (ofNests nestingLimit table (r.nests nestingLimit)) ∧
    nestsOf (r.expressions nestingLimit table) = nestsOf (ofNests nestingLimit table (r.nests nestingLimit)) := by
  rw [expressions]
  split
  · exact ⟨(Expression.looksLike_nameFile _).1 none, (Expression.looksLike_nameFile _).2⟩
  · exact ⟨rfl, rfl⟩

theorem words_statement (table : Table) (r : Run) : (r.statement table).words =
    (r.keyword?.map (fun k => k.2.token)).toList ++
      Nest.tokensOf (nestsOf (ofNests nestingLimit table (r.nests nestingLimit))) := by
  rw [Statement.words, ← (looksLike_expressions table r).2]
  rfl

theorem Clean.read_text {r : Run} (hr : r.Clean) (table : Table) :
    read (r.statement table).text = (r.statement table).words := by
  have hoperands : read (r.statement table).operandsText =
      Nest.tokensOf (nestsOf (ofNests nestingLimit table (r.nests nestingLimit))) := by
    rw [Statement.operandsText]
    exact (congrArg read (looksLike_expressions table r).1).trans (Expression.read_sequenceText (hr.restorable table))
  have hkey : (r.statement table).keyword = r.keyword? := rfl
  rw [words_statement, Statement.text, hkey]
  cases r.keyword? with
  | none => exact hoperands
  | some k =>
    obtain ⟨c, k⟩ := k
    simp only [Option.map_some, Option.toList_some, List.singleton_append, ← hoperands]
    split
    · rename_i hnil
      have hk : read (k.spelling ++ []) = k.token :: read [] := Expression.read_keyword k rfl
      rw [hnil, ← hk, List.append_nil]
    · exact Expression.read_keyword_space k _

/-! ## Signs -/

theorem not_access_of_not_open {r : Run} (h : r.isOpen = false) : ∀ p ∈ phrases r.isOpen r.operands, p.isAccess = false := by
  intro p hp
  have hf := Phrase.formed_phrases r.isOpen r.operands p hp
  cases p with
  | access t u more a =>
    cases more with
    | none => exact absurd (hf.1.symm.trans h) (by simp)
    | some v => exact absurd (hf.1.symm.trans h) (by simp)
  | token | handle | mode => rfl

theorem Clean.listedSigns {r : Run} (hr : r.Clean) (table : Table)
    (ha : ∀ p ∈ phrases r.isOpen r.operands, p.isAccess = false) :
    Expression.listedSigns (ofNests nestingLimit table (r.nests nestingLimit)) =
      Phrase.signs (phrases r.isOpen r.operands) := by
  rw [← Clean.flatOf_nests] at ha ⊢
  exact Expression.signs_nestsOf_ofNests hr.whole_nests hr.sound_nests ha

/-- **Without an access clause a statement's words have the signs of its tokens.** -/
theorem Clean.sign_words {r : Run} (hr : r.Clean) (table : Table)
    (ha : ∀ p ∈ phrases r.isOpen r.operands, p.isAccess = false) :
    (r.statement table).words.map Token.sign = r.tokens.map Token.sign := by
  have hoperands : (Nest.tokensOf (nestsOf (ofNests nestingLimit table (r.nests nestingLimit)))).map Token.sign =
      r.operands.map Token.sign := by
    have h := congrArg (List.flatMap Phrase.tokens) (hr.listedSigns table ha)
    rw [Expression.listedSigns, Phrase.flatMap_tokens_signs, Nest.flatMap_tokens_flatOf, Phrase.flatMap_tokens_signs,
      Phrase.flatMap_tokens_phrases] at h
    exact h
  rw [words_statement, List.map_append, hoperands]
  cases hk : r.keyword? with
  | none =>
    rw [operands_of_keyword?_eq_none hk]
    rfl
  | some k =>
    obtain ⟨t, ts, hts, hkind, ho⟩ := keyword?_eq_some hk
    have hsign : k.2.token.sign = t.sign := by
      refine Token.sign_eq_of_kind hkind.symm ?_
      rw [hkind]
      cases k.2 <;> simp [Keyword.kind]
    rw [hts, ho]
    simp only [Option.map_some, Option.toList_some, List.map_cons, List.map_nil, List.singleton_append, hsign]

/-- **Without an access clause no phrase of a listing takes a word of the next.** -/
theorem Clean.unjoined_of_no_access {r : Run} (hr : r.Clean) (table : Table)
    (ha : ∀ p ∈ phrases r.isOpen r.operands, p.isAccess = false) :
    Phrase.unjoined r.isOpen (Nest.flatOf (nestsOf (r.expressions nestingLimit table))) = true := by
  have hwhole := Expression.whole_nestsOf (hr.restorable table)
  have hfirst : ∀ p ∈ phrases r.isOpen r.operands, p.isLoneHash = false := by
    rw [← Clean.flatOf_nests]
    exact Nest.not_loneHash_flatOf hr.whole_nests
  have hsigns := hr.listedSigns table ha
  rw [Expression.listedSigns] at hsigns
  rw [(looksLike_expressions table r).2, ← Phrase.unjoined_signs (Nest.not_loneHash_flatOf hwhole), hsigns,
    Phrase.unjoined_signs hfirst]
  exact Phrase.unjoined_phrases r.isOpen r.operands

/-! ## The run of the words -/

theorem Clean.keyword?_relisted {r : Run} (hr : r.Clean) (table : Table) :
    (r.statement table).relisted.keyword? = r.keyword?.map (fun k => (Column.none, k.2)) ∧
      (r.statement table).relisted.operands =
        Nest.tokensOf (nestsOf (ofNests nestingLimit table (r.nests nestingLimit))) := by
  have hwords := words_statement table r
  cases hk : r.keyword? with
  | some k =>
    obtain ⟨c, k⟩ := k
    rw [hk] at hwords
    simp only [Option.map_some, Option.toList_some, List.singleton_append] at hwords
    have hkey : (r.statement table).relisted.keyword? = some (Column.none, k) := by
      rw [keyword?, Statement.relisted, hwords, List.head?_cons, Option.bind_some]
      simp [Keyword.token, Keyword.ofKind?_kind]
    refine ⟨hkey, ?_⟩
    rw [operands, hkey, Statement.relisted, hwords]
    rfl
  | none =>
    rw [hk] at hwords
    simp only [Option.map_none, Option.toList_none, List.nil_append] at hwords
    have hsign := hr.sign_words table (not_access_of_not_open (isOpen_of_keyword?_eq_none hk))
    have hkey : (r.statement table).relisted.keyword? = none := by
      have hhead : (r.statement table).words.head?.map Token.sign = r.tokens.head?.map Token.sign := by
        rw [← List.head?_map, hsign, List.head?_map]
      rw [keyword?, Option.bind_eq_none_iff] at hk ⊢
      intro t ht
      rw [show (r.statement table).relisted.tokens = (r.statement table).words from rfl] at ht
      rw [ht, Option.map_some] at hhead
      obtain ⟨u, hu, hs⟩ := Option.map_eq_some_iff.1 hhead.symm
      have hkind : t.kind = u.kind := (congrArg Token.kind hs).symm
      have hno := hk u hu
      rw [Option.map_eq_none_iff] at hno ⊢
      rw [hkind]
      exact hno
    exact ⟨hkey, (operands_of_keyword?_eq_none hkey).trans hwords⟩

theorem isOpen_iff {r : Run} : r.isOpen = true ↔ r.keyword?.map Prod.snd = some (.word .open_) := by
  constructor
  · intro h
    obtain ⟨c, hc⟩ := keyword?_of_isOpen h
    rw [hc]
    rfl
  · intro h
    obtain ⟨⟨c, k⟩, hk, rfl⟩ := Option.map_eq_some_iff.1 h
    obtain ⟨t, ts, hts, hkind, -⟩ := keyword?_eq_some hk
    simp [isOpen, word?, hts, Token.word?, hkind, Keyword.kind]

theorem Clean.isOpen_relisted {r : Run} (hr : r.Clean) (table : Table) :
    (r.statement table).relisted.isOpen = r.isOpen := by
  rw [Bool.eq_iff_iff, isOpen_iff, isOpen_iff, (hr.keyword?_relisted table).1, Option.map_map]
  rfl

theorem Clean.nests_relisted {r : Run} (hr : r.Clean) {table : Table}
    (hu : Phrase.unjoined r.isOpen (Nest.flatOf (nestsOf (r.expressions nestingLimit table))) = true) :
    (r.statement table).relisted.nests nestingLimit = nestsOf (ofNests nestingLimit table (r.nests nestingLimit)) := by
  have hwhole := Expression.whole_nestsOf (hr.restorable table)
  rw [(looksLike_expressions table r).2] at hu
  rw [nests, hr.isOpen_relisted, (hr.keyword?_relisted table).2, ← Nest.flatMap_tokens_flatOf,
    Phrase.phrases_flatMap (Nest.formed_flatOf hwhole) hu, Nest.ofPhrases_flatOf hwhole]

end Run

/-! ## References -/

namespace Expression

open Table (SameKeys)

theorem tokenAtom_congr {t u : Table} (h : SameKeys t u) (x : Token) : tokenAtom t x = tokenAtom u x := by
  unfold tokenAtom
  rw [h x.text]

theorem phrasePiece_congr {t u : Table} (h : SameKeys t u) (p : Phrase) : phrasePiece t p = phrasePiece u p := by
  cases p with
  | token x => rw [phrasePiece, phrasePiece, tokenAtom_congr h]
  | handle | mode | access => rfl

mutual

theorem nestPiece_congr {t u : Table} (h : SameKeys t u) (limit : Limit) (depth : Nat) : ∀ (n : Nest),
    nestPiece limit t depth n = nestPiece limit u depth n
  | .leaf p => by rw [nestPiece, nestPiece, phrasePiece_congr h]
  | .group b o body c => by rw [nestPiece, nestPiece, nestPieces_congr h limit (depth + 1) body]

theorem nestPieces_congr {t u : Table} (h : SameKeys t u) (limit : Limit) (depth : Nat) : ∀ (ns : List Nest),
    nestPieces limit t depth ns = nestPieces limit u depth ns
  | [] => rfl
  | n :: ns => by rw [nestPieces, nestPieces, nestPiece_congr h limit depth n, nestPieces_congr h limit depth ns]

end

theorem ofNests_congr {t u : Table} (h : SameKeys t u) (limit : Limit) (ns : List Nest) :
    ofNests limit t ns = ofNests limit u ns := by
  rw [ofNests, ofNests, nestPieces_congr h]

end Expression

namespace Run

/-! ## The statement of the words -/

theorem Clean.diagnostics_relisted {r : Run} (hr : r.Clean) {table : Table}
    (hu : Phrase.unjoined r.isOpen (Nest.flatOf (nestsOf (r.expressions nestingLimit table))) = true) :
    (r.statement table).relisted.diagnostics = [] := by
  have hwhole := Expression.whole_nestsOf (hr.restorable table)
  rw [Run.diagnostics, diagnosticsWithin, hr.nests_relisted hu,
    Nest.faultsOf_eq_nil.2 (fun n hn => (hwhole n hn).faults_eq_nil)]
  rfl

/-- **The words of a clean run make its statement again**, if no phrase takes a word of the next. -/
theorem Clean.statement_relisted {r : Run} (hr : r.Clean) {t u : Table}
    (hu : Phrase.unjoined r.isOpen (Nest.flatOf (nestsOf (r.expressions nestingLimit t))) = true) (h : t.SameKeys u) :
    ((r.statement t).relisted.statement u).unplaced = (r.statement t).unplaced := by
  have hes : unplacedList (ofNests nestingLimit u ((r.statement t).relisted.nests nestingLimit)) =
      unplacedList (ofNests nestingLimit t (r.nests nestingLimit)) := by
    rw [hr.nests_relisted hu, ← Expression.ofNests_congr h, Expression.ofNests_nestsOf (hr.restorable t)]
  have hexpressions : unplacedList ((r.statement t).relisted.expressions nestingLimit u) =
      unplacedList (r.expressions nestingLimit t) := by
    rw [expressions, expressions, hr.isOpen_relisted]
    split
    · rw [← Expression.nameFile_unplaced, ← Expression.nameFile_unplaced, hes]
    · exact hes
  have hkey := (hr.keyword?_relisted t).1
  rw [Statement.unplaced, Statement.unplaced]
  simp only [statement, statementWithin] at hkey hexpressions ⊢
  rw [hkey, hexpressions, Option.map_map]
  rfl

theorem Clean.sound_words {r : Run} (hr : r.Clean) (table : Table) : ∀ t ∈ (r.statement table).words, t.Sound := by
  intro t ht
  rw [words_statement] at ht
  rcases List.mem_append.1 ht with ht | ht
  · obtain ⟨k, -, rfl⟩ := Option.map_eq_some_iff.1 (Option.mem_toList.1 ht)
    exact k.2.sound_token
  · exact Expression.sound_nestsOf (hr.restorable table) t ht

/-! ## The effect of the words -/

theorem effect_unplaced (r : Run) : r.unplaced.effect = r.effect := by
  refine effect_of_signs ?_
  rw [unplaced, List.map_map]
  rfl

/-- **The words of a clean run do to the blocks and the declarations what the run does.** -/
theorem Clean.effect_relisted {r : Run} (hr : r.Clean) (table : Table) :
    (r.statement table).relisted.effect = r.effect := by
  cases ho : r.isOpen with
  | false => exact effect_of_signs (hr.sign_words table (not_access_of_not_open ho))
  | true =>
    have hrelisted := (hr.isOpen_relisted table).trans ho
    rw [isOpen, beq_iff_eq] at ho hrelisted
    rw [effect_of_open ho, effect_of_open hrelisted]

end Run
end BlockBasic
