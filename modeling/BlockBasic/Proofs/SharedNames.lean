import BlockBasic.Proofs.BlockGrammar
import BlockBasic.Proofs.Relisting
import BlockBasic.Proofs.SeenNames
/-!
# SharedNames — a run declares the names that its statement shows

A run that declares begins with one of six kinds of tokens, and the first token decides how the others are read.  If the
brackets of the run are balanced, its statement is built of closed nests (`exists_nests`), so that the names that the
declaring pass reads are those that the expressions of the statement show.
-/
namespace BlockBasic

theorem CodeLine.isClassed {number : Nat} {text : Text} {t : Token} (h : t ∈ (ofSource number text).tokens) :
    t.IsClassed := by
  intro o ho
  refine Token.Sound.kind_eq_ofOperator_of_readable ((Lexer.lexed_of_mem_tokenize t h).isReadable ?_) ho
  rintro he
  rw [he] at ho
  cases ho

def RoutineKind.word : RoutineKind → Word
  | procedure => .procedure
  | function  => .function

namespace Scan

variable {r : Run}

theorem table_step (h : Run.closes? r.tokens = none) (s : Scan) : (s.step r).table = (s.declare r).1 := by
  cases hr : r.role with
  | closes form =>
    rw [Run.role_eq_closes.1 hr] at h
    cases h
  | opens form => rw [step, hr]
  | plain => rw [step, hr]

theorem table_declare_routine {kind : RoutineKind} (h : routine? r.tokens = some kind) (s : Scan) :
    (s.declare r).1 = ((routineName? r.tokens).map (header r kind)).elim s.table s.table.declare := by
  rw [declare, h]
  cases routineName? r.tokens <;> rfl

theorem table_declare_offers (h : routine? r.tokens = none) (s : Scan) :
    (s.declare r).1 = (offers r.tokens).foldl (mention r) s.table := by
  rw [declare, h]

theorem table_step_of_closes {form : BlockForm} (h : Run.closes? r.tokens = some form) (s : Scan) :
    (s.step r).table = s.table ∨ ∃ k, (s.step r).table = s.table.close k ⟨r.index, r.number⟩ := by
  rw [step, Run.role_eq_closes.2 h]
  cases s.blocks with
  | nil => exact .inl rfl
  | cons b bs =>
    by_cases hform : b.form = form
    · simp only [hform, if_true]
      cases b.key with
      | none => exact .inl rfl
      | some k => exact .inr ⟨k, rfl⟩
    · simp [hform]

end Scan

theorem Expression.routine?_tokensOf {limit : Limit} {table : Table} {depth : Nat} (hd : limit.exceeded depth = false)
    {ns : List Nest} (h : ∀ n ∈ ns, n.Closed false) (first : Token) (index number : Nat) (kind : RoutineKind) :
    (Scan.routineName? (first :: Nest.tokensOf ns)).map (Scan.header ⟨index, number, first :: Nest.tokensOf ns⟩ kind) =
      routine? index number kind (ns.map (ofNest limit table depth)) := by
  unfold routine?
  rcases head_tokensOf limit table depth h with ⟨t, ms, rfl, hk, hname⟩ | ⟨hk, hname⟩
  · have hparameters := parameters_tokensOf limit table depth (fun n hn => h n (List.mem_cons_of_mem _ hn)) hd
    have hnamed : Scan.routineName? (first :: Nest.tokensOf (.leaf (.token t) :: ms)) = some t :=
      Option.filter_eq_some_iff.2 ⟨rfl, by rw [hk, beq_self_eq_true]⟩
    rw [hnamed, List.map_cons, List.head?_cons, Option.bind_some, hname, List.tail_cons, ← hparameters]
    rfl
  · have hnameless : Scan.routineName? (first :: Nest.tokensOf ns) = none := by
      rw [Scan.routineName?, List.getElem?_cons_succ, ← List.head?_eq_getElem?, Option.filter_eq_none_iff]
      exact fun t ht => by simpa using hk t ht
    rw [hname, hnameless]
    rfl

namespace Run

/-! ### What a run begins with -/

section

variable {first : Token} (index number : Nat) (rest : List Token)

theorem of_header {kind : RoutineKind} (h : first.kind = .word kind.word) :
    closes? (first :: rest) = none ∧ (⟨index, number, first :: rest⟩ : Run).isOpen = false ∧
      Scan.routine? (first :: rest) = some kind ∧ (⟨index, number, first :: rest⟩ : Run).operands = rest := by
  cases kind <;>
    simp [closes?, word?, Token.word?, isOpen, Scan.routine?, operands, keyword?, Keyword.ofKind?, h, RoutineKind.word]

theorem of_assignment (h : first.kind = .word .let_ ∨ first.kind = .word .for_ ∨ first.kind = .name) :
    closes? (first :: rest) = none ∧ (⟨index, number, first :: rest⟩ : Run).isOpen = false ∧
      Scan.routine? (first :: rest) = none ∧
      Scan.offers (first :: rest) = (Scan.target? (⟨index, number, first :: rest⟩ : Run).operands).toList := by
  rcases h with h | h | h <;>
    simp [closes?, word?, Token.word?, isOpen, Scan.routine?, operands, keyword?, Keyword.ofKind?, Scan.offers, h]

theorem of_dim (h : first.kind = .word .dim) :
    closes? (first :: rest) = none ∧ (⟨index, number, first :: rest⟩ : Run).isOpen = false ∧
      Scan.routine? (first :: rest) = none ∧
      Scan.offers (first :: rest) = Scan.itemNames 0 true (⟨index, number, first :: rest⟩ : Run).operands := by
  simp [closes?, word?, Token.word?, isOpen, Scan.routine?, operands, keyword?, Keyword.ofKind?, Scan.offers, h]

def declaring : List Word := [.procedure, .function, .let_, .for_, .dim]

theorem of_other (hn : first.kind ≠ .name) (hw : ∀ w ∈ declaring, first.kind ≠ .word w) :
    Scan.routine? (first :: rest) = none ∧ Scan.offers (first :: rest) = [] := by
  have hfirst : word? (first :: rest) 0 = first.word? := rfl
  constructor
  · rw [Scan.routine?, hfirst]
    split
    · rename_i h
      exact absurd (Phrase.kind_of_word? h) (hw _ (by decide))
    · rename_i h
      exact absurd (Phrase.kind_of_word? h) (hw _ (by decide))
    · rfl
  · rw [Scan.offers]
    split
    · rename_i h
      exact absurd h (hw _ (by decide))
    · rename_i h
      exact absurd h (hw _ (by decide))
    · rename_i h
      exact absurd h (hw _ (by decide))
    · rename_i h
      exact absurd h hn
    · rfl

end

/-! ### Operands and expressions -/

theorem balanced_operands {r : Run} (h : balanced [] r.tokens = true) : balanced [] r.operands = true := by
  cases hk : r.keyword? with
  | none => rwa [operands_of_keyword?_eq_none hk]
  | some k =>
    obtain ⟨t, ts, hts, hkind, hoperands⟩ := keyword?_eq_some (r := r) (c := k.1) (k := k.2) hk
    rw [hts, balanced_other (by rw [hkind]; cases k.2 <;> rfl)] at h
    rwa [hoperands]

section

variable {r : Run} (ho : r.isOpen = false) (hb : balanced [] r.tokens = true) (table : Table)
include ho hb

theorem exists_nests : ∃ ns, (∀ n ∈ ns, n.Closed false) ∧ Nest.tokensOf ns = r.operands ∧
    (r.statement table).expressions = ns.map (Expression.ofNest nestingLimit table 0) := by
  have hclosed : ∀ n ∈ r.nests nestingLimit, n.Closed false := by
    rw [nests, ho]
    exact Nest.closed_ofPhrases nestingLimit false (balanced_operands hb)
  refine ⟨r.nests nestingLimit, hclosed, tokensOf_nests nestingLimit r, ?_⟩
  rw [statement, statementWithin, expressions, ho, if_neg Bool.false_ne_true, Expression.ofNests,
    Expression.foldl_nestPieces_of_closed nestingLimit table 0 hclosed]

theorem routine?_operands (first : Token) (kind : RoutineKind) :
    (Scan.routineName? (first :: r.operands)).map (Scan.header ⟨r.index, r.number, first :: r.operands⟩ kind) =
      Expression.routine? r.index r.number kind (r.statement table).expressions := by
  obtain ⟨ns, hns, hts, hes⟩ := exists_nests ho hb table
  rw [← hts, hes]
  exact Expression.routine?_tokensOf rfl hns first r.index r.number kind

theorem target?_operands (ht : ∀ t ∈ r.tokens, t.IsClassed) :
    Scan.target? r.operands = Expression.target? (r.statement table).expressions := by
  obtain ⟨ns, hns, hts, hes⟩ := exists_nests ho hb table
  rw [← hts, hes]
  exact Expression.target?_tokensOf nestingLimit table 0 hns rfl (fun t h => ht t (mem_operands (hts ▸ h)))

theorem itemNames_operands :
    Scan.itemNames 0 true r.operands = Expression.itemNames (r.statement table).expressions := by
  obtain ⟨ns, hns, hts, hes⟩ := exists_nests ho hb table
  rw [← hts, hes]
  exact Expression.itemNames_tokensOf nestingLimit table 0 hns true

end

end Run

/-- **Declarations and tree agree on names.**  A run of a line meets the pass that declares in any state, and a statement is
built of it under any table.  If the brackets of the run are balanced by type,

- the header of a procedure or function declares a routine exactly if the first expression is a reference: under that name,
  with the first name of each argument in the parentheses that follow at once as its parameters;
- a run that begins with `LET`, `FOR` or a name declares the reference that comes first, if an assignment follows it or its
  size, and nothing else;
- `DIM` declares the first name of each stretch between separators, in their order.

Any other run declares nothing: at most it sets where the block of a routine ends. -/
theorem declarations_match_tree {number : Nat} {text : Text} {first : Token} {rest : List Token}
    (hrun : first :: rest ∈ (CodeLine.ofSource number text).runs) (index : Nat) (table : Table) (s : Scan) :
    let r : Run := ⟨index, number, first :: rest⟩
    let es := (r.statement table).expressions
    (balanced [] r.tokens = true →
      (∀ kind : RoutineKind, first.kind = .word kind.word →
        (s.step r).table = (Expression.routine? index number kind es).elim s.table s.table.declare) ∧
      (first.kind = .word .let_ ∨ first.kind = .word .for_ ∨ first.kind = .name →
        Scan.offers r.tokens = (Expression.target? es).toList ∧
        (s.step r).table = (Expression.target? es).toList.foldl (Scan.mention r) s.table) ∧
      (first.kind = .word .dim →
        Scan.offers r.tokens = Expression.itemNames es ∧
        (s.step r).table = (Expression.itemNames es).foldl (Scan.mention r) s.table)) ∧
    (first.kind ≠ .name → (∀ w ∈ Run.declaring, first.kind ≠ .word w) →
      Scan.offers r.tokens = [] ∧
      ((s.step r).table = s.table ∨ ∃ k, (s.step r).table = s.table.close k ⟨index, number⟩)) := by
  intro r es
  have hclassed : ∀ t ∈ r.tokens, t.IsClassed :=
    fun t ht => CodeLine.isClassed (CodeLine.mem_tokens_of_mem_runs hrun t ht)
  refine ⟨fun hb => ⟨fun kind hk => ?_, fun hk => ?_, fun hk => ?_⟩, fun hn hw => ?_⟩
  · obtain ⟨hcloses, hopen, hroutine, hoperands⟩ := Run.of_header index number rest hk
    have hheader := Run.routine?_operands hopen hb table first kind
    rw [hoperands] at hheader
    rw [Scan.table_step hcloses s, Scan.table_declare_routine hroutine s, hheader]
  · obtain ⟨hcloses, hopen, hroutine, hoffers⟩ := Run.of_assignment index number rest hk
    rw [Run.target?_operands hopen hb table hclassed] at hoffers
    exact ⟨hoffers, by rw [Scan.table_step hcloses s, Scan.table_declare_offers hroutine s, hoffers]⟩
  · obtain ⟨hcloses, hopen, hroutine, hoffers⟩ := Run.of_dim index number rest hk
    rw [Run.itemNames_operands hopen hb table] at hoffers
    exact ⟨hoffers, by rw [Scan.table_step hcloses s, Scan.table_declare_offers hroutine s, hoffers]⟩
  · obtain ⟨hroutine, hoffers⟩ := Run.of_other rest hn hw
    refine ⟨hoffers, ?_⟩
    cases hcloses : Run.closes? (first :: rest) with
    | some form => exact Scan.table_step_of_closes hcloses s
    | none => exact .inl (by rw [Scan.table_step hcloses s, Scan.table_declare_offers hroutine s, hoffers]; rfl)

/-- The parameters of a function are the names that come first in its arguments; those in inner brackets are none. -/
theorem declarations_match_tree_nested :
    ∃ first rest, first :: rest ∈ (CodeLine.ofSource 1 "FUNCTION F(A[I, J], (B), C)".toList).runs ∧
      balanced [] (first :: rest) = true ∧ first.kind = .word .function ∧
      (Scan.step {} ⟨0, 1, first :: rest⟩).table =
        ⟨[⟨"F".toList, .routine .function, 0, 1, ["A".toList, "C".toList], none⟩]⟩ := by
  have hrun : ⟨.word .function, "FUNCTION".toList, ⟨0, 8⟩⟩ :: (tokenize "FUNCTION F(A[I, J], (B), C)".toList).tail ∈
      (CodeLine.ofSource 1 "FUNCTION F(A[I, J], (B), C)".toList).runs := by decide +kernel
  have hb : balanced [] (⟨.word .function, "FUNCTION".toList, ⟨0, 8⟩⟩ ::
      (tokenize "FUNCTION F(A[I, J], (B), C)".toList).tail) = true := by decide +kernel
  refine ⟨_, _, hrun, hb, rfl, ?_⟩
  rw [((declarations_match_tree hrun 0 Table.empty {}).1 hb).1 .function rfl]
  decide +kernel

end BlockBasic
