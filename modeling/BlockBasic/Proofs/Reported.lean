import BlockBasic.Parse
import BlockBasic.Proofs.Colons
/-!
# Reported — what is left as text is reported on

A malformed atom begins where a bare token begins (`Nest.Paired.bare_malformed`).  If that is an error of the line, the line
reports it; if it is a bracket that is astray or too deep, or a `#` without its number, the statement reports it where it
begins (`Nest.Paired.fault_malformed`).  Colons in groups are the one thing left that nobody reports.
-/
namespace BlockBasic

open Column (InOrder)
open Expression (malformedOf)

theorem Token.eq_of_start {ts : List Token} (h : InOrder (columns ts)) {t u : Token} (ht : t ∈ ts) (hu : u ∈ ts)
    (hstart : t.column.start = u.column.start) : t = u := by
  have htwide := wide_of_mem h ht
  have huwide := wide_of_mem h hu
  obtain ⟨before, after, rfl⟩ := List.append_of_mem ht
  obtain ⟨-, hafter, hbefore⟩ := inOrder_append.1 h
  rcases List.mem_append.1 hu with hu | hu
  · have := hbefore u hu t List.mem_cons_self
    omega
  · rcases List.mem_cons.1 hu with rfl | hu
    · rfl
    · have := List.rel_of_pairwise_cons hafter.apart (List.mem_map_of_mem hu)
      omega

namespace Nest

variable {limit : Limit} {inOpen : Bool} {depth : Nat} {n : Nest} {x : Column × Text}

/-- **A malformed atom begins with a bare token.** -/
theorem Paired.bare_malformed (h : Paired limit inOpen depth n) : x ∈ malformed limit depth n →
    ∃ t ∈ n.tokens, t.kind.isBare = true ∧ x.1.start = t.column.start := by
  induction h with
  | @leaf depth p _ _ =>
    intro hx
    cases p with
    | handle | mode | access => cases hx
    | token t =>
      rw [malformed] at hx
      split at hx
      · rename_i hbare
        rw [List.mem_singleton.1 hx]
        exact ⟨t, List.mem_singleton_self t, hbare, rfl⟩
      · cases hx
  | @group depth b o body c ho _ _ ih =>
    intro hx
    rw [malformed] at hx
    split at hx
    · rw [List.mem_singleton.1 hx]
      exact ⟨o, List.mem_cons_self, by rw [ho]; rfl, rfl⟩
    · obtain ⟨m, hm, hx⟩ := mem_malformedOf.1 hx
      obtain ⟨t, ht, hbare⟩ := ih m hm hx
      exact ⟨t, mem_tokens_group hm ht, hbare⟩

theorem fault_bare {t : Token} (ht : t.Lexed) (ho : ∀ b, t.kind ≠ .opener b) (hbare : t.kind.isBare = true)
    (hcolon : t.text ≠ [':']) : t.isError = true ∨ ∃ fault, (t.column, fault) ∈ phraseFaults (.token t) := by
  cases hk : t.kind with
  | error    => exact .inl (by simp [Token.isError, hk])
  | opener b => exact absurd hk (ho b)
  | closer b => exact .inr ⟨.strayCloser t.text, by simp [phraseFaults, hk]⟩
  | hash     => exact .inr ⟨.badHandle, by simp [phraseFaults, hk]⟩
  | colon    => exact absurd (ht.text_of_mark (by rw [hk]; rfl)) hcolon
  | _        => simp [hk, Kind.isBare] at hbare

/-- **A malformed atom is reported on**, by the line or by the statement, if it is no colon. -/
theorem Paired.fault_malformed (h : Paired limit inOpen depth n) : (∀ t ∈ n.tokens, t.Lexed) →
    x ∈ malformed limit depth n → x.2 ≠ [':'] →
      (∃ t ∈ n.tokens, t.isError = true ∧ t.column = x.1) ∨ ∃ f ∈ faults limit depth n, f.1.start = x.1.start := by
  induction h with
  | @leaf depth p _ ho =>
    intro hlexed hx hcolon
    cases p with
    | handle | mode | access => cases hx
    | token t =>
      rw [malformed] at hx
      split at hx
      · rename_i hbare
        obtain rfl := List.mem_singleton.1 hx
        rcases fault_bare (hlexed t (List.mem_singleton_self t)) ho hbare hcolon with herror | ⟨fault, hfault⟩
        · exact .inl ⟨t, List.mem_singleton_self t, herror, rfl⟩
        · exact .inr ⟨_, hfault, rfl⟩
      · cases hx
  | @group depth b o body c ho _ _ ih =>
    intro hlexed hx hcolon
    rw [malformed] at hx
    rw [faults]
    split at hx
    · rename_i hdeep
      rw [List.mem_singleton.1 hx, if_pos hdeep]
      exact .inr ⟨_, List.mem_cons_self, rfl⟩
    · rename_i hroom
      obtain ⟨m, hm, hx⟩ := mem_malformedOf.1 hx
      rw [if_neg hroom]
      rcases ih m hm (fun t ht => hlexed t (mem_tokens_group hm ht)) hx hcolon with ⟨t, ht, herror⟩ | ⟨f, hf, hstart⟩
      · exact .inl ⟨t, mem_tokens_group hm ht, herror⟩
      · exact .inr ⟨f, List.mem_append_left _ (mem_faultsOf.2 ⟨m, hm, hf⟩), hstart⟩

end Nest

namespace Run

variable {r : Run}

theorem exists_nest_of_malformed (hlexed : ∀ t ∈ r.tokens, t.Lexed) {table : Table} {x : Column × Text}
    (hx : x ∈ malformedOf (r.statement table).expressions) : ∃ n ∈ r.nests nestingLimit,
      Nest.Paired nestingLimit r.isOpen 0 n ∧ (∀ t ∈ n.tokens, t ∈ r.tokens) ∧ x ∈ Nest.malformed nestingLimit 0 n := by
  rw [show (r.statement table).expressions = r.expressions nestingLimit table from rfl,
    malformedOf_expressions hlexed] at hx
  obtain ⟨n, hn, hx⟩ := Nest.mem_malformedOf.1 hx
  exact ⟨n, hn, paired_nests nestingLimit r n hn, fun t ht => mem_of_nests (Nest.mem_tokensOf hn ht), hx⟩

/-- **What is malformed in a statement is reported on**, but for colons. -/
theorem malformed_reported (hlexed : ∀ t ∈ r.tokens, t.Lexed) {table : Table} {x : Column × Text}
    (hx : x ∈ malformedOf (r.statement table).expressions) (hcolon : x.2 ≠ [':']) :
    (∃ t ∈ r.tokens, t.isError = true ∧ t.column = x.1) ∨
      ∃ d ∈ r.diagnostics, d.line? = some r.number ∧ d.column.start = x.1.start := by
  obtain ⟨n, hn, hpaired, htokens, hx⟩ := exists_nest_of_malformed hlexed hx
  rcases hpaired.fault_malformed (fun t ht => hlexed t (htokens t ht)) hx hcolon with ⟨t, ht, herror⟩ | ⟨f, hf, hstart⟩
  · exact .inl ⟨t, htokens t ht, herror⟩
  · exact .inr ⟨f.2.located r.number f.1, List.mem_map_of_mem (Nest.mem_faultsOf.2 ⟨n, hn, hf⟩), rfl, hstart⟩

/-- **No malformed atom begins with a token that has a meaning.** -/
theorem malformed_not_at (hlexed : ∀ t ∈ r.tokens, t.Lexed) (horder : InOrder (Token.columns r.tokens))
    {table : Table} {t : Token} (ht : t ∈ r.tokens) (hbare : t.kind.isBare = false) {x : Column × Text}
    (hx : x ∈ malformedOf (r.statement table).expressions) : x.1.start ≠ t.column.start := by
  obtain ⟨n, -, hpaired, htokens, hx⟩ := exists_nest_of_malformed hlexed hx
  obtain ⟨u, hu, hubare, hstart⟩ := hpaired.bare_malformed hx
  intro heq
  rw [Token.eq_of_start horder (htokens u hu) ht (hstart.symm.trans heq), hbare] at hubare
  cases hubare

end Run

theorem mem_diagnosticsFrom {d : Diagnostic} : ∀ {rs : List Run} {a : Assembly} {r : Run}, r ∈ rs → d ∈ r.diagnostics →
    d ∈ Program.diagnosticsFrom a rs
  | x :: xs, a, r, hr, hd => by
    rw [Program.diagnosticsFrom]
    rcases List.mem_cons.1 hr with rfl | hr
    · exact List.mem_append_left _ (List.mem_append_left _ hd)
    · exact List.mem_append_right _ (mem_diagnosticsFrom hr hd)

/-- The lexer's tokens that have a meaning by themselves. -/
def Kind.isMeant (k : Kind) : Bool := k == .integer || k == .float || k.isKeyword || k.operator?.isSome

theorem Kind.isBare_of_isMeant {k : Kind} (h : k.isMeant = true) : k.isBare = false := by
  cases k <;> simp_all [isMeant, isBare, isKeyword, operator?]

/-- **Nothing is left as text in silence.**

- Whatever the lines are, each malformed expression of the program, at any depth, is reported on in its line and where it
  begins, unless it is a colon.
- A number, a keyword or an operator never becomes a malformed expression of its own: what it becomes is not malformed, and
  no malformed expression begins where it does. -/
theorem malformed_never_silent (source : List SourceLine) :
    let p := Parse.ofLines source
    (∀ e ∈ Node.entriesOf 0 p.program, ∀ x ∈ malformedOf e.2.expressions, x.2 ≠ [':'] →
      ∃ d ∈ p.diagnostics, d.line? = some e.2.line ∧ d.column.start = x.1.start) ∧
    ∀ r ∈ programRuns p.lines, ∀ t ∈ r.tokens, t.kind.isMeant = true →
      (∀ text, Expression.tokenAtom p.references t ≠ .malformed text) ∧
      ∀ x ∈ malformedOf (r.statement p.references).expressions, x.1.start ≠ t.column.start := by
  refine ⟨fun e he x hx hcolon => ?_, fun r hr t ht hmeant => ⟨fun text htext => ?_, fun x hx => ?_⟩⟩
  · obtain ⟨r, hr, hstatement⟩ := exists_run_of_mem_entries he
    obtain ⟨l, hl, hnumber, htokens⟩ := exists_line_of_mem_programRuns hr
    rw [← hstatement] at hx ⊢
    rcases Run.malformed_reported (lexed_of_mem_runs htokens) hx hcolon with ⟨t, ht, herror, hcolumn⟩ | ⟨d, hd, hplace⟩
    · have hline : CodeLine.ofSource l.number l.text ∈ (Parse.ofLines source).lines := List.mem_map_of_mem hl
      have hd : (CodeLine.tokenFault t.text).located l.number t.column ∈
          (CodeLine.ofSource l.number l.text).diagnostics :=
        List.mem_map_of_mem (List.mem_filter.2 ⟨(CodeLine.sublist_of_mem_runs htokens).subset ht, herror⟩)
      refine ⟨_, List.mem_append_left _ (List.mem_append_left _ (List.mem_flatMap.2 ⟨_, hline, hd⟩)), ?_, ?_⟩
      · exact congrArg some hnumber.symm
      · exact congrArg Column.start hcolumn
    · exact ⟨d, List.mem_append_right _ (mem_diagnosticsFrom hr hd), hplace⟩
  · obtain ⟨l, -, -, htokens⟩ := exists_line_of_mem_programRuns hr
    have hnone := (lexed_of_mem_runs htokens t ht).malformed? (Parse.ofLines source).references t.column
    rw [htext, Kind.isBare_of_isMeant hmeant] at hnone
    cases hnone
  · obtain ⟨l, -, -, htokens⟩ := exists_line_of_mem_programRuns hr
    exact Run.malformed_not_at (lexed_of_mem_runs htokens) (inOrder_of_mem_runs htokens) ht
      (Kind.isBare_of_isMeant hmeant) hx

end BlockBasic
