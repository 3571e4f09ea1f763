import BlockBasic.Proofs.ListedLines
/-!
# Respaced — tokens written out with one space between them

The source of a token is read as that token wherever a space comes after it, unless it is a string that is left open, and
such a string is the last token of its line (`isReadable_or_last`).  So a line whose tokens are written out one space
apart has the tokens that the line itself has (`read_respaced`), and none of what is written is a break that could be
taken off its end (`mem_respaced`).
-/
namespace BlockBasic

open Lexer

def Token.respaced (ts : List Token) : Text := [' '].intercalate (ts.map Token.source)

theorem Token.respaced_singleton (t : Token) : respaced [t] = t.source := List.intercalate_singleton

theorem Token.respaced_cons_cons (t u : Token) (ts : List Token) :
    respaced (t :: u :: ts) = t.source ++ ' ' :: respaced (u :: ts) := by
  rw [respaced, List.map_cons, List.map_cons, List.intercalate_cons_cons, List.append_assoc]
  rfl

theorem Token.mem_respaced {c : Char} : ∀ {ts : List Token}, c ∈ respaced ts → c = ' ' ∨ ∃ t ∈ ts, c ∈ t.source
  | [], h           => absurd h List.not_mem_nil
  | [t], h          => .inr ⟨t, List.mem_cons_self, respaced_singleton t ▸ h⟩
  | t :: u :: ts, h => by
    rw [respaced_cons_cons, List.mem_append, List.mem_cons] at h
    rcases h with h | h | h
    · exact .inr ⟨t, List.mem_cons_self, h⟩
    · exact .inl h
    · exact (mem_respaced h).imp_right fun ⟨v, hv, hc⟩ => ⟨v, List.mem_cons_of_mem t hv, hc⟩

namespace Lexer

/-- **A token that is not readable is the last of its line**: it is a string that is left open, and takes all the rest. -/
theorem isReadable_or_last {c : Char} (hc : isGap c = false) (cs : Text) (i : Nat) :
    ((lexeme c cs).token i).isReadable = true ∨
      ((lexeme c cs).token i).source = c :: cs ∧ cs.drop ((lexeme c cs).width - 1) = [] := by
  by_cases hopen : c = '"' ∧ stringBody cs = none
  · obtain ⟨rfl, hb⟩ := hopen
    have hl : lexeme '"' cs = .plain .error ('"' :: cs) := by
      rw [lexeme_eq_string rfl, stringLexeme, hb]
    rw [hl]
    exact .inr ⟨rfl, List.drop_length⟩
  · exact .inl (isReadable_token hc (fun hq => Option.isSome_iff_ne_none.2 fun hb => hopen ⟨hq, hb⟩) i)

/-- **Tokens that are written out with one space between them are read as they are.** -/
theorem read_respaced : ∀ (text : Text) (i : Nat),
    read (Token.respaced (scan i 0 text)) = (scan i 0 text).map Token.unplaced
  | [], i      => by
    rw [scan]
    rfl
  | c :: cs, i => by
    cases hc : isGap c with
    | true  =>
      rw [scan_gap hc]
      exact read_respaced cs (i + 1)
    | false =>
      have ih := read_respaced (cs.drop ((lexeme c cs).width - 1)) (i + (lexeme c cs).width)
      rw [scan_cons hc]
      rcases isReadable_or_last hc cs i with ht | ⟨hsource, hlast⟩
      · cases hrest : scan (i + (lexeme c cs).width) 0 (cs.drop ((lexeme c cs).width - 1)) with
        | nil       =>
          rw [Token.respaced_singleton, ← List.append_nil (Token.source _), read_source_append ht rfl]
          rfl
        | cons u us =>
          rw [hrest] at ih
          rw [Token.respaced_cons_cons, read_source_append ht rfl, read_space, ih]
          rfl
      · rw [hlast, scan, Token.respaced_singleton, hsource, read_cons hc, hlast]
        rfl
termination_by text => text.length
decreasing_by
  all_goals
    simp only [List.length_drop, List.length_cons]
    omega

end Lexer

theorem Text.chomp_of_unbroken {t : Text} (hcr : '\r' ∉ t) (hlf : '\n' ∉ t) : t.chomp = t := by
  refine dropTail_eq_self ?_
  cases hl : t.getLast? with
  | none   => rfl
  | some c =>
    have hc := List.mem_of_getLast? hl
    have hbreak : isBreak c = false := by
      rw [isBreak, Bool.or_eq_false_iff, beq_eq_false_iff_ne, beq_eq_false_iff_ne]
      exact ⟨fun he => hcr (he ▸ hc), fun he => hlf (he ▸ hc)⟩
    rw [Option.all_some, hbreak]
    rfl

/-- **The tokens of a line survive being written out.**  The sources of a line's tokens, one space apart, are a line with
tokens of the same kinds and texts in the same order, errors among them. -/
theorem tokenize_respaced {s : Text} (hcr : '\r' ∉ s) (hlf : '\n' ∉ s) :
    (tokenize ([' '].intercalate ((tokenize s).map Token.source))).map (fun t => (t.kind, t.text)) =
      (tokenize s).map (fun t => (t.kind, t.text)) := by
  have hshown : (fun t : Token => (t.kind, t.text)) = (fun t => (t.kind, t.text)) ∘ Token.unplaced := rfl
  have hunbroken : ∀ c ∉ s, c ≠ ' ' → c ∉ Token.respaced (tokenize s) := by
    intro c hs hspace hc
    rcases Token.mem_respaced hc with he | ⟨t, ht, hc⟩
    · exact hspace he
    · exact hs (Text.mem_of_mem_chomp ((spelled_scan s.chomp 0).mem_source ht hc))
  have hchomp := Text.chomp_of_unbroken (hunbroken _ hcr (by decide)) (hunbroken _ hlf (by decide))
  have hread : (tokenize (Token.respaced (tokenize s))).map Token.unplaced = (tokenize s).map Token.unplaced := by
    rw [tokenize, hchomp]
    exact read_respaced s.chomp 0
  rw [hshown, ← List.map_map, ← List.map_map]
  exact congrArg _ hread

/-- A malformed number, a stray character, a doubled mark and a string that is left open. -/
theorem tokenize_respaced_errors :
    ('\r' ∉ "1.2.3?A$%\"x".toList ∧ '\n' ∉ "1.2.3?A$%\"x".toList) ∧
    (tokenize "1.2.3?A$%\"x".toList).map Token.source =
      ["1.2.3".toList, "?".toList, "A$".toList, "%".toList, "\"x".toList] ∧
    (tokenize "1.2.3 ? A$ % \"x".toList).map (fun t => (t.kind, t.text)) =
      (tokenize "1.2.3?A$%\"x".toList).map (fun t => (t.kind, t.text)) := by
  have hsources : (tokenize "1.2.3?A$%\"x".toList).map Token.source =
      ["1.2.3".toList, "?".toList, "A$".toList, "%".toList, "\"x".toList] := by decide +kernel
  have h := tokenize_respaced (s := "1.2.3?A$%\"x".toList) (by decide) (by decide)
  rw [hsources] at h
  exact ⟨⟨by decide, by decide⟩, hsources, h⟩

end BlockBasic
