import BlockBasic.Proofs.Continued
import BlockBasic.Proofs.Shifted
/-!
# Joined — the tokens of a line that is put together of pieces

Nothing of the lexer's state crosses a space, except a string that is still open.  So a text in front of which all strings
are closed is read behind a space as it is read by itself, further right (`tokenize_append_space`).  A physical line that
goes on leaves no string open, and no piece ends in a break, so the tokens of a logical line are those of the pieces that it
was joined of (`SourceLine.tokenize_intercalate`).
-/
namespace BlockBasic

open Text (openAfter openAfter_append openAfter_of_not_mem)

/-! ## Quotes by their number -/

theorem Text.openAfter_eq_false_iff : ∀ (t : Text) (b : Bool), openAfter b t = false ↔ (t.count '"' + b.toNat) % 2 = 0
  | [], b     => by cases b <;> simp
  | c :: t, b => by
    by_cases hc : c = '"'
    · rw [hc, openAfter_quote_cons, openAfter_eq_false_iff t, List.count_cons_self]
      have hnot : (!b).toNat + b.toNat = 1 := by cases b <;> rfl
      omega
    · rw [openAfter_cons_of_ne hc, openAfter_eq_false_iff t, List.count_cons_of_ne hc]

/-- **A text leaves no string open exactly if the number of its quotes is even.** -/
theorem Text.closed_iff (t : Text) : openAfter false t = false ↔ t.count '"' % 2 = 0 := openAfter_eq_false_iff t false

/-! ## Two texts with a space between them -/

namespace Lexer

theorem openAfter_lexeme {c : Char} {cs : Text} (hs : c = '"' → (stringBody cs).isSome = true) (i : Nat) (b : Bool) :
    openAfter b ((lexeme c cs).token i).source = b := by
  by_cases hq : c = '"'
  · obtain ⟨body, hbody⟩ := Option.isSome_iff_exists.1 (hs hq)
    refine openAfter_source ?_ b
    simp only [Lexeme.token, lexeme_eq_string hq, stringLexeme, hbody]
  · exact openAfter_of_not_mem (not_mem_source_lexeme hq cs i).1 b

/-- **A text that leaves no string open is read before a character that is apart as it is read at the end of a line**, and
what comes then is read from there. -/
theorem scan_append {rest : Text} (h : rest.head?.all isApart = true) : ∀ (t : Text) (i : Nat), openAfter false t = false →
    scan i 0 (t ++ rest) = scan i 0 t ++ scan (i + t.length) 0 rest
  | [], i, _           => by
    rw [scan]
    rfl
  | c :: cs, i, hclosed => by
    rw [List.cons_append, List.length_cons, Nat.add_comm cs.length, ← Nat.add_assoc]
    cases hc : isGap c with
    | true  =>
      have hne : c ≠ '"' := by
        rintro rfl
        exact absurd hc (by decide)
      rw [Text.openAfter_cons_of_ne hne] at hclosed
      rw [scan_gap hc, scan_gap hc, scan_append h cs (i + 1) hclosed]
    | false =>
      have hs : c = '"' → (stringBody cs).isSome = true := by
        rintro rfl
        rw [Text.openAfter_quote_cons] at hclosed
        refine Option.isSome_iff_ne_none.2 fun hb => ?_
        rw [Bool.not_false, openAfter_of_stringBody_eq_none cs hb] at hclosed
        cases hclosed
      have hcovers := covers_lexeme c cs
      have hle : (lexeme c cs).width - 1 ≤ cs.length := Nat.sub_le_of_le_add hcovers.le
      have hrest : openAfter false (cs.drop ((lexeme c cs).width - 1)) = false := by
        rw [← List.take_append_drop ((lexeme c cs).width - 1) cs, ← List.cons_append, hcovers.cons_take,
          openAfter_append, openAfter_lexeme hs] at hclosed
        exact hclosed
      have hstop : i + (lexeme c cs).width + (cs.drop ((lexeme c cs).width - 1)).length = i + 1 + cs.length := by
        have := hcovers.pos
        rw [List.length_drop]
        omega
      rw [scan_cons hc, scan_cons hc, lexeme_append c cs hs h, List.drop_append_of_le_length hle, scan_append h _ _ hrest,
        hstop, List.cons_append]
termination_by t => t.length
decreasing_by
  all_goals
    simp only [List.length_drop, List.length_cons]
    omega

end Lexer

/-- **A line is read piece by piece where a space stands outside strings.** -/
theorem Text.tokenize_append_space {a : Text} (hclosed : openAfter false a = false) (hend : a.chomp = a) (b : Text) :
    tokenize (a ++ ' ' :: b) = tokenize a ++ (tokenize b).map (Token.shift (a.length + 1)) := by
  have hchomp : (a ++ ' ' :: b).chomp = a ++ ' ' :: b.chomp := by
    rw [← List.singleton_append, ← List.append_assoc, chomp_append (by decide) List.getLast?_concat, List.append_assoc]
    rfl
  rw [tokenize, hchomp, Lexer.scan_append rfl a 0 hclosed, Lexer.scan_gap rfl, Nat.zero_add,
    Lexer.scan_zero_shift (a.length + 1), tokenize, tokenize, hend]

/-! ## The pieces of a logical line -/

/-- **The tokens of pieces** that stand one after the other with a space between two of them, the first at position `i`. -/
def Token.ofPieces : (i : Nat) → List Text → List Token
  | _, []      => []
  | i, p :: ps => (tokenize p).map (shift i) ++ ofPieces (i + p.length + 1) ps

theorem Token.ofPieces_shift (n : Nat) : ∀ (i : Nat) (ps : List Text), (ofPieces i ps).map (shift n) = ofPieces (n + i) ps
  | _, []      => rfl
  | i, p :: ps => by
    rw [ofPieces, ofPieces, List.map_append, map_shift_shift, ofPieces_shift n, Nat.add_assoc n i, Nat.add_assoc n (i + _)]

namespace SourceLine

theorem tokenize_intercalate : ∀ {ps : List Text}, (∀ p ∈ ps, p.chomp = p) → (∀ p ∈ ps.dropLast, openAfter false p = false) →
    tokenize ([' '].intercalate ps) = Token.ofPieces 0 ps
  | [], _, _                   => rfl
  | [p], _, _                  => by
    rw [List.intercalate_singleton, Token.ofPieces, Token.ofPieces, Token.map_shift_zero, List.append_nil]
  | p :: q :: ps, hend, hclosed => by
    rw [List.dropLast_cons_cons] at hclosed
    have ih := tokenize_intercalate (fun r hr => hend r (List.mem_cons_of_mem p hr))
      (fun r hr => hclosed r (List.mem_cons_of_mem p hr))
    have hfirst : Token.ofPieces 0 (p :: q :: ps) = tokenize p ++ Token.ofPieces (p.length + 1) (q :: ps) := by
      rw [Token.ofPieces, Token.map_shift_zero, Nat.zero_add]
    rw [List.intercalate_cons_cons, List.append_assoc, List.singleton_append,
      Text.tokenize_append_space (hclosed p List.mem_cons_self) (hend p List.mem_cons_self), ih, Token.ofPieces_shift, hfirst,
      Nat.add_zero]

variable {o : Conventions}

theorem continues_of_mem_groups {lines group : List (Text × Nat)} (h : group ∈ groups o lines) :
    ∀ l ∈ group.dropLast, (o.piece l.1).2 = true := by
  have hchain := List.isChain_iff_getElem.1 (List.isChain_of_mem_splitBy h)
  intro l hl
  obtain ⟨i, hi, rfl⟩ := List.getElem_of_mem hl
  rw [List.length_dropLast] at hi
  rw [List.getElem_dropLast]
  exact hchain i (by omega)

theorem closed_pieces (hm : o.continuation ≠ some '"') {group : List (Text × Nat)}
    (hgo : ∀ l ∈ group.dropLast, (o.piece l.1).2 = true) : ∀ p ∈ (pieces o group).dropLast, openAfter false p = false := by
  rcases List.eq_nil_or_concat group with rfl | ⟨init, last, rfl⟩
  · exact fun p hp => nomatch hp
  · rw [List.concat_eq_append, List.dropLast_concat] at hgo
    have hinit : ∀ p ∈ pieces o init, openAfter false p = false := by
      intro p hp
      obtain ⟨l, hl, rfl⟩ := List.mem_map.1 (List.mem_filter.1 hp).1
      exact Conventions.openAfter_piece hm (hgo l hl)
    intro p hp
    rw [List.concat_eq_append, pieces_concat] at hp
    by_cases hlast : (o.piece last.1).1 = []
    · rw [hlast, List.filter_cons_of_neg (by simp), List.filter_nil, List.append_nil] at hp
      exact hinit p (List.dropLast_subset _ hp)
    · rw [List.filter_cons_of_pos (by simpa using hlast), List.filter_nil, List.dropLast_concat] at hp
      exact hinit p hp

end SourceLine

open SourceLine (groups ofGroup? pieces)

/-- **A space outside strings parts the tokens of a line.**  If a text has an even number of quotes and does not end in a
break, the tokens of it, a space and another text are its own tokens, and behind them those of the other text, further right.
So, where the continuation character is no quote, each logical line has the tokens of the pieces it is joined of, those of a
piece where the piece stands. -/
theorem tokens_by_pieces :
    (∀ a b : Text, a.count '"' % 2 = 0 → a.getLast? ≠ some '\r' → a.getLast? ≠ some '\n' →
      tokenize (a ++ ' ' :: b) = tokenize a ++ (tokenize b).map (Token.shift (a.length + 1))) ∧
    ∀ o : Conventions, o.continuation ≠ some '"' → ∀ physical : List Text, ∀ l ∈ logicalLines o physical,
      ∃ group ∈ groups o (physical.zipIdx 1), ofGroup? o group = some l ∧
        tokenize l.text = Token.ofPieces 0 (pieces o group) := by
  refine ⟨fun a b heven hcr hlf => ?_, fun o hm physical l hl => ?_⟩
  · refine Text.tokenize_append_space (a.closed_iff.2 heven) (Text.dropTail_eq_self ?_) b
    cases hlast : a.getLast? with
    | none   => rfl
    | some c =>
      rw [hlast] at hcr hlf
      simpa [Text.isBreak] using And.intro hcr hlf
  · rw [SourceLine.logicalLines_eq] at hl
    obtain ⟨group, hgroup, hline⟩ := List.mem_filterMap.1 hl
    have htext : l.text = [' '].intercalate (pieces o group) := by
      rw [ofGroup?] at hline
      split at hline
      · cases hline
      · obtain ⟨x, -, rfl⟩ := Option.map_eq_some_iff.1 hline
        rfl
    refine ⟨group, hgroup, hline, ?_⟩
    rw [htext]
    refine SourceLine.tokenize_intercalate (fun p hp => ?_)
      (SourceLine.closed_pieces hm (SourceLine.continues_of_mem_groups hgroup))
    obtain ⟨x, -, rfl⟩ := List.mem_map.1 (List.mem_filter.1 hp).1
    exact (o.trimmed_piece x.1).chomp_eq_self

/-- Marks that would be one operator, and a line of four with a quoted comment mark, a lone continuation mark, a comment and
a string that is left open. -/
theorem tokens_by_pieces_open :
    (tokenize "PRINT \"a \"\" b\" < = 1\r".toList = tokenize "PRINT \"a \"\" b\" <".toList ++
      (tokenize "= 1\r".toList).map (Token.shift 17)) ∧
    logicalLines {} ["PRINT \"it's\" + _".toList, "_".toList, "B$ _ ' more".toList, "\"open".toList] =
      [⟨1, "PRINT \"it's\" + B$ \"open".toList⟩] ∧
    ∃ group ∈ groups {} (["PRINT \"it's\" + _".toList, "_".toList, "B$ _ ' more".toList, "\"open".toList].zipIdx 1),
      ofGroup? {} group = some ⟨1, "PRINT \"it's\" + B$ \"open".toList⟩ ∧
        tokenize "PRINT \"it's\" + B$ \"open".toList = Token.ofPieces 0 (pieces {} group) := by
  have hlines : logicalLines {} ["PRINT \"it's\" + _".toList, "_".toList, "B$ _ ' more".toList, "\"open".toList] =
      [⟨1, "PRINT \"it's\" + B$ \"open".toList⟩] := by rfl
  refine ⟨tokens_by_pieces.1 "PRINT \"a \"\" b\" <".toList "= 1\r".toList (by decide) (by decide) (by decide), hlines, ?_⟩
  exact tokens_by_pieces.2 {} (by decide) _ _ (hlines ▸ List.mem_cons_self)

end BlockBasic
