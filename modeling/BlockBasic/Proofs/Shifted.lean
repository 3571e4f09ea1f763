import BlockBasic.Proofs.Quotes
/-!
# Shifted — a text that stands further right in its line

The lexer keeps nothing but its position, so a text is read as the same tokens wherever it stands, their columns moved along
with it (`Lexer.scan_shift`).  What is in front of it has to end where a token ends.  A string that is written out ends so
before anything but a quote, and is read back as it was (`tokenize_quote_append`).
-/
namespace BlockBasic

/-! ## Moving to the right -/

def Column.shift (n : Nat) (c : Column) : Column := ⟨n + c.start, n + c.stop⟩

def Token.shift (n : Nat) (t : Token) : Token := { t with column := t.column.shift n }

@[simp] theorem Token.shift_zero (t : Token) : t.shift 0 = t := by
  simp [shift, Column.shift]

theorem Token.shift_shift (m n : Nat) (t : Token) : (t.shift n).shift m = t.shift (m + n) := by
  simp [shift, Column.shift, Nat.add_assoc]

theorem Token.map_shift_zero (ts : List Token) : ts.map (shift 0) = ts := by
  rw [show shift 0 = id from funext shift_zero, List.map_id]

theorem Token.map_shift_shift (m n : Nat) (ts : List Token) : (ts.map (shift n)).map (shift m) = ts.map (shift (m + n)) := by
  rw [List.map_map]
  exact List.map_congr_left fun t _ => shift_shift m n t

theorem Lexer.scan_shift (n : Nat) : ∀ (t : Text) (i taken : Nat), scan (n + i) taken t = (scan i taken t).map (Token.shift n)
  | [], _, _              => by rw [scan, scan, List.map_nil]
  | _ :: cs, i, taken + 1 => by rw [scan, scan, Nat.add_assoc, scan_shift n cs]
  | c :: cs, i, 0         => by
    rw [scan, scan, Nat.add_assoc]
    split
    · exact scan_shift n cs (i + 1) 0
    · rw [List.map_cons, scan_shift n cs, Token.shift, Column.shift, Nat.add_assoc]

theorem Lexer.scan_zero_shift (n : Nat) (t : Text) : scan n 0 t = (scan 0 0 t).map (Token.shift n) := scan_shift n t 0 0

/-! ## The end of a line -/

theorem Text.chomp_append {t : Text} {c : Char} (hc : isBreak c = false) (h : t.getLast? = some c) (r : Text) :
    (t ++ r).chomp = t ++ r.chomp := by
  have hstays : t.reverse.dropWhile isBreak = t.reverse := by
    obtain ⟨init, rfl⟩ := List.getLast?_eq_some_iff.1 h
    rw [List.reverse_concat, List.dropWhile_cons_of_neg (by simp [hc])]
  rw [chomp, chomp, dropTail, dropTail, List.reverse_append, List.dropWhile_append, hstays]
  split
  · rename_i hr
    rw [List.isEmpty_iff.1 hr, List.reverse_reverse, List.reverse_nil, List.append_nil]
  · rw [List.reverse_append, List.reverse_reverse]

theorem Text.head?_chomp {t : Text} {c : Char} (h : t.chomp.head? = some c) : t.head? = some c := by
  obtain ⟨tail, hsplit⟩ : t.chomp <+: t := by
    rw [chomp, dropTail, ← List.reverse_suffix, List.reverse_reverse]
    exact List.dropWhile_suffix _
  rw [← hsplit, List.head?_append, h]
  rfl

/-! ## Strings -/

theorem Text.doubleQuotes_eq_flatMap : ∀ (t : Text), t.doubleQuotes = t.flatMap (fun c => if c = '"' then ['"', '"'] else [c])
  | []     => rfl
  | c :: t => by
    rw [doubleQuotes, List.flatMap_cons, doubleQuotes_eq_flatMap t]
    split <;> rfl

theorem Text.getLast?_quote (t : Text) : t.quote.getLast? = some '"' := by
  rw [quote, ← List.cons_append, List.getLast?_concat]

theorem Lexer.lexeme_quote (t : Text) {rest : Text} (h : rest.head? ≠ some '"') :
    lexeme '"' (t.doubleQuotes ++ '"' :: rest) = ⟨.string, t, t.quote.length⟩ := by
  rw [lexeme_eq_string rfl, stringLexeme, stringBody_doubleQuotes h]
  simp [Text.quote]

/-- **A string that is written out is read back as it was.**  Written out, each quote in it is doubled and one is put at each
end; that is also how the token of a string is written.  Before anything that does not begin with a quote such a text is one
token, a string with the content that was written, and behind it come the tokens of the rest. -/
theorem tokenize_quote_append (content : Text) {rest : Text} (h : rest.head? ≠ some '"') :
    content.quote = '"' :: (content.flatMap (fun c => if c = '"' then ['"', '"'] else [c]) ++ ['"']) ∧
    (∀ column, Token.source ⟨.string, content, column⟩ = content.quote) ∧
    tokenize (content.quote ++ rest) =
      ⟨.string, content, ⟨0, content.quote.length⟩⟩ :: (tokenize rest).map (Token.shift content.quote.length) := by
  refine ⟨by rw [Text.quote, Text.doubleQuotes_eq_flatMap], fun _ => rfl, ?_⟩
  have hhead : rest.chomp.head? ≠ some '"' := mt Text.head?_chomp h
  have hlexeme := Lexer.lexeme_quote content hhead
  have hdrop : (content.doubleQuotes ++ '"' :: rest.chomp).drop (content.quote.length - 1) = rest.chomp := by
    rw [← List.singleton_append, ← List.append_assoc]
    exact List.drop_left
  have hsplit : content.quote ++ rest.chomp = '"' :: (content.doubleQuotes ++ '"' :: rest.chomp) := by simp [Text.quote]
  rw [tokenize, Text.chomp_append (by decide) content.getLast?_quote, hsplit, Lexer.scan_cons (by decide), hlexeme, hdrop,
    Nat.zero_add, Lexer.scan_zero_shift, Lexer.Lexeme.token, Nat.zero_add, tokenize]

/-- Quotes in a row and at the start, a break at the end of the content, and others behind the rest. -/
theorem tokenize_quote_append_quotes :
    (" + B\r\n".toList).head? ≠ some '"' ∧ Text.quote "\"a\"\"b\r".toList = "\"\"\"a\"\"\"\"b\r\"".toList ∧
    tokenize "\"\"\"a\"\"\"\"b\r\" + B\r\n".toList =
      [⟨.string, "\"a\"\"b\r".toList, ⟨0, 11⟩⟩, ⟨.arithmetic .plus, "+".toList, ⟨12, 13⟩⟩, ⟨.name, "B".toList, ⟨14, 15⟩⟩] := by
  have hhead : (" + B\r\n".toList).head? ≠ some '"' := by decide
  have h := tokenize_quote_append "\"a\"\"b\r".toList hhead
  exact ⟨hhead, by decide, h.2.2.trans (by decide +kernel)⟩

end BlockBasic
