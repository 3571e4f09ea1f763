import BlockBasic.Console
import BlockBasic.Proofs.Offences
import BlockBasic.Proofs.Tokenization
/-!
# Places — every report can be shown at the source it is about

A report bears the number of a logical line, and no two logical lines bear the same one, since each takes the number of
the physical line it begins on (`increasing_logicalLines`).  Its column spans tokens of that line, so it is not empty and
ends inside the line (`Column.Spans.within`).  Such a column cuts the line in three, and the middle part is what a reader
sees underlined (`decorate_cut`).
-/
namespace BlockBasic

/-! ## The numbers of lines -/

namespace SourceLine

/-- Logical lines in the order of their numbers, none of which is below `low`. -/
def Increasing (low : Nat) (ls : List SourceLine) : Prop :=
  ls.Pairwise (fun l m => l.number < m.number) ∧ ∀ l ∈ ls, low ≤ l.number

theorem increasing_kept {low : Nat} {l : SourceLine} (h : low ≤ l.number) : Increasing low (kept l) := by
  unfold kept
  split
  · exact ⟨.nil, by simp⟩
  · exact ⟨List.pairwise_singleton _ _, by simpa using h⟩

theorem increasing_gather (o : Conventions) : ∀ (lines : List Text) (pending : Option SourceLine) (number low : Nat),
    low ≤ number → (∀ p ∈ pending, low ≤ p.number ∧ p.number < number) → Increasing low (gather o pending number lines)
  | [], pending, number, low, _, hp => by
    rw [gather]
    cases pending with
    | none => exact ⟨.nil, by simp⟩
    | some p => exact increasing_kept (hp p rfl).1
  | x :: xs, pending, number, low, hlow, hp => by
    -- the line that is begun or continued bears a number that was free until now
    have hline : low ≤ (extend pending number (o.piece x).1).number ∧
        (extend pending number (o.piece x).1).number < number + 1 := by
      cases pending with
      | none => exact ⟨hlow, Nat.lt_succ_self number⟩
      | some p => exact ⟨(hp p rfl).1, Nat.lt_succ_of_lt (hp p rfl).2⟩
    rw [gather]
    split
    · refine increasing_gather o xs _ (number + 1) low (by omega) (fun p h => ?_)
      obtain rfl := Option.mem_some_iff.1 h
      exact hline
    · obtain ⟨hrest, hbound⟩ := increasing_gather o xs none (number + 1) (number + 1) (Nat.le_refl _) (fun p h => by cases h)
      obtain ⟨hkept, hlower⟩ := increasing_kept hline.1
      constructor
      · refine List.pairwise_append.2 ⟨hkept, hrest, fun l hl m hm => ?_⟩
        have := hbound m hm
        rw [eq_of_mem_kept hl]
        omega
      · intro l hl
        rcases List.mem_append.1 hl with hl | hl
        · exact hlower l hl
        · have := hbound l hl
          omega

end SourceLine

theorem increasing_logicalLines (o : Conventions) (physical : List Text) :
    (logicalLines o physical).Pairwise (fun l m => l.number < m.number) :=
  (SourceLine.increasing_gather o physical none 1 1 (Nat.le_refl 1) (fun p h => by cases h)).1

theorem CodeLine.filter_number : ∀ {lines : List CodeLine}, lines.Pairwise (fun l m => l.number < m.number) →
    ∀ {l : CodeLine}, l ∈ lines → lines.filter (fun m => m.number == l.number) = [l]
  | [], _, _, hl => by cases hl
  | x :: xs, h, l, hl => by
    obtain ⟨hx, hxs⟩ := List.pairwise_cons.1 h
    rcases List.mem_cons.1 hl with rfl | hl
    · have hrest : xs.filter (fun m => m.number == l.number) = [] := by
        rw [List.filter_eq_nil_iff]
        intro m hm
        have := hx m hm
        simp only [beq_iff_eq]
        omega
      rw [List.filter_cons_of_pos (by simp), hrest]
    · have hne : ¬ (x.number == l.number) = true := by
        have := hx l hl
        simp only [beq_iff_eq]
        omega
      rw [List.filter_cons, if_neg hne, filter_number hxs hl]

/-! ## Columns in a line -/

theorem Column.Spans.within {c : Column} {ts : List Token} {n : Nat} (h : c.Spans ts)
    (hin : ∀ t ∈ ts, t.column.start < t.column.stop ∧ t.column.stop ≤ n)
    (horder : ts.Pairwise (fun t u => t.column.start < u.column.start ∧ t.column.stop ≤ u.column.start)) :
    c.start < c.stop ∧ c.stop ≤ n := by
  obtain ⟨t, u, ht, hu, rfl⟩ := h
  have hfirst := hin t (List.mem_of_head? ht)
  have hlast := hin u (List.mem_of_getLast? hu)
  refine ⟨?_, hlast.2⟩
  cases ts with
  | nil => cases ht
  | cons x xs =>
    obtain rfl : x = t := by simpa using ht
    rcases List.mem_cons.1 (List.mem_of_getLast? hu) with rfl | hmem
    · exact hfirst.1
    · have := (List.rel_of_pairwise_cons horder hmem).2
      simp only
      omega

theorem Diagnostic.About.within {d : Diagnostic} {number : Nat} {text : Text}
    (h : d.About number (tokenize text)) : d.column.start < d.column.stop ∧ d.column.stop ≤ text.chomp.length := by
  obtain ⟨ts, hts, hc⟩ := h.column
  have hspelled := Lexer.spelled_scan text.chomp 0
  refine hc.within (fun t ht => ?_) (hspelled.ordered.sublist hts)
  have := hspelled.bounds t (hts.subset ht)
  omega

/-! ## The underlined part of a line -/

namespace Decoration

theorem walk_switch (c : Column) (i : Nat) (on : Bool) (x : Char) (xs : Text) :
    walk c i on (x :: xs) = switch on (c.contains i) ++ walk c i (c.contains i) (x :: xs) := by
  simp [walk, switch]

theorem walk_append (c : Column) (on : Bool) (ys : Text) : ∀ (xs : Text) (i : Nat),
    (∀ k, i ≤ k → k < i + xs.length → c.contains k = on) →
      walk c i on (xs ++ ys) = xs ++ walk c (i + xs.length) on ys
  | [], i, _ => rfl
  | x :: xs, i, h => by
    have hx : c.contains i = on := h i (Nat.le_refl i) (by simp)
    have hxs := walk_append c on ys xs (i + 1) (fun k hk hk' => h k (by omega) (by simp only [List.length_cons]; omega))
    rw [List.cons_append, walk, hx, hxs, List.length_cons, Nat.add_right_comm, ← Nat.add_assoc]
    simp [switch]

theorem walk_behind {c : Column} (hc : c.start < c.stop) {i : Nat} (hi : c.stop ≤ i) (ys : Text) :
    walk c i true ys = Style.plain ++ ys := by
  have hend : ∀ (j : Nat) (on : Bool), walk c j on [] = switch on false := by
    intro j on
    rw [walk, if_neg (by omega)]
  have hout : ∀ k, i ≤ k → c.contains k = false := by
    intro k hk
    simp only [Column.contains, Bool.and_eq_false_iff, decide_eq_false_iff_not]
    omega
  cases ys with
  | nil =>
    rw [hend]
    rfl
  | cons y ys =>
    have hcopy := walk_append c false [] (y :: ys) i (fun k hk _ => hout k hk)
    rw [walk_switch, hout i (Nat.le_refl i), ← List.append_nil (y :: ys), hcopy, hend]
    simp [switch]

end Decoration

theorem decorate_append {marked : Text} (hne : marked ≠ []) (before behind : Text) :
    decorate (before ++ (marked ++ behind)) ⟨before.length, before.length + marked.length⟩ =
      before ++ (Style.underline ++ (marked ++ (Style.plain ++ behind))) := by
  have hpos := List.length_pos_iff.2 hne
  have hbefore := Decoration.walk_append ⟨before.length, before.length + marked.length⟩ false (marked ++ behind) before 0
    (fun k _ hk => by simp only [Column.contains, Bool.and_eq_false_iff, decide_eq_false_iff_not]; omega)
  have hmarked := Decoration.walk_append ⟨before.length, before.length + marked.length⟩ true behind marked before.length
    (fun k hk hk' => by simp only [Column.contains, Bool.and_eq_true, decide_eq_true_eq]; omega)
  have hon : Column.contains ⟨before.length, before.length + marked.length⟩ before.length = true := by
    simp only [Column.contains, Bool.and_eq_true, decide_eq_true_eq]
    omega
  obtain ⟨x, xs, rfl⟩ := List.exists_cons_of_ne_nil hne
  rw [decorate, hbefore, Nat.zero_add, List.cons_append, Decoration.walk_switch, hon, ← List.cons_append, hmarked,
    Decoration.walk_behind (by simp only; omega) (Nat.le_refl _)]
  rfl

/-- **What is underlined in a line** are the characters of a column that is not empty and ends inside it. -/
theorem decorate_cut {source : Text} {c : Column} (hc : c.start < c.stop) (hl : c.stop ≤ source.length) :
    decorate source c = source.take c.start ++ (Style.underline ++ ((source.take c.stop).drop c.start ++
      (Style.plain ++ source.drop c.stop))) := by
  have hsplit : source = source.take c.start ++ ((source.take c.stop).drop c.start ++ source.drop c.stop) := by
    have hstart : (source.take c.stop).take c.start = source.take c.start := by
      rw [List.take_take, Nat.min_eq_left (Nat.le_of_lt hc)]
    rw [← List.append_assoc, ← hstart, List.take_append_drop, List.take_append_drop]
  have hbefore : (source.take c.start).length = c.start := by
    rw [List.length_take]
    omega
  have hmarked : ((source.take c.stop).drop c.start).length = c.stop - c.start := by
    rw [List.length_drop, List.length_take]
    omega
  have hne : (source.take c.stop).drop c.start ≠ [] := by
    rw [← List.length_pos_iff, hmarked]
    omega
  have h := decorate_append hne (source.take c.start) (source.drop c.stop)
  rwa [← hsplit, hbefore, hmarked, show c.start + (c.stop - c.start) = c.stop by omega] at h

/-! ## Reports in a source -/

/-- **Every report points at source that is there.**  Where reading succeeds, each report bears the number of exactly one
logical line, and its column is not empty and ends inside the line.  So the line is found for it, and shown with exactly
the characters of the column underlined. -/
theorem diagnostics_point_at_source (o : Conventions) (f : Feed) (source : List SourceLine)
    (h : f.logicalLines o = .ok source) :
    ∀ d ∈ (Parse.ofFeed o f).diagnostics, ∃ l ∈ (Parse.ofFeed o f).lines,
      d.line? = some l.number ∧ (Parse.ofFeed o f).lines.filter (fun m => m.number == l.number) = [l] ∧
      d.column.start < d.column.stop ∧ d.column.stop ≤ l.source.length ∧
      (Parse.ofFeed o f).lineOf? d = some l ∧
      decorate l.source d.column = l.source.take d.column.start ++ (Style.underline ++
        ((l.source.take d.column.stop).drop d.column.start ++ (Style.plain ++ l.source.drop d.column.stop))) := by
  have hparse : Parse.ofFeed o f = Parse.ofLines source := by rw [Parse.ofFeed, h]
  have hnumbers : (Parse.ofLines source).lines.Pairwise (fun l m => l.number < m.number) := by
    rcases Feed.logicalLines_cases o f with ⟨texts, hread, -⟩ | ⟨d, hread, -⟩
    · rw [hread] at h
      cases h
      exact List.pairwise_map.2 (increasing_logicalLines o texts)
    · rw [hread] at h
      cases h
  rw [hparse]
  intro d hd
  obtain ⟨l, hl, habout⟩ := about_ofLines source d hd
  obtain ⟨x, -, rfl⟩ := List.mem_map.1 hl
  have hone := CodeLine.filter_number hnumbers hl
  have hwithin := habout.within
  refine ⟨_, hl, habout.line, hone, hwithin.1, hwithin.2, ?_, decorate_cut hwithin.1 hwithin.2⟩
  rw [Parse.lineOf?, habout.line, Option.bind_some, ← List.head?_filter, hone]
  rfl

/-- A bracket left open in the second of two physical lines is underlined in the logical line they are joined to. -/
theorem diagnostics_point_at_source_joined :
    Feed.logicalLines {} (Feed.ofText "PRINT a _ ' note\n + (3.1.4\n".toList) = .ok [⟨1, "PRINT a + (3.1.4".toList⟩] ∧
    (Fault.missingCloser .round).located 1 ⟨10, 11⟩ ∈
      (Parse.ofFeed {} (Feed.ofText "PRINT a _ ' note\n + (3.1.4\n".toList)).diagnostics ∧
    ∃ l ∈ (Parse.ofFeed {} (Feed.ofText "PRINT a _ ' note\n + (3.1.4\n".toList)).lines, l.number = 1 ∧
      decorate l.source ⟨10, 11⟩ = l.source.take 10 ++ (Style.underline ++
        ((l.source.take 11).drop 10 ++ (Style.plain ++ l.source.drop 11))) := by
  have hread : Feed.logicalLines {} (Feed.ofText "PRINT a _ ' note\n + (3.1.4\n".toList) =
      .ok [⟨1, "PRINT a + (3.1.4".toList⟩] := by rfl
  have hmem : (Fault.missingCloser .round).located 1 ⟨10, 11⟩ ∈
      (Parse.ofFeed {} (Feed.ofText "PRINT a _ ' note\n + (3.1.4\n".toList)).diagnostics := by decide +kernel
  obtain ⟨l, hl, hline, -, -, -, -, hdecorated⟩ := diagnostics_point_at_source {} _ _ hread _ hmem
  exact ⟨hread, hmem, l, hl, (Option.some.inj hline).symm, hdecorated⟩

end BlockBasic
