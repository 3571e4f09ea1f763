import BlockBasic.Proofs.Cleaning
import BlockBasic.Proofs.Places
import Mathlib.Data.List.SplitBy
/-!
# Continued — a logical line is a group of physical ones

Cut behind every line that does not go on, the physical lines of a source fall into groups (`groups`).  Each group with
code in it is one logical line, which bears the number of the group's first line and holds the pieces of the group's lines
with single spaces between them (`ofGroup?`).  The walk over the lines keeps the group that is not at its end yet as the
line that waits to be continued (`gather_eq`), whatever of the group is blank, a comment or a lone continuation mark.
-/
namespace BlockBasic

namespace Text

/-! ## Trimmed text -/

theorem Trimmed.append {s t : Text} (hs : s.Trimmed) (hne : s ≠ []) (ht : t.Trimmed) (hne' : t ≠ []) (gap : Text) :
    Trimmed (s ++ (gap ++ t)) := by
  constructor
  · rw [List.head?_append_of_ne_nil _ hne]
    exact hs.1
  · rw [← List.append_assoc, List.getLast?_append_of_ne_nil _ hne']
    exact ht.2

theorem trimmed_trimEnd {t : Text} (h : t.head?.all (fun c => !isBlank c) = true) : Trimmed (trimEnd t) := by
  cases t with
  | nil       => exact ⟨rfl, rfl⟩
  | cons c cs =>
    have hstart : trimStart (c :: cs) = c :: cs := List.dropWhile_cons_of_neg (by simpa using h)
    have := trimmed_trim (c :: cs)
    rwa [trim, hstart] at this

end Text

namespace Conventions

theorem trimmed_strip (o : Conventions) (line : Text) : Text.Trimmed (o.strip line).1 := by
  rw [strip]
  split
  · exact ⟨rfl, rfl⟩
  · exact Text.trimmed_trim _

/-- **A line's share of its logical line has no blanks at its ends**, even where a continuation mark was taken off. -/
theorem trimmed_piece (o : Conventions) (line : Text) : Text.Trimmed (o.piece line).1 := by
  have hstrip := o.trimmed_strip line
  rw [piece]
  split
  · refine Text.trimmed_trimEnd ?_
    cases hcode : (o.strip line).1 with
    | nil       => rfl
    | cons c cs =>
      rw [hcode] at hstrip
      cases cs with
      | nil       => rfl
      | cons d ds => exact hstrip.1
  · exact hstrip

theorem piece_of_continuation_eq_none {o : Conventions} (h : o.continuation = none) (line : Text) :
    o.piece line = ((o.strip line).1, false) := by
  rw [piece, continues, h]
  rfl

end Conventions

namespace SourceLine

variable {o : Conventions}

/-! ## Groups of lines -/

/-- **Numbered lines, cut behind every line that does not go on.** -/
def groups (o : Conventions) (lines : List (Text × Nat)) : List (List (Text × Nat)) :=
  lines.splitBy (fun l _ => (o.piece l.1).2)

def pieces (o : Conventions) (group : List (Text × Nat)) : List Text :=
  (group.map (fun l => (o.piece l.1).1)).filter (· ≠ [])

/-- A group as one line: the number of its first line, and the pieces with single spaces between them. -/
def line? (o : Conventions) (group : List (Text × Nat)) : Option SourceLine :=
  group.head?.map (fun l => ⟨l.2, [' '].intercalate (pieces o group)⟩)

/-- **The logical line of a group**, unless the group has no code. -/
def ofGroup? (o : Conventions) (group : List (Text × Nat)) : Option SourceLine :=
  if pieces o group = [] then none else line? o group

theorem groups_append {first : List (Text × Nat)} (hne : first ≠ []) (hgo : ∀ l ∈ first.dropLast, (o.piece l.1).2 = true)
    (rest : List (Text × Nat)) (hstop : rest ≠ [] → ∀ l ∈ first.getLast?, (o.piece l.1).2 = false) :
    groups o (first ++ rest) = first :: groups o rest := by
  have hchain : first.IsChain (fun l _ => (o.piece l.1).2 = true) := by
    refine List.isChain_iff_getElem.2 fun i hi => hgo _ ?_
    rw [← List.getElem_dropLast (by simp; omega)]
    exact List.getElem_mem _
  have hsplit : groups o (first ++ rest) = groups o first ++ groups o rest := by
    refine List.splitBy_append fun l hl m hm => hstop ?_ l hl
    rintro rfl
    cases hm
  rw [hsplit, groups, List.splitBy_of_isChain hne hchain]
  rfl

/-! ## Pieces with spaces between them -/

theorem ne_nil_of_mem_pieces {group : List (Text × Nat)} : ∀ p ∈ pieces o group, p ≠ [] := by
  intro p hp
  simpa using (List.mem_filter.1 hp).2

theorem pieces_concat (group : List (Text × Nat)) (l : Text × Nat) :
    pieces o (group ++ [l]) = pieces o group ++ [(o.piece l.1).1].filter (· ≠ []) := by
  rw [pieces, List.map_append, List.filter_append]
  rfl

theorem intercalate_eq_nil {ps : List Text} (h : ∀ p ∈ ps, p ≠ []) : [' '].intercalate ps = [] ↔ ps = [] := by
  match ps with
  | []           => exact iff_of_true rfl rfl
  | [p]          => simpa using h p List.mem_cons_self
  | p :: q :: ps => simp [List.intercalate_cons_cons]

theorem intercalate_concat (q : Text) : ∀ {ps : List Text}, ps ≠ [] →
    [' '].intercalate (ps ++ [q]) = [' '].intercalate ps ++ ' ' :: q
  | [], h            => absurd rfl h
  | [p], _           => by simp [List.intercalate_cons_cons]
  | p :: q' :: ps, _ => by
    have ih := intercalate_concat q (List.cons_ne_nil q' ps)
    rw [List.cons_append, List.cons_append, List.intercalate_cons_cons, ← List.cons_append, ih,
      List.intercalate_cons_cons, List.append_assoc (p ++ [' '])]

/-- **Joining one more piece** is putting it behind the others, if it is not empty. -/
theorem join_intercalate {ps : List Text} (h : ∀ p ∈ ps, p ≠ []) (q : Text) :
    join ([' '].intercalate ps) q = [' '].intercalate (ps ++ [q].filter (· ≠ [])) := by
  by_cases hq : q = []
  · subst hq
    simp [join]
  rw [List.filter_cons_of_pos (by simpa using hq), List.filter_nil]
  by_cases hps : ps = []
  · subst hps
    simp [join]
  · rw [intercalate_concat q hps, join]
    · exact mt (intercalate_eq_nil h).1 hps
    · exact hq

theorem trimmed_intercalate : ∀ {ps : List Text}, (∀ p ∈ ps, p ≠ [] ∧ p.Trimmed) → Text.Trimmed ([' '].intercalate ps)
  | [], _           => ⟨rfl, rfl⟩
  | [p], h          => by simpa using (h p List.mem_cons_self).2
  | p :: q :: ps, h => by
    have hrest : ∀ r ∈ q :: ps, r ≠ [] ∧ r.Trimmed := fun r hr => h r (List.mem_cons_of_mem p hr)
    obtain ⟨hne, hp⟩ := h p List.mem_cons_self
    rw [List.intercalate_cons_cons, List.append_assoc]
    exact hp.append hne (trimmed_intercalate hrest)
      (mt (intercalate_eq_nil fun r hr => (hrest r hr).1).1 (List.cons_ne_nil _ _)) _

/-! ## The walk over the lines -/

theorem extend_line? (group : List (Text × Nat)) (l : Text) (number : Nat) :
    some (extend (line? o group) number (o.piece l).1) = line? o (group ++ [(l, number)]) := by
  have hne : ∀ p ∈ pieces o group, p ≠ [] := ne_nil_of_mem_pieces
  have hjoin := join_intercalate hne (o.piece l).1
  rw [line?, line?, pieces_concat, ← hjoin]
  cases group with
  | nil       => cases (o.piece l).1 <;> rfl
  | cons m ms => rfl

theorem kept_line? {group : List (Text × Nat)} {line : SourceLine} (h : line? o group = some line) :
    line.kept = (ofGroup? o group).toList := by
  obtain ⟨l, hl, rfl⟩ := Option.map_eq_some_iff.1 h
  rw [kept, ofGroup?, line?, hl, if_congr (intercalate_eq_nil ne_nil_of_mem_pieces) rfl rfl]
  split <;> rfl

/-- **The walk over the lines**, with the lines of a group behind it that all go on. -/
theorem gather_eq : ∀ (lines : List Text) (group : List (Text × Nat)) (number : Nat),
    (∀ l ∈ group, (o.piece l.1).2 = true) →
      gather o (line? o group) number lines = (groups o (group ++ lines.zipIdx number)).filterMap (ofGroup? o)
  | [], group, number, hgo => by
    rw [gather, List.zipIdx_nil]
    cases hline : line? o group with
    | none      =>
      obtain rfl : group = [] := by simpa [line?] using hline
      rfl
    | some line =>
      have hne : group ≠ [] := by
        rintro rfl
        cases hline
      rw [groups_append hne (fun l hl => hgo l (List.dropLast_subset _ hl)) [] (fun h => absurd rfl h), Option.map_some,
        Option.getD_some, kept_line? hline, List.filterMap_cons]
      cases ofGroup? o group <;> rfl
  | l :: ls, group, number, hgo => by
    have hextend := extend_line? (o := o) group l number
    have hsplit : group ++ (l :: ls).zipIdx number = group ++ [(l, number)] ++ ls.zipIdx (number + 1) := by
      rw [List.zipIdx_cons, List.append_assoc]
      rfl
    rw [gather, hsplit]
    cases hpiece : (o.piece l).2 with
    | true  =>
      rw [if_pos rfl, hextend]
      refine gather_eq ls (group ++ [(l, number)]) (number + 1) fun m hm => ?_
      rcases List.mem_append.1 hm with hm | hm
      · exact hgo m hm
      · rw [List.mem_singleton.1 hm]
        exact hpiece
    | false =>
      have hlast : ∀ m ∈ (group ++ [(l, number)]).getLast?, (o.piece m.1).2 = false := by
        rw [List.getLast?_concat]
        rintro m ⟨⟩
        exact hpiece
      rw [groups_append (by simp) (by rwa [List.dropLast_concat]) _ (fun _ => hlast), if_neg Bool.false_ne_true,
        kept_line? hextend.symm, List.filterMap_cons]
      have hrest := gather_eq ls [] (number + 1) (by simp)
      rw [List.nil_append] at hrest
      rw [show gather o none (number + 1) ls = _ from hrest]
      cases ofGroup? o (group ++ [(l, number)]) <;> rfl

theorem logicalLines_eq (o : Conventions) (physical : List Text) :
    logicalLines o physical = (groups o (physical.zipIdx 1)).filterMap (ofGroup? o) :=
  gather_eq physical [] 1 (by simp)

/-! ## What logical lines are -/

theorem trimmed_ofGroup? {group : List (Text × Nat)} {line : SourceLine} (h : ofGroup? o group = some line) :
    line.text ≠ [] ∧ line.text.Trimmed := by
  rw [ofGroup?] at h
  split at h
  · cases h
  rename_i hne
  obtain ⟨l, -, rfl⟩ := Option.map_eq_some_iff.1 h
  refine ⟨mt (intercalate_eq_nil ne_nil_of_mem_pieces).1 hne, trimmed_intercalate fun p hp => ⟨ne_nil_of_mem_pieces p hp, ?_⟩⟩
  obtain ⟨m, -, rfl⟩ := List.mem_map.1 (List.mem_filter.1 hp).1
  exact o.trimmed_piece m.1

theorem groups_of_continuation_eq_none (ho : o.continuation = none) : ∀ lines : List (Text × Nat),
    groups o lines = lines.map (fun l => [l])
  | []      => rfl
  | l :: ls => by
    have hstop : ∀ m ∈ [l].getLast?, (o.piece m.1).2 = false :=
      fun m _ => by rw [Conventions.piece_of_continuation_eq_none ho]
    rw [← List.singleton_append, groups_append (List.cons_ne_nil l []) (by simp) ls (fun _ => hstop),
      groups_of_continuation_eq_none ho ls]
    rfl

theorem ofGroup?_singleton (ho : o.continuation = none) (l : Text × Nat) :
    ofGroup? o [l] = (o.code? l.1).map (fun code => ⟨l.2, code⟩) := by
  have hpieces : pieces o [l] = [(o.strip l.1).1].filter (· ≠ []) := by
    rw [pieces, List.map_singleton, Conventions.piece_of_continuation_eq_none ho]
  rw [ofGroup?, line?, hpieces, Conventions.code?]
  by_cases hcode : (o.strip l.1).1 = []
  · rw [if_pos hcode, hcode]
    rfl
  · rw [if_neg hcode, List.filter_cons_of_pos (by simpa using hcode), List.filter_nil, List.intercalate_singleton]
    rfl

end SourceLine

open SourceLine (groups ofGroup?)

/-- **The logical lines of a source that can be read** are the groups of its physical lines that have code: each with the
number of its first line, counted from one, and with the pieces of its lines that are not empty, joined by single spaces.
So their numbers increase, none is empty or has a blank at an end, and where there is no continuation character they are
the code of every line that has some. -/
theorem logicalLines_by_groups (o : Conventions) (physical : List Text) (f : Feed) (hread : f.reads = physical.map .ok)
    (hcalm : ∀ i ≤ physical.length, ¬ f.RaisedAt i) :
    ∃ lines, f.logicalLines o = .ok lines ∧
      lines = (groups o (physical.zipIdx 1)).filterMap (ofGroup? o) ∧
      lines.Pairwise (fun l m => l.number < m.number) ∧
      (∀ l ∈ lines, l.text ≠ [] ∧ l.text.Trimmed) ∧
      (o.continuation = none →
        lines = (physical.zipIdx 1).filterMap (fun l => (o.code? l.1).map (fun code => ⟨l.2, code⟩))) := by
  have hlines := SourceLine.logicalLines_eq o physical
  refine ⟨logicalLines o physical, ?_, hlines, increasing_logicalLines o physical, fun l hl => ?_, fun ho => ?_⟩
  · rcases Feed.logicalLines_cases o f with ⟨texts, hok, htexts, -⟩ | ⟨d, -, i, hoff, -⟩
    · rw [hok, List.map_injective_iff.2 (fun _ _ => Except.ok.inj) (htexts.symm.trans hread)]
    · refine absurd hoff (Feed.never_offends_iff.2 ⟨fun r hr => ?_, fun j hj => hcalm j ?_⟩ i d)
      · rw [hread] at hr
        obtain ⟨text, -, rfl⟩ := List.mem_map.1 hr
        exact ⟨text, rfl⟩
      · rwa [hread, List.length_map] at hj
  · rw [hlines] at hl
    obtain ⟨group, -, hgroup⟩ := List.mem_filterMap.1 hl
    exact SourceLine.trimmed_ofGroup? hgroup
  · rw [hlines, SourceLine.groups_of_continuation_eq_none ho, List.filterMap_map]
    exact congrArg (List.filterMap · _) (funext (SourceLine.ofGroup?_singleton ho))

/-- A lone mark, a comment and a blank line in between, a last line that goes on in nothing, and an interrupt too late. -/
theorem logicalLines_by_groups_blank :
    (∀ i ≤ 7, ¬ Feed.RaisedAt { Feed.ofText "A = 1 + _\n_\n' note _\nB _ ' more\n\tC\n\nD _".toList with
      interruptAt := some 8 } i) ∧
    Feed.logicalLines {} { Feed.ofText "A = 1 + _\n_\n' note _\nB _ ' more\n\tC\n\nD _".toList with
      interruptAt := some 8 } = .ok [⟨1, "A = 1 +".toList⟩, ⟨4, "B C".toList⟩, ⟨7, "D".toList⟩] := by
  have hcalm : ∀ i ≤ 7, ¬ Feed.RaisedAt { Feed.ofText "A = 1 + _\n_\n' note _\nB _ ' more\n\tC\n\nD _".toList with
      interruptAt := some 8 } i := by
    rintro i hi ⟨k, hk, hki⟩
    cases hk
    omega
  obtain ⟨lines, hok, hlines, -⟩ := logicalLines_by_groups {} (splitLines '\r' '\n'
    "A = 1 + _\n_\n' note _\nB _ ' more\n\tC\n\nD _".toList) _ rfl hcalm
  refine ⟨hcalm, hok.trans (congrArg Except.ok (hlines.trans ?_))⟩
  decide +kernel

end BlockBasic
