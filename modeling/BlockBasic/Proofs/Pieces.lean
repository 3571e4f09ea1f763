import Mathlib
import BlockBasic.Proofs.ListedLines
import BlockBasic.Parse
/-!
# Pieces — what the conventions leave of a line

The conventions take comments, remarks and continuation characters off a line, and join lines.  None of that adds
`ink`, by which we mean the characters that are not blank: the logical lines of a source hold as much ink as the pieces of
its physical lines (`ink_gather`), and a firm line whose piece holds all of its ink is its own piece
(`ink_piece`).
-/
namespace BlockBasic

open Lexer

/-! ## Ink -/

/-- **How much is written in a text**: the number of characters that are not blank. -/
def Text.ink (t : Text) : Nat := t.countP (fun c => !isBlank c)

namespace Text

@[simp] theorem ink_nil : ink [] = 0 := rfl

@[simp] theorem ink_append (s t : Text) : ink (s ++ t) = ink s + ink t := List.countP_append

theorem ink_cons_of_blank {c : Char} (h : isBlank c = true) (t : Text) : ink (c :: t) = ink t :=
  List.countP_cons_of_neg (by simp [h])

theorem ink_cons_of_mark {c : Char} (h : isBlank c = false) (t : Text) : ink (c :: t) = ink t + 1 :=
  List.countP_cons_of_pos (by simp [h])

theorem ink_trimStart (t : Text) : ink (trimStart t) = ink t := by
  induction t with
  | nil => rfl
  | cons c cs ih =>
    cases h : isBlank c with
    | true => rw [ink_cons_of_blank h, ← ih, trimStart, List.dropWhile_cons_of_pos h, trimStart]
    | false => rw [trimStart, List.dropWhile_cons_of_neg (by simp [h])]

theorem ink_trimEnd (t : Text) : ink (trimEnd t) = ink t := by
  have h := ink_trimStart t.reverse
  rw [ink, ink, List.countP_reverse, trimStart] at h
  rw [trimEnd, dropTail, ink, ink, List.countP_reverse]
  exact h

theorem ink_trim (t : Text) : ink (trim t) = ink t := (ink_trimEnd _).trans (ink_trimStart t)

theorem isBlank_of_isVisible {c : Char} (h : isVisible c = true) : isBlank c = false := by
  simp only [isVisible, Bool.and_eq_true, decide_eq_true_eq] at h
  simp only [isBlank, inRanges, blankRanges, List.any_cons, List.any_nil, Bool.or_false, Bool.or_eq_false_iff,
    Bool.and_eq_false_iff, decide_eq_false_iff_not]
  omega

theorem isBlank_of_isGap {c : Char} (h : isGap c = true) : isBlank c = true := by
  rw [isGap, Bool.or_eq_true, beq_iff_eq, beq_iff_eq] at h
  rcases h with rfl | rfl <;> decide

theorem ink_of_visible {t : Text} (h : ∀ c ∈ t, isVisible c = true) : ink t = t.length :=
  List.countP_eq_length.2 (fun c hc => by rw [isBlank_of_isVisible (h c hc)]; rfl)

theorem Firm.ink_pos {t : Text} (h : t.Firm) : 0 < ink t := by
  cases t with
  | nil => exact absurd rfl h.ne_nil
  | cons c cs =>
    rw [ink_cons_of_mark (isBlank_of_isVisible h.first)]
    omega

theorem Firm.trim_eq_self {t : Text} (h : t.Firm) : trim t = t := by
  have hstart : trimStart t = t := by
    cases t with
    | nil => rfl
    | cons c cs => exact List.dropWhile_cons_of_neg (by simp [isBlank_of_isVisible h.first])
  rw [trim, hstart]
  refine dropTail_eq_self ?_
  cases hl : t.getLast? with
  | none => rfl
  | some c =>
    have hlast := h.last
    rw [hl] at hlast
    simp [isBlank_of_isVisible hlast]

theorem dropTail_sublist (p : Char → Bool) (t : Text) : (t.dropTail p).Sublist t := by
  have h := (List.dropWhile_sublist p (l := t.reverse)).reverse
  rwa [List.reverse_reverse] at h

end Text

/-! ## Pieces -/

namespace Conventions

open Text (ink)

/-- **A line is cut off at a comment character or a colon, or not at all.** -/
theorem cut_cases (o : Conventions) : ∀ (inString : Bool) (t : Text), (o.cut inString t).1 = t ∨
    ∃ c rest, t = (o.cut inString t).1 ++ c :: rest ∧ (c = o.comment ∨ c = ':')
  | _, [] => .inl rfl
  | inString, c :: cs => by
    have hkeep : ∀ b, (o.cut inString (c :: cs)).1 = c :: (o.cut b cs).1 →
        (o.cut inString (c :: cs)).1 = c :: cs ∨ ∃ d rest, c :: cs = (o.cut inString (c :: cs)).1 ++ d :: rest ∧
          (d = o.comment ∨ d = ':') := by
      intro b h
      rw [h]
      rcases cut_cases o b cs with he | ⟨d, rest, he, hd⟩
      · exact .inl (by rw [he])
      · exact .inr ⟨d, rest, by rw [List.cons_append, ← he], hd⟩
    rw [cut] at hkeep ⊢
    split
    · rename_i hq
      rw [if_pos hq] at hkeep
      exact hkeep _ rfl
    rename_i hq
    rw [if_neg hq] at hkeep
    split
    · rename_i hs
      refine .inr ⟨c, cs, rfl, ?_⟩
      rw [Bool.and_eq_true, startsComment, Bool.or_eq_true, beq_iff_eq, Bool.and_eq_true, Bool.and_eq_true, beq_iff_eq] at hs
      exact hs.2.elim .inl (fun h => .inr h.1.1)
    · rename_i hs
      rw [if_neg hs] at hkeep
      exact hkeep _ rfl

theorem piece_sublist (o : Conventions) (l : Text) : (o.piece l).1.Sublist l := by
  have hcut : (o.cut false l.chomp).1.Sublist l.chomp := by
    rcases o.cut_cases false l.chomp with h | ⟨c, rest, h, -⟩
    · simp only [h, List.Sublist.refl]
    · conv => rhs; rw [h]
      exact List.sublist_append_left _ _
  have hstrip : (o.strip l).1.Sublist l := by
    rw [strip]
    split
    · exact List.nil_sublist l
    · exact ((Text.dropTail_sublist _ _).trans (List.dropWhile_sublist _)).trans (hcut.trans (Text.dropTail_sublist _ l))
  rw [piece]
  split
  · exact (Text.dropTail_sublist _ _).trans ((List.dropLast_sublist _).trans hstrip)
  · exact hstrip

/-! ## The pieces of firm lines -/

abbrev usual : Conventions := {}

/-- What is cut off a line is a comment, and a comment holds ink. -/
theorem ink_cut (inString : Bool) (t : Text) : ink (usual.cut inString t).1 ≤ ink t ∧
    (ink t ≤ ink (usual.cut inString t).1 → (usual.cut inString t).1 = t) := by
  rcases usual.cut_cases inString t with h | ⟨c, rest, h, hc⟩
  · exact ⟨Nat.le_of_eq (congrArg ink h), fun _ => h⟩
  · have hmark : Text.isBlank c = false := by rcases hc with rfl | rfl <;> decide
    have hink : ink t = ink (usual.cut inString t).1 + (ink rest + 1) := by
      rw [← Text.ink_cons_of_mark hmark, ← Text.ink_append, ← h]
    exact ⟨by omega, fun hle => absurd hle (by omega)⟩

theorem cut_gaps : ∀ {gaps : Text} (t : Text), (∀ c ∈ gaps, isGap c = true) →
    usual.cut false (gaps ++ t) = (gaps ++ (usual.cut false t).1, (usual.cut false t).2)
  | [], _, _ => rfl
  | c :: gaps, t, h => by
    have hc := h c List.mem_cons_self
    have hq : c ≠ '"' := by rintro rfl; exact absurd hc (by decide)
    have hcode : (!false && usual.startsComment c (gaps ++ t)) = false := by
      rw [isGap, Bool.or_eq_true, beq_iff_eq, beq_iff_eq] at hc
      rcases hc with rfl | rfl <;> rfl
    rw [List.cons_append, cut, if_neg hq, hcode, if_neg (by simp),
      cut_gaps t (fun d hd => h d (List.mem_cons_of_mem c hd))]
    rfl

theorem piece_gaps {gaps t : Text} (hg : ∀ c ∈ gaps, isGap c = true) (ht : t.Firm) :
    usual.piece (gaps ++ t) = usual.piece t := by
  have htrim : ∀ s : Text, (gaps ++ s).trim = s.trim := by
    intro s
    rw [Text.trim, Text.trim, Text.trimStart, List.dropWhile_append_of_pos (fun c hc => Text.isBlank_of_isGap (hg c hc))]
    rfl
  have hchomp : t.chomp = t := Text.chomp_append_of_firm [] ht
  have hstrip : usual.strip (gaps ++ t) = usual.strip t := by
    rw [strip, strip, Text.chomp_append_of_firm gaps ht, hchomp, cut_gaps t hg]
    simp only [htrim]
  rw [piece, piece, hstrip]

/-- **A firm line has no less ink than its piece, and if it has no more, the piece is the line** and the line does not go
on. -/
theorem ink_piece {t : Text} (ht : t.Firm) : ink (usual.piece t).1 ≤ ink t ∧
    (ink t ≤ ink (usual.piece t).1 → usual.piece t = (t, false)) := by
  have hchomp : t.chomp = t := Text.chomp_append_of_firm [] ht
  obtain ⟨hle, heq⟩ := ink_cut false t
  have hpos := ht.ink_pos
  have hstrip : ink (usual.strip t).1 ≤ ink t ∧ (ink t ≤ ink (usual.strip t).1 → (usual.strip t).1 = t) := by
    rw [strip, hchomp]
    split
    · exact ⟨Nat.zero_le _, fun h => absurd h (by simp only [Text.ink_nil]; omega)⟩
    · simp only [Text.ink_trim]
      refine ⟨hle, fun h => ?_⟩
      rw [heq h, ht.trim_eq_self]
  rw [piece]
  split
  · rename_i hmark
    -- the continuation character is ink that the piece has not
    have hlast : (usual.strip t).1.getLast? = some '_' := by
      simp only [continues, Bool.and_eq_true, beq_iff_eq] at hmark
      exact hmark.1.2
    have hink : ink (usual.strip t).1 = ink (usual.strip t).1.dropLast + 1 := by
      obtain ⟨s, hs⟩ := List.getLast?_eq_some_iff.1 hlast
      rw [hs, List.dropLast_concat, Text.ink_append]
      rfl
    simp only [Text.ink_trimEnd]
    exact ⟨by omega, fun h => absurd h (by omega)⟩
  · exact ⟨hstrip.1, fun h => Prod.ext (hstrip.2 h) rfl⟩

end Conventions

/-! ## Logical lines -/

namespace SourceLine

open Text (ink)

theorem ink_join (s t : Text) : ink (join s t) = ink s + ink t := by
  unfold join
  split
  · rfl
  · rw [Text.ink_nil, Nat.zero_add]
  · rw [Text.ink_append, Text.ink_cons_of_blank (by decide)]

theorem ink_extend (pending : Option SourceLine) (number : Nat) (x : Text) :
    ink (extend pending number x).text = (pending.map (fun l => ink l.text)).getD 0 + ink x := by
  cases pending with
  | none => exact (Nat.zero_add _).symm
  | some l => exact ink_join l.text x

theorem ink_kept (l : SourceLine) : (l.kept.map (fun x => ink x.text)).sum = ink l.text := by
  rw [kept]
  split
  · rename_i h
    rw [h]
    rfl
  · simp

theorem ink_gather (o : Conventions) : ∀ (lines : List Text) (pending : Option SourceLine) (number : Nat),
    ((gather o pending number lines).map (fun x => ink x.text)).sum =
      (pending.map (fun l => ink l.text)).getD 0 + (lines.map (fun l => ink (o.piece l).1)).sum
  | [], pending, number => by
    cases pending with
    | none => rfl
    | some l => exact ink_kept l
  | l :: ls, pending, number => by
    rw [gather]
    split
    · rw [ink_gather o ls, Option.map_some, Option.getD_some, ink_extend, List.map_cons, List.sum_cons, Nat.add_assoc]
    · rw [List.map_append, List.sum_append, ink_kept, ink_extend, ink_gather o ls, Option.map_none, Option.getD_none,
        Nat.zero_add, List.map_cons, List.sum_cons, Nat.add_assoc]

theorem text_gather {o : Conventions} : ∀ {lines texts : List Text} (number : Nat),
    lines.map o.piece = texts.map (fun x => (x, false)) → (∀ x ∈ texts, x ≠ []) →
      (gather o none number lines).map SourceLine.text = texts
  | [], [], _, _, _ => rfl
  | l :: ls, x :: xs, number, h, hne => by
    obtain ⟨hl, hls⟩ := List.cons.inj h
    have hx := hne x List.mem_cons_self
    rw [gather, hl, if_neg (by simp), List.map_append,
      text_gather (number + 1) hls (fun y hy => hne y (List.mem_cons_of_mem x hy))]
    simp [extend, kept, hx]

theorem not_mem_extend {c : Char} (hc : c ≠ ' ') {pending : Option SourceLine} (hp : ∀ l ∈ pending, c ∉ l.text)
    (number : Nat) {x : Text} (hx : c ∉ x) : c ∉ (extend pending number x).text := by
  cases pending with
  | none => exact hx
  | some p =>
    have hp := hp p rfl
    simp only [extend]
    unfold join
    split
    · exact hp
    · exact hx
    · simp [hp, hx, hc]

theorem not_mem_gather {o : Conventions} {c : Char} (hc : c ≠ ' ') : ∀ {lines : List Text} {pending : Option SourceLine}
    {number : Nat}, (∀ l ∈ lines, c ∉ l) → (∀ l ∈ pending, c ∉ l.text) → ∀ x ∈ gather o pending number lines, c ∉ x.text
  | [], none, _, _, _, x, hx => absurd hx List.not_mem_nil
  | [], some l, _, _, hp, x, hx => by
    rw [eq_of_mem_kept hx]
    exact hp l rfl
  | l :: ls, pending, number, hl, hp, x, hx => by
    have hls := fun m hm => hl m (List.mem_cons_of_mem l hm)
    have hpiece : c ∉ (o.piece l).1 := fun hm => hl l List.mem_cons_self ((o.piece_sublist l).subset hm)
    have hextend := not_mem_extend hc hp number hpiece
    rw [gather] at hx
    split at hx
    · exact not_mem_gather hc hls (fun m hm => by cases hm; exact hextend) x hx
    · rcases List.mem_append.1 hx with hx | hx
      · rw [eq_of_mem_kept hx]
        exact hextend
      · exact not_mem_gather hc hls (fun m hm => by cases hm) x hx

end SourceLine

theorem unbroken_splitLines : ∀ {t : Text}, ∀ l ∈ splitLines '\r' '\n' t, '\n' ∉ l
  | [], l, hl => by cases hl
  | c :: cs, l, hl => by
    have ih := fun m hm => unbroken_splitLines (t := cs) m hm
    rw [splitLines] at hl
    split at hl
    · rcases List.mem_cons.1 hl with rfl | hl
      · exact List.not_mem_nil
      · exact ih l hl
    rename_i hc
    split at hl
    · exact ih l hl
    · have hadd : ∀ m, '\n' ∉ m → '\n' ∉ c :: m := fun m hm h => (List.mem_cons.1 h).elim (fun he => hc he.symm) hm
      split at hl
      · rw [List.mem_singleton.1 hl]
        exact hadd [] List.not_mem_nil
      · rename_i m ms hsplit
        rw [hsplit] at ih
        rcases List.mem_cons.1 hl with rfl | hl
        · exact hadd m (ih m List.mem_cons_self)
        · exact ih l (List.mem_cons_of_mem m hl)

/-- **A text is parsed as the logical lines of its physical ones.** -/
theorem Parse.ofText_eq_ofLines (o : Conventions) (t : Text) :
    Parse.ofText o t = Parse.ofLines (logicalLines o (splitLines '\r' '\n' t)) := by
  have hcollect : ∀ (ls : List Text) (done : Nat), Feed.collect none done (ls.map .ok) = .ok ls := by
    intro ls
    induction ls with
    | nil => exact fun _ => rfl
    | cons l ls ih =>
      intro done
      rw [List.map_cons, Feed.collect, ih]
      rfl
  rw [Parse.ofText, Parse.ofFeed, Feed.logicalLines, Feed.physicalLines, Feed.ofText, hcollect]
  rfl

end BlockBasic
