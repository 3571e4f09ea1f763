import BlockBasic.Proofs.RoundTrip
import BlockBasic.Proofs.Weights
/-!
# Listable — the programs whose listing is read back

Taken through the conventions as well, a listing need not be read as its program: the line `x = _` goes on in the next one,
`REM = 1` is a remark, and the clauses of an `OPEN` statement may run together.  Two conditions on the statements are
enough, each on one statement alone: the line of the statement is its own piece, and no phrase of it takes a word of
the next.  They are needed as well (`listing_reparsed_iff`).  Every stage on the way can only lose ink, so where all of
it arrives, the conventions have taken none from any line; and a line whose phrases run together has fewer of them when
it is read.
-/
namespace BlockBasic

open Lexer
open Expression (nests nestsOf argumentNests laterNests unplacedList)

/-- **Whether the line of a statement is its own piece**: the conventions take nothing off it, and it does not go on. -/
def Statement.isPiece (s : Statement) : Bool := decide (Conventions.usual.piece s.text = (s.text, false))

/-! ## Columns are not listed -/

namespace Expression

mutual

theorem nests_unplaced : ∀ (e : Expression), nests e.unplaced = nests e
  | .atom _ _ => rfl
  | .group _ _ arguments _ => by rw [unplaced, nests, nests, argumentNests_unplaced arguments]

theorem nestsOf_unplaced : ∀ (es : List Expression), nestsOf (unplacedList es) = nestsOf es
  | [] => rfl
  | e :: es => by rw [unplacedList, nestsOf, nestsOf, nests_unplaced e, nestsOf_unplaced es]

theorem argumentNests_unplaced : ∀ (as : List (List Expression)), argumentNests (unplacedArguments as) = argumentNests as
  | [] => rfl
  | a :: as => by rw [unplacedArguments, argumentNests, argumentNests, nestsOf_unplaced a, laterNests_unplaced as]

theorem laterNests_unplaced : ∀ (as : List (List Expression)), laterNests (unplacedArguments as) = laterNests as
  | [] => rfl
  | a :: as => by rw [unplacedArguments, laterNests, laterNests, nestsOf_unplaced a, laterNests_unplaced as]

end

end Expression

theorem Statement.words_unplaced (s : Statement) : s.unplaced.words = s.words := by
  have hes : nestsOf s.unplaced.expressions = nestsOf s.expressions := Expression.nestsOf_unplaced s.expressions
  rw [Statement.words, Statement.words, hes, Statement.unplaced, Option.map_map]
  rfl

/-! ## The ink of a statement -/

namespace Run.Clean

variable {r : Run} (hr : r.Clean) (table : Table)
include hr

theorem total_listed {w : Phrase → Nat} (hw : Phrase.Falls w) :
    Phrase.total w (Nest.flatOf (nestsOf (r.expressions nestingLimit table))) ≤
      Phrase.total w (phrases r.isOpen r.operands) := by
  rw [(looksLike_expressions table r).2, ← flatOf_nests]
  exact Expression.written_ofNests hw hr.whole_nests hr.sound_nests

theorem ink_words : inkOf (r.statement table).words ≤ inkOf r.tokens := by
  have hoperands := hr.total_listed table Phrase.falls_ink
  rw [Phrase.total_ink, Phrase.total_ink, Nest.flatMap_tokens_flatOf, Phrase.flatMap_tokens_phrases,
    (looksLike_expressions table r).2] at hoperands
  rw [words_statement, inkOf_append]
  cases hk : r.keyword? with
  | none =>
    rw [operands_of_keyword?_eq_none hk] at hoperands
    rwa [← Nat.zero_add (inkOf _)] at hoperands
  | some k =>
    obtain ⟨t, ts, hts, hkind, ho⟩ := keyword?_eq_some hk
    have hkey := (hr.sound t (hts ▸ List.mem_cons_self)).ink_keyword hkind
    rw [ho] at hoperands
    rw [hts, inkOf_cons]
    exact Nat.add_le_add hkey hoperands

theorem ink_text : (r.statement table).text.ink = inkOf (r.statement table).words := by
  rw [← hr.read_text table, Lexer.read, inkOf_unplaced]
  exact (spelled_scan _ 0).ink

end Run.Clean

/-! ## The ink of lines -/

theorem CodeLine.ink_stretches : ∀ (depth : Nat) (ts : List Token), ((stretches depth ts).map inkOf).sum ≤ inkOf ts
  | _, [] => Nat.le_refl _
  | depth, t :: ts => by
    rw [stretches, inkOf_cons]
    split
    · have ih := ink_stretches depth ts
      rw [List.map_cons, List.sum_cons, show inkOf [] = 0 from rfl]
      omega
    · have ih := ink_stretches (depthAfter depth t) ts
      split
      · simp [inkOf]
      · rename_i r rs hr
        rw [hr, List.map_cons, List.sum_cons] at ih
        rw [List.map_cons, List.sum_cons, inkOf_cons]
        omega

theorem CodeLine.ink_runs (l : CodeLine) : (l.runs.map inkOf).sum ≤ inkOf l.tokens := by
  have hfilter : l.runs.Sublist (stretches 0 l.tokens) := List.filter_sublist
  exact Nat.le_trans ((hfilter.map inkOf).sum_le_sum (fun _ _ => Nat.zero_le _)) (ink_stretches 0 l.tokens)

theorem ink_runsFrom (source : List SourceLine) (index : Nat) :
    ((runsFrom index (source.map (fun l => CodeLine.ofSource l.number l.text))).map (fun r => inkOf r.tokens)).sum ≤
      (source.map (fun l => l.text.ink)).sum := by
  induction source generalizing index with
  | nil => exact Nat.le_refl _
  | cons l source ih =>
    have hrest := ih (index + 1)
    have hruns := CodeLine.ink_runs (CodeLine.ofSource l.number l.text)
    have htokens : l.text.chomp.ink = inkOf (CodeLine.ofSource l.number l.text).tokens := (spelled_scan l.text.chomp 0).ink
    have hline : inkOf (CodeLine.ofSource l.number l.text).tokens ≤ l.text.ink := by
      rw [← htokens]
      exact (Text.dropTail_sublist _ _).countP_le
    rw [List.map_cons, runsFrom, List.map_append, List.sum_append, List.map_map, List.map_cons, List.sum_cons]
    exact Nat.add_le_add (Nat.le_trans hruns hline) hrest

/-! ## The lines of a listing -/

theorem unbroken_logicalLines (o : Conventions) (t : Text) :
    ∀ l ∈ logicalLines o (splitLines '\r' '\n' t), '\n' ∉ l.text.chomp := by
  intro l hl hm
  exact SourceLine.not_mem_gather (by decide) unbroken_splitLines (fun m hm => by cases hm) l hl (Text.mem_of_mem_chomp hm)

theorem pieces_listing {rs : List Run} (hclean : ∀ r ∈ rs, r.Clean) (table : Table) (i : Indent) :
    (listingLines i (Program.ofRuns table rs)).map Conventions.usual.piece =
      rs.map (fun r => Conventions.usual.piece (r.statement table).text) := by
  have hitems : (Node.entriesOf 0 (blockTree rs)).map Prod.snd = rs := itemsOf_blockTree rs
  rw [listingLines, Program.ofRuns, Node.entriesOf_mapList, List.map_map, List.map_map]
  conv => rhs; rw [← hitems, List.map_map]
  refine List.map_congr_left (fun x hx => ?_)
  have hr : x.2.Clean := hclean x.2 (by rw [← hitems]; exact List.mem_map_of_mem hx)
  exact Conventions.piece_gaps (fun c hc => isGap_of_mem_indent c hc) (hr.firm_text table)

theorem ink_listing {rs : List Run} {table : Table} (hclean : ∀ r ∈ rs, r.Clean) (i : Indent) :
    ((logicalLines .usual (listingLines i (Program.ofRuns table rs))).map (fun l => l.text.ink)).sum =
      (rs.map (fun r => (Conventions.usual.piece (r.statement table).text).1.ink)).sum := by
  have hink := SourceLine.ink_gather .usual (listingLines i (Program.ofRuns table rs)) none 1
  have hpieces : (listingLines i (Program.ofRuns table rs)).map (fun l => (Conventions.usual.piece l).1.ink) =
      rs.map (fun r => (Conventions.usual.piece (r.statement table).text).1.ink) := by
    have h := congrArg (List.map (fun p => Text.ink p.1)) (pieces_listing hclean table i)
    rwa [List.map_map, List.map_map] at h
  rw [Option.map_none, Option.getD_none, Nat.zero_add, hpieces] at hink
  exact hink

theorem unplaced_runs_texts {source : List SourceLine} {rs : List Run} {table : Table} (hclean : ∀ r ∈ rs, r.Clean)
    (h : source.map SourceLine.text = rs.map (fun r => (r.statement table).text)) :
    (programRuns (Parse.ofLines source).lines).map Run.unplaced = rs.map (fun r => (r.statement table).relisted) ∧
      (Parse.ofLines source).lines.flatMap CodeLine.diagnostics = [] := by
  have hgood : ∀ x ∈ rs.map (fun r => (([] : Text), r)), (∀ c ∈ x.1, isGap c = true) ∧ x.2.Clean := by
    intro x hx
    obtain ⟨r, hr, rfl⟩ := List.mem_map.1 hx
    exact ⟨fun c hc => absurd hc List.not_mem_nil, hclean r hr⟩
  have htexts : source.map SourceLine.text = (rs.map (fun r => (([] : Text), r))).map
      (fun x => x.1 ++ (x.2.statement table).text) := by
    rw [h, List.map_map]
    rfl
  obtain ⟨hruns, hreports⟩ := unplaced_runsFrom 0 hgood htexts
  refine ⟨?_, hreports⟩
  rw [programRuns, lines_ofLines, hruns, List.map_map]
  rfl

theorem texts_listing {rs : List Run} {table : Table} (hclean : ∀ r ∈ rs, r.Clean) (i : Indent)
    (h : ∀ r ∈ rs, (r.statement table).isPiece = true) :
    (logicalLines .usual (listingLines i (Program.ofRuns table rs))).map SourceLine.text =
      rs.map (fun r => (r.statement table).text) := by
  refine SourceLine.text_gather 1 ?_ (fun x hx => ?_)
  · rw [pieces_listing hclean, List.map_map]
    exact List.map_congr_left (fun r hr => of_decide_eq_true (h r hr))
  · obtain ⟨r, hr, rfl⟩ := List.mem_map.1 hx
    exact ((hclean r hr).firm_text table).ne_nil

/-! ## The conditions are needed -/

theorem le_of_sum_map_le {α : Type} {f g : α → Nat} {xs : List α} (hle : ∀ x ∈ xs, f x ≤ g x)
    (h : (xs.map g).sum ≤ (xs.map f).sum) : ∀ x ∈ xs, g x ≤ f x := by
  intro x hx
  by_contra hlt
  exact absurd (List.sum_lt_sum f g hle ⟨x, hx, Nat.lt_of_not_le hlt⟩) (Nat.not_lt.2 h)

section

variable {rs ss : List Run} {table other : Table} (hrs : ∀ r ∈ rs, r.Clean) (hss : ∀ s ∈ ss, s.Clean)
  (hsame : ss.map (fun s => (s.statement other).unplaced) = rs.map (fun r => (r.statement table).unplaced))
include hrs hss hsame

/-- **Where the statements come back, the conventions took nothing off their lines**: no ink is lost. -/
theorem isPiece_of_same {source : List SourceLine}
    (hruns : ss = programRuns (source.map (fun l => CodeLine.ofSource l.number l.text)))
    (hsource : (source.map (fun l => l.text.ink)).sum =
      (rs.map (fun r => (Conventions.usual.piece (r.statement table).text).1.ink)).sum) :
    ∀ r ∈ rs, (r.statement table).isPiece = true := by
  have hbare : ∀ (t : Table) (xs : List Run), xs.map (fun x => inkOf (x.statement t).words) =
      (xs.map (fun x => (x.statement t).unplaced)).map (fun s => inkOf s.words) := by
    intro t xs
    rw [List.map_map]
    exact List.map_congr_left (fun x _ => congrArg inkOf (Statement.words_unplaced (x.statement t)).symm)
  have hink : (rs.map (fun r => (r.statement table).text.ink)).sum ≤
      (rs.map (fun r => (Conventions.usual.piece (r.statement table).text).1.ink)).sum := by
    calc (rs.map (fun r => (r.statement table).text.ink)).sum
        = (rs.map (fun r => inkOf (r.statement table).words)).sum :=
          congrArg List.sum (List.map_congr_left (fun r hr => (hrs r hr).ink_text table))
      _ = (ss.map (fun s => inkOf (s.statement other).words)).sum := by rw [hbare table, hbare other, hsame]
      _ ≤ (ss.map (fun s => inkOf s.tokens)).sum := List.sum_le_sum (fun s hs => (hss s hs).ink_words other)
      _ ≤ (source.map (fun l => l.text.ink)).sum := by
        rw [hruns]
        exact ink_runsFrom source 0
      _ = _ := hsource
  intro r hr
  have hle := le_of_sum_map_le (fun x hx => (Conventions.ink_piece ((hrs x hx).firm_text table)).1) hink r hr
  exact decide_eq_true ((Conventions.ink_piece ((hrs r hr).firm_text table)).2 hle)

/-- **Where the statements come back from the runs of their words, no phrase takes a word of the next**: none is lost. -/
theorem isUnjoined_of_same (hruns : ss.map Run.unplaced = rs.map (fun r => (r.statement table).relisted)) :
    ∀ r ∈ rs, (r.statement table).isUnjoined = true := by
  intro r hr
  obtain ⟨s, hs, hrun, hstatement⟩ : ∃ s ∈ ss, s.unplaced = (r.statement table).relisted ∧
      (s.statement other).unplaced = (r.statement table).unplaced := by
    have hboth : ss.map (fun s => (s.unplaced, (s.statement other).unplaced)) =
        rs.map (fun r => ((r.statement table).relisted, (r.statement table).unplaced)) := by
      rw [← List.zip_map', hruns, hsame, List.zip_map']
    have hmem := List.mem_map_of_mem hr
      (f := fun r : Run => ((r.statement table).relisted, (r.statement table).unplaced))
    rw [← hboth] at hmem
    obtain ⟨s, hs, he⟩ := List.mem_map.1 hmem
    exact ⟨s, hs, congrArg Prod.fst he, congrArg Prod.snd he⟩
  have hclean := hrs r hr
  have hopen : s.isOpen = r.isOpen := by rw [← Run.isOpen_unplaced, hrun, hclean.isOpen_relisted]
  have hnests : nestsOf (s.expressions nestingLimit other) = nestsOf (r.expressions nestingLimit table) := by
    rw [← Expression.nestsOf_unplaced, ← Expression.nestsOf_unplaced (r.expressions nestingLimit table)]
    exact congrArg (fun x => nestsOf x.expressions) hstatement
  have hformed : ∀ p ∈ Nest.flatOf (nestsOf (r.expressions nestingLimit table)), p.Formed r.isOpen := by
    rw [(Run.looksLike_expressions table r).2]
    exact Nest.formed_flatOf (Expression.whole_nestsOf (hclean.restorable table))
  have hwords : (Nest.flatOf (nestsOf (r.expressions nestingLimit table))).flatMap Phrase.tokens =
      s.operands.map Token.unplaced := by
    rw [Nest.flatMap_tokens_flatOf, ← Run.operands_unplaced, hrun, (hclean.keyword?_relisted table).2,
      (Run.looksLike_expressions table r).2]
  -- the run that was read has as many phrases as were listed, so none of them was taken by another
  have hcount := (hss s hs).total_listed other Phrase.falls_one
  rw [Phrase.total_one, Phrase.total_one, hnests] at hcount
  rw [Statement.isUnjoined, Run.word?_statement]
  refine (Phrase.length_phrases_le hformed).2 ?_
  rw [hwords, Phrase.phrases_unplaced, List.length_map, ← hopen]
  exact hcount

end

/-! ## The whole way -/

/-- **When a listing is parsed as its program.**  Where nothing is reported on a text, its listing is parsed without a
report as the same tree of the same statements, lines and columns aside, if and only if the line of each statement is
its own piece and no phrase of it takes a word of the next. -/
theorem listing_reparsed_iff (i : Indent) (t : Text) (h : (Parse.ofText .usual t).diagnostics = []) :
    ((Parse.ofText .usual (listing i (Parse.ofText .usual t).program)).diagnostics = [] ∧
      Node.mapList Statement.unplaced (Parse.ofText .usual (listing i (Parse.ofText .usual t).program)).program =
        Node.mapList Statement.unplaced (Parse.ofText .usual t).program) ↔
    ∀ s ∈ Node.itemsOf (Parse.ofText .usual t).program, s.isPiece = true ∧ s.isUnjoined = true := by
  have hbreak := unbroken_logicalLines .usual t
  rw [Parse.ofText_eq_ofLines .usual t] at h ⊢
  generalize logicalLines .usual (splitLines '\r' '\n' t) = source at h hbreak ⊢
  have hclean := clean_of_diagnostics hbreak h
  have hlines : splitLines '\r' '\n' (listing i (Parse.ofLines source).program) =
      listingLines i (Parse.ofLines source).program := splitLines_listing hclean i
  have hbreak' := unbroken_logicalLines .usual (listing i (Parse.ofLines source).program)
  rw [Parse.ofText_eq_ofLines, hlines]
  rw [hlines] at hbreak'
  have hitems : ∀ x : List SourceLine, Node.itemsOf (Parse.ofLines x).program =
      (programRuns (Parse.ofLines x).lines).map (Run.statement (Parse.ofLines x).references) :=
    fun x => itemsOf_ofRuns (Parse.ofLines x).references (programRuns (Parse.ofLines x).lines)
  rw [hitems, List.forall_mem_map]
  constructor
  · rintro ⟨hreports, htree⟩
    have hclean' := clean_of_diagnostics hbreak' hreports
    have hsame := congrArg Node.itemsOf htree
    rw [Node.itemsOf_mapList, Node.itemsOf_mapList, hitems, hitems, List.map_map, List.map_map] at hsame
    have hpiece := isPiece_of_same hclean hclean' hsame rfl (ink_listing hclean i)
    have hruns := (unplaced_runs_texts hclean (texts_listing hclean i hpiece)).1
    have hunjoined := isUnjoined_of_same hclean hclean' hsame hruns
    exact fun r hr => ⟨hpiece r hr, hunjoined r hr⟩
  · intro hgood
    obtain ⟨hruns, hreports⟩ := unplaced_runs_texts hclean (texts_listing hclean i (fun r hr => (hgood r hr).1))
    exact reread_of_relisted hclean h (fun r hr => (hgood r hr).2) hruns hreports

/-- The condition at a line that goes on, a comment, a string that holds its sign, and an access that is moved to its
mode. -/
theorem listing_reparsed_open :
    (Parse.ofText .usual "open \"it's\" for input _\n access read 'why\nif _x then:y=-1:end if".toList).diagnostics = [] ∧
    (Parse.ofText .usual (listing (.spaces 2) (Parse.ofText .usual
      "open \"it's\" for input _\n access read 'why\nif _x then:y=-1:end if".toList).program)).diagnostics = [] ∧
    Node.mapList Statement.unplaced (Parse.ofText .usual (listing (.spaces 2) (Parse.ofText .usual
      "open \"it's\" for input _\n access read 'why\nif _x then:y=-1:end if".toList).program)).program =
    Node.mapList Statement.unplaced (Parse.ofText .usual
      "open \"it's\" for input _\n access read 'why\nif _x then:y=-1:end if".toList).program :=
  ⟨by decide +kernel, (listing_reparsed_iff (.spaces 2) _ (by decide +kernel)).2 (by decide +kernel)⟩

/-- **A listing need not be parsed as its program**: the statement `x = _`, which a `:` follows in the source, is listed as a
line that goes on. -/
theorem listing_not_reparsed :
    (Parse.ofText .usual "x = _ :\n".toList).diagnostics = [] ∧
    ¬ ((Parse.ofText .usual (listing (.spaces 2) (Parse.ofText .usual "x = _ :\n".toList).program)).diagnostics = [] ∧
      Node.mapList Statement.unplaced
          (Parse.ofText .usual (listing (.spaces 2) (Parse.ofText .usual "x = _ :\n".toList).program)).program =
        Node.mapList Statement.unplaced (Parse.ofText .usual "x = _ :\n".toList).program) := by
  have hitems : (Node.itemsOf (Parse.ofText .usual (listing (.spaces 2)
      (Parse.ofText .usual "x = _ :\n".toList).program)).program).map Statement.unplaced ≠
        (Node.itemsOf (Parse.ofText .usual "x = _ :\n".toList).program).map Statement.unplaced := by
    decide +kernel
  refine ⟨by decide +kernel, fun h => hitems ?_⟩
  rw [← Node.itemsOf_mapList, h.2, Node.itemsOf_mapList]

end BlockBasic
