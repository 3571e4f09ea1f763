import BlockBasic.Proofs.ListedLines
import BlockBasic.Proofs.SameBlocks
import BlockBasic.Parse
/-!
# RoundTrip — a listing is read as the program it lists

A program without a report is made of clean runs.  Listed, each of them is a line, and the line is the run of the same
words again.  What the words of all runs come to is the same declarations, the same blocks and the same statements, line
numbers and columns aside (`relisted_runs`): each stage sees of a run only what the listing keeps.
-/
namespace BlockBasic

open Lexer

/-- **Whether no phrase of a statement's listing takes the first word of the next one.** -/
def Statement.isUnjoined (s : Statement) : Bool :=
  Phrase.unjoined (s.word? == some .open_) (Nest.flatOf (Expression.nestsOf s.expressions))

theorem Run.word?_statement (table : Table) (r : Run) : ((r.statement table).word? == some .open_) = r.isOpen := by
  rw [Bool.eq_iff_iff, beq_iff_eq, Run.isOpen_iff]
  have hkey : (r.statement table).keyword = r.keyword? := rfl
  rw [Statement.word?, hkey]
  cases r.keyword? with
  | none => simp
  | some k =>
    obtain ⟨c, k⟩ := k
    cases k <;> simp

/-! ## From runs to runs -/

/-- **The words of clean runs make the program that the runs make**: the same blocks of the same statements, and no
report. -/
theorem relisted_runs {rs ss : List Run} (hclean : ∀ r ∈ rs, r.Clean)
    (hunjoined : ∀ r ∈ rs, (r.statement (Scan.ofRuns rs).table).isUnjoined = true)
    (h : ss.map Run.unplaced = rs.map (fun r => (r.statement (Scan.ofRuns rs).table).relisted))
    (hscan : (Scan.ofRuns rs).diagnostics = []) (htree : Program.diagnostics rs = []) :
    (Scan.ofRuns ss).diagnostics = [] ∧ Program.diagnostics ss = [] ∧
      Node.mapList Statement.unplaced (Program.ofRuns (Scan.ofRuns ss).table ss) =
        Node.mapList Statement.unplaced (Program.ofRuns (Scan.ofRuns rs).table rs) := by
  have hu : ∀ r ∈ rs, Phrase.unjoined r.isOpen (Nest.flatOf (Expression.nestsOf
      (r.expressions nestingLimit (Scan.ofRuns rs).table))) = true := by
    intro r hr
    rw [← Run.word?_statement (Scan.ofRuns rs).table r]
    exact hunjoined r hr
  have heffects : rs.map Run.effect = ss.map Run.effect := by
    have hss : ss.map Run.effect = (ss.map Run.unplaced).map Run.effect := by
      rw [List.map_map]
      exact List.map_congr_left (fun s _ => (Run.effect_unplaced s).symm)
    rw [hss, h, List.map_map]
    exact List.map_congr_left (fun r hr => ((hclean r hr).effect_relisted _).symm)
  have hsame := Scan.same_ofRuns heffects
  have hkeys := Table.sameKeys_of_titles hsame.titles
  have hviews : rs.map (fun r => (r.role, (r.statement (Scan.ofRuns rs).table).unplaced)) =
      ss.map (fun s => (s.role, (s.statement (Scan.ofRuns ss).table).unplaced)) := by
    have hss : ss.map (fun s => (s.role, (s.statement (Scan.ofRuns ss).table).unplaced)) =
        (ss.map Run.unplaced).map (fun s => (s.role, (s.statement (Scan.ofRuns ss).table).unplaced)) := by
      rw [List.map_map]
      refine List.map_congr_left (fun s _ => ?_)
      exact Prod.ext (congrArg Prod.fst (Run.effect_unplaced s)).symm (Run.unplaced_statement_unplaced _ s).symm
    rw [hss, h, List.map_map]
    refine List.map_congr_left (fun r hr => ?_)
    exact Prod.ext (congrArg Prod.fst ((hclean r hr).effect_relisted _)).symm
      ((hclean r hr).statement_relisted (hu r hr) hkeys).symm
  have hfaultless : ∀ s ∈ ss, s.diagnostics = [] := by
    intro s hs
    have hmem : s.unplaced ∈ ss.map Run.unplaced := List.mem_map_of_mem hs
    rw [h] at hmem
    obtain ⟨r, hr, he⟩ := List.mem_map.1 hmem
    rw [← Run.diagnostics_unplaced, ← he]
    exact (hclean r hr).diagnostics_relisted (hu r hr)
  refine ⟨hsame.diagnostics hscan, diagnosticsFrom_eq_nil hviews ⟨rfl, rfl⟩ htree hfaultless, ?_⟩
  rw [Program.ofRuns, Program.ofRuns, Node.mapList_mapList, Node.mapList_mapList]
  exact (mapList_blockTree hviews).symm

/-! ## From lines to runs -/

theorem lines_ofLines (source : List SourceLine) :
    (Parse.ofLines source).lines = source.map (fun l => CodeLine.ofSource l.number l.text) := rfl

/-- **A source without a report is made of clean runs.** -/
theorem clean_of_diagnostics {source : List SourceLine} (hbreak : ∀ l ∈ source, '\n' ∉ l.text.chomp)
    (h : (Parse.ofLines source).diagnostics = []) : ∀ r ∈ programRuns (Parse.ofLines source).lines, r.Clean := by
  obtain ⟨hlines, htree⟩ := List.append_eq_nil_iff.1 h
  obtain ⟨hlines, -⟩ := List.append_eq_nil_iff.1 hlines
  intro r hr
  obtain ⟨l, hl, -, htokens⟩ := mem_runsFrom hr
  obtain ⟨x, hx, rfl⟩ := List.mem_map.1 hl
  have hsound := sound_of_diagnostics (hbreak x hx) (List.flatMap_eq_nil_iff.1 hlines _ hl)
  refine ⟨fun t ht => hsound t (CodeLine.mem_tokens_of_mem_runs htokens t ht), CodeLine.undivided_of_mem_runs htokens,
    CodeLine.ne_nil_of_mem_runs htokens, diagnostics_of_mem htree r hr⟩

theorem unplaced_runsFrom {table : Table} : ∀ {items : List (Text × Run)} {source : List SourceLine} (index : Nat),
    (∀ x ∈ items, (∀ c ∈ x.1, isGap c = true) ∧ x.2.Clean) →
    source.map SourceLine.text = items.map (fun x => x.1 ++ (x.2.statement table).text) →
      (runsFrom index (source.map (fun l => CodeLine.ofSource l.number l.text))).map Run.unplaced =
        items.map (fun x => (x.2.statement table).relisted) ∧
      (source.map (fun l => CodeLine.ofSource l.number l.text)).flatMap CodeLine.diagnostics = []
  | [], [], _, _, _ => ⟨rfl, rfl⟩
  | x :: items, l :: source, index, hitems, htexts => by
    obtain ⟨htext, htexts⟩ := List.cons.inj htexts
    obtain ⟨hgaps, hclean⟩ := hitems x List.mem_cons_self
    obtain ⟨hrest, hreports⟩ := unplaced_runsFrom (index + 1) (fun y hy => hitems y (List.mem_cons_of_mem x hy)) htexts
    have htext : l.text = x.1 ++ (x.2.statement table).text := htext
    have hline := hclean.runs_listed table hgaps l.number
    have hwords := hclean.tokens_listed table hgaps l.number
    have hreport := hclean.diagnostics_listed table hgaps l.number
    rw [← htext] at hline hwords hreport
    refine ⟨?_, by rw [List.map_cons, List.flatMap_cons, hreport, hreports]; rfl⟩
    rw [List.map_cons, runsFrom, hline, List.map_append, hrest, List.map_cons, List.map_nil, List.map_cons, List.map_nil,
      Run.unplaced, hwords, List.map_cons]
    rfl

theorem unplaced_runs_listed {source : List SourceLine} {rs : List Run} {table : Table} (hclean : ∀ r ∈ rs, r.Clean)
    (i : Indent) (h : source.map SourceLine.text = listingLines i (Program.ofRuns table rs)) :
    (programRuns (Parse.ofLines source).lines).map Run.unplaced = rs.map (fun r => (r.statement table).relisted) ∧
      (Parse.ofLines source).lines.flatMap CodeLine.diagnostics = [] := by
  have hitems : (Node.entriesOf 0 (blockTree rs)).map Prod.snd = rs := itemsOf_blockTree rs
  have htexts : source.map SourceLine.text = ((Node.entriesOf 0 (blockTree rs)).map (fun x => (i.text x.1, x.2))).map
      (fun x => x.1 ++ (x.2.statement table).text) := by
    rw [h, listingLines, Program.ofRuns, Node.entriesOf_mapList, List.map_map, List.map_map]
    rfl
  have hgood : ∀ x ∈ (Node.entriesOf 0 (blockTree rs)).map (fun x => (i.text x.1, x.2)),
      (∀ c ∈ x.1, isGap c = true) ∧ x.2.Clean := by
    intro x hx
    obtain ⟨y, hy, rfl⟩ := List.mem_map.1 hx
    refine ⟨fun c hc => isGap_of_mem_indent c hc, hclean y.2 ?_⟩
    rw [← hitems]
    exact List.mem_map_of_mem hy
  obtain ⟨hruns, hreports⟩ := unplaced_runsFrom 0 hgood htexts
  refine ⟨?_, hreports⟩
  rw [programRuns, lines_ofLines, hruns, List.map_map]
  conv => rhs; rw [← hitems]
  rw [List.map_map]
  rfl

theorem splitLines_listing {rs : List Run} {table : Table} (hclean : ∀ r ∈ rs, r.Clean) (i : Indent) :
    splitLines '\r' '\n' (listing i (Program.ofRuns table rs)) = listingLines i (Program.ofRuns table rs) := by
  refine splitLines_flatMap (fun l hl => ?_)
  rw [listingLines, Program.ofRuns, Node.entriesOf_mapList, List.map_map] at hl
  obtain ⟨x, hx, rfl⟩ := List.mem_map.1 hl
  have hr : x.2.Clean := hclean x.2 (by
    rw [← itemsOf_blockTree rs]
    exact List.mem_map_of_mem hx)
  have hfirm := hr.firm_text table
  refine ⟨fun hm => ?_, fun hcr => ?_⟩
  · rcases List.mem_append.1 hm with hm | hm
    · exact absurd (isGap_of_mem_indent _ hm) (by decide)
    · exact hfirm.unbroken hm
  · have hlast : (i.text x.1 ++ (x.2.statement table).text).getLast?.any isVisible = true :=
      Text.Firm.getLast?_any_append hfirm.last
    have hcr : (i.text x.1 ++ (x.2.statement table).text).getLast? = some '\r' := hcr
    rw [hcr] at hlast
    exact absurd hlast (by decide)

/-! ## The round trip -/

theorem reread_of_relisted {source second : List SourceLine} (hclean : ∀ r ∈ programRuns (Parse.ofLines source).lines, r.Clean)
    (hfirst : (Parse.ofLines source).diagnostics = [])
    (hunjoined : ∀ r ∈ programRuns (Parse.ofLines source).lines,
      (r.statement (Parse.ofLines source).references).isUnjoined = true)
    (hruns : (programRuns (Parse.ofLines second).lines).map Run.unplaced =
      (programRuns (Parse.ofLines source).lines).map (fun r => (r.statement (Parse.ofLines source).references).relisted))
    (hreports : (Parse.ofLines second).lines.flatMap CodeLine.diagnostics = []) :
    (Parse.ofLines second).diagnostics = [] ∧
    Node.mapList Statement.unplaced (Parse.ofLines second).program =
      Node.mapList Statement.unplaced (Parse.ofLines source).program := by
  obtain ⟨hother, htree⟩ := List.append_eq_nil_iff.1 hfirst
  obtain ⟨-, hscan⟩ := List.append_eq_nil_iff.1 hother
  obtain ⟨h1, h2, h3⟩ := relisted_runs hclean hunjoined hruns hscan htree
  exact ⟨List.append_eq_nil_iff.2 ⟨List.append_eq_nil_iff.2 ⟨hreports, h1⟩, h2⟩, h3⟩

theorem not_access_of_no_word {r : Run} (h : r.isOpen = true → ∀ t ∈ r.tokens, t.word? ≠ some .access) :
    ∀ p ∈ phrases r.isOpen r.operands, p.isAccess = false := by
  cases ho : r.isOpen with
  | false =>
    have hno := Run.not_access_of_not_open ho
    rwa [ho] at hno
  | true =>
    intro p hp
    have hf := Phrase.formed_phrases true r.operands p hp
    cases p with
    | token | handle | mode => rfl
    | access t u more a =>
      have hkind : t.kind = .word .access := by
        cases more with
        | none => exact hf.2.1
        | some v => exact hf.2.1
      have hmem : t ∈ r.operands := by
        rw [← Phrase.flatMap_tokens_phrases true r.operands]
        exact List.mem_flatMap.2 ⟨_, hp, List.mem_cons_self⟩
      exact absurd (by rw [Token.word?, hkind]) (h ho t (Run.mem_operands hmem))

/-- **A listing is read as the program it lists.**  Where the source lines hold no line breaks, nothing is reported on
them, and no `OPEN` statement has the word `ACCESS` in it, the listing has one line for each statement; and these lines,
whatever their numbers, are read without a report as the same tree of the same statements, lines and columns aside. -/
theorem listing_reread (i : Indent) (source second : List SourceLine)
    (hbreaks : ∀ l ∈ source, '\r' ∉ l.text ∧ '\n' ∉ l.text)
    (hfirst : (Parse.ofLines source).diagnostics = [])
    (haccess : ∀ r ∈ programRuns (Parse.ofLines source).lines, r.isOpen = true → ∀ t ∈ r.tokens, t.word? ≠ some .access)
    (hsecond : second.map SourceLine.text = splitLines '\r' '\n' (listing i (Parse.ofLines source).program)) :
    second.map SourceLine.text = listingLines i (Parse.ofLines source).program ∧
    (Parse.ofLines second).diagnostics = [] ∧
    Node.mapList Statement.unplaced (Parse.ofLines second).program =
      Node.mapList Statement.unplaced (Parse.ofLines source).program := by
  have hbreak : ∀ l ∈ source, '\n' ∉ l.text.chomp := fun l hl hm => (hbreaks l hl).2 (Text.mem_of_mem_chomp hm)
  have hclean := clean_of_diagnostics hbreak hfirst
  have hlines : second.map SourceLine.text = listingLines i (Parse.ofLines source).program :=
    hsecond.trans (splitLines_listing hclean i)
  obtain ⟨hruns, hreports⟩ := unplaced_runs_listed hclean i hlines
  have hunjoined : ∀ r ∈ programRuns (Parse.ofLines source).lines,
      (r.statement (Parse.ofLines source).references).isUnjoined = true := by
    intro r hr
    rw [Statement.isUnjoined, Run.word?_statement]
    exact (hclean r hr).unjoined_of_no_access _ (not_access_of_no_word (haccess r hr))
  exact ⟨hlines, reread_of_relisted hclean hfirst hunjoined hruns hreports⟩

/-- The round trip at a block, a group with a semicolon, an empty argument and a colon in it, a file and a string. -/
theorem listing_reread_file :
    (Parse.ofLines [⟨1, "if x% = f(a; (:b), ) then".toList⟩,
      ⟨2, "open \"a\" for input as #01:print \"q\"\"\"".toList⟩, ⟨9, "end if".toList⟩]).diagnostics = [] ∧
    (Parse.ofLines [⟨1, "IF x% = f(a, (: b), ) THEN".toList⟩, ⟨2, "\tOPEN \"a\" FOR INPUT AS #1".toList⟩,
      ⟨3, "\tPRINT \"q\"\"\"".toList⟩, ⟨4, "END IF".toList⟩]).diagnostics = [] ∧
    Node.mapList Statement.unplaced (Parse.ofLines [⟨1, "IF x% = f(a, (: b), ) THEN".toList⟩,
      ⟨2, "\tOPEN \"a\" FOR INPUT AS #1".toList⟩, ⟨3, "\tPRINT \"q\"\"\"".toList⟩, ⟨4, "END IF".toList⟩]).program =
    Node.mapList Statement.unplaced (Parse.ofLines [⟨1, "if x% = f(a; (:b), ) then".toList⟩,
      ⟨2, "open \"a\" for input as #01:print \"q\"\"\"".toList⟩, ⟨9, "end if".toList⟩]).program :=
  ⟨by decide +kernel, (listing_reread .tab _ _ (by decide +kernel) (by decide +kernel) (by decide +kernel)
    (by decide +kernel)).2⟩

end BlockBasic
