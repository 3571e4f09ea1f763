import BlockBasic.Proofs.Declared
import BlockBasic.Proofs.RoutineEnds
import Mathlib.Data.List.Induction
/-!
# Variables — the first mention of a name, and the last header

Under the name of a variable the pass keeps the first mention of the name, provided that no header of a routine of the name
comes before it, and nothing that comes later changes it (`get?_variable_ofRuns`).  Under the name of a routine it keeps
what the last header of the name says (`get?_routine_ofRuns`).  The two never meet: of the table the reports read only what
is under the names of routines, so that they are those of the headers alone (`diagnostics_headers`).
-/
namespace BlockBasic

/-- A declaration as its header makes it, without an end. -/
def Declaration.unclosed (d : Declaration) : Declaration := { d with closedAt := none }

namespace Scan

def isMention (name : Text) (r : Run) : Bool := (offers r.tokens).any (fun t => Text.alike t.text name)

def isHeader (name : Text) (r : Run) : Bool := (declaration? r).any (fun d => Text.alike d.name name)

def mentioned (r : Run) (t : Token) : Declaration := ⟨t.text, .variable_, r.index, r.number, [], none⟩

def mention? (name : Text) (r : Run) : Option Declaration :=
  ((offers r.tokens).find? (fun t => Text.alike t.text name)).map (mentioned r)

/-- **What runs leave under the name of a variable**: the first of them that declares the name decides. -/
def firstMention? (name : Text) (rs : List Run) : Option Declaration :=
  (rs.find? (fun r => isMention name r || isHeader name r)).bind (mention? name)

/-! ## Headers and mentions -/

variable {r : Run}

theorem exists_word_of_routine? {tokens : List Token} {kind : RoutineKind} (h : routine? tokens = some kind) :
    ∃ t rest, tokens = t :: rest ∧ t.kind = .word kind.word := by
  cases tokens with
  | nil         => cases h
  | cons t rest =>
    have hfirst : Run.word? (t :: rest) 0 = t.word? := rfl
    refine ⟨t, rest, rfl, Phrase.kind_of_word? ?_⟩
    rw [routine?, hfirst] at h
    split at h
    · cases h
      assumption
    · cases h
      assumption
    · cases h

theorem offers_of_routine? {kind : RoutineKind} (h : routine? r.tokens = some kind) : offers r.tokens = [] := by
  obtain ⟨t, rest, htokens, hk⟩ := exists_word_of_routine? h
  rw [htokens, offers, hk]
  cases kind <;> rfl

theorem any_declared (name : Text) (r : Run) :
    (declared r).any (fun t => Text.alike t.text name) = (isMention name r || isHeader name r) := by
  rw [declared, isMention, isHeader, declaration?]
  cases hr : routine? r.tokens with
  | none      => exact (Bool.or_false _).symm
  | some kind =>
    rw [offers_of_routine? hr]
    cases routineName? r.tokens with
    | none      => rfl
    | some name => exact Bool.or_false _

theorem isHeader_of_isMention {name : Text} (h : isMention name r = true) : isHeader name r = false := by
  rw [isHeader, declaration?]
  cases hr : routine? r.tokens with
  | none      => rfl
  | some kind =>
    rw [isMention, offers_of_routine? hr] at h
    cases h

theorem isSome_mention? (name : Text) (r : Run) : (mention? name r).isSome = isMention name r := by
  rw [mention?, Option.isSome_map, Bool.eq_iff_iff, List.find?_isSome, isMention, List.any_eq_true]

theorem scope_of_routineKey? {k : Key} (h : routineKey? r = some k) : k.scope = .routine := by
  obtain ⟨d, hd, rfl⟩ := Option.map_eq_some_iff.1 h
  obtain ⟨kind, -, hd⟩ := Option.bind_eq_some_iff.1 hd
  obtain ⟨name, -, rfl⟩ := Option.map_eq_some_iff.1 hd
  rfl

/-! ## Under the name of a variable -/

/-- **A mention** declares its name as a variable, unless the table declares it already. -/
theorem get?_mention_variable (r : Run) (name : Text) (t : Table) (token : Token) :
    (mention r t token).get? (Key.ofName .variable_ name) =
      if t.declares name = false ∧ Text.alike token.text name = true then some (mentioned r token)
      else t.get? (Key.ofName .variable_ name) := by
  have hkey : (mentioned r token).key = Key.ofName .variable_ name ↔ Text.alike token.text name = true :=
    Table.key_eq_ofName_iff.trans (and_iff_right rfl)
  rw [mention, Table.contains_eq_declares]
  by_cases halike : Text.alike token.text name = true
  · rw [t.declares_congr halike]
    cases hd : t.declares name with
    | true  => simp
    | false =>
      rw [if_neg Bool.false_ne_true, if_pos ⟨rfl, halike⟩]
      exact (t.get?_declare _ _).trans (if_pos (hkey.2 halike))
  · have hother : ¬ (t.declares name = false ∧ Text.alike token.text name = true) := fun h => halike h.2
    rw [if_neg hother]
    split
    · rfl
    · exact (t.get?_declare _ _).trans (if_neg (mt hkey.1 halike))

theorem get?_foldl_mention_variable (r : Run) (name : Text) : ∀ (tokens : List Token) (t : Table),
    (tokens.foldl (mention r) t).get? (Key.ofName .variable_ name) =
      if t.declares name then t.get? (Key.ofName .variable_ name)
      else (tokens.find? (fun token => Text.alike token.text name)).map (mentioned r)
  | [], t              => by
    cases hd : t.declares name with
    | true  => rfl
    | false => exact Table.get?_of_not_declares hd .variable_
  | token :: tokens, t => by
    rw [List.foldl_cons, get?_foldl_mention_variable r name tokens, declares_mention, get?_mention_variable, List.find?_cons]
    cases t.declares name <;> cases Text.alike token.text name <;> simp

theorem get?_variable_of_closes {s : Scan} {a : Assembly} (h : s.Follows a) {form : BlockForm}
    (hcloses : Run.closes? r.tokens = some form) (name : Text) :
    (s.step r).table.get? (Key.ofName .variable_ name) = s.table.get? (Key.ofName .variable_ name) := by
  have hrole := Run.role_eq_closes.2 hcloses
  rcases h.step_cases r with ⟨hr, -⟩ | ⟨form, hr, -⟩ | ⟨-, -, hs⟩ | ⟨b, bs, -, -, -, hs⟩
  · rw [hrole] at hr
    cases hr
  · rw [hrole] at hr
    cases hr
  · rw [hs]
  · rw [hs, get?_finish, if_neg]
    intro hkey
    cases scope_of_routineKey? hkey

theorem get?_variable_step {s : Scan} {a : Assembly} (h : s.Follows a) (name : Text) (r : Run) :
    (s.step r).table.get? (Key.ofName .variable_ name) =
      if s.table.declares name then s.table.get? (Key.ofName .variable_ name) else mention? name r := by
  cases hcloses : Run.closes? r.tokens with
  | some form =>
    rw [get?_variable_of_closes h hcloses]
    split
    · rfl
    · rename_i hd
      rw [mention?, (offers_of_closes hcloses).2]
      exact Table.get?_of_not_declares (Bool.eq_false_iff.2 hd) .variable_
  | none      =>
    rw [table_step hcloses]
    cases hroutine : routine? r.tokens with
    | none      =>
      rw [table_declare_offers hroutine]
      exact get?_foldl_mention_variable r name _ s.table
    | some kind =>
      have hsame : (s.declare r).1.get? (Key.ofName .variable_ name) = s.table.get? (Key.ofName .variable_ name) := by
        rw [table_declare_routine hroutine]
        cases routineName? r.tokens with
        | none       => rfl
        | some token => exact (s.table.get?_declare _ _).trans (if_neg (fun hkey => by cases congrArg Key.scope hkey))
      rw [hsame, mention?, offers_of_routine? hroutine]
      split
      · rfl
      · rename_i hd
        exact Table.get?_of_not_declares (Bool.eq_false_iff.2 hd) .variable_

theorem ofRuns_concat (rs : List Run) (r : Run) : ofRuns (rs ++ [r]) = (ofRuns rs).step r := by
  rw [ofRuns, List.foldl_append]
  rfl

/-- **Under the name of a variable stands its first mention**, if no header of a routine of the name comes before that. -/
theorem get?_variable_ofRuns (name : Text) (rs : List Run) :
    (ofRuns rs).table.get? (Key.ofName .variable_ name) = firstMention? name rs := by
  induction rs using List.reverseRecOn with
  | nil              => rfl
  | append_singleton rs r ih =>
    have hdeclares : (ofRuns rs).table.declares name = rs.any (fun r => isMention name r || isHeader name r) := by
      rw [declares_ofRuns]
      exact congrArg rs.any (funext (any_declared name))
    rw [ofRuns_concat, get?_variable_step (follows_ofRuns rs), ih, hdeclares, firstMention?, firstMention?, List.find?_append]
    cases hfirst : rs.find? (fun r => isMention name r || isHeader name r) with
    | some q =>
      rw [if_pos (List.any_eq_true.2 ⟨q, List.mem_of_find?_eq_some hfirst, List.find?_some hfirst⟩)]
      rfl
    | none   =>
      have hnone : rs.any (fun r => isMention name r || isHeader name r) = false :=
        List.any_eq_false.2 (List.find?_eq_none.1 hfirst)
      rw [hnone, if_neg Bool.false_ne_true, Option.none_or, List.find?_cons]
      -- a run that is no mention makes no declaration, whether it is a header or not
      have hsome := isSome_mention? name r
      cases hm : isMention name r with
      | true  => simp
      | false =>
        rw [hm, Option.isSome_eq_false_iff, Option.isNone_iff_eq_none] at hsome
        cases isHeader name r <;> simp [hsome]

theorem firstMention?_eq_some_iff {name : Text} {rs : List Run} {d : Declaration} : firstMention? name rs = some d ↔
    ∃ before r after t, rs = before ++ r :: after ∧ (∀ q ∈ before, isMention name q = false) ∧
      (∀ q ∈ before ++ [r], isHeader name q = false) ∧
      (offers r.tokens).find? (fun t => Text.alike t.text name) = some t ∧ d = mentioned r t := by
  rw [firstMention?, Option.bind_eq_some_iff]
  constructor
  · rintro ⟨r, hfirst, hd⟩
    obtain ⟨-, before, after, rfl, hbefore⟩ := List.find?_eq_some_iff_append.1 hfirst
    obtain ⟨t, ht, rfl⟩ := Option.map_eq_some_iff.1 hd
    have hnone : ∀ q ∈ before, isMention name q = false ∧ isHeader name q = false := by
      intro q hq
      have := hbefore q hq
      rwa [Bool.not_eq_true', Bool.or_eq_false_iff] at this
    have hmention : isMention name r = true := by rw [← isSome_mention?, hd]; rfl
    refine ⟨before, r, after, t, rfl, fun q hq => (hnone q hq).1, fun q hq => ?_, ht, rfl⟩
    rcases List.mem_append.1 hq with hq | hq
    · exact (hnone q hq).2
    · rw [List.mem_singleton.1 hq]
      exact isHeader_of_isMention hmention
  · rintro ⟨before, r, after, t, rfl, hmentions, hheaders, ht, rfl⟩
    have hd : mention? name r = some (mentioned r t) := congrArg (Option.map (mentioned r)) ht
    refine ⟨r, List.find?_eq_some_iff_append.2 ⟨?_, before, after, rfl, fun q hq => ?_⟩, hd⟩
    · rw [← isSome_mention?, hd]
      rfl
    · rw [hmentions q hq, hheaders q (List.mem_append_left _ hq)]
      rfl

theorem firstMention?_append {name : Text} {rs : List Run} {d : Declaration} (h : firstMention? name rs = some d)
    (more : List Run) : firstMention? name (rs ++ more) = some d := by
  obtain ⟨r, hfirst, hd⟩ := Option.bind_eq_some_iff.1 h
  rw [firstMention?, List.find?_append, hfirst]
  exact hd

/-! ## Under the name of a routine -/

def last? (k : Key) (ds : List Declaration) : Option Declaration := (ds.filter (fun d => d.key == k)).getLast?

theorem last?_concat (k : Key) (ds : List Declaration) (d : Declaration) :
    last? k (ds ++ [d]) = if d.key = k then some d else last? k ds := by
  rw [last?, List.filter_append, List.getLast?_append]
  by_cases hk : d.key = k <;> simp [hk, last?]

theorem unclosed_declaration? {d : Declaration} (h : declaration? r = some d) : d.unclosed = d := by
  rw [Declaration.unclosed, ← closedAt_declaration? h]

theorem get?_unclosed_of_closes {form : BlockForm} (h : Run.closes? r.tokens = some form) (s : Scan) (k : Key) :
    ((s.step r).table.get? k).map Declaration.unclosed = (s.table.get? k).map Declaration.unclosed := by
  rcases table_step_of_closes h s with hs | ⟨l, hs⟩
  · rw [hs]
  · rw [hs, Table.get?_close]
    split
    · rw [Option.map_map]
      rfl
    · rfl

theorem declaration?_of_routine? (h : routine? r.tokens = none) : declaration? r = none := by
  rw [declaration?, h]
  rfl

/-- **Under the name of a routine stands the last header of the name**, and perhaps an end. -/
theorem get?_routine_ofRuns {k : Key} (hk : k.scope = .routine) (rs : List Run) :
    ((ofRuns rs).table.get? k).map Declaration.unclosed = last? k (rs.filterMap declaration?) := by
  induction rs using List.reverseRecOn with
  | nil                      => rfl
  | append_singleton rs r ih =>
    rw [ofRuns_concat, List.filterMap_append]
    cases hcloses : Run.closes? r.tokens with
    | some form =>
      rw [get?_unclosed_of_closes hcloses, ih,
        List.filterMap_cons_none (declaration?_of_routine? (offers_of_closes hcloses).1), List.filterMap_nil,
        List.append_nil]
    | none      =>
      rw [table_step hcloses, get?_declare_routine hk, routineKey?]
      cases hd : declaration? r with
      | none   =>
        rw [Option.map_none, if_neg (by simp), ih, List.filterMap_cons_none hd, List.filterMap_nil, List.append_nil]
      | some d =>
        rw [List.filterMap_cons_some hd, List.filterMap_nil, last?_concat, ← ih, Option.map_some]
        by_cases hkey : d.key = k
        · rw [if_pos (congrArg some hkey), if_pos hkey, Option.map_some, unclosed_declaration? hd]
        · rw [if_neg (fun h => hkey (Option.some.inj h)), if_neg hkey]

/-- What a run reports after headers that made declarations: a routine without a name, or one that is declared already. -/
def reports (headers : List Declaration) (r : Run) : List Diagnostic :=
  match routine? r.tokens with
  | none      => []
  | some kind =>
    match routineName? r.tokens with
    | none      => (r.tokens.head?.map (fun t => (Fault.nameless kind).located r.number t.column)).toList
    | some name => ((last? (header r kind name).key headers).map (fun previous =>
        (Fault.duplicate previous.name previous.number).located r.number name.column)).toList

theorem diagnostics_step_of_closes {form : BlockForm} (h : Run.closes? r.tokens = some form) (s : Scan) :
    (s.step r).diagnostics = s.diagnostics := by
  rw [step, Run.role_eq_closes.2 h]
  cases s.blocks with
  | nil       => rfl
  | cons b bs =>
    simp only
    split <;> rfl

theorem diagnostics_step (h : Run.closes? r.tokens = none) (s : Scan) : (s.step r).diagnostics = (s.declare r).2.1 := by
  rw [step]
  cases hr : r.role with
  | opens | plain => rfl
  | closes form   =>
    rw [Run.role_eq_closes.1 hr] at h
    cases h

/-- **What the next run reports** is decided by the headers before it. -/
theorem diagnostics_concat (rs : List Run) (r : Run) :
    (ofRuns (rs ++ [r])).diagnostics = (ofRuns rs).diagnostics ++ reports (rs.filterMap declaration?) r := by
  rw [ofRuns_concat]
  cases hcloses : Run.closes? r.tokens with
  | some form =>
    rw [diagnostics_step_of_closes hcloses, reports, (offers_of_closes hcloses).1, List.append_nil]
  | none      =>
    rw [diagnostics_step hcloses, declare, reports]
    cases routine? r.tokens with
    | none      => exact (List.append_nil _).symm
    | some kind =>
      cases routineName? r.tokens with
      | none      => rfl
      | some name =>
        have hlast := get?_routine_ofRuns (k := (header r kind name).key) rfl rs
        simp only
        rw [← hlast, Option.map_map]
        rfl

def isRoutine (r : Run) : Bool := (routine? r.tokens).isSome

/-- **The reports are those of the headers**: what else there is in a program has no part in them. -/
theorem diagnostics_headers (rs : List Run) : (ofRuns rs).diagnostics = (ofRuns (rs.filter isRoutine)).diagnostics := by
  induction rs using List.reverseRecOn with
  | nil                      => rfl
  | append_singleton rs r ih =>
    have hheaders : (rs.filter isRoutine).filterMap declaration? = rs.filterMap declaration? := by
      rw [List.filterMap_filter]
      refine congrArg (List.filterMap · rs) (funext fun q => ?_)
      cases hq : routine? q.tokens <;> simp [isRoutine, declaration?, hq]
    rw [diagnostics_concat, List.filter_append]
    cases hr : isRoutine r with
    | true  => rw [List.filter_cons_of_pos hr, List.filter_nil, diagnostics_concat, hheaders, ih]
    | false =>
      have hnone : routine? r.tokens = none := by simpa [isRoutine] using hr
      rw [List.filter_cons_of_neg (by simp [hr]), List.filter_nil, List.append_nil, ih, reports, hnone, List.append_nil]

end Scan

/-- **The variables of a program.**  The table has a variable of a name exactly if some run gives the name a value and the
first that does comes before every header of a routine of the name; the declaration has the spelling and the line of the
first mention in that run, no parameters and no end.  Once a variable is in the table it stays there as it is, and the
reports on declarations are those that the headers of routines alone would cause. -/
theorem variable_iff_mentioned_first (lines : List CodeLine) (name : Text) :
    (∀ d, (d ∈ (declarations lines).1.entries ∧ d.key = Key.ofName .variable_ name) ↔
      ∃ before r after t, programRuns lines = before ++ r :: after ∧
        (∀ q ∈ before, Scan.isMention name q = false) ∧ (∀ q ∈ before ++ [r], Scan.isHeader name q = false) ∧
        (Scan.offers r.tokens).find? (fun t => Text.alike t.text name) = some t ∧
        d = ⟨t.text, .variable_, r.index, r.number, [], none⟩) ∧
    (∀ before after, programRuns lines = before ++ after →
      ∀ d ∈ (Scan.ofRuns before).table.entries, d.kind = .variable_ → d ∈ (declarations lines).1.entries) ∧
    (declarations lines).2 = (Scan.ofRuns ((programRuns lines).filter Scan.isRoutine)).diagnostics := by
  have hdistinct : ∀ rs, (Scan.ofRuns rs).table.Distinct := fun rs => (Scan.records_ofRuns rs).distinct
  refine ⟨fun d => ?_, fun before after hsplit d hd hkind => ?_, Scan.diagnostics_headers _⟩
  · rw [declarations, ← (hdistinct _).get?_eq_some_iff, Scan.get?_variable_ofRuns, Scan.firstMention?_eq_some_iff]
    rfl
  · have hkey : d.key = Key.ofName .variable_ d.name := by rw [Declaration.key, hkind]; rfl
    have hbefore := (hdistinct before).get?_eq_some_iff.2 ⟨hd, hkey⟩
    rw [Scan.get?_variable_ofRuns] at hbefore
    have hafter : (Scan.ofRuns (programRuns lines)).table.get? (Key.ofName .variable_ d.name) = some d := by
      rw [hsplit, Scan.get?_variable_ofRuns]
      exact Scan.firstMention?_append hbefore after
    exact ((hdistinct _).get?_eq_some_iff.1 hafter).1

/-- A variable stands beside the function that is declared after it; after a function its name is no variable. -/
example : (declarations [.ofSource 1 "Sum = 1 : FUNCTION sum : END FUNCTION".toList,
      .ofSource 2 "FUNCTION Twice(n) : TWICE = n * 2 : DIM SUM[2]".toList]).1.entries.map (fun d => (d.name, d.kind)) =
    [("Sum".toList, .variable_), ("sum".toList, .routine .function), ("Twice".toList, .routine .function)] := by
  decide +kernel

end BlockBasic
