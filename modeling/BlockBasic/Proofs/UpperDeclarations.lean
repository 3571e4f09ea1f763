import BlockBasic.Proofs.UpperTokens
/-!
# UpperDeclarations — the declarations of a program in upper case

The keys of a table are in upper case already, so taking the names of its declarations to upper case moves nothing in it
and finds the same under every name.  Hence the pass over the runs of a program in upper case goes through the states of
the pass over the program, in upper case (`step_upper`, `declarations_upper`).
-/
namespace BlockBasic

open Text (upper)

def Declaration.upper (d : Declaration) : Declaration :=
  { d with name := d.name.upper, parameters := d.parameters.map Text.upper }

@[simp] theorem Declaration.key_upper (d : Declaration) : d.upper.key = d.key := by
  rw [key, Key.ofName, upper, Text.upper_upper]
  rfl

namespace Table

def upper (t : Table) : Table := ⟨t.entries.map Declaration.upper⟩

theorem put_upper (d : Declaration) : ∀ (es : List Declaration),
    put d.upper (es.map Declaration.upper) = (put d es).map Declaration.upper
  | [] => rfl
  | e :: es => by
    rw [List.map_cons, put, put, Declaration.key_upper, Declaration.key_upper, put_upper d es]
    split <;> rfl

theorem declare_upper (t : Table) (d : Declaration) : t.upper.declare d.upper = (t.declare d).upper :=
  congrArg Table.mk (put_upper d t.entries)

theorem putEnd_upper (k : Key) (stop : BlockEnd) : ∀ (es : List Declaration),
    putEnd k stop (es.map Declaration.upper) = (putEnd k stop es).map Declaration.upper
  | [] => rfl
  | e :: es => by
    rw [List.map_cons, putEnd, putEnd, Declaration.key_upper, putEnd_upper k stop es]
    split <;> rfl

theorem close_upper (t : Table) (k : Key) (stop : BlockEnd) : t.upper.close k stop = (t.close k stop).upper :=
  congrArg Table.mk (putEnd_upper k stop t.entries)

theorem get?_upper (t : Table) (k : Key) : t.upper.get? k = (t.get? k).map Declaration.upper := by
  have hkey : (fun d : Declaration => d.key == k) ∘ Declaration.upper = fun d => d.key == k :=
    funext fun d => by rw [Function.comp_apply, Declaration.key_upper]
  rw [get?, upper, List.find?_map, hkey, get?]

theorem lookup_upper (t : Table) (name : Text) : t.upper.lookup name = (t.lookup name).map Declaration.upper := by
  rw [lookup, lookup, get?_upper, get?_upper]
  cases t.get? (Key.ofName .routine name) <;> rfl

theorem contains_upper (t : Table) (name : Text) : t.upper.contains name.upper = t.contains name := by
  have hname : t.upper.lookup name.upper = t.upper.lookup name := lookup_text .upper t.upper name
  rw [contains, hname, lookup_upper, Option.isSome_map, contains]

theorem sameKeys_upper (t : Table) : t.SameKeys t.upper := by
  intro name
  rw [lookup_upper, Option.map_map]
  exact Option.map_congr fun d _ => d.key_upper.symm

end Table

namespace Scan

theorem parameters_recast (ts : List Token) : parameters (ts.map (Token.recast .upper)) = (parameters ts).map upper := by
  cases ts with
  | nil => rfl
  | cons t ts =>
    rw [List.map_cons, parameters, parameters, Token.kind_recast, groupInside_map (Token.kind_recast .upper),
      itemNames_map (Token.kind_recast .upper), List.map_map]
    split
    · rw [List.map_map]
      rfl
    · rfl

theorem header_recast (r : Run) (kind : RoutineKind) (name : Token) :
    header (r.recast .upper) kind (name.recast .upper) = (header r kind name).upper := by
  have hparameters : parameters (List.drop 2 (r.tokens.map (Token.recast .upper))) =
      (parameters (r.tokens.drop 2)).map upper := by rw [← List.map_drop, parameters_recast]
  rw [header, Run.recast, hparameters]
  rfl

theorem mention_recast (r : Run) (t : Table) (name : Token) :
    mention (r.recast .upper) t.upper (name.recast .upper) = (mention r t name).upper := by
  have hcontains : t.upper.contains (name.recast .upper).text = t.contains name.text := t.contains_upper name.text
  rw [mention, mention, hcontains]
  split
  · rfl
  · exact t.declare_upper ⟨name.text, .variable_, r.index, r.number, [], none⟩

theorem foldl_mention_recast (r : Run) : ∀ (names : List Token) (t : Table),
    (names.map (Token.recast .upper)).foldl (mention (r.recast .upper)) t.upper = (names.foldl (mention r) t).upper
  | [], _ => rfl
  | name :: names, t => by
    rw [List.map_cons, List.foldl_cons, mention_recast, foldl_mention_recast r names, List.foldl_cons]

def upper (s : Scan) : Scan := ⟨s.table.upper, s.diagnostics.map Diagnostic.upper, s.blocks⟩

theorem nameless_recast (kind : RoutineKind) (r : Run) :
    ((r.recast .upper).tokens.head?.map
        (fun t => (Fault.nameless kind).located (r.recast .upper).number t.column)).toList =
      (r.tokens.head?.map (fun t => (Fault.nameless kind).located r.number t.column)).toList.map Diagnostic.upper := by
  have hreport : ∀ t : Token, (Fault.nameless kind).located r.number t.column =
      ((Fault.nameless kind).located r.number t.column).upper := fun t => Fault.located_recast (.nameless kind) r.number _
  rw [Run.recast, List.head?_map]
  cases r.tokens.head? with
  | none => rfl
  | some t => exact congrArg (· :: []) (hreport t)

theorem duplicate_recast (t : Table) (k : Key) (line : Nat) (column : Column) :
    ((t.upper.get? k).map (fun d => (Fault.duplicate d.name d.number).located line column)).toList =
      ((t.get? k).map (fun d => (Fault.duplicate d.name d.number).located line column)).toList.map Diagnostic.upper := by
  rw [Table.get?_upper]
  cases t.get? k with
  | none => rfl
  | some d => exact congrArg (· :: []) (Fault.located_recast (.duplicate d.name d.number) line column)

theorem declare_upper (s : Scan) (r : Run) : s.upper.declare (r.recast .upper) =
    ((s.declare r).1.upper, (s.declare r).2.1.map Diagnostic.upper, (s.declare r).2.2) := by
  have hroutine : routine? (r.recast .upper).tokens = routine? r.tokens :=
    routine?_map (Token.kind_recast .upper) r.tokens
  have hname : routineName? (r.recast .upper).tokens = (routineName? r.tokens).map (Token.recast .upper) :=
    routineName?_map (Token.kind_recast .upper) r.tokens
  have hoffers : offers (r.recast .upper).tokens = (offers r.tokens).map (Token.recast .upper) :=
    offers_map (Token.kind_recast .upper) r.tokens
  rw [declare, declare, hroutine, hname, hoffers]
  cases routine? r.tokens with
  | none => exact congrArg (fun t => (t, _, _)) (foldl_mention_recast r _ s.table)
  | some kind =>
    cases routineName? r.tokens with
    | none => simp only [Option.map_none, nameless_recast, upper, List.map_append]
    | some name =>
      have hduplicate := duplicate_recast s.table (header r kind name).key r.number name.column
      simp only [Option.map_some, header_recast, Declaration.key_upper, upper, Table.declare_upper, List.map_append,
        ← hduplicate]
      rfl

theorem finish_upper (t : Table) (r : Run) (key : Option Key) :
    finish t.upper (r.recast .upper) key = (finish t r key).upper := by
  cases key with
  | none => rfl
  | some k => exact t.close_upper k ⟨r.index, r.number⟩

theorem step_upper (s : Scan) (r : Run) : s.upper.step (r.recast .upper) = (s.step r).upper := by
  unfold step
  rw [Run.role_recast, declare_upper]
  cases r.role with
  | opens form | plain => rfl
  | closes form =>
    have hblocks : s.upper.blocks = s.blocks := rfl
    simp only [hblocks]
    cases s.blocks with
    | nil => rfl
    | cons b bs =>
      simp only
      split
      · simp only [upper, finish_upper]
      · rfl

theorem foldl_step_upper : ∀ (rs : List Run) (s : Scan),
    (rs.map (Run.recast .upper)).foldl step s.upper = (rs.foldl step s).upper
  | [], _ => rfl
  | r :: rs, s => by rw [List.map_cons, List.foldl_cons, step_upper, foldl_step_upper rs, List.foldl_cons]

theorem ofRuns_upper (rs : List Run) : ofRuns (rs.map (Run.recast .upper)) = (ofRuns rs).upper := foldl_step_upper rs {}

end Scan

/-- **The declarations of lines in upper case are their declarations in upper case**, under the same keys. -/
theorem declarations_upper (lines : List CodeLine) : declarations (lines.map CodeLine.upper) =
    ((declarations lines).1.upper, (declarations lines).2.map Diagnostic.upper) := by
  rw [declarations, programRuns_upper, Scan.ofRuns_upper]
  rfl

end BlockBasic
