import BlockBasic.Proofs.Keys
import BlockBasic.Proofs.SharedNames
/-!
# Declared — the names that a table answers for

A table finds a declaration under a name however the name is spelled, and a routine if there is one (`of_lookup`).  After
the pass over a program it answers for exactly the names that runs declare (`declares_ofRuns`): a declaration that takes
the place of another one has the same name up to case, so that nothing that was declared is lost.  Only routines have
parameters (`bare_ofRuns`).
-/
namespace BlockBasic

namespace Text

theorem alike_iff {s t : Text} : alike s t = true ↔ s.upper = t.upper := beq_iff_eq

theorem alike_refl (t : Text) : alike t t = true := beq_self_eq_true _

theorem alike_congr_right (s t : Text) (h : alike s t = true) (u : Text) : alike u s = alike u t := by
  rw [alike, alike, alike_iff.1 h]

theorem alike_congr_left (s t : Text) (h : alike s t = true) (u : Text) : alike s u = alike t u := by
  rw [alike, alike, alike_iff.1 h]

end Text

namespace Table

/-- **Whether a table declares a name**, as a routine or as a variable. -/
def declares (t : Table) (name : Text) : Bool := t.entries.any (fun d => Text.alike d.name name)

def hasParameter (t : Table) (name : Text) : Bool :=
  t.entries.any (fun d => d.kind.scope == .routine && d.parameters.any (Text.alike · name))

def Bare (t : Table) : Prop := ∀ d ∈ t.entries, d.kind.scope = .variable_ → d.parameters = []

/-! ## Looking up -/

theorem key_eq_ofName_iff {d : Declaration} {scope : Scope} {name : Text} :
    d.key = Key.ofName scope name ↔ d.kind.scope = scope ∧ Text.alike d.name name = true := by
  rw [Declaration.key, Key.ofName, Key.ofName, Key.mk.injEq, Text.alike_iff]

theorem declares_congr (t : Table) {m n : Text} (h : Text.alike m n = true) : t.declares m = t.declares n :=
  congrArg t.entries.any (funext fun d => Text.alike_congr_right m n h d.name)

theorem hasParameter_congr (t : Table) {m n : Text} (h : Text.alike m n = true) :
    t.hasParameter m = t.hasParameter n := by
  have hname : (Text.alike · m) = (Text.alike · n) := funext (Text.alike_congr_right m n h)
  rw [hasParameter, hasParameter, hname]

theorem key_of_get? {t : Table} {k : Key} {d : Declaration} (h : t.get? k = some d) : d.key = k :=
  beq_iff_eq.1 (List.find?_some (p := fun e : Declaration => e.key == k) h)

theorem Distinct.get?_eq_some_iff {t : Table} (h : t.Distinct) {k : Key} {d : Declaration} :
    t.get? k = some d ↔ d ∈ t.entries ∧ d.key = k := by
  constructor
  · exact fun hget => ⟨List.mem_of_find?_eq_some hget, key_of_get? hget⟩
  · rintro ⟨hd, rfl⟩
    exact h.get?_of_mem hd

theorem get?_of_not_declares {t : Table} {name : Text} (h : t.declares name = false) (scope : Scope) :
    t.get? (Key.ofName scope name) = none := by
  refine List.find?_eq_none.2 fun d hd hkey => ?_
  have hname := (key_eq_ofName_iff.1 (beq_iff_eq.1 hkey)).2
  rw [declares, List.any_eq_false] at h
  exact h d hd hname

/-- **What a name refers to** is found under its own key and has the name up to case; it is a routine if some routine has
the name. -/
theorem of_lookup {t : Table} {name : Text} {d : Declaration} (h : t.lookup name = some d) :
    t.get? d.key = some d ∧ Text.alike d.name name = true ∧
      ((∃ e ∈ t.entries, e.kind.scope = .routine ∧ Text.alike e.name name = true) → d.kind.scope = .routine) := by
  rcases Option.or_eq_some_iff.1 h with h | ⟨hnone, h⟩
  · have hkey := key_of_get? h
    obtain ⟨hscope, hname⟩ := key_eq_ofName_iff.1 hkey
    exact ⟨hkey ▸ h, hname, fun _ => hscope⟩
  · have hkey := key_of_get? h
    refine ⟨hkey ▸ h, (key_eq_ofName_iff.1 hkey).2, ?_⟩
    rintro ⟨e, he, hroutine⟩
    exact absurd (beq_iff_eq.2 (key_eq_ofName_iff.2 hroutine)) (List.find?_eq_none.1 hnone e he)

theorem contains_eq_declares (t : Table) (name : Text) : t.contains name = t.declares name := by
  rw [Bool.eq_iff_iff, contains, Option.isSome_iff_exists, declares, List.any_eq_true]
  constructor
  · rintro ⟨d, hd⟩
    obtain ⟨hget, hname, -⟩ := of_lookup hd
    exact ⟨d, List.mem_of_find?_eq_some hget, hname⟩
  · rintro ⟨d, hd, hname⟩
    have hfound : (t.get? (Key.ofName d.kind.scope name)).isSome = true :=
      List.find?_isSome.2 ⟨d, hd, beq_iff_eq.2 (key_eq_ofName_iff.2 ⟨rfl, hname⟩)⟩
    rw [← Option.isSome_iff_exists, lookup, Option.isSome_or]
    cases hs : d.kind.scope <;> rw [hs] at hfound <;> simp [hfound]

/-! ## Declaring and closing -/

theorem declares_declare (t : Table) (d : Declaration) (name : Text) :
    (t.declare d).declares name = (t.declares name || Text.alike d.name name) := by
  have hput : ∀ es : List Declaration, (put d es).any (fun e => Text.alike e.name name) =
      (es.any (fun e => Text.alike e.name name) || Text.alike d.name name) := by
    intro es
    induction es with
    | nil => rw [put, List.any_cons, Bool.or_comm]
    | cons e es ih =>
      rw [put, List.any_cons]
      split
      · -- what is replaced answers for the same names
        rename_i hkey
        have hsame : Text.alike e.name name = Text.alike d.name name :=
          Text.alike_congr_left _ _ (key_eq_ofName_iff.1 hkey).2 name
        rw [List.any_cons, hsame, Bool.or_right_comm, Bool.or_self]
      · rw [List.any_cons, ih, Bool.or_assoc]
  exact hput t.entries

theorem declares_close (t : Table) (k : Key) (stop : BlockEnd) (name : Text) :
    (t.close k stop).declares name = t.declares name := by
  have hputEnd : ∀ es : List Declaration, (putEnd k stop es).any (fun e => Text.alike e.name name) =
      es.any (fun e => Text.alike e.name name) := by
    intro es
    induction es with
    | nil => rfl
    | cons e es ih =>
      rw [putEnd]
      split
      · rfl
      · rw [List.any_cons, List.any_cons, ih]
  exact hputEnd t.entries

theorem Bare.declare {t : Table} (h : t.Bare) {d : Declaration} (hd : d.kind.scope = .variable_ → d.parameters = []) :
    (t.declare d).Bare := by
  intro e he
  rcases mem_put he with rfl | he
  · exact hd
  · exact h e he

theorem Bare.close {t : Table} (h : t.Bare) (k : Key) (stop : BlockEnd) : (t.close k stop).Bare := by
  intro e he hscope
  obtain ⟨d, hd, rfl | rfl⟩ := mem_putEnd he
  · exact h e hd hscope
  · exact h d hd hscope

/-- **The parameters of a table** are those of its routines. -/
theorem Bare.isParameter {t : Table} (h : t.Bare) (name : Text) : t.isParameter name = t.hasParameter name := by
  rw [Table.isParameter, hasParameter, Bool.eq_iff_iff, List.any_eq_true, List.any_eq_true]
  refine exists_congr fun d => and_congr_right fun hd => ?_
  cases hs : d.kind.scope with
  | routine => rw [beq_self_eq_true, Bool.true_and]
  | variable_ => rw [h d hd hs]; simp

end Table

/-! ## The pass -/

namespace Scan

/-- **The names that a run declares**: that of the routine it heads, or else those that it gives a value to. -/
def declared (r : Run) : List Token :=
  match routine? r.tokens with
  | some _ => (routineName? r.tokens).toList
  | none   => offers r.tokens

theorem offers_of_closes {r : Run} {form : BlockForm} (h : Run.closes? r.tokens = some form) :
    routine? r.tokens = none ∧ offers r.tokens = [] := by
  obtain ⟨index, number, tokens⟩ := r
  cases tokens with
  | nil => cases h
  | cons first rest =>
    have hname : first.kind ≠ .name := by
      intro hk
      rw [(Run.of_assignment index number rest (.inr (.inr hk))).1] at h
      cases h
    have hword : ∀ w ∈ Run.declaring, first.kind ≠ .word w := by
      intro w hw hk
      simp [Run.closes?, Run.word?, Token.word?, hk] at h
      simp only [Run.declaring, List.mem_cons, List.not_mem_nil, or_false] at hw
      rcases hw with rfl | rfl | rfl | rfl | rfl <;> cases h
    exact Run.of_other rest hname hword

theorem declared_of_closes {r : Run} {form : BlockForm} (h : Run.closes? r.tokens = some form) : declared r = [] := by
  obtain ⟨hroutine, hoffers⟩ := offers_of_closes h
  rw [declared, hroutine, hoffers]

theorem declares_mention (r : Run) (t : Table) (token : Token) (name : Text) :
    (mention r t token).declares name = (t.declares name || Text.alike token.text name) := by
  rw [mention]
  split
  · -- the name is there already, so a name like it is too
    rename_i hcontains
    rw [Table.contains_eq_declares] at hcontains
    cases halike : Text.alike token.text name with
    | false => rw [Bool.or_false]
    | true => rw [← t.declares_congr halike, hcontains]; rfl
  · exact t.declares_declare _ name

theorem declares_foldl_mention (r : Run) (name : Text) : ∀ (tokens : List Token) (t : Table),
    (tokens.foldl (mention r) t).declares name = (t.declares name || tokens.any (fun token => Text.alike token.text name))
  | [], t => (Bool.or_false _).symm
  | token :: tokens, t => by
    rw [List.foldl_cons, declares_foldl_mention r name tokens, declares_mention, List.any_cons, Bool.or_assoc]

theorem declares_step (s : Scan) (r : Run) (name : Text) : (s.step r).table.declares name =
    (s.table.declares name || (declared r).any (fun token => Text.alike token.text name)) := by
  cases hcloses : Run.closes? r.tokens with
  | some form =>
    rw [declared_of_closes hcloses, List.any_nil, Bool.or_false]
    rcases table_step_of_closes hcloses s with h | ⟨k, h⟩
    · rw [h]
    · rw [h, Table.declares_close]
  | none =>
    rw [table_step hcloses s, declared]
    cases hroutine : routine? r.tokens with
    | none =>
      rw [table_declare_offers hroutine s]
      exact declares_foldl_mention r name _ s.table
    | some kind =>
      rw [table_declare_routine hroutine s]
      cases routineName? r.tokens with
      | none => exact (Bool.or_false _).symm
      | some token =>
        refine (s.table.declares_declare _ name).trans ?_
        rw [Option.toList_some, List.any_cons, List.any_nil, Bool.or_false]
        rfl

theorem declares_foldl (name : Text) : ∀ (rs : List Run) (s : Scan), (rs.foldl step s).table.declares name =
    (s.table.declares name || rs.any (fun r => (declared r).any (fun token => Text.alike token.text name)))
  | [], s => (Bool.or_false _).symm
  | r :: rs, s => by
    rw [List.foldl_cons, declares_foldl name rs, declares_step, List.any_cons, Bool.or_assoc]

/-- **The table of a program declares the names that its runs declare**, and no others. -/
theorem declares_ofRuns (rs : List Run) (name : Text) : (ofRuns rs).table.declares name =
    rs.any (fun r => (declared r).any (fun token => Text.alike token.text name)) := declares_foldl name rs {}

theorem bare_mention {t : Table} (h : t.Bare) (r : Run) (token : Token) : (mention r t token).Bare := by
  rw [mention]
  split
  · exact h
  · exact h.declare fun _ => rfl

theorem bare_step {s : Scan} (h : s.table.Bare) (r : Run) : (s.step r).table.Bare := by
  cases hcloses : Run.closes? r.tokens with
  | some form =>
    rcases table_step_of_closes hcloses s with hs | ⟨k, hs⟩
    · rw [hs]
      exact h
    · rw [hs]
      exact h.close k _
  | none =>
    rw [table_step hcloses s]
    cases hroutine : routine? r.tokens with
    | none =>
      rw [table_declare_offers hroutine s]
      exact List.foldlRecOn _ _ h fun t ht token _ => bare_mention ht r token
    | some kind =>
      rw [table_declare_routine hroutine s]
      cases routineName? r.tokens with
      | none => exact h
      | some token => exact h.declare fun hscope => by cases hscope

theorem bare_ofRuns (rs : List Run) : (ofRuns rs).table.Bare :=
  List.foldlRecOn (motive := fun s : Scan => s.table.Bare) rs step (fun _ hd => absurd hd List.not_mem_nil)
    fun _ hs r _ => bare_step hs r

end Scan
end BlockBasic
