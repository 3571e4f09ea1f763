import BlockBasic.Proofs.Signs
import BlockBasic.Reference.Scan
/-!
# Effects — what a run does to blocks and declarations

The pass over the declarations looks at little of a run: its role, the routine it heads and that routine's name, and the
names it gives a value to.  That is its `effect`, and the signs of its tokens tell it (`effect_of_signs`).  Runs of the
same effects, line numbers aside, declare the same names under the same keys and are reported on alike
(`same_ofRuns`).
-/
namespace BlockBasic

/-- **What a run does to the blocks and the declarations**: its role, the kind and name of the routine it heads, and the
names that it offers. -/
def Run.effect (r : Run) : Role × Option (RoutineKind × Option Text) × List Text :=
  (r.role, (Scan.routine? r.tokens).map (fun kind => (kind, (Scan.routineName? r.tokens).map Token.text)),
    (Scan.offers r.tokens).map Token.text)

/-! ## Effects are a matter of signs -/

namespace Run

theorem role_of_signs {r s : Run} (h : r.tokens.map Token.sign = s.tokens.map Token.sign) : r.role = s.role := by
  have hk := congrArg (List.map Token.kind) h
  rw [List.map_map, List.map_map] at hk
  exact role_of_kinds hk

end Run

namespace Scan

theorem kind_of_mem_itemNames : ∀ {depth : Int} {wanted : Bool} {ts : List Token}, ∀ t ∈ itemNames depth wanted ts,
    t.kind = .name
  | _, _, [], t, h => absurd h List.not_mem_nil
  | depth, wanted, u :: us, t, h => by
    unfold itemNames at h
    split at h
    · exact kind_of_mem_itemNames t h
    · exact kind_of_mem_itemNames t h
    · exact kind_of_mem_itemNames t h
    · rename_i hu
      split at h
      · rcases List.mem_cons.1 h with rfl | h
        · exact hu
        · exact kind_of_mem_itemNames t h
      · exact kind_of_mem_itemNames t h
    · exact kind_of_mem_itemNames t h

theorem kind_of_target? {ts : List Token} {t : Token} (h : target? ts = some t) : t.kind = .name := by
  unfold target? at h
  split at h
  · cases h
  · split at h
    · rename_i hk
      split at h
      · split at h
        · split at h
          · cases h
            exact hk
          · cases h
        · split at h
          · cases h
            exact hk
          · cases h
      · cases h
    · cases h

theorem kind_of_mem_offers {ts : List Token} : ∀ t ∈ offers ts, t.kind = .name := by
  intro t ht
  unfold offers at ht
  split at ht
  · cases ht
  · split at ht
    · exact kind_of_target? (Option.mem_toList.1 ht)
    · exact kind_of_target? (Option.mem_toList.1 ht)
    · exact kind_of_mem_itemNames t ht
    · exact kind_of_target? (Option.mem_toList.1 ht)
    · cases ht

theorem text_sign_of_name {t : Token} (h : t.kind = .name) : t.sign.text = t.text := by
  rw [Token.sign, if_pos h]

theorem offers_text (ts : List Token) : (offers (ts.map Token.sign)).map Token.text = (offers ts).map Token.text := by
  rw [offers_map Token.kind_sign, List.map_map]
  exact List.map_congr_left (fun t ht => text_sign_of_name (kind_of_mem_offers t ht))

theorem routineName?_text (ts : List Token) :
    (routineName? (ts.map Token.sign)).map Token.text = (routineName? ts).map Token.text := by
  rw [routineName?_map Token.kind_sign, Option.map_map]
  exact Option.map_congr fun t ht => text_sign_of_name (beq_iff_eq.1 (Option.mem_filter_iff.1 ht).2)

end Scan

/-- **The signs of a run's tokens tell its effect.** -/
theorem Run.effect_of_signs {r s : Run} (h : r.tokens.map Token.sign = s.tokens.map Token.sign) : r.effect = s.effect := by
  rw [Run.effect, Run.effect, Run.role_of_signs h, ← Scan.routine?_map Token.kind_sign, ← Scan.routineName?_text,
    ← Scan.offers_text, h, Scan.routine?_map Token.kind_sign, Scan.routineName?_text, Scan.offers_text]

theorem Run.effect_of_open {r : Run} (h : Run.word? r.tokens 0 = some .open_) : r.effect = (.plain, none, []) := by
  have hrole : r.role = .plain := by simp [Run.role, Run.closes?, Run.opens?, h]
  have hroutine : Scan.routine? r.tokens = none := by simp [Scan.routine?, h]
  have hoffers : Scan.offers r.tokens = [] := by
    cases ht : r.tokens with
    | nil => rfl
    | cons t ts =>
      rw [ht] at h
      have hk := Phrase.kind_of_word? (t := t) (w := .open_) (by simpa [Run.word?] using h)
      simp [Scan.offers, hk]
  rw [Run.effect, hrole, hroutine, hoffers]
  rfl

/-! ## Runs of the same effects declare the same -/

def Declaration.title (d : Declaration) : Text × DeclarationKind := (d.name, d.kind)

theorem Declaration.key_of_title {d e : Declaration} (h : d.title = e.title) : d.key = e.key := by
  have hn : d.name = e.name := congrArg Prod.fst h
  have hk : d.kind = e.kind := congrArg Prod.snd h
  rw [Declaration.key, Declaration.key, hn, hk]

namespace Table

def titles (t : Table) : List (Text × DeclarationKind) := t.entries.map Declaration.title

theorem map_title_put {d e : Declaration} (h : d.title = e.title) : ∀ {xs ys : List Declaration},
    xs.map Declaration.title = ys.map Declaration.title →
      (put d xs).map Declaration.title = (put e ys).map Declaration.title
  | [], [], _ => by rw [put, put, List.map_cons, List.map_cons, h]
  | x :: xs, y :: ys, hxy => by
    obtain ⟨hx, hxs⟩ := List.cons.inj hxy
    rw [put, put, Declaration.key_of_title h, Declaration.key_of_title hx]
    split
    · rw [List.map_cons, List.map_cons, h, hxs]
    · rw [List.map_cons, List.map_cons, hx, map_title_put h hxs]

theorem titles_declare {t u : Table} (h : t.titles = u.titles) {d e : Declaration} (hd : d.title = e.title) :
    (t.declare d).titles = (u.declare e).titles := map_title_put hd h

theorem titles_close (k : Key) (stop : BlockEnd) (t : Table) : (t.close k stop).titles = t.titles := by
  have h : ∀ es : List Declaration, (putEnd k stop es).map Declaration.title = es.map Declaration.title := by
    intro es
    induction es with
    | nil => rfl
    | cons e es ih =>
      rw [putEnd]
      split
      · rfl
      · rw [List.map_cons, List.map_cons, ih]
  exact h t.entries

theorem get?_of_titles {t u : Table} (h : t.titles = u.titles) (k : Key) :
    (t.get? k).map Declaration.title = (u.get? k).map Declaration.title := by
  have hfind : ∀ {xs ys : List Declaration}, xs.map Declaration.title = ys.map Declaration.title →
      (xs.find? (fun d => d.key == k)).map Declaration.title = (ys.find? (fun d => d.key == k)).map Declaration.title := by
    intro xs
    induction xs with
    | nil =>
      intro ys hxy
      rw [List.map_nil] at hxy
      rw [List.map_eq_nil_iff.1 hxy.symm]
    | cons x xs ih =>
      intro ys hxy
      cases ys with
      | nil => cases hxy
      | cons y ys =>
        obtain ⟨hx, hxs⟩ := List.cons.inj hxy
        rw [List.find?_cons, List.find?_cons, Declaration.key_of_title hx]
        split
        · exact congrArg some hx
        · exact ih hxs
  exact hfind h

theorem lookup_of_titles {t u : Table} (h : t.titles = u.titles) (name : Text) :
    (t.lookup name).map Declaration.title = (u.lookup name).map Declaration.title := by
  have h1 := get?_of_titles h (Key.ofName .routine name)
  have h2 := get?_of_titles h (Key.ofName .variable_ name)
  rw [lookup, lookup]
  cases ht : t.get? (Key.ofName .routine name) with
  | some d =>
    cases hu : u.get? (Key.ofName .routine name) with
    | some e => rwa [ht, hu] at h1
    | none => rw [ht, hu] at h1; cases h1
  | none =>
    cases hu : u.get? (Key.ofName .routine name) with
    | some e => rw [ht, hu] at h1; cases h1
    | none => exact h2

theorem contains_of_titles {t u : Table} (h : t.titles = u.titles) (name : Text) : t.contains name = u.contains name := by
  have hl := congrArg Option.isSome (lookup_of_titles h name)
  rwa [Option.isSome_map, Option.isSome_map] at hl

theorem sameKeys_of_titles {t u : Table} (h : t.titles = u.titles) : t.SameKeys u := by
  intro name
  have hl := lookup_of_titles h name
  cases ht : t.lookup name with
  | none =>
    rw [ht] at hl
    rw [Option.map_eq_none_iff.1 hl.symm]
  | some d =>
    rw [ht] at hl
    obtain ⟨e, he, hd⟩ := Option.map_eq_some_iff.1 hl.symm
    rw [he, Option.map_some, Option.map_some, Declaration.key_of_title hd]

end Table

namespace Scan

/-- **Two states of the pass that differ in line numbers at most**: the same titles in the tables, the same open blocks,
and if nothing was reported in the first, nothing was in the second. -/
structure Same (s u : Scan) : Prop where
  titles      : s.table.titles = u.table.titles
  blocks      : s.blocks = u.blocks
  diagnostics : s.diagnostics = [] → u.diagnostics = []

theorem titles_mention {r r' : Run} {t u : Table} (h : t.titles = u.titles) {x y : Token} (hxy : x.text = y.text) :
    (mention r t x).titles = (mention r' u y).titles := by
  rw [mention, mention, hxy, Table.contains_of_titles h]
  split
  · exact h
  · exact Table.titles_declare h rfl

theorem titles_foldl_mention {r r' : Run} : ∀ {xs ys : List Token}, xs.map Token.text = ys.map Token.text →
    ∀ {t u : Table}, t.titles = u.titles → (xs.foldl (mention r) t).titles = (ys.foldl (mention r') u).titles
  | [], [], _, _, _, h => h
  | x :: xs, y :: ys, hxy, t, u, h => by
    obtain ⟨hx, hxs⟩ := List.cons.inj hxy
    rw [List.foldl_cons, List.foldl_cons]
    exact titles_foldl_mention hxs (titles_mention h hx)

theorem tokens_ne_nil_of_routine? {ts : List Token} {kind : RoutineKind} (h : routine? ts = some kind) : ts ≠ [] := by
  rintro rfl
  cases h

theorem same_declare {s u : Scan} (h : Same s u) {r r' : Run} (hr : r.effect = r'.effect) :
    (s.declare r).1.titles = (u.declare r').1.titles ∧ (s.declare r).2.2 = (u.declare r').2.2 ∧
      ((s.declare r).2.1 = [] → (u.declare r').2.1 = []) := by
  have hroutine : (routine? r.tokens).map (fun kind => (kind, (routineName? r.tokens).map Token.text)) =
      (routine? r'.tokens).map (fun kind => (kind, (routineName? r'.tokens).map Token.text)) :=
    congrArg (fun e => e.2.1) hr
  have hoffers : (offers r.tokens).map Token.text = (offers r'.tokens).map Token.text := congrArg (fun e => e.2.2) hr
  unfold declare
  cases hk : routine? r.tokens with
  | none =>
    rw [hk] at hroutine
    rw [Option.map_eq_none_iff.1 hroutine.symm]
    exact ⟨titles_foldl_mention hoffers h.titles, rfl, h.diagnostics⟩
  | some kind =>
    rw [hk] at hroutine
    obtain ⟨kind', hk', he⟩ := Option.map_eq_some_iff.1 hroutine.symm
    obtain ⟨rfl, hname⟩ := Prod.mk.inj he
    rw [hk']
    cases hn : routineName? r.tokens with
    | none =>
      rw [hn] at hname
      rw [Option.map_eq_none_iff.1 hname]
      refine ⟨h.titles, rfl, fun hd => ?_⟩
      -- a routine without a name is reported on, so there is nothing to show
      cases ht : r.tokens with
      | nil => exact absurd ht (tokens_ne_nil_of_routine? hk)
      | cons t ts => simp [ht] at hd
    | some name =>
      rw [hn] at hname
      obtain ⟨name', hn', htext⟩ := Option.map_eq_some_iff.1 hname
      have hkey : (header r kind' name).key = (header r' kind' name').key :=
        Declaration.key_of_title (by rw [Declaration.title, Declaration.title, header, header, htext])
      rw [hn']
      refine ⟨Table.titles_declare h.titles (by rw [Declaration.title, Declaration.title, header, header, htext]),
        congrArg some hkey, fun hd => ?_⟩
      obtain ⟨hs, hg⟩ := List.append_eq_nil_iff.1 hd
      have hget := Table.get?_of_titles h.titles (header r kind' name).key
      cases hf : s.table.get? (header r kind' name).key with
      | some d => simp [hf] at hg
      | none =>
        rw [hf] at hget
        simp only [h.diagnostics hs, ← hkey, Option.map_eq_none_iff.1 hget.symm]
        rfl

theorem titles_finish (r : Run) (k : Option Key) (t : Table) : (finish t r k).titles = t.titles := by
  cases k with
  | none => rfl
  | some k => exact Table.titles_close k _ t

theorem same_step {s u : Scan} (h : Same s u) {r r' : Run} (hr : r.effect = r'.effect) : Same (s.step r) (u.step r') := by
  have hrole : r.role = r'.role := congrArg Prod.fst hr
  obtain ⟨h1, h2, h3⟩ := same_declare h hr
  unfold step
  rw [hrole]
  cases r'.role with
  | plain => exact ⟨h1, h.blocks, h3⟩
  | opens form => exact ⟨h1, by rw [h2, h.blocks], h3⟩
  | closes form =>
    simp only [← h.blocks]
    cases hb : s.blocks with
    | nil => exact h
    | cons b bs =>
      simp only
      split
      · exact ⟨by rw [titles_finish, titles_finish, h.titles], rfl, h.diagnostics⟩
      · exact h

theorem same_foldl : ∀ {rs rs' : List Run}, rs.map Run.effect = rs'.map Run.effect → ∀ {s u : Scan}, Same s u →
    Same (rs.foldl step s) (rs'.foldl step u)
  | [], [], _, _, _, h => h
  | r :: rs, r' :: rs', hrs, s, u, h => by
    obtain ⟨hr, hrs⟩ := List.cons.inj hrs
    rw [List.foldl_cons, List.foldl_cons]
    exact same_foldl hrs (same_step h hr)

/-- **Runs of the same effects leave the pass in the same state.** -/
theorem same_ofRuns {rs rs' : List Run} (h : rs.map Run.effect = rs'.map Run.effect) : Same (ofRuns rs) (ofRuns rs') :=
  same_foldl h ⟨rfl, rfl, id⟩

end Scan
end BlockBasic
