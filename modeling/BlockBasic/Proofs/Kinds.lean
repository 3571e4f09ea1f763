import BlockBasic.Proofs.Brackets
import BlockBasic.Reference.Scan
import BlockBasic.Statement
/-!
# Kinds — what the kinds of tokens decide

The cut of a line into statements and of a statement into phrases, the pairing of brackets, the part of a run in the
blocks and the names that it declares hang on the kinds of the tokens and on nothing else in them, but for the number of a
file after a `#`.  So a map of tokens that keeps their kinds goes through each of these walks.
-/
namespace BlockBasic

theorem Token.word?_of_kind {t u : Token} (h : t.kind = u.kind) : t.word? = u.word? := by
  rw [Token.word?, Token.word?, h]

theorem CodeLine.stretches_map {f : Token → Token} (hf : ∀ t, (f t).kind = t.kind) : ∀ (depth : Nat) (ts : List Token),
    stretches depth (ts.map f) = (stretches depth ts).map (List.map f)
  | _, [] => rfl
  | depth, t :: ts => by
    have hdivider : isDivider depth (f t) = isDivider depth t := by rw [isDivider, isDivider, hf]
    have hdepth : depthAfter depth (f t) = depthAfter depth t := by rw [depthAfter, depthAfter, hf]
    rw [List.map_cons, stretches, stretches, hdivider, hdepth, stretches_map hf _ ts, stretches_map hf _ ts]
    split
    · rfl
    · cases stretches (depthAfter depth t) ts <;> rfl

/-! ## Phrases of other tokens -/

namespace Phrase

def map (f : Token → Token) : Phrase → Phrase
  | .token t           => .token (f t)
  | .handle t u n      => .handle (f t) (f u) n
  | .mode t u m        => .mode (f t) (f u) m
  | .access t u more a => .access (f t) (f u) (more.map f) a

@[simp] theorem first_map (f : Token → Token) (p : Phrase) : (p.map f).first = f p.first := by cases p <;> rfl

theorem last_map (f : Token → Token) : ∀ (p : Phrase), (p.map f).last = f p.last
  | .token _ | .handle _ _ _ | .mode _ _ _ | .access _ _ none _ | .access _ _ (some _) _ => rfl

@[simp] theorem tokens_map (f : Token → Token) : ∀ (p : Phrase), (p.map f).tokens = p.tokens.map f
  | .token _ | .handle _ _ _ | .mode _ _ _ => rfl
  | .access _ _ none _ | .access _ _ (some _) _ => rfl

theorem flatMap_tokens_map (f : Token → Token) (ps : List Phrase) :
    (ps.map (map f)).flatMap tokens = (ps.flatMap tokens).map f := by
  rw [List.flatMap_map, List.map_flatMap]
  simp only [tokens_map]

variable {f : Token → Token}

theorem ofHash_map (hn : ∀ t, handle? (f t) = handle? t) (t : Token) : ∀ (rest : List Token),
    ofHash (f t) (rest.map f) = (ofHash t rest).map f
  | [] => rfl
  | u :: _ => by
    rw [List.map_cons, ofHash, ofHash]
    simp only [hn u]
    split <;> rfl

variable (hk : ∀ t, (f t).kind = t.kind)
include hk

theorem ofFor_map (t : Token) : ∀ (rest : List Token), ofFor (f t) (rest.map f) = (ofFor t rest).map f
  | [] => rfl
  | u :: _ => by
    rw [List.map_cons, ofFor, ofFor, Token.word?_of_kind (hk u)]
    cases u.word?.bind FileMode.ofWord? <;> rfl

theorem ofAccess_map (t : Token) : ∀ (rest : List Token), ofAccess (f t) (rest.map f) = (ofAccess t rest).map f
  | [] => rfl
  | [u] => by
    rw [List.map_cons, List.map_nil, ofAccess, ofAccess]
    simp only [Token.word?_of_kind (hk u)]
    split <;> rfl
  | u :: v :: _ => by
    rw [List.map_cons, List.map_cons, ofAccess, ofAccess]
    simp only [Token.word?_of_kind (hk u), Token.word?_of_kind (hk v)]
    split
    · rfl
    · split <;> rfl
    · rfl

variable (hn : ∀ t, handle? (f t) = handle? t)
include hn

theorem starting_map (inOpen : Bool) (t : Token) (rest : List Token) :
    starting inOpen (f t) (rest.map f) = (starting inOpen t rest).map f := by
  unfold starting
  rw [hk t, ofHash_map hn, ofFor_map hk, ofAccess_map hk]
  split
  · rfl
  · split <;> rfl
  · split <;> rfl
  · rfl

theorem scan_map (inOpen : Bool) : ∀ (taken : Nat) (ts : List Token),
    scan inOpen taken (ts.map f) = (scan inOpen taken ts).map (map f)
  | 0, [] | _ + 1, [] => rfl
  | taken + 1, _ :: ts => scan_map inOpen taken ts
  | 0, t :: ts => by
    rw [List.map_cons, scan, scan, starting_map hk hn, tokens_map, List.length_map, scan_map inOpen _ ts, List.map_cons]

theorem phrases_map (inOpen : Bool) (ts : List Token) : phrases inOpen (ts.map f) = (phrases inOpen ts).map (map f) :=
  scan_map hk hn inOpen 0 ts

end Phrase

/-! ## Nests of other tokens -/

namespace Nest

mutual

def map (f : Token → Token) : Nest → Nest
  | .leaf p                       => .leaf (p.map f)
  | .group b opening body closing => .group b (f opening) (mapList f body) (closing.map f)

def mapList (f : Token → Token) : List Nest → List Nest
  | []      => []
  | n :: ns => map f n :: mapList f ns

end

theorem mapList_eq_map (f : Token → Token) (ns : List Nest) : mapList f ns = ns.map (map f) := by
  induction ns with
  | nil => rfl
  | cons n ns ih => rw [mapList, ih, List.map_cons]

@[simp] theorem mapList_append (f : Token → Token) (xs ys : List Nest) :
    mapList f (xs ++ ys) = mapList f xs ++ mapList f ys := by
  simp only [mapList_eq_map, List.map_append]

mutual

theorem tokens_map (f : Token → Token) : ∀ (n : Nest), tokens (n.map f) = (tokens n).map f
  | .leaf p => Phrase.tokens_map f p
  | .group _ o body c => by
    rw [map, tokens, tokens, tokensOf_mapList f body, List.map_cons, List.map_append]
    cases c <;> rfl

theorem tokensOf_mapList (f : Token → Token) : ∀ (ns : List Nest), tokensOf (mapList f ns) = (tokensOf ns).map f
  | [] => rfl
  | n :: ns => by rw [mapList, tokensOf, tokensOf, tokens_map f n, tokensOf_mapList f ns, List.map_append]

end

namespace Pairing

def map (f : Token → Token) (s : Pairing) : Pairing :=
  ⟨s.frames.map (fun g => ⟨g.bracket, f g.opening, mapList f g.before⟩), mapList f s.current⟩

theorem map_add (f : Token → Token) (s : Pairing) (n : Nest) : (s.add n).map f = (s.map f).add (n.map f) := by
  simp [map, add, mapList]

theorem map_step {f : Token → Token} (hf : ∀ t, (f t).kind = t.kind) (limit : Limit) (s : Pairing) (p : Phrase) :
    (s.step limit p).map f = (s.map f).step limit (p.map f) := by
  have hadd : (s.add (.leaf p)).map f = (s.map f).add (.leaf (p.map f)) := map_add f s (.leaf p)
  unfold step
  rw [Phrase.first_map, hf]
  cases p.first.kind with
  | opener b => rfl
  | closer b =>
    cases hs : s.frames with
    | nil => simpa [hs, map] using hadd
    | cons g gs =>
      have hm : (s.map f).frames = ⟨g.bracket, f g.opening, mapList f g.before⟩ ::
          gs.map (fun g => ⟨g.bracket, f g.opening, mapList f g.before⟩) := by simp [map, hs]
      have hsame : fits limit b ⟨g.bracket, f g.opening, mapList f g.before⟩
          (gs.map (fun g => ⟨g.bracket, f g.opening, mapList f g.before⟩)) = fits limit b g gs := by simp [fits]
      simp only [hm, hsame]
      by_cases hfits : fits limit b g gs = true
      · rw [if_pos hfits, if_pos hfits]
        simp [map, mapList, Nest.map]
      · rw [if_neg hfits, if_neg hfits]
        exact hadd
  | _ => exact hadd

theorem map_foldl {f : Token → Token} (hf : ∀ t, (f t).kind = t.kind) (limit : Limit) :
    ∀ (ps : List Phrase) (s : Pairing),
      (ps.foldl (step limit) s).map f = (ps.map (Phrase.map f)).foldl (step limit) (s.map f)
  | [], _ => rfl
  | p :: ps, s => by rw [List.foldl_cons, map_foldl hf limit ps, map_step hf, List.map_cons, List.foldl_cons]

theorem mapList_finish (f : Token → Token) : ∀ (fs : List Frame) (current : List Nest),
    mapList f (finish fs current) = finish (fs.map (fun g => ⟨g.bracket, f g.opening, mapList f g.before⟩))
      (mapList f current)
  | [], _ => rfl
  | g :: fs, current => by
    have h : ∀ (g : Frame) (gs : List Frame) (c : List Nest),
        finish (g :: gs) c = finish gs (g.before ++ [.group g.bracket g.opening c none]) := fun _ _ _ => rfl
    rw [h, mapList_finish f fs, List.map_cons, h]
    simp [mapList, Nest.map]

end Pairing

theorem mapList_ofPhrases {f : Token → Token} (hf : ∀ t, (f t).kind = t.kind) (limit : Limit) (ps : List Phrase) :
    mapList f (ofPhrases limit ps) = ofPhrases limit (ps.map (Phrase.map f)) := by
  have h := Pairing.map_foldl hf limit ps {}
  rw [ofPhrases, ofPhrases, Pairing.mapList_finish, show ({} : Pairing) = Pairing.map f {} from rfl, ← h]
  rfl

end Nest

/-! ## Roles -/

namespace Run

theorem word?_of_kinds {ts us : List Token} (h : ts.map Token.kind = us.map Token.kind) (i : Nat) :
    word? ts i = word? us i := by
  have hi : ts[i]?.map Token.kind = us[i]?.map Token.kind := by rw [← List.getElem?_map, h, List.getElem?_map]
  rw [word?, word?]
  cases ht : ts[i]? with
  | none =>
    rw [ht] at hi
    rw [Option.map_eq_none_iff.1 hi.symm]
  | some t =>
    rw [ht] at hi
    obtain ⟨u, hu, hk⟩ := Option.map_eq_some_iff.1 hi.symm
    rw [hu]
    exact Token.word?_of_kind hk.symm

theorem endsInThen_of_kinds {ts us : List Token} (h : ts.map Token.kind = us.map Token.kind) :
    endsInThen ts = endsInThen us := by
  have hl : ts.getLast?.map Token.kind = us.getLast?.map Token.kind := by rw [← List.getLast?_map, h, List.getLast?_map]
  have hw : ∀ o : Option Token, o.bind Token.word? = (o.map Token.kind).bind (fun k => Token.word? ⟨k, [], Column.none⟩) :=
    fun o => by cases o <;> rfl
  rw [endsInThen, endsInThen, hw, hl, ← hw]

/-- **The kinds of a run's tokens tell its part in the blocks.** -/
theorem role_of_kinds {r s : Run} (h : r.tokens.map Token.kind = s.tokens.map Token.kind) : r.role = s.role := by
  have hc : closes? r.tokens = closes? s.tokens := by rw [closes?, closes?, word?_of_kinds h, word?_of_kinds h]
  have ho : opens? r.tokens = opens? s.tokens := by rw [opens?, opens?, word?_of_kinds h, endsInThen_of_kinds h]
  rw [role, role, hc, ho]

end Run

/-! ## Names that are declared -/

namespace Scan

variable {f : Token → Token} (hf : ∀ t, (f t).kind = t.kind)
include hf

theorem itemNames_map : ∀ (depth : Int) (wanted : Bool) (ts : List Token),
    itemNames depth wanted (ts.map f) = (itemNames depth wanted ts).map f
  | _, _, [] => rfl
  | depth, wanted, t :: ts => by
    have ih := fun d w => itemNames_map d w ts
    rw [List.map_cons]
    unfold itemNames
    rw [hf]
    cases t.kind with
    | opener | closer | separator => exact ih _ _
    | name =>
      by_cases hw : (depth == 0 && wanted) = true
      · simp only [hw, if_true, List.map_cons, ih]
      · simp only [hw, Bool.false_eq_true, if_false, ih]
    | _ => exact ih _ _

theorem groupInside_map : ∀ (depth : Nat) (ts : List Token),
    groupInside depth (ts.map f) = (groupInside depth ts).map f
  | _, [] => rfl
  | depth, t :: ts => by
    have ih := fun d => groupInside_map d ts
    rw [List.map_cons]
    unfold groupInside
    rw [hf]
    cases t.kind with
    | opener b => simp [ih]
    | closer b =>
      cases depth with
      | zero => rfl
      | succ d => simp [ih]
    | _ => simp [ih]

theorem afterGroup_map (ts : List Token) : afterGroup (ts.map f) = (afterGroup ts).map f := by
  rw [afterGroup, afterGroup, groupInside_map hf, List.length_map, List.map_drop]

theorem startsAssigning_map (ts : List Token) : startsAssigning (ts.map f) = startsAssigning ts := by
  cases ts with
  | nil => rfl
  | cons t ts => rw [List.map_cons, startsAssigning, startsAssigning, hf]

theorem target?_map (ts : List Token) : target? (ts.map f) = (target? ts).map f := by
  cases ts with
  | nil => rfl
  | cons t ts =>
    cases ts with
    | nil => simp only [target?, List.map_cons, List.map_nil, ite_self, Option.map_none]
    | cons b bs =>
      have h1 := startsAssigning_map hf (afterGroup bs)
      have h2 := startsAssigning_map hf (b :: bs)
      rw [← afterGroup_map hf] at h1
      rw [List.map_cons] at h2
      simp only [target?, List.map_cons, hf, h1, h2]
      split
      · split
        · split <;> rfl
        · split <;> rfl
      · rfl

theorem offers_map (ts : List Token) : offers (ts.map f) = (offers ts).map f := by
  cases ts with
  | nil => rfl
  | cons t ts =>
    have h1 : (target? (ts.map f)).toList = (target? ts).toList.map f := by
      rw [target?_map hf]
      cases target? ts <;> rfl
    have h2 : (target? ((t :: ts).map f)).toList = (target? (t :: ts)).toList.map f := by
      rw [target?_map hf]
      cases target? (t :: ts) <;> rfl
    rw [List.map_cons] at h2 ⊢
    simp only [offers, hf]
    split
    · exact h1
    · exact h1
    · exact itemNames_map hf 0 true ts
    · exact h2
    · rfl

theorem routine?_map (ts : List Token) : routine? (ts.map f) = routine? ts := by
  have hk : (ts.map f).map Token.kind = ts.map Token.kind := by
    rw [List.map_map]
    exact List.map_congr_left (fun t _ => hf t)
  rw [routine?, routine?, Run.word?_of_kinds hk]

theorem routineName?_map (ts : List Token) : routineName? (ts.map f) = (routineName? ts).map f := by
  rw [routineName?, routineName?, List.getElem?_map]
  cases ts[1]? with
  | none => rfl
  | some t =>
    by_cases hk : t.kind = .name
    · simp [Option.filter, hf, hk]
    · simp [Option.filter, hf, hk]

end Scan
end BlockBasic
