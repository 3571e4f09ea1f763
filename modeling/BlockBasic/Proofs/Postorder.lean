import Mathlib.Data.List.Basic
/-!
# Postorder — every part before what it is a part of

A composite is a thing with its parts, and these are composites again.  A part has a place, which is the way to it from
outside: the index of the composite to go into, then of the part in that, and so on.  Things that are alike have different
places, so it is places that a walk meets once or twice.  The walk that goes through the parts of each composite and then to
the composite itself meets every place (`mem_placesOf`), none after a place around it and none twice (`pairwise_placesOf`),
and the things that it meets are those at the places (`map_within_placesOf`).
-/
namespace BlockBasic

/-- A thing with the parts that it is made of. -/
inductive Composite (α : Type) where
  | of (item : α) (parts : List (Composite α))

namespace Composite

variable {α : Type}

/-- The thing at the end of a way into a composite; the way that goes nowhere ends at the composite itself. -/
def at? : List Nat → Composite α → Option α
  | [],      .of a _     => some a
  | i :: is, .of _ parts => parts[i]?.bind (at? is)

/-- The thing at a place among several composites; the first step of the way goes into one of them. -/
def within? (cs : List (Composite α)) : List Nat → Option α
  | []      => none
  | i :: is => cs[i]?.bind (at? is)

mutual

/-- **The walk over a composite**, its parts first. -/
def postorder : Composite α → List α
  | .of a parts => postorderOf parts ++ [a]

def postorderOf : List (Composite α) → List α
  | []      => []
  | c :: cs => postorder c ++ postorderOf cs

end

theorem postorderOf_eq_flatMap : ∀ (cs : List (Composite α)), postorderOf cs = cs.flatMap postorder
  | []      => rfl
  | c :: cs => by rw [postorderOf, postorderOf_eq_flatMap cs, List.flatMap_cons]

theorem postorderOf_append (cs ds : List (Composite α)) : postorderOf (cs ++ ds) = postorderOf cs ++ postorderOf ds := by
  rw [postorderOf_eq_flatMap, postorderOf_eq_flatMap, postorderOf_eq_flatMap, List.flatMap_append]

mutual

/-- The ways to the parts of a composite and to itself, in the order of the walk. -/
def places : Composite α → List (List Nat)
  | .of _ parts => placesOf 0 parts ++ [[]]

def placesOf (first : Nat) : List (Composite α) → List (List Nat)
  | []      => []
  | c :: cs => (places c).map (first :: ·) ++ placesOf (first + 1) cs

end

theorem exists_cons_of_mem_placesOf {p : List Nat} : ∀ {cs : List (Composite α)} {first : Nat}, p ∈ placesOf first cs →
    ∃ i is, p = i :: is ∧ first ≤ i
  | c :: cs, first, h => by
    rcases List.mem_append.1 h with h | h
    · obtain ⟨is, -, rfl⟩ := List.mem_map.1 h
      exact ⟨first, is, rfl, Nat.le_refl first⟩
    · obtain ⟨i, is, rfl, hi⟩ := exists_cons_of_mem_placesOf h
      exact ⟨i, is, rfl, Nat.le_of_succ_le hi⟩

/-! ## What stands at the places -/

mutual

theorem map_at_places : ∀ (c : Composite α), (places c).map (at? · c) = (postorder c).map some
  | .of a parts => by
    have hparts : (placesOf 0 parts).map (at? · (.of a parts)) = (placesOf 0 parts).map (within? parts) := by
      refine List.map_congr_left fun p hp => ?_
      obtain ⟨i, is, rfl, -⟩ := exists_cons_of_mem_placesOf hp
      rfl
    rw [places, postorder, List.map_append, List.map_append, hparts]
    exact congrArg (· ++ [some a]) (map_within_placesOf parts [])

/-- **The walk meets what stands at the places**, one thing at each; `before` are the composites counted already. -/
theorem map_within_placesOf : ∀ (cs before : List (Composite α)),
    (placesOf before.length cs).map (within? (before ++ cs)) = (postorderOf cs).map some
  | [], _ => rfl
  | c :: cs, before => by
    have hhere : within? (before ++ c :: cs) ∘ (before.length :: ·) = (at? · c) := by
      funext is
      rw [Function.comp_apply, within?, List.getElem?_append_right (Nat.le_refl _), Nat.sub_self]
      rfl
    have hrest := map_within_placesOf cs (before ++ [c])
    rw [List.length_append, List.length_singleton, List.append_assoc, List.singleton_append] at hrest
    rw [placesOf, postorderOf, List.map_append, List.map_append, List.map_map, hhere, map_at_places c, hrest]

end

/-! ## Every place, once, and before the places around it -/

mutual

theorem mem_places {p : List Nat} : ∀ {c : Composite α}, p ∈ places c ↔ (at? p c).isSome
  | .of a parts => by
    rw [places, List.mem_append, List.mem_singleton]
    cases p with
    | nil       => exact iff_of_true (.inr rfl) rfl
    | cons i is =>
      rw [or_iff_left (List.cons_ne_nil i is), cons_mem_placesOf]
      exact and_iff_right (Nat.zero_le i)

theorem cons_mem_placesOf {i : Nat} {is : List Nat} : ∀ {cs : List (Composite α)} {first : Nat},
    i :: is ∈ placesOf first cs ↔ first ≤ i ∧ (within? cs ((i - first) :: is)).isSome
  | [], first => iff_of_false List.not_mem_nil fun h => nomatch h.2
  | c :: cs, first => by
    rw [placesOf, List.mem_append, List.mem_map, cons_mem_placesOf]
    rcases Nat.lt_trichotomy i first with hlt | rfl | hlt
    · refine iff_of_false ?_ fun h => Nat.not_le_of_lt hlt h.1
      rintro (⟨js, -, hjs⟩ | h)
      · exact Nat.ne_of_gt hlt (List.cons.inj hjs).1
      · omega
    · -- The way goes into this one.
      rw [Nat.sub_self, or_iff_left fun h => Nat.not_succ_le_self i h.1, and_iff_right (Nat.le_refl i)]
      refine Iff.trans ⟨?_, fun h => ⟨is, h, rfl⟩⟩ (mem_places (c := c))
      rintro ⟨js, hjs, heq⟩
      rwa [(List.cons.inj heq).2] at hjs
    · obtain ⟨k, rfl⟩ := Nat.exists_eq_add_of_lt hlt
      rw [or_iff_right]
      · rw [show first + k + 1 - (first + 1) = k by omega, show first + k + 1 - first = k + 1 by omega]
        refine and_congr_left fun _ => ?_
        omega
      · rintro ⟨js, -, hjs⟩
        exact Nat.ne_of_lt hlt (List.cons.inj hjs).1

end

/-- **The walk meets every place** at which there is something, and no other. -/
theorem mem_placesOf {cs : List (Composite α)} {p : List Nat} : p ∈ placesOf 0 cs ↔ (within? cs p).isSome := by
  cases p with
  | nil =>
    refine iff_of_false (fun h => ?_) Bool.false_ne_true
    obtain ⟨i, is, h, -⟩ := exists_cons_of_mem_placesOf h
    cases h
  | cons i is =>
    rw [cons_mem_placesOf]
    exact and_iff_right (Nat.zero_le i)

mutual

theorem pairwise_places : ∀ (c : Composite α), (places c).Pairwise (fun p q => ¬ p <+: q)
  | .of a parts => by
    refine List.pairwise_append.2 ⟨pairwise_placesOf 0 parts, List.pairwise_singleton _ _, fun p hp q hq => ?_⟩
    obtain ⟨i, is, rfl, -⟩ := exists_cons_of_mem_placesOf hp
    rw [List.mem_singleton.1 hq, List.prefix_nil]
    exact List.cons_ne_nil i is

/-- **A place comes before the places around it**, and not again. -/
theorem pairwise_placesOf : ∀ (first : Nat) (cs : List (Composite α)),
    (placesOf first cs).Pairwise (fun p q => ¬ p <+: q)
  | _, [] => .nil
  | first, c :: cs => by
    refine List.pairwise_append.2 ⟨?_, pairwise_placesOf (first + 1) cs, fun p hp q hq => ?_⟩
    · refine List.pairwise_map.2 ((pairwise_places c).imp fun h hprefix => h ?_)
      exact (List.cons_prefix_cons.1 hprefix).2
    · obtain ⟨is, -, rfl⟩ := List.mem_map.1 hp
      obtain ⟨j, js, rfl, hj⟩ := exists_cons_of_mem_placesOf hq
      exact fun hprefix => Nat.ne_of_lt hj (List.cons_prefix_cons.1 hprefix).1

end

/-- The parts of the first, then the first, then the second. -/
example : placesOf 0 [.of 'a' [.of 'b' [], .of 'b' []], .of 'b' []] = [[0, 0], [0, 1], [0], [1]] := rfl

theorem nodup_placesOf (cs : List (Composite α)) : (placesOf 0 cs).Nodup := by
  refine (pairwise_placesOf 0 cs).imp fun hbefore heq => hbefore ?_
  subst heq
  exact List.prefix_refl _

end Composite
end BlockBasic
