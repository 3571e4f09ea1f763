import BlockBasic.Proofs.Atoms
import BlockBasic.Proofs.Recast
/-!
# Malformed — what is left as text

A token of a line is left as text if it is an error of the line, a bracket, a colon or a `#`, and so is a group that is too
deep; every other token becomes an expression with a meaning (`Token.Lexed.malformed?`).  So the malformed atoms of a
statement can be read off its nests, whatever the table is (`Run.malformedOf_expressions`).
-/
namespace BlockBasic

open Lexer (delimiters)
open Expression (tokenAtom)

/-- The kinds that mean nothing outside the group or the phrase they belong to. -/
def Kind.isBare : Kind → Bool
  | .error | .opener _ | .closer _ | .colon | .hash => true
  | _                                              => false

def Kind.mark? : Kind → Option Char
  | .opener b => some b.opening
  | .closer b => some b.closing
  | .colon    => some ':'
  | .hash     => some '#'
  | _         => none

theorem Kind.isDelimiter_of_mark? {k : Kind} {x : Char} (h : k.mark? = some x) : k.isDelimiter = true := by
  cases k <;> simp_all [mark?, isDelimiter]

theorem Kind.mark?_of_ofDelimiter? {c : Char} {k : Kind} (h : Kind.ofDelimiter? c = some k) :
    k.mark? = some c ∨ k.mark? = none := by
  unfold Kind.ofDelimiter? at h
  split at h <;> cases h <;> simp [mark?, Bracket.opening, Bracket.closing]

namespace Token.Lexed

variable {t : Token}

theorem kind_ne_quotation (h : t.Lexed) : t.kind ≠ .quotation := by
  intro hk
  obtain ⟨c, cs, hf⟩ := h.form
  obtain ⟨hq, hd, -⟩ := hf.delimiter_of_kind (by rw [hk]; rfl)
  unfold Kind.ofDelimiter? at hd
  split at hd <;> simp_all

theorem kind_ne_unknown (h : t.Lexed) : t.kind ≠ .unknown := by
  obtain ⟨c, cs, hf⟩ := h.form
  exact hf.kind_ne_unknown

theorem ofDigits?_isSome (h : t.Lexed) (hk : t.kind = .integer) : (Literal.ofDigits? t.text).isSome = true :=
  Token.Sound.ofDigits?_isSome ⟨h.isReadable (by simp [hk]), by simp [hk], by simp [hk]⟩ hk

theorem ofDecimal?_isSome (h : t.Lexed) (hk : t.kind = .float) : (Double.ofDecimal? t.text).isSome = true :=
  Token.Sound.ofDecimal?_isSome ⟨h.isReadable (by simp [hk]), by simp [hk], by simp [hk]⟩ hk

theorem text_of_mark (h : t.Lexed) {x : Char} (hk : t.kind.mark? = some x) : t.text = [x] := by
  obtain ⟨c, cs, hf⟩ := h.form
  obtain ⟨-, hd, ht⟩ := hf.delimiter_of_kind (Kind.isDelimiter_of_mark? hk)
  rw [show t.text = [c] from ht]
  rcases Kind.mark?_of_ofDelimiter? hd with hc | hc
  · exact congrArg (fun c => [c]) (Option.some.inj (hc.symm.trans hk))
  · rw [show t.kind.mark? = none from hc] at hk
    cases hk

/-- **What a token of a line becomes has a meaning**, unless the token is bare. -/
theorem malformed? (h : t.Lexed) (table : Table) (c : Column) :
    BlockBasic.malformed? (c, tokenAtom table t) = if t.kind.isBare then some (c, t.text) else none := by
  unfold tokenAtom
  cases hk : t.kind with
  | integer =>
    obtain ⟨v, hv⟩ := Option.isSome_iff_exists.1 (h.ofDigits?_isSome hk)
    simp [hv, BlockBasic.malformed?, Kind.isBare]
  | float =>
    obtain ⟨v, hv⟩ := Option.isSome_iff_exists.1 (h.ofDecimal?_isSome hk)
    simp [hv, BlockBasic.malformed?, Kind.isBare]
  | hash      => simp [BlockBasic.malformed?, Kind.isBare, h.text_of_mark (x := '#') (by rw [hk]; rfl)]
  | unknown   => exact absurd hk h.kind_ne_unknown
  | quotation => exact absurd hk h.kind_ne_quotation
  | _         => rfl

end Token.Lexed

/-! ## Nests -/

namespace Nest

mutual

def malformed (limit : Limit) (depth : Nat) : Nest → List (Column × Text)
  | .leaf (.token t)                    => if t.kind.isBare then [(t.column, t.text)] else []
  | .leaf _                             => []
  | .group bracket opening body closing =>
    if limit.exceeded depth then [(groupColumn opening body closing, rawText bracket body closing)]
    else malformedOf limit (depth + 1) body

def malformedOf (limit : Limit) (depth : Nat) : List Nest → List (Column × Text)
  | []      => []
  | n :: ns => malformed limit depth n ++ malformedOf limit depth ns

end

theorem mem_malformedOf {limit : Limit} {depth : Nat} {ns : List Nest} {x : Column × Text} :
    x ∈ malformedOf limit depth ns ↔ ∃ n ∈ ns, x ∈ malformed limit depth n := by
  induction ns with
  | nil         => simp [malformedOf]
  | cons n ns ih => simp [malformedOf, ih]

mutual

theorem malformed_eq_atoms (limit : Limit) (table : Table) (depth : Nat) : ∀ {n : Nest}, (∀ t ∈ n.tokens, t.Lexed) →
    (atoms limit table depth n).filterMap malformed? = malformed limit depth n
  | .leaf (.token t), h => by
    have ht := (h t (List.mem_singleton_self t)).malformed? table t.column
    by_cases hk : t.kind.isBare = true <;>
      simp_all [atoms, malformed, Expression.phrasePiece, Expression.Piece.atoms, Expression.atoms]
  | .leaf (.handle _ _ _), _ | .leaf (.mode _ _ _), _ | .leaf (.access _ _ _ _), _ => rfl
  | .group b o body c, h => by
    unfold atoms malformed
    split
    · rfl
    · exact malformedOf_eq_atoms limit table (depth + 1) fun t ht =>
        h t (List.mem_cons_of_mem o (List.mem_append_left _ ht))

theorem malformedOf_eq_atoms (limit : Limit) (table : Table) (depth : Nat) : ∀ {ns : List Nest},
    (∀ t ∈ tokensOf ns, t.Lexed) → (atomsOf limit table depth ns).filterMap malformed? = malformedOf limit depth ns
  | [], _ => rfl
  | n :: ns, h => by
    rw [atomsOf, malformedOf, List.filterMap_append,
      malformed_eq_atoms limit table depth fun t ht => h t (List.mem_append_left _ ht),
      malformedOf_eq_atoms limit table depth fun t ht => h t (List.mem_append_right _ ht)]

end

end Nest

/-- **The malformed atoms of a statement are those of its nests.** -/
theorem Run.malformedOf_expressions {r : Run} (h : ∀ t ∈ r.tokens, t.Lexed) (limit : Limit) (table : Table) :
    Expression.malformedOf (r.expressions limit table) = Nest.malformedOf limit 0 (r.nests limit) := by
  rw [Expression.malformedOf, r.filterMap_atoms steady_malformed?]
  exact Nest.malformedOf_eq_atoms limit table 0 fun t ht => h t (mem_of_nests ht)

end BlockBasic
