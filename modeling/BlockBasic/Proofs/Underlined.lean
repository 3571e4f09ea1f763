import BlockBasic.Proofs.Places
/-!
# Underlined — any column of a line, underlined

A report's column lies in its line, but a column of any kind can be underlined: one that reaches beyond the line is
underlined as far as the line goes (`Decoration.walk_congr`), and one that holds no position of the line leaves the line as
it is, but for the space that shows an empty column right behind it (`decorate_of_outside`).
-/
namespace BlockBasic

namespace Decoration

theorem walk_congr {c d : Column} (hc : c.start < c.stop) (hd : d.start < d.stop) : ∀ (xs : Text) (i : Nat) (on : Bool),
    (∀ k, i ≤ k → k < i + xs.length → c.contains k = d.contains k) → walk c i on xs = walk d i on xs
  | [], i, on, _ => by
    rw [walk, walk, if_neg (by omega), if_neg (by omega)]
  | x :: xs, i, on, h => by
    have hx : c.contains i = d.contains i := h i (Nat.le_refl i) (by simp)
    have hxs := walk_congr hc hd xs (i + 1) (c.contains i) fun k hk hk' =>
      h k (by omega) (by simp only [List.length_cons]; omega)
    rw [walk, walk, hxs, hx]

end Decoration

/-- **A column that begins in a line** is underlined up to where it stops or the line ends. -/
theorem decorate_of_inside {source : Text} {c : Column} (hc : c.start < c.stop) (hin : c.start < source.length) :
    decorate source c = source.take c.start ++ (Style.underline ++ ((source.take (min c.stop source.length)).drop c.start ++
      (Style.plain ++ source.drop (min c.stop source.length)))) := by
  have hclipped : c.start < min c.stop source.length := Nat.lt_min.2 ⟨hc, hin⟩
  have hsame : ∀ k < source.length, c.contains k = Column.contains ⟨c.start, min c.stop source.length⟩ k := by
    intro k hk
    simp only [Column.contains, Nat.lt_min, hk, and_true]
  have hwalk : decorate source c = decorate source ⟨c.start, min c.stop source.length⟩ :=
    Decoration.walk_congr hc hclipped source 0 false fun k _ hk => hsame k (by omega)
  rw [hwalk]
  exact decorate_cut hclipped (Nat.min_le_right _ _)

theorem decorate_of_outside {source : Text} {c : Column} (hout : ¬ (c.start < c.stop ∧ c.start < source.length)) :
    decorate source c =
      source ++ if c.stop ≤ c.start ∧ c.start = source.length then Style.underline ++ ' ' :: Style.plain else [] := by
  have hcopy := Decoration.walk_append c false [] source 0 fun k _ hk => by
    simp only [Column.contains, Bool.and_eq_false_iff, decide_eq_false_iff_not]
    omega
  rw [List.append_nil, Nat.zero_add, Decoration.walk] at hcopy
  rw [decorate, hcopy]
  simp only [and_comm, Decoration.switch, if_true]

/-- **What is underlined in a line, for every line and every column.**  A column that is not empty and begins in the line is
underlined, as far as the line goes; an empty or reversed one that begins right behind the line shows as an underlined space;
any other leaves the line as it is. -/
theorem decorate_eq (source : Text) (c : Column) : decorate source c =
    if c.start < c.stop ∧ c.start < source.length then
      source.take c.start ++ (Style.underline ++ ((source.take (min c.stop source.length)).drop c.start ++
        (Style.plain ++ source.drop (min c.stop source.length))))
    else if c.stop ≤ c.start ∧ c.start = source.length then source ++ (Style.underline ++ ' ' :: Style.plain)
    else source := by
  split
  · rename_i hin
    exact decorate_of_inside hin.1 hin.2
  · rename_i hout
    rw [decorate_of_outside hout]
    split
    · rfl
    · exact List.append_nil source

/-- Beyond the end of the line, and an empty column of an empty line. -/
example : decorate "ab".toList ⟨1, 9⟩ = "a\x1b[4mb\x1b[0m".toList ∧ decorate [] ⟨0, 0⟩ = "\x1b[4m \x1b[0m".toList := by
  decide

end BlockBasic
