import BlockBasic.Proofs.Outline
import BlockBasic.Reference.Scan
/-!
# OpenBlocks — declarations and tree keep the same blocks open

Two passes go over the runs of a program, each with its own open blocks: one declares, the other assembles the tree.  They
never part.  After any number of runs the same blocks are open in both, and each open block of the declaring pass bears
the key that the header of its twin declares (`follows_ofRuns`).  So a terminator ends a block in one pass exactly where
it ends one in the other.
-/
namespace BlockBasic
namespace Scan

def declaration? (r : Run) : Option Declaration :=
  (routine? r.tokens).bind (fun kind => (routineName? r.tokens).map (header r kind))

def routineKey? (r : Run) : Option Key := (declaration? r).map Declaration.key

theorem key_declare (s : Scan) (r : Run) : (s.declare r).2.2 = routineKey? r := by
  unfold declare routineKey? declaration?
  cases routine? r.tokens with
  | none => rfl
  | some kind => cases routineName? r.tokens <;> rfl

/-- **The passes are in step**: the same blocks are open, each with the key that its header declares. -/
def Follows (s : Scan) (a : Assembly) : Prop := s.blocks = a.blocks.map (fun b => ⟨b.form, routineKey? b.header⟩)

theorem Follows.step_cases {s : Scan} {a : Assembly} (h : s.Follows a) (r : Run) :
    (r.role = .plain ∧ a.part r = .plain ∧ a.step r = a.add (.leaf r false) ∧
      s.step r = ⟨(s.declare r).1, (s.declare r).2.1, s.blocks⟩) ∨
    (∃ form, r.role = .opens form ∧ a.part r = .header ∧ a.step r = ⟨⟨form, r, a.current⟩ :: a.blocks, []⟩ ∧
      s.step r = ⟨(s.declare r).1, (s.declare r).2.1, ⟨form, routineKey? r⟩ :: s.blocks⟩) ∨
    (a.part r = .stray ∧ a.step r = a.add (.leaf r true) ∧ s.step r = s) ∨
    ∃ b bs, a.blocks = b :: bs ∧ a.part r = .terminator ∧
      a.step r = ⟨bs, b.before ++ [.block b.form b.header a.current (some r)]⟩ ∧
      s.step r = ⟨finish s.table r (routineKey? b.header), s.diagnostics,
        bs.map (fun b => ⟨b.form, routineKey? b.header⟩)⟩ := by
  unfold Follows at h
  unfold Assembly.part Assembly.step Scan.step
  cases r.role with
  | plain => exact .inl ⟨rfl, rfl, rfl, rfl⟩
  | opens form => exact .inr (.inl ⟨form, rfl, rfl, rfl, by rw [key_declare]⟩)
  | closes form =>
    refine .inr (.inr ?_)
    cases hb : a.blocks with
    | nil =>
      rw [hb, List.map_nil] at h
      rw [h]
      exact .inl ⟨rfl, rfl, rfl⟩
    | cons b bs =>
      rw [hb, List.map_cons] at h
      rw [h]
      by_cases hf : b.form = form
      · exact .inr ⟨b, bs, rfl, if_pos hf, if_pos hf, if_pos hf⟩
      · exact .inl ⟨if_neg hf, if_neg hf, if_neg hf⟩

theorem Follows.step {s : Scan} {a : Assembly} (h : s.Follows a) (r : Run) : (s.step r).Follows (a.step r) := by
  rcases h.step_cases r with ⟨-, -, ha, hs⟩ | ⟨form, -, -, ha, hs⟩ | ⟨-, ha, hs⟩ | ⟨b, bs, -, -, ha, hs⟩
  · rw [ha, hs]
    exact h
  · rw [ha, hs]
    exact congrArg (⟨form, routineKey? r⟩ :: ·) h
  · rw [ha, hs]
    exact h
  · rw [ha, hs]
    rfl

theorem Follows.foldl : ∀ (rs : List Run) {s : Scan} {a : Assembly}, s.Follows a →
    (rs.foldl Scan.step s).Follows (rs.foldl Assembly.step a)
  | [], _, _, h => h
  | r :: rs, _, _, h => Follows.foldl rs (h.step r)

theorem follows_ofRuns (rs : List Run) : (ofRuns rs).Follows (Assembly.ofRuns rs) := Follows.foldl rs rfl

theorem Follows.forms {s : Scan} {a : Assembly} (h : s.Follows a) :
    s.blocks.map OpenBlock.form = a.blocks.map Assembly.OpenBlock.form := by
  rw [h, List.map_map]
  rfl

/-- **A run ends an open block of the declaring pass exactly if it is the terminator of one in the tree.** -/
theorem Follows.pops_iff {s : Scan} {a : Assembly} (h : s.Follows a) (r : Run) :
    (∃ b, s.blocks = b :: (s.step r).blocks) ↔ a.part r = .terminator := by
  have hgrown : ∀ (b : OpenBlock) (bs : List OpenBlock), s.blocks ≠ b :: (bs ++ s.blocks) := by
    intro b bs he
    have hlen := congrArg List.length he
    rw [List.length_cons, List.length_append] at hlen
    omega
  rcases h.step_cases r with ⟨-, hp, -, hs⟩ | ⟨form, -, hp, -, hs⟩ | ⟨hp, -, hs⟩ | ⟨b, bs, hb, hp, -, hs⟩
  · rw [hp, hs]
    exact iff_of_false (fun ⟨b, he⟩ => hgrown b [] he) nofun
  · rw [hp, hs]
    exact iff_of_false (fun ⟨b, he⟩ => hgrown b [_] he) nofun
  · rw [hp, hs]
    exact iff_of_false (fun ⟨b, he⟩ => hgrown b [] he) nofun
  · rw [hp, hs]
    unfold Follows at h
    rw [hb, List.map_cons] at h
    exact iff_of_true ⟨_, h⟩ rfl

end Scan

/-- **Declarations and tree run the same blocks.**  After any number of runs of a program, the opening words of the blocks
that are open are the same in the pass that declares and in the pass that assembles, from the innermost outwards; and the
next run takes an open block off the first pass exactly if its statement is the terminator of a block in the tree. -/
theorem open_blocks_in_step (table : Table) (lines : List CodeLine) (n : Nat) :
    (Scan.ofRuns ((programRuns lines).take n)).blocks.map (fun b => b.form.word) =
      (Assembly.ofRuns ((programRuns lines).take n)).blocks.map (fun b => b.form.word) ∧
    ((∃ b, (Scan.ofRuns ((programRuns lines).take n)).blocks =
        b :: (Scan.ofRuns ((programRuns lines).take (n + 1))).blocks) ↔
      ∃ r, (programRuns lines)[n]? = some r ∧
        (Node.partsOf (Program.ofLines table lines))[n]? = some (.terminator, r.statement table)) := by
  have hfollows := Scan.follows_ofRuns ((programRuns lines).take n)
  constructor
  · have h := congrArg (List.map BlockForm.word) hfollows.forms
    rwa [List.map_map, List.map_map] at h
  · have hparts : (Node.partsOf (Program.ofLines table lines))[n]? = (programRuns lines)[n]?.map (fun r =>
        ((Assembly.ofRuns ((programRuns lines).take n)).part r, r.statement table)) := by
      rw [Program.ofLines, Program.ofRuns, Node.partsOf_mapList, partsOf_blockTree, List.getElem?_map,
        Assembly.getElem?_partsFrom, Option.map_map]
      rfl
    rw [hparts]
    cases hr : (programRuns lines)[n]? with
    | none =>
      -- there is no next run, so nothing is taken off
      have htake : (programRuns lines).take (n + 1) = (programRuns lines).take n := by
        rw [List.take_add_one, hr, Option.toList_none, List.append_nil]
      rw [htake]
      simp
    | some r =>
      have htake : Scan.ofRuns ((programRuns lines).take (n + 1)) = (Scan.ofRuns ((programRuns lines).take n)).step r := by
        rw [List.take_add_one, hr, Option.toList_some, Scan.ofRuns, List.foldl_append]
        rfl
      rw [htake, hfollows.pops_iff]
      simp

end BlockBasic
