import BlockBasic.Block.Form
/-!
# Node — things in their blocks

A node is a thing by itself or a block: the thing that opens it, the nodes inside, and the thing that closes it, which is
missing when the source ends before it.  A terminator that closes nothing is a leaf marked as stray.  The things are runs
of tokens first and statements later: what a node holds has no part in how it nests.
-/
namespace BlockBasic

/-- **A thing, or a block with its parts.** -/
inductive Node (α : Type) where
  | leaf (item : α) (stray : Bool)
  | block (form : BlockForm) (header : α) (body : List (Node α)) (terminator : Option α)

namespace Node

variable {α β : Type}

def item : Node α → α
  | .leaf a _      => a
  | .block _ a _ _ => a

def children : Node α → List (Node α)
  | .leaf _ _         => []
  | .block _ _ body _ => body

def isUnclosed : Node α → Bool
  | .leaf _ _               => false
  | .block _ _ _ terminator => terminator.isNone

def isStray : Node α → Bool
  | .leaf _ stray  => stray
  | .block _ _ _ _ => false

mutual

/-- **The things of a node in source order**, each with the number of blocks around it: the header, what is inside, and
the terminator, which is level with the header. -/
def entries (depth : Nat) : Node α → List (Nat × α)
  | .leaf a _                       => [(depth, a)]
  | .block _ header body terminator =>
    (depth, header) :: (entriesOf (depth + 1) body ++ terminator.toList.map (fun t => (depth, t)))

def entriesOf (depth : Nat) : List (Node α) → List (Nat × α)
  | []      => []
  | n :: ns => entries depth n ++ entriesOf depth ns

end

mutual

def map (f : α → β) : Node α → Node β
  | .leaf a stray                      => .leaf (f a) stray
  | .block form header body terminator => .block form (f header) (mapList f body) (terminator.map f)

def mapList (f : α → β) : List (Node α) → List (Node β)
  | []      => []
  | n :: ns => map f n :: mapList f ns

end

/-! ## Equality is decidable -/

mutual

def decEq [DecidableEq α] : (x y : Node α) → Decidable (x = y)
  | .leaf s p, .leaf t q =>
    if h : s = t ∧ p = q then .isTrue (by rw [h.1, h.2])
    else .isFalse (fun e => h ⟨(Node.leaf.inj e).1, (Node.leaf.inj e).2⟩)
  | .block f s xs u, .block g t ys v =>
    match decEqList xs ys with
    | .isTrue hx  =>
      if h : f = g ∧ s = t ∧ u = v then .isTrue (by rw [h.1, h.2.1, h.2.2, hx])
      else .isFalse (fun e => h ⟨(Node.block.inj e).1, (Node.block.inj e).2.1, (Node.block.inj e).2.2.2⟩)
    | .isFalse hx => .isFalse (fun e => hx (Node.block.inj e).2.2.1)
  | .leaf _ _, .block _ _ _ _ => .isFalse nofun
  | .block _ _ _ _, .leaf _ _ => .isFalse nofun

def decEqList [DecidableEq α] : (xs ys : List (Node α)) → Decidable (xs = ys)
  | [], []           => .isTrue rfl
  | [], _ :: _       => .isFalse nofun
  | _ :: _, []       => .isFalse nofun
  | x :: xs, y :: ys =>
    match decEq x y, decEqList xs ys with
    | .isTrue h, .isTrue hs => .isTrue (by rw [h, hs])
    | .isFalse h, _         => .isFalse (fun e => h (List.cons.inj e).1)
    | _, .isFalse hs        => .isFalse (fun e => hs (List.cons.inj e).2)

end

instance [DecidableEq α] : DecidableEq (Node α) := decEq

end Node
end BlockBasic
