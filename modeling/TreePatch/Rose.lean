/-!
# Rose trees

Finitely branching trees with a value at every node, their preorder, and the numbering of their
nodes by consecutive identifiers in preorder; then walks over nodes that are already numbered.
-/

namespace TreePatch

/-- A finitely branching tree with a value at every node. -/
inductive Rose (α : Type) where
  | node (value : α) (children : List (Rose α))

namespace Rose

variable {α β : Type}

/-- The value at the top. -/
def value : Rose α → α
  | node a _ => a

/-- The trees directly below the top. -/
def children : Rose α → List (Rose α)
  | node _ rs => rs

mutual

/-- Number of nodes. -/
def size : Rose α → Nat
  | node _ rs => sizeAll rs + 1

/-- Number of nodes of a list of trees. -/
def sizeAll : List (Rose α) → Nat
  | [] => 0
  | r :: rs => r.size + sizeAll rs

end

mutual

/-- All values, each node before its children. -/
def preorder : Rose α → List α
  | node a rs => a :: preorderAll rs

/-- All values of a list of trees, tree after tree. -/
def preorderAll : List (Rose α) → List α
  | [] => []
  | r :: rs => r.preorder ++ preorderAll rs

end

mutual

/-- The tree of the same form with `f` applied to every value. -/
def map (f : α → β) : Rose α → Rose β
  | node a rs => node (f a) (mapAll f rs)

/-- `map` on a list of trees. -/
def mapAll (f : α → β) : List (Rose α) → List (Rose β)
  | [] => []
  | r :: rs => r.map f :: mapAll f rs

end

mutual

/-- Whether two trees are equal. -/
def beq [BEq α] : Rose α → Rose α → Bool
  | node a rs, node b ss => a == b && beqAll rs ss

/-- Whether two lists of trees are equal. -/
def beqAll [BEq α] : List (Rose α) → List (Rose α) → Bool
  | [], [] => true
  | r :: rs, s :: ss => r.beq s && beqAll rs ss
  | _, _ => false

end

instance [BEq α] : BEq (Rose α) := ⟨beq⟩

/-- The tree grown from `a` by the successors `next`, at most `depth` levels below the top. -/
def unfold (next : α → List α) : (depth : Nat) → α → Rose α
  | 0, a => node a []
  | depth + 1, a => node a ((next a).map (unfold next depth))

/-- The identifiers of the tops of consecutive trees when the first one is numbered from `start`. -/
def topIds (start : Nat) : List (Rose α) → List Nat
  | [] => []
  | r :: rs => start :: topIds (start + r.size) rs

mutual

/-- Numbers the nodes in preorder from `start` and lists what `entry` makes of each: it is given the
subtree, the identifier of the parent and those of the children. -/
def number (entry : Rose α → Option Nat → List Nat → β) (start : Nat) (parent : Option Nat) :
    Rose α → List β
  | node a rs =>
    entry (node a rs) parent (topIds (start + 1) rs) :: numberAll entry (start + 1) (some start) rs

/-- `number` on consecutive trees below one parent. -/
def numberAll (entry : Rose α → Option Nat → List Nat → β) (start : Nat) (parent : Option Nat) :
    List (Rose α) → List β
  | [] => []
  | r :: rs => number entry start parent r ++ numberAll entry (start + r.size) parent rs

end

/-- Puts an item of a preorder listing with depths in front of the trees read after it: those that
lie deeper become its children. -/
def gather (depth : α → Nat) (a : α) (pending : List (Nat × Rose α)) : List (Nat × Rose α) :=
  let (below, rest) := pending.span fun p => depth a < p.1
  (depth a, node a (below.map (·.2))) :: rest

/-- The trees of a preorder listing in which `depth` gives the level of every item. -/
def ofDepths (depth : α → Nat) (items : List α) : List (Rose α) :=
  (items.foldr (gather depth) []).map (·.2)

end Rose

/-!
### Walks over numbered nodes

Traversals along a successor function on numbers. The bound is the number of nodes that may be
visited; a graph whose nodes are visited at most once never exceeds its own size.
-/

namespace Walk

/-- Visits the nodes of `stack` and all below them, each node before its successors. -/
def depthFirst (next : Nat → List Nat) : (bound : Nat) → (stack : List Nat) → List Nat
  | 0, _ => []
  | _ + 1, [] => []
  | bound + 1, n :: stack => n :: depthFirst next bound (next n ++ stack)

/-- Visits the nodes of `queue` and all below them, level by level. -/
def breadthFirst (next : Nat → List Nat) : (bound : Nat) → (queue : List Nat) → List Nat
  | 0, _ => []
  | _ + 1, [] => []
  | bound + 1, n :: queue => n :: breadthFirst next bound (queue ++ next n)

/-- The nodes strictly above `n`, nearest first. -/
def upward (above : Nat → Option Nat) : (bound : Nat) → (n : Nat) → List Nat
  | 0, _ => []
  | bound + 1, n =>
    match above n with
    | none => []
    | some p => p :: upward above bound p

end Walk

end TreePatch
