import TreePatch.EditScript

/-!
# Correspondence of nodes

The pairs of a matching carried back to the nodes of the two trees, closed under alignment: below
corresponding nodes, the ignored children correspond to each other in order.
-/

namespace TreePatch

/-- Why two trees cannot be put into correspondence, or a node has no counterpart. -/
inductive CorrespondenceError where
  | oneSided (node : NodeRef)
  | conflict (node existing proposed : NodeRef)
  | foreignNode (node : NodeRef)
  | notMapped (node : NodeRef)
  deriving DecidableEq

def CorrespondenceError.message : CorrespondenceError → String
  | oneSided n => s!"low-level pair has a typed node on one side only ({n.text})"
  | conflict n e p => s!"{n.text} is proposed for both {e.text} and {p.text}"
  | foreignNode n => s!"{n.text} does not belong to the trees being mapped"
  | notMapped n => s!"{n.text} has no mapped counterpart"

/-- A one-to-one correspondence of source and destination nodes, in the order of discovery. -/
structure Correspondence where
  pairs : List (NodeRef × NodeRef)
  deriving DecidableEq

namespace Correspondence

def empty : Correspondence := ⟨[]⟩

def size (c : Correspondence) : Nat :=
  c.pairs.length

def isEmpty (c : Correspondence) : Bool :=
  c.pairs.isEmpty

/-- The counterpart of a source node. -/
def dstOf (c : Correspondence) (s : NodeRef) : Option NodeRef :=
  (c.pairs.find? (·.1 == s)).map (·.2)

/-- The counterpart of a destination node. -/
def srcOf (c : Correspondence) (d : NodeRef) : Option NodeRef :=
  (c.pairs.find? (·.2 == d)).map (·.1)

/-- The counterpart of a node of either side. -/
def get? (c : Correspondence) (n : NodeRef) : Option NodeRef :=
  (c.dstOf n).or (c.srcOf n)

/-- The counterpart of a node of either side, which has to exist. -/
def get (c : Correspondence) (n : NodeRef) : Except CorrespondenceError NodeRef :=
  match c.get? n with
  | some found => .ok found
  | none => .error (.notMapped n)

def contains (c : Correspondence) (n : NodeRef) : Bool :=
  (c.get? n).isSome

/-- Records a pair. A pair that is already known changes nothing. -/
def put (c : Correspondence) (s d : NodeRef) : Except CorrespondenceError Correspondence :=
  match c.dstOf s with
  | some existing => if existing = d then .ok c else .error (.conflict s existing d)
  | none =>
    match c.srcOf d with
    | some existing => .error (.conflict d existing s)
    | none => .ok ⟨c.pairs ++ [(s, d)]⟩

/-- Records a pair of outline nodes. -/
def seed (p : Pairing) (src dst : Tree) (c : Correspondence) (pair : Nat × Nat) :
    Except CorrespondenceError Correspondence :=
  match (p.src.node pair.1).origin, (p.dst.node pair.2).origin with
  | some s, some d =>
    if !src.owns s then .error (.foreignNode s)
    else if !dst.owns d then .error (.foreignNode d)
    else c.put s d
  | none, none => .ok c
  | some n, none | none, some n => .error (.oneSided n)

/-- The children of the source node `s` that can be aligned: ignored and without counterpart. -/
def srcLoose (c : Correspondence) (src : Tree) (s : NodeId) : List NodeRef :=
  ((src.children s).filter src.isIgnored).map src.ref |>.filter fun r => (c.dstOf r).isNone

/-- The children of the destination node `d` that can be aligned. -/
def dstLoose (c : Correspondence) (dst : Tree) (d : NodeId) : List NodeRef :=
  ((dst.children d).filter dst.isIgnored).map dst.ref |>.filter fun r => (c.srcOf r).isNone

/-- Records the loose children of a pair of corresponding nodes as corresponding, in order. -/
def align (src dst : Tree) (c : Correspondence) (pair : NodeRef × NodeRef) :
    Except CorrespondenceError Correspondence :=
  ((c.srcLoose src pair.1.node).zip (c.dstLoose dst pair.2.node)).foldlM
    (fun c (s, d) => c.put s d) c

/-- Aligns below the pairs of `frontier`, then below the pairs found thereby, and so on. -/
def close (src dst : Tree) : (bound : Nat) → (frontier : List (NodeRef × NodeRef)) →
    Correspondence → Except CorrespondenceError Correspondence
  | 0, _, c => .ok c
  | _ + 1, [], c => .ok c
  | bound + 1, pair :: frontier, c => do
    let closed ← (pair :: frontier).foldlM (align src dst) c
    close src dst bound (closed.pairs.drop c.size) closed

/-- The correspondence of two trees that follows from pairs of their outlines. -/
def resolve (p : Pairing) (pairs : List (Nat × Nat)) (src dst : Tree) :
    Except CorrespondenceError Correspondence := do
  let seeded ← pairs.foldlM (seed p src dst) empty
  close src dst src.size seeded.pairs seeded

end Correspondence

end TreePatch
