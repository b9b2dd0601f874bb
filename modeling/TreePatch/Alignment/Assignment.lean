/-!
# Assignments of greatest weight

One-to-one assignments of the rows of a square matrix to its columns, by augmenting paths with
potentials. Rows and columns count from one; row zero means that a column is free, and column zero
holds the row that is being placed.
-/

namespace TreePatch.Assignment

/-- What is known of a column while a row is being placed. -/
structure Column where
  /-- The row that the column is assigned to. -/
  row : Nat := 0
  potential : Int := 0
  /-- Least reduced cost of reaching the column; none as long as no way is known. -/
  slack : Option Int := none
  /-- The column from which it is reached at that cost. -/
  via : Nat := 0
  reached : Bool := false

/-- The columns, column zero included, and the potentials of the rows, row zero included. -/
structure State where
  columns : Array Column
  rows : Array Int

namespace State

def column (s : State) (j : Nat) : Column :=
  s.columns.getD j {}

def rowPotential (s : State) (i : Nat) : Int :=
  s.rows.getD i 0

/-- No row placed, all potentials zero. -/
def initial (n : Nat) : State :=
  { columns := Array.replicate (n + 1) {}, rows := Array.replicate (n + 1) 0 }

/-- Puts row `i` into column zero and forgets the last search. -/
def start (s : State) (i : Nat) : State :=
  { s with
    columns := s.columns.mapIdx fun j c =>
      { c with row := if j = 0 then i else c.row, slack := none, reached := false } }

/-- Marks column `j` as reached. -/
def reach (s : State) (j : Nat) : State :=
  { s with columns := s.columns.modify j fun c => { c with reached := true } }

/-- Lowers the slack of the columns that are cheaper to reach through column `j`. -/
def relax (s : State) (cost : Nat → Nat → Int) (j : Nat) : State :=
  let i := (s.column j).row
  { s with
    columns := s.columns.mapIdx fun k c =>
      if c.reached then
        c
      else
        let reduced := cost i k - s.rowPotential i - c.potential
        if c.slack.all (reduced < ·) then { c with slack := some reduced, via := j } else c }

/-- The first of the columns with the least slack among those not reached. -/
def nearest? (s : State) : Option (Nat × Int) :=
  s.columns.toList.zipIdx.foldl (fun best (c, j) =>
    match c.slack with
    | some slack =>
      if !c.reached && j != 0 && best.all (fun b => slack < b.2) then some (j, slack) else best
    | none => best) none

/-- Shifts the potentials by `delta`, so that a column with that slack can be reached for nothing. -/
def shift (s : State) (delta : Int) : State :=
  { columns := s.columns.map fun c =>
      if c.reached then { c with potential := c.potential - delta }
      else { c with slack := c.slack.map (· - delta) }
    rows := s.columns.foldl (fun rows c =>
      if c.reached then rows.modify c.row (· + delta) else rows) s.rows }

/-- Extends the search from column `j` until a free column is reached, which is returned. -/
def search (cost : Nat → Nat → Int) : (bound : Nat) → State → (j : Nat) → State × Nat
  | 0, s, j => (s, j)
  | bound + 1, s, j =>
    let s := (s.reach j).relax cost j
    match s.nearest? with
    | none => (s, j)
    | some (next, delta) =>
      let s := s.shift delta
      if (s.column next).row = 0 then (s, next) else search cost bound s next

/-- Moves the rows along the path that led to column `j` one column further. -/
def flip : (bound : Nat) → State → (j : Nat) → State
  | 0, s, _ => s
  | bound + 1, s, j =>
    let source := (s.column j).via
    let row := (s.column source).row
    let s := { s with columns := s.columns.modify j fun c => { c with row } }
    if source = 0 then s else flip bound s source

/-- Places row `i`. -/
def place (cost : Nat → Nat → Int) (n : Nat) (s : State) (i : Nat) : State :=
  let (s, j) := search cost (n + 1) (s.start i) 0
  flip (n + 1) s j

end State

/-- The weight in row `i` and column `j`, counted from zero. -/
def weightAt (weights : List (List Int)) (i j : Nat) : Int :=
  (weights.getD i []).getD j 0

/-- The column of each row, counted from zero, in an assignment of greatest total weight for a matrix
with `n` rows and columns. -/
def best (weights : List (List Int)) (n : Nat) : List Nat :=
  let top := weights.flatten.max?.getD 0
  let cost := fun i j => top - weightAt weights (i - 1) (j - 1)
  let s := (List.range' 1 n).foldl (State.place cost n) (State.initial n)
  (List.range' 1 n).map fun i =>
    ((List.range' 1 n).find? fun j => (s.column j).row == i).elim 0 (· - 1)

end TreePatch.Assignment
