import Mathlib.Algebra.Order.Group.Int
import Mathlib.Data.List.Nodup
import Mathlib.Data.List.Perm.Subperm
import Mathlib.Data.List.Range
import Mathlib.Tactic.Ring
import TreePatch.Alignment.Assignment

/-!
# The diagonal assignment

If no entry of a matrix outweighs the one on the diagonal of its row, the assignment that is found is the
diagonal, whatever other assignments weigh as much. While the rows are placed one after the other, the
columns keep the potential zero and each row gets its diagonal cost as potential. The search for a row may
wander over columns that are taken, but only at no cost, and the column on the diagonal stays reached
straight from the row.

What one round of a search changes, and which column it goes on with, does not depend on the matrix: these
lemmas come first.
-/

namespace TreePatch.Assignment

namespace State

variable {s : State} {i j k n : Nat}

/-! ## Single steps -/

theorem column_start (hk : k < s.columns.size) :
    (s.start i).column k =
      { s.column k with
        row := if k = 0 then i else (s.column k).row, slack := none, reached := false } := by
  simp [column, start, Array.getD_eq_getD_getElem?, hk]

theorem getD_modify {α : Type} {a : Array α} {f : α → α} {d : α} (hj : j < a.size) :
    (a.modify j f).getD k d = if j = k then f (a.getD k d) else a.getD k d := by
  simp only [Array.getD_eq_getD_getElem?, Array.getElem?_modify]
  split
  · next heq =>
    subst heq
    simp [hj]
  · rfl

theorem column_reach (hj : j < s.columns.size) :
    (s.reach j).column k =
      { s.column k with reached := decide (j = k) || (s.column k).reached } := by
  rw [column, reach, getD_modify hj]
  by_cases hjk : j = k
  · simp [hjk, column]
  · simp [hjk, column]

theorem column_relax (cost : Nat → Nat → Int) (hk : k < s.columns.size) :
    (s.relax cost j).column k =
      if (s.column k).reached then s.column k
      else if (s.column k).slack.all (cost (s.column j).row k - s.rowPotential (s.column j).row -
          (s.column k).potential < ·) then
        { s.column k with
          slack := some (cost (s.column j).row k - s.rowPotential (s.column j).row -
            (s.column k).potential)
          via := j }
      else s.column k := by
  simp [column, relax, Array.getD_eq_getD_getElem?, hk]

theorem column_shift (delta : Int) (hk : k < s.columns.size) :
    (s.shift delta).column k =
      if (s.column k).reached then { s.column k with potential := (s.column k).potential - delta }
      else { s.column k with slack := (s.column k).slack.map (· - delta) } := by
  simp [column, shift, Array.getD_eq_getD_getElem?, hk]

theorem toList_columns (s : State) :
    s.columns.toList = (List.range s.columns.size).map s.column := by
  refine List.ext_getElem (by simp) fun k hk hk' => ?_
  have hlt : k < s.columns.size := by simpa using hk
  simp [column, hlt]

section

variable (delta : Int) (hrows : ∀ k < s.columns.size, (s.column k).row < s.rows.size)

include hrows

theorem rowPotential_shift (r : Nat) :
    (s.shift delta).rowPotential r = s.rowPotential r +
      ((List.range s.columns.size).countP fun k =>
        (s.column k).reached && (s.column k).row == r) * delta := by
  have hfold : ∀ (cs : List Column) (rows : Array Int), (∀ c ∈ cs, c.row < rows.size) →
      (cs.foldl (fun rows c => if c.reached then rows.modify c.row (· + delta) else rows) rows).getD r 0 =
        rows.getD r 0 + cs.countP (fun c => c.reached && c.row == r) * delta := by
    intro cs
    induction cs with
    | nil => intro rows _; simp
    | cons c cs ih =>
      intro rows hcs
      have hc := hcs c List.mem_cons_self
      have hrest := fun c' hc' => hcs c' (List.mem_cons_of_mem c hc')
      rw [List.foldl_cons, List.countP_cons]
      cases hreached : c.reached with
      | false =>
        rw [if_neg Bool.false_ne_true, ih rows hrest]
        simp
      | true =>
        rw [if_pos rfl, ih _ (by simpa using hrest), getD_modify hc]
        by_cases hr : c.row = r
        · simp only [hr, if_true, beq_self_eq_true, Bool.and_self]
          push_cast
          ring
        · simp [hr]
  rw [rowPotential, shift, ← Array.foldl_toList, hfold _ _ ?_, toList_columns, List.countP_map]
  · rfl
  · intro c hc
    rw [toList_columns] at hc
    obtain ⟨k, hk, rfl⟩ := List.mem_map.mp hc
    exact hrows k (List.mem_range.mp hk)

theorem rowPotential_shift_of_held (hk : k < s.columns.size) (hreached : (s.column k).reached = true)
    (honly : ∀ l < s.columns.size, (s.column l).row = (s.column k).row → l = k) :
    (s.shift delta).rowPotential (s.column k).row = s.rowPotential (s.column k).row + delta := by
  have hcount : (List.range s.columns.size).countP (fun l =>
      (s.column l).reached && (s.column l).row == (s.column k).row) = 1 := by
    rw [List.countP_congr (p := _) (q := (· == k)) fun l hl => ?_]
    · exact List.count_eq_one_of_mem List.nodup_range (List.mem_range.mpr hk)
    · rw [Bool.and_eq_true, beq_iff_eq, beq_iff_eq]
      refine ⟨fun h => honly l (List.mem_range.mp hl) h.2, ?_⟩
      rintro rfl
      exact ⟨hreached, rfl⟩
  rw [rowPotential_shift delta hrows, hcount, Nat.cast_one, one_mul]

theorem rowPotential_shift_of_not_held
    (h : ∀ k < s.columns.size, (s.column k).reached = true → (s.column k).row ≠ r) :
    (s.shift delta).rowPotential r = s.rowPotential r := by
  have hcount : (List.range s.columns.size).countP (fun l =>
      (s.column l).reached && (s.column l).row == r) = 0 := by
    refine List.countP_eq_zero.mpr fun l hl => ?_
    rw [Bool.and_eq_true, beq_iff_eq]
    exact fun hand => h l (List.mem_range.mp hl) hand.1 hand.2
  rw [rowPotential_shift delta hrows, hcount, Nat.cast_zero, zero_mul, add_zero]

end

@[simp] theorem size_columns_start : (s.start i).columns.size = s.columns.size := by simp [start]

@[simp] theorem size_columns_reach : (s.reach j).columns.size = s.columns.size := by simp [reach]

@[simp] theorem size_columns_relax {cost : Nat → Nat → Int} :
    (s.relax cost j).columns.size = s.columns.size := by simp [relax]

@[simp] theorem size_columns_shift {delta : Int} :
    (s.shift delta).columns.size = s.columns.size := by simp [shift]

theorem size_rows_shift {delta : Int} : (s.shift delta).rows.size = s.rows.size := by
  have hfold : ∀ (cs : List Column) (rows : Array Int),
      (cs.foldl (fun rows c => if c.reached then rows.modify c.row (· + delta) else rows) rows).size =
        rows.size := by
    intro cs
    induction cs with
    | nil => intro rows; rfl
    | cons c cs ih =>
      intro rows
      rw [List.foldl_cons, ih]
      split <;> simp
  rw [shift, ← Array.foldl_toList]
  exact hfold _ _

/-! ## The nearest column -/

/-- The first of the columns in `l` that can be reached at the least cost. -/
def Nearest (l : List (Column × Nat)) : Option (Nat × Int) → Prop
  | none => ∀ q ∈ l, q.1.reached = false → q.2 ≠ 0 → q.1.slack = none
  | some (k, x) => (∃ q ∈ l, q.2 = k ∧ q.1.reached = false ∧ k ≠ 0 ∧ q.1.slack = some x) ∧
      ∀ q ∈ l, q.1.reached = false → q.2 ≠ 0 → ∀ y, q.1.slack = some y → x < y ∨ (x = y ∧ k ≤ q.2)

theorem Nearest.skip {l : List (Column × Nat)} {best : Option (Nat × Int)} {q : Column × Nat}
    (h : Nearest l best)
    (hq : q.1.reached = false → q.2 ≠ 0 → ∀ y, q.1.slack = some y →
      ∃ b, best = some b ∧ (b.2 < y ∨ b.2 = y ∧ b.1 ≤ q.2)) : Nearest (l ++ [q]) best := by
  cases best with
  | none =>
    intro q' hq' hfree h0
    rcases List.mem_append.mp hq' with hq' | hq'
    · exact h q' hq' hfree h0
    · obtain rfl := List.mem_singleton.mp hq'
      refine Option.eq_none_iff_forall_ne_some.mpr fun y hy => ?_
      obtain ⟨b, hb, -⟩ := hq hfree h0 y hy
      simp at hb
  | some b =>
    obtain ⟨⟨q₀, hq₀, hrest⟩, hleast⟩ := h
    refine ⟨⟨q₀, List.mem_append_left _ hq₀, hrest⟩, fun q' hq' hfree h0 y hy => ?_⟩
    rcases List.mem_append.mp hq' with hq' | hq'
    · exact hleast q' hq' hfree h0 y hy
    · obtain rfl := List.mem_singleton.mp hq'
      obtain ⟨b', hb', hle⟩ := hq hfree h0 y hy
      obtain rfl := Option.some.inj hb'
      exact hle

theorem Nearest.take {l : List (Column × Nat)} {best : Option (Nat × Int)} {q : Column × Nat} {x : Int}
    (h : Nearest l best) (hfree : q.1.reached = false) (h0 : q.2 ≠ 0) (hslack : q.1.slack = some x)
    (hless : ∀ b, best = some b → x < b.2) : Nearest (l ++ [q]) (some (q.2, x)) := by
  refine ⟨⟨q, by simp, rfl, hfree, h0, hslack⟩, fun q' hq' hfree' h0' y hy => ?_⟩
  rcases List.mem_append.mp hq' with hq' | hq'
  · cases best with
    | none => simp [h q' hq' hfree' h0'] at hy
    | some b =>
      have hb := h.2 q' hq' hfree' h0' y hy
      have hx := hless b rfl
      omega
  · obtain rfl := List.mem_singleton.mp hq'
    exact Or.inr ⟨Option.some.inj (hslack.symm.trans hy), Nat.le_refl _⟩

theorem nearest_foldl (l : List (Column × Nat)) (hl : l.Pairwise (·.2 < ·.2)) :
    Nearest l (l.foldl (fun best (c, j) =>
      match c.slack with
      | some slack =>
        if !c.reached && j != 0 && best.all (fun b => slack < b.2) then some (j, slack) else best
      | none => best) none) := by
  induction l using List.reverseRecOn with
  | nil => simp [Nearest]
  | append_singleton l q ih =>
    obtain ⟨c, j⟩ := q
    rw [List.pairwise_append] at hl
    have hbefore : ∀ q ∈ l, q.2 < j := fun q hq => hl.2.2 q hq (c, j) (by simp)
    have hbest := ih hl.1
    rw [List.foldl_append, List.foldl_cons, List.foldl_nil]
    generalize l.foldl _ none = best at hbest ⊢
    cases hslack : c.slack with
    | none =>
      simp only [hslack]
      exact hbest.skip fun _ _ y hy => by simp [hslack] at hy
    | some x =>
      simp only [hslack]
      split
      · next hcond =>
        simp only [Bool.and_eq_true, Bool.not_eq_true', bne_iff_ne, ne_eq, Option.all_eq_true,
          decide_eq_true_eq] at hcond
        obtain ⟨⟨hfree, hj⟩, hless⟩ := hcond
        exact hbest.take hfree hj hslack hless
      · next hcond =>
        refine hbest.skip fun hfree hj y hy => ?_
        obtain rfl : x = y := Option.some.inj (hslack.symm.trans hy)
        cases best with
        | none => simp_all
        | some b =>
          obtain ⟨q, hq, hqb, -⟩ := hbest.1
          have hbj := hbefore q hq
          have hxb : ¬ x < b.2 := by simpa [show c.reached = false from hfree, show j ≠ 0 from hj] using hcond
          refine ⟨b, rfl, ?_⟩
          show b.2 < x ∨ b.2 = x ∧ b.1 ≤ j
          omega

theorem mem_zipIdx_columns {q : Column × Nat} :
    q ∈ s.columns.toList.zipIdx ↔ q.2 < s.columns.size ∧ s.column q.2 = q.1 := by
  rw [List.mem_zipIdx_iff_getElem?, Array.getElem?_toList, column, Array.getD_eq_getD_getElem?]
  constructor
  · intro h
    have hlt := (Array.getElem?_eq_some_iff.mp h).1
    exact ⟨hlt, by rw [h, Option.getD_some]⟩
  · rintro ⟨hlt, heq⟩
    rw [Array.getElem?_eq_getElem hlt] at heq ⊢
    rw [← heq, Option.getD_some]

theorem nearest_spec (s : State) : Nearest s.columns.toList.zipIdx s.nearest? := by
  refine nearest_foldl _ ?_
  rw [← List.pairwise_map (f := Prod.snd), List.zipIdx_map_snd]
  exact List.pairwise_lt_range'

theorem of_nearest {delta : Int} (h : s.nearest? = some (k, delta)) :
    k ≠ 0 ∧ k < s.columns.size ∧ (s.column k).reached = false ∧ (s.column k).slack = some delta ∧
      ∀ l < s.columns.size, l ≠ 0 → (s.column l).reached = false →
        ∀ x, (s.column l).slack = some x → delta < x ∨ delta = x ∧ k ≤ l := by
  have hspec := s.nearest_spec
  rw [h] at hspec
  obtain ⟨⟨q, hq, rfl, hfree, hk0, hslack⟩, hleast⟩ := hspec
  obtain ⟨hlt, hcolumn⟩ := mem_zipIdx_columns.mp hq
  refine ⟨hk0, hlt, by rw [hcolumn]; exact hfree, by rw [hcolumn]; exact hslack, ?_⟩
  exact fun l hl hl0 hlfree => hleast (s.column l, l) (mem_zipIdx_columns.mpr ⟨hl, rfl⟩) hlfree hl0

theorem exists_nearest_of_slack {x : Int} (hk0 : k ≠ 0) (hk : k < s.columns.size)
    (hfree : (s.column k).reached = false) (hslack : (s.column k).slack = some x) :
    ∃ next delta, s.nearest? = some (next, delta) := by
  have hspec := s.nearest_spec
  cases hnearest : s.nearest? with
  | some found => exact ⟨found.1, found.2, rfl⟩
  | none =>
    rw [hnearest] at hspec
    have hnone : (s.column k).slack = none :=
      hspec (s.column k, k) (mem_zipIdx_columns.mpr ⟨hk, rfl⟩) hfree hk0
    rw [hnone] at hslack
    simp at hslack

theorem exists_nearest {x : Int} (hi : i ≠ 0) (hlt : i < s.columns.size)
    (hfree : (s.column i).reached = false) (hslack : (s.column i).slack = some x)
    (hleast : ∀ k < s.columns.size, (s.column k).reached = false → k ≠ 0 →
      ∀ y, (s.column k).slack = some y → x ≤ y) :
    ∃ k ≤ i, k ≠ 0 ∧ s.nearest? = some (k, x) ∧ (s.column k).reached = false := by
  obtain ⟨k, delta, hnearest⟩ := exists_nearest_of_slack hi hlt hfree hslack
  obtain ⟨hk0, hk, hkfree, hdelta, hfirst⟩ := of_nearest hnearest
  have hge := hleast k hk hkfree hk0 delta hdelta
  have hle := hfirst i hlt hi hfree x hslack
  obtain rfl : delta = x := by omega
  exact ⟨k, by omega, hk0, hnearest, hkfree⟩

/-! ## What one round changes -/

section

variable {cost : Nat → Nat → Int}

/-- What the cost of an entry exceeds the potentials by. -/
def reduced (s : State) (cost : Nat → Nat → Int) (i k : Nat) : Int :=
  cost i k - s.rowPotential i - (s.column k).potential

/-- Reaches column `j` and looks for cheaper ways through it. -/
def visit (s : State) (cost : Nat → Nat → Int) (j : Nat) : State :=
  (s.reach j).relax cost j

theorem search_succ (bound : Nat) :
    search cost (bound + 1) s j =
      match (s.visit cost j).nearest? with
      | none => (s.visit cost j, j)
      | some (next, delta) =>
        if (((s.visit cost j).shift delta).column next).row = 0 then
          ((s.visit cost j).shift delta, next)
        else search cost bound ((s.visit cost j).shift delta) next := rfl

theorem column_visit_of_reached (hj : j < s.columns.size) (hk : k < s.columns.size)
    (h : j = k ∨ (s.column k).reached = true) :
    (s.visit cost j).column k = { s.column k with reached := true } := by
  have hreached : (decide (j = k) || (s.column k).reached) = true := by simpa using h
  rw [visit, column_relax _ (by simpa using hk), column_reach hj (k := k), hreached, if_pos rfl]

theorem column_visit_of_not_reached (hj : j < s.columns.size) (hk : k < s.columns.size) (hjk : j ≠ k)
    (h : (s.column k).reached = false) :
    (s.visit cost j).column k =
      if (s.column k).slack.all (s.reduced cost (s.column j).row k < ·) then
        { s.column k with slack := some (s.reduced cost (s.column j).row k), via := j }
      else s.column k := by
  have hcolumn : (s.reach j).column k = s.column k := by
    rw [column_reach hj, decide_eq_false hjk, Bool.false_or]
  have hrow : ((s.reach j).column j).row = (s.column j).row := by rw [column_reach hj]
  have hpotential : (s.reach j).rowPotential (s.column j).row = s.rowPotential (s.column j).row := rfl
  rw [visit, column_relax _ (by simpa using hk), hcolumn, hrow, hpotential, h,
    if_neg Bool.false_ne_true]
  rfl

theorem column_visit (hj : j < s.columns.size) (hk : k < s.columns.size) :
    ((s.visit cost j).column k).row = (s.column k).row ∧
      ((s.visit cost j).column k).potential = (s.column k).potential ∧
        ((s.visit cost j).column k).reached = (decide (j = k) || (s.column k).reached) := by
  by_cases h : j = k ∨ (s.column k).reached = true
  · rw [column_visit_of_reached hj hk h]
    refine ⟨rfl, rfl, ?_⟩
    simpa using h
  · obtain ⟨hjk, hfree⟩ := not_or.mp h
    rw [Bool.not_eq_true] at hfree
    rw [column_visit_of_not_reached hj hk hjk hfree, hfree, decide_eq_false hjk]
    split
    · exact ⟨rfl, rfl, hfree⟩
    · exact ⟨rfl, rfl, hfree⟩

theorem reduced_visit (hj : j < s.columns.size) (hk : k < s.columns.size) (r : Nat) :
    (s.visit cost j).reduced cost r k = s.reduced cost r k := by
  have hrow : (s.visit cost j).rowPotential r = s.rowPotential r := rfl
  rw [reduced, (column_visit hj hk).2.1, hrow, reduced]

@[simp] theorem size_columns_visit : (s.visit cost j).columns.size = s.columns.size := by simp [visit]

theorem column_shift_fixed (delta : Int) (hk : k < s.columns.size) :
    ((s.shift delta).column k).row = (s.column k).row ∧
      ((s.shift delta).column k).via = (s.column k).via ∧
        ((s.shift delta).column k).reached = (s.column k).reached := by
  rw [column_shift delta hk]
  split
  · exact ⟨rfl, rfl, rfl⟩
  · exact ⟨rfl, rfl, rfl⟩

theorem potential_shift (delta : Int) (hk : k < s.columns.size) :
    ((s.shift delta).column k).potential =
      (s.column k).potential - if (s.column k).reached then delta else 0 := by
  rw [column_shift delta hk]
  split
  · rfl
  · exact (Int.sub_zero _).symm

theorem slack_shift (delta : Int) (hk : k < s.columns.size) (h : (s.column k).reached = false) :
    ((s.shift delta).column k).slack = (s.column k).slack.map (· - delta) := by
  rw [column_shift delta hk, h, if_neg Bool.false_ne_true]

theorem column_shift_zero (hk : k < s.columns.size) : (s.shift 0).column k = s.column k := by
  rw [column_shift 0 hk]
  split <;> simp

end

/-! ## Placing one row -/

section

variable {cost : Nat → Nat → Int}

/-- Rows below `i` stand on the diagonal, with their cost there as potential; the others are not placed. -/
structure Diagonal (cost : Nat → Nat → Int) (n i : Nat) (s : State) : Prop where
  size_columns : s.columns.size = n + 1
  size_rows : s.rows.size = n + 1
  row : ∀ k ≤ n, k ≠ 0 → (s.column k).row = if k < i then k else 0
  potential : ∀ k ≤ n, k ≠ 0 → (s.column k).potential = 0
  rowPotential : ∀ k ≤ n, k ≠ 0 → s.rowPotential k = if k < i then cost k k else 0

theorem column_initial (n k : Nat) : (initial n).column k = {} := by
  rw [column, initial, Array.getD_eq_getD_getElem?, Array.getElem?_replicate]
  split <;> rfl

theorem rowPotential_initial (n k : Nat) : (initial n).rowPotential k = 0 := by
  rw [State.rowPotential, initial, Array.getD_eq_getD_getElem?, Array.getElem?_replicate]
  split <;> rfl

theorem diagonal_initial (n : Nat) : Diagonal cost n 1 (initial n) where
  size_columns := by simp [initial]
  size_rows := by simp [initial]
  row k _ hk0 := by rw [if_neg (by omega), column_initial]
  potential k _ _ := by rw [column_initial]
  rowPotential k _ hk0 := by rw [if_neg (by omega), rowPotential_initial]

/-- While row `i` is placed, its column on the diagonal can be reached straight from the row for nothing,
and no column can be reached for less. Apart from column zero, the columns of `seen` have been reached. -/
structure Searching (cost : Nat → Nat → Int) (n i : Nat) (seen : List Nat) (s : State) : Prop where
  size_columns : s.columns.size = n + 1
  size_rows : s.rows.size = n + 1
  placed : (s.column 0).row = i
  row : ∀ k ≤ n, k ≠ 0 → (s.column k).row = if k < i then k else 0
  potential : ∀ k ≤ n, k ≠ 0 → (s.column k).potential = 0
  rowPotential : ∀ k ≤ n, k ≠ 0 → s.rowPotential k = if k ≤ i then cost k k else 0
  reached : ∀ k ≤ n, (s.column k).reached = decide (k = 0 ∨ k ∈ seen)
  target : (s.column i).slack = some 0 ∧ (s.column i).via = 0
  slack : ∀ k ≤ n, k ≠ 0 → k ∉ seen → ∃ x, (s.column k).slack = some x ∧ 0 ≤ x

theorem Diagonal.row_lt (h : Diagonal cost n i s) (hi : i ≠ 0) (hk : k ≤ n) (hk0 : k ≠ 0) :
    (s.column k).row < i := by
  rw [h.row k hk hk0]
  split <;> omega

theorem Diagonal.column_visit_start (h : Diagonal cost n i s) (hi : i ≠ 0) (hin : i ≤ n) (hk : k ≤ n)
    (hk0 : k ≠ 0) :
    ((s.start i).visit cost 0).column k =
      { s.column k with slack := some (cost i k), via := 0, reached := false } := by
  have hsize := h.size_columns
  have hzero : ((s.start i).column 0).row = i := by rw [column_start (by omega), if_pos rfl]
  have hstart : (s.start i).column k = { s.column k with slack := none, reached := false } := by
    rw [column_start (by omega), if_neg hk0]
  have hrow : (s.start i).rowPotential i = 0 :=
    (h.rowPotential i hin hi).trans (if_neg (Nat.lt_irrefl i))
  have hreduced : (s.start i).reduced cost i k = cost i k := by
    rw [reduced, hrow, hstart]
    show cost i k - 0 - (s.column k).potential = cost i k
    rw [h.potential k hk hk0, Int.sub_zero, Int.sub_zero]
  rw [column_visit_of_not_reached (by rw [size_columns_start]; omega) (by rw [size_columns_start]; omega)
    (Ne.symm hk0) (by rw [hstart]), hzero, hreduced, hstart]
  rfl

theorem Diagonal.search (h : Diagonal cost n i s) (hi : i ≠ 0) (hin : i ≤ n)
    (hcost : ∀ k ≤ n, k ≠ 0 → cost i i ≤ cost i k) :
    ∃ k ≤ i, k ≠ 0 ∧ ((s.start i).visit cost 0).nearest? = some (k, cost i i) ∧
      Searching cost n i [] (((s.start i).visit cost 0).shift (cost i i)) := by
  have hsize := h.size_columns
  have hcolumn : ∀ k ≤ n, k ≠ 0 → ((s.start i).visit cost 0).column k =
      { s.column k with slack := some (cost i k), via := 0, reached := false } :=
    fun k hk hk0 => h.column_visit_start hi hin hk hk0
  have hzero : ((s.start i).visit cost 0).column 0 =
      { s.column 0 with row := i, slack := none, reached := true } := by
    rw [column_visit_of_reached (by rw [size_columns_start]; omega) (by rw [size_columns_start]; omega)
      (Or.inl rfl), column_start (by omega), if_pos rfl]
  have hsize' : ((s.start i).visit cost 0).columns.size = n + 1 := by simp [hsize]
  have hrows : ((s.start i).visit cost 0).rows = s.rows := rfl
  generalize (s.start i).visit cost 0 = s' at hzero hcolumn hsize' hrows
  obtain ⟨k, hki, hk0, hnearest, -⟩ := exists_nearest (s := s') (x := cost i i) hi (by omega)
    (by rw [hcolumn i hin hi]) (by rw [hcolumn i hin hi]) fun k hk _ hk0 y hy => by
      rw [hcolumn k (by omega) hk0, Option.some.injEq] at hy
      exact hy ▸ hcost k (by omega) hk0
  refine ⟨k, hki, hk0, hnearest, ?_⟩
  have hrow0 : (s'.column 0).row = i := by rw [hzero]
  have hrow : ∀ k ≤ n, k ≠ 0 → (s'.column k).row < i := fun k hk hk0 => by
    rw [hcolumn k hk hk0]
    exact h.row_lt hi hk hk0
  have hbound : ∀ k < s'.columns.size, (s'.column k).row < s'.rows.size := fun k hk => by
    rw [hrows, h.size_rows]
    by_cases hk0 : k = 0
    · rw [hk0, hrow0]
      omega
    · have := hrow k (by omega) hk0
      omega
  have hshift : ∀ k ≤ n, k ≠ 0 → (s'.shift (cost i i)).column k =
      { s.column k with slack := some (cost i k - cost i i), via := 0, reached := false } := by
    intro k hk hk0
    rw [column_shift _ (by omega), hcolumn k hk hk0]
    simp
  have hfixed := column_shift_fixed (s := s') (cost i i) (k := 0) (by omega)
  exact
    { size_columns := by rw [size_columns_shift, hsize']
      size_rows := by rw [size_rows_shift, hrows, h.size_rows]
      placed := hfixed.1.trans hrow0
      row := fun k hk hk0 => by
        rw [hshift k hk hk0]
        exact h.row k hk hk0
      potential := fun k hk hk0 => by
        rw [hshift k hk hk0]
        exact h.potential k hk hk0
      rowPotential := fun k hk hk0 => by
        have hsame : s'.rowPotential k = if k < i then cost k k else 0 := by
          rw [State.rowPotential, hrows]
          exact h.rowPotential k hk hk0
        -- only column zero has been reached, and it holds row `i`
        by_cases hki : k = i
        · have hheld := rowPotential_shift_of_held (s := s') (cost i i) hbound (k := 0) (by omega)
            (by rw [hzero]) fun l hl heq => by
              by_contra hl0
              have := hrow l (by omega) hl0
              omega
          rw [hrow0] at hheld
          subst hki
          rw [hheld, hsame, if_neg (Nat.lt_irrefl k), if_pos (Nat.le_refl k), Int.zero_add]
        · rw [rowPotential_shift_of_not_held (cost i i) hbound fun l hl hreached heq => ?_, hsame]
          · exact if_congr (by omega) rfl rfl
          · by_cases hl0 : l = 0
            · rw [hl0, hrow0] at heq
              exact hki heq.symm
            · rw [hcolumn l (by omega) hl0] at hreached
              simp at hreached
      reached := fun k hk => by
        by_cases hk0 : k = 0
        · subst hk0
          rw [hfixed.2.2, hzero]
          simp
        · rw [hshift k hk hk0]
          simp [hk0]
      target := by
        rw [hshift i hin hi]
        simp
      slack := fun k hk hk0 _ => by
        rw [hshift k hk hk0]
        exact ⟨_, rfl, Int.sub_nonneg_of_le (hcost k hk hk0)⟩ }

namespace Searching

variable {seen : List Nat}

theorem reduced_nonneg (h : Searching cost n i seen s) (hin : i ≤ n)
    (hcost : ∀ j ≤ n, j ≠ 0 → ∀ k ≤ n, k ≠ 0 → cost j j ≤ cost j k) (hj : j < i) (hj0 : j ≠ 0)
    (hk : k ≤ n) (hk0 : k ≠ 0) : 0 ≤ s.reduced cost (s.column j).row k := by
  have hle := hcost j (by omega) hj0 k hk hk0
  rw [h.row j (by omega) hj0, if_pos hj, reduced, h.rowPotential j (by omega) hj0, if_pos hj.le,
    h.potential k hk hk0]
  omega

theorem visit (h : Searching cost n i seen s) (hi : i ≠ 0) (hin : i ≤ n)
    (hcost : ∀ j ≤ n, j ≠ 0 → ∀ k ≤ n, k ≠ 0 → cost j j ≤ cost j k)
    (hseen : i ∉ seen) (hj : j < i) (hj0 : j ≠ 0) :
    Searching cost n i (j :: seen) (s.visit cost j) := by
  have hsize := h.size_columns
  have hfixed : ∀ k ≤ n, ((s.visit cost j).column k).row = (s.column k).row ∧
      ((s.visit cost j).column k).potential = (s.column k).potential ∧
        ((s.visit cost j).column k).reached = (decide (j = k) || (s.column k).reached) :=
    fun k hk => column_visit (by omega) (by omega)
  have hfree : ∀ k ≤ n, k ≠ 0 → k ∉ seen → (s.column k).reached = false := fun k hk hk0 hnot => by
    rw [h.reached k hk]
    exact decide_eq_false (not_or.mpr ⟨hk0, hnot⟩)
  exact
    { size_columns := by rw [size_columns_visit, hsize]
      size_rows := h.size_rows
      placed := (hfixed 0 (Nat.zero_le n)).1.trans h.placed
      row := fun k hk hk0 => (hfixed k hk).1.trans (h.row k hk hk0)
      potential := fun k hk hk0 => (hfixed k hk).2.1.trans (h.potential k hk hk0)
      rowPotential := h.rowPotential
      reached := fun k hk => by
        rw [(hfixed k hk).2.2, h.reached k hk, Bool.eq_iff_iff, Bool.or_eq_true, decide_eq_true_eq,
          decide_eq_true_eq, decide_eq_true_eq, List.mem_cons]
        tauto
      target := by
        have hreduced := h.reduced_nonneg hin hcost hj hj0 hin hi
        rw [column_visit_of_not_reached (by omega) (by omega) hj.ne (hfree i hin hi hseen), if_neg]
        · exact h.target
        · rw [h.target.1, Option.all_some, decide_eq_true_eq]
          omega
      slack := fun k hk hk0 hnot => by
        rw [List.mem_cons, not_or] at hnot
        obtain ⟨hkj, hnot⟩ := hnot
        rw [column_visit_of_not_reached (by omega) (by omega) (Ne.symm hkj) (hfree k hk hk0 hnot)]
        split
        · exact ⟨_, rfl, h.reduced_nonneg hin hcost hj hj0 hk hk0⟩
        · exact h.slack k hk hk0 hnot }

theorem shift_zero (h : Searching cost n i seen s) (hin : i ≤ n) :
    Searching cost n i seen (s.shift 0) := by
  have hsize := h.size_columns
  have hcolumn : ∀ k ≤ n, (s.shift 0).column k = s.column k := fun k hk => column_shift_zero (by omega)
  have hbound : ∀ k < s.columns.size, (s.column k).row < s.rows.size := fun k hk => by
    rw [h.size_rows]
    by_cases hk0 : k = 0
    · rw [hk0, h.placed]
      omega
    · rw [h.row k (by omega) hk0]
      split <;> omega
  exact
    { size_columns := by rw [size_columns_shift, hsize]
      size_rows := by rw [size_rows_shift, h.size_rows]
      placed := by rw [hcolumn 0 (Nat.zero_le n), h.placed]
      row := fun k hk hk0 => by rw [hcolumn k hk, h.row k hk hk0]
      potential := fun k hk hk0 => by rw [hcolumn k hk, h.potential k hk hk0]
      rowPotential := fun k hk hk0 => by
        rw [rowPotential_shift 0 hbound, mul_zero, add_zero, h.rowPotential k hk hk0]
      reached := fun k hk => by rw [hcolumn k hk, h.reached k hk]
      target := by rw [hcolumn i hin]; exact h.target
      slack := fun k hk hk0 hnot => by rw [hcolumn k hk]; exact h.slack k hk hk0 hnot }

theorem exists_next (h : Searching cost n i seen s) (hi : i ≠ 0) (hin : i ≤ n) (hseen : i ∉ seen) :
    ∃ k ≤ i, k ≠ 0 ∧ k ∉ seen ∧ s.nearest? = some (k, 0) := by
  have hsize := h.size_columns
  have hnot : ∀ k ≤ n, (s.column k).reached = false → k ∉ seen := fun k hk hfree => by
    rw [h.reached k hk] at hfree
    exact (not_or.mp (of_decide_eq_false hfree)).2
  obtain ⟨k, hki, hk0, hnearest, hfree⟩ := exists_nearest hi (by omega)
    ((h.reached i hin).trans (decide_eq_false (not_or.mpr ⟨hi, hseen⟩))) h.target.1
    fun k hk hfree hk0 y hy => by
      obtain ⟨x, hx, hx0⟩ := h.slack k (by omega) hk0 (hnot k (by omega) hfree)
      obtain rfl : x = y := Option.some.inj (hx.symm.trans hy)
      exact hx0
  exact ⟨k, hki, hk0, hnot k (by omega) hfree, hnearest⟩

end Searching

theorem Searching.search (hi : i ≠ 0) (hin : i ≤ n)
    (hcost : ∀ j ≤ n, j ≠ 0 → ∀ k ≤ n, k ≠ 0 → cost j j ≤ cost j k) :
    ∀ (bound : Nat) {s : State} {seen : List Nat} {j : Nat}, Searching cost n i seen s → seen.Nodup →
      (∀ k ∈ seen, k < i ∧ k ≠ 0) → j < i → j ≠ 0 → j ∉ seen → i ≤ seen.length + bound →
        ∃ s' seen', State.search cost bound s j = (s', i) ∧ Searching cost n i seen' s' := by
  intro bound
  induction bound with
  | zero =>
    intro s seen j _ hnodup hseen _ _ _ hbound
    have hsub : seen ⊆ List.range' 1 (i - 1) := fun k hk => by
      rw [List.mem_range'_1]
      have := hseen k hk
      omega
    have hlen := (hnodup.subperm hsub).length_le
    rw [List.length_range'] at hlen
    omega
  | succ bound ih =>
    intro s seen j h hnodup hseen hj hj0 hjseen hbound
    have hiseen : i ∉ seen := fun hmem => Nat.lt_irrefl i (hseen i hmem).1
    have hvisit := h.visit hi hin hcost hiseen hj hj0
    have hinot : i ∉ j :: seen := by
      rw [List.mem_cons, not_or]
      exact ⟨hj.ne', hiseen⟩
    obtain ⟨k, hki, hk0, hknot, hnearest⟩ := hvisit.exists_next hi hin hinot
    have hnext := hvisit.shift_zero hin
    have hrow : (((s.visit cost j).shift 0).column k).row = if k < i then k else 0 :=
      hnext.row k (by omega) hk0
    rw [search_succ]
    simp only [hnearest, hrow]
    by_cases hlt : k < i
    · rw [if_pos hlt, if_neg hk0]
      refine ih hnext (List.nodup_cons.mpr ⟨hjseen, hnodup⟩) (fun m hm => ?_) hlt hk0 hknot
        (by rw [List.length_cons]; omega)
      rcases List.mem_cons.mp hm with rfl | hm
      · exact ⟨hj, hj0⟩
      · exact hseen m hm
    · obtain rfl : k = i := by omega
      rw [if_neg hlt, if_pos rfl]
      exact ⟨_, _, rfl, hnext⟩

/-- **Each row is placed on the diagonal.** -/
theorem Diagonal.place (h : Diagonal cost n i s) (hi : i ≠ 0) (hin : i ≤ n)
    (hcost : ∀ j ≤ n, j ≠ 0 → ∀ k ≤ n, k ≠ 0 → cost j j ≤ cost j k) :
    Diagonal cost n (i + 1) (s.place cost n i) := by
  obtain ⟨k, hki, hk0, hnearest, hfirst⟩ := h.search hi hin (hcost i hin hi)
  have hfound : ∃ s' seen, State.search cost (n + 1) (s.start i) 0 = (s', i) ∧
      Searching cost n i seen s' := by
    have hrow : ((((s.start i).visit cost 0).shift (cost i i)).column k).row =
        if k < i then k else 0 := hfirst.row k (by omega) hk0
    rw [search_succ]
    simp only [hnearest, hrow]
    by_cases hlt : k < i
    · rw [if_pos hlt, if_neg hk0]
      exact hfirst.search hi hin hcost n List.nodup_nil (by simp) hlt hk0 List.not_mem_nil
        (by rw [List.length_nil]; omega)
    · obtain rfl : k = i := by omega
      rw [if_neg hlt, if_pos rfl]
      exact ⟨_, _, rfl, hfirst⟩
  obtain ⟨s', seen, hsearch, hs'⟩ := hfound
  -- the diagonal was reached from column zero, so nothing else moves
  have hflip : State.place cost n s i =
      { s' with columns := s'.columns.modify i fun c => { c with row := i } } := by
    rw [State.place, hsearch]
    simp only [State.flip, hs'.target.2, hs'.placed, if_true]
  have hsize := hs'.size_columns
  have hcolumn : ∀ k, (State.place cost n s i).column k =
      if i = k then { s'.column k with row := i } else s'.column k := fun k => by
    rw [hflip, column, getD_modify (by omega)]
    rfl
  exact
    { size_columns := by rw [hflip]; simp [hsize]
      size_rows := by rw [hflip]; exact hs'.size_rows
      row := fun k hk hk0 => by
        rw [hcolumn]
        split
        · next hik => rw [← hik, if_pos (Nat.lt_succ_self i)]
        · next hik =>
          rw [hs'.row k hk hk0]
          exact if_congr (by omega) rfl rfl
      potential := fun k hk hk0 => by
        rw [hcolumn]
        split
        · exact hs'.potential k hk hk0
        · exact hs'.potential k hk hk0
      rowPotential := fun k hk hk0 => by
        rw [hflip]
        refine (hs'.rowPotential k hk hk0).trans ?_
        exact if_congr (by omega) rfl rfl }

theorem diagonal_foldl (hcost : ∀ j ≤ n, j ≠ 0 → ∀ k ≤ n, k ≠ 0 → cost j j ≤ cost j k) :
    ∀ m ≤ n, Diagonal cost n (m + 1) ((List.range' 1 m).foldl (State.place cost n) (initial n)) := by
  intro m
  induction m with
  | zero => exact fun _ => diagonal_initial n
  | succ m ih =>
    intro hm
    rw [List.range'_1_concat, List.foldl_append, List.foldl_cons, List.foldl_nil, Nat.add_comm 1 m]
    exact (ih (by omega)).place (by omega) hm hcost

end

end State

/-- **An assignment along a diagonal that no entry of a row outweighs is found as it is.** -/
theorem best_eq_range {weights : List (List Int)} {n : Nat}
    (h : ∀ i < n, ∀ j < n, weightAt weights i j ≤ weightAt weights i i) :
    best weights n = List.range n := by
  rw [best]
  generalize weights.flatten.max?.getD 0 = top
  have hdiagonal := @State.diagonal_foldl n (fun i j => top - weightAt weights (i - 1) (j - 1))
    (fun j hj hj0 k hk hk0 => by
      have := h (j - 1) (by omega) (k - 1) (by omega)
      omega) n (Nat.le_refl n)
  generalize (List.range' 1 n).foldl _ _ = s at hdiagonal
  have hfind : ∀ i ∈ List.range' 1 n,
      ((List.range' 1 n).find? fun j => (s.column j).row == i).elim 0 (· - 1) = i - 1 := by
    intro i hi
    rw [List.mem_range'_1] at hi
    have hrow : ∀ k, 1 ≤ k → k ≤ n → (s.column k).row = k := fun k hk hkn => by
      rw [hdiagonal.row k hkn (by omega), if_pos (by omega)]
    rw [List.find?_range'_eq_some.mpr ⟨?_, ?_, fun k hk hki => ?_⟩, Option.elim_some]
    · rw [hrow i hi.1 (by omega), beq_self_eq_true]
    · rw [List.mem_range'_1]
      exact hi
    · rw [hrow k hk (by omega)]
      simp only [Bool.not_eq_true', beq_eq_false_iff_ne]
      omega
  rw [List.map_congr_left hfind, List.map_sub_range' (Nat.le_refl 1), List.range_eq_range']

end TreePatch.Assignment
