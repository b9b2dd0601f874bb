import Mathlib.Data.List.Nodup
import TreePatch.Proofs.Assignment

/-!
# Placing rows along augmenting paths

The reduced cost of an entry is what its cost exceeds the potentials of its row and column by. While the
rows are placed, no reduced cost of a placed row is negative, and those of the assigned entries are zero
(`Balanced`). A search grows a tree of columns that can be reached from the new row over entries of
reduced cost zero (`Grown`), and keeps for every other column the least reduced cost that leads to it
(`Exploring`). It ends at a free column; moving the rows along the branch to that column places the new
row, and the assigned entries still cost nothing.

The loops come to their end before their bounds are used up, and read no array outside of its bounds:
that is what `Searches`, `Flips` and `Completes` say of them.
-/

namespace TreePatch.Assignment

namespace State

variable {s : State} {cost : Nat → Nat → Int} {i j k l n r : Nat}

/-- Moves the row of the column that `j` was reached from to `j`. -/
def advance (s : State) (j : Nat) : State :=
  { s with columns := s.columns.modify j fun c => { c with row := (s.column (s.column j).via).row } }

theorem flip_succ (bound : Nat) :
    flip (bound + 1) s j =
      if (s.column j).via = 0 then s.advance j else flip bound (s.advance j) (s.column j).via := rfl

theorem column_advance (hj : j < s.columns.size) :
    (s.advance j).column k =
      if j = k then { s.column k with row := (s.column (s.column j).via).row } else s.column k := by
  rw [column, advance, getD_modify hj]
  rfl

@[simp] theorem size_columns_advance : (s.advance j).columns.size = s.columns.size := by
  simp [advance]

theorem reduced_advance (hj : j < s.columns.size) (r : Nat) :
    (s.advance j).reduced cost r k = s.reduced cost r k := by
  have hrow : (s.advance j).rowPotential r = s.rowPotential r := rfl
  have hpotential : ((s.advance j).column k).potential = (s.column k).potential := by
    rw [column_advance hj]
    split <;> rfl
  rw [reduced, hrow, hpotential, reduced]

/-! ## Balanced assignments -/

/-- The columns other than `j` hold the rows from one to `m`, each of them once, and no other rows. -/
structure Spread (n m j : Nat) (s : State) : Prop where
  size_columns : s.columns.size = n + 1
  size_rows : s.rows.size = n + 1
  row_le : ∀ k ≤ n, k ≠ j → (s.column k).row ≤ m
  injective : ∀ k ≤ n, ∀ l ≤ n, k ≠ j → l ≠ j → (s.column k).row ≠ 0 →
    (s.column l).row = (s.column k).row → l = k
  surjective : ∀ r ≤ m, r ≠ 0 → ∃ k ≤ n, k ≠ j ∧ (s.column k).row = r

/-- No reduced cost of the rows from one to `m` is negative, and what is assigned costs nothing. Column
`j` is left out of account. -/
structure Balanced (cost : Nat → Nat → Int) (n m j : Nat) (s : State) : Prop extends
    Spread n m j s where
  feasible : ∀ r ≤ m, r ≠ 0 → ∀ k ≤ n, k ≠ 0 → 0 ≤ s.reduced cost r k
  tight : ∀ k ≤ n, k ≠ 0 → k ≠ j → (s.column k).row ≠ 0 → s.reduced cost (s.column k).row k = 0

theorem balanced_initial (n : Nat) : Balanced cost n 0 0 (initial n) where
  size_columns := by simp [initial]
  size_rows := by simp [initial]
  row_le k _ _ := by rw [column_initial]
  injective k _ l _ _ _ hk := absurd (by rw [column_initial]) hk
  surjective r hr hr0 := absurd (Nat.le_zero.mp hr) hr0
  feasible r hr hr0 := absurd (Nat.le_zero.mp hr) hr0
  tight k _ _ _ hk := absurd (by rw [column_initial]) hk

/-! ## Searching -/

/-- The columns of a list, the latest first, were reached from column zero, each from one of those after
it in the list over an entry that costs nothing. -/
def Grown (cost : Nat → Nat → Int) (s : State) : List Nat → Prop
  | [] => True
  | k :: seen => Grown cost s seen ∧ k ∉ seen ∧ (seen = [] ∧ k = 0 ∨
      (s.column k).via ∈ seen ∧ s.reduced cost (s.column (s.column k).via).row k = 0)

theorem Grown.congr {s' : State} {seen : List Nat} (h : Grown cost s seen)
    (hvia : ∀ k ∈ seen, (s'.column k).via = (s.column k).via)
    (hreduced : ∀ k ∈ seen, ∀ l ∈ seen,
      s'.reduced cost (s'.column l).row k = s.reduced cost (s.column l).row k) :
    Grown cost s' seen := by
  induction seen with
  | nil => trivial
  | cons k seen ih =>
    obtain ⟨hseen, hk, hway⟩ := h
    refine ⟨ih hseen (fun l hl => hvia l (List.mem_cons_of_mem _ hl)) fun l hl l' hl' =>
      hreduced l (List.mem_cons_of_mem _ hl) l' (List.mem_cons_of_mem _ hl'), hk, ?_⟩
    refine hway.imp_right fun ⟨hmem, hzero⟩ => ?_
    rw [hvia k List.mem_cons_self]
    exact ⟨hmem, (hreduced k List.mem_cons_self _ (List.mem_cons_of_mem _ hmem)).trans hzero⟩

theorem Grown.suffix {seen rest : List Nat} (h : Grown cost s (seen ++ rest)) : Grown cost s rest := by
  induction seen with
  | nil => exact h
  | cons k seen ih => exact ih h.1

theorem Grown.nodup {seen : List Nat} (h : Grown cost s seen) : seen.Nodup := by
  induction seen with
  | nil => exact List.nodup_nil
  | cons k seen ih => exact List.nodup_cons.mpr ⟨h.2.1, ih h.1⟩

theorem Grown.zero_mem {seen : List Nat} (h : Grown cost s seen) (hne : seen ≠ []) : 0 ∈ seen := by
  induction seen with
  | nil => exact absurd rfl hne
  | cons k seen ih =>
    rcases h.2.2 with ⟨-, rfl⟩ | ⟨hmem, -⟩
    · exact List.mem_cons_self
    · exact List.mem_cons_of_mem _ (ih h.1 (List.ne_nil_of_mem hmem))

/-- While row `i` is being placed, the columns of `seen` have been reached. The slack of any other column
is the least reduced cost of the entries that lead to it. -/
structure Exploring (cost : Nat → Nat → Int) (n i : Nat) (seen : List Nat) (s : State) : Prop extends
    Spread n i (n + 1) s where
  placed : (s.column 0).row = i
  feasible : ∀ r < i, r ≠ 0 → ∀ k ≤ n, k ≠ 0 → 0 ≤ s.reduced cost r k
  tight : ∀ k ≤ n, k ≠ 0 → (s.column k).row ≠ 0 → s.reduced cost (s.column k).row k = 0
  reached : ∀ k ≤ n, (s.column k).reached = decide (k ∈ seen)
  taken : ∀ k ∈ seen, k ≤ n ∧ (s.column k).row ≠ 0
  grown : Grown cost s seen
  slack : ∀ k ≤ n, k ≠ 0 → k ∉ seen → seen = [] ∧ (s.column k).slack = none ∨
    (s.column k).via ∈ seen ∧
      (s.column k).slack = some (s.reduced cost (s.column (s.column k).via).row k) ∧
        ∀ l ∈ seen, s.reduced cost (s.column (s.column k).via).row k ≤
          s.reduced cost (s.column l).row k

/-- No reduced cost of row `i` is negative. -/
def Fair (cost : Nat → Nat → Int) (n i : Nat) (s : State) : Prop :=
  ∀ k ≤ n, k ≠ 0 → 0 ≤ s.reduced cost i k

theorem Balanced.start {m : Nat} (h : Balanced cost n m 0 s) :
    Exploring cost n (m + 1) [] (s.start (m + 1)) := by
  have hsize := h.size_columns
  have hcolumn : ∀ k ≤ n, (s.start (m + 1)).column k =
      { s.column k with
        row := if k = 0 then m + 1 else (s.column k).row, slack := none, reached := false } :=
    fun k hk => column_start (by omega)
  have hzero : ((s.start (m + 1)).column 0).row = m + 1 := by rw [hcolumn 0 (Nat.zero_le n), if_pos rfl]
  have hrow : ∀ k ≤ n, k ≠ 0 → ((s.start (m + 1)).column k).row = (s.column k).row := fun k hk hk0 => by
    rw [hcolumn k hk, if_neg hk0]
  have hreduced : ∀ r, ∀ k ≤ n, (s.start (m + 1)).reduced cost r k = s.reduced cost r k := fun r k hk => by
    have hpotential : (s.start (m + 1)).rowPotential r = s.rowPotential r := rfl
    rw [reduced, hcolumn k hk, hpotential, reduced]
  exact
    { size_columns := by rw [size_columns_start, hsize]
      size_rows := h.size_rows
      row_le := fun k hk _ => by
        by_cases hk0 : k = 0
        · rw [hk0, hzero]
        · rw [hrow k hk hk0]
          exact Nat.le_succ_of_le (h.row_le k hk hk0)
      injective := fun k hk l hl _ _ hk' heq => by
        by_cases hk0 : k = 0
        · by_contra hl0
          rw [hk0, hzero, hrow l hl (by omega)] at heq
          have := h.row_le l hl (by omega)
          omega
        · rw [hrow k hk hk0] at hk' heq
          by_cases hl0 : l = 0
          · rw [hl0, hzero] at heq
            have := h.row_le k hk hk0
            omega
          · rw [hrow l hl hl0] at heq
            exact h.injective k hk l hl hk0 hl0 hk' heq
      surjective := fun r hr hr0 => by
        rcases Nat.le_succ_iff.mp hr with hr | rfl
        · obtain ⟨k, hk, hk0, hkr⟩ := h.surjective r hr hr0
          exact ⟨k, hk, by omega, by rw [hrow k hk hk0, hkr]⟩
        · exact ⟨0, Nat.zero_le n, by omega, hzero⟩
      placed := hzero
      feasible := fun r hr hr0 k hk hk0 => by
        rw [hreduced r k hk]
        exact h.feasible r (by omega) hr0 k hk hk0
      tight := fun k hk hk0 hrow0 => by
        rw [hrow k hk hk0] at hrow0 ⊢
        rw [hreduced _ k hk]
        exact h.tight k hk hk0 hk0 hrow0
      reached := fun k hk => by simp [hcolumn k hk]
      taken := by simp
      grown := trivial
      slack := fun k hk _ _ => Or.inl ⟨rfl, by rw [hcolumn k hk]⟩ }

section

variable {seen : List Nat}

theorem Exploring.slack_visit (h : Exploring cost n i seen s) (hj : j ≤ n) (hk : k ≤ n) (hk0 : k ≠ 0)
    (hnot : k ∉ j :: seen) :
    ((s.visit cost j).column k).via ∈ j :: seen ∧
      ((s.visit cost j).column k).slack =
          some (s.reduced cost (s.column ((s.visit cost j).column k).via).row k) ∧
        ∀ l ∈ j :: seen, s.reduced cost (s.column ((s.visit cost j).column k).via).row k ≤
          s.reduced cost (s.column l).row k := by
  have hsize := h.size_columns
  rw [List.mem_cons, not_or] at hnot
  obtain ⟨hkj, hkseen⟩ := hnot
  rw [column_visit_of_not_reached (by omega) (by omega) (Ne.symm hkj)
    ((h.reached k hk).trans (decide_eq_false hkseen))]
  rcases h.slack k hk hk0 hkseen with ⟨rfl, hnone⟩ | ⟨hmem, hslack, hleast⟩
  · rw [hnone, Option.all_none, if_pos rfl]
    refine ⟨List.mem_cons_self, rfl, fun l hl => ?_⟩
    obtain rfl := List.mem_singleton.mp hl
    exact Int.le_refl _
  · rw [hslack, Option.all_some]
    by_cases hless : s.reduced cost (s.column j).row k < s.reduced cost (s.column (s.column k).via).row k
    · rw [if_pos (decide_eq_true hless)]
      refine ⟨List.mem_cons_self, rfl, fun l hl => ?_⟩
      rcases List.mem_cons.mp hl with rfl | hl
      · exact Int.le_refl _
      · exact Int.le_of_lt (Int.lt_of_lt_of_le hless (hleast l hl))
    · rw [if_neg (by simpa using hless)]
      refine ⟨List.mem_cons_of_mem _ hmem, hslack, fun l hl => ?_⟩
      rcases List.mem_cons.mp hl with rfl | hl
      · exact Int.not_lt.mp hless
      · exact hleast l hl

theorem Exploring.visit (h : Exploring cost n i seen s) (hj : j ≤ n) (hrow : (s.column j).row ≠ 0)
    (hgrown : Grown cost s (j :: seen)) : Exploring cost n i (j :: seen) (s.visit cost j) := by
  have hsize := h.size_columns
  have hj' : j < s.columns.size := by omega
  have hfixed : ∀ k ≤ n, ((s.visit cost j).column k).row = (s.column k).row := fun k hk =>
    (column_visit hj' (by omega)).1
  have hreduced : ∀ r, ∀ k ≤ n, (s.visit cost j).reduced cost r k = s.reduced cost r k := fun r k hk =>
    reduced_visit hj' (by omega) r
  have hle : ∀ k ∈ j :: seen, k ≤ n := fun k hk => by
    rcases List.mem_cons.mp hk with rfl | hk
    · exact hj
    · exact (h.taken k hk).1
  have hvia : ∀ k ∈ j :: seen, ((s.visit cost j).column k).via = (s.column k).via := fun k hk => by
    have hkn := hle k hk
    rw [column_visit_of_reached hj' (by omega)]
    rcases List.mem_cons.mp hk with rfl | hk
    · exact Or.inl rfl
    · exact Or.inr ((h.reached k hkn).trans (decide_eq_true hk))
  exact
    { size_columns := by rw [size_columns_visit, hsize]
      size_rows := h.size_rows
      row_le := fun k hk => hfixed k hk ▸ h.row_le k hk
      injective := fun k hk l hl => by
        rw [hfixed k hk, hfixed l hl]
        exact h.injective k hk l hl
      surjective := fun r hr hr0 => by
        obtain ⟨k, hk, hkn, hkr⟩ := h.surjective r hr hr0
        exact ⟨k, hk, hkn, (hfixed k hk).trans hkr⟩
      placed := (hfixed 0 (Nat.zero_le n)).trans h.placed
      feasible := fun r hr hr0 k hk hk0 => by
        rw [hreduced r k hk]
        exact h.feasible r hr hr0 k hk hk0
      tight := fun k hk hk0 hk' => by
        rw [hfixed k hk] at hk' ⊢
        rw [hreduced _ k hk]
        exact h.tight k hk hk0 hk'
      reached := fun k hk => by
        rw [(column_visit hj' (by omega)).2.2, h.reached k hk, Bool.eq_iff_iff, Bool.or_eq_true,
          decide_eq_true_eq, decide_eq_true_eq, decide_eq_true_eq, List.mem_cons, eq_comm]
      taken := fun k hk => by
        rw [hfixed k (hle k hk)]
        rcases List.mem_cons.mp hk with rfl | hk
        · exact ⟨hj, hrow⟩
        · exact h.taken k hk
      grown := hgrown.congr hvia fun k hk l hl => by
        rw [hfixed l (hle l hl), hreduced _ k (hle k hk)]
      slack := fun k hk hk0 hnot => by
        obtain ⟨hmem, hslack, hleast⟩ := h.slack_visit hj hk hk0 hnot
        refine Or.inr ⟨hmem, ?_, fun l hl => ?_⟩
        · rw [hfixed _ (hle _ hmem), hreduced _ k hk, hslack]
        · rw [hfixed _ (hle _ hmem), hfixed l (hle l hl), hreduced _ k hk, hreduced _ k hk]
          exact hleast l hl }

section

variable (h : Exploring cost n i seen s) (hin : i ≤ n) (delta : Int)

include h hin

theorem Exploring.row_lt (hk : k ≤ n) : (s.column k).row < s.rows.size := by
  have hle := h.row_le k hk (by omega)
  rw [h.size_rows]
  omega

theorem Exploring.reduced_shift_of_mem (hl : l ∈ seen) (hk : k ≤ n) :
    (s.shift delta).reduced cost (s.column l).row k =
      s.reduced cost (s.column l).row k - if k ∈ seen then 0 else delta := by
  have hsize := h.size_columns
  obtain ⟨hln, hrow⟩ := h.taken l hl
  rw [reduced, rowPotential_shift_of_held delta (fun k hk => h.row_lt hin (by omega)) (by omega)
    ((h.reached l hln).trans (decide_eq_true hl)) fun m hm heq =>
      h.injective l hln m (by omega) (by omega) (by omega) hrow heq,
    potential_shift delta (by omega), h.reached k hk, reduced]
  by_cases hmem : k ∈ seen
  · simp only [hmem, decide_true, if_true]
    omega
  · simp only [hmem, decide_false, if_false, Bool.false_eq_true]
    omega

theorem Exploring.reduced_shift_of_not_mem (hr : ∀ l ∈ seen, (s.column l).row ≠ r) (hk : k ≤ n) :
    (s.shift delta).reduced cost r k = s.reduced cost r k + if k ∈ seen then delta else 0 := by
  have hsize := h.size_columns
  rw [reduced, rowPotential_shift_of_not_held delta (fun k hk => h.row_lt hin (by omega))
    (fun l hl hreached => hr l (of_decide_eq_true ((h.reached l (by omega)).symm.trans hreached))),
    potential_shift delta (by omega), h.reached k hk, reduced]
  by_cases hmem : k ∈ seen
  · simp only [hmem, decide_true, if_true]
    omega
  · simp only [hmem, decide_false, if_false, Bool.false_eq_true]
    omega

variable {delta}

theorem Exploring.feasible_shift (hnearest : s.nearest? = some (j, delta)) (hne : seen ≠ [])
    (hfair : seen = [0] ∨ 0 ≤ delta ∧ s.Fair cost n i) (hr : r ≤ i) (hr0 : r ≠ 0) (hk : k ≤ n)
    (hk0 : k ≠ 0) : 0 ≤ (s.shift delta).reduced cost r k := by
  have hsize := h.size_columns
  have hzero := h.grown.zero_mem hne
  by_cases hheld : ∃ l ∈ seen, (s.column l).row = r
  · obtain ⟨l, hl, rfl⟩ := hheld
    rw [h.reduced_shift_of_mem hin delta hl hk]
    by_cases hmem : k ∈ seen
    · rw [if_pos hmem, Int.sub_zero]
      rcases hfair with rfl | ⟨-, hfair⟩
      · exact absurd (List.mem_singleton.mp hmem) hk0
      · rcases Nat.lt_or_eq_of_le hr with hlt | heq
        · exact h.feasible _ hlt hr0 k hk hk0
        · exact heq ▸ hfair k hk hk0
    · rw [if_neg hmem]
      rcases h.slack k hk hk0 hmem with ⟨rfl, -⟩ | ⟨-, hslack, hleast⟩
      · exact absurd rfl hne
      · have hle := (of_nearest hnearest).2.2.2.2 k (by omega) hk0
          ((h.reached k hk).trans (decide_eq_false hmem)) _ hslack
        have := hleast l hl
        omega
  · have hother : ∀ l ∈ seen, (s.column l).row ≠ r := fun l hl heq => hheld ⟨l, hl, heq⟩
    have hlt : r < i := by
      refine Nat.lt_of_le_of_ne hr fun heq => hother 0 hzero ?_
      rw [h.placed, heq]
    have hold := h.feasible r hlt hr0 k hk hk0
    rw [h.reduced_shift_of_not_mem hin delta hother hk]
    by_cases hmem : k ∈ seen
    · rw [if_pos hmem]
      rcases hfair with rfl | ⟨hpos, -⟩
      · exact absurd (List.mem_singleton.mp hmem) hk0
      · omega
    · rw [if_neg hmem]
      omega

theorem Exploring.shift (hnearest : s.nearest? = some (j, delta)) (hne : seen ≠ [])
    (hfair : seen = [0] ∨ 0 ≤ delta ∧ s.Fair cost n i) :
    Exploring cost n i seen (s.shift delta) := by
  have hsize := h.size_columns
  have hfixed : ∀ k ≤ n, ((s.shift delta).column k).row = (s.column k).row ∧
      ((s.shift delta).column k).via = (s.column k).via ∧
        ((s.shift delta).column k).reached = (s.column k).reached := fun k hk =>
    column_shift_fixed delta (by omega)
  have hle : ∀ k ∈ seen, k ≤ n := fun k hk => (h.taken k hk).1
  exact
    { size_columns := by rw [size_columns_shift, hsize]
      size_rows := by rw [size_rows_shift, h.size_rows]
      row_le := fun k hk => (hfixed k hk).1 ▸ h.row_le k hk
      injective := fun k hk l hl => by
        rw [(hfixed k hk).1, (hfixed l hl).1]
        exact h.injective k hk l hl
      surjective := fun r hr hr0 => by
        obtain ⟨k, hk, hkn, hkr⟩ := h.surjective r hr hr0
        exact ⟨k, hk, hkn, (hfixed k hk).1.trans hkr⟩
      placed := (hfixed 0 (Nat.zero_le n)).1.trans h.placed
      feasible := fun r hr hr0 k hk hk0 =>
        h.feasible_shift hin hnearest hne hfair (Nat.le_of_lt hr) hr0 hk hk0
      tight := fun k hk hk0 hrow => by
        rw [(hfixed k hk).1] at hrow ⊢
        by_cases hmem : k ∈ seen
        · rw [h.reduced_shift_of_mem hin delta hmem hk, if_pos hmem, Int.sub_zero]
          exact h.tight k hk hk0 hrow
        · -- no reached column holds the row
          rw [h.reduced_shift_of_not_mem hin delta (fun l hl heq => hmem ?_) hk, if_neg hmem,
            Int.add_zero]
          · exact h.tight k hk hk0 hrow
          · exact h.injective k hk l (hle l hl) (by omega) (by have := hle l hl; omega) hrow heq ▸ hl
      reached := fun k hk => (hfixed k hk).2.2.trans (h.reached k hk)
      taken := fun k hk => ⟨hle k hk, (hfixed k (hle k hk)).1 ▸ (h.taken k hk).2⟩
      grown := h.grown.congr (fun k hk => (hfixed k (hle k hk)).2.1) fun k hk l hl => by
        rw [(hfixed l (hle l hl)).1, h.reduced_shift_of_mem hin delta hl (hle k hk), if_pos hk,
          Int.sub_zero]
      slack := fun k hk hk0 hnot => by
        rcases h.slack k hk hk0 hnot with ⟨rfl, -⟩ | ⟨hmem, hslack, hleast⟩
        · exact absurd rfl hne
        · rw [(hfixed k hk).2.1, (hfixed _ (hle _ hmem)).1]
          refine Or.inr ⟨hmem, ?_, fun l hl => ?_⟩
          · rw [slack_shift delta (by omega) ((h.reached k hk).trans (decide_eq_false hnot)), hslack,
              Option.map_some, h.reduced_shift_of_mem hin delta hmem hk, if_neg hnot]
          · have := hleast l hl
            rw [(hfixed l (hle l hl)).1, h.reduced_shift_of_mem hin delta hmem hk,
              h.reduced_shift_of_mem hin delta hl hk]
            omega }

end

theorem Exploring.exists_free (h : Exploring cost n i seen s) (hi : i ≠ 0) (hin : i ≤ n) :
    ∃ k ≤ n, k ≠ 0 ∧ (s.column k).row = 0 := by
  by_contra hnone
  have htaken : ∀ k ≤ n, (s.column k).row ≠ 0 := fun k hk hrow => by
    by_cases hk0 : k = 0
    · rw [hk0, h.placed] at hrow
      exact hi hrow
    · exact hnone ⟨k, hk, hk0, hrow⟩
  -- otherwise the rows up to `i` would be spread over more than `n` columns
  have hnodup : ((List.range (n + 1)).map fun k => (s.column k).row).Nodup := by
    refine List.Nodup.map_on (fun k hk l hl heq => ?_) List.nodup_range
    rw [List.mem_range] at hk hl
    exact (h.injective k (by omega) l (by omega) (by omega) (by omega) (htaken k (by omega)) heq.symm).symm
  have hsub : ((List.range (n + 1)).map fun k => (s.column k).row) ⊆ List.range' 1 i := by
    intro r hr
    obtain ⟨k, hk, rfl⟩ := List.mem_map.mp hr
    rw [List.mem_range] at hk
    have := htaken k (by omega)
    have := h.row_le k (by omega) (by omega)
    rw [List.mem_range'_1]
    omega
  have hlength := (hnodup.subperm hsub).length_le
  rw [List.length_map, List.length_range, List.length_range'] at hlength
  omega

/-- **One round of a search**: column `j` is reached, and the search comes to another column over an
entry that costs nothing. -/
theorem Exploring.round (h : Exploring cost n i seen s) (hi : i ≠ 0) (hin : i ≤ n) (hj : j ≤ n)
    (hrow : (s.column j).row ≠ 0) (hgrown : Grown cost s (j :: seen))
    (hfair : seen ≠ [] → s.Fair cost n i) :
    ∃ next delta, (s.visit cost j).nearest? = some (next, delta) ∧ next ≤ n ∧ next ≠ 0 ∧
      Exploring cost n i (j :: seen) ((s.visit cost j).shift delta) ∧
        ((s.visit cost j).shift delta).Fair cost n i ∧
          Grown cost ((s.visit cost j).shift delta) (next :: j :: seen) := by
  have hvisit := h.visit hj hrow hgrown
  have hsize := h.size_columns
  have hfair' : seen ≠ [] → (s.visit cost j).Fair cost n i := fun hne k hk hk0 => by
    rw [reduced_visit (by omega) (by omega)]
    exact hfair hne k hk hk0
  generalize s.visit cost j = v at hvisit hfair'
  have hsize' := hvisit.size_columns
  have hslack : ∀ k ≤ n, k ≠ 0 → k ∉ j :: seen → (v.column k).via ∈ j :: seen ∧
      (v.column k).slack = some (v.reduced cost (v.column (v.column k).via).row k) :=
    fun k hk hk0 hnot => by
      rcases hvisit.slack k hk hk0 hnot with ⟨hnil, -⟩ | ⟨hmem, hslack, -⟩
      · simp at hnil
      · exact ⟨hmem, hslack⟩
  obtain ⟨free, hfree, hfree0, hfreerow⟩ := hvisit.exists_free hi hin
  have hfreenot : free ∉ j :: seen := fun hmem => (hvisit.taken free hmem).2 hfreerow
  obtain ⟨next, delta, hnearest⟩ := exists_nearest_of_slack hfree0 (by omega)
    ((hvisit.reached free hfree).trans (decide_eq_false hfreenot)) (hslack free hfree hfree0 hfreenot).2
  obtain ⟨hnext0, hnext, hnextfree, hdelta, -⟩ := of_nearest hnearest
  have hnextnot : next ∉ j :: seen :=
    of_decide_eq_false ((hvisit.reached next (by omega)).symm.trans hnextfree)
  obtain ⟨hvia, hnextslack⟩ := hslack next (by omega) hnext0 hnextnot
  rw [hdelta, Option.some.injEq] at hnextslack
  obtain ⟨hvian, hviarow⟩ := hvisit.taken _ hvia
  have hcheap : j :: seen = [0] ∨ 0 ≤ delta ∧ v.Fair cost n i := by
    by_cases hnil : seen = []
    · subst hnil
      refine Or.inl ?_
      rcases hgrown.2.2 with ⟨-, rfl⟩ | ⟨hmem, -⟩
      · rfl
      · simp at hmem
    · refine Or.inr ⟨?_, hfair' hnil⟩
      rw [hnextslack]
      rcases Nat.lt_or_eq_of_le (hvisit.row_le _ hvian (by omega)) with hlt | heq
      · exact hvisit.feasible _ hlt hviarow next (by omega) hnext0
      · rw [heq]
        exact hfair' hnil next (by omega) hnext0
  have hshift := hvisit.shift hin hnearest (List.cons_ne_nil _ _) hcheap
  refine ⟨next, delta, hnearest, by omega, hnext0, hshift, fun k hk hk0 => ?_, ?_⟩
  · exact hvisit.feasible_shift hin hnearest (List.cons_ne_nil _ _) hcheap (Nat.le_refl i) hi hk hk0
  · refine ⟨hshift.grown, hnextnot, Or.inr ?_⟩
    rw [(column_shift_fixed delta hnext).2.1]
    refine ⟨hvia, ?_⟩
    rw [(column_shift_fixed delta (by omega)).1, hvisit.reduced_shift_of_mem hin delta hvia (by omega),
      if_neg hnextnot]
    omega

end

end State

/-! ## Runs of the loops -/

/-- The cost of an entry, rows and columns counted from one: what it weighs less than the heaviest. -/
def costOf (weights : List (List Int)) (i j : Nat) : Int :=
  weights.flatten.max?.getD 0 - weightAt weights (i - 1) (j - 1)

namespace State

/-- Whatever a round of a search reads when it is at column `j` is there: the column, the potential of its
row, the entries of that row, and the potentials of the rows of all columns reached so far. -/
structure InBounds (weights : List (List Int)) (s : State) (j : Nat) : Prop where
  column : j < s.columns.size
  row : (s.column j).row < s.rows.size
  entry : ∀ k < s.columns.size, k ≠ 0 → (s.column j).row ≠ 0 ∧
    ∃ entries x, weights[(s.column j).row - 1]? = some entries ∧ entries[k - 1]? = some x
  reached : ∀ k < s.columns.size, (s.column k).reached = true → (s.column k).row < s.rows.size

/-- One round of a search: the state after it and the column that it comes to. -/
def round? (s : State) (cost : Nat → Nat → Int) (j : Nat) : Option (State × Nat) :=
  (s.visit cost j).nearest?.map fun (next, delta) => ((s.visit cost j).shift delta, next)

/-- A search from column `j` that goes on until it comes to a free column, here `j'`. -/
inductive Searches (weights : List (List Int)) : State → Nat → State → Nat → Prop
  | last {s s' : State} {j j' : Nat} (inBounds : s.InBounds weights j)
    (round : s.round? (costOf weights) j = some (s', j')) (free : (s'.column j').row = 0) :
    Searches weights s j s' j'
  | onward {s s₁ s' : State} {j j₁ j' : Nat} (inBounds : s.InBounds weights j)
    (round : s.round? (costOf weights) j = some (s₁, j₁)) (taken : (s₁.column j₁).row ≠ 0)
    (rest : Searches weights s₁ j₁ s' j') : Searches weights s j s' j'

/-- Moving rows along the path to column `j`, back to column zero. -/
inductive Flips : State → Nat → State → Prop
  | last {s : State} {j : Nat} (inBounds : j < s.columns.size) (via : (s.column j).via = 0) :
    Flips s j (s.advance j)
  | onward {s s' : State} {j : Nat} (inBounds : j < s.columns.size) (via : (s.column j).via ≠ 0)
    (rest : Flips (s.advance j) (s.column j).via s') : Flips s j s'

/-- Placing rows one after the other, each by a search and a flip. -/
inductive Completes (weights : List (List Int)) : List Nat → State → State → Prop
  | nil {s : State} : Completes weights [] s s
  | cons {s s₁ s₂ s' : State} {i j : Nat} {rows : List Nat}
    (search : Searches weights (s.start i) 0 s₁ j) (flip : Flips s₁ j s₂)
    (rest : Completes weights rows s₂ s') : Completes weights (i :: rows) s s'

end State

/-- A matrix with `n` rows and columns. -/
def IsSquare (weights : List (List Int)) (n : Nat) : Prop :=
  weights.length = n ∧ ∀ line ∈ weights, line.length = n

namespace State

variable {s : State} {weights : List (List Int)} {i j k l m n r : Nat} {seen : List Nat}

theorem Exploring.inBounds (h : Exploring (costOf weights) n i seen s) (hin : i ≤ n)
    (hweights : IsSquare weights n) (hj : j ≤ n) (hrow : (s.column j).row ≠ 0) :
    s.InBounds weights j := by
  have hsize := h.size_columns
  have hle := h.row_le j hj (by omega)
  refine ⟨by omega, h.row_lt hin hj, fun k hk hk0 => ⟨hrow, ?_⟩, fun k hk _ => h.row_lt hin (by omega)⟩
  have hline : (s.column j).row - 1 < weights.length := by
    rw [hweights.1]
    omega
  have hentry : k - 1 < (weights[(s.column j).row - 1]).length := by
    rw [hweights.2 _ (List.getElem_mem hline)]
    omega
  exact ⟨_, _, List.getElem?_eq_getElem hline, List.getElem?_eq_getElem hentry⟩

/-- **A search ends at a free column**, before its bound is used up. -/
theorem Exploring.search (hi : i ≠ 0) (hin : i ≤ n) (hweights : IsSquare weights n) :
    ∀ (bound : Nat) {s : State} {seen : List Nat} {j : Nat}, Exploring (costOf weights) n i seen s →
      j ≤ n → (s.column j).row ≠ 0 → Grown (costOf weights) s (j :: seen) →
        (seen ≠ [] → s.Fair (costOf weights) n i) → seen.length + bound = n + 1 →
          ∃ s' seen' j', Searches weights s j s' j' ∧
            State.search (costOf weights) bound s j = (s', j') ∧
              Exploring (costOf weights) n i seen' s' ∧ s'.Fair (costOf weights) n i ∧
                Grown (costOf weights) s' (j' :: seen') ∧ j' ≤ n ∧ j' ≠ 0 ∧ (s'.column j').row = 0 := by
  intro bound
  induction bound with
  | zero =>
    intro s seen j h hj hrow hgrown _ hbound
    have hsub : j :: seen ⊆ List.range (n + 1) := fun k hk => by
      rw [List.mem_range]
      rcases List.mem_cons.mp hk with rfl | hk
      · omega
      · have := (h.taken k hk).1
        omega
    have hlength := (hgrown.nodup.subperm hsub).length_le
    rw [List.length_cons, List.length_range] at hlength
    omega
  | succ bound ih =>
    intro s seen j h hj hrow hgrown hfair hbound
    obtain ⟨next, delta, hnearest, hnext, hnext0, hround, hfair', hgrown'⟩ :=
      h.round hi hin hj hrow hgrown hfair
    have hstep : s.round? (costOf weights) j =
        some ((s.visit (costOf weights) j).shift delta, next) := by rw [round?, hnearest, Option.map_some]
    have hbounds := h.inBounds hin hweights hj hrow
    rw [search_succ, hnearest]
    simp only
    by_cases hfree : (((s.visit (costOf weights) j).shift delta).column next).row = 0
    · rw [if_pos hfree]
      exact ⟨_, _, _, .last hbounds hstep hfree, rfl, hround, hfair', hgrown', hnext, hnext0, hfree⟩
    · rw [if_neg hfree]
      obtain ⟨s', seen', j', hsearch, hrest⟩ := ih hround hnext hfree hgrown' (fun _ => hfair')
        (by rw [List.length_cons]; omega)
      exact ⟨s', seen', j', .onward hbounds hstep hfree hsearch, hrest⟩

theorem Exploring.balanced {cost : Nat → Nat → Int} (h : Exploring cost n i seen s)
    (hfair : s.Fair cost n i) (hfree : (s.column j).row = 0) : Balanced cost n i j s where
  size_columns := h.size_columns
  size_rows := h.size_rows
  row_le k hk _ := h.row_le k hk (by omega)
  injective k hk l hl _ _ := h.injective k hk l hl (by omega) (by omega)
  surjective r hr hr0 := by
    obtain ⟨k, hk, -, rfl⟩ := h.surjective r hr hr0
    refine ⟨k, hk, ?_, rfl⟩
    rintro rfl
    exact hr0 hfree
  feasible r hr hr0 k hk hk0 := by
    rcases Nat.lt_or_eq_of_le hr with hlt | rfl
    · exact h.feasible r hlt hr0 k hk hk0
    · exact hfair k hk hk0
  tight k hk hk0 _ := h.tight k hk hk0

theorem Balanced.advance {cost : Nat → Nat → Int} (h : Balanced cost n i j s) (hj : j ≤ n)
    (hvia : (s.column j).via ≤ n) (hne : (s.column j).via ≠ j)
    (hzero : s.reduced cost (s.column (s.column j).via).row j = 0) :
    Balanced cost n i (s.column j).via (s.advance j) := by
  have hsize := h.size_columns
  have hcolumn : ∀ k, (s.advance j).column k =
      if j = k then { s.column k with row := (s.column (s.column j).via).row } else s.column k :=
    fun k => column_advance (by omega)
  have hself : ((s.advance j).column j).row = (s.column (s.column j).via).row := by
    rw [hcolumn, if_pos rfl]
  have hother : ∀ k ≠ j, ((s.advance j).column k).row = (s.column k).row := fun k hk => by
    rw [hcolumn, if_neg (Ne.symm hk)]
  have hreduced : ∀ r k, (s.advance j).reduced cost r k = s.reduced cost r k := fun r k =>
    reduced_advance (by omega) r
  exact
    { size_columns := by rw [size_columns_advance, hsize]
      size_rows := h.size_rows
      row_le := fun k hk _ => by
        by_cases hkj : k = j
        · rw [hkj, hself]
          exact h.row_le _ hvia hne
        · rw [hother k hkj]
          exact h.row_le k hk hkj
      injective := fun k hk l hl hkv hlv hrow heq => by
        by_cases hkj : k = j
        · by_contra hlk
          rw [hkj, hself] at hrow heq
          rw [hother l fun hlj => hlk (hlj.trans hkj.symm)] at heq
          exact hlv (h.injective _ hvia l hl hne (fun hlj => hlk (hlj.trans hkj.symm)) hrow heq)
        · rw [hother k hkj] at hrow heq
          by_cases hlj : l = j
          · rw [hlj, hself] at heq
            exact absurd (h.injective k hk _ hvia hkj hne hrow heq).symm hkv
          · rw [hother l hlj] at heq
            exact h.injective k hk l hl hkj hlj hrow heq
      surjective := fun r hr hr0 => by
        obtain ⟨k, hk, hkj, hkr⟩ := h.surjective r hr hr0
        by_cases hkv : k = (s.column j).via
        · exact ⟨j, hj, Ne.symm hne, by rw [hself, ← hkv, hkr]⟩
        · exact ⟨k, hk, hkv, by rw [hother k hkj, hkr]⟩
      feasible := fun r hr hr0 k hk hk0 => by
        rw [hreduced]
        exact h.feasible r hr hr0 k hk hk0
      tight := fun k hk hk0 _ hrow => by
        rw [hreduced]
        by_cases hkj : k = j
        · rw [hkj, hself]
          exact hzero
        · rw [hother k hkj] at hrow ⊢
          exact h.tight k hk hk0 hkj hrow }

/-- **Moving the rows along the path leaves only column zero out of account.** -/
theorem Balanced.flip {cost : Nat → Nat → Int} :
    ∀ (bound : Nat) {s : State} {seen : List Nat} {j : Nat}, Balanced cost n i j s → j ≤ n → j ≠ 0 →
      Grown cost s (j :: seen) → (∀ k ∈ seen, k ≤ n) → seen.length ≤ bound →
        Flips s j (State.flip bound s j) ∧ Balanced cost n i 0 (State.flip bound s j) := by
  intro bound
  induction bound with
  | zero =>
    intro s seen j _ _ hj0 hgrown _ hbound
    obtain rfl := List.length_eq_zero_iff.mp (Nat.le_zero.mp hbound)
    rcases hgrown.2.2 with ⟨-, hzero⟩ | ⟨hmem, -⟩
    · exact absurd hzero hj0
    · simp at hmem
  | succ bound ih =>
    intro s seen j h hj hj0 hgrown hseen hbound
    have hsize := h.size_columns
    obtain ⟨hrest, hjseen, ⟨-, hzero⟩ | ⟨hmem, hzero⟩⟩ := hgrown
    · exact absurd hzero hj0
    · have hne : (s.column j).via ≠ j := fun heq => hjseen (heq ▸ hmem)
      have hadvance := h.advance hj (hseen _ hmem) hne hzero
      rw [flip_succ]
      by_cases hvia : (s.column j).via = 0
      · rw [if_pos hvia]
        exact ⟨.last (by omega) hvia, hvia ▸ hadvance⟩
      · rw [if_neg hvia]
        -- what was reached before the column that the row came from
        obtain ⟨before, after, hsplit⟩ := List.append_of_mem hmem
        rw [hsplit] at hrest hbound hjseen
        rw [List.length_append, List.length_cons] at hbound
        have hafter : ∀ k ∈ (s.column j).via :: after, k ≠ j := by
          rintro k hk rfl
          exact hjseen (List.mem_append_right _ hk)
        have hcolumn : ∀ k ∈ (s.column j).via :: after, (s.advance j).column k = s.column k :=
          fun k hk => by rw [column_advance (by omega), if_neg (Ne.symm (hafter k hk))]
        obtain ⟨hflips, hbalanced⟩ := ih hadvance (hseen _ hmem) hvia
          (hrest.suffix.congr (fun k hk => by rw [hcolumn k hk]) fun k _ l hl => by
            rw [hcolumn l hl, reduced_advance (by omega)])
          (fun k hk => hseen k (by simp [hsplit, hk])) (by omega)
        exact ⟨.onward (by omega) hvia hflips, hbalanced⟩

/-- **Every row finds its place.** -/
theorem Balanced.place (hweights : IsSquare weights n) (h : Balanced (costOf weights) n m 0 s)
    (hm : m < n) :
    (∃ s' j, Searches weights (s.start (m + 1)) 0 s' j ∧
      Flips s' j (s.place (costOf weights) n (m + 1))) ∧
      Balanced (costOf weights) n (m + 1) 0 (s.place (costOf weights) n (m + 1)) := by
  have hstart := h.start
  have hrow : ((s.start (m + 1)).column 0).row ≠ 0 := by
    rw [hstart.placed]
    omega
  obtain ⟨s', seen, j, hsearches, hsearch, hexploring, hfair, hgrown, hj, hj0, hfree⟩ :=
    Exploring.search (Nat.succ_ne_zero m) hm hweights (n + 1) hstart (Nat.zero_le n) hrow
      ⟨trivial, List.not_mem_nil, Or.inl ⟨rfl, rfl⟩⟩ (fun hne => absurd rfl hne)
      (by rw [List.length_nil, Nat.zero_add])
  have hplace : s.place (costOf weights) n (m + 1) = State.flip (n + 1) s' j := by
    rw [State.place, hsearch]
  have hseen : ∀ k ∈ seen, k ≤ n := fun k hk => (hexploring.taken k hk).1
  have hlength : seen.length ≤ n + 1 := by
    have hsub : seen ⊆ List.range (n + 1) := fun k hk =>
      List.mem_range.mpr (Nat.lt_succ_of_le (hseen k hk))
    have hle := (hexploring.grown.nodup.subperm hsub).length_le
    rwa [List.length_range] at hle
  obtain ⟨hflips, hbalanced⟩ :=
    (hexploring.balanced hfair hfree).flip (n + 1) hj hj0 hgrown hseen hlength
  rw [hplace]
  exact ⟨⟨s', j, hsearches, hflips⟩, hbalanced⟩

theorem Balanced.placeAll (hweights : IsSquare weights n) :
    ∀ (k : Nat) {m : Nat} {s : State}, Balanced (costOf weights) n m 0 s → m + k = n →
      Completes weights (List.range' (m + 1) k) s
          ((List.range' (m + 1) k).foldl (State.place (costOf weights) n) s) ∧
        Balanced (costOf weights) n n 0
          ((List.range' (m + 1) k).foldl (State.place (costOf weights) n) s) := by
  intro k
  induction k with
  | zero =>
    intro m s h hmk
    obtain rfl : m = n := hmk
    exact ⟨.nil, h⟩
  | succ k ih =>
    intro m s h hmk
    obtain ⟨⟨s', j, hsearches, hflips⟩, hplace⟩ := h.place hweights (by omega)
    obtain ⟨hcompletes, hbalanced⟩ := ih hplace (by omega)
    rw [List.range'_succ, List.foldl_cons]
    exact ⟨.cons hsearches hflips hcompletes, hbalanced⟩

end State

end TreePatch.Assignment
