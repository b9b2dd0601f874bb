import Mathlib.Data.List.Nodup
import TreePatch.Proofs.Forest

/-!
# Numbered rose trees

`Rose.number` lists what becomes of the nodes of a rose tree when they are numbered in preorder. Here
such a listing is read back: wherever it is stored, every number is the top of exactly one subtree, and
the links that the entries were given form a forest.
-/

namespace TreePatch.Rose

variable {α β : Type}

/-! ## Numbers of consecutive trees -/

@[simp] theorem length_topIds (start : Nat) (rs : List (Rose α)) :
    (topIds start rs).length = rs.length := by
  induction rs generalizing start with
  | nil => rfl
  | cons r rs ih => simp [topIds, ih]

theorem size_pos (r : Rose α) : 0 < r.size := by
  cases r with
  | node a rs => simp [size]

theorem size_le_sizeAll {r : Rose α} {rs : List (Rose α)} (h : r ∈ rs) : r.size ≤ sizeAll rs := by
  induction rs with
  | nil => simp at h
  | cons s rs ih =>
    rw [sizeAll]
    rcases List.mem_cons.mp h with rfl | h
    · omega
    · have := ih h
      omega

theorem sizeAll_append (rs ss : List (Rose α)) : sizeAll (rs ++ ss) = sizeAll rs + sizeAll ss := by
  induction rs with
  | nil => rw [List.nil_append, sizeAll, Nat.zero_add]
  | cons r rs ih => rw [List.cons_append, sizeAll, sizeAll, ih, Nat.add_assoc]

theorem mem_topIds_bounds {start c : Nat} {rs : List (Rose α)} (h : c ∈ topIds start rs) :
    start ≤ c ∧ c < start + sizeAll rs := by
  induction rs generalizing start with
  | nil => simp [topIds] at h
  | cons r rs ih =>
    have hpos := r.size_pos
    rw [topIds] at h
    rw [sizeAll]
    rcases List.mem_cons.mp h with rfl | h
    · omega
    · have := ih h
      omega

theorem pairwise_topIds (start : Nat) (rs : List (Rose α)) :
    (topIds start rs).Pairwise (· < ·) := by
  induction rs generalizing start with
  | nil => exact List.Pairwise.nil
  | cons r rs ih =>
    refine List.Pairwise.cons (fun c hc => ?_) (ih _)
    have := (mem_topIds_bounds hc).1
    have := r.size_pos
    omega

theorem nodup_topIds (start : Nat) (rs : List (Rose α)) : (topIds start rs).Nodup :=
  (pairwise_topIds start rs).imp fun h => Nat.ne_of_lt h

mutual

theorem length_number (entry : Rose α → Option Nat → List Nat → β) (start : Nat)
    (parent : Option Nat) : ∀ r : Rose α, (number entry start parent r).length = r.size
  | node a rs => by
    rw [number, List.length_cons, length_numberAll entry (start + 1) (some start) rs, size]

theorem length_numberAll (entry : Rose α → Option Nat → List Nat → β) (start : Nat)
    (parent : Option Nat) : ∀ rs : List (Rose α),
      (numberAll entry start parent rs).length = sizeAll rs
  | [] => rfl
  | r :: rs => by
    rw [numberAll, List.length_append, length_number entry start parent r,
      length_numberAll entry (start + r.size) parent rs, sizeAll]

end

/-- Consecutive trees with the numbers of their tops. -/
def tops (start : Nat) (rs : List (Rose α)) : List (Nat × Rose α) :=
  (topIds start rs).zip rs

theorem tops_cons (start : Nat) (r : Rose α) (rs : List (Rose α)) :
    tops start (r :: rs) = (start, r) :: tops (start + r.size) rs := rfl

theorem map_fst_tops (start : Nat) (rs : List (Rose α)) :
    (tops start rs).map (·.1) = topIds start rs := by
  rw [tops, List.map_fst_zip (by simp)]

theorem map_snd_tops (start : Nat) (rs : List (Rose α)) : (tops start rs).map (·.2) = rs := by
  rw [tops, List.map_snd_zip (by simp)]

theorem flatMap_range_tops (start : Nat) (rs : List (Rose α)) :
    ((tops start rs).flatMap fun x => List.range' x.1 x.2.size) = List.range' start (sizeAll rs) := by
  induction rs generalizing start with
  | nil => rfl
  | cons r rs ih =>
    rw [tops_cons, List.flatMap_cons, ih, sizeAll, ← List.range'_append_1]

mutual

theorem map_number {γ : Type} (f : β → γ) (entry : Rose α → Option Nat → List Nat → β) (start : Nat)
    (parent : Option Nat) : ∀ r : Rose α,
      (number entry start parent r).map f =
        number (fun s q cs => f (entry s q cs)) start parent r
  | node a rs => by
    rw [number, number, List.map_cons, map_numberAll f entry (start + 1) (some start) rs]

theorem map_numberAll {γ : Type} (f : β → γ) (entry : Rose α → Option Nat → List Nat → β)
    (start : Nat) (parent : Option Nat) : ∀ rs : List (Rose α),
      (numberAll entry start parent rs).map f =
        numberAll (fun s q cs => f (entry s q cs)) start parent rs
  | [] => rfl
  | r :: rs => by
    rw [numberAll, numberAll, List.map_append, map_number f entry start parent r,
      map_numberAll f entry (start + r.size) parent rs]

end

mutual

theorem number_value (start : Nat) (parent : Option Nat) : ∀ r : Rose α,
    number (fun s _ _ => s.value) start parent r = r.preorder
  | node a rs => by rw [number, preorder, numberAll_value (start + 1) (some start) rs]; rfl

theorem numberAll_value (start : Nat) (parent : Option Nat) : ∀ rs : List (Rose α),
    numberAll (fun s _ _ => s.value) start parent rs = preorderAll rs
  | [] => rfl
  | r :: rs => by
    rw [numberAll, preorderAll, number_value start parent r,
      numberAll_value (start + r.size) parent rs]

end

theorem length_preorder (r : Rose α) : r.preorder.length = r.size := by
  rw [← number_value 0 none, length_number]

/-! ## Stored listings -/

mutual

/-- The listing of a tree is stored in `get` from `id` on. -/
def Laid (entry : Rose α → Option Nat → List Nat → β) (get : Nat → β) (id : Nat)
    (parent : Option Nat) : Rose α → Prop
  | node a rs =>
    get id = entry (node a rs) parent (topIds (id + 1) rs) ∧
      LaidAll entry get (id + 1) (some id) rs

/-- The listing of consecutive trees below one parent is stored in `get` from `start` on. -/
def LaidAll (entry : Rose α → Option Nat → List Nat → β) (get : Nat → β) (start : Nat)
    (parent : Option Nat) : List (Rose α) → Prop
  | [] => True
  | r :: rs => Laid entry get start parent r ∧ LaidAll entry get (start + r.size) parent rs

end

variable {entry : Rose α → Option Nat → List Nat → β} {get : Nat → β}

mutual

theorem laid_of_number (start : Nat) (parent : Option Nat) : ∀ r : Rose α,
    (∀ i x, (number entry start parent r)[i]? = some x → get (start + i) = x) →
      Laid entry get start parent r
  | node a rs, h => by
    rw [number] at h
    refine ⟨h 0 _ rfl, laidAll_of_number (start + 1) (some start) rs fun i x hx => ?_⟩
    rw [show start + 1 + i = start + (i + 1) by omega]
    exact h (i + 1) x (by simpa using hx)

theorem laidAll_of_number (start : Nat) (parent : Option Nat) : ∀ rs : List (Rose α),
    (∀ i x, (numberAll entry start parent rs)[i]? = some x → get (start + i) = x) →
      LaidAll entry get start parent rs
  | [], _ => trivial
  | r :: rs, h => by
    rw [numberAll] at h
    have hlen := length_number entry start parent r
    refine ⟨laid_of_number start parent r fun i x hx => h i x ?_,
      laidAll_of_number (start + r.size) parent rs fun i x hx => ?_⟩
    · have hi : i < (number entry start parent r).length := (List.getElem?_eq_some_iff.mp hx).1
      rw [List.getElem?_append_left hi]
      exact hx
    · rw [Nat.add_assoc]
      refine h (r.size + i) x ?_
      rw [List.getElem?_append_right (by omega), hlen, Nat.add_sub_cancel_left]
      exact hx

end

theorem Laid.get_eq {id : Nat} {parent : Option Nat} {r : Rose α} (h : Laid entry get id parent r) :
    get id = entry r parent (topIds (id + 1) r.children) := by
  cases r with
  | node a rs => exact h.1

theorem LaidAll.forall₂ {start : Nat} {parent : Option Nat} {rs : List (Rose α)}
    (h : LaidAll entry get start parent rs) :
    List.Forall₂ (fun c r => Laid entry get c parent r) (topIds start rs) rs := by
  induction rs generalizing start with
  | nil => exact .nil
  | cons r rs ih => exact .cons h.1 (ih h.2)

theorem Laid.children {id : Nat} {parent : Option Nat} {r : Rose α}
    (h : Laid entry get id parent r) :
    List.Forall₂ (fun c s => Laid entry get c (some id) s) (topIds (id + 1) r.children)
      r.children := by
  cases r with
  | node a rs => exact LaidAll.forall₂ h.2

theorem Laid.tops {id : Nat} {parent : Option Nat} {r : Rose α} (h : Laid entry get id parent r) :
    ∀ x ∈ tops (id + 1) r.children, Laid entry get x.1 (some id) x.2 :=
  fun _ hx => List.forall₂_zip h.children hx

theorem size_eq (r : Rose α) : r.size = sizeAll r.children + 1 := by
  cases r with
  | node a rs => rfl

mutual

theorem Laid.map_values {γ : Type} {v : β → γ} {f : α → γ}
    (hval : ∀ s q cs, v (entry s q cs) = f s.value) (id : Nat) (parent : Option Nat) :
    ∀ r : Rose α, Laid entry get id parent r →
      (List.range' id r.size).map (fun i => v (get i)) = r.preorder.map f
  | node a rs, h => by
    rw [size, List.range'_succ, List.map_cons, h.1, hval, preorder, List.map_cons,
      LaidAll.map_values hval (id + 1) (some id) rs h.2]
    rfl

theorem LaidAll.map_values {γ : Type} {v : β → γ} {f : α → γ}
    (hval : ∀ s q cs, v (entry s q cs) = f s.value) (start : Nat) (parent : Option Nat) :
    ∀ rs : List (Rose α), LaidAll entry get start parent rs →
      (List.range' start (sizeAll rs)).map (fun i => v (get i)) = (preorderAll rs).map f
  | [], _ => rfl
  | r :: rs, h => by
    rw [sizeAll, ← List.range'_append_1, List.map_append, preorderAll, List.map_append,
      Laid.map_values hval start parent r h.1,
      LaidAll.map_values hval (start + r.size) parent rs h.2]

end

/-- What is stored at `i` between `start` and `stop`, when the trees there have the property `P`: a
subtree with that property, either one of the given tops or a child of a tree stored before it. -/
def Found (entry : Rose α → Option Nat → List Nat → β) (get : Nat → β) (P : Rose α → Prop)
    (start stop i : Nat) (top : Option Nat → Prop) : Prop :=
  ∃ q s, Laid entry get i q s ∧ P s ∧ i + s.size ≤ stop ∧
    (top q ∨ ∃ j q' s', start ≤ j ∧ j < i ∧ q = some j ∧ Laid entry get j q' s' ∧ P s' ∧
      i ∈ topIds (j + 1) s'.children)

mutual

theorem Laid.found {P : Rose α → Prop} (hP : ∀ a rs, P (node a rs) → ∀ c ∈ rs, P c) (id : Nat)
    (parent : Option Nat) (i : Nat) : ∀ r : Rose α, Laid entry get id parent r → P r → id ≤ i →
      i < id + r.size → Found entry get P id (id + r.size) i fun q => i = id ∧ q = parent
  | node a rs, h, hr, hlow, hhigh => by
    rw [size] at hhigh ⊢
    by_cases hi : i = id
    · subst hi
      exact ⟨parent, node a rs, h, hr, Nat.le_of_eq (by rw [size]), Or.inl ⟨rfl, rfl⟩⟩
    · obtain ⟨q, s, hs, hPs, hstop, hq⟩ := LaidAll.found hP (id + 1) (some id) i rs h.2 (hP a rs hr)
        (by omega) (by omega)
      refine ⟨q, s, hs, hPs, by omega, Or.inr ?_⟩
      rcases hq with ⟨hmem, rfl⟩ | ⟨j, q', s', hj, hji, hq, hs', hPs', hmem⟩
      · exact ⟨id, parent, node a rs, Nat.le_refl _, by omega, rfl, h, hr, hmem⟩
      · exact ⟨j, q', s', by omega, hji, hq, hs', hPs', hmem⟩

theorem LaidAll.found {P : Rose α → Prop} (hP : ∀ a rs, P (node a rs) → ∀ c ∈ rs, P c)
    (start : Nat) (parent : Option Nat) (i : Nat) : ∀ rs : List (Rose α),
      LaidAll entry get start parent rs → (∀ r ∈ rs, P r) → start ≤ i → i < start + sizeAll rs →
        Found entry get P start (start + sizeAll rs) i fun q => i ∈ topIds start rs ∧ q = parent
  | [], _, _, hlow, hhigh => by
    rw [sizeAll] at hhigh
    omega
  | r :: rs, h, hrs, hlow, hhigh => by
    rw [sizeAll] at hhigh ⊢
    by_cases hi : i < start + r.size
    · obtain ⟨q, s, hs, hPs, hstop, hq⟩ :=
        Laid.found hP start parent i r h.1 (hrs r (by simp)) hlow hi
      refine ⟨q, s, hs, hPs, by omega, hq.imp_left ?_⟩
      rintro ⟨rfl, rfl⟩
      exact ⟨by simp [topIds], rfl⟩
    · obtain ⟨q, s, hs, hPs, hstop, hq⟩ := LaidAll.found hP (start + r.size) parent i rs h.2
        (fun c hc => hrs c (by simp [hc])) (by omega) (by omega)
      refine ⟨q, s, hs, hPs, by omega, ?_⟩
      rcases hq with ⟨hmem, rfl⟩ | ⟨j, q', s', hj, hji, hq, hs', hPs', hmem⟩
      · exact Or.inl ⟨by simp [topIds, hmem], rfl⟩
      · exact Or.inr ⟨j, q', s', by omega, hji, hq, hs', hPs', hmem⟩

end

/-! ## The forest of a stored listing -/

/-- The listing of `r`, numbered from zero, is all that `get` holds; `par` and `kids` read the links
back that the entries were given. -/
structure Numbered (entry : Rose α → Option Nat → List Nat → β) (par : β → Option Nat)
    (kids : β → List Nat) (get : Nat → β) (r : Rose α) : Prop where
  par_entry : ∀ s q cs, par (entry s q cs) = q
  kids_entry : ∀ s q cs, kids (entry s q cs) = cs
  laid : Laid entry get 0 none r
  outside : ∀ i, r.size ≤ i → par (get i) = none ∧ kids (get i) = []

namespace Numbered

variable {par : β → Option Nat} {kids : β → List Nat} {r : Rose α}

theorem exists_laid (N : Numbered entry par kids get r) {P : Rose α → Prop}
    (hP : ∀ a rs, P (node a rs) → ∀ c ∈ rs, P c) (hr : P r) {i : Nat} (hi : i < r.size) :
    ∃ s, Laid entry get i (par (get i)) s ∧ P s ∧ i + s.size ≤ r.size ∧
      (i = 0 ∧ par (get i) = none ∨ ∃ j < i, par (get i) = some j ∧ i ∈ kids (get j)) := by
  obtain ⟨q, s, hs, hPs, hstop, hq⟩ := Laid.found hP 0 none i r N.laid hr (by omega) (by omega)
  have hpar : par (get i) = q := by rw [hs.get_eq, N.par_entry]
  rw [hpar]
  refine ⟨s, hs, hPs, by omega, ?_⟩
  rcases hq with hq | ⟨j, q', s', -, hji, hq, hs', -, hmem⟩
  · exact Or.inl hq
  · refine Or.inr ⟨j, hji, hq, ?_⟩
    rw [hs'.get_eq, N.kids_entry]
    exact hmem

theorem exists_laid_top (N : Numbered entry par kids get r) {i : Nat} (hi : i < r.size) :
    ∃ s, Laid entry get i (par (get i)) s ∧ i + s.size ≤ r.size := by
  obtain ⟨s, hs, -, hstop, -⟩ := N.exists_laid (P := fun _ => True) (fun _ _ _ _ _ => trivial)
    trivial hi
  exact ⟨s, hs, hstop⟩

theorem kids_of_laid (N : Numbered entry par kids get r) {i : Nat} {q : Option Nat} {s : Rose α}
    (h : Laid entry get i q s) : kids (get i) = topIds (i + 1) s.children := by
  rw [h.get_eq, N.kids_entry]

theorem par_of_mem_kids (N : Numbered entry par kids get r) {p c : Nat}
    (h : c ∈ kids (get p)) : par (get c) = some p := by
  by_cases hp : p < r.size
  · obtain ⟨s, hs, -⟩ := N.exists_laid_top hp
    rw [N.kids_of_laid hs] at h
    obtain ⟨k, hk, rfl⟩ := List.getElem_of_mem h
    have hlaid := (List.forall₂_iff_get.mp hs.children).2 k hk (by simpa using hk)
    simp only [List.get_eq_getElem] at hlaid
    rw [hlaid.get_eq, N.par_entry]
  · rw [(N.outside p (by omega)).2] at h
    simp at h

theorem of_par_eq_some (N : Numbered entry par kids get r) {p c : Nat}
    (h : par (get c) = some p) : p < c ∧ c < r.size ∧ c ∈ kids (get p) := by
  have hc : c < r.size := by
    by_contra hc
    rw [(N.outside c (by omega)).1] at h
    simp at h
  obtain ⟨s, -, -, -, hs⟩ := N.exists_laid (P := fun _ => True) (fun _ _ _ _ _ => trivial)
    trivial hc
  rcases hs with ⟨-, hnone⟩ | ⟨j, hjc, hj, hmem⟩
  · rw [hnone] at h
    simp at h
  · rw [hj] at h
    obtain rfl := Option.some.inj h
    exact ⟨hjc, hc, hmem⟩

theorem forest (N : Numbered entry par kids get r) :
    Forest (fun i => par (get i)) (fun i => kids (get i)) r.size where
  mem_below := ⟨N.par_of_mem_kids, fun h => (N.of_par_eq_some h).2.2⟩
  nodup p := by
    by_cases hp : p < r.size
    · obtain ⟨s, hs, -⟩ := N.exists_laid_top hp
      rw [N.kids_of_laid hs]
      exact nodup_topIds _ _
    · rw [(N.outside p (by omega)).2]
      exact List.nodup_nil
  lt_size h := by
    have := N.of_par_eq_some h
    omega
  acyclic := ⟨id, fun h => (N.of_par_eq_some h).1⟩

theorem mem_interval_iff (N : Numbered entry par kids get r) {i : Nat} {q : Option Nat} {s : Rose α}
    (h : Laid entry get i q s) (j : Nat) :
    (i ≤ j ∧ j < i + s.size) ↔
      j = i ∨ i ∈ Walk.upward (fun n => par (get n)) r.size j := by
  have F := N.forest
  constructor
  · rintro ⟨hlow, hhigh⟩
    induction j using Nat.strongRecOn with
    | _ j ih =>
      obtain ⟨q', s', hs', -, -, hq'⟩ := Laid.found (P := fun _ => True) (fun _ _ _ _ _ => trivial)
        i q j s h trivial hlow hhigh
      have hpar : par (get j) = q' := by rw [hs'.get_eq, N.par_entry]
      rcases hq' with ⟨rfl, -⟩ | ⟨k, -, -, hk, hkj, rfl, -⟩
      · exact Or.inl rfl
      · refine Or.inr (F.mem_upward_iff.mpr ⟨k, hpar, ?_⟩)
        rcases ih k hkj hk (by omega) with rfl | hmem
        · exact Or.inl rfl
        · exact Or.inr hmem
  · rintro (rfl | hmem)
    · have := s.size_pos
      omega
    · induction j using F.induction_up with
      | step j ih =>
        obtain ⟨p, hp, hip⟩ := F.mem_upward_iff.mp hmem
        have hb : i ≤ p ∧ p < i + s.size := by
          rcases hip with rfl | hip
          · have := s.size_pos
            omega
          · exact ih p hp hip
        obtain ⟨q', s', hs', -, hstop, -⟩ := Laid.found (P := fun _ => True)
          (fun _ _ _ _ _ => trivial) i q p s h trivial hb.1 hb.2
        have hj := F.mem_below.mpr hp
        rw [N.kids_of_laid hs'] at hj
        have := mem_topIds_bounds hj
        have := s'.size_eq
        omega

theorem depthFirst_laid (N : Numbered entry par kids get r) :
    ∀ (bound : Nat) (l : List (Nat × Rose α)), (∀ x ∈ l, ∃ q, Laid entry get x.1 q x.2) →
      sizeAll (l.map (·.2)) ≤ bound →
        Walk.depthFirst (fun i => kids (get i)) bound (l.map (·.1)) =
          l.flatMap fun x => List.range' x.1 x.2.size := by
  intro bound
  induction bound with
  | zero =>
    intro l _ hbound
    cases l with
    | nil => rfl
    | cons x l =>
      have := x.2.size_pos
      rw [List.map_cons, sizeAll] at hbound
      omega
  | succ bound ih =>
    intro l hl hbound
    cases l with
    | nil => rfl
    | cons x l =>
      obtain ⟨q, hx⟩ := hl x (by simp)
      have hsize := x.2.size_eq
      rw [List.map_cons, sizeAll] at hbound
      have hrest := ih (tops (x.1 + 1) x.2.children ++ l)
        (fun y hy => (List.mem_append.mp hy).elim (fun hy => ⟨_, hx.tops y hy⟩)
          (fun hy => hl y (by simp [hy])))
        (by rw [List.map_append, sizeAll_append, map_snd_tops]; omega)
      rw [List.map_append, map_fst_tops, List.flatMap_append, flatMap_range_tops] at hrest
      rw [List.map_cons, Walk.depthFirst, N.kids_of_laid hx, hrest, List.flatMap_cons, hsize,
        List.range'_succ, List.cons_append]

end Numbered

end TreePatch.Rose
