import Mathlib.Data.List.Nodup
import Mathlib.Data.List.Perm.Subperm
import Mathlib.Logic.Relation
import TreePatch.Rose

/-!
# Forests on numbers

Nodes that are numbers, each with at most one node above it and a list of nodes below it. The walks
of `Walk` carry a bound on the nodes they visit; in a forest with fewer nodes than that they obey the
recursion one expects, and the bound is never seen.
-/

namespace TreePatch

theorem Rose.preorderAll_eq_flatMap {α : Type} (rs : List (Rose α)) :
    Rose.preorderAll rs = rs.flatMap Rose.preorder := by
  induction rs with
  | nil => rfl
  | cons r rs ih => rw [Rose.preorderAll, ih, List.flatMap_cons]

/-! ## Growing to the end -/

namespace Rose

variable {next : Nat → List Nat} {size : Nat}

theorem not_cyclic_of_acc {n : Nat} (h : Acc (fun c p => c ∈ next p) n) :
    ¬ Relation.TransGen (fun c p => c ∈ next p) n n := by
  induction acc_transGen_iff.mpr h with
  | intro n _ ih => exact fun hcycle => ih n hcycle (h.inv_of_transGen hcycle) hcycle

/-- Where going down comes to an end, one more level changes nothing once the nodes `above` and the levels
left make up `size`: no node is met twice on the way down. -/
theorem unfold_succ_of_acc (hsize : ∀ n, next n ≠ [] → n < size) {k n : Nat} {above : List Nat}
    (h : Acc (fun c p => c ∈ next p) n) (hnodup : above.Nodup) (habove : ∀ a ∈ above, a < size)
    (hdown : ∀ a ∈ above, Relation.TransGen (fun c p => c ∈ next p) n a)
    (hk : size ≤ k + above.length) : unfold next (k + 1) n = unfold next k n := by
  have hnodup' : (n :: above).Nodup :=
    List.nodup_cons.mpr ⟨fun hmem => not_cyclic_of_acc h (hdown n hmem), hnodup⟩
  induction k generalizing n above with
  | zero =>
    have hnext : next n = [] := by
      by_contra hnext
      have hsub : n :: above ⊆ List.range size := by
        intro a ha
        rw [List.mem_range]
        rcases List.mem_cons.mp ha with rfl | ha
        · exact hsize a hnext
        · exact habove a ha
      have hle := (List.subperm_of_subset hnodup' hsub).length_le
      rw [List.length_cons, List.length_range] at hle
      omega
    simp [unfold, hnext]
  | succ k ih =>
    rw [unfold, unfold]
    congr 1
    refine List.map_congr_left fun c hc => ?_
    have hdown' : ∀ a ∈ n :: above, Relation.TransGen (fun c p => c ∈ next p) c a :=
      List.forall_mem_cons.mpr ⟨.single hc, fun a ha => .head hc (hdown a ha)⟩
    refine ih (h.inv hc) hnodup'
      (List.forall_mem_cons.mpr ⟨hsize n (List.ne_nil_of_mem hc), habove⟩) hdown' ?_
      (List.nodup_cons.mpr ⟨fun hmem => not_cyclic_of_acc (h.inv hc) (hdown' c hmem), hnodup'⟩)
    rw [List.length_cons]
    omega

theorem unfold_eq_of_acc (hsize : ∀ n, next n ≠ [] → n < size) {n : Nat}
    (h : Acc (fun c p => c ∈ next p) n) :
    unfold next size n = node n ((next n).map (unfold next size)) := by
  rw [← unfold_succ_of_acc hsize h List.nodup_nil (by simp) (by simp) (by simp), unfold]

end Rose

/-! ## Links -/

/-- The links of a forest on the numbers below `size`: both directions describe the same edges, no node
is listed twice below another, and going up never comes back. -/
structure Forest (above : Nat → Option Nat) (below : Nat → List Nat) (size : Nat) : Prop where
  mem_below : ∀ {p c}, c ∈ below p ↔ above c = some p
  nodup : ∀ p, (below p).Nodup
  lt_size : ∀ {p c}, above c = some p → p < size ∧ c < size
  acyclic : ∃ rank : Nat → Nat, ∀ {p c}, above c = some p → rank p < rank c

namespace Forest

variable {above : Nat → Option Nat} {below : Nat → List Nat} {size : Nat}

/-! ## Going up -/

theorem induction_up (F : Forest above below size) {P : Nat → Prop}
    (step : ∀ n, (∀ p, above n = some p → P p) → P n) (n : Nat) : P n := by
  obtain ⟨rank, hrank⟩ := F.acyclic
  induction hr : rank n using Nat.strongRecOn generalizing n with
  | _ r ih =>
    subst hr
    exact step n fun p hp => ih _ (hrank hp) p rfl

theorem upward_lt_size (F : Forest above below size) {n : Nat} :
    ∀ {b a : Nat}, a ∈ Walk.upward above b n → a < size := by
  intro b
  induction b generalizing n with
  | zero => simp [Walk.upward]
  | succ b ih =>
    intro a ha
    rw [Walk.upward] at ha
    cases hn : above n with
    | none => simp [hn] at ha
    | some p =>
      rw [hn] at ha
      rcases List.mem_cons.mp ha with rfl | ha
      · exact (F.lt_size hn).1
      · exact ih ha

theorem rank_lt_of_mem_upward {rank : Nat → Nat}
    (hrank : ∀ {p c}, above c = some p → rank p < rank c) :
    ∀ {b n a : Nat}, a ∈ Walk.upward above b n → rank a < rank n := by
  intro b
  induction b with
  | zero => simp [Walk.upward]
  | succ b ih =>
    intro n a ha
    rw [Walk.upward] at ha
    cases hn : above n with
    | none => simp [hn] at ha
    | some p =>
      rw [hn] at ha
      rcases List.mem_cons.mp ha with rfl | ha
      · exact hrank hn
      · exact Nat.lt_trans (ih ha) (hrank hn)

theorem nodup_upward (F : Forest above below size) (b n : Nat) :
    (n :: Walk.upward above b n).Nodup := by
  obtain ⟨rank, hrank⟩ := F.acyclic
  induction b generalizing n with
  | zero => simp [Walk.upward]
  | succ b ih =>
    refine List.nodup_cons.mpr ⟨fun h => ?_, ?_⟩
    · exact Nat.lt_irrefl _ (rank_lt_of_mem_upward hrank h)
    · rw [Walk.upward]
      cases hn : above n with
      | none => simp
      | some p => exact ih p

theorem length_upward_lt (F : Forest above below size) {n p : Nat} (b : Nat)
    (hn : above n = some p) : (Walk.upward above b n).length < size := by
  have hsub : n :: Walk.upward above b n ⊆ List.range size := by
    intro a ha
    rw [List.mem_range]
    rcases List.mem_cons.mp ha with rfl | ha
    · exact (F.lt_size hn).2
    · exact F.upward_lt_size ha
  have hle := (List.subperm_of_subset (F.nodup_upward b n) hsub).length_le
  rw [List.length_cons, List.length_range] at hle
  omega

theorem upward_succ_of_length_lt :
    ∀ {b n : Nat}, (Walk.upward above b n).length < b →
      Walk.upward above (b + 1) n = Walk.upward above b n := by
  intro b
  induction b with
  | zero => intro n h; simp at h
  | succ b ih =>
    intro n h
    rw [Walk.upward] at h ⊢
    rw [Walk.upward]
    cases hn : above n with
    | none => rfl
    | some p =>
      rw [hn] at h
      simp only [List.length_cons, Nat.add_lt_add_iff_right] at h
      simp only [ih h]

theorem upward_of_none {b n : Nat} (hn : above n = none) : Walk.upward above b n = [] := by
  cases b with
  | zero => rfl
  | succ b => simp [Walk.upward, hn]

theorem upward_of_some (F : Forest above below size) {n p : Nat} (hn : above n = some p) :
    Walk.upward above size n = p :: Walk.upward above size p := by
  obtain ⟨k, rfl⟩ : ∃ k, size = k + 1 := ⟨size - 1, by have := (F.lt_size hn).1; omega⟩
  have hlen := F.length_upward_lt (k + 1) hn
  have hstep : Walk.upward above (k + 1) n = p :: Walk.upward above k p := by
    rw [Walk.upward, hn]
  rw [hstep, List.length_cons, Nat.add_lt_add_iff_right] at hlen
  rw [hstep, upward_succ_of_length_lt hlen]

theorem mem_upward_iff (F : Forest above below size) {n a : Nat} :
    a ∈ Walk.upward above size n ↔
      ∃ p, above n = some p ∧ (a = p ∨ a ∈ Walk.upward above size p) := by
  cases hn : above n with
  | none => simp [upward_of_none hn]
  | some p => simp [F.upward_of_some hn]

theorem not_mem_upward_self (F : Forest above below size) (n : Nat) :
    n ∉ Walk.upward above size n :=
  (List.nodup_cons.mp (F.nodup_upward size n)).1

theorem mem_upward_trans (F : Forest above below size) {a b : Nat} (c : Nat)
    (hab : a ∈ Walk.upward above size b) (hbc : b ∈ Walk.upward above size c) :
    a ∈ Walk.upward above size c := by
  induction c using F.induction_up with
  | step c ih =>
    obtain ⟨p, hp, hb⟩ := F.mem_upward_iff.mp hbc
    refine F.mem_upward_iff.mpr ⟨p, hp, Or.inr ?_⟩
    rcases hb with rfl | hb
    · exact hab
    · exact ih p hp hb

theorem comparable (F : Forest above below size) {a b : Nat} (n : Nat)
    (ha : a ∈ n :: Walk.upward above size n) (hb : b ∈ n :: Walk.upward above size n) :
    a = b ∨ a ∈ Walk.upward above size b ∨ b ∈ Walk.upward above size a := by
  induction n using F.induction_up with
  | step n ih =>
    rcases List.mem_cons.mp ha with rfl | ha
    · rcases List.mem_cons.mp hb with rfl | hb
      · exact Or.inl rfl
      · exact Or.inr (Or.inr hb)
    · rcases List.mem_cons.mp hb with rfl | hb
      · exact Or.inr (Or.inl ha)
      · obtain ⟨p, hp, ha⟩ := F.mem_upward_iff.mp ha
        obtain ⟨p', hp', hb⟩ := F.mem_upward_iff.mp hb
        obtain rfl : p = p' := Option.some.inj (hp ▸ hp')
        exact ih p hp (List.mem_cons.mpr ha) (List.mem_cons.mpr hb)

/-! ## Going down -/

theorem acc (F : Forest above below size) (n : Nat) : Acc (fun c p => c ∈ below p) n := by
  induction hk : size - (Walk.upward above size n).length using Nat.strongRecOn generalizing n with
  | ind k ih =>
    refine .intro n fun c hc => ih _ ?_ c rfl
    have hlen := F.length_upward_lt size (F.mem_below.mp hc)
    rw [F.upward_of_some (F.mem_below.mp hc), List.length_cons] at hlen ⊢
    omega

theorem unfold_eq (F : Forest above below size) (n : Nat) :
    Rose.unfold below size n = .node n ((below n).map (Rose.unfold below size)) := by
  refine Rose.unfold_eq_of_acc (fun p hp => ?_) (F.acc n)
  obtain ⟨c, hc⟩ := List.exists_mem_of_ne_nil _ hp
  exact (F.lt_size (F.mem_below.mp hc)).1

theorem exists_child_toward (F : Forest above below size) {n : Nat} (y : Nat)
    (h : n ∈ Walk.upward above size y) :
    ∃ c, above c = some n ∧ (y = c ∨ c ∈ Walk.upward above size y) := by
  induction y using F.induction_up with
  | step y ih =>
    obtain ⟨p, hp, hn⟩ := F.mem_upward_iff.mp h
    rcases hn with rfl | hn
    · exact ⟨y, hp, Or.inl rfl⟩
    · obtain ⟨c, hc, hpc⟩ := ih p hp hn
      exact ⟨c, hc, Or.inr (F.mem_upward_iff.mpr ⟨p, hp, hpc.imp_left Eq.symm⟩)⟩

theorem of_mem_preorder_unfold (F : Forest above below size) {y : Nat} :
    ∀ {k n : Nat}, y ∈ (Rose.unfold below k n).preorder → y = n ∨ n ∈ Walk.upward above size y := by
  intro k
  induction k with
  | zero =>
    intro n hy
    exact Or.inl (by simpa [Rose.unfold, Rose.preorder, Rose.preorderAll] using hy)
  | succ k ih =>
    intro n hy
    rw [Rose.unfold, Rose.preorder, Rose.preorderAll_eq_flatMap, List.mem_cons, List.mem_flatMap] at hy
    rcases hy with hy | ⟨r, hr, hy⟩
    · exact Or.inl hy
    · obtain ⟨c, hc, rfl⟩ := List.mem_map.mp hr
      have hcn : n ∈ Walk.upward above size c :=
        F.mem_upward_iff.mpr ⟨n, F.mem_below.mp hc, Or.inl rfl⟩
      rcases ih hy with rfl | hcy
      · exact Or.inr hcn
      · exact Or.inr (F.mem_upward_trans y hcn hcy)

theorem mem_preorder_unfold (F : Forest above below size) {n y : Nat} :
    y ∈ (Rose.unfold below size n).preorder ↔ y = n ∨ n ∈ Walk.upward above size y := by
  refine ⟨F.of_mem_preorder_unfold, fun h => ?_⟩
  suffices hk : ∀ k n, size ≤ k + (Walk.upward above size n).length →
      (y = n ∨ n ∈ Walk.upward above size y) → y ∈ (Rose.unfold below k n).preorder from
    hk size n (by omega) h
  intro k
  induction k with
  | zero =>
    intro n hn h
    rcases h with rfl | h
    · simp [Rose.unfold, Rose.preorder]
    · obtain ⟨c, hc, -⟩ := F.exists_child_toward y h
      have hlen := F.length_upward_lt size hc
      rw [F.upward_of_some hc, List.length_cons] at hlen
      omega
  | succ k ih =>
    intro n hn h
    rw [Rose.unfold, Rose.preorder, Rose.preorderAll_eq_flatMap, List.mem_cons, List.mem_flatMap]
    rcases h with rfl | h
    · exact Or.inl rfl
    · obtain ⟨c, hc, hy⟩ := F.exists_child_toward y h
      refine Or.inr ⟨_, List.mem_map_of_mem (F.mem_below.mpr hc), ih c ?_ hy⟩
      rw [F.upward_of_some hc, List.length_cons]
      omega

theorem nodup_preorder_unfold (F : Forest above below size) :
    ∀ k n : Nat, (Rose.unfold below k n).preorder.Nodup := by
  intro k
  induction k with
  | zero => simp [Rose.unfold, Rose.preorder, Rose.preorderAll]
  | succ k ih =>
    intro n
    rw [Rose.unfold, Rose.preorder, Rose.preorderAll_eq_flatMap, List.nodup_cons, List.flatMap_map]
    refine ⟨fun hmem => ?_, List.nodup_flatMap.mpr ⟨fun c _ => ih c, ?_⟩⟩
    · obtain ⟨c, hc, hn⟩ := List.mem_flatMap.mp hmem
      have hcn : n ∈ Walk.upward above size c :=
        F.mem_upward_iff.mpr ⟨n, F.mem_below.mp hc, Or.inl rfl⟩
      rcases F.of_mem_preorder_unfold hn with rfl | hnc
      · exact F.not_mem_upward_self _ hcn
      · exact F.not_mem_upward_self _ (F.mem_upward_trans n hcn hnc)
    · refine (F.nodup n).imp_of_mem fun {c c'} hc hc' hne y hy hy' => hne ?_
      have hup : ∀ {a b}, a ∈ below n → b ∈ below n → a ∈ Walk.upward above size b → False := by
        intro a b ha hb hab
        obtain ⟨p, hp, hap⟩ := F.mem_upward_iff.mp hab
        obtain rfl := Option.some.inj (hp.symm.trans (F.mem_below.mp hb))
        have hna : p ∈ Walk.upward above size a :=
          F.mem_upward_iff.mpr ⟨p, F.mem_below.mp ha, Or.inl rfl⟩
        rcases hap with rfl | hap
        · exact F.not_mem_upward_self _ hna
        · exact F.not_mem_upward_self _ (F.mem_upward_trans p hna hap)
      have hcy := List.mem_cons.mpr ((F.of_mem_preorder_unfold hy).imp_left Eq.symm)
      have hcy' := List.mem_cons.mpr ((F.of_mem_preorder_unfold hy').imp_left Eq.symm)
      rcases F.comparable y hcy hcy' with heq | hlt | hlt
      · exact heq
      · exact (hup hc hc' hlt).elim
      · exact (hup hc' hc hlt).elim

end Forest

end TreePatch
