import TreePatch.Proofs.Arrangement
import TreePatch.Proofs.Clearing

/-!
# Moves and insertions

The last stage of patching, in which copies of the placed nodes are linked in one after the other. While
it runs, a kept node is live until a copy of it has been made, which happens only to thrown types and what
is below them. The children of the counterparts of live nodes are arranged as in the destination, as far
as they are represented: this is what makes every anchor and every index lead to a position, and to the
right one.
-/

namespace TreePatch

/-- What represents a destination node in the patched tree: its copy, or what is held for it. -/
def Revision.image (r : Revision) (stay : NodeId → Option NodeId) (copies : List (NodeId × NodeId))
    (x : NodeId) : Option NodeId :=
  (copies.lookup x).or (r.held stay x)

/-- The child `c` of a counterpart goes with the child `x` of the kept node without being moved. -/
def Revision.Mate (r : Revision) (stay : NodeId → Option NodeId) (updates : List (NodeId × NodeId))
    (c x : NodeId) : Prop :=
  stay x = some c ∨ (c, x) ∈ updates ∨
    (r.src.isIgnored c = true ∧ r.dst.isIgnored x = true ∧ r.held stay x = some c)

/-- The places of all children of `q` are given: what stays under its counterpart `p`, punctuation
included, stands as it does under `q`, a new member of a collection goes next to the member that it is put
beside, and new case expressions come last. -/
structure Aligned (r : Revision) (stay : NodeId → Option NodeId) (deletes : List NodeId)
    (updates : List (NodeId × NodeId)) (placed : List (NodeId × Option NodeId)) (q p : NodeId) :
    Prop where
  in_place : List.Forall₂ (r.Mate stay updates)
    ((r.src.children p).filter fun c => decide (c ∉ goneNodes deletes placed))
    ((r.dst.children q).filter fun x => decide (x ∉ placed.map (·.1)))
  beside : ∀ {x before after}, x ∈ placed.map (·.1) → r.dst.children q = before ++ x :: after →
    (r.dst.role x).isCollection = true →
      Beside r.dst.role (r.dst.role x) before (after.filter fun y => decide (y ∉ placed.map (·.1)))
  cases_last : ∀ {x}, x ∈ placed.map (·.1) → r.dst.parent? x = some q →
    r.dst.role x = .caseExpression → ComesLast r.dst.role .caseExpression (r.dst.children q)

/-- The workpiece when the nodes of `done` have been placed. -/
structure Underway (r : Revision) (stay : NodeId → Option NodeId) (deletes : List NodeId)
    (updates : List (NodeId × NodeId)) (placed : List (NodeId × Option NodeId))
    (renamed : NodeId → String → Prop) (done : List NodeId) (t : Tree)
    (copies : List (NodeId × NodeId)) : Prop where
  sound : Sound r.src r.dst renamed t copies
  inSync : t.InSync
  root_free : copies.lookup Tree.root = none
  unkept : ∀ {c c'}, (∀ q, stay q ≠ some c) → c < r.src.size → c' ∈ t.children c → c' < r.src.size
  replaced : ∀ {c x}, (c, x) ∈ updates → (copies.lookup x).isSome = true
  copied : ∀ {x}, x ∈ done → (copies.lookup x).isSome = true
  done_subset : done ⊆ placed.map (·.1)
  fresh : ∀ {q p x}, stay q = some p → copies.lookup q = none → r.dst.parent? x = some q →
    (copies.lookup x).isSome = true → x ∈ updates.map (·.2) ∨ x ∈ done ∨
      (r.dst.role x = .thrown ∧ ∃ y ∈ done, r.dst.parent? y = some q ∧ r.dst.role y = .thrown)
  renewed : ∀ {q p x y}, stay q = some p → copies.lookup q = none → y ∈ done →
    r.dst.parent? y = some q → r.dst.role y = .thrown → r.dst.parent? x = some q →
      (copies.lookup x).isSome = true
  arranged : ∀ {q p}, stay q = some p → copies.lookup q = none →
    Arranged r.src r.dst t (r.image stay copies) (Aligned r stay deletes updates placed q p) q p

theorem Tree.Regular.role_of_ignored {t : Tree} (A : t.Regular) {n p : NodeId}
    (hatt : t.isAttached p = true) (hp : t.parent? n = some p) (h : t.isIgnored n = true) :
    t.role n = .token := by
  rw [isIgnored, A.explicit hatt hp, Bool.false_or, Bool.and_eq_true, beq_iff_eq] at h
  exact h.1

theorem Tree.Regular.tracked_of_collection {t : Tree} (A : t.Regular) {n p : NodeId}
    (hatt : t.isAttached p = true) (hp : t.parent? n = some p)
    (h : (t.role n).isCollection = true) : t.isIgnored n = false := by
  by_contra hignored
  rw [A.role_of_ignored hatt hp (by simpa using hignored)] at h
  simp [Role.isCollection] at h

theorem Tree.Regular.filter_members {t : Tree} (A : t.Regular) {S : Role}
    (hS : S.isCollection = true) (f : NodeId → Bool) {p : NodeId} (hatt : t.isAttached p = true) :
    ((t.children p).filter f).filter (t.role · == S) =
      ((Outline.trackedChildren t p).filter f).filter (t.role · == S) := by
  rw [Outline.trackedChildren, List.filter_filter, List.filter_filter, List.filter_filter]
  refine List.filter_congr fun c hc => ?_
  by_cases hc' : t.role c = S
  · simp [A.tracked_of_collection hatt (A.linked.mem_children.mp hc) (hc' ▸ hS)]
  · simp [hc']

theorem filterMap_of_forall₂ {f : NodeId → Option NodeId} {g : NodeId → NodeId} {cs xs : List NodeId}
    (h : List.Forall₂ (fun c x => f x = some (g c)) cs xs) : xs.filterMap f = cs.map g := by
  induction h with
  | nil => rfl
  | cons hhead _ ih => rw [List.filterMap_cons_some hhead, List.map_cons, ih]

section

variable {r : Revision} {stay : NodeId → Option NodeId} {deletes : List NodeId}
  {updates copies : List (NodeId × NodeId)} {placed : List (NodeId × Option NodeId)}
  {renamed : NodeId → String → Prop} {done : List NodeId} {t : Tree}

theorem Underway.copied_of_brought
    (h : Underway r stay deletes updates placed renamed (placed.map (·.1)) t copies) {x : NodeId}
    (hx : Reconciled.Brought updates placed x) : (copies.lookup x).isSome = true := by
  rcases hx with hupd | hplaced
  · obtain ⟨⟨c, x'⟩, hmem, rfl⟩ := List.mem_map.mp hupd
    exact h.replaced hmem
  · exact h.copied hplaced

/-! ## Mates -/

section

variable (R : Reconciled r.src r.dst stay deletes updates placed)

include R

theorem Reconciled.tracked_of_update {c x : NodeId} (h : (c, x) ∈ updates) :
    r.src.isIgnored c = false ∧ r.dst.isIgnored x = false := by
  obtain ⟨-, -, -, -, -, hc, hx, -⟩ := R.update h
  exact ⟨hc, hx⟩

theorem Revision.Mate.role (As : r.src.Regular) (Ad : r.dst.Regular) {q p c x : NodeId}
    (hqp : stay q = some p) (hc : r.src.parent? c = some p) (hx : r.dst.parent? x = some q)
    (h : r.Mate stay updates c x) : r.src.role c = r.dst.role x := by
  rcases h with hkept | hupd | ⟨hci, hxi, -⟩
  · exact R.role hkept
  · obtain ⟨-, -, -, -, -, -, -, hrole, -⟩ := R.update hupd
    exact hrole
  · have hkept := R.ancestors_kept As.linked Ad.linked hqp
    rw [As.role_of_ignored hkept.1 hc hci, Ad.role_of_ignored hkept.2.1 hx hxi]

theorem Revision.Mate.not_gone {c x : NodeId} (h : r.Mate stay updates c x) :
    c ∉ goneNodes deletes placed := by
  intro hmem
  obtain ⟨-, -, htracked, hkept, hupd⟩ := R.gone hmem
  rcases h with hx | hx | ⟨hignored, -⟩
  · exact hkept x hx
  · exact hupd x hx
  · rw [hignored] at htracked
    simp at htracked

theorem Reconciled.exists_mate (L : r.src.Linked) {q p c : NodeId} (hqp : stay q = some p)
    (hc : r.src.parent? c = some p) (htracked : r.src.isIgnored c = false)
    (hgone : c ∉ goneNodes deletes placed) :
    ∃ x, r.dst.parent? x = some q ∧ r.Mate stay updates c x := by
  rcases R.src_child hqp hc htracked with ⟨x, hx⟩ | ⟨x, hx⟩ | hgone'
  · have hne : x ≠ Tree.root := by
      rintro rfl
      obtain rfl := Option.some.inj (R.root.symm.trans hx)
      exact L.ne_root_of_parent hc rfl
    obtain ⟨q', p', hq', hp', hstay⟩ := R.parent hx hne
    obtain rfl := Option.some.inj (hc.symm.trans hp')
    obtain rfl := R.injective hqp hstay
    exact ⟨x, hq', Or.inl hx⟩
  · obtain ⟨q', p', hstay, hp', hq', -⟩ := R.update hx
    obtain rfl := Option.some.inj (hc.symm.trans hp')
    obtain rfl := R.injective hqp hstay
    exact ⟨x, hq', Or.inr (Or.inl hx)⟩
  · exact absurd hgone' hgone

theorem Reconciled.mate_of_held (C : Corresponds r stay) (D : r.dst.Linked) {q p c x : NodeId}
    (hqp : stay q = some p) (hx : r.dst.parent? x = some q) (h : r.held stay x = some c) :
    r.src.parent? c = some p ∧ r.Mate stay updates c x := by
  rcases C.of_held h with hkept | ⟨hignored, hignored', q', p', hstay, hq', hp'⟩
  · obtain ⟨q', p', hq', hp', hstay⟩ := R.parent hkept (D.ne_root_of_parent hx)
    obtain rfl := Option.some.inj (hx.symm.trans hq')
    obtain rfl := Option.some.inj (hqp.symm.trans hstay)
    exact ⟨hp', Or.inl hkept⟩
  · obtain rfl := Option.some.inj (hx.symm.trans hq')
    obtain rfl := Option.some.inj (hqp.symm.trans hstay)
    exact ⟨hp', Or.inr (Or.inr ⟨hignored', hignored, h⟩)⟩

end

/-! ## From cleared to underway -/

namespace Cleared

variable (R : Reconciled r.src r.dst stay deletes updates placed)
  (h : Cleared r.src r.dst stay updates renamed (goneNodes deletes placed) updates t copies)

include R h

theorem exists_update_of_copied {q p x : NodeId} (hqp : stay q = some p)
    (hx : r.dst.parent? x = some q) (hcopied : copies.lookup x ≠ none) :
    ∃ c, (c, x) ∈ updates ∧ r.src.parent? c = some p := by
  obtain ⟨⟨c, x'⟩, hmem, rfl⟩ := List.mem_map.mp
    (h.fresh hqp hx (Option.isSome_iff_ne_none.mpr hcopied))
  obtain ⟨q', p', hstay, hp', hq', -⟩ := R.update hmem
  obtain rfl := Option.some.inj (hx.symm.trans hq')
  obtain rfl := Option.some.inj (hqp.symm.trans hstay)
  exact ⟨c, hmem, hp'⟩

theorem image_of_mate {q p c x : NodeId} (hqp : stay q = some p) (hx : r.dst.parent? x = some q)
    (hmate : r.Mate stay updates c x) :
    r.image stay copies x = some (substitute updates copies c) := by
  rw [Revision.image]
  rcases hmate with hstay | hupd | ⟨hc, hx', hheld⟩
  · rw [h.kept_free hstay, Option.none_or, Revision.held_of_stay hstay,
      substitute_of_notMem fun y hy => (R.update_fresh hy).2.1 x hstay]
  · obtain ⟨c', hc'⟩ := Option.isSome_iff_exists.mp (h.replaced hupd)
    rw [substitute_of_mem R.updates_oneToOne hupd, hc', Option.some_or, Option.getD_some]
  · have hnone : copies.lookup x = none := by
      by_contra hcopied
      obtain ⟨c', hmem, -⟩ := h.exists_update_of_copied R hqp hx hcopied
      simp [(R.tracked_of_update hmem).2] at hx'
    rw [hnone, Option.none_or, hheld, substitute_of_notMem fun y hy => ?_]
    simp [(R.tracked_of_update hy).1] at hc

theorem image_of_placed {x : NodeId} (hx : x ∈ placed.map (·.1)) : r.image stay copies x = none := by
  have hbrought : Reconciled.Brought updates placed x := Or.inr hx
  obtain ⟨-, -, q, p, hqp, hq⟩ := R.of_brought hbrought
  have hnone : copies.lookup x = none := by
    by_contra hcopied
    obtain ⟨c, hmem, -⟩ := h.exists_update_of_copied R hqp hq hcopied
    exact (R.update_fresh hmem).2.2 hx
  rw [Revision.image, hnone, Option.none_or, R.held_of_brought hbrought]

theorem filterMap_image (xs : List NodeId) :
    (xs.filter fun x => decide (x ∉ placed.map (·.1))).filterMap (r.image stay copies) =
      xs.filterMap (r.image stay copies) := by
  rw [List.filterMap_filter]
  refine List.filterMap_congr fun x _ => ?_
  by_cases hx : x ∈ placed.map (·.1)
  · rw [if_neg (by simpa using hx), h.image_of_placed R hx]
  · rw [if_pos (by simpa using hx)]

theorem filterMap_of_mates {q p : NodeId} {cs xs : List NodeId} (hqp : stay q = some p)
    (hxs : ∀ x ∈ xs, r.dst.parent? x = some q) (hmates : List.Forall₂ (r.Mate stay updates) cs xs) :
    xs.filterMap (r.image stay copies) = cs.map (substitute updates copies) :=
  filterMap_of_forall₂ <| forall₂_imp_of_mem hmates fun _ _ x hx hmate =>
    h.image_of_mate R hqp (hxs x hx) hmate

theorem role_substitute {c p : NodeId} (hc : r.src.parent? c = some p) :
    t.role (substitute updates copies c) = r.src.role c := by
  rcases substitute_cases updates copies c with heq | ⟨x, hx, hcopy⟩
  · rw [heq, Tree.role_of_content (h.sound.content c (r.src.lt_size_of_parent hc))]
  · obtain ⟨-, -, -, -, -, -, -, hrole, -⟩ := R.update hx
    rw [h.sound.copy_role hcopy, hrole]

variable (As : r.src.Regular) (Ad : r.dst.Regular)

include As Ad

theorem mem_children_iff (C : Corresponds r stay) {q p c' : NodeId} (hqp : stay q = some p) :
    c' ∈ t.children p ↔ (∃ x ∈ r.dst.children q, r.image stay copies x = some c') ∨
      (c' ∈ r.src.children p ∧ r.src.isIgnored c' = true) := by
  have hself : ∀ {c}, r.src.isIgnored c = true → substitute updates copies c = c := fun hc =>
    substitute_of_notMem fun y hy => by simp [(R.tracked_of_update hy).1] at hc
  rw [h.children hqp, List.mem_map]
  constructor
  · rintro ⟨c, hc, rfl⟩
    obtain ⟨hc, hgone⟩ := List.mem_filter.mp hc
    cases hignored : r.src.isIgnored c with
    | true => exact Or.inr (by rw [hself hignored]; exact ⟨hc, hignored⟩)
    | false =>
      obtain ⟨x, hx, hmate⟩ := R.exists_mate As.linked hqp (As.linked.mem_children.mp hc) hignored
        (of_decide_eq_true hgone)
      exact Or.inl ⟨x, Ad.linked.mem_children.mpr hx, h.image_of_mate R hqp hx hmate⟩
  · rintro (⟨x, hx, himage⟩ | ⟨hc, hignored⟩)
    · have hq := Ad.linked.mem_children.mp hx
      have hmate : ∃ c, r.src.parent? c = some p ∧ r.Mate stay updates c x := by
        cases hcopy : copies.lookup x with
        | some _ =>
          obtain ⟨c, hmem, hp⟩ := h.exists_update_of_copied R hqp hq (by simp [hcopy])
          exact ⟨c, hp, Or.inr (Or.inl hmem)⟩
        | none =>
          rw [Revision.image, hcopy, Option.none_or] at himage
          exact ⟨c', R.mate_of_held C Ad.linked hqp hq himage⟩
      obtain ⟨c, hp, hmate⟩ := hmate
      refine ⟨c, List.mem_filter.mpr ⟨As.linked.mem_children.mpr hp, ?_⟩, ?_⟩
      · exact decide_eq_true (hmate.not_gone R)
      · exact Option.some.inj ((h.image_of_mate R hqp hq hmate).symm.trans himage)
    · refine ⟨c', List.mem_filter.mpr ⟨hc, decide_eq_true fun hmem => ?_⟩, hself hignored⟩
      simp [(R.gone hmem).2.2.1] at hignored

theorem childrenWithRole_eq {q p : NodeId} (hqp : stay q = some p) {S : Role}
    (hS : S.isCollection = true) :
    t.childrenWithRole p S = (r.dst.childrenWithRole q S).filterMap (r.image stay copies) := by
  have hmates : List.Forall₂ (r.Mate stay updates)
      (((r.src.children p).filter fun c => decide (c ∉ goneNodes deletes placed)).filter
        (r.src.role · == S))
      (((r.dst.children q).filter fun x => decide (x ∉ placed.map (·.1))).filter
        (r.dst.role · == S)) := by
    have hkept := R.ancestors_kept As.linked Ad.linked hqp
    rw [As.filter_members hS _ hkept.1, Ad.filter_members hS _ hkept.2.1]
    refine forall₂_filter ((R.order hqp).imp fun c x hcx => hcx.imp_right Or.inl)
      fun c x hc hx hmate => ?_
    have hc := As.linked.mem_children.mp (List.mem_of_mem_filter (List.mem_of_mem_filter hc))
    have hx := Ad.linked.mem_children.mp (List.mem_of_mem_filter (List.mem_of_mem_filter hx))
    rw [hmate.role R As Ad hqp hc hx]
  calc t.childrenWithRole p S
      = (((r.src.children p).filter fun c => decide (c ∉ goneNodes deletes placed)).filter
          (r.src.role · == S)).map (substitute updates copies) := by
        rw [Tree.childrenWithRole, h.children hqp, List.filter_map]
        congr 1
        refine List.filter_congr fun c hc => ?_
        have hc := As.linked.mem_children.mp (List.mem_of_mem_filter hc)
        rw [Function.comp_apply, h.role_substitute R hc]
    _ = (((r.dst.children q).filter fun x => decide (x ∉ placed.map (·.1))).filter
          (r.dst.role · == S)).filterMap (r.image stay copies) :=
        (h.filterMap_of_mates R hqp (fun x hx => Ad.linked.mem_children.mp
          (List.mem_of_mem_filter (List.mem_of_mem_filter hx))) hmates).symm
    _ = (r.dst.childrenWithRole q S).filterMap (r.image stay copies) := by
        rw [List.filter_comm, h.filterMap_image R, Tree.childrenWithRole]

/-- **Before anything is placed, the children are arranged.** -/
theorem underway (C : Corresponds r stay) :
    Underway r stay deletes updates placed renamed [] t copies where
  sound := h.sound
  inSync := h.inSync
  root_free := h.kept_free R.root
  unkept := h.unkept
  replaced := h.replaced
  copied hx := by simp at hx
  done_subset := List.nil_subset _
  fresh {q p x} hqp _ hx hsome := by
    obtain ⟨c, hmem, -⟩ := h.exists_update_of_copied R hqp hx (Option.isSome_iff_ne_none.mp hsome)
    exact Or.inl (List.mem_map.mpr ⟨(c, x), hmem, rfl⟩)
  renewed _ _ hy := by simp at hy
  arranged {q p} hqp _ :=
    { mem := h.mem_children_iff R As Ad C hqp
      collection := h.childrenWithRole_eq R As Ad hqp
      exact := fun haligned => by
        rw [h.children hqp, ← h.filterMap_image R]
        exact (h.filterMap_of_mates R hqp
          (fun x hx => Ad.linked.mem_children.mp (List.mem_of_mem_filter hx)) haligned.in_place).symm }

end Cleared

end

end TreePatch
