import TreePatch.Proofs.Addressing

/-!
# What plans and patches name

A plan holds what its patches ask for, with the paths resolved in the tree that is patched: it names only
nodes of that tree (`Plan.Within`). Patches that were generated, whatever the operations, bring a node in
under the counterpart of its parent, or under the copy of its parent if there is no counterpart.
-/

namespace TreePatch

/-! ## Plans -/

/-- The units declare nodes of the tree, and no numbers that a copy could get later on. -/
def Tree.DeclaresOwn (t : Tree) : Prop :=
  ∀ u ∈ t.units, ∀ n ∈ u.declaredTypes, n < t.size

theorem Tree.InSync.declaresOwn {t : Tree} (h : t.InSync) (L : t.Linked) : t.DeclaresOwn := by
  obtain ⟨u, hunits, hdeclared⟩ := h
  intro u' hu' n hn
  rw [hunits, List.mem_singleton] at hu'
  rw [hu', hdeclared] at hn
  exact t.lt_size_of_parent (L.mem_childrenWithRole.mp hn).1

theorem Tree.DeclaresOwn.lt_size_of_resolve {t : Tree} (h : t.DeclaresOwn) (L : t.Linked) {path : Path}
    {n : NodeId} (hn : t.resolve path = some n) : n < t.size := by
  suffices hrun : ∀ (steps : List Step) m, m < t.size → steps.foldlM t.follow m = some n → n < t.size from
    hrun path.steps root L.root_lt hn
  intro steps
  induction steps with
  | nil =>
    intro m hm hrun
    obtain rfl : m = n := Option.some.inj hrun
    exact hm
  | cons step steps ih =>
    intro m hm hrun
    rw [List.foldlM_cons, Option.bind_eq_bind, Option.bind_eq_some_iff] at hrun
    obtain ⟨c, hc, hrun⟩ := hrun
    refine ih c ?_ hrun
    rw [follow] at hc
    split at hc
    · obtain ⟨candidates, hcandidates, hget⟩ := Option.bind_eq_some_iff.mp hc
      rw [onlyUnit] at hcandidates
      split at hcandidates
      · next u hunits =>
        obtain rfl : u.declaredTypes = candidates := Option.some.inj hcandidates
        exact h u (by rw [hunits]; exact List.mem_singleton_self u) c (List.mem_of_getElem? hget)
      · simp [Except.toOption] at hcandidates
    · exact t.lt_size_of_parent (L.mem_childrenWithRole.mp (List.mem_of_getElem? hc)).1

namespace Plan

/-- The parts of a plan come from the patches, their paths resolved in `t`. -/
structure MadeOf (t : Tree) (patches : List Patch) (plan : Plan) : Prop where
  deletes : ∀ n ∈ plan.deletes, ∃ path, Patch.delete path ∈ patches ∧ t.resolve path = some n
  updates : ∀ q ∈ plan.updates, ∃ path, Patch.update path q.2 ∈ patches ∧ t.resolve path = some q.1
  placements : ∀ pl ∈ plan.placements, (∃ patch ∈ patches, patch.insertion? = some pl.insertion) ∧
    (∀ n, pl.source = some n → ∃ path, t.resolve path = some n) ∧
      locateParent t pl.insertion.parent = .ok pl.parent

variable {t : Tree} {patches : List Patch} {plan plan' : Plan}

theorem resolve_of_locate {path : Path} {n : NodeId} (h : locate t path = .ok n) :
    t.resolve path = some n := by
  rw [locate] at h
  split at h
  · next hn => rwa [← Except.ok.inj h]
  · simp at h

theorem MadeOf.place (h : MadeOf t patches plan) {patch : Patch} {i : Insertion}
    {source : Option NodeId} {pl : Placement} (hmem : patch ∈ patches) (hi : patch.insertion? = some i)
    (hsource : ∀ n, source = some n → ∃ path, t.resolve path = some n)
    (hpl : locateInsertion t source i = .ok pl) :
    MadeOf t patches { plan with placements := plan.placements ++ [pl] } where
  deletes := h.deletes
  updates := h.updates
  placements pl' hpl' := by
    rcases List.mem_append.mp hpl' with hpl' | hpl'
    · exact h.placements pl' hpl'
    · obtain rfl := List.mem_singleton.mp hpl'
      obtain ⟨hinsertion, hsrc, hparent⟩ := of_locateInsertion hpl
      rw [hinsertion, hsrc]
      exact ⟨⟨patch, hmem, hi⟩, hsource, hparent⟩

theorem MadeOf.add (h : MadeOf t patches plan) {patch : Patch} (hmem : patch ∈ patches)
    (hadd : add t plan patch = .ok plan') : MadeOf t patches plan' := by
  cases patch with
  | delete target =>
    obtain ⟨id, hid, hadd⟩ := bind_eq_ok.mp hadd
    obtain rfl := Except.ok.inj hadd
    refine ⟨fun n hn => ?_, h.updates, h.placements⟩
    rcases List.mem_append.mp hn with hn | hn
    · exact h.deletes n hn
    · exact ⟨target, hmem, List.mem_singleton.mp hn ▸ resolve_of_locate hid⟩
  | update target replacement =>
    obtain ⟨id, hid, hadd⟩ := bind_eq_ok.mp hadd
    obtain rfl := Except.ok.inj hadd
    refine ⟨h.deletes, fun q hq => ?_, h.placements⟩
    rcases List.mem_append.mp hq with hq | hq
    · exact h.updates q hq
    · obtain rfl := List.mem_singleton.mp hq
      exact ⟨target, hmem, resolve_of_locate hid⟩
  | insert i =>
    obtain ⟨pl, hpl, hadd⟩ := bind_eq_ok.mp hadd
    obtain rfl := Except.ok.inj hadd
    exact h.place hmem rfl (by simp) hpl
  | move source i =>
    obtain ⟨id, hid, hadd⟩ := bind_eq_ok.mp hadd
    obtain ⟨pl, hpl, hadd⟩ := bind_eq_ok.mp hadd
    obtain rfl := Except.ok.inj hadd
    refine h.place hmem rfl (fun n hn => ⟨source, ?_⟩) hpl
    rw [← Option.some.inj hn]
    exact resolve_of_locate hid

theorem madeOf_make (h : make t patches = .ok plan) : MadeOf t patches plan := by
  suffices hrun : ∀ (rest : List Patch) plan', rest ⊆ patches → MadeOf t patches plan' →
      rest.foldlM (Plan.add t) plan' = .ok plan → MadeOf t patches plan from
    hrun patches Plan.empty (fun _ => id) ⟨by simp [empty], by simp [empty], by simp [empty]⟩ h
  intro rest
  induction rest with
  | nil =>
    intro plan' _ hmade hrun
    rwa [← Except.ok.inj hrun]
  | cons patch rest ih =>
    intro plan' hsub hmade hrun
    rw [List.foldlM_cons, bind_eq_ok] at hrun
    obtain ⟨next, hadd, hrun⟩ := hrun
    exact ih next (fun q hq => hsub (List.mem_cons_of_mem _ hq))
      (hmade.add (hsub List.mem_cons_self) hadd) hrun

/-- A plan for `src` names nodes of `src`, and what goes under a copy goes under the copy of its parent in
`dst`. -/
structure Within (src dst : Tree) (plan : Plan) : Prop where
  deletes : ∀ n ∈ plan.deletes, n < src.size
  updates : ∀ q ∈ plan.updates, q.1 < src.size
  source : ∀ pl ∈ plan.placements, ∀ n, pl.source = some n → n < src.size
  parent : ∀ pl ∈ plan.placements, ∀ p, pl.parent = some p → p < src.size
  inserted : ∀ pl ∈ plan.placements, ∀ q, pl.insertion.parent = .inserted q →
    dst.parent? pl.insertion.node = some q

theorem within_of_make {src dst : Tree} (L : src.Linked) (hown : src.DeclaresOwn)
    (hpatches : ∀ patch ∈ patches, ∀ i, patch.insertion? = some i → ∀ q, i.parent = .inserted q →
      dst.parent? i.node = some q) (h : make src patches = .ok plan) : plan.Within src dst where
  deletes n hn := by
    obtain ⟨path, -, hpath⟩ := (madeOf_make h).deletes n hn
    exact hown.lt_size_of_resolve L hpath
  updates q hq := by
    obtain ⟨path, -, hpath⟩ := (madeOf_make h).updates q hq
    exact hown.lt_size_of_resolve L hpath
  source pl hpl n hn := by
    obtain ⟨path, hpath⟩ := ((madeOf_make h).placements pl hpl).2.1 n hn
    exact hown.lt_size_of_resolve L hpath
  parent pl hpl p hp := by
    have hparent := ((madeOf_make h).placements pl hpl).2.2
    rw [hp] at hparent
    cases hi : pl.insertion.parent with
    | existing path =>
      rw [hi] at hparent
      obtain ⟨n, hn, heq⟩ := map_eq_ok.mp hparent
      rw [← Option.some.inj heq]
      exact hown.lt_size_of_resolve L (resolve_of_locate hn)
    | inserted q =>
      rw [hi] at hparent
      simp [locateParent] at hparent
  inserted pl hpl q hq := by
    obtain ⟨patch, hmem, hi⟩ := ((madeOf_make h).placements pl hpl).1
    exact hpatches patch hmem _ hi q hq

end Plan

/-! ## Generated patches -/

namespace Revision

variable {r : Revision} {brought : List NodeId} {d : NodeId} {i : Insertion}

theorem of_insertionOf (h : r.insertionOf brought d = .ok i) :
    i.node = d ∧ i.role = r.dst.role d ∧
      ∃ p, r.dst.parent? d = some p ∧ r.parentRef p = .ok i.parent := by
  obtain ⟨index, -, h⟩ := bind_eq_ok.mp h
  split at h
  · simp [throw, throwThe, MonadExceptOf.throw] at h
  · next p hp =>
    obtain ⟨parent, hparent, h⟩ := bind_eq_ok.mp h
    obtain ⟨anchor, -, h⟩ := bind_eq_ok.mp h
    obtain rfl := Except.ok.inj h
    exact ⟨rfl, rfl, p, hp, hparent⟩

theorem of_patchFor {op : Operation} {patch : Patch} (h : r.patchFor brought op = .ok patch)
    (hi : patch.insertion? = some i) : r.insertionOf brought i.node = .ok i := by
  have hself : ∀ {d i}, r.insertionOf brought d = .ok i → r.insertionOf brought i.node = .ok i :=
    fun hd => by rwa [(of_insertionOf hd).1]
  rw [patchFor] at h
  split at h
  · obtain ⟨path, -, rfl⟩ := map_eq_ok.mp h
    simp [Patch.insertion?] at hi
  · obtain ⟨i', hi', rfl⟩ := map_eq_ok.mp h
    exact Option.some.inj hi ▸ hself hi'
  · obtain ⟨path, -, rfl⟩ := map_eq_ok.mp h
    simp [Patch.insertion?] at hi
  · obtain ⟨path, -, h⟩ := bind_eq_ok.mp h
    obtain ⟨i', hi', h⟩ := bind_eq_ok.mp h
    obtain rfl := Except.ok.inj h
    exact Option.some.inj hi ▸ hself hi'
  · simp at h

theorem of_generate {ops : List Operation} {s : PatchSet} (h : r.generate ops = .ok s) :
    s.destination = r.dst ∧ ∀ patch ∈ s.patches, ∀ i, patch.insertion? = some i →
      ∃ brought, r.insertionOf brought i.node = .ok i := by
  obtain ⟨patches, hpatches, rfl⟩ := map_eq_ok.mp h
  have hdestination : ∀ (l : List Patch) (s : PatchSet),
      (l.foldl PatchSet.insert s).destination = s.destination := by
    intro l
    induction l with
    | nil => exact fun _ => rfl
    | cons patch l ih =>
      intro s
      rw [List.foldl_cons, ih, PatchSet.insert]
      split <;> rfl
  refine ⟨hdestination _ _, fun patch hpatch i hi => ?_⟩
  rw [PatchSet.mem_foldl_insert] at hpatch
  have hmem : patch ∈ patches := hpatch.resolve_left (by simp [PatchSet.empty])
  obtain ⟨_, -, hmap⟩ := bind_eq_ok.mp hpatches
  obtain ⟨op, -, hop⟩ := exists_mem_of_forall₂ (forall₂_of_mapM hmap) hmem
  exact ⟨_, of_patchFor hop hi⟩

theorem eq_of_parentRef_inserted {p q : NodeId} (h : r.parentRef p = .ok (.inserted q)) : p = q := by
  rw [parentRef] at h
  split at h
  · obtain ⟨path, -, heq⟩ := map_eq_ok.mp h
    simp at heq
  · exact ParentRef.inserted.inj (Except.ok.inj h)

theorem within_of_generate {ops : List Operation} {s : PatchSet} {plan : Plan} (L : r.src.Linked)
    (hown : r.src.DeclaresOwn) (h : r.generate ops = .ok s)
    (hplan : Plan.make r.src s.patches = .ok plan) : plan.Within r.src r.dst := by
  refine Plan.within_of_make L hown (fun patch hpatch i hi q hq => ?_) hplan
  obtain ⟨brought, hinsertion⟩ := (of_generate h).2 patch hpatch i hi
  obtain ⟨-, -, p, hp, hparent⟩ := of_insertionOf hinsertion
  rw [hq] at hparent
  rw [hp, eq_of_parentRef_inserted hparent]

end Revision

end TreePatch
