import TreePatch.Proofs.Addressing
import TreePatch.Proofs.Mirror
import TreePatch.Proofs.Punctuation

/-!
# The round trip

Any two source texts without errors are converted, compared and turned into patches. Patching the first
tree succeeds if the paths in the patches lead back to their nodes and no slot is taken twice. The result
prints like the second text if, beyond that, nothing blurs the places of children: the members of a
collection stand next to each other, so that an index is a place, and punctuation stands where it did.
Annotations among modifier keywords show why the first is needed: an annotation is placed by its index
among the annotations, and lands on the wrong side of a keyword.
-/

namespace TreePatch

/-! ## Places in a list -/

theorem beside_of_infix {role : NodeId → Role} {R : Role} {before after : List NodeId} {x : NodeId}
    (hnodup : (before ++ x :: after).Nodup) (hx : role x = R)
    (h : (before ++ x :: after).filter (role · == R) <:+: before ++ x :: after) (f : NodeId → Bool) :
    Beside role R before (after.filter f) := by
  obtain ⟨pre, post, hsplit⟩ := h
  have hmem : x ∈ (before ++ x :: after).filter (role · == R) := by simp [hx]
  have hall : ∀ y ∈ (before ++ x :: after).filter (role · == R), role y = R := fun y hy => by
    simpa using (List.mem_filter.mp hy).2
  generalize hmembers : (before ++ x :: after).filter (role · == R) = members at hsplit hmem hall
  have hnone : ∀ y ∈ pre ++ post, role y ≠ R := by
    have hself : members.filter (role · == R) = members :=
      List.filter_eq_self.mpr fun y hy => by simp [hall y hy]
    have hlength := congrArg List.length hmembers
    rw [← hsplit, List.filter_append, List.filter_append, hself, List.length_append,
      List.length_append] at hlength
    intro y hy hyR
    have hfilter : y ∈ pre.filter (role · == R) ++ post.filter (role · == R) := by
      rw [← List.filter_append]
      exact List.mem_filter.mpr ⟨hy, by simp [hyR]⟩
    have hpos := List.length_pos_of_mem hfilter
    rw [List.length_append] at hpos
    omega
  obtain ⟨elder, younger, rfl⟩ := List.append_of_mem hmem
  have hwhole : before ++ x :: after = (pre ++ elder) ++ x :: (younger ++ post) := by
    rw [← hsplit]
    simp
  obtain ⟨rfl, rfl⟩ := eq_of_append_cons_eq hnodup hwhole
  refine ⟨fun y hy hyR => ?_, fun _ y hy hyR => ?_⟩
  · rw [List.filter_append] at hy ⊢
    have hy' : y ∈ younger.filter f := (List.mem_append.mp hy).resolve_right fun hpost =>
      hnone y (List.mem_append_right _ (List.mem_of_mem_filter hpost)) hyR
    obtain ⟨z, l, hl⟩ := List.exists_cons_of_ne_nil (List.ne_nil_of_mem hy')
    have hz : z ∈ younger := List.mem_of_mem_filter (hl ▸ List.mem_cons_self)
    rw [hl, List.cons_append, List.head?_cons, Option.map_some, hall z (by simp [hz])]
  · have hy' : y ∈ elder := (List.mem_append.mp hy).resolve_left fun hpre =>
      hnone y (List.mem_append_left _ hpre) hyR
    rcases List.eq_nil_or_concat elder with rfl | ⟨l, z, rfl⟩
    · simp at hy'
    · rw [List.concat_eq_append, ← List.append_assoc, List.getLast?_concat, Option.map_some,
        hall z (by simp)]

/-! ## Conditions -/

/-- Every path in the patches leads back to the node that it is made for. -/
def Revision.LeadsBack (r : Revision) (ops : List Operation) : Prop :=
  ∀ op ∈ ops, ∀ n ∈ r.named (ops.filterMap Operation.brought?) op,
    ∀ a ∈ n :: r.src.ancestors n, r.src.Foremost a

/-- No sibling takes the slot of `x`, or is a list of modifiers if `x` is one. -/
def Tree.Alone (t : Tree) (x : NodeId) : Prop :=
  ∀ q ∈ t.parent? x, ∀ y ∈ t.children q, t.role y = t.role x →
    ((t.role x).isSingleSlot = true ∨
      (t.role x = .modifier ∧ t.kind x = "modifiers" ∧ t.kind y = "modifiers")) → y = x

/-- The members of the collection of `x`, if it is in one, stand next to each other. -/
def Tree.Gathered (t : Tree) (x : NodeId) : Prop :=
  (t.role x).isCollection = true → ∀ q ∈ t.parent? x, q ≠ root →
    t.childrenWithRole q (t.role x) <:+: t.children q

/-- The tokens below kept nodes are the same, and what stays in place stands behind as many of them as
before. -/
def Tree.InStep (src dst : Tree) (minMoveSize : Nat) : Prop :=
  ∀ pq ∈ (src.diff dst minMoveSize).kept, pq.2 ≠ root →
    (src.ignoredChildren pq.1).map (fun c => (src.kind c, src.label c)) =
        (dst.ignoredChildren pq.2).map (fun x => (dst.kind x, dst.label x)) ∧
      ∀ c ∈ src.children pq.1, ∀ x ∈ dst.children pq.2,
        (c, x) ∈ (src.diff dst minMoveSize).kept ++
            updatedPairs (src.diff dst minMoveSize).operations →
          src.ignoredBefore pq.1 c = dst.ignoredBefore pq.2 x

instance (r : Revision) (ops : List Operation) : Decidable (r.LeadsBack ops) :=
  inferInstanceAs (Decidable (∀ op ∈ ops, _))

instance (t : Tree) (x : NodeId) : Decidable (t.Alone x) :=
  inferInstanceAs (Decidable (∀ q ∈ t.parent? x, _))

instance (t : Tree) (x : NodeId) : Decidable (t.Gathered x) :=
  inferInstanceAs (Decidable (_ → ∀ q ∈ t.parent? x, _))

instance (src dst : Tree) (minMoveSize : Nat) : Decidable (src.InStep dst minMoveSize) :=
  inferInstanceAs (Decidable (∀ pq ∈ (src.diff dst minMoveSize).kept, _))

/-! ## Success -/

section

variable {r : Revision} {stay : NodeId → Option NodeId} {ops : List Operation}

theorem exists_named_of_placed {x : NodeId} (hx : x ∈ (placedNodes ops).map (·.1)) :
    ∃ op ∈ ops, r.surroundings (ops.filterMap Operation.brought?) x ⊆
      r.named (ops.filterMap Operation.brought?) op := by
  obtain ⟨⟨x, source⟩, hmem, rfl⟩ := List.mem_map.mp hx
  obtain ⟨⟨kind, n, counterpart⟩, hop, heq⟩ := List.mem_filterMap.mp hmem
  refine ⟨_, hop, ?_⟩
  cases kind with
  | delete => simp at heq
  | update => simp at heq
  | insert =>
    obtain ⟨rfl, -⟩ : n.node = x ∧ none = source := by simpa using heq
    exact List.Subset.refl _
  | move =>
    obtain ⟨n', rfl, rfl, -⟩ : ∃ n', counterpart = some n' ∧ n'.node = x ∧ some n.node = source := by
      simpa using heq
    exact List.subset_cons_self _ _

theorem exists_named_of_leaving {c : NodeId}
    (hc : c ∈ goneNodes (deletedNodes ops) (placedNodes ops) ∨ ∃ x, (c, x) ∈ updatedPairs ops) :
    ∃ op ∈ ops, c ∈ r.named (ops.filterMap Operation.brought?) op := by
  have hop : ∃ op ∈ ops, op.kind ≠ .insert ∧ op.node.node = c := by
    rcases hc with hc | ⟨x, hc⟩
    · rcases List.mem_append.mp hc with hc | hc
      · obtain ⟨op, hop, heq⟩ := List.mem_filterMap.mp hc
        split at heq
        · next hkind => exact ⟨op, hop, by simp [hkind], Option.some.inj heq⟩
        · simp at heq
      · obtain ⟨⟨x, source⟩, hmem, rfl : source = some c⟩ := List.mem_filterMap.mp hc
        obtain ⟨⟨kind, n, counterpart⟩, hop, heq⟩ := List.mem_filterMap.mp hmem
        refine ⟨_, hop, ?_⟩
        cases kind with
        | move =>
          obtain ⟨_, -, -, hn⟩ : ∃ n', counterpart = some n' ∧ n'.node = x ∧ n.node = c := by
            simpa using heq
          exact ⟨by simp, hn⟩
        | insert => simp at heq
        | delete => simp at heq
        | update => simp at heq
    · obtain ⟨op, hop, heq⟩ := List.mem_filterMap.mp hc
      split at heq
      · next hkind =>
        obtain ⟨n, -, heq⟩ := Option.map_eq_some_iff.mp heq
        exact ⟨op, hop, by simp [hkind], congrArg Prod.fst heq⟩
      · simp at heq
  obtain ⟨⟨kind, n, counterpart⟩, hop, hkind, rfl⟩ := hop
  refine ⟨_, hop, ?_⟩
  cases kind with
  | delete => exact List.mem_singleton_self _
  | update => exact List.mem_singleton_self _
  | insert => exact absurd rfl hkind
  | move => exact List.mem_cons_self

variable (R : Reconciled r.src r.dst stay (deletedNodes ops) (updatedPairs ops) (placedNodes ops))
  (As : r.src.Rooted) (D : r.dst.Linked) (hops : ∀ op ∈ ops, op.Between r.src r.dst)
  (C : Corresponds r stay)

include R D hops C

theorem Reconciled.anchorNode?_eq {x q z e : NodeId} {nearer further : List NodeId}
    (hx : x ∈ (placedNodes ops).map (·.1)) (hq : r.dst.parent? x = some q)
    (hsplit : ((r.dst.children q).takeWhile (· != x)).reverse = nearer ++ z :: further)
    (hnearer : ∀ y ∈ nearer, ¬ Brought (updatedPairs ops) (placedNodes ops) y ∧ r.held stay y = none)
    (hz : ¬ Brought (updatedPairs ops) (placedNodes ops) z) (he : r.held stay z = some e) :
    r.anchorNode? (ops.filterMap Operation.brought?)
      ((r.dst.children q).takeWhile (· != x)).reverse = some e := by
  obtain ⟨-, -, q', p, hqp, hq'⟩ := R.of_brought (Or.inr hx)
  obtain rfl := Option.some.inj (hq.symm.trans hq')
  have hchild : ∀ y ∈ nearer ++ z :: further, r.dst.parent? y = some q := fun y hy =>
    D.mem_children.mp ((List.takeWhile_prefix _).subset (List.mem_reverse.mp (hsplit ▸ hy)))
  have hfree : ∀ {y}, ¬ Brought (updatedPairs ops) (placedNodes ops) y →
      (ops.filterMap Operation.brought?).contains y = false := fun {y} hy => by
    by_contra hcontains
    exact hy ((mem_brought_iff hops y).mp (List.contains_iff_mem.mp (by simpa using hcontains)))
  have hnone : nearer.find? (fun y => (ops.filterMap Operation.brought?).contains y ||
      (r.counterpart? y).isSome) = none := by
    refine List.find?_eq_none.mpr fun y hy => ?_
    obtain ⟨hb, hheld⟩ := hnearer y hy
    rw [hfree hb, R.counterpart_eq_held C hqp (hchild y (by simp [hy])) hb, hheld]
    simp
  have hcounterpart := C.counterpart_of_held he
  rw [hsplit, Revision.anchorNode?, List.find?_append, hnone, Option.none_or,
    List.find?_cons_of_pos (by simp [hcounterpart]), Option.bind_some, hfree hz,
    if_neg Bool.false_ne_true, hcounterpart]

include As

theorem Revision.LeadsBack.unambiguous (h : r.LeadsBack ops)
    (halone : ∀ x ∈ (placedNodes ops).map (·.1), r.dst.Alone x) :
    Unambiguous r stay (deletedNodes ops) (updatedPairs ops) (placedNodes ops) := by
  have hleads : ∀ {n}, r.src.isAttached n = true →
      (∃ op ∈ ops, n ∈ r.named (ops.filterMap Operation.brought?) op) → r.src.Leads n := by
    rintro n hatt ⟨op, hop, hn⟩
    obtain ⟨path, hpath, hresolve⟩ := As.exists_path hatt
    exact ⟨path, hpath, hresolve.mpr (h op hop n hn)⟩
  have hnamed : ∀ {x n}, x ∈ (placedNodes ops).map (·.1) →
      n ∈ r.surroundings (ops.filterMap Operation.brought?) x →
        ∃ op ∈ ops, n ∈ r.named (ops.filterMap Operation.brought?) op := fun hx hn => by
    obtain ⟨op, hop, hsub⟩ := exists_named_of_placed (r := r) hx
    exact ⟨op, hop, hsub hn⟩
  refine
    { leaving := fun hc => hleads (R.of_leaving As.linked D hc).1 (exists_named_of_leaving hc)
      host := fun {x q p} hx hq hqp => ?_
      anchor := fun {x q nearer z further e} hx hq hsplit hnearer hz he => ?_
      slot := fun hx hq hy hrole hsingle =>
        halone _ hx _ hq _ (D.mem_children.mpr hy) hrole (Or.inl hsingle)
      modifiers := fun hx hq hy hrole hrole' hkind hkind' =>
        halone _ hx _ hq _ (D.mem_children.mpr hy) (hrole'.trans hrole.symm)
          (Or.inr ⟨hrole, hkind, hkind'⟩) }
  · refine hleads (R.ancestors_kept As.linked D hqp).1 (hnamed hx ?_)
    rw [Revision.surroundings, hq, Option.elim_some, C.kept hqp]
    exact List.mem_cons_self
  · refine hleads (R.isAttached_of_held C As.linked D he) (hnamed hx ?_)
    rw [Revision.surroundings, hq, Option.elim_some,
      R.anchorNode?_eq D hops C hx hq hsplit hnearer hz he]
    exact List.mem_append_right _ List.mem_cons_self

end

/-! ## Exactness -/

/-- If tokens are held in order and what stays in place stands behind as many of them as before, all that
stays below a kept node, tokens included, stands as it does there. -/
theorem Reconciled.in_place {r : Revision} {stay : NodeId → Option NodeId} {deletes : List NodeId}
    {updates : List (NodeId × NodeId)} {placed : List (NodeId × Option NodeId)}
    (R : Reconciled r.src r.dst stay deletes updates placed) (L : r.src.Linked) (D : r.dst.Linked)
    {q p : NodeId} (hqp : stay q = some p)
    (htokens : List.Forall₂ (fun c x => r.held stay x = some c) (r.src.ignoredChildren p)
      (r.dst.ignoredChildren q))
    (hbefore : ∀ c ∈ r.src.children p, ∀ x ∈ r.dst.children q, stay x = some c ∨ (c, x) ∈ updates →
      r.src.ignoredBefore p c = r.dst.ignoredBefore q x) :
    List.Forall₂ (r.Mate stay updates)
      ((r.src.children p).filter fun c => decide (c ∉ goneNodes deletes placed))
      ((r.dst.children q).filter fun x => decide (x ∉ placed.map (·.1))) := by
  -- tokens do not leave and are not placed
  have hgone : ∀ c, r.src.isIgnored c = true → decide (c ∉ goneNodes deletes placed) = true :=
    fun c hc => decide_eq_true fun hmem => by
      rw [(R.gone hmem).2.2.1] at hc
      simp at hc
  have hplaced : ∀ x, r.dst.isIgnored x = true → decide (x ∉ placed.map (·.1)) = true :=
    fun x hx => decide_eq_true fun hmem => by
      rw [(R.of_brought (Or.inr hmem)).2.1] at hx
      simp at hx
  refine (forall₂_of_interleaved (P := fun c x => stay x = some c ∨ (c, x) ∈ updates)
    (Q := fun c x => r.src.isIgnored c = true ∧ r.dst.isIgnored x = true ∧ r.held stay x = some c)
    (f := r.src.isIgnored) (g := r.dst.isIgnored) ((L.nodup p).filter _) ((D.nodup q).filter _)
    ?_ ?_ ?_).imp fun c x hcx => or_assoc.mp hcx
  · rw [filter_filter_of_imp hgone, filter_filter_of_imp hplaced]
    exact forall₂_imp_of_mem htokens fun c hc x hx hcx =>
      ⟨(List.mem_filter.mp hc).2, (List.mem_filter.mp hx).2, hcx⟩
  · have horder := R.order hqp
    rw [Outline.trackedChildren, Outline.trackedChildren, List.filter_comm,
      List.filter_comm _ _ (r.dst.children q)] at horder
    exact horder
  · intro c hc x hx hci hxi hcx
    obtain ⟨hc, hcstay⟩ := List.mem_filter.mp hc
    obtain ⟨hx, hxstay⟩ := List.mem_filter.mp hx
    rw [countP_takeWhile_filter hcstay hgone, countP_takeWhile_filter hxstay hplaced]
    exact hbefore c hc x hx hcx

section

variable {src dst : Tree} {minMoveSize : Nat} {nodes : Correspondence}
  (Ks : src.Converted) (Kd : dst.Converted) (hname : src.name ≠ dst.name)
  (hresolve : Correspondence.resolve (src.diff dst minMoveSize).pairing
    (src.diff dst minMoveSize).pairs src dst = .ok nodes)

include Ks Kd hname hresolve

theorem Tree.Converted.held_iff_getElem? {q p x c : NodeId}
    (hqp : Pairing.stayOf src dst ((Pairing.ofTrees src dst).matching minMoveSize) q = some p)
    (hx : dst.parent? x = some q) (hignored : dst.isIgnored x = true) :
    Revision.held { src, dst, nodes }
        (Pairing.stayOf src dst ((Pairing.ofTrees src dst).matching minMoveSize)) x = some c ↔
      ∃ k : Nat, (src.ignoredChildren p)[k]? = some c ∧ (dst.ignoredChildren q)[k]? = some x := by
  have Ls := Ks.linked
  have Ld := Kd.linked
  have R := reconciled_diff Ks.toRegular Kd.toRegular minMoveSize
  have hresolved := Correspondence.resolved_of_diff Ls Ld hresolve
  have C := hresolved.corresponds Ls Ld hname
  have hpair : ∀ {a b}, Revision.counterpart? { src, dst, nodes } b = some a ↔
      (src.ref a, dst.ref b) ∈ nodes.pairs := hresolved.get?_eq_some_iff Ls Ld hname
  obtain ⟨j, i, hj, hi, -, hij⟩ := (Pairing.stayOf_eq_some_iff Ls Ld).mp hqp
  have hseed : (src.ref p, dst.ref q) ∈ Correspondence.seeds src dst _ :=
    (Correspondence.mem_seeds_iff Ls Ld).mpr ⟨i, j, p, q, Matching.mem_of_srcOf hij, hi, hj, rfl⟩
  constructor
  · intro hheld
    have hcx := hpair.mp (C.counterpart_of_held hheld)
    rcases C.of_held hheld with hstay | ⟨-, hci, q', p', hqp', hq', hp'⟩
    · rw [(R.tracked hstay).1 q hx] at hignored
      simp at hignored
    · obtain rfl := Option.some.inj (hx.symm.trans hq')
      obtain rfl := Option.some.inj (hqp.symm.trans hqp')
      exact (hresolved.mem_iff_getElem? Ls Ld hseed hp' hci).mp hcx
  · rintro ⟨k, hc, hx'⟩
    obtain ⟨hcp, hci⟩ := List.mem_filter.mp (List.mem_of_getElem? hc)
    have hcx := hpair.mpr ((hresolved.mem_iff_getElem? Ls Ld hseed (Ls.mem_children.mp hcp) hci).mpr
      ⟨k, hc, hx'⟩)
    rw [← Reconciled.counterpart_eq_held (r := { src, dst, nodes }) R C hqp hx fun hb => ?_, hcx]
    rw [(R.of_brought hb).2.1] at hignored
    simp at hignored

theorem Tree.InStep.tokens_held (h : src.InStep dst minMoveSize) {q p : NodeId}
    (hqp : Pairing.stayOf src dst ((Pairing.ofTrees src dst).matching minMoveSize) q = some p)
    (hroot : q ≠ root) :
    List.Forall₂ (fun c x => Revision.held { src, dst, nodes }
        (Pairing.stayOf src dst ((Pairing.ofTrees src dst).matching minMoveSize)) x = some c)
      (src.ignoredChildren p) (dst.ignoredChildren q) := by
  obtain ⟨htokens, -⟩ := h (p, q) ((mem_kept_iff Ks.linked Kd.linked).mpr hqp) hroot
  have hlength : (src.ignoredChildren p).length = (dst.ignoredChildren q).length := by
    simpa using congrArg List.length htokens
  refine List.forall₂_iff_get.mpr ⟨hlength, fun k hk hk' => ?_⟩
  have hx := List.getElem?_eq_getElem hk'
  obtain ⟨hmem, hignored⟩ := List.mem_filter.mp (List.mem_of_getElem? hx)
  exact (Ks.held_iff_getElem? Kd hname hresolve hqp (Kd.linked.mem_children.mp hmem) hignored).mpr
    ⟨k, List.getElem?_eq_getElem hk, hx⟩

theorem Tree.InStep.faithful (h : src.InStep dst minMoveSize)
    (hgathered : ∀ x ∈ (placedNodes (src.diff dst minMoveSize).operations).map (·.1),
      dst.Gathered x) :
    Faithful { src, dst, nodes }
      (Pairing.stayOf src dst ((Pairing.ofTrees src dst).matching minMoveSize))
      (deletedNodes (src.diff dst minMoveSize).operations)
      (updatedPairs (src.diff dst minMoveSize).operations)
      (placedNodes (src.diff dst minMoveSize).operations) where
  src_leaf _ hp hignored := Ks.punctuation hp hignored
  dst_leaf _ hp hignored := Kd.punctuation hp hignored
  token {q p c x} hqp hx hignored hheld := by
    obtain ⟨htokens, -⟩ := h (p, q) ((mem_kept_iff Ks.linked Kd.linked).mpr hqp)
      (Kd.punctuation hx hignored).2
    obtain ⟨k, hc, hx'⟩ := (Ks.held_iff_getElem? Kd hname hresolve hqp hx hignored).mp hheld
    have hk := congrArg (·[k]?) htokens
    simp only [List.getElem?_map, hc, hx', Option.map_some, Option.some.injEq, Prod.mk.injEq] at hk
    exact hk
  aligned {q p} hqp hroot :=
    { in_place := by
        refine Reconciled.in_place (r := { src, dst, nodes })
          (reconciled_diff Ks.toRegular Kd.toRegular minMoveSize) Ks.linked Kd.linked hqp
          (h.tokens_held Ks Kd hname hresolve hqp hroot) fun c hc x hx hcx => ?_
        refine (h (p, q) ((mem_kept_iff Ks.linked Kd.linked).mpr hqp) hroot).2 c hc x hx
          (List.mem_append.mpr ?_)
        exact hcx.imp_left (mem_kept_iff Ks.linked Kd.linked).mpr
      beside := fun {x before after} hx hsplit hR => by
        have hq : dst.parent? x = some q := Kd.linked.mem_children.mp (by simp [hsplit])
        have hinfix := hgathered x hx hR q hq hroot
        rw [childrenWithRole, hsplit] at hinfix
        exact beside_of_infix (hsplit ▸ Kd.linked.nodup q) rfl hinfix _
      cases_last := fun _ hx hrole y hy =>
        Kd.cases hx (Kd.linked.mem_children.mp ((List.dropWhile_suffix _).subset hy)) hrole }

end

/-- **The round trip.** Source texts without errors are converted, compared and turned into patches. If
the paths in the patches lead back to their nodes and slots are not taken twice, patching the first tree
succeeds; if besides everything is in step and collections are gathered, the patched tree prints like the
second one. -/
theorem Source.round_trip {rows rows' : List Row}
    (hrows : ∀ row ∈ rows, row.missing = false ∧ row.faulty = false)
    (hrows' : ∀ row ∈ rows', row.missing = false ∧ row.faulty = false) {name name' : String}
    (hname : name ≠ name') (file text file' text' : String) (minMoveSize : Nat) :
    ∃ src dst nodes set,
      parse name file text rows = .ok src ∧ parse name' file' text' rows' = .ok dst ∧
      Correspondence.resolve (src.diff dst minMoveSize).pairing (src.diff dst minMoveSize).pairs
        src dst = .ok nodes ∧
      Revision.generate { src, dst, nodes } (src.diff dst minMoveSize).operations = .ok set ∧
      let placed := (placedNodes (src.diff dst minMoveSize).operations).map (·.1)
      (Revision.LeadsBack { src, dst, nodes } (src.diff dst minMoveSize).operations →
        (∀ x ∈ placed, dst.Alone x) → (set.apply src).error = none ∧
          (src.InStep dst minMoveSize → (∀ x ∈ placed, dst.Gathered x) →
            (∀ x ∈ dst.childrenWithRole Tree.root .packageDeclaration, dst.Alone x) →
              ∀ width, (set.apply src).tree.print width = dst.print width)) := by
  obtain ⟨src, hs⟩ := exists_parse (fun row hrow => (hrows row hrow).2) name file text
  obtain ⟨dst, hd⟩ := exists_parse (fun row hrow => (hrows' row hrow).2) name' file' text'
  have Ks := (formedTree_of_parse hs).2.converted
    (explicit_of_parse hs fun row hrow => (hrows row hrow).1)
  have Kd := (formedTree_of_parse hd).2.converted
    (explicit_of_parse hd fun row hrow => (hrows' row hrow).1)
  have hnames : src.name ≠ dst.name := by
    rwa [(formedTree_of_parse hs).1, (formedTree_of_parse hd).1]
  have R := reconciled_diff Ks.toRegular Kd.toRegular minMoveSize
  have hops : ∀ op ∈ (src.diff dst minMoveSize).operations, op.Between src dst := fun op hop =>
    Pairing.between_of_mem_editScript Ks.linked Kd.linked
      (Pairing.matching_matches src dst minMoveSize) hop
  obtain ⟨nodes, patches, hresolve, hgenerate, -⟩ :=
    Ks.toRooted.exists_patches Kd.toRooted hnames minMoveSize
  refine ⟨src, dst, nodes, _, hs, hd, hresolve, hgenerate, fun hleads halone => ?_⟩
  have C := (Correspondence.resolved_of_diff Ks.linked Kd.linked hresolve).corresponds Ks.linked
    Kd.linked hnames
  have U := hleads.unambiguous (r := { src, dst, nodes }) R Ks.toRooted Kd.linked hops C halone
  obtain ⟨set, copies, h⟩ := Ks.toRegular.patched Kd.toRegular hnames minMoveSize
    (fun _ _ => ¬ True) hresolve U fun {c x m z} hcx hkind hm _ hz => by
      -- a type declaration with a name has no label, and is not updated
      obtain ⟨-, -, -, -, -, -, -, -, hkinds, hlabels⟩ := R.update hcx
      have hc := Ks.type_label hkind |>.resolve_left (List.ne_nil_of_mem (Ks.linked.mem_children.mpr hm))
      have hx := Kd.type_label (hkinds ▸ hkind) |>.resolve_left
        (List.ne_nil_of_mem (List.mem_of_mem_filter (List.mem_of_mem_head? hz)))
      exact absurd (hc.trans hx.symm) hlabels
  obtain rfl := Except.ok.inj (h.generate.symm.trans hgenerate)
  refine ⟨h.error, fun hstep hgathered hpackage width => ?_⟩
  have F := hstep.faithful Ks Kd hnames hresolve hgathered
  have M := h.underway.mirrors R h.corresponds Ks.toRegular Kd.toRegular F trivial
  refine M.print_eq h.underway.sound.linked Kd.linked (fun x hx y hy => ?_) h.underway.inSync Kd.inSync
    width
  obtain ⟨hxroot, hxrole⟩ := Kd.linked.mem_childrenWithRole.mp hx
  obtain ⟨hyroot, hyrole⟩ := Kd.linked.mem_childrenWithRole.mp hy
  exact (hpackage x hx _ hxroot y (Kd.linked.mem_children.mpr hyroot) (hyrole.trans hxrole.symm)
    (Or.inl (by rw [hxrole]; rfl))).symm

/-- A modifier keyword. -/
def Source.Sketch.keyword (word : String) : Sketch :=
  leaf word none word

/-- An annotation without arguments. -/
def Source.Sketch.marker (name : String) : Sketch :=
  .node ⟨"marker_annotation", none, ""⟩ [leaf "@" none "@", leaf "identifier" "name" name]

/-- An annotation comes in and an operand changes, besides an intersection cast that stays. -/
theorem Source.round_trip_class :
    let old := Sketch.ofClass [.keyword "final", .marker "B"]
      [("f", .cast "A" "B"), ("g", .reference "a" "b")]
    let new := Sketch.ofClass [.keyword "final", .marker "B", .marker "D"]
      [("f", .cast "A" "B"), ("g", .reference "a" "d")]
    let src := old.tree "old"
    let dst := new.tree "new"
    (src.diff dst 2).operations.map Operation.kind = [.insert, .update] ∧
      parse "old" "old" old.text (old.rows 0 0) = .ok src ∧
      parse "new" "new" new.text (new.rows 0 0) = .ok dst ∧
      ∃ nodes set,
        Correspondence.resolve (src.diff dst 2).pairing (src.diff dst 2).pairs src dst = .ok nodes ∧
        Revision.generate { src, dst, nodes } (src.diff dst 2).operations = .ok set ∧
        (set.apply src).error = none ∧
        ∀ width, (set.apply src).tree.print width = dst.print width := by
  intro old new src dst
  have hs := Sketch.parse_eq_tree "old" old
  have hd := Sketch.parse_eq_tree "new" new
  obtain ⟨src', dst', nodes, set, hs', hd', hresolve, hgenerate, h⟩ := round_trip
    (Sketch.whole_rows 0 0 old) (Sketch.whole_rows 0 0 new) (by decide : "old" ≠ "new") "old" old.text
    "new" new.text 2
  obtain rfl : src' = src := Except.ok.inj (hs'.symm.trans hs)
  obtain rfl : dst' = dst := Except.ok.inj (hd'.symm.trans hd)
  obtain ⟨hkinds, hleads, halone, hstep, hgathered, hpackage⟩ :
      (src.diff dst 2).operations.map Operation.kind = [.insert, .update] ∧
        Revision.LeadsBack { src, dst, nodes := src.correspondence dst 2 } (src.diff dst 2).operations ∧
        (∀ x ∈ (placedNodes (src.diff dst 2).operations).map (·.1), dst.Alone x) ∧
        src.InStep dst 2 ∧
        (∀ x ∈ (placedNodes (src.diff dst 2).operations).map (·.1), dst.Gathered x) ∧
        ∀ x ∈ dst.childrenWithRole Tree.root .packageDeclaration, dst.Alone x := by
    decide +kernel
  rw [← Tree.eq_correspondence hresolve] at hleads
  obtain ⟨herror, hprint⟩ := h hleads halone
  exact ⟨hkinds, hs, hd, nodes, set, hresolve, hgenerate, herror, hprint hstep hgathered hpackage⟩

/-- The members of the collection of annotations do not stand together: a keyword is between them. The new
one goes before the other one, and thus to the wrong side of the keyword. -/
theorem Source.annotation_misplaced :
    let src := (Sketch.ofClass [.keyword "final", .marker "B"] []).tree "old"
    let dst := (Sketch.ofClass [.marker "D", .keyword "final", .marker "B"] []).tree "new"
    (∀ n, src.isImplicit n = false) ∧ (∀ n, dst.isImplicit n = false) ∧
      ∃ nodes set,
        Correspondence.resolve (src.diff dst 2).pairing (src.diff dst 2).pairs src dst = .ok nodes ∧
        Revision.generate { src, dst, nodes } (src.diff dst 2).operations = .ok set ∧
        (set.apply src).error = none ∧
        (set.apply src).tree.print 4 = .ok "final @D @B class C \x7b\n\x7d\n" ∧
        dst.print 4 = .ok "@D final @B class C \x7b\n\x7d\n" := by
  intro src dst
  have As : src.Rooted := (formedTree_of_parse (Sketch.parse_eq_tree _ _)).2.rooted
  have Ad : dst.Rooted := (formedTree_of_parse (Sketch.parse_eq_tree _ _)).2.rooted
  obtain ⟨nodes, patches, hresolve, hgenerate, -⟩ := As.exists_patches Ad (by decide +kernel) 2
  refine ⟨Sketch.explicit_tree _ _, Sketch.explicit_tree _ _, nodes, _, hresolve, hgenerate, ?_⟩
  rw [Tree.eq_patchSet hresolve hgenerate]
  decide +kernel

end TreePatch
