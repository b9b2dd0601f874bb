import TreePatch.Proofs.Changes
import TreePatch.Proofs.Lockstep

/-!
# Replaying patches

A set of patches does the same to any two trees of the same form. Trees whose reachable parts correspond are
in parallel once the numbers that they give out next are paired in order (`Tree.SameUpTo.parallel`), and what
two runs in step leave behind are linked trees again, so that the correspondence can be read off the nodes
that exist. No decision depends on a number, a position or a node that cannot be reached.
-/

namespace TreePatch

/-! ## Trees of the same form -/

namespace Tree

/-- The nodes that `ρ` pairs carry the same, positions apart, and have children that are paired in order; so
do the units. -/
structure SameUpTo (ρ : NodeId → NodeId → Prop) (t t' : Tree) : Prop where
  unique : Relator.BiUnique ρ
  root : ρ root root
  kind : ∀ {a b}, ρ a b → t.kind a = t'.kind b
  label : ∀ {a b}, ρ a b → t.label a = t'.label b
  role : ∀ {a b}, ρ a b → t.role a = t'.role b
  children : ∀ {a b}, ρ a b → List.Forall₂ ρ (t.children a) (t'.children b)
  units : List.Forall₂ (fun u u' => List.Forall₂ ρ u.declaredTypes u'.declaredTypes) t.units t'.units

/-- With the parents paired as well, and all nodes that can be reached. -/
structure Isomorphic (ρ : NodeId → NodeId → Prop) (t t' : Tree) : Prop extends SameUpTo ρ t t' where
  parent? : ∀ {a b}, ρ a b → Option.Rel ρ (t.parent? a) (t'.parent? b)
  isAttached : ∀ {a b}, ρ a b → t.isAttached a = t'.isAttached b
  exists_right : ∀ a, t.isAttached a = true → ∃ b, ρ a b
  exists_left : ∀ b, t'.isAttached b = true → ∃ a, ρ a b

/-- The pairs of `ρ`, and the first `k` numbers behind `n` and `n'` in order. -/
def extended (ρ : NodeId → NodeId → Prop) (n n' k : Nat) (a b : NodeId) : Prop :=
  ρ a b ∨ ∃ i < k, a = n + i ∧ b = n' + i

theorem biUnique_extended {ρ : Nat → Nat → Prop} {n n' : Nat} (h : Relator.BiUnique ρ)
    (hlt : ∀ {a b}, ρ a b → a < n ∧ b < n') :
    Relator.BiUnique fun a b => ρ a b ∨ ∃ i, a = n + i ∧ b = n' + i := by
  constructor
  · rintro a b c (hac | ⟨i, ha, hc⟩) (hbc | ⟨j, hb, hc'⟩)
    · exact h.1 hac hbc
    · have hlt := (hlt hac).2
      omega
    · have hlt := (hlt hbc).2
      omega
    · omega
  · rintro a b c (hab | ⟨i, ha, hb⟩) (hac | ⟨j, ha', hc⟩)
    · exact h.2 hab hac
    · have hlt := (hlt hab).1
      omega
    · have hlt := (hlt hac).1
      omega
    · omega

theorem rel_imp {R S : NodeId → NodeId → Prop} (h : ∀ a b, R a b → S a b) {o o' : Option NodeId}
    (ho : Option.Rel R o o') : Option.Rel S o o' := by
  cases ho with
  | none => exact .none
  | some hab => exact .some (h _ _ hab)

namespace SameUpTo

variable {ρ : NodeId → NodeId → Prop} {t t' : Tree}

theorem flip (h : SameUpTo ρ t t') : SameUpTo (fun b a => ρ a b) t' t where
  unique := ⟨fun _ _ _ hac hbc => h.unique.2 hac hbc, fun _ _ _ hab hac => h.unique.1 hab hac⟩
  root := h.root
  kind hab := (h.kind hab).symm
  label hab := (h.label hab).symm
  role hab := (h.role hab).symm
  children hab := (h.children hab).flip
  units := (h.units.imp fun _ _ hu => hu.flip).flip

theorem exists_right (L : t.Linked) (h : SameUpTo ρ t t') {a : NodeId} (ha : t.isAttached a = true) :
    ∃ b, ρ a b := by
  refine L.induction_attached (P := fun a => ∃ b, ρ a b) ⟨Tree.root, h.root⟩
    (fun n p hp _ hparent => ?_) ha
  obtain ⟨q, hpq⟩ := hparent
  obtain ⟨b, -, hb⟩ := exists_mem_of_forall₂ (h.children hpq).flip (L.mem_children.mpr hp)
  exact ⟨b, hb⟩

theorem parent? (L : t.Linked) (L' : t'.Linked) (h : SameUpTo ρ t t') {a b : NodeId} (hab : ρ a b)
    (ha : t.isAttached a = true) : Option.Rel ρ (t.parent? a) (t'.parent? b) := by
  by_cases hroot : a = Tree.root
  · obtain rfl := (eq_iff_of_rel h.unique hab h.root).mp hroot
    rw [hroot, L.root_top, L'.root_top]
    exact .none
  · obtain ⟨p, hp, hatt⟩ := L.exists_parent_of_isAttached ha hroot
    obtain ⟨q, hpq⟩ := h.exists_right L hatt
    obtain ⟨d, hd, had⟩ := exists_mem_of_forall₂ (h.children hpq).flip (L.mem_children.mpr hp)
    obtain rfl := h.unique.2 had hab
    rw [hp, L'.mem_children.mp hd]
    exact .some hpq

theorem parallel (L : t.Linked) (L' : t'.Linked) (h : SameUpTo ρ t t')
    (hatt : ∀ {a b}, ρ a b → t.isAttached a = true ∧ t'.isAttached b = true) :
    Tree.Parallel (fun a b => ρ a b ∨ ∃ i, a = t.size + i ∧ b = t'.size + i) t t' := by
  have hlt : ∀ {a b}, ρ a b → a < t.size ∧ b < t'.size := fun hab =>
    ⟨L.lt_size_of_isAttached (hatt hab).1, L'.lt_size_of_isAttached (hatt hab).2⟩
  refine
    { unique := biUnique_extended h.unique hlt
      root := Or.inl h.root
      node := ?_
      units := h.units.imp fun _ _ hu => hu.imp fun _ _ => Or.inl
      inside := ?_
      next := fun i => Or.inr ⟨i, rfl, rfl⟩ }
  · rintro a b (hab | ⟨i, rfl, rfl⟩)
    · refine ⟨h.kind hab, h.label hab, h.role hab, ?_, (h.children hab).imp fun _ _ => Or.inl⟩
      exact rel_imp (fun _ _ => Or.inl) (h.parent? L L' hab (hatt hab).1)
    · rw [t.node_of_size_le (Nat.le_add_right _ _), t'.node_of_size_le (Nat.le_add_right _ _)]
      exact ⟨rfl, rfl, rfl, .none, .nil⟩
  · rintro a b (hab | ⟨i, rfl, rfl⟩)
    · exact iff_of_true (hlt hab).1 (hlt hab).2
    · exact iff_of_false (Nat.not_lt.mpr (Nat.le_add_right _ _)) (Nat.not_lt.mpr (Nat.le_add_right _ _))

end SameUpTo

end Tree

/-! ## What is left names only nodes that exist -/

section

variable {src dst : Tree} {plan : Plan} {w w' : Workpiece} (Ls : src.Linked) (D : dst.Linked)

theorem Change.declaresOwn (h : Grown src dst w) (hown : w.tree.DeclaresOwn)
    (hc : Change src dst plan w w') : w'.tree.DeclaresOwn := by
  cases hc with
  | enter => exact hown
  | @unlink n t' _ hu =>
    intro u hu' m hm
    rw [hu.size]
    rw [hu.units] at hu'
    split at hu'
    · obtain ⟨v, hv, rfl⟩ := List.mem_map.mp hu'
      exact hown v hv m (List.mem_of_mem_filter hm)
    · exact hown u hu' m hm
  | copy y =>
    intro u hu m hm
    change m < (w.tree.graft dst y).tree.size
    rw [Tree.size_graft]
    exact Nat.lt_add_right _ (hown u hu m hm)
  | rename old new =>
    intro u hu m hm
    rw [Patching.size_keepName]
    rw [Patching.units_keepName] at hu
    exact hown u hu m hm
  | @exchange p old y new t' _ _ hnew _ _ he =>
    intro u hu m hm
    rw [he.size]
    rw [he.units] at hu
    split at hu
    · obtain ⟨v, hv, rfl⟩ := List.mem_map.mp hu
      obtain ⟨x, hx, rfl⟩ := List.mem_map.mp hm
      split
      · exact (h.copy_bounds hnew).2
      · exact hown v hv x hx
    · exact hown u hu m hm
  | link _ _ _ _ hl =>
    intro u hu m hm
    rw [hl.size]
    rw [hl.units] at hu
    exact hown u hu m hm
  | @declare pl p n i index u t' _ _ _ _ hn _ _ hunits _ hl =>
    intro v hv m hm
    obtain rfl := List.mem_singleton.mp hv
    change m < t'.size
    rw [hl.size]
    rcases List.eq_or_mem_of_mem_insertIdx hm with rfl | hm
    · exact (h.copy_bounds hn).2
    · exact hown u (hunits ▸ List.mem_singleton_self u) m hm

include Ls D in
theorem Changes.declaresOwn (h : Grown src dst w) (hown : w.tree.DeclaresOwn)
    (hc : Changes src dst plan w w') : w'.tree.DeclaresOwn := by
  induction hc with
  | refl => exact hown
  | tail hrun hstep ih => exact hstep.declaresOwn (Changes.grown Ls D h hrun) ih

end

/-- What goes under a copy goes under the copy of its parent. -/
def PatchSet.UnderParents (s : PatchSet) : Prop :=
  ∀ patch ∈ s.patches, ∀ i, patch.insertion? = some i → ∀ q, i.parent = .inserted q →
    s.destination.parent? i.node = some q

theorem PatchSet.linked_apply {s : PatchSet} {src : Tree} (L : src.Linked) (D : s.destination.Linked)
    (hown : src.DeclaresOwn) (hparents : s.UnderParents) :
    (s.apply src).tree.Linked ∧ (s.apply src).tree.DeclaresOwn ∧
      src.size ≤ (s.apply src).tree.size := by
  rcases apply_changes L D (Plan.within_of_make L hown hparents) with
    hsame | ⟨plan, w, -, hchanges, htree⟩
  · rw [hsame]
    exact ⟨L, hown, Nat.le_refl _⟩
  · have hstart : Grown src s.destination { tree := src } := Grown.start L
    have hgrown := Changes.grown L D hstart hchanges
    rw [htree]
    exact ⟨hgrown.linked, hchanges.declaresOwn L D hstart hown, hgrown.size_le⟩

/-! ## Replaying -/

namespace Tree

variable {R : NodeId → NodeId → Prop} {t t' : Tree}

theorem Parallel.isomorphic (h : Parallel R t t') (L : t.Linked) (L' : t'.Linked)
    (hown : t.DeclaresOwn) : Isomorphic (fun a b => R a b ∧ a < t.size) t t' := by
  have hbound : ∀ {l l' : List NodeId}, (∀ a ∈ l, a < t.size) → List.Forall₂ R l l' →
      List.Forall₂ (fun a b => R a b ∧ a < t.size) l l' := fun hl hrel =>
    ((List.forall₂_and_left _ _).mpr ⟨hl, hrel⟩).imp fun _ _ hand => hand.symm
  have hsame : SameUpTo (fun a b => R a b ∧ a < t.size) t t' :=
    { unique := ⟨fun _ _ _ hac hbc => h.unique.1 hac.1 hbc.1, fun _ _ _ hab hac => h.unique.2 hab.1 hac.1⟩
      root := ⟨h.root, L.root_lt⟩
      kind := fun hab => h.kind hab.1
      label := fun hab => h.label hab.1
      role := fun hab => h.role hab.1
      children := fun hab =>
        hbound (fun _ hc => t.lt_size_of_parent (L.mem_children.mp hc)) (h.children hab.1)
      units := ((List.forall₂_and_left _ _).mpr ⟨hown, h.units⟩).imp fun _ _ hand =>
        hbound hand.1 hand.2 }
  refine { hsame with
    parent? := fun {a b} hab => ?_
    isAttached := fun hab => h.isAttached hab.1
    exists_right := fun a ha => hsame.exists_right L ha
    exists_left := fun b hb => hsame.flip.exists_right L' hb }
  rcases cases_of_rel (h.parent? hab.1) with ⟨hp, hq⟩ | ⟨p, q, hp, hq, hpq⟩ <;> rw [hp, hq]
  · exact .none
  · exact .some ⟨hpq, L.parent_lt hp⟩

end Tree

/-- The patches of `s` do the same to `t` and `t'`, whose nodes correspond by `ρ`: they can be applied to
both or to neither, with the same error and after the same stages, and the correspondence extends to the
nodes that the two runs create. -/
structure PatchSet.Replayed (s : PatchSet) (ρ : NodeId → NodeId → Prop) (t t' : Tree) : Prop where
  error : Option.Rel PatchError.Alike (s.apply t).error (s.apply t').error
  stages : (s.apply t).stages = (s.apply t').stages
  grown : ∃ k, (s.apply t).tree.size = t.size + k ∧ (s.apply t').tree.size = t'.size + k ∧
    Tree.Isomorphic (Tree.extended ρ t.size t'.size k) (s.apply t).tree (s.apply t').tree

/-- **Patches can be replayed on any tree of the same form.** If the nodes that can be reached in two linked
trees correspond, whatever their numbers and positions, then the patches can be applied to both trees or to
neither, with the same error and after the same stages, and the correspondence extends to the nodes that the
two runs created, in the order of their creation. -/
theorem PatchSet.replays {s : PatchSet} {t t' : Tree} {ρ : NodeId → NodeId → Prop} (L : t.Linked)
    (L' : t'.Linked) (D : s.destination.Linked) (hparents : s.UnderParents)
    (h : Tree.SameUpTo ρ t t')
    (hatt : ∀ {a b}, ρ a b → t.isAttached a = true ∧ t'.isAttached b = true) :
    s.Replayed ρ t t' := by
  have hown : t.DeclaresOwn := fun u hu n hn => by
    obtain ⟨u', -, hrel⟩ := exists_mem_of_forall₂ h.units.flip hu
    obtain ⟨n', -, hn⟩ := exists_mem_of_forall₂ hrel.flip hn
    exact L.lt_size_of_isAttached (hatt hn).1
  have hown' : t'.DeclaresOwn := fun u' hu' n' hn' => by
    obtain ⟨u, -, hrel⟩ := exists_mem_of_forall₂ h.units hu'
    obtain ⟨n, -, hn⟩ := exists_mem_of_forall₂ hrel hn'
    exact L'.lt_size_of_isAttached (hatt hn).2
  obtain ⟨La, hdeclares, hsize⟩ := linked_apply L D hown hparents
  obtain ⟨La', -, -⟩ := linked_apply L' D hown' hparents
  obtain ⟨hpar, hstages, herror⟩ := s.parallel_apply (h.parallel L L' hatt)
  have hlt : ∀ {a b}, ρ a b → a < t.size := fun hab => L.lt_size_of_isAttached (hatt hab).1
  -- both trees have grown by as many nodes
  obtain ⟨k, hk, hk'⟩ : ∃ k, (s.apply t).tree.size = t.size + k ∧ (s.apply t').tree.size = t'.size + k := by
    rcases hpar.next 0 with hρ | hshift
    · exact absurd (hlt hρ) (Nat.not_lt.mpr hsize)
    · exact hshift
  refine ⟨herror, hstages, ⟨k, hk, hk', ?_⟩⟩
  have hextended : (fun a b => (ρ a b ∨ ∃ i, a = t.size + i ∧ b = t'.size + i) ∧
      a < (s.apply t).tree.size) = Tree.extended ρ t.size t'.size k := by
    funext a b
    refine propext ⟨?_, ?_⟩
    · rintro ⟨hab | ⟨i, rfl, rfl⟩, hlt⟩
      · exact Or.inl hab
      · exact Or.inr ⟨i, Nat.lt_of_add_lt_add_left (hk ▸ hlt), rfl, rfl⟩
    · rintro (hab | ⟨i, hi, rfl, rfl⟩)
      · exact ⟨Or.inl hab, Nat.lt_of_lt_of_le (hlt hab) hsize⟩
      · exact ⟨Or.inr ⟨i, rfl, rfl⟩, hk ▸ Nat.add_lt_add_left hi _⟩
  exact hextended ▸ hpar.isomorphic La La' hdeclares

theorem Tree.sameUpTo_of_pairs {pairs : List (NodeId × NodeId)} {t t' : Tree} (hpairs : OneToOne pairs)
    (hroot : (Tree.root, Tree.root) ∈ pairs)
    (hnodes : ∀ q ∈ pairs, (t.kind q.1, t.label q.1, t.role q.1) = (t'.kind q.2, t'.label q.2, t'.role q.2) ∧
      List.Forall₂ (fun a b => (a, b) ∈ pairs) (t.children q.1) (t'.children q.2))
    (hunits : List.Forall₂
      (fun u u' => List.Forall₂ (fun a b => (a, b) ∈ pairs) u.declaredTypes u'.declaredTypes)
      t.units t'.units) : SameUpTo (fun a b => (a, b) ∈ pairs) t t' where
  unique := ⟨fun _ _ _ hac hbc => congrArg Prod.fst (hpairs.eq_of_snd hac hbc rfl),
    fun _ _ _ hab hac => congrArg Prod.snd (hpairs.eq_of_fst hab hac rfl)⟩
  root := hroot
  kind hab := congrArg (·.1) (hnodes _ hab).1
  label hab := congrArg (·.2.1) (hnodes _ hab).1
  role hab := congrArg (·.2.2) (hnodes _ hab).1
  children hab := (hnodes _ hab).2
  units := hunits

/-- The second tree once had another method in front, so that its nodes have other numbers. The patches add
a thrown type and a method, and want to place the name of the method again, which came in with it. -/
theorem PatchSet.replays_methods :
    let t := Tree.ofMethods "one" [("f", ["A"])]
    let t' := ((Tree.ofMethods "two" [("g", []), ("f", ["A"])]).detach 2).toOption.getD (.bare "two")
    let pairs : List (NodeId × NodeId) := [(0, 0), (1, 1), (2, 5), (3, 6), (4, 7), (5, 8)]
    let method : Path := ⟨[⟨.containedType, some 0⟩, ⟨.typeMember, some 0⟩]⟩
    let s : PatchSet :=
      { destination := Tree.ofMethods "new" [("f", ["B", "A"]), ("k", [])]
        patches :=
          [.insert ⟨none, 5, .thrown, .existing ⟨method.steps ++ [⟨.child, some 0⟩]⟩, .start⟩,
            .insert ⟨some 1, 7, .typeMember, .existing ⟨[⟨.containedType, some 0⟩]⟩, .after method⟩,
            .insert ⟨none, 8, .slot .name, .inserted 7, .start⟩] }
    t.Linked ∧ t'.Linked ∧ s.destination.Linked ∧ s.UnderParents ∧
      Tree.SameUpTo (fun a b => (a, b) ∈ pairs) t t' ∧ (s.apply t).error = none ∧
      s.Replayed (fun a b => (a, b) ∈ pairs) t t' := by
  intro t t' pairs method s
  have L : t.Linked := Tree.linked_ofRose _ _ _
  have L' : t'.Linked := by
    have Lu : (Tree.ofMethods "two" [("g", []), ("f", ["A"])]).Linked := Tree.linked_ofRose _ _ _
    have hdetach := eq_ok_of_isSome (a := Tree.bare "two") (by decide +kernel :
      ((Tree.ofMethods "two" [("g", []), ("f", ["A"])]).detach 2).toOption.isSome = true)
    obtain ⟨p, -, hu⟩ := Tree.detach_of_ok Lu hdetach
    exact hu.linked Lu
  have D : s.destination.Linked := Tree.linked_ofRose _ _ _
  have hparents : s.UnderParents := by
    intro patch hpatch i hi q hq
    simp only [s, List.mem_cons, List.not_mem_nil, or_false] at hpatch
    rcases hpatch with rfl | rfl | rfl <;> obtain rfl := Option.some.inj hi <;> cases hq
    decide +kernel
  have h : Tree.SameUpTo (fun a b => (a, b) ∈ pairs) t t' :=
    Tree.sameUpTo_of_pairs (by unfold OneToOne; decide) (by decide) (by decide +kernel) (by decide +kernel)
  have hatt : ∀ q ∈ pairs, t.isAttached q.1 = true ∧ t'.isAttached q.2 = true := by decide +kernel
  exact ⟨L, L', D, hparents, h, by decide +kernel,
    replays L L' D hparents h fun hab => hatt _ hab⟩

end TreePatch
