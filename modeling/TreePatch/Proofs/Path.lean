import TreePatch.Path
import TreePatch.Proofs.Edit

/-!
# Paths lead back

In a tree with one unit exactly the nodes that can be reached have a path, with one step for each level.
Members of a collection and of a repeatable role are found again by their ordinal, so following the path
leads back to the node unless, somewhere on the way, an elder sibling has the same role and that role
comes without an ordinal (`Charted.exists_path`). In an addressable tree nothing else ever stands in a
single slot.
-/

namespace TreePatch

theorem Role.isSingleSlot_of {r : Role} (hroot : r ≠ .root) (hcollection : r.isCollection = false)
    (hrepeatable : r.isRepeatable = false) : r.isSingleSlot = true := by
  cases r with
  | slot s => simpa [isSingleSlot, isRepeatable] using hrepeatable
  | _ => simp_all [isCollection, isRepeatable, isSingleSlot]

namespace Tree

/-- There is one compilation unit, and it declares the top-level types as the root lists them. -/
def InSync (t : Tree) : Prop :=
  ∃ u, t.units = [u] ∧ u.declaredTypes = t.childrenWithRole root .containedType

/-- A linked tree with one unit in step with its root, and top-level types only below that root. -/
structure Charted (t : Tree) : Prop where
  linked : t.Linked
  inSync : t.InSync
  contained : ∀ {n p}, t.parent? n = some p → t.role n = .containedType → p = root

/-- A linked tree with the root that every tree starts with and one unit in step with it, in which roles
are used as they are meant. -/
structure Rooted (t : Tree) : Prop where
  linked : t.Linked
  root_kind : t.kind root = "package"
  root_label : t.label root = ""
  root_role : t.role root = .root
  inSync : t.InSync
  contained : ∀ {n p}, t.parent? n = some p → t.role n = .containedType → p = root
  role_ne_root : ∀ {n p}, t.parent? n = some p → t.role n ≠ .root
  thrown : ∀ {n n' p}, t.parent? n = some p → t.parent? n' = some p → t.role n = .thrown →
    t.role n' = .thrown

/-- A rooted tree without implicit nodes. Fixed punctuation may stand anywhere, except next to thrown
types. -/
structure Regular (t : Tree) : Prop extends t.Rooted where
  explicit : ∀ {n p}, t.isAttached p = true → t.parent? n = some p → t.isImplicit n = false

/-- A tree whose nodes can be told apart by the roles that they play under their parents. -/
structure Addressable (t : Tree) : Prop extends t.Regular where
  single : ∀ {n n' p}, t.parent? n = some p → t.parent? n' = some p → t.role n = t.role n' →
    (t.role n).isSingleSlot = true → n = n'
  modifiers : ∀ {n n' p}, t.parent? n = some p → t.parent? n' = some p → t.role n = .modifier →
    t.role n' = .modifier → t.kind n = "modifiers" → t.kind n' = "modifiers" → n = n'

/-- The path of the node leads back to it. -/
def Leads (t : Tree) (n : NodeId) : Prop :=
  ∃ path, t.pathOf n = .ok path ∧ t.resolve path = some n

variable {t : Tree}

theorem Linked.mem_childrenWithRole (L : t.Linked) {n p : NodeId} {r : Role} :
    n ∈ t.childrenWithRole p r ↔ t.parent? n = some p ∧ t.role n = r := by
  rw [childrenWithRole, List.mem_filter, L.mem_children, beq_iff_eq]

/-- The children of `p` can be told apart by their roles. -/
def Distinguishes (t : Tree) (p : NodeId) : Prop :=
  ∀ n ∈ t.children p, t.role n ≠ .root ∧ t.isImplicit n = false ∧
    (t.role n = .containedType → p = root) ∧
      ∀ n' ∈ t.children p,
        (t.role n = t.role n' → (t.role n).isSingleSlot = true → n = n') ∧
          (t.role n = .modifier → t.role n' = .modifier → t.kind n = "modifiers" →
            t.kind n' = "modifiers" → n = n') ∧
            (t.role n = .thrown → t.role n' = .thrown)

instance (t : Tree) (p : NodeId) : Decidable (t.Distinguishes p) :=
  inferInstanceAs (Decidable (∀ n ∈ _, _))

theorem Linked.addressable (L : t.Linked) (hroot : (t.node root).toContent = rootContent) (hsync : t.InSync)
    (h : ∀ p < t.size, t.Distinguishes p) : t.Addressable := by
  have hall : ∀ {n p}, t.parent? n = some p → p < t.size ∧ n ∈ t.children p := fun hp =>
    ⟨L.parent_lt hp, L.mem_children.mpr hp⟩
  have hchild : ∀ {n p}, t.parent? n = some p → _ := fun {n p} hp => h p (hall hp).1 n (hall hp).2
  exact
    { linked := L
      root_kind := congrArg Content.kind hroot
      root_label := congrArg Content.label hroot
      root_role := congrArg Content.role hroot
      inSync := hsync
      contained := fun hp => (hchild hp).2.2.1
      role_ne_root := fun hp => (hchild hp).1
      explicit := fun _ hp => (hchild hp).2.1
      single := fun hp hp' => ((hchild hp).2.2.2 _ (hall hp').2).1
      modifiers := fun hp hp' => ((hchild hp).2.2.2 _ (hall hp').2).2.1
      thrown := fun hp hp' => ((hchild hp).2.2.2 _ (hall hp').2).2.2 }

theorem inSync_ofRose (name : String) (file : Option String) (r : Rose Content) :
    (ofRose name file r).InSync :=
  ⟨_, rfl, rfl⟩

/-- A node in a single slot is the first child of its parent in that slot. -/
def Foremost (t : Tree) (n : NodeId) : Prop :=
  (t.role n).isSingleSlot = true →
    ∀ p ∈ t.parent? n, (t.childrenWithRole p (t.role n)).head? = some n

instance (t : Tree) (n : NodeId) : Decidable (t.Foremost n) :=
  inferInstanceAs (Decidable (_ → ∀ p ∈ _, _))

/-- A node whose role comes without an ordinal is the first child of its parent in that role. -/
def StandsFirst (t : Tree) (n : NodeId) : Prop :=
  (t.role n).isCollection = false → (t.role n).isRepeatable = false →
    ∀ p ∈ t.parent? n, (t.childrenWithRole p (t.role n)).head? = some n

instance (t : Tree) (n : NodeId) : Decidable (t.StandsFirst n) :=
  inferInstanceAs (Decidable (_ → _ → ∀ p ∈ _, _))

theorem standsFirst_of_top {n : NodeId} (h : t.parent? n = none) : t.StandsFirst n := by
  intro _ _ p hp
  rw [h] at hp
  simp at hp

theorem Rooted.charted (A : t.Rooted) : t.Charted :=
  { linked := A.linked, inSync := A.inSync, contained := A.contained }

namespace Charted

theorem collection_eq (A : t.Charted) {n p : NodeId} (hp : t.parent? n = some p)
    (hrole : (t.role n).isCollection = true) :
    t.collection n = .ok (t.childrenWithRole p (t.role n)) := by
  rw [collection]
  by_cases hc : t.role n = .containedType
  · obtain ⟨u, hunits, hdeclared⟩ := A.inSync
    simp only [hc, if_true, onlyUnit, hunits, hdeclared, A.contained hp hc]
  · simp only [if_neg hc, hrole, if_true, hp]

theorem exists_indexInCollection (A : t.Charted) {n p : NodeId} (hp : t.parent? n = some p)
    (hrole : (t.role n).isCollection = true) :
    ∃ i, t.indexInCollection n = .ok (some i) ∧
      (t.childrenWithRole p (t.role n))[i]? = some n := by
  obtain ⟨i, hi, hget⟩ := exists_idxOf? (A.linked.mem_childrenWithRole.mpr ⟨hp, rfl⟩)
  refine ⟨i, ?_, hget⟩
  rw [indexInCollection, if_pos hrole, A.collection_eq hp hrole, Except.map, hi]

theorem exists_index (A : t.Charted) {n p : NodeId} (hp : t.parent? n = some p) :
    ∃ index, t.indexInCollection n = .ok index := by
  by_cases hrole : (t.role n).isCollection = true
  · obtain ⟨i, hi, -⟩ := A.exists_indexInCollection hp hrole
    exact ⟨some i, hi⟩
  · exact ⟨none, by rw [indexInCollection, if_neg hrole]⟩

theorem exists_step (A : t.Charted) {n p : NodeId} (hp : t.parent? n = some p) :
    ∃ index, t.stepTo n = .ok ⟨t.role n, index⟩ ∧
      ((t.childrenWithRole p (t.role n))[index.getD 0]? = some n ↔ t.StandsFirst n) := by
  rw [stepTo]
  by_cases hcollection : (t.role n).isCollection = true
  · obtain ⟨i, hi, hget⟩ := A.exists_indexInCollection hp hcollection
    refine ⟨some i, ?_, iff_of_true hget fun hno => ?_⟩
    · rw [if_pos hcollection, hi]
      rfl
    · simp [hcollection] at hno
  · by_cases hrepeatable : (t.role n).isRepeatable = true
    · obtain ⟨i, hi, hget⟩ := exists_idxOf? (A.linked.mem_childrenWithRole.mpr ⟨hp, rfl⟩)
      refine ⟨some i, ?_, iff_of_true hget fun _ hno => ?_⟩
      · simp only [if_neg hcollection, if_pos hrepeatable, hp, Option.elim_some, hi]
      · simp [hrepeatable] at hno
    · refine ⟨none, by simp only [if_neg hcollection, if_neg hrepeatable], ?_⟩
      rw [Option.getD_none, ← List.head?_eq_getElem?]
      constructor
      · intro hget _ _ p' hp'
        obtain rfl := Option.some.inj (hp.symm.trans hp')
        exact hget
      · exact fun h => h (by simpa using hcollection) (by simpa using hrepeatable) p hp

theorem follow_iff (A : t.Charted) {n p m : NodeId} (hp : t.parent? n = some p) {index : Option Nat}
    (hm : t.role n = .containedType → m = root) :
    t.follow m ⟨t.role n, index⟩ = some n ↔
      m = p ∧ (t.childrenWithRole p (t.role n))[index.getD 0]? = some n := by
  have hfollow : t.follow m ⟨t.role n, index⟩ = (t.childrenWithRole m (t.role n))[index.getD 0]? := by
    rw [follow]
    split
    · next hc =>
      obtain ⟨u, hunits, hdeclared⟩ := A.inSync
      simp only at hc
      rw [hm hc, onlyUnit, hunits, hc, ← hdeclared]
      rfl
    · rfl
  rw [hfollow]
  constructor
  · intro hget
    have hparent := (A.linked.mem_childrenWithRole.mp (List.mem_of_getElem? hget)).1
    obtain rfl := Option.some.inj (hparent.symm.trans hp)
    exact ⟨rfl, hget⟩
  · rintro ⟨rfl, hget⟩
    exact hget

/-- A node that can be reached has a path with one step for each node above it. The path leads back
exactly if the node and those above it stand first where they have to. -/
theorem exists_path (A : t.Charted) {n : NodeId} (h : t.isAttached n = true) :
    ∃ path, t.pathOf n = .ok path ∧ path.length = (t.ancestors n).length ∧
      (t.resolve path = some n ↔ ∀ a ∈ n :: t.ancestors n, t.StandsFirst a) := by
  have L := A.linked
  suffices hsteps : ∃ steps, (n :: t.ancestors n).dropLast.mapM t.stepTo = .ok steps ∧
      (n :: t.ancestors n).getLast (by simp) = root ∧ steps.length = (t.ancestors n).length ∧
        (steps.reverse.foldlM t.follow root = some n ↔
          ∀ a ∈ n :: t.ancestors n, t.StandsFirst a) by
    obtain ⟨steps, hmap, hlast, hlength, hfold⟩ := hsteps
    refine ⟨⟨steps.reverse⟩, ?_, by rw [Path.length, List.length_reverse, hlength], hfold⟩
    have htop : (n :: t.ancestors n).getLastD n = root := by
      rw [List.getLastD_eq_getLast?, List.getLast?_eq_getLast_of_ne_nil (by simp), hlast]
      rfl
    simp only [pathOf, hmap, htop, if_true]
    rfl
  refine L.induction_attached (P := fun n => ∃ steps,
    (n :: t.ancestors n).dropLast.mapM t.stepTo = .ok steps ∧
      (n :: t.ancestors n).getLast (by simp) = root ∧ steps.length = (t.ancestors n).length ∧
        (steps.reverse.foldlM t.follow root = some n ↔
          ∀ a ∈ n :: t.ancestors n, t.StandsFirst a)) ?_ ?_ h
  · refine ⟨[], ?_, ?_, ?_, ?_⟩
    · rw [L.ancestors_root]
      rfl
    · simp only [L.ancestors_root, List.getLast_singleton]
    · rw [L.ancestors_root, List.length_nil, List.length_nil]
    · simpa [L.ancestors_root] using standsFirst_of_top L.root_top
  · rintro c p hp - ⟨steps, hmap, hlast, hlength, hfold⟩
    obtain ⟨index, hstep, hlands⟩ := A.exists_step hp
    refine ⟨⟨t.role c, index⟩ :: steps, ?_, ?_, ?_, ?_⟩
    · rw [L.ancestors_of_some hp, List.dropLast_cons_of_ne_nil (by simp), List.mapM_cons, hstep, hmap]
      rfl
    · simp only [L.ancestors_of_some hp]
      rw [List.getLast_cons (by simp)]
      exact hlast
    · rw [L.ancestors_of_some hp, List.length_cons, List.length_cons, hlength]
    · -- the last step comes from the parent, and the steps before it lead there
      rw [List.reverse_cons, List.foldlM_append, L.ancestors_of_some hp, List.forall_mem_cons, ← hfold,
        ← hlands]
      have hcontained : ∀ {m}, steps.reverse.foldlM t.follow root = some m →
          t.role c = .containedType → m = root := fun {m} hm hrole => by
        rw [A.contained hp hrole, L.ancestors_root, List.length_nil, List.length_eq_zero_iff] at hlength
        rw [hlength] at hm
        exact (Option.some.inj hm).symm
      have hlast : ∀ m, [(⟨t.role c, index⟩ : Step)].foldlM t.follow m = t.follow m ⟨t.role c, index⟩ :=
        fun m => by simp
      constructor
      · intro h
        obtain ⟨m, hm, hfollow⟩ := Option.bind_eq_some_iff.mp h
        rw [hlast, A.follow_iff hp (hcontained hm)] at hfollow
        obtain ⟨rfl, hget⟩ := hfollow
        exact ⟨hget, hm⟩
      · rintro ⟨hget, hm⟩
        refine Option.bind_eq_some_iff.mpr ⟨p, hm, ?_⟩
        rw [hlast, A.follow_iff hp (hcontained hm)]
        exact ⟨rfl, hget⟩

end Charted

theorem exists_pathOf_error {n : NodeId} (h : t.isAttached n = false) : ∃ e, t.pathOf n = .error e := by
  have htop : (n :: t.ancestors n).getLastD n ≠ root := by
    intro hroot
    have hmem : root ∈ n :: t.ancestors n := by
      rw [← hroot, List.getLastD_eq_getLast?, List.getLast?_eq_getLast_of_ne_nil (by simp)]
      exact List.getLast_mem _
    rw [List.mem_cons, eq_comm, ← Linked.isAttached_iff, h] at hmem
    simp at hmem
  rw [pathOf]
  cases (n :: t.ancestors n).dropLast.mapM t.stepTo with
  | error e => exact ⟨e, rfl⟩
  | ok steps => exact ⟨.noParent ((n :: t.ancestors n).getLastD n), if_neg htop⟩

namespace Rooted

theorem standsFirst_iff (A : t.Rooted) (n : NodeId) : t.StandsFirst n ↔ t.Foremost n := by
  constructor
  · intro h hsingle
    refine h ?_ ?_ <;>
      cases hrole : t.role n <;> simp_all [Role.isCollection, Role.isRepeatable, Role.isSingleSlot]
  · intro h hcollection hrepeatable p hp
    exact h (Role.isSingleSlot_of (A.role_ne_root hp) hcollection hrepeatable) p hp

/-- **A path leads back to its node** exactly if that node and those above it are foremost. -/
theorem exists_path (A : t.Rooted) {n : NodeId} (h : t.isAttached n = true) :
    ∃ path, t.pathOf n = .ok path ∧
      (t.resolve path = some n ↔ ∀ a ∈ n :: t.ancestors n, t.Foremost a) := by
  obtain ⟨path, hpath, -, hresolve⟩ := A.charted.exists_path h
  refine ⟨path, hpath, hresolve.trans (forall₂_congr fun a _ => A.standsFirst_iff a)⟩

end Rooted

namespace Addressable

theorem foremost (A : t.Addressable) (n : NodeId) : t.Foremost n := by
  intro hrole p hp
  have hmem := A.linked.mem_childrenWithRole.mpr ⟨hp, rfl⟩
  cases hl : t.childrenWithRole p (t.role n) with
  | nil =>
    rw [hl] at hmem
    simp at hmem
  | cons m l =>
    obtain ⟨hm, hmrole⟩ := A.linked.mem_childrenWithRole.mp (hl ▸ List.mem_cons_self)
    rw [A.single hp hm hmrole.symm hrole]
    rfl

theorem leads (A : t.Addressable) {n : NodeId} (h : t.isAttached n = true) : t.Leads n := by
  obtain ⟨path, hpath, hresolve⟩ := A.exists_path h
  exact ⟨path, hpath, hresolve.mpr fun a _ => A.foremost a⟩

end Addressable

/-- **Exactly the nodes that can be reached have a path**, with one step for each node above them. It leads
back to its node if and only if, on the way from the root, every node whose role comes without an ordinal
stands first among its siblings in that role. -/
theorem Linked.addressed_iff (L : t.Linked) (hsync : t.InSync)
    (hcontained : ∀ n p, t.parent? n = some p → t.role n = .containedType → p = root) (n : NodeId) :
    (t.isAttached n = true → ∃ path, t.pathOf n = .ok path ∧ path.length = (t.ancestors n).length ∧
      (t.resolve path = some n ↔ ∀ a ∈ n :: t.ancestors n, a ≠ root → t.StandsFirst a)) ∧
    (t.isAttached n = false → ∃ e, t.pathOf n = .error e) := by
  have A : t.Charted := ⟨L, hsync, hcontained _ _⟩
  refine ⟨fun h => ?_, exists_pathOf_error⟩
  obtain ⟨path, hpath, hlength, hresolve⟩ := A.exists_path h
  refine ⟨path, hpath, hlength, hresolve.trans (forall₂_congr fun a _ => ?_)⟩
  by_cases ha : a = root
  · exact iff_of_true (ha ▸ standsFirst_of_top L.root_top) fun hne => absurd ha hne
  · exact ⟨fun h _ => h, fun h => h ha⟩

/-- A class whose body holds a cast to the types `A` (5) and `B` (7), which fill one slot. Below `B` there is
a name (8). -/
def crowdedForm : Rose Content :=
  let leaf (kind label : String) (role : Role) : Rose Content := .node { kind, label, role } []
  let inner (kind : String) (role : Role) : List (Rose Content) → Rose Content :=
    .node { kind, label := "", role }
  .node rootContent
    [inner "class_declaration" .containedType
      [leaf "identifier" "C" (.slot .name), inner "class_body" (.slot .body)
        [inner "cast_expression" .typeMember
          [leaf "type_identifier" "A" (.slot .type), leaf "&" "&" .token,
            inner "generic_type" (.slot .type) [leaf "identifier" "B" .child]]]]]

/-- The class with the token between the types (6) unlinked. -/
def crowded : Tree :=
  let tree := ofRose "crowded" none crowdedForm
  (tree.detach 6).toOption.getD tree

theorem Linked.addressed_iff_crowded :
    (crowded.Linked ∧ crowded.InSync ∧
      ∀ n p, crowded.parent? n = some p → crowded.role n = .containedType → p = root) ∧
    (∃ path, crowded.pathOf 5 = .ok path ∧ path.length = 4 ∧ crowded.resolve path = some 5) ∧
    (∃ path, crowded.pathOf 8 = .ok path ∧ path.length = 5 ∧ crowded.resolve path ≠ some 8) ∧
    ∃ e, crowded.pathOf 6 = .error e := by
  have L : crowded.Linked := by
    have hwhole := linked_ofRose "crowded" none crowdedForm
    obtain ⟨t', ht', hu⟩ := detach_ok hwhole (n := 6) (p := 4) (by decide +kernel)
    rw [crowded, ht']
    exact hu.linked hwhole
  have hsync : crowded.InSync := ⟨⟨none, [1]⟩, by decide +kernel, by decide +kernel⟩
  have hcontained : ∀ n p, crowded.parent? n = some p → crowded.role n = .containedType → p = root := by
    have hall : ∀ n < crowded.size, ∀ p ∈ crowded.parent? n, crowded.role n = .containedType →
      p = root := by decide +kernel
    exact fun n p hp => hall n (crowded.lt_size_of_parent hp) p hp
  have hspec := addressed_iff L hsync hcontained
  obtain ⟨path, hpath, hlength, hback⟩ := (hspec 5).1 (by decide +kernel)
  obtain ⟨path', hpath', hlength', hback'⟩ := (hspec 8).1 (by decide +kernel)
  refine ⟨⟨L, hsync, hcontained⟩, ⟨path, hpath, hlength, hback.mpr (by decide +kernel)⟩,
    ⟨path', hpath', hlength', fun hresolve => ?_⟩, (hspec 6).2 (by decide +kernel)⟩
  exact absurd (hback'.mp hresolve 7 (by decide +kernel) (by decide)) (by decide +kernel)

end Tree

end TreePatch
