import TreePatch.Proofs.Linked
import TreePatch.Proofs.Prelude
import TreePatch.Tree.Edit

/-!
# What edits change

Each edit of a tree described by what it does to contents, parents, child lists and compilation units
(`Unlinked`, `LinkedIn`, `Exchanged`), so that later proofs never open an edit. In linked trees the
edits succeed where they are used, and the results are linked again.
-/

namespace TreePatch

namespace Tree

/-- What a node carries apart from its links. -/
def content (t : Tree) (n : NodeId) : Content :=
  (t.node n).toContent

section

variable {t t' : Tree} {n : NodeId}

theorem kind_of_content {n' : NodeId} (h : t'.content n' = t.content n) : t'.kind n' = t.kind n :=
  congrArg Content.kind h

theorem label_of_content {n' : NodeId} (h : t'.content n' = t.content n) :
    t'.label n' = t.label n :=
  congrArg Content.label h

theorem role_of_content {n' : NodeId} (h : t'.content n' = t.content n) : t'.role n' = t.role n :=
  congrArg Content.role h

theorem size_modify (t : Tree) (n : NodeId) (f : Node → Node) : (t.modify n f).size = t.size :=
  Array.size_modify

theorem node_modify (t : Tree) (n : NodeId) (f : Node → Node) (x : NodeId) :
    (t.modify n f).node x = if x = n ∧ n < t.size then f (t.node x) else t.node x := by
  rw [node, node, modify, Array.getD_eq_getD_getElem?, Array.getD_eq_getD_getElem?,
    Array.getElem?_modify]
  by_cases hx : n = x
  · subst hx
    by_cases hn : n < t.size
    · rw [if_pos rfl, if_pos ⟨rfl, hn⟩, Array.getElem?_eq_getElem hn]
      rfl
    · rw [if_pos rfl, if_neg (fun h => hn h.2), Array.getElem?_eq_none (Nat.le_of_not_lt hn)]
      rfl
  · rw [if_neg hx, if_neg fun h => hx h.1.symm]

end

theorem Linked.of_same_links {t t' : Tree} (L : t.Linked) (hsize : t.size ≤ t'.size)
    (hparent : ∀ x, t'.parent? x = t.parent? x) (hchildren : ∀ x, t'.children x = t.children x) :
    t'.Linked where
  root_lt := Nat.lt_of_lt_of_le L.root_lt hsize
  root_top := (hparent root).trans L.root_top
  mem_children {p c} := by rw [hchildren, hparent, L.mem_children]
  nodup p := hchildren p ▸ L.nodup p
  acyclic := by simpa only [hparent] using L.acyclic

/-! ## Unlinking -/

/-- `t'` is `t` without the link of `n` to its parent. -/
structure Unlinked (t : Tree) (n : NodeId) (t' : Tree) : Prop where
  name : t'.name = t.name
  size : t'.size = t.size
  content : ∀ x, t'.content x = t.content x
  parent? : ∀ x, t'.parent? x = if x = n then none else t.parent? x
  children : ∀ x, t'.children x = (t.children x).filter (· != n)
  units : t'.units = if t.role n = .containedType then t.units.map (·.erase n) else t.units

variable {t t' : Tree}

theorem detach_ok (L : t.Linked) {n p : NodeId} (h : t.parent? n = some p) :
    ∃ t', t.detach n = .ok t' ∧ Unlinked t n t' := by
  have hn : n < t.size := t.lt_size_of_parent h
  have hp : p < t.size := L.parent_lt h
  -- a node other than the parent does not list `n`
  have hother : ∀ x, x ≠ p → (t.children x).filter (· != n) = t.children x := by
    intro x hx
    refine List.filter_eq_self.mpr fun c hc => ?_
    have hne : c ≠ n := by
      rintro rfl
      rw [L.mem_children, h] at hc
      exact hx (Option.some.inj hc).symm
    simpa using hne
  let unlinked := (t.modify p fun m => { m with children := m.children.filter (· != n) }).modify n
    fun m => { m with parent := none }
  have hnode : ∀ x, unlinked.node x =
      { t.node x with
        parent := if x = n then none else t.parent? x
        children := (t.children x).filter (· != n) } := by
    intro x
    rw [node_modify, size_modify, node_modify]
    by_cases hxn : x = n <;> by_cases hxp : x = p
    · subst hxn; subst hxp
      simp [hn, Tree.children]
    · subst hxn
      simp [hn, hxp, hother x hxp]
      rfl
    · subst hxp
      simp [hxn, hp, Tree.parent?, Tree.children]
    · simp [hxn, hxp, Tree.parent?, hother x hxp]
      rfl
  have hspec : ∀ units, Unlinked t n { unlinked with units := units } ↔
      units = if t.role n = .containedType then t.units.map (·.erase n) else t.units := by
    intro units
    refine ⟨fun h => h.units, fun hunits => ⟨rfl, ?_, fun x => ?_, fun x => ?_, fun x => ?_, hunits⟩⟩
    · exact (size_modify _ _ _).trans (size_modify _ _ _)
    · exact (congrArg Node.toContent (hnode x) :)
    · exact (congrArg Node.parent (hnode x) :)
    · exact (congrArg Node.children (hnode x) :)
  rw [detach, h]
  by_cases hrole : t.role n = .containedType
  · refine ⟨_, if_pos hrole, (hspec _).mpr ?_⟩
    rw [if_pos hrole]
  · refine ⟨_, if_neg hrole, (hspec _).mpr ?_⟩
    rw [if_neg hrole]
    rfl

theorem detach_of_ok (L : t.Linked) {n : NodeId} (h : t.detach n = .ok t') :
    ∃ p, t.parent? n = some p ∧ Unlinked t n t' := by
  cases hp : t.parent? n with
  | none =>
    rw [detach, hp] at h
    simp at h
  | some p =>
    obtain ⟨t'', hok, hspec⟩ := detach_ok L hp
    obtain rfl : t'' = t' := Except.ok.inj (hok.symm.trans h)
    exact ⟨p, rfl, hspec⟩

theorem Unlinked.linked (L : t.Linked) {n : NodeId} (h : Unlinked t n t') : t'.Linked where
  root_lt := h.size ▸ L.root_lt
  root_top := by
    rw [h.parent?]
    split
    · rfl
    · exact L.root_top
  mem_children {p c} := by
    rw [h.children, h.parent?, List.mem_filter, L.mem_children]
    by_cases hc : c = n <;> simp [hc]
  nodup p := h.children p ▸ (L.nodup p).filter _
  acyclic := by
    obtain ⟨rank, hrank⟩ := L.acyclic
    refine ⟨rank, fun {p c} hpar => hrank ?_⟩
    rw [h.parent?] at hpar
    split at hpar
    · simp at hpar
    · exact hpar

theorem Linked.getD_detach (L : t.Linked) (n : NodeId) : ((t.detach n).toOption.getD t).Linked := by
  cases h : t.detach n with
  | error e => exact L
  | ok t' =>
    obtain ⟨p, -, hspec⟩ := detach_of_ok L h
    exact hspec.linked L

/-! ## Linking -/

/-- `t'` is `t` with `n` linked under `p` at position `i`. -/
structure LinkedIn (t : Tree) (p : NodeId) (i : Nat) (n : NodeId) (t' : Tree) : Prop where
  name : t'.name = t.name
  size : t'.size = t.size
  content : ∀ x, t'.content x = t.content x
  parent? : ∀ x, t'.parent? x = if x = n then some p else t.parent? x
  children : ∀ x, t'.children x =
    if x = p then (t.children p).take i ++ n :: (t.children p).drop i else t.children x
  units : t'.units = t.units

theorem insertChild_ok {p n : NodeId} {i : Nat} (hp : p < t.size) (hn : n < t.size)
    (htop : t.parent? n = none) (hi : i ≤ (t.children p).length) :
    ∃ t', t.insertChild p i n = .ok t' ∧ LinkedIn t p i n t' := by
  let linked := (t.modify p fun m => { m with children := m.children.insertIdx i n }).modify n
    fun m => { m with parent := some p }
  have hnode : ∀ x, linked.node x =
      { t.node x with
        parent := if x = n then some p else t.parent? x
        children := if x = p then (t.children p).take i ++ n :: (t.children p).drop i
          else t.children x } := by
    intro x
    rw [← insertIdx_eq_take_append hi, node_modify, size_modify, node_modify]
    by_cases hxn : x = n <;> by_cases hxp : x = p
    · subst hxn; subst hxp
      simp [hn, Tree.children]
    · subst hxn
      simp [hn, hxp]
      rfl
    · subst hxp
      simp [hxn, hp, Tree.parent?, Tree.children]
    · simp [hxn, hxp, Tree.parent?]
      rfl
  refine ⟨linked, ?_, rfl, ?_, fun x => ?_, fun x => ?_, fun x => ?_, rfl⟩
  · rw [insertChild, if_neg (by simp [htop]), if_neg (by omega)]
  · exact (size_modify _ _ _).trans (size_modify _ _ _)
  · exact (congrArg Node.toContent (hnode x) :)
  · exact (congrArg Node.parent (hnode x) :)
  · exact (congrArg Node.children (hnode x) :)

theorem insertChild_of_ok {p n : NodeId} {i : Nat} (hp : p < t.size) (hn : n < t.size)
    (h : t.insertChild p i n = .ok t') :
    t.parent? n = none ∧ i ≤ (t.children p).length ∧ LinkedIn t p i n t' := by
  have htop : t.parent? n = none := by
    by_contra hsome
    rw [insertChild, if_pos (Option.isSome_iff_ne_none.mpr hsome)] at h
    simp at h
  have hi : i ≤ (t.children p).length := by
    by_contra hlt
    rw [insertChild, if_neg (by simp [htop]), if_pos (Nat.lt_of_not_le hlt)] at h
    simp at h
  obtain ⟨t'', hok, hspec⟩ := insertChild_ok hp hn htop hi
  obtain rfl : t'' = t' := Except.ok.inj (hok.symm.trans h)
  exact ⟨htop, hi, hspec⟩

theorem Linked.not_above_of_top (L : t.Linked) {n p : NodeId} (htop : t.parent? n = none)
    (hroot : n ≠ root) (hp : t.isAttached p = true) : n ∉ p :: t.ancestors p := by
  refine L.induction_attached (P := fun p => n ∉ p :: t.ancestors p) ?_ ?_ hp
  · rw [L.ancestors_root]
    simpa using hroot
  · intro c q hq _ ih hmem
    rw [L.ancestors_of_some hq] at hmem
    rcases List.mem_cons.mp hmem with rfl | hmem
    · rw [htop] at hq
      simp at hq
    · exact ih hmem

/-- Ranks that still descend when the top `n` is linked under `p`: everything from `n` down is lifted
above `p`. -/
theorem Linked.exists_rank_link (L : t.Linked) {n p : NodeId} (h : n ∉ p :: t.ancestors p) :
    ∃ rank : NodeId → Nat, (∀ {q c}, t.parent? c = some q → rank q < rank c) ∧
      rank p < rank n := by
  obtain ⟨rank, hrank⟩ := L.acyclic
  refine ⟨fun x => rank x + if n ∈ x :: t.ancestors x then rank p + 1 else 0, fun {q c} hc => ?_, ?_⟩
  · have hlt := hrank hc
    dsimp only
    rw [L.ancestors_of_some hc]
    by_cases hq : n ∈ q :: t.ancestors q
    · rw [if_pos hq, if_pos (List.mem_cons_of_mem _ hq)]
      omega
    · rw [if_neg hq]
      omega
  · dsimp only
    rw [if_neg h, if_pos List.mem_cons_self]
    omega

theorem LinkedIn.linked_of_notMem (L : t.Linked) {p n : NodeId} {i : Nat} (htop : t.parent? n = none)
    (hroot : n ≠ root) (habove : n ∉ p :: t.ancestors p) (h : LinkedIn t p i n t') : t'.Linked where
  root_lt := h.size ▸ L.root_lt
  root_top := by
    rw [h.parent?, if_neg (Ne.symm hroot)]
    exact L.root_top
  mem_children {q c} := by
    have hmem : c ∈ (t.children q).take i ++ n :: (t.children q).drop i ↔
        c = n ∨ c ∈ t.children q := by
      rw [List.mem_append, List.mem_cons, or_left_comm, ← List.mem_append, List.take_append_drop]
    rw [h.children, h.parent?]
    by_cases hq : q = p
    · subst hq
      rw [if_pos rfl, hmem, L.mem_children]
      by_cases hc : c = n <;> simp [hc]
    · rw [if_neg hq, L.mem_children]
      by_cases hc : c = n
      · subst hc
        simp [htop, Ne.symm hq]
      · simp [hc]
  nodup q := by
    rw [h.children]
    by_cases hq : q = p
    · subst hq
      have hnot : n ∉ t.children q := fun hmem => by
        rw [L.mem_children, htop] at hmem
        simp at hmem
      rw [if_pos rfl, List.nodup_middle, List.take_append_drop]
      exact List.nodup_cons.mpr ⟨hnot, L.nodup q⟩
    · rw [if_neg hq]
      exact L.nodup q
  acyclic := by
    obtain ⟨rank, hrank, hlt⟩ := L.exists_rank_link habove
    refine ⟨rank, fun {q c} hpar => ?_⟩
    rw [h.parent?] at hpar
    split at hpar
    · next hc => exact hc ▸ Option.some.inj hpar ▸ hlt
    · exact hrank hpar

theorem LinkedIn.linked (L : t.Linked) {p n : NodeId} {i : Nat} (htop : t.parent? n = none)
    (hroot : n ≠ root) (hp : t.isAttached p = true) (h : LinkedIn t p i n t') : t'.Linked :=
  h.linked_of_notMem L htop hroot (L.not_above_of_top htop hroot hp)

/-! ## Exchanging -/

/-- `t'` is `t` with the top `new` in the place and role of `old`, a child of `p`. -/
structure Exchanged (t : Tree) (p old new : NodeId) (t' : Tree) : Prop where
  name : t'.name = t.name
  size : t'.size = t.size
  content : ∀ x, t'.content x =
    if x = new then { t.content new with role := t.role old } else t.content x
  parent? : ∀ x, t'.parent? x =
    if x = old then none else if x = new then some p else t.parent? x
  children : ∀ x, t'.children x =
    if x = p then (t.children p).map fun c => if c = old then new else c else t.children x
  units : t'.units =
    if t.role old = .containedType then t.units.map (·.replace old new) else t.units

theorem replace_ok (L : t.Linked) {p old new : NodeId} (hold : t.parent? old = some p)
    (hnew : new < t.size) (htop : t.parent? new = none) :
    ∃ t', t.replace old new = .ok t' ∧ Exchanged t p old new t' := by
  have hlt : old < t.size := t.lt_size_of_parent hold
  have hp : p < t.size := L.parent_lt hold
  have hne : new ≠ old := by
    rintro rfl
    rw [htop] at hold
    simp at hold
  let linked := ((t.modify p fun m => { m with children := m.children.replace old new }).modify new
    fun m => { m with parent := some p, role := t.role old }).modify old
      fun m => { m with parent := none }
  have hnode : ∀ x, linked.node x =
      { t.node x with
        role := if x = new then t.role old else t.role x
        parent := if x = old then none else if x = new then some p else t.parent? x
        children := if x = p then (t.children p).map fun c => if c = old then new else c
          else t.children x } := by
    intro x
    rw [← replace_eq_map (L.nodup p), node_modify, node_modify, node_modify, size_modify,
      size_modify]
    by_cases hxo : x = old
    · subst hxo
      by_cases hxp : x = p
      · subst hxp
        simp [hlt, Tree.children, Tree.role, Ne.symm hne]
      · simp [hlt, hxp, Tree.children, Tree.role, Ne.symm hne]
    · by_cases hxn : x = new <;> by_cases hxp : x = p
      · subst hxn; subst hxp
        simp [hnew, hxo, Tree.children]
      · subst hxn
        simp [hnew, hxo, hxp, Tree.children]
      · subst hxp
        simp [hp, hxo, hxn, Tree.children, Tree.role, Tree.parent?]
      · simp [hxo, hxn, hxp, Tree.children, Tree.role, Tree.parent?]
  have hcontent : ∀ x, linked.content x =
      if x = new then { t.content new with role := t.role old } else t.content x := by
    intro x
    refine (congrArg Node.toContent (hnode x) :).trans ?_
    by_cases hx : x = new
    · subst hx
      simp [Tree.content]
    · simp [hx, Tree.content, Tree.role]
  have hspec : ∀ t' : Tree, t'.name = t.name → t'.nodes = linked.nodes →
      t'.units = (if t.role old = .containedType then t.units.map (·.replace old new) else t.units) →
        Exchanged t p old new t' := fun t' hname hnodes hunits => by
    have hsame : ∀ x, t'.node x = linked.node x := fun x => by rw [node, hnodes, node]
    exact
      { name := hname
        size := (congrArg Array.size hnodes).trans
          ((size_modify _ _ _).trans ((size_modify _ _ _).trans (size_modify _ _ _)))
        content := fun x => (congrArg Node.toContent (hsame x)).trans (hcontent x)
        parent? := fun x => congrArg Node.parent ((hsame x).trans (hnode x))
        children := fun x => congrArg Node.children ((hsame x).trans (hnode x))
        units := hunits }
  have hmem : (t.children p).contains old = true := by
    rw [List.contains_iff_mem, L.mem_children]
    exact hold
  rw [replace, if_neg (by simp [htop]), hold]
  simp only [hmem, if_true]
  by_cases hrole : t.role old = .containedType
  · refine ⟨_, if_pos hrole, hspec _ rfl rfl ?_⟩
    rw [if_pos hrole]
  · refine ⟨_, if_neg hrole, hspec _ rfl rfl ?_⟩
    rw [if_neg hrole]
    rfl

theorem replace_of_ok (L : t.Linked) {old new : NodeId} (hnew : new < t.size)
    (h : t.replace old new = .ok t') :
    ∃ p, t.parent? old = some p ∧ t.parent? new = none ∧ Exchanged t p old new t' := by
  have htop : t.parent? new = none := by
    by_contra hsome
    rw [replace, if_pos (Option.isSome_iff_ne_none.mpr hsome)] at h
    simp at h
  cases hold : t.parent? old with
  | none =>
    rw [replace, if_neg (by simp [htop]), hold] at h
    simp at h
  | some p =>
    obtain ⟨t'', hok, hspec⟩ := replace_ok L hold hnew htop
    obtain rfl : t'' = t' := Except.ok.inj (hok.symm.trans h)
    exact ⟨p, rfl, htop, hspec⟩

theorem Exchanged.linked_of_notMem (L : t.Linked) {p old new : NodeId} (hold : t.parent? old = some p)
    (htop : t.parent? new = none) (hroot : new ≠ root) (habove : new ∉ p :: t.ancestors p)
    (h : Exchanged t p old new t') : t'.Linked := by
  have hne : new ≠ old := by
    rintro rfl
    rw [htop] at hold
    simp at hold
  have hnew : ∀ q, new ∉ t.children q := fun q hmem => by
    rw [L.mem_children, htop] at hmem
    simp at hmem
  exact
    { root_lt := h.size ▸ L.root_lt
      root_top := by
        rw [h.parent?]
        split
        · rfl
        · rw [if_neg (Ne.symm hroot)]
          exact L.root_top
      mem_children := fun {q c} => by
        rw [h.children, h.parent?]
        by_cases hq : q = p
        · subst hq
          rw [if_pos rfl, List.mem_map]
          constructor
          · rintro ⟨x, hx, rfl⟩
            by_cases hxo : x = old
            · simp [hxo, hne]
            · have hxn : x ≠ new := fun heq => hnew q (heq ▸ hx)
              simpa [hxo, hxn] using L.mem_children.mp hx
          · intro hc
            by_cases hco : c = old
            · simp [hco] at hc
            · by_cases hcn : c = new
              · exact ⟨old, L.mem_children.mpr hold, by simp [hcn]⟩
              · rw [if_neg hco, if_neg hcn] at hc
                exact ⟨c, L.mem_children.mpr hc, by simp [hco]⟩
        · rw [if_neg hq, L.mem_children]
          by_cases hco : c = old
          · subst hco
            simpa [hold] using Ne.symm hq
          · by_cases hcn : c = new
            · subst hcn
              simp [hco, htop, Ne.symm hq]
            · simp [hco, hcn]
      nodup := fun q => by
        rw [h.children]
        by_cases hq : q = p
        · subst hq
          rw [if_pos rfl]
          refine (L.nodup q).map_on fun x hx y hy hxy => ?_
          by_cases hxo : x = old <;> by_cases hyo : y = old
          · rw [hxo, hyo]
          · simp only [hxo, if_true, if_neg hyo] at hxy
            exact absurd (hxy ▸ hy) (hnew q)
          · simp only [hyo, if_true, if_neg hxo] at hxy
            exact absurd (hxy ▸ hx) (hnew q)
          · simpa [hxo, hyo] using hxy
        · rw [if_neg hq]
          exact L.nodup q
      acyclic := by
        obtain ⟨rank, hrank, hlt⟩ := L.exists_rank_link habove
        refine ⟨rank, fun {q c} hpar => ?_⟩
        rw [h.parent?] at hpar
        split at hpar
        · simp at hpar
        · split at hpar
          · next hc => exact hc ▸ Option.some.inj hpar ▸ hlt
          · exact hrank hpar }

theorem Exchanged.linked (L : t.Linked) {p old new : NodeId} (hold : t.parent? old = some p)
    (htop : t.parent? new = none) (hroot : new ≠ root) (hp : t.isAttached p = true)
    (h : Exchanged t p old new t') : t'.Linked :=
  h.linked_of_notMem L hold htop hroot (L.not_above_of_top htop hroot hp)

end Tree

end TreePatch
