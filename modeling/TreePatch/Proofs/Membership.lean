import TreePatch.Proofs.Changes

/-!
# Members by index

The index of a new member counts the members of its collection only, while the node is linked into a list of
children that may hold anything else in between. The position is found next to a member: in front of the one
that has the index, or behind the last one. Either way exactly the members in front of the index come before
the new node, and the other children are not touched.
-/

namespace TreePatch

open Patching

/-- `t'` is `t` with the top `n` as member `k` of the collection `R` under `p`. -/
structure Tree.Joined (t : Tree) (p : NodeId) (R : Role) (k : Nat) (n : NodeId) (t' : Tree) : Prop where
  member : (t'.childrenWithRole p R)[k]? = some n
  members : t'.childrenWithRole p R = (t.childrenWithRole p R).insertIdx k n
  /-- Children in other roles are where they were among themselves. -/
  others : ∀ S, S ≠ R → t'.childrenWithRole p S = t.childrenWithRole p S
  /-- All old children keep their order. -/
  order : (t'.children p).filter (· != n) = t.children p
  children : ∀ x, x ≠ p → t'.children x = t.children x
  parent? : ∀ x, t'.parent? x = if x = n then some p else t.parent? x
  content : ∀ x, t'.content x = t.content x
  size : t'.size = t.size
  units : t'.units = t.units
  name : t'.name = t.name

theorem Tree.LinkedIn.joined {t t' : Tree} (L : t.Linked) {p n : NodeId} {i k : Nat} {R : Role}
    (h : LinkedIn t p i n t') (htop : t.parent? n = none) (hrole : t.role n = R)
    (hk : k ≤ (t.childrenWithRole p R).length)
    (hfront : ((t.children p).take i).filter (t.role · == R) = (t.childrenWithRole p R).take k) :
    t.Joined p R k n t' := by
  have hchildren : t'.children p = (t.children p).take i ++ n :: (t.children p).drop i := by
    rw [h.children, if_pos rfl]
  have hsame : ∀ x, t'.role x = t.role x := fun x => role_of_content (h.content x)
  have hfilter : ∀ S, t'.childrenWithRole p S =
      ((t.children p).take i).filter (t.role · == S) ++ (n :: (t.children p).drop i).filter (t.role · == S) :=
    fun S => by
      rw [childrenWithRole, hchildren, List.filter_append]
      simp only [hsame]
  have hsplit : ∀ S, ((t.children p).take i).filter (t.role · == S) ++
      ((t.children p).drop i).filter (t.role · == S) = t.childrenWithRole p S := fun S => by
    rw [← List.filter_append, List.take_append_drop, childrenWithRole]
  -- the members that are not in front of the new one are behind it
  have hback : ((t.children p).drop i).filter (t.role · == R) = (t.childrenWithRole p R).drop k := by
    have hall := hsplit R
    rw [hfront] at hall
    exact List.append_cancel_left (hall.trans (List.take_append_drop k _).symm)
  have hmembers : t'.childrenWithRole p R = (t.childrenWithRole p R).insertIdx k n := by
    rw [hfilter, List.filter_cons_of_pos (by simpa using hrole), hfront, hback, insertIdx_eq_take_append hk]
  have hnot : n ∉ t.children p := fun hmem => by
    rw [L.mem_children, htop] at hmem
    simp at hmem
  exact
    { member := by rw [hmembers, List.getElem?_insertIdx_self, if_pos hk]
      members := hmembers
      others := fun S hS => by
        rw [hfilter, List.filter_cons_of_neg (by simpa [hrole] using Ne.symm hS), hsplit]
      order := by
        have hkept : ∀ l : List NodeId, l ⊆ t.children p → l.filter (· != n) = l := fun l hl =>
          List.filter_eq_self.mpr fun c hc => by
            simpa using fun heq : c = n => hnot (hl (heq ▸ hc))
        rw [hchildren, List.filter_append, List.filter_cons_of_neg (by simp),
          hkept _ (List.take_subset _ _), hkept _ (List.drop_subset _ _), List.take_append_drop]
      children := fun x hx => by rw [h.children, if_neg hx]
      parent? := h.parent?
      content := h.content
      size := h.size
      units := h.units
      name := h.name }

/-- **A node joins its collection at its index**, or as the last member if there are fewer members than that.
The other children keep their order, and nothing else changes. The tree stays linked unless the node that was
linked is the root, which can only go under what was unlinked before. -/
theorem Tree.Linked.joins_at_index {w : Workpiece} (L : w.tree.Linked) {pl : Placement} {p n : NodeId}
    {index : Nat} (hindex : pl.insertion.index = some index)
    (hmembers : w.tree.childrenWithRole p pl.insertion.role ≠ []) (hn : n < w.tree.size)
    (htop : w.tree.parent? n = none) (hrole : w.tree.role n = pl.insertion.role)
    (habove : n ∉ p :: w.tree.ancestors p) :
    ∃ t', linkAtIndex pl p n w = .ok () { w with tree := t' } ∧
      w.tree.Joined p pl.insertion.role
        (min index (w.tree.childrenWithRole p pl.insertion.role).length) n t' ∧
      (n ≠ root → t'.Linked) := by
  have hall := (List.take_append_drop index (w.tree.childrenWithRole p pl.insertion.role)).symm
  rcases L.position_in_collection hall with ⟨hempty, -⟩ | ⟨i, -, hposition, hi, hfront, -⟩
  · exact absurd (hall.trans hempty) hmembers
  rw [positionInCollection_length_take] at hposition
  have hp : p < w.tree.size := by
    obtain ⟨c, hc⟩ := List.exists_mem_of_ne_nil _ hmembers
    exact L.parent_lt (L.mem_childrenWithRole.mp hc).1
  obtain ⟨t', hinsert, hlinked⟩ := insertChild_ok hp hn htop hi
  have hrun : linkAtIndex pl p n w = .ok () { w with tree := t' } := by
    rw [linkAtIndex_run hindex, hposition]
    simp only [edit, hinsert]
  refine ⟨t', hrun, hlinked.joined L htop hrole (Nat.min_le_right _ _) ?_, fun hroot =>
    hlinked.linked_of_notMem L htop hroot habove⟩
  rw [hfront, List.take_eq_take_iff, Nat.min_assoc, Nat.min_self]

/-- The last index there is, and a collection with something else between its members and behind them. -/
theorem Tree.Linked.joins_at_index_copied :
    let leaf (label : String) (role : Role) : Rose Content := .node { kind := "identifier", label, role } []
    let whole := ofRose "t" none <| .node rootContent
      [.node { kind := "class_body", label := "", role := .child }
        [leaf "a" .typeMember, leaf ";" .token, leaf "b" .typeMember, leaf "c" .child]]
    let w : Workpiece := { tree := (whole.graft whole 2).tree }
    let pl : Placement := ⟨⟨some 18446744073709551615, 2, .typeMember, .inserted 1, .start⟩, none, none, none⟩
    w.tree.Linked ∧ w.tree.children 1 = [2, 3, 4, 5] ∧ w.tree.childrenWithRole 1 .typeMember = [2, 4] ∧
      w.tree.parent? 6 = none ∧ w.tree.role 6 = .typeMember ∧ 6 ∉ 1 :: w.tree.ancestors 1 ∧
      ∃ t', linkAtIndex pl 1 6 w = .ok () { w with tree := t' } ∧ w.tree.Joined 1 .typeMember 2 6 t' ∧
        t'.childrenWithRole 1 .typeMember = [2, 4, 6] ∧ t'.Linked := by
  intro leaf whole w pl
  have L : w.tree.Linked := linked_graft (linked_ofRose _ _ _) 2
  have hmembers : w.tree.childrenWithRole 1 .typeMember = [2, 4] := by decide +kernel
  have htop : w.tree.parent? 6 = none := by decide +kernel
  have hrole : w.tree.role 6 = .typeMember := by decide +kernel
  have habove : 6 ∉ 1 :: w.tree.ancestors 1 := by decide +kernel
  obtain ⟨t', hrun, hjoined, hlinked⟩ := L.joins_at_index
    (rfl : pl.insertion.index = some 18446744073709551615) (hmembers ▸ by simp) (by decide +kernel) htop hrole
    habove
  have hindex : min 18446744073709551615 (w.tree.childrenWithRole 1 .typeMember).length = 2 := by
    rw [hmembers]
    rfl
  rw [hindex] at hjoined
  refine ⟨L, by decide +kernel, hmembers, htop, hrole, habove, t', hrun, hjoined, ?_, hlinked (by decide)⟩
  rw [hjoined.members, hmembers]
  rfl

end TreePatch
