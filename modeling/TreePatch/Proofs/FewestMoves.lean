import TreePatch.Proofs.Apply
import TreePatch.Proofs.BestAlignment

/-!
# As few siblings as possible move

Of the children of a matched node that have their partners below the partner of the node and in their own
role, those along a longest common subsequence of the two orders stay in place. The second order lists the
partners of these very children (`stayedChildren_eq_loyalChildren`), so that the common subsequences are the
selections of children whose partners are in order (`inSourceOrder_iff_sublist`), and a longest one leaves as
few children as possible to be moved.
-/

namespace TreePatch.Pairing

section

variable (p : Pairing) (m : Matching)

/-- The children of `d` that have their partners among the children of `s`, in the same role. -/
def loyalChildren (d s : Nat) : List Nat :=
  (p.dst.children d).filter fun c => (m.srcOf c).any fun c' =>
    (p.src.children s).contains c' && (p.src.node c').role == (p.dst.node c).role

/-- The partners of the nodes `cs`, in the order in which these are listed, are children of `s` in that
order. -/
def InSourceOrder (s : Nat) (cs : List Nat) : Prop :=
  (cs.filterMap m.srcOf).Sublist (p.src.children s)

end

variable {p : Pairing} {m : Matching} {d s : Nat}

theorem stayedChildren_eq_loyalChildren (hm : m.OneToOne) (hsd : m.srcOf d = some s)
    (F : Forest p.src.parent? p.src.children p.src.size)
    (G : Forest p.dst.parent? p.dst.children p.dst.size) :
    p.stayedChildren m d = p.loyalChildren m d s := by
  refine List.filter_congr fun c hc => ?_
  have hcd := G.mem_below.mp hc
  cases hsc : m.srcOf c with
  | none => simp
  | some c' =>
    have hparent : (p.src.parent? c').bind m.dstOf = some d ↔ c' ∈ p.src.children s := by
      rw [F.mem_below, Option.bind_eq_some_iff]
      constructor
      · rintro ⟨q, hq, hqd⟩
        obtain rfl := Option.some.inj ((hm.srcOf_iff_dstOf.mpr hqd).symm.trans hsd)
        exact hq
      · exact fun hq => ⟨s, hq, hm.srcOf_iff_dstOf.mp hsd⟩
    rw [Option.isSome_some, Bool.and_true, Option.any_some, Bool.eq_iff_iff, Bool.not_eq_true',
      isDisplaced_eq_false_iff hcd hsc, hparent, Bool.and_eq_true, List.contains_iff_mem, beq_iff_eq]

theorem filterMap_dstOf_filterMap_srcOf (hm : m.OneToOne) {cs : List Nat}
    (hcs : ∀ c ∈ cs, (m.srcOf c).isSome = true) : (cs.filterMap m.srcOf).filterMap m.dstOf = cs := by
  rw [List.filterMap_filterMap]
  refine (List.filterMap_congr fun c hc => ?_).trans List.filterMap_some
  obtain ⟨c', hc'⟩ := Option.isSome_iff_exists.mp (hcs c hc)
  rw [hc', Option.bind_some, hm.srcOf_iff_dstOf.mp hc']

theorem filterMap_srcOf_filterMap_dstOf_sublist (hm : m.OneToOne) (cs : List Nat) :
    ((cs.filterMap m.dstOf).filterMap m.srcOf).Sublist cs := by
  have hguard : (fun c => (m.dstOf c).bind m.srcOf) = Option.guard fun c => (m.dstOf c).isSome := by
    funext c
    cases hc : m.dstOf c with
    | none => simp [Option.guard, hc]
    | some c' => simp [Option.guard, hc, hm.srcOf_iff_dstOf.mpr hc]
  rw [List.filterMap_filterMap, hguard, List.filterMap_eq_filter]
  exact List.filter_sublist

theorem inSourceOrder_iff_sublist (hm : m.OneToOne) {cs : List Nat} (hcs : cs ⊆ p.stayedChildren m d) :
    p.InSourceOrder m s cs ↔ cs.Sublist (p.stayedInSourceOrder m d s) := by
  have hpartner : ∀ c ∈ cs, (m.srcOf c).isSome = true := fun c hc => by
    have hstayed := (List.mem_filter.mp (hcs hc)).2
    rw [Bool.and_eq_true] at hstayed
    exact hstayed.2
  constructor
  · intro h
    have hdst := h.filterMap m.dstOf
    rw [filterMap_dstOf_filterMap_srcOf hm hpartner] at hdst
    have hall : cs.filter (p.stayedChildren m d).contains = cs :=
      List.filter_eq_self.mpr fun c hc => List.contains_iff_mem.mpr (hcs hc)
    have hstayed := hdst.filter (p.stayedChildren m d).contains
    rwa [hall] at hstayed
  · intro h
    have hsrc := (h.trans List.filter_sublist).filterMap m.srcOf
    exact hsrc.trans (filterMap_srcOf_filterMap_dstOf_sublist hm _)

theorem length_le_filter_stayedChildren (hsd : m.srcOf d = some s) (hdst : (p.dst.children d).Nodup)
    {cs : List Nat} (hcs : cs.Sublist (p.stayedChildren m d))
    (horder : cs.Sublist (p.stayedInSourceOrder m d s)) :
    cs.length ≤
      ((p.stayedChildren m d).filter fun c => decide (c ∉ p.disorderedChildren m d)).length := by
  have hpicked : ∀ k ∈ (Alignment.commonPairs (· == ·) (p.stayedChildren m d)
      (p.stayedInSourceOrder m d s)).map (·.1), ((p.stayedChildren m d)[k - 0]?).isSome = true := by
    intro k hk
    obtain ⟨q, hq, rfl⟩ := List.mem_map.mp hk
    obtain ⟨-, -, x, -, hx, -⟩ := (Alignment.commonPairs_aligned _ _ _).related q hq
    exact hx ▸ rfl
  rw [filter_stayedChildren_eq hsd hdst, List.filterMap_length_eq_length.mpr hpicked, List.length_map,
    Alignment.length_commonPairs]
  exact Alignment.length_le_score_of_sublist hcs horder

/-- **As few siblings as possible move.** The positions read off a table of common subsequences go forward on
both sides and hold related items, and there are as many of them as there can be, whatever the relation.
Hence, of the children of a matched node that have their partners below the partner of the node, in the same
role, those that do not count as moved are in the same order on both sides, and no selection of these children
that is in the same order on both sides has more members. -/
theorem moves_fewest_siblings :
    (∀ {α β : Type} (rel : α → β → Bool) (xs : List α) (ys : List β),
      Alignment.LongestCommon rel xs ys (Alignment.commonPairs rel xs ys)) ∧
    ∀ (r r' : Rose Mark) (minSize : Nat) {d s : Nat},
      let p : Pairing := ⟨.ofRose r, .ofRose r'⟩
      let m := p.matching minSize
      m.srcOf d = some s →
        let kept := (p.loyalChildren m d s).filter fun c => decide (c ∉ p.movedNodes m)
        p.InSourceOrder m s kept ∧
          ∀ other, other.Sublist (p.loyalChildren m d s) → p.InSourceOrder m s other →
            other.length ≤ kept.length := by
  refine ⟨Alignment.commonPairs_longest, fun r r' minSize d s => ?_⟩
  intro p m hsd kept
  have hm : m.OneToOne := matching_oneToOne p minSize
  have F : Forest p.src.parent? p.src.children p.src.size := Outline.forest_ofRose r
  have G : Forest p.dst.parent? p.dst.children p.dst.size := Outline.forest_ofRose r'
  have hloyal := stayedChildren_eq_loyalChildren hm hsd F G
  have hkept : kept =
      (p.stayedChildren m d).filter fun c => decide (c ∉ p.disorderedChildren m d) := by
    simp only [kept, ← hloyal]
    refine List.filter_congr fun c hc => ?_
    obtain ⟨hchild, hstayed⟩ := List.mem_filter.mp hc
    rw [Bool.and_eq_true, Bool.not_eq_true'] at hstayed
    rw [decide_eq_decide, mem_movedNodes_iff_of_child (r := r') rfl hchild, hstayed.1]
    simp
  rw [hkept]
  refine ⟨?_, fun other hother horder => ?_⟩
  · exact (inSourceOrder_iff_sublist hm (List.filter_subset_self _)).mpr
      (sublist_stayedInSourceOrder hsd (G.nodup d))
  · rw [← hloyal] at hother
    exact length_le_filter_stayedChildren hsd (G.nodup d) hother
      ((inSourceOrder_iff_sublist hm hother.subset).mp horder)

/-- The last of three methods becomes the first one: it moves, and the other two stay. -/
theorem moves_fewest_siblings_methods :
    let src := Tree.ofMethods "old" [("f", []), ("g", []), ("h", [])]
    let dst := Tree.ofMethods "new" [("h", []), ("f", []), ("g", [])]
    let p := ofTrees src dst
    let m := p.matching 1
    m.srcOf 2 = some 2 ∧ p.loyalChildren m 2 2 = [3, 6, 9] ∧
      (p.loyalChildren m 2 2).filter (fun c => decide (c ∉ p.movedNodes m)) = [6, 9] ∧
        p.InSourceOrder m 2 [6, 9] ∧
          ∀ other, other.Sublist [3, 6, 9] → p.InSourceOrder m 2 other → other.length ≤ 2 := by
  intro src dst p m
  have hmatched : m.srcOf 2 = some 2 := by decide +kernel
  have hloyal : p.loyalChildren m 2 2 = [3, 6, 9] := by decide +kernel
  have hkept : (p.loyalChildren m 2 2).filter (fun c => decide (c ∉ p.movedNodes m)) = [6, 9] := by
    decide +kernel
  obtain ⟨horder, hmost⟩ := moves_fewest_siblings.2 (.node .top [Outline.markTree src Tree.root])
    (.node .top [Outline.markTree dst Tree.root]) 1 hmatched
  refine ⟨hmatched, hloyal, hkept, hkept ▸ horder, fun other hother hin => ?_⟩
  exact (hmost other (hloyal ▸ hother) hin).trans_eq (congrArg List.length hkept)

end TreePatch.Pairing
