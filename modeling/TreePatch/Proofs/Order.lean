import TreePatch.Proofs.EditScript
import TreePatch.Proofs.Prelude

/-!
# Children that did not move

The children of a matched node that have a partner and did not move stand in the same order on both
sides: they were picked along a common subsequence of the two child lists.
-/

namespace TreePatch

theorem mem_unpicked_iff {l : List Nat} (hl : l.Nodup) (idx : List Nat) (c : Nat) :
    (c ∈ l ∧ c ∉ (l.zipIdx.filter fun (_, i) => !idx.contains i).map (·.1)) ↔
      c ∈ idx.filterMap fun k => l[k - 0]? := by
  simp only [Nat.sub_zero, List.mem_filterMap, List.mem_map, List.mem_filter, Bool.not_eq_true',
    List.contains_eq_mem, decide_eq_false_iff_not]
  constructor
  · rintro ⟨hc, hpicked⟩
    obtain ⟨i, hi⟩ := List.mem_iff_getElem?.mp hc
    refine ⟨i, ?_, hi⟩
    by_contra hidx
    exact hpicked ⟨(c, i), ⟨List.mem_zipIdx_iff_getElem?.mpr hi, hidx⟩, rfl⟩
  · rintro ⟨i, hidx, hi⟩
    refine ⟨List.mem_of_getElem? hi, ?_⟩
    rintro ⟨⟨c', j⟩, ⟨hj, hnot⟩, rfl⟩
    have hj := List.mem_zipIdx_iff_getElem?.mp hj
    have hlt := (List.getElem?_eq_some_iff.mp hi).1
    exact hnot ((List.getElem?_inj hlt hl).mp (hi.trans hj.symm) ▸ hidx)

namespace Pairing

variable {p : Pairing} {m : Matching}

theorem nodup_filterMap_dstOf (hm : m.OneToOne) {l : List Nat} (hl : l.Nodup) :
    (l.filterMap m.dstOf).Nodup := by
  refine hl.filterMap fun s s' d hs hs' => ?_
  rw [Option.mem_def] at hs hs'
  exact congrArg Prod.fst
    (hm.eq_of_snd (Matching.mem_of_dstOf hs) (Matching.mem_of_dstOf hs') rfl)

theorem filter_stayedChildren_eq {d s : Nat} (hsd : m.srcOf d = some s)
    (hdst : (p.dst.children d).Nodup) :
    (p.stayedChildren m d).filter (fun c => decide (c ∉ p.disorderedChildren m d)) =
      ((Alignment.commonPairs (· == ·) (p.stayedChildren m d) (p.stayedInSourceOrder m d s)).map
        (·.1)).filterMap fun k => (p.stayedChildren m d)[k - 0]? := by
  have hstayed : (p.stayedChildren m d).Nodup := hdst.filter _
  have hincreasing := (Alignment.commonPairs_aligned (· == ·) (p.stayedChildren m d)
    (p.stayedInSourceOrder m d s)).increasing
  refine eq_of_sublist_of_mem_iff hstayed List.filter_sublist
    (Alignment.filterMap_getElem?_sublist _ (List.pairwise_map.mpr (hincreasing.imp And.left)))
    fun c => ?_
  rw [List.mem_filter, decide_eq_true_eq, disorderedChildren, hsd]
  exact mem_unpicked_iff hstayed _ c

theorem sublist_stayedInSourceOrder {d s : Nat} (hsd : m.srcOf d = some s)
    (hdst : (p.dst.children d).Nodup) :
    List.Sublist ((p.stayedChildren m d).filter fun c => decide (c ∉ p.disorderedChildren m d))
      (p.stayedInSourceOrder m d s) := by
  obtain ⟨related, increasing⟩ := Alignment.commonPairs_aligned (· == ·) (p.stayedChildren m d)
    (p.stayedInSourceOrder m d s)
  rw [filter_stayedChildren_eq hsd hdst]
  generalize Alignment.commonPairs (· == ·) (p.stayedChildren m d)
    (p.stayedInSourceOrder m d s) = pairs at related increasing
  -- the picked values, read on the other side
  have hsame : ((pairs.map (·.1)).filterMap fun k => (p.stayedChildren m d)[k - 0]?) =
      (pairs.map (·.2)).filterMap fun k => (p.stayedInSourceOrder m d s)[k - 0]? := by
    rw [List.filterMap_map, List.filterMap_map]
    refine List.filterMap_congr fun q hq => ?_
    obtain ⟨-, -, x, y, hx, hy, hxy⟩ := related q hq
    simp only [Function.comp_apply, hx, hy, beq_iff_eq.mp hxy]
  rw [hsame]
  exact Alignment.filterMap_getElem?_sublist _ (List.pairwise_map.mpr (increasing.imp And.right))

theorem mem_movedNodes_iff_of_child {r : Rose Mark} (hp : p.dst = Outline.ofRose r) {c d : Nat}
    (hc : c ∈ p.dst.children d) :
    c ∈ p.movedNodes m ↔ p.isDisplaced m c = true ∨ c ∈ p.disorderedChildren m d := by
  have F : Forest p.dst.parent? p.dst.children p.dst.size := hp ▸ Outline.forest_ofRose r
  have hpreorder : p.dst.preorder Outline.root = List.range p.dst.size :=
    hp ▸ Outline.preorder_root r
  have hcd := F.mem_below.mp hc
  obtain ⟨hd, hsize⟩ := F.lt_size hcd
  rw [movedNodes, hpreorder, List.mem_append, List.mem_filter, List.mem_flatMap, List.mem_range]
  refine or_congr (and_iff_right hsize) ⟨?_, fun h => ⟨d, List.mem_range.mpr hd, h⟩⟩
  rintro ⟨q, -, hq⟩
  have hcq := F.mem_below.mp (disorderedChildren_subset q hq)
  exact Option.some.inj (hcd.symm.trans hcq) ▸ hq

/-- A child with a partner that did not move. -/
def InPlace (p : Pairing) (m : Matching) (c : Nat) : Prop :=
  (m.srcOf c).isSome = true ∧ c ∉ p.movedNodes m

section

variable {src dst : Tree}

open Classical in
/-- **Children in place stand in the same order on both sides.** -/
theorem inPlace_order (hm : (ofTrees src dst).Matches m) {d s : Nat}
    (hsd : m.srcOf d = some s) :
    (((Outline.ofTree src).children s).filterMap m.dstOf).filter
        (fun c => decide (c ∈ (Outline.ofTree dst).children d ∧ (ofTrees src dst).InPlace m c)) =
      ((Outline.ofTree dst).children d).filter fun c => decide ((ofTrees src dst).InPlace m c) := by
  have F := Outline.forest_ofTree src
  have G := Outline.forest_ofTree dst
  have hsub := sublist_stayedInSourceOrder (p := ofTrees src dst) hsd (G.nodup d)
  -- among the children of `d`, those in place are those that stayed and are in order
  have hmem : ∀ c ∈ (Outline.ofTree dst).children d, (ofTrees src dst).InPlace m c ↔
      (c ∈ (ofTrees src dst).stayedChildren m d ∧ c ∉ (ofTrees src dst).disorderedChildren m d) := by
    intro c hc
    rw [InPlace, mem_movedNodes_iff_of_child (Outline.ofTree_eq dst) hc, stayedChildren,
      List.mem_filter, Bool.and_eq_true, Bool.not_eq_true', not_or, Bool.not_eq_true]
    exact ⟨fun h => ⟨⟨hc, h.2.1, h.1⟩, h.2.2⟩, fun h => ⟨h.1.2.2, h.1.2.1, h.2⟩⟩
  have hinOrder : ∀ c, c ∈ ((ofTrees src dst).stayedChildren m d).filter
      (fun c => decide (c ∉ (ofTrees src dst).disorderedChildren m d)) ↔
        c ∈ (Outline.ofTree dst).children d ∧ (ofTrees src dst).InPlace m c := by
    intro c
    rw [List.mem_filter, decide_eq_true_eq]
    constructor
    · intro h
      have hc : c ∈ (Outline.ofTree dst).children d := (List.mem_filter.mp h.1).1
      exact ⟨hc, (hmem c hc).mpr h⟩
    · rintro ⟨hc, h⟩
      exact (hmem c hc).mp h
  have horder : ((ofTrees src dst).stayedInSourceOrder m d s).Nodup :=
    (nodup_filterMap_dstOf hm.oneToOne (F.nodup s)).filter _
  calc (((Outline.ofTree src).children s).filterMap m.dstOf).filter
        (fun c => decide (c ∈ (Outline.ofTree dst).children d ∧ (ofTrees src dst).InPlace m c))
    _ = ((ofTrees src dst).stayedInSourceOrder m d s).filter (fun c => decide
          (c ∈ ((ofTrees src dst).stayedChildren m d).filter
            (fun c => decide (c ∉ (ofTrees src dst).disorderedChildren m d)))) := by
        rw [stayedInSourceOrder, List.filter_filter]
        refine List.filter_congr fun c _ => ?_
        rw [Bool.eq_iff_iff, Bool.and_eq_true, decide_eq_true_eq, decide_eq_true_eq, hinOrder,
          List.contains_iff_mem]
        exact ⟨fun h => ⟨h, ((hmem c h.1).mp h.2).1⟩, And.left⟩
    _ = ((ofTrees src dst).stayedChildren m d).filter
          (fun c => decide (c ∉ (ofTrees src dst).disorderedChildren m d)) :=
        filter_mem_of_sublist hsub horder
    _ = ((Outline.ofTree dst).children d).filter
          (fun c => decide ((ofTrees src dst).InPlace m c)) := by
        rw [stayedChildren, List.filter_filter]
        refine List.filter_congr fun c hc => ?_
        rw [Bool.eq_iff_iff, Bool.and_eq_true, decide_eq_true_eq, decide_eq_true_eq, hmem c hc,
          stayedChildren, List.mem_filter]
        exact ⟨fun h => ⟨⟨hc, h.2⟩, h.1⟩, fun h => ⟨h.2, h.1.2⟩⟩

end

end Pairing

end TreePatch
