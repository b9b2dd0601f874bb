import TreePatch.Proofs.Converted
import TreePatch.Proofs.Correspondence
import TreePatch.Proofs.Reconcile

/-!
# Punctuation among siblings

Fixed punctuation is not matched. Below corresponding nodes it is paired off in order, the first with the
first and so on, wherever it stands among its siblings. Whether a kept child stands before a paired token
on both sides is thus a matter of counting: it has to follow equally many tokens, as far as they are
paired. Where operands change their places around a token they do not, and the token ends up on the
wrong side.
-/

namespace TreePatch

namespace Tree

variable (t : Tree)

/-- The ignored children of `p`, in order. -/
def ignoredChildren (p : NodeId) : List NodeId :=
  (t.children p).filter t.isIgnored

/-- The number of ignored children of `p` before its child `n`. -/
def ignoredBefore (p n : NodeId) : Nat :=
  ((t.children p).takeWhile (· != n)).countP t.isIgnored

/-- `n` stands before `n'` among the children of `p`. -/
def Precedes (p n n' : NodeId) : Prop :=
  (t.children p).idxOf n < (t.children p).idxOf n'

instance (p n n' : NodeId) : Decidable (t.Precedes p n n') :=
  inferInstanceAs (Decidable (_ < _))

end Tree

/-! ## Counting -/

theorem forall_le_iff_min_eq {a b m : Nat} :
    (∀ k < m, (a ≤ k ↔ b ≤ k)) ↔ min a m = min b m := by
  constructor
  · intro h
    have ha := h a
    have hb := h b
    omega
  · intro h k hk
    omega

namespace Correspondence.Resolved

variable {src dst : Tree} {m : Matching} {c : Correspondence}

theorem mem_iff_getElem?_of_subset (hs : src.Linked) (hd : dst.Linked) (h : Resolved src dst m c)
    {p q : NodeId} (hpq : (src.ref p, dst.ref q) ∈ c.pairs)
    (hsub : ignoredPairs src dst (src.ref p, dst.ref q) ⊆ c.pairs) {a b : NodeId}
    (ha : src.parent? a = some p) (hignored : src.isIgnored a = true) :
    (src.ref a, dst.ref b) ∈ c.pairs ↔
      ∃ k : Nat, (src.ignoredChildren p)[k]? = some a ∧ (dst.ignoredChildren q)[k]? = some b := by
  have hpairs : (src.ref a, dst.ref b) ∈ c.pairs ↔
      (src.ref a, dst.ref b) ∈ ignoredPairs src dst (src.ref p, dst.ref q) := by
    refine ⟨fun hab => ?_, fun hab => hsub hab⟩
    rcases h.cases _ hab with hseed | ⟨r, hr, hmem⟩
    · obtain ⟨_, _, a', _, -, ha', -, heq⟩ := (mem_seeds_iff hs hd).mp hseed
      obtain rfl : a = a' := congrArg (·.1.node) heq
      exact absurd ha' (not_stands_of_ignored hs ha hignored)
    · obtain ⟨a', _, heq, ha', -⟩ := of_mem_ignoredPairs hs hd hmem
      obtain rfl : a = a' := congrArg (·.1.node) heq
      have hrp : r.1 = src.ref p := by
        rw [Tree.ref, Option.some.inj (ha.symm.trans ha'), ← (h.refs hs hd hr).1]
      rwa [h.oneToOne.eq_of_fst hr hpq hrp] at hmem
  rw [hpairs, ignoredPairs, List.mem_iff_getElem?]
  refine exists_congr fun k => ?_
  rw [List.getElem?_zip_eq_some, List.getElem?_map, List.getElem?_map, Option.map_eq_some_iff,
    Option.map_eq_some_iff]
  constructor
  · rintro ⟨⟨a', ha', heq⟩, b', hb', heq'⟩
    obtain rfl : a' = a := congrArg NodeRef.node heq
    obtain rfl : b' = b := congrArg NodeRef.node heq'
    exact ⟨ha', hb'⟩
  · rintro ⟨ha', hb'⟩
    exact ⟨⟨a, ha', rfl⟩, b, hb', rfl⟩

theorem mem_iff_getElem? (hs : src.Linked) (hd : dst.Linked) (h : Resolved src dst m c) {p q : NodeId}
    (hpq : (src.ref p, dst.ref q) ∈ seeds src dst m) {a b : NodeId} (ha : src.parent? a = some p)
    (hignored : src.isIgnored a = true) :
    (src.ref a, dst.ref b) ∈ c.pairs ↔
      ∃ k : Nat, (src.ignoredChildren p)[k]? = some a ∧ (dst.ignoredChildren q)[k]? = some b :=
  h.mem_iff_getElem?_of_subset hs hd (h.seeds_subset hpq) (h.ignored_subset _ hpq) ha hignored

end Correspondence.Resolved

/-- How `nodes` pairs the punctuation below the kept pair of `s` and `d`: in order, the first with the
first and so on. It agrees with the order of a kept child exactly if that child follows equally many
tokens on both sides, as far as tokens are paired. -/
structure PairedOff (src dst : Tree) (kept : List (NodeId × NodeId)) (nodes : Correspondence)
    (s d : NodeId) : Prop where
  pairs : ∀ y y', src.parent? y = some s → src.isIgnored y = true →
    ((src.ref y, dst.ref y') ∈ nodes.pairs ↔
      ∃ k : Nat, (src.ignoredChildren s)[k]? = some y ∧ (dst.ignoredChildren d)[k]? = some y')
  in_order : ∀ x x', src.parent? x = some s → dst.parent? x' = some d → (x, x') ∈ kept →
    let paired := min (src.ignoredChildren s).length (dst.ignoredChildren d).length
    ((∀ y y', src.parent? y = some s → src.isIgnored y = true → (src.ref y, dst.ref y') ∈ nodes.pairs →
        (src.Precedes s x y ↔ dst.Precedes d x' y')) ↔
      min (src.ignoredBefore s x) paired = min (dst.ignoredBefore d x') paired)

/-- **Punctuation is paired off in order, and agrees with the order of a kept child exactly if that child
follows equally many tokens** on both sides, as far as tokens are paired. -/
theorem Tree.Linked.punctuation_in_order_iff {src dst : Tree} (hs : src.Linked) (hd : dst.Linked)
    (minMoveSize : Nat) :
    ∃ nodes,
      Correspondence.resolve (src.diff dst minMoveSize).pairing (src.diff dst minMoveSize).pairs
        src dst = .ok nodes ∧
      ∀ s d, (s, d) ∈ (src.diff dst minMoveSize).kept →
        PairedOff src dst (src.diff dst minMoveSize).kept nodes s d := by
  have hm := Pairing.matching_matches src dst minMoveSize
  obtain ⟨nodes, hresolve, hresolved⟩ := Correspondence.resolve_ok hs hd hm
  refine ⟨nodes, hresolve, fun s d hsd => ?_⟩
  obtain ⟨j, i, hd', hs', -, hij⟩ := (Pairing.stayOf_eq_some_iff hs hd).mp ((mem_kept_iff hs hd).mp hsd)
  have hseed : (src.ref s, dst.ref d) ∈ Correspondence.seeds src dst _ :=
    (Correspondence.mem_seeds_iff hs hd).mpr ⟨i, j, s, d, Matching.mem_of_srcOf hij, hs', hd', rfl⟩
  have hpaired := fun y y' (hy : src.parent? y = some s) hignored =>
    hresolved.mem_iff_getElem? hs hd hseed (b := y') hy hignored
  refine ⟨hpaired, fun x x' hx hx' hxx' => ?_⟩
  obtain ⟨htracked', htracked⟩ :=
    ((Pairing.stayOf_eq_some_iff hs hd).mp ((mem_kept_iff hs hd).mp hxx')).tracked hs hd
  have hbefore : ∀ {k y}, (src.ignoredChildren s)[k]? = some y →
      (src.Precedes s x y ↔ src.ignoredBefore s x ≤ k) := fun hy =>
    idxOf_lt_iff_countP_le (htracked s hx) (hs.nodup s) (hs.mem_children.mpr hx) hy
  have hbefore' : ∀ {k y'}, (dst.ignoredChildren d)[k]? = some y' →
      (dst.Precedes d x' y' ↔ dst.ignoredBefore d x' ≤ k) := fun hy' =>
    idxOf_lt_iff_countP_le (htracked' d hx') (hd.nodup d) (hd.mem_children.mpr hx') hy'
  intro paired
  rw [← forall_le_iff_min_eq]
  constructor
  · intro h k hk
    obtain ⟨hk₁, hk₂⟩ : k < (src.ignoredChildren s).length ∧ k < (dst.ignoredChildren d).length := by
      omega
    have hy := List.getElem?_eq_getElem hk₁
    have hy' := List.getElem?_eq_getElem hk₂
    obtain ⟨hmem, hignored⟩ := List.mem_filter.mp (List.mem_of_getElem? hy)
    have hparent := hs.mem_children.mp hmem
    rw [← hbefore hy, ← hbefore' hy']
    exact h _ _ hparent hignored ((hpaired _ _ hparent hignored).mpr ⟨k, hy, hy'⟩)
  · intro h y y' hy hignored hpair
    obtain ⟨k, hk, hk'⟩ := (hpaired y y' hy hignored).mp hpair
    rw [hbefore hk, hbefore' hk']
    have hlt := (List.getElem?_eq_some_iff.mp hk).1
    have hlt' := (List.getElem?_eq_some_iff.mp hk').1
    exact h k (by omega)

/-- A reference to the method `right` of `left`. -/
def Source.Sketch.reference (left right : String) : Sketch :=
  .node ⟨"method_reference", "value", ""⟩
    [leaf "identifier" none left, leaf "::" none "::", leaf "identifier" none right]

/-- Between parentheses the types of a cast change places. -/
theorem Tree.Linked.punctuation_in_order_iff_cast :
    let src := (Source.Sketch.ofFields [("f", .cast "A" "B")]).tree "old"
    let dst := (Source.Sketch.ofFields [("f", .cast "B" "A")]).tree "new"
    (src.diff dst 2).operations.map Operation.kind = [.delete, .delete, .insert, .insert] ∧
      src.Linked ∧ dst.Linked ∧
      ∃ nodes,
        Correspondence.resolve (src.diff dst 2).pairing (src.diff dst 2).pairs src dst = .ok nodes ∧
        ∀ s d, (s, d) ∈ (src.diff dst 2).kept → PairedOff src dst (src.diff dst 2).kept nodes s d := by
  intro src dst
  have hs : src.Linked := (Source.formedTree_of_parse (Source.Sketch.parse_eq_tree _ _)).2.linked
  have hd : dst.Linked := (Source.formedTree_of_parse (Source.Sketch.parse_eq_tree _ _)).2.linked
  exact ⟨by decide +kernel, hs, hd, punctuation_in_order_iff hs hd 2⟩

/-- The operands of a method reference change places. The second one is kept, but now it stands before the
token between them. -/
theorem Tree.reference_out_of_order :
    let src := (Source.Sketch.ofFields [("f", .reference "a" "b")]).tree "old"
    let dst := (Source.Sketch.ofFields [("f", .reference "b" "a")]).tree "new"
    (∀ n, src.isImplicit n = false) ∧ (∀ n, dst.isImplicit n = false) ∧
      ∃ nodes,
        Correspondence.resolve (src.diff dst 2).pairing (src.diff dst 2).pairs src dst = .ok nodes ∧
        (10, 10) ∈ (src.diff dst 2).kept ∧ src.parent? 13 = some 10 ∧ dst.parent? 11 = some 10 ∧
        (13, 11) ∈ (src.diff dst 2).kept ∧ src.parent? 12 = some 10 ∧ dst.parent? 12 = some 10 ∧
        src.isIgnored 12 = true ∧ (src.ref 12, dst.ref 12) ∈ nodes.pairs ∧
        ¬ src.Precedes 10 13 12 ∧ dst.Precedes 10 11 12 := by
  intro src dst
  refine ⟨Source.Sketch.explicit_tree _ _, Source.Sketch.explicit_tree _ _,
    src.correspondence dst 2, ?_⟩
  decide +kernel

end TreePatch
