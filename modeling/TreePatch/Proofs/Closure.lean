import Mathlib.Data.List.Induction
import TreePatch.Proofs.Punctuation

/-!
# Closure under alignment

A list of pairs of outline numbers resolves to the least correspondence that holds of the nodes they
stand for and, with two nodes, of their ignored children at equal places.

* Recording a listed pair fails only if it stands for a node on one side only or for a node of another
  tree, or if one of its nodes got another partner from an earlier pair (`Refused`).
* The loop that aligns children takes up only nodes without a counterpart, so it never fails, and every
  round but the last adds pairs, so there are no more rounds than nodes (`close_induction`).

Pairs found by comparing two trees are never refused.
-/

namespace TreePatch

namespace Correspondence

/-- The numbers of the pair `q` stand for the nodes `s` and `d`. -/
def StandsFor (p : Pairing) (q : Nat × Nat) (s d : NodeRef) : Prop :=
  (p.src.node q.1).origin = some s ∧ (p.dst.node q.2).origin = some d

/-- One of the pairs stands for the nodes `s` and `d`. -/
def Listed (p : Pairing) (pairs : List (Nat × Nat)) (s d : NodeRef) : Prop :=
  ∃ q ∈ pairs, StandsFor p q s d

/-- The least relation that holds of the listed nodes and, with two nodes, of their ignored children at
equal places. -/
inductive AlignmentClosure (src dst : Tree) (listed : NodeRef → NodeRef → Prop) :
    NodeRef → NodeRef → Prop
  | listed {s d} (h : listed s d) : AlignmentClosure src dst listed s d
  | aligned {p q : NodeId} {k : Nat} {a b : NodeId}
    (h : AlignmentClosure src dst listed (src.ref p) (dst.ref q))
    (ha : (src.ignoredChildren p)[k]? = some a) (hb : (dst.ignoredChildren q)[k]? = some b) :
    AlignmentClosure src dst listed (src.ref a) (dst.ref b)

/-- Why the pair `q` cannot be recorded behind the pairs in `earlier`. -/
inductive Refused (p : Pairing) (src dst : Tree) (earlier : List (Nat × Nat)) (q : Nat × Nat) :
    CorrespondenceError → Prop
  | srcOnly {s} (hs : (p.src.node q.1).origin = some s) (hd : (p.dst.node q.2).origin = none) :
    Refused p src dst earlier q (.oneSided s)
  | dstOnly {d} (hs : (p.src.node q.1).origin = none) (hd : (p.dst.node q.2).origin = some d) :
    Refused p src dst earlier q (.oneSided d)
  | foreignSrc {s d} (hq : StandsFor p q s d) (hs : src.owns s = false) :
    Refused p src dst earlier q (.foreignNode s)
  | foreignDst {s d} (hq : StandsFor p q s d) (hs : src.owns s = true) (hd : dst.owns d = false) :
    Refused p src dst earlier q (.foreignNode d)
  | srcTaken {s d e} (hq : StandsFor p q s d) (hs : src.owns s = true) (hd : dst.owns d = true)
    (h : Listed p earlier s e) (hne : e ≠ d) : Refused p src dst earlier q (.conflict s e d)
  | dstTaken {s d e} (hq : StandsFor p q s d) (hs : src.owns s = true) (hd : dst.owns d = true)
    (hfree : ∀ e, ¬ Listed p earlier s e) (h : Listed p earlier e d) :
    Refused p src dst earlier q (.conflict d e s)

/-- One-to-one between nodes of the two trees. -/
structure Proper (src dst : Tree) (c : Correspondence) : Prop where
  oneToOne : OneToOne c.pairs
  owned : ∀ r ∈ c.pairs, src.owns r.1 = true ∧ dst.owns r.2 = true

section

variable {src dst : Tree} {c : Correspondence}

theorem owns_iff {t : Tree} {r : NodeRef} :
    t.owns r = true ↔ ∃ n, r = t.ref n ∧ n < t.size := by
  rw [Tree.owns, Bool.and_eq_true, beq_iff_eq, decide_eq_true_eq]
  constructor
  · rintro ⟨hname, hlt⟩
    exact ⟨r.node, by rw [Tree.ref, ← hname], hlt⟩
  · rintro ⟨n, rfl, hlt⟩
    exact ⟨rfl, hlt⟩

theorem Proper.length_le (h : Proper src dst c) : c.pairs.length ≤ src.size := by
  have hnodup : (c.pairs.map (·.1.node)).Nodup := by
    have hmap : c.pairs.map (·.1.node) = (c.pairs.map (·.1)).map (·.node) := by rw [List.map_map]; rfl
    rw [hmap]
    refine h.oneToOne.nodup_fst.map_on fun x hx y hy hxy => ?_
    obtain ⟨r, hr, rfl⟩ := List.mem_map.mp hx
    obtain ⟨r', hr', rfl⟩ := List.mem_map.mp hy
    obtain ⟨n, hn, -⟩ := owns_iff.mp (h.owned r hr).1
    obtain ⟨n', hn', -⟩ := owns_iff.mp (h.owned r' hr').1
    rw [hn, hn'] at hxy ⊢
    exact congrArg src.ref hxy
  have hsub : c.pairs.map (·.1.node) ⊆ List.range src.size := by
    intro n hn
    obtain ⟨r, hr, rfl⟩ := List.mem_map.mp hn
    obtain ⟨m, hm, hlt⟩ := owns_iff.mp (h.owned r hr).1
    rw [hm, List.mem_range]
    exact hlt
  have hle := (List.subperm_of_subset hnodup hsub).length_le
  rwa [List.length_map, List.length_range] at hle

/-! ## Recording listed pairs -/

theorem listed_append_singleton {p : Pairing} {earlier : List (Nat × Nat)} {q : Nat × Nat}
    {s d : NodeRef} : Listed p (earlier ++ [q]) s d ↔ Listed p earlier s d ∨ StandsFor p q s d := by
  simp [Listed, or_and_right, exists_or]

/-- The state after all of `pairs` were recorded. -/
structure Seeded (p : Pairing) (src dst : Tree) (pairs : List (Nat × Nat)) (c : Correspondence) :
    Prop where
  proper : Proper src dst c
  mem_iff : ∀ s d, (s, d) ∈ c.pairs ↔ Listed p pairs s d

namespace Seeded

variable {p : Pairing} {earlier : List (Nat × Nat)} {q : Nat × Nat}

theorem start : Seeded p src dst [] empty :=
  ⟨⟨List.Pairwise.nil, by simp [empty]⟩, by simp [empty, Listed]⟩

theorem dstOf_iff (h : Seeded p src dst earlier c) {s d : NodeRef} :
    c.dstOf s = some d ↔ Listed p earlier s d :=
  h.proper.oneToOne.find_fst_eq_some_iff.trans (h.mem_iff s d)

theorem srcOf_iff (h : Seeded p src dst earlier c) {s d : NodeRef} :
    c.srcOf d = some s ↔ Listed p earlier s d :=
  h.proper.oneToOne.find_snd_eq_some_iff.trans (h.mem_iff s d)

theorem refused (h : Seeded p src dst earlier c) {e : CorrespondenceError}
    (hq : Refused p src dst earlier q e) : seed p src dst c q = .error e := by
  cases hq with
  | srcOnly hs hd => simp only [seed, hs, hd]
  | dstOnly hs hd => simp only [seed, hs, hd]
  | foreignSrc hq hs => simp [seed, hq.1, hq.2, hs]
  | foreignDst hq hs hd => simp [seed, hq.1, hq.2, hs, hd]
  | srcTaken hq hs hd htaken hne =>
    simp [seed, hq.1, hq.2, hs, hd, put, h.dstOf_iff.mpr htaken, hne]
  | @dstTaken s d e hq hs hd hfree htaken =>
    have hnone : c.dstOf s = none := by
      rw [Option.eq_none_iff_forall_ne_some]
      intro e he
      exact hfree e (h.dstOf_iff.mp he)
    simp [seed, hq.1, hq.2, hs, hd, put, hnone, h.srcOf_iff.mpr htaken]

theorem append_known (h : Seeded p src dst earlier c)
    (hq : ∀ s d, StandsFor p q s d → Listed p earlier s d) : Seeded p src dst (earlier ++ [q]) c := by
  refine ⟨h.proper, fun s d => ?_⟩
  rw [h.mem_iff, listed_append_singleton]
  exact ⟨Or.inl, fun hor => hor.elim id (hq s d)⟩

theorem append_new (h : Seeded p src dst earlier c) {s d : NodeRef} (hq : StandsFor p q s d)
    (hs : src.owns s = true) (hd : dst.owns d = true) (hsrc : c.dstOf s = none)
    (hdst : c.srcOf d = none) : Seeded p src dst (earlier ++ [q]) ⟨c.pairs ++ [(s, d)]⟩ := by
  refine ⟨⟨OneToOne.append_iff.mpr ⟨h.proper.oneToOne, List.pairwise_singleton _ _, ?_⟩, ?_⟩, ?_⟩
  · intro r hr r' hr'
    obtain rfl := List.mem_singleton.mp hr'
    exact ⟨find_fst_eq_none_iff.mp hsrc r hr, find_snd_eq_none_iff.mp hdst r hr⟩
  · intro r hr
    rcases List.mem_append.mp hr with hr | hr
    · exact h.proper.owned r hr
    · obtain rfl := List.mem_singleton.mp hr
      exact ⟨hs, hd⟩
  · intro s' d'
    rw [List.mem_append, h.mem_iff, List.mem_singleton, listed_append_singleton]
    refine or_congr_right ⟨fun heq => ?_, fun hq' => ?_⟩
    · obtain ⟨rfl, rfl⟩ := Prod.mk.inj heq
      exact hq
    · rw [Option.some.inj (hq'.1.symm.trans hq.1), Option.some.inj (hq'.2.symm.trans hq.2)]

theorem seed_cases (h : Seeded p src dst earlier c) (q : Nat × Nat) :
    (∃ c', seed p src dst c q = .ok c' ∧ Seeded p src dst (earlier ++ [q]) c') ∨
      ∃ e, Refused p src dst earlier q e := by
  cases hs : (p.src.node q.1).origin with
  | none =>
    cases hd : (p.dst.node q.2).origin with
    | some d => exact Or.inr ⟨_, .dstOnly hs hd⟩
    | none =>
      refine Or.inl ⟨c, by simp only [seed, hs, hd], h.append_known fun s d hq => ?_⟩
      rw [StandsFor, hs] at hq
      simp at hq
  | some s =>
    cases hd : (p.dst.node q.2).origin with
    | none => exact Or.inr ⟨_, .srcOnly hs hd⟩
    | some d =>
      have hq : StandsFor p q s d := ⟨hs, hd⟩
      cases hsown : src.owns s with
      | false => exact Or.inr ⟨_, .foreignSrc hq hsown⟩
      | true =>
        cases hdown : dst.owns d with
        | false => exact Or.inr ⟨_, .foreignDst hq hsown hdown⟩
        | true =>
          have hseed : seed p src dst c q = c.put s d := by simp [seed, hs, hd, hsown, hdown]
          rw [hseed, put]
          cases hdst : c.dstOf s with
          | some e =>
            by_cases he : e = d
            · subst he
              refine Or.inl ⟨c, by simp, h.append_known fun s' d' hq' => ?_⟩
              rw [Option.some.inj (hq'.1.symm.trans hs), Option.some.inj (hq'.2.symm.trans hd)]
              exact h.dstOf_iff.mp hdst
            · exact Or.inr ⟨_, .srcTaken hq hsown hdown (h.dstOf_iff.mp hdst) he⟩
          | none =>
            cases hsrc : c.srcOf d with
            | some e =>
              refine Or.inr ⟨_, .dstTaken hq hsown hdown (fun e he => ?_) (h.srcOf_iff.mp hsrc)⟩
              rw [h.dstOf_iff.mpr he] at hdst
              simp at hdst
            | none => exact Or.inl ⟨_, rfl, h.append_new hq hsown hdown hdst hsrc⟩

end Seeded

theorem foldlM_seed_cases (p : Pairing) (src dst : Tree) (pairs : List (Nat × Nat)) :
    (∃ c, pairs.foldlM (seed p src dst) empty = .ok c ∧ Seeded p src dst pairs c) ∨
      ∃ earlier q later e, pairs = earlier ++ q :: later ∧
        (∃ c, earlier.foldlM (seed p src dst) empty = .ok c ∧ Seeded p src dst earlier c) ∧
        Refused p src dst earlier q e ∧ pairs.foldlM (seed p src dst) empty = .error e := by
  induction pairs using List.reverseRecOn with
  | nil => exact Or.inl ⟨empty, rfl, .start⟩
  | append_singleton pairs q ih =>
    rw [List.foldlM_append]
    rcases ih with ⟨c, hfold, hc⟩ | ⟨earlier, q', later, e, rfl, hearlier, hrefused, hfold⟩
    · rw [hfold]
      change ((∃ c', [q].foldlM (seed p src dst) c = .ok c' ∧ _) ∨
        ∃ earlier q' later e, _ ∧ _ ∧ _ ∧ [q].foldlM (seed p src dst) c = .error e)
      rw [List.foldlM_cons]
      rcases hc.seed_cases q with ⟨c', hseed, hc'⟩ | ⟨e, hrefused⟩
      · refine Or.inl ⟨c', ?_, hc'⟩
        rw [hseed]
        rfl
      · refine Or.inr ⟨pairs, q, [], e, rfl, ⟨c, hfold, hc⟩, hrefused, ?_⟩
        rw [hc.refused hrefused]
        rfl
    · refine Or.inr ⟨earlier, q', later ++ [q], e, by simp, hearlier, hrefused, ?_⟩
      rw [hfold]
      rfl

/-! ## The loop -/

theorem Proper.exists_align (hs : src.Linked) (hd : dst.Linked) (h : Proper src dst c)
    (q : NodeRef × NodeRef) : ∃ added, align src dst c q = .ok ⟨c.pairs ++ added⟩ ∧
      Proper src dst ⟨c.pairs ++ added⟩ := by
  have hinj : ∀ t : Tree, Function.Injective t.ref := fun t a b heq => congrArg NodeRef.node heq
  have hsrc : ∀ r ∈ c.srcLoose src q.1.node, src.owns r = true ∧ c.dstOf r = none := by
    intro r hr
    obtain ⟨hr, hfree⟩ := List.mem_filter.mp hr
    obtain ⟨a, ha, rfl⟩ := List.mem_map.mp hr
    have hparent := hs.mem_children.mp (List.mem_of_mem_filter ha)
    exact ⟨owns_iff.mpr ⟨a, rfl, src.lt_size_of_parent hparent⟩, Option.isNone_iff_eq_none.mp hfree⟩
  have hdst : ∀ r ∈ c.dstLoose dst q.2.node, dst.owns r = true ∧ c.srcOf r = none := by
    intro r hr
    obtain ⟨hr, hfree⟩ := List.mem_filter.mp hr
    obtain ⟨b, hb, rfl⟩ := List.mem_map.mp hr
    have hparent := hd.mem_children.mp (List.mem_of_mem_filter hb)
    exact ⟨owns_iff.mpr ⟨b, rfl, dst.lt_size_of_parent hparent⟩, Option.isNone_iff_eq_none.mp hfree⟩
  have hmem : ∀ r ∈ (c.srcLoose src q.1.node).zip (c.dstLoose dst q.2.node),
      r.1 ∈ c.srcLoose src q.1.node ∧ r.2 ∈ c.dstLoose dst q.2.node := fun r hr =>
    List.of_mem_zip (show (r.1, r.2) ∈ _ from hr)
  have hone : OneToOne (c.pairs ++ (c.srcLoose src q.1.node).zip (c.dstLoose dst q.2.node)) := by
    refine OneToOne.append_iff.mpr ⟨h.oneToOne, OneToOne.zip ?_ ?_, fun r hr r' hr' => ?_⟩
    · exact (((hs.nodup _).filter _).map (hinj src)).filter _
    · exact (((hd.nodup _).filter _).map (hinj dst)).filter _
    · obtain ⟨h₁, h₂⟩ := hmem r' hr'
      exact ⟨find_fst_eq_none_iff.mp (hsrc _ h₁).2 r hr, find_snd_eq_none_iff.mp (hdst _ h₂).2 r hr⟩
  refine ⟨_, foldlM_put hone, hone, fun r hr => ?_⟩
  rcases List.mem_append.mp hr with hr | hr
  · exact h.owned r hr
  · obtain ⟨h₁, h₂⟩ := hmem r hr
    exact ⟨(hsrc _ h₁).1, (hdst _ h₂).1⟩

section

variable {I : List (NodeRef × NodeRef) → Correspondence → Prop}
  (step : ∀ {done c q}, I done c → q ∈ c.pairs → q ∉ done →
    ∃ added, align src dst c q = .ok ⟨c.pairs ++ added⟩ ∧ I (done ++ [q]) ⟨c.pairs ++ added⟩)

include step

theorem foldlM_align_induction (frontier : List (NodeRef × NodeRef)) :
    ∀ {done c}, I done c → frontier ⊆ c.pairs → (done ++ frontier).Nodup →
      ∃ added, frontier.foldlM (align src dst) c = .ok ⟨c.pairs ++ added⟩ ∧
        I (done ++ frontier) ⟨c.pairs ++ added⟩ := by
  induction frontier with
  | nil =>
    intro done c h _ _
    refine ⟨[], ?_, ?_⟩
    · rw [List.append_nil]
      rfl
    · simpa using h
  | cons q frontier ih =>
    intro done c h hsub hnodup
    have hq : q ∉ done := fun hdone => (List.disjoint_of_nodup_append hnodup) hdone (by simp)
    obtain ⟨added, halign, hI⟩ := step h (hsub (by simp)) hq
    obtain ⟨more, hfold, hI'⟩ := ih hI
      (fun r hr => List.mem_append_left _ (hsub (List.mem_cons_of_mem _ hr))) (by simpa using hnodup)
    refine ⟨added ++ more, ?_, ?_⟩
    · rw [List.foldlM_cons, halign, ← List.append_assoc]
      exact hfold
    · simpa using hI'

/-- **What aligning one pair preserves, the loop preserves**, and when it ends every pair has been
aligned. It ends by itself, within as many rounds as the source tree has nodes. -/
theorem close_induction (proper : ∀ {done c}, I done c → Proper src dst c) (bound : Nat) :
    ∀ (frontier : List (NodeRef × NodeRef)) {done c}, I done c → c.pairs = done ++ frontier →
      src.size ≤ bound + done.length →
        ∃ c', (∀ b, bound ≤ b → close src dst b frontier c = .ok c') ∧ I c'.pairs c' := by
  have hended : ∀ {done c}, I done c → c.pairs = done ++ [] →
      (∀ b, close src dst b [] c = .ok c) ∧ I c.pairs c := by
    intro done c h hpairs
    refine ⟨fun b => by cases b <;> rfl, ?_⟩
    rw [hpairs, List.append_nil]
    exact h
  induction bound with
  | zero =>
    intro frontier done c h hpairs hbound
    -- all nodes have been used up
    have hle := (proper h).length_le
    rw [hpairs, List.length_append] at hle
    obtain rfl : frontier = [] := List.length_eq_zero_iff.mp (by omega)
    exact ⟨c, fun b _ => (hended h hpairs).1 b, (hended h hpairs).2⟩
  | succ bound ih =>
    intro frontier done c h hpairs hbound
    cases frontier with
    | nil => exact ⟨c, fun b _ => (hended h hpairs).1 b, (hended h hpairs).2⟩
    | cons q frontier =>
      have hnodup := (proper h).oneToOne.nodup
      rw [hpairs] at hnodup
      obtain ⟨added, hfold, hI⟩ := foldlM_align_induction step (q :: frontier) h
        (fun r hr => hpairs ▸ List.mem_append_right _ hr) hnodup
      rw [← hpairs] at hI
      obtain ⟨c', hclose, hI'⟩ := ih added hI rfl (by
        rw [hpairs, List.length_append, List.length_cons]
        omega)
      refine ⟨c', fun b hb => ?_, hI'⟩
      obtain ⟨b, rfl⟩ := Nat.exists_eq_succ_of_ne_zero (by omega : b ≠ 0)
      rw [Correspondence.close, hfold]
      change close src dst b ((c.pairs ++ added).drop c.pairs.length) ⟨c.pairs ++ added⟩ = _
      rw [List.drop_left]
      exact hclose b (by omega)

end

theorem Proper.exists_close (hs : src.Linked) (hd : dst.Linked) (h : Proper src dst c) :
    ∃ c', ∀ bound, src.size ≤ bound → close src dst bound c.pairs c = .ok c' := by
  obtain ⟨c', hclose, -⟩ := close_induction (I := fun _ c => Proper src dst c)
    (fun h _ _ => h.exists_align hs hd _) id src.size c.pairs h (List.nil_append _).symm (by simp)
  exact ⟨c', hclose⟩

theorem resolve_eq_close {p : Pairing} {pairs : List (Nat × Nat)} {seeded : Correspondence}
    (h : pairs.foldlM (seed p src dst) empty = .ok seeded) :
    resolve p pairs src dst = close src dst src.size seeded.pairs seeded := by
  rw [resolve, h]
  rfl

theorem resolve_eq_error_iff (hs : src.Linked) (hd : dst.Linked) {p : Pairing}
    {pairs : List (Nat × Nat)} {e : CorrespondenceError} :
    resolve p pairs src dst = .error e ↔ ∃ earlier q later, pairs = earlier ++ q :: later ∧
      (∃ c, resolve p earlier src dst = .ok c) ∧ Refused p src dst earlier q e := by
  constructor
  · intro h
    rcases foldlM_seed_cases p src dst pairs with
      ⟨c, hfold, hc⟩ | ⟨earlier, q, later, e', hsplit, ⟨c, hfold, hc⟩, hrefused, herror⟩
    · obtain ⟨c', hclose⟩ := hc.proper.exists_close hs hd
      rw [resolve_eq_close hfold, hclose _ le_rfl] at h
      simp at h
    · rw [resolve, herror] at h
      obtain rfl : e' = e := Except.error.inj h
      obtain ⟨c', hclose⟩ := hc.proper.exists_close hs hd
      exact ⟨earlier, q, later, hsplit, ⟨c', (resolve_eq_close hfold).trans (hclose _ le_rfl)⟩, hrefused⟩
  · rintro ⟨earlier, q, later, rfl, ⟨c, hresolve⟩, hrefused⟩
    rcases foldlM_seed_cases p src dst earlier with
      ⟨c', hfold, hc⟩ | ⟨_, _, _, e', -, -, -, herror⟩
    · rw [resolve, List.foldlM_append, hfold]
      change ((q :: later).foldlM (seed p src dst) c' >>= _) = _
      rw [List.foldlM_cons, hc.refused hrefused]
      rfl
    · rw [resolve, herror] at hresolve
      exact absurd hresolve (by simp [bind, Except.bind])

/-! ## What is resolved -/

/-- A correspondence that is closed under alignment. -/
structure Saturated (src dst : Tree) (m : Matching) (c : Correspondence) : Prop extends
    Resolved src dst m c where
  closed : ∀ q ∈ c.pairs, ignoredPairs src dst q ⊆ c.pairs

theorem mem_seeds_iff_listed {m : Matching} {r : NodeRef × NodeRef} :
    r ∈ seeds src dst m ↔ Listed (Pairing.ofTrees src dst) m.pairs r.1 r.2 := by
  rw [seeds, List.mem_filterMap]
  refine exists_congr fun q => and_congr_right fun _ => ?_
  simp only [refPair, Option.bind_eq_some_iff, Option.map_eq_some_iff, StandsFor]
  constructor
  · rintro ⟨s, hs, d, hd, rfl⟩
    exact ⟨hs, hd⟩
  · rintro ⟨hs, hd⟩
    exact ⟨r.1, hs, r.2, hd, rfl⟩

theorem saturated_of_resolve (hs : src.Linked) (hd : dst.Linked) {pairs : List (Nat × Nat)}
    (h : resolve (Pairing.ofTrees src dst) pairs src dst = .ok c) :
    Saturated src dst ⟨pairs⟩ c := by
  rcases foldlM_seed_cases (Pairing.ofTrees src dst) src dst pairs with
    ⟨seeded, hfold, hseeded⟩ | ⟨_, _, _, e, -, -, -, herror⟩
  · have hseeds : ∀ r, r ∈ seeded.pairs ↔ r ∈ seeds src dst ⟨pairs⟩ := fun r =>
      (hseeded.mem_iff r.1 r.2).trans mem_seeds_iff_listed.symm
    -- what was aligned has all its ignored children paired off
    obtain ⟨c', hclose, hproper, hsound, hsub, hclosed⟩ := close_induction
      (I := fun done c => Proper src dst c ∧ Sound src dst ⟨pairs⟩ c done ∧
        seeded.pairs ⊆ c.pairs ∧ ∀ q ∈ done, ignoredPairs src dst q ⊆ c.pairs)
      (fun {done c q} h hq hdone => by
        obtain ⟨hproper, hsound, hsub, hclosed⟩ := h
        obtain ⟨halign, hsound'⟩ := hsound.align hs hd hq hdone
        obtain ⟨added, halign', hproper'⟩ := hproper.exists_align hs hd q
        rw [halign] at halign'
        obtain rfl : ignoredPairs src dst q = added :=
          List.append_cancel_left (congrArg Correspondence.pairs (Except.ok.inj halign'))
        refine ⟨_, halign, hproper', hsound', fun r hr => List.mem_append_left _ (hsub hr), ?_⟩
        intro q' hq'
        rcases List.mem_append.mp hq' with hq' | hq'
        · exact fun r hr => List.mem_append_left _ (hclosed q' hq' hr)
        · rw [List.mem_singleton.mp hq']
          exact List.subset_append_right _ _)
      And.left src.size seeded.pairs
      ⟨hseeded.proper, ⟨hseeded.proper.oneToOne, fun r hr => Or.inl ((hseeds r).mp hr), by simp⟩,
        fun _ => id, by simp⟩ (List.nil_append _).symm (by simp)
    rw [resolve_eq_close hfold, hclose _ le_rfl] at h
    obtain rfl := Except.ok.inj h
    have hseeds_sub : seeds src dst ⟨pairs⟩ ⊆ c'.pairs := fun r hr => hsub ((hseeds r).mpr hr)
    exact
      { oneToOne := hsound.oneToOne
        seeds_subset := hseeds_sub
        ignored_subset := fun q hq => hclosed q (hseeds_sub hq)
        cases := hsound.cases
        closed := hclosed }
  · rw [resolve, herror] at h
    exact absurd h (by simp [bind, Except.bind])

namespace Resolved

variable {m : Matching}

theorem get?_src (hs : src.Linked) (hd : dst.Linked) (hname : src.name ≠ dst.name)
    (h : Resolved src dst m c) (a : NodeId) : c.get? (src.ref a) = c.dstOf (src.ref a) := by
  have hnone : c.srcOf (src.ref a) = none :=
    find_snd_eq_none_iff.mpr fun q hq heq => hname (by
      rw [← (h.refs hs hd hq).2, heq]
      rfl)
  rw [get?, hnone, Option.or_none]

theorem get?_dst (hs : src.Linked) (hd : dst.Linked) (hname : src.name ≠ dst.name)
    (h : Resolved src dst m c) (b : NodeId) : c.get? (dst.ref b) = c.srcOf (dst.ref b) := by
  have hnone : c.dstOf (dst.ref b) = none :=
    find_fst_eq_none_iff.mpr fun q hq heq => hname (by
      rw [← (h.refs hs hd hq).1, heq]
      rfl)
  rw [get?, hnone, Option.none_or]

theorem dstOf_eq_some_iff (hs : src.Linked) (hd : dst.Linked) (h : Resolved src dst m c)
    {a : NodeId} {r : NodeRef} :
    c.dstOf (src.ref a) = some r ↔ ∃ b, r = dst.ref b ∧ (src.ref a, dst.ref b) ∈ c.pairs := by
  rw [dstOf, h.oneToOne.find_fst_eq_some_iff]
  constructor
  · intro hr
    have href : r = dst.ref r.node := by rw [Tree.ref, ← (h.refs hs hd hr).2]
    exact ⟨r.node, href, href ▸ hr⟩
  · rintro ⟨b, rfl, hb⟩
    exact hb

theorem srcOf_eq_some_iff (hs : src.Linked) (hd : dst.Linked) (h : Resolved src dst m c)
    {b : NodeId} {r : NodeRef} :
    c.srcOf (dst.ref b) = some r ↔ ∃ a, r = src.ref a ∧ (src.ref a, dst.ref b) ∈ c.pairs := by
  rw [srcOf, h.oneToOne.find_snd_eq_some_iff]
  constructor
  · intro hr
    have href : r = src.ref r.node := by rw [Tree.ref, ← (h.refs hs hd hr).1]
    exact ⟨r.node, href, href ▸ hr⟩
  · rintro ⟨a, rfl, ha⟩
    exact ha

theorem get_eq_ok_iff {n n' : NodeRef} : c.get n = .ok n' ↔ c.get? n = some n' := by
  rw [get]
  cases c.get? n <;> simp

theorem get_src (hs : src.Linked) (hd : dst.Linked) (hname : src.name ≠ dst.name)
    (h : Resolved src dst m c) {a : NodeId} {r : NodeRef} :
    c.get (src.ref a) = .ok r ↔ ∃ b, r = dst.ref b ∧ (src.ref a, dst.ref b) ∈ c.pairs := by
  rw [get_eq_ok_iff, h.get?_src hs hd hname, h.dstOf_eq_some_iff hs hd]

theorem get_dst (hs : src.Linked) (hd : dst.Linked) (hname : src.name ≠ dst.name)
    (h : Resolved src dst m c) {b : NodeId} {r : NodeRef} :
    c.get (dst.ref b) = .ok r ↔ ∃ a, r = src.ref a ∧ (src.ref a, dst.ref b) ∈ c.pairs := by
  rw [get_eq_ok_iff, h.get?_dst hs hd hname, h.srcOf_eq_some_iff hs hd]

theorem get_get (hs : src.Linked) (hd : dst.Linked) (hname : src.name ≠ dst.name)
    (h : Resolved src dst m c) {n n' : NodeRef} (hn : c.get n = .ok n') : c.get n' = .ok n := by
  have hpair : (n, n') ∈ c.pairs ∨ (n', n) ∈ c.pairs := by
    rw [get_eq_ok_iff, get?, Option.or_eq_some_iff] at hn
    exact hn.imp mem_of_find_fst fun hright => mem_of_find_snd hright.2
  rcases hpair with hmem | hmem <;> obtain ⟨hn, hn'⟩ := h.refs hs hd hmem
  · obtain ⟨a, rfl⟩ : ∃ a, n = src.ref a := ⟨n.node, by rw [Tree.ref, ← hn]⟩
    obtain ⟨b, rfl⟩ : ∃ b, n' = dst.ref b := ⟨n'.node, by rw [Tree.ref, ← hn']⟩
    exact (h.get_dst hs hd hname).mpr ⟨a, rfl, hmem⟩
  · obtain ⟨a, rfl⟩ : ∃ a, n' = src.ref a := ⟨n'.node, by rw [Tree.ref, ← hn]⟩
    obtain ⟨b, rfl⟩ : ∃ b, n = dst.ref b := ⟨n.node, by rw [Tree.ref, ← hn']⟩
    exact (h.get_src hs hd hname).mpr ⟨b, rfl, hmem⟩

theorem mem_iff_of_stands_src (hs : src.Linked) (hd : dst.Linked) (h : Resolved src dst m c) {i : Nat}
    {a b : NodeId} (ha : Outline.Stands src i a) :
    (src.ref a, dst.ref b) ∈ c.pairs ↔ ∃ j, Outline.Stands dst j b ∧ (i, j) ∈ m.pairs := by
  constructor
  · intro hab
    rcases h.cases _ hab with hseed | ⟨q, -, hq⟩
    · obtain ⟨i', j, a', b', hij, ha', hb', heq⟩ := (mem_seeds_iff hs hd).mp hseed
      obtain rfl : a = a' := congrArg (·.1.node) heq
      obtain rfl : b = b' := congrArg (·.2.node) heq
      obtain rfl := ha.injective hs ha'
      exact ⟨j, hb', hij⟩
    · obtain ⟨a', b', heq, ha', hignored, -⟩ := of_mem_ignoredPairs hs hd hq
      obtain rfl : a = a' := congrArg (·.1.node) heq
      exact absurd ha (not_stands_of_ignored hs ha' hignored)
  · rintro ⟨j, hb, hij⟩
    exact h.seeds_subset ((mem_seeds_iff hs hd).mpr ⟨i, j, a, b, hij, ha, hb, rfl⟩)

theorem mem_iff_of_stands_dst (hs : src.Linked) (hd : dst.Linked) (h : Resolved src dst m c) {j : Nat}
    {a b : NodeId} (hb : Outline.Stands dst j b) :
    (src.ref a, dst.ref b) ∈ c.pairs ↔ ∃ i, Outline.Stands src i a ∧ (i, j) ∈ m.pairs := by
  constructor
  · intro hab
    rcases h.cases _ hab with hseed | ⟨q, -, hq⟩
    · obtain ⟨i, j', a', b', hij, ha', hb', heq⟩ := (mem_seeds_iff hs hd).mp hseed
      obtain rfl : a = a' := congrArg (·.1.node) heq
      obtain rfl : b = b' := congrArg (·.2.node) heq
      obtain rfl := hb.injective hd hb'
      exact ⟨i, ha', hij⟩
    · obtain ⟨a', b', heq, -, -, hb', hignored⟩ := of_mem_ignoredPairs hs hd hq
      obtain rfl : b = b' := congrArg (·.2.node) heq
      exact absurd hb (not_stands_of_ignored hd hb' hignored)
  · rintro ⟨i, ha, hij⟩
    exact (h.mem_iff_of_stands_src hs hd ha).mpr ⟨j, hb, hij⟩

theorem roots_mem (hs : src.Linked) (hd : dst.Linked)
    (hkind : src.kind Tree.root = dst.kind Tree.root) (hlabel : src.label Tree.root = "")
    (hlabel' : dst.label Tree.root = "") {minMoveSize : Nat}
    (h : Resolved src dst ((Pairing.ofTrees src dst).matching minMoveSize) c) :
    (src.ref Tree.root, dst.ref Tree.root) ∈ c.pairs := by
  have hcan := Pairing.canMatch_one_one src dst hs hd hkind hlabel hlabel'
  exact (h.mem_iff_of_stands_src hs hd (Outline.stands_root src)).mpr
    ⟨1, Outline.stands_root dst, Pairing.one_one_mem_matching src dst minMoveSize hcan⟩

end Resolved

namespace Saturated

variable {m : Matching} {p q a b : NodeId} {k : Nat}

theorem mem_iff_of_src (hs : src.Linked) (hd : dst.Linked) (h : Saturated src dst m c)
    (hpq : (src.ref p, dst.ref q) ∈ c.pairs) (ha : (src.ignoredChildren p)[k]? = some a) :
    (src.ref a, dst.ref b) ∈ c.pairs ↔ (dst.ignoredChildren q)[k]? = some b := by
  obtain ⟨hmem, hignored⟩ := List.mem_filter.mp (List.mem_of_getElem? ha)
  rw [h.mem_iff_getElem?_of_subset hs hd hpq (h.closed _ hpq) (hs.mem_children.mp hmem) hignored]
  constructor
  · rintro ⟨k', ha', hb⟩
    obtain rfl : k' = k := (List.getElem?_inj (List.getElem?_eq_some_iff.mp ha').1
      ((hs.nodup p).filter _)).mp (ha'.trans ha.symm)
    exact hb
  · intro hb
    exact ⟨k, ha, hb⟩

theorem mem_iff_of_dst (hs : src.Linked) (hd : dst.Linked) (h : Saturated src dst m c)
    (hpq : (src.ref p, dst.ref q) ∈ c.pairs) (hb : (dst.ignoredChildren q)[k]? = some b) :
    (src.ref a, dst.ref b) ∈ c.pairs ↔ (src.ignoredChildren p)[k]? = some a := by
  constructor
  · intro hab
    obtain ⟨hmem, hignored⟩ := List.mem_filter.mp (List.mem_of_getElem? hb)
    obtain ⟨hparent, hignored'⟩ :=
      h.ignored_of_mem hs hd (hd.mem_children.mp hmem) hignored hpq hab
    obtain ⟨k', ha⟩ := List.mem_iff_getElem?.mp
      (List.mem_filter.mpr ⟨hs.mem_children.mpr hparent, hignored'⟩ : a ∈ src.ignoredChildren p)
    have hb' := (h.mem_iff_of_src hs hd hpq ha).mp hab
    obtain rfl : k = k' := (List.getElem?_inj (List.getElem?_eq_some_iff.mp hb).1
      ((hd.nodup q).filter _)).mp (hb.trans hb'.symm)
    exact ha
  · intro ha
    exact (h.mem_iff_of_src hs hd hpq ha).mpr hb

theorem mem_iff_closure (hs : src.Linked) (hd : dst.Linked) {pairs : List (Nat × Nat)}
    (h : Saturated src dst ⟨pairs⟩ c) {s d : NodeRef} : (s, d) ∈ c.pairs ↔
      AlignmentClosure src dst (Listed (Pairing.ofTrees src dst) pairs) s d := by
  constructor
  · intro hsd
    have hs' : s = src.ref s.node := by rw [Tree.ref, ← (h.refs hs hd hsd).1]
    rw [hs'] at hsd ⊢
    generalize s.node = a at hsd
    induction a using hs.forest.induction_up generalizing d with
    | step a ih =>
      rcases h.cases _ hsd with hseed | ⟨r, hr, hmem⟩
      · exact .listed (mem_seeds_iff_listed.mp hseed)
      · obtain ⟨k, hk⟩ := List.mem_iff_getElem?.mp hmem
        rw [ignoredPairs, List.getElem?_zip_eq_some, List.getElem?_map, List.getElem?_map,
          Option.map_eq_some_iff, Option.map_eq_some_iff] at hk
        obtain ⟨⟨a', ha, heq⟩, b, hb, rfl⟩ := hk
        obtain rfl : a' = a := congrArg NodeRef.node heq
        have hparent := hs.mem_children.mp (List.mem_of_mem_filter (List.mem_of_getElem? ha))
        obtain ⟨hr₁, hr₂⟩ := h.refs hs hd hr
        have hpair : r = (src.ref r.1.node, dst.ref r.2.node) := by
          rw [Tree.ref, Tree.ref, ← hr₁, ← hr₂]
        exact .aligned (ih _ hparent (hpair ▸ hr)) ha hb
  · intro hsd
    induction hsd with
    | listed h' => exact h.seeds_subset (mem_seeds_iff_listed.mpr h')
    | aligned _ ha hb ih => exact (h.mem_iff_of_src hs hd ih ha).mpr hb

end Saturated

/-- A correspondence that consists of the listed pairs and of what follows from them by alignment, both
tables being inverse to each other. -/
structure IsClosure (src dst : Tree) (listed : NodeRef → NodeRef → Prop) (c : Correspondence) :
    Prop where
  inverse : ∀ s d, c.dstOf s = some d ↔ c.srcOf d = some s
  involutive : ∀ n n', c.get n = .ok n' → c.get n' = .ok n
  mapped : ∀ s d, listed s d → c.dstOf s = some d
  srcAligned : ∀ p q, c.dstOf (src.ref p) = some (dst.ref q) → ∀ (k : Nat) a,
    (src.ignoredChildren p)[k]? = some a →
      c.get? (src.ref a) = ((dst.ignoredChildren q)[k]?).map dst.ref
  dstAligned : ∀ p q, c.dstOf (src.ref p) = some (dst.ref q) → ∀ (k : Nat) b,
    (dst.ignoredChildren q)[k]? = some b →
      c.get? (dst.ref b) = ((src.ignoredChildren p)[k]?).map src.ref
  exact : ∀ s d, c.dstOf s = some d ↔ AlignmentClosure src dst listed s d

theorem Saturated.isClosure (hs : src.Linked) (hd : dst.Linked) (hname : src.name ≠ dst.name)
    {pairs : List (Nat × Nat)} (h : Saturated src dst ⟨pairs⟩ c) :
    IsClosure src dst (Listed (Pairing.ofTrees src dst) pairs) c where
  inverse _ _ := h.oneToOne.find_fst_eq_some_iff.trans h.oneToOne.find_snd_eq_some_iff.symm
  involutive _ _ hn := h.get_get hs hd hname hn
  mapped _ _ hsd := h.oneToOne.find_fst_eq_some_iff.mpr
    (h.seeds_subset (mem_seeds_iff_listed.mpr hsd))
  srcAligned p q hpq k a ha := by
    have hmem := h.oneToOne.find_fst_eq_some_iff.mp hpq
    refine Option.ext fun r => ?_
    rw [h.get?_src hs hd hname, h.dstOf_eq_some_iff hs hd, Option.map_eq_some_iff]
    refine exists_congr fun b => ?_
    rw [h.mem_iff_of_src hs hd hmem ha, and_comm, eq_comm (a := r)]
  dstAligned p q hpq k b hb := by
    have hmem := h.oneToOne.find_fst_eq_some_iff.mp hpq
    refine Option.ext fun r => ?_
    rw [h.get?_dst hs hd hname, h.srcOf_eq_some_iff hs hd, Option.map_eq_some_iff]
    refine exists_congr fun a => ?_
    rw [h.mem_iff_of_dst hs hd hmem hb, and_comm, eq_comm (a := r)]
  exact _ _ := h.oneToOne.find_fst_eq_some_iff.trans (h.mem_iff_closure hs hd)

end

/-- **Resolving computes the closure under alignment.** It fails only because of a listed pair; the loop
that follows never does, and ends by itself. -/
theorem resolve_computes_closure {src dst : Tree} (hs : src.Linked) (hd : dst.Linked)
    (hname : src.name ≠ dst.name) :
    (∀ pairs c, resolve (Pairing.ofTrees src dst) pairs src dst = .ok c →
      IsClosure src dst (Listed (Pairing.ofTrees src dst) pairs) c) ∧
    (∀ p pairs e, resolve p pairs src dst = .error e ↔
      ∃ earlier q later, pairs = earlier ++ q :: later ∧
        (∃ c, resolve p earlier src dst = .ok c) ∧ Refused p src dst earlier q e) ∧
    ∀ p (pairs : List (Nat × Nat)) seeded, pairs.foldlM (seed p src dst) empty = .ok seeded →
      ∃ c, ∀ bound, src.size ≤ bound → close src dst bound seeded.pairs seeded = .ok c := by
  refine ⟨fun pairs c h => (saturated_of_resolve hs hd h).isClosure hs hd hname,
    fun p pairs e => resolve_eq_error_iff hs hd, fun p pairs seeded h => ?_⟩
  rcases foldlM_seed_cases p src dst pairs with
    ⟨c, hfold, hc⟩ | ⟨_, _, _, e, -, -, -, herror⟩
  · obtain rfl := Except.ok.inj (h.symm.trans hfold)
    exact hc.proper.exists_close hs hd
  · rw [herror] at h
    simp at h

/-- Below two blocks the opening parentheses and the two nodes that a parser supplied correspond, and so do
the first nodes supplied below those. The closing parenthesis has no counterpart. -/
theorem resolve_computes_closure_nested :
    let supplied (parts : List (Rose Content)) : Rose Content :=
      .node { kind := "modifiers", label := "", role := .child, implicit := true } parts
    let token (text : String) : Rose Content := .node { kind := text, label := text, role := .token } []
    let package (parts : List (Rose Content)) : Rose Content :=
      .node Tree.rootContent [.node { kind := "block", label := "", role := .statement } parts]
    let src := Tree.ofRose "src" none
      (package [token "(", supplied [supplied [], token ";"], token ")"])
    let dst := Tree.ofRose "dst" none (package [token "(", supplied [supplied [], supplied []]])
    let pairs := [(0, 0), (1, 1), (2, 2)]
    let c : Correspondence := ⟨[0, 1, 2, 3, 4].map fun n => (src.ref n, dst.ref n)⟩
    src.Linked ∧ dst.Linked ∧ src.name ≠ dst.name ∧
      resolve (Pairing.ofTrees src dst) pairs src dst = .ok c ∧
      IsClosure src dst (Listed (Pairing.ofTrees src dst) pairs) c ∧
      c.get (src.ref 6) = .error (.notMapped (src.ref 6)) ∧
      resolve (Pairing.ofTrees src dst) [(0, 0), (1, 1), (2, 1)] src dst =
        .error (.conflict (dst.ref 0) (src.ref 0) (src.ref 1)) := by
  intro supplied token package src dst pairs c
  have hs : src.Linked := Tree.linked_ofRose _ _ _
  have hd : dst.Linked := Tree.linked_ofRose _ _ _
  have hname : src.name ≠ dst.name := by decide
  have hresolve : resolve (Pairing.ofTrees src dst) pairs src dst = .ok c := by decide +kernel
  exact ⟨hs, hd, hname, hresolve, (resolve_computes_closure hs hd hname).1 pairs c hresolve,
    by decide +kernel, by decide +kernel⟩

end Correspondence

/-- **What is found by comparing two trees resolves.** The package roots correspond to each other, and a
tracked node corresponds exactly to the node whose number it was matched with. -/
theorem Tree.Linked.diff_resolves {src dst : Tree} (hs : src.Linked) (hd : dst.Linked)
    (hname : src.name ≠ dst.name) (hkind : src.kind root = "package")
    (hkind' : dst.kind root = "package") (hlabel : src.label root = "") (hlabel' : dst.label root = "")
    (minMoveSize : Nat) :
    let diff := src.diff dst minMoveSize
    ∃ c, Correspondence.resolve diff.pairing diff.pairs src dst = .ok c ∧
      c.get (src.ref root) = .ok (dst.ref root) ∧ c.get (dst.ref root) = .ok (src.ref root) ∧
      (∀ a i r, diff.pairing.src.find? (src.ref a) = some i →
        (c.get (src.ref a) = .ok r ↔ ∃ j, diff.pairing.dst.find? r = some j ∧ (i, j) ∈ diff.pairs)) ∧
      ∀ b j r, diff.pairing.dst.find? (dst.ref b) = some j →
        (c.get (dst.ref b) = .ok r ↔
          ∃ i, diff.pairing.src.find? r = some i ∧ (i, j) ∈ diff.pairs) := by
  intro diff
  obtain ⟨c, hresolve, hc⟩ :=
    Correspondence.resolve_ok hs hd (Pairing.matching_matches src dst minMoveSize)
  have hroots := hc.roots_mem hs hd (hkind.trans hkind'.symm) hlabel hlabel'
  refine ⟨c, hresolve, (hc.get_src hs hd hname).mpr ⟨root, rfl, hroots⟩,
    (hc.get_dst hs hd hname).mpr ⟨root, rfl, hroots⟩, fun a i r hi => ?_, fun b j r hj => ?_⟩
  · obtain ⟨a', ha, heq⟩ := (Outline.find?_eq_some_iff hs).mp hi
    obtain rfl : a = a' := congrArg NodeRef.node heq
    rw [hc.get_src hs hd hname]
    constructor
    · rintro ⟨b, rfl, hab⟩
      obtain ⟨j, hb, hij⟩ := (hc.mem_iff_of_stands_src hs hd ha).mp hab
      exact ⟨j, (Outline.find?_eq_some_iff hd).mpr ⟨b, hb, rfl⟩, hij⟩
    · rintro ⟨j, hj, hij⟩
      obtain ⟨b, hb, rfl⟩ := (Outline.find?_eq_some_iff hd).mp hj
      exact ⟨b, rfl, (hc.mem_iff_of_stands_src hs hd ha).mpr ⟨j, hb, hij⟩⟩
  · obtain ⟨b', hb, heq⟩ := (Outline.find?_eq_some_iff hd).mp hj
    obtain rfl : b = b' := congrArg NodeRef.node heq
    rw [hc.get_dst hs hd hname]
    constructor
    · rintro ⟨a, rfl, hab⟩
      obtain ⟨i, ha, hij⟩ := (hc.mem_iff_of_stands_dst hs hd hb).mp hab
      exact ⟨i, (Outline.find?_eq_some_iff hs).mpr ⟨a, ha, rfl⟩, hij⟩
    · rintro ⟨i, hi, hij⟩
      obtain ⟨a, ha, rfl⟩ := (Outline.find?_eq_some_iff hs).mp hi
      exact ⟨a, rfl, (hc.mem_iff_of_stands_dst hs hd hb).mpr ⟨i, ha, hij⟩⟩

/-- The types of a cast change places. -/
theorem Tree.Linked.diff_resolves_cast :
    let src := (Source.Sketch.ofFields [("f", .cast "A" "B")]).tree "old"
    let dst := (Source.Sketch.ofFields [("f", .cast "B" "A")]).tree "new"
    let diff := src.diff dst 2
    src.Linked ∧ dst.Linked ∧ src.name ≠ dst.name ∧ src.kind root = "package" ∧
      dst.kind root = "package" ∧ src.label root = "" ∧ dst.label root = "" ∧
      ∃ c, Correspondence.resolve diff.pairing diff.pairs src dst = .ok c ∧
        c.get (src.ref root) = .ok (dst.ref root) ∧ c.get (dst.ref root) = .ok (src.ref root) ∧
        (∀ a i r, diff.pairing.src.find? (src.ref a) = some i →
          (c.get (src.ref a) = .ok r ↔ ∃ j, diff.pairing.dst.find? r = some j ∧ (i, j) ∈ diff.pairs)) ∧
        ∀ b j r, diff.pairing.dst.find? (dst.ref b) = some j →
          (c.get (dst.ref b) = .ok r ↔
            ∃ i, diff.pairing.src.find? r = some i ∧ (i, j) ∈ diff.pairs) := by
  intro src dst diff
  have hs : src.Linked := (Source.formedTree_of_parse (Source.Sketch.parse_eq_tree _ _)).2.linked
  have hd : dst.Linked := (Source.formedTree_of_parse (Source.Sketch.parse_eq_tree _ _)).2.linked
  have hroots : src.kind root = "package" ∧ dst.kind root = "package" ∧ src.label root = "" ∧
      dst.label root = "" := by decide +kernel
  obtain ⟨hkind, hkind', hlabel, hlabel'⟩ := hroots
  have hname : src.name ≠ dst.name := by decide +kernel
  exact ⟨hs, hd, hname, hkind, hkind', hlabel, hlabel',
    diff_resolves hs hd hname hkind hkind' hlabel hlabel' 2⟩

end TreePatch
