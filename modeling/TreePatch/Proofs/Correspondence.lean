import TreePatch.Correspondence
import TreePatch.Proofs.EditScript

/-!
# Resolving correspondences

The pairs of a matching of two linked trees always resolve. The result starts with the matched nodes;
below each pair, the ignored children are paired off in order, as far as both sides have any. Nothing
else corresponds, so an ignored node has its counterpart below the counterpart of its parent.
-/

namespace TreePatch

namespace Correspondence

variable {c : Correspondence}

theorem put_of_fresh {s d : NodeRef} (h : ∀ q ∈ c.pairs, q.1 ≠ s ∧ q.2 ≠ d) :
    c.put s d = .ok ⟨c.pairs ++ [(s, d)]⟩ := by
  have hs : c.dstOf s = none := find_fst_eq_none_iff.mpr fun q hq => (h q hq).1
  have hd : c.srcOf d = none := find_snd_eq_none_iff.mpr fun q hq => (h q hq).2
  rw [put, hs, hd]

theorem foldlM_put {l : List (NodeRef × NodeRef)} (h : OneToOne (c.pairs ++ l)) :
    l.foldlM (fun c (s, d) => c.put s d) c = .ok ⟨c.pairs ++ l⟩ := by
  induction l generalizing c with
  | nil => simp [pure, Except.pure]
  | cons q l ih =>
    obtain ⟨s, d⟩ := q
    have hput : c.put s d = .ok ⟨c.pairs ++ [(s, d)]⟩ :=
      put_of_fresh fun a ha => (OneToOne.append_iff.mp h).2.2 a ha (s, d) (by simp)
    have hrest := ih (c := ⟨c.pairs ++ [(s, d)]⟩) (by simpa using h)
    rw [List.append_assoc] at hrest
    rw [List.foldlM_cons]
    simp only [hput]
    exact hrest

section

variable {src dst : Tree} {m : Matching}

/-- The nodes that a pair of numbers stands for. -/
def refPair (src dst : Tree) (q : Nat × Nat) : Option (NodeRef × NodeRef) :=
  (((Outline.ofTree src).node q.1).origin).bind fun s =>
    (((Outline.ofTree dst).node q.2).origin).map fun d => (s, d)

/-- The matched nodes. -/
def seeds (src dst : Tree) (m : Matching) : List (NodeRef × NodeRef) :=
  m.pairs.filterMap (refPair src dst)

theorem refPair_eq_some_iff (hs : src.Linked) (hd : dst.Linked) {q : Nat × Nat}
    {r : NodeRef × NodeRef} :
    refPair src dst q = some r ↔ ∃ a b, Outline.Stands src q.1 a ∧ Outline.Stands dst q.2 b ∧
      r = (src.ref a, dst.ref b) := by
  rw [refPair, Option.bind_eq_some_iff]
  simp only [Option.map_eq_some_iff, Outline.origin_eq_some_iff hs, Outline.origin_eq_some_iff hd]
  constructor
  · rintro ⟨_, ⟨a, ha, rfl⟩, _, ⟨b, hb, rfl⟩, rfl⟩
    exact ⟨a, b, ha, hb, rfl⟩
  · rintro ⟨a, b, ha, hb, rfl⟩
    exact ⟨_, ⟨a, ha, rfl⟩, _, ⟨b, hb, rfl⟩, rfl⟩

theorem mem_seeds_iff (hs : src.Linked) (hd : dst.Linked) {r : NodeRef × NodeRef} :
    r ∈ seeds src dst m ↔ ∃ s d a b, (s, d) ∈ m.pairs ∧ Outline.Stands src s a ∧
      Outline.Stands dst d b ∧ r = (src.ref a, dst.ref b) := by
  rw [seeds, List.mem_filterMap]
  simp only [refPair_eq_some_iff hs hd]
  constructor
  · rintro ⟨⟨s, d⟩, hmem, a, b, ha, hb, rfl⟩
    exact ⟨s, d, a, b, hmem, ha, hb, rfl⟩
  · rintro ⟨s, d, a, b, hmem, ha, hb, rfl⟩
    exact ⟨(s, d), hmem, a, b, ha, hb, rfl⟩

theorem oneToOne_seeds (hs : src.Linked) (hd : dst.Linked) (hm : m.OneToOne) :
    OneToOne (seeds src dst m) := by
  refine List.Pairwise.filterMap _ (fun q q' hne r hr r' hr' => ?_) hm
  obtain ⟨a, b, ha, hb, rfl⟩ := (refPair_eq_some_iff hs hd).mp hr
  obtain ⟨a', b', ha', hb', rfl⟩ := (refPair_eq_some_iff hs hd).mp hr'
  refine ⟨fun heq => hne.1 ?_, fun heq => hne.2 ?_⟩
  · rw [show a = a' from congrArg NodeRef.node heq] at ha
    exact ha.injective hs ha'
  · rw [show b = b' from congrArg NodeRef.node heq] at hb
    exact hb.injective hd hb'

theorem owns_of_stands {t : Tree} (L : t.Linked) {i : Nat} {n : NodeId}
    (h : Outline.Stands t i n) : t.owns (t.ref n) = true := by
  simp [Tree.owns, Tree.ref, L.lt_size_of_isAttached (h.isAttached L)]

theorem stands_of_mem (hs : src.Linked) (hd : dst.Linked) (hm : (Pairing.ofTrees src dst).Matches m)
    {q : Nat × Nat} (hq : q ∈ m.pairs) :
    q = (Outline.root, Outline.root) ∨
      ∃ a b, Outline.Stands src q.1 a ∧ Outline.Stands dst q.2 b := by
  by_cases h : q = (Outline.root, Outline.root)
  · exact Or.inl h
  · obtain ⟨hlt, hlt', -⟩ := hm.fits q hq
    have hne : q.1 ≠ Outline.root := fun heq => h (hm.oneToOne.eq_of_fst hq hm.roots heq)
    have hne' : q.2 ≠ Outline.root := fun heq => h (hm.oneToOne.eq_of_snd hq hm.roots heq)
    obtain ⟨a, ha⟩ := Outline.exists_stands hs hlt hne
    obtain ⟨b, hb⟩ := Outline.exists_stands hd hlt' hne'
    exact Or.inr ⟨a, b, ha, hb⟩

theorem foldlM_seed (hs : src.Linked) (hd : dst.Linked) (hm : (Pairing.ofTrees src dst).Matches m) :
    m.pairs.foldlM (seed (Pairing.ofTrees src dst) src dst) empty = .ok ⟨seeds src dst m⟩ := by
  suffices h : ∀ (l : List (Nat × Nat)) (c : Correspondence), (∀ q ∈ l, q ∈ m.pairs) →
      OneToOne (c.pairs ++ l.filterMap (refPair src dst)) →
        l.foldlM (seed (Pairing.ofTrees src dst) src dst) c =
          .ok ⟨c.pairs ++ l.filterMap (refPair src dst)⟩ from
    h m.pairs empty (fun _ => id) (oneToOne_seeds hs hd hm.oneToOne)
  intro l
  induction l with
  | nil => simp [pure, Except.pure]
  | cons q l ih =>
    intro c hl hone
    rw [List.foldlM_cons]
    rcases stands_of_mem hs hd hm (hl q (by simp)) with rfl | ⟨a, b, ha, hb⟩
    · have hnone : refPair src dst (Outline.root, Outline.root) = none := by
        rw [refPair, Outline.toMark_root]
        rfl
      have hseed : seed (Pairing.ofTrees src dst) src dst c (Outline.root, Outline.root) = .ok c := by
        simp only [seed, Outline.toMark_root]
        rfl
      rw [List.filterMap_cons_none hnone] at hone ⊢
      rw [hseed]
      exact ih c (fun q hq => hl q (by simp [hq])) hone
    · have hsome : refPair src dst q = some (src.ref a, dst.ref b) :=
        (refPair_eq_some_iff hs hd).mpr ⟨a, b, ha, hb, rfl⟩
      rw [List.filterMap_cons_some hsome] at hone ⊢
      have hput : c.put (src.ref a) (dst.ref b) = .ok ⟨c.pairs ++ [(src.ref a, dst.ref b)]⟩ :=
        put_of_fresh fun r hr =>
          (OneToOne.append_iff.mp hone).2.2 r hr (src.ref a, dst.ref b) List.mem_cons_self
      have hseed : seed (Pairing.ofTrees src dst) src dst c q =
          .ok ⟨c.pairs ++ [(src.ref a, dst.ref b)]⟩ := by
        simp only [seed, ha.origin hs, hb.origin hd, owns_of_stands hs ha, owns_of_stands hd hb]
        exact hput
      have hrest := ih ⟨c.pairs ++ [(src.ref a, dst.ref b)]⟩ (fun q hq => hl q (by simp [hq]))
        (by simpa using hone)
      rw [List.append_assoc] at hrest
      rw [hseed]
      exact hrest

/-! ## Alignment -/

/-- The ignored children of two nodes, paired off in order. -/
def ignoredPairs (src dst : Tree) (q : NodeRef × NodeRef) : List (NodeRef × NodeRef) :=
  (((src.children q.1.node).filter src.isIgnored).map src.ref).zip
    (((dst.children q.2.node).filter dst.isIgnored).map dst.ref)

theorem of_mem_ignoredPairs (hs : src.Linked) (hd : dst.Linked) {q r : NodeRef × NodeRef}
    (h : r ∈ ignoredPairs src dst q) : ∃ a b, r = (src.ref a, dst.ref b) ∧
      src.parent? a = some q.1.node ∧ src.isIgnored a = true ∧
        dst.parent? b = some q.2.node ∧ dst.isIgnored b = true := by
  obtain ⟨h₁, h₂⟩ := List.of_mem_zip (show (r.1, r.2) ∈ _ from h)
  obtain ⟨a, ha, ha'⟩ := List.mem_map.mp h₁
  obtain ⟨b, hb, hb'⟩ := List.mem_map.mp h₂
  rw [List.mem_filter, hs.mem_children] at ha
  rw [List.mem_filter, hd.mem_children] at hb
  exact ⟨a, b, Prod.ext ha'.symm hb'.symm, ha.1, ha.2, hb.1, hb.2⟩

theorem not_stands_of_ignored {t : Tree} (L : t.Linked) {i : Nat} {n p : NodeId}
    (hp : t.parent? n = some p) (hn : t.isIgnored n = true) : ¬ Outline.Stands t i n := by
  intro h
  rcases h.parent L (h.lt_size L) (h.ne_root L) with ⟨-, rfl⟩ | ⟨_, _, -, -, -, -, htracked⟩
  · exact L.ne_root_of_parent hp rfl
  · rw [hn] at htracked
    simp at htracked

/-- The state of a correspondence after the pairs in `done` were aligned: apart from the matched nodes
it pairs only ignored children of those. -/
structure Sound (src dst : Tree) (m : Matching) (c : Correspondence)
    (done : List (NodeRef × NodeRef)) : Prop where
  oneToOne : OneToOne c.pairs
  cases : ∀ r ∈ c.pairs, r ∈ seeds src dst m ∨ ∃ q ∈ done, r ∈ ignoredPairs src dst q
  subset : done ⊆ c.pairs

namespace Sound

variable {done : List (NodeRef × NodeRef)}

theorem refs (hs : src.Linked) (hd : dst.Linked) (h : Sound src dst m c done) {r : NodeRef × NodeRef}
    (hr : r ∈ c.pairs) : r.1 = src.ref r.1.node ∧ r.2 = dst.ref r.2.node := by
  rcases h.cases r hr with hseed | ⟨q, -, hq⟩
  · obtain ⟨_, _, a, b, -, -, -, rfl⟩ := (mem_seeds_iff hs hd).mp hseed
    exact ⟨rfl, rfl⟩
  · obtain ⟨a, b, rfl, -⟩ := of_mem_ignoredPairs hs hd hq
    exact ⟨rfl, rfl⟩

theorem fresh (hs : src.Linked) (hd : dst.Linked) (h : Sound src dst m c done)
    {q : NodeRef × NodeRef} (hq : q ∈ c.pairs) (hdone : q ∉ done) {r : NodeRef × NodeRef}
    (hr : r ∈ c.pairs) :
    (∀ a, src.parent? a = some q.1.node → src.isIgnored a = true → r.1 ≠ src.ref a) ∧
      ∀ b, dst.parent? b = some q.2.node → dst.isIgnored b = true → r.2 ≠ dst.ref b := by
  refine ⟨fun a ha hignored heq => ?_, fun b hb hignored heq => ?_⟩
  · rcases h.cases r hr with hseed | ⟨q', hq', hmem⟩
    · obtain ⟨s, _, a', b, -, ha', -, rfl⟩ := (mem_seeds_iff hs hd).mp hseed
      obtain rfl : a' = a := congrArg NodeRef.node heq
      exact not_stands_of_ignored hs ha hignored ha'
    · obtain ⟨a', b, rfl, ha', -⟩ := of_mem_ignoredPairs hs hd hmem
      obtain rfl : a' = a := congrArg NodeRef.node heq
      have hnode : q'.1 = q.1 := by
        rw [(h.refs hs hd hq).1, (h.refs hs hd (h.subset hq')).1,
          Option.some.inj (ha'.symm.trans ha)]
      exact hdone (h.oneToOne.eq_of_fst (h.subset hq') hq hnode ▸ hq')
  · rcases h.cases r hr with hseed | ⟨q', hq', hmem⟩
    · obtain ⟨_, d, a, b', -, -, hb', rfl⟩ := (mem_seeds_iff hs hd).mp hseed
      obtain rfl : b' = b := congrArg NodeRef.node heq
      exact not_stands_of_ignored hd hb hignored hb'
    · obtain ⟨a, b', rfl, -, -, hb', -⟩ := of_mem_ignoredPairs hs hd hmem
      obtain rfl : b' = b := congrArg NodeRef.node heq
      have hnode : q'.2 = q.2 := by
        rw [(h.refs hs hd hq).2, (h.refs hs hd (h.subset hq')).2,
          Option.some.inj (hb'.symm.trans hb)]
      exact hdone (h.oneToOne.eq_of_snd (h.subset hq') hq hnode ▸ hq')

theorem align (hs : src.Linked) (hd : dst.Linked) (h : Sound src dst m c done)
    {q : NodeRef × NodeRef} (hq : q ∈ c.pairs) (hdone : q ∉ done) :
    Correspondence.align src dst c q = .ok ⟨c.pairs ++ ignoredPairs src dst q⟩ ∧
      Sound src dst m ⟨c.pairs ++ ignoredPairs src dst q⟩ (done ++ [q]) := by
  have hsrc : c.srcLoose src q.1.node = ((src.children q.1.node).filter src.isIgnored).map src.ref := by
    refine List.filter_eq_self.mpr fun x hx => ?_
    obtain ⟨a, ha, rfl⟩ := List.mem_map.mp hx
    rw [List.mem_filter, hs.mem_children] at ha
    rw [Option.isNone_iff_eq_none]
    exact find_fst_eq_none_iff.mpr fun r hr => (h.fresh hs hd hq hdone hr).1 a ha.1 ha.2
  have hdst : c.dstLoose dst q.2.node = ((dst.children q.2.node).filter dst.isIgnored).map dst.ref := by
    refine List.filter_eq_self.mpr fun x hx => ?_
    obtain ⟨b, hb, rfl⟩ := List.mem_map.mp hx
    rw [List.mem_filter, hd.mem_children] at hb
    rw [Option.isNone_iff_eq_none]
    exact find_snd_eq_none_iff.mpr fun r hr => (h.fresh hs hd hq hdone hr).2 b hb.1 hb.2
  have hinj : ∀ t : Tree, Function.Injective t.ref := fun t a b heq => congrArg NodeRef.node heq
  have hone : OneToOne (c.pairs ++ ignoredPairs src dst q) := by
    refine OneToOne.append_iff.mpr ⟨h.oneToOne, ?_, fun r hr r' hr' => ?_⟩
    · exact OneToOne.zip (((hs.nodup _).filter _).map (hinj src)) (((hd.nodup _).filter _).map (hinj dst))
    · obtain ⟨a, b, rfl, ha, ha', hb, hb'⟩ := of_mem_ignoredPairs hs hd hr'
      obtain ⟨h₁, h₂⟩ := h.fresh hs hd hq hdone hr
      exact ⟨h₁ a ha ha', h₂ b hb hb'⟩
  refine ⟨?_, hone, fun r hr => ?_, fun r hr => ?_⟩
  · rw [Correspondence.align, hsrc, hdst]
    exact foldlM_put hone
  · rcases List.mem_append.mp hr with hr | hr
    · refine (h.cases r hr).imp_right ?_
      rintro ⟨q', hq', hmem⟩
      exact ⟨q', List.mem_append_left _ hq', hmem⟩
    · exact Or.inr ⟨q, by simp, hr⟩
  · rcases List.mem_append.mp hr with hr | hr
    · exact List.mem_append_left _ (h.subset hr)
    · exact List.mem_append_left _ (List.mem_singleton.mp hr ▸ hq)

theorem foldlM_align (hs : src.Linked) (hd : dst.Linked) {frontier : List (NodeRef × NodeRef)} :
    ∀ {c : Correspondence} {done : List (NodeRef × NodeRef)}, Sound src dst m c done →
      (∀ q ∈ frontier, q ∈ c.pairs ∧ q ∉ done) → frontier.Nodup →
        frontier.foldlM (Correspondence.align src dst) c =
            .ok ⟨c.pairs ++ frontier.flatMap (ignoredPairs src dst)⟩ ∧
          Sound src dst m ⟨c.pairs ++ frontier.flatMap (ignoredPairs src dst)⟩ (done ++ frontier) := by
  induction frontier with
  | nil =>
    intro c done h _ _
    simpa [pure, Except.pure] using h
  | cons q frontier ih =>
    intro c done h hmem hnodup
    rw [List.nodup_cons] at hnodup
    obtain ⟨hq, hdone⟩ := hmem q (by simp)
    obtain ⟨halign, hsound⟩ := h.align hs hd hq hdone
    have hrest := ih hsound (fun q' hq' => by
      obtain ⟨hc, hnot⟩ := hmem q' (by simp [hq'])
      refine ⟨List.mem_append_left _ hc, fun hin => ?_⟩
      rcases List.mem_append.mp hin with hin | hin
      · exact hnot hin
      · exact hnodup.1 (List.mem_singleton.mp hin ▸ hq')) hnodup.2
    simp only [List.append_assoc, List.singleton_append] at hrest
    rw [List.foldlM_cons, halign, List.flatMap_cons]
    exact hrest

theorem close (hs : src.Linked) (hd : dst.Linked) (bound : Nat) :
    ∀ (frontier : List (NodeRef × NodeRef)) {c : Correspondence} {done : List (NodeRef × NodeRef)},
      Sound src dst m c done → c.pairs = done ++ frontier →
        ∃ c' done', Correspondence.close src dst bound frontier c = .ok c' ∧
          Sound src dst m c' done' ∧ c.pairs ⊆ c'.pairs ∧
            (0 < bound → frontier.flatMap (ignoredPairs src dst) ⊆ c'.pairs) := by
  induction bound with
  | zero =>
    intro frontier c done h _
    exact ⟨c, done, rfl, h, fun _ => id, fun hlt => absurd hlt (Nat.lt_irrefl 0)⟩
  | succ bound ih =>
    intro frontier c done h hpairs
    cases frontier with
    | nil => exact ⟨c, done, rfl, h, fun _ => id, fun _ => by simp⟩
    | cons q frontier =>
      have hone := h.oneToOne.nodup
      rw [hpairs] at hone
      obtain ⟨hfold, hsound⟩ := foldlM_align hs hd h
        (fun q' hq' => ⟨hpairs ▸ List.mem_append_right _ hq',
          fun hdone => (List.disjoint_of_nodup_append hone) hdone hq'⟩)
        (List.Nodup.of_append_right hone)
      obtain ⟨c', done', hclose, hsound', hsub, -⟩ := ih
        ((q :: frontier).flatMap (ignoredPairs src dst)) hsound (by rw [hpairs])
      refine ⟨c', done', ?_, hsound', fun r hr => hsub (List.mem_append_left _ hr),
        fun _ r hr => hsub (List.mem_append_right _ hr)⟩
      rw [Correspondence.close, hfold]
      change Correspondence.close src dst bound ((c.pairs ++ _).drop c.pairs.length) _ = _
      rw [List.drop_left]
      exact hclose

end Sound

/-- What the correspondence of two trees consists of. -/
structure Resolved (src dst : Tree) (m : Matching) (c : Correspondence) : Prop where
  oneToOne : OneToOne c.pairs
  seeds_subset : seeds src dst m ⊆ c.pairs
  ignored_subset : ∀ q ∈ seeds src dst m, ignoredPairs src dst q ⊆ c.pairs
  cases : ∀ r ∈ c.pairs, r ∈ seeds src dst m ∨ ∃ q ∈ c.pairs, r ∈ ignoredPairs src dst q

theorem resolve_ok (hs : src.Linked) (hd : dst.Linked) (hm : (Pairing.ofTrees src dst).Matches m) :
    ∃ c, resolve (Pairing.ofTrees src dst) m.pairs src dst = .ok c ∧ Resolved src dst m c := by
  have hstart : Sound src dst m ⟨seeds src dst m⟩ [] :=
    ⟨oneToOne_seeds hs hd hm.oneToOne, fun r hr => Or.inl hr, fun r hr => by simp at hr⟩
  obtain ⟨c, done, hclose, hsound, hsub, hfirst⟩ :=
    Sound.close hs hd src.size (seeds src dst m) hstart rfl
  refine ⟨c, ?_, hsound.oneToOne, hsub, fun q hq r hr => ?_, fun r hr => ?_⟩
  · rw [resolve, foldlM_seed hs hd hm]
    exact hclose
  · exact hfirst hs.root_lt (List.mem_flatMap.mpr ⟨q, hq, hr⟩)
  · refine (hsound.cases r hr).imp_right ?_
    rintro ⟨q, hq, hmem⟩
    exact ⟨q, hsound.subset hq, hmem⟩

/-! ## Counterparts -/

namespace Resolved

theorem refs (hs : src.Linked) (hd : dst.Linked) (h : Resolved src dst m c) {r : NodeRef × NodeRef}
    (hr : r ∈ c.pairs) : r.1.tree = src.name ∧ r.2.tree = dst.name := by
  rcases h.cases r hr with hseed | ⟨q, -, hq⟩
  · obtain ⟨_, _, a, b, -, -, -, rfl⟩ := (mem_seeds_iff hs hd).mp hseed
    exact ⟨rfl, rfl⟩
  · obtain ⟨a, b, rfl, -⟩ := of_mem_ignoredPairs hs hd hq
    exact ⟨rfl, rfl⟩

theorem get?_eq_some_iff (hs : src.Linked) (hd : dst.Linked) (hname : src.name ≠ dst.name)
    (h : Resolved src dst m c) {a b : NodeId} :
    (c.get? (dst.ref b)).map (·.node) = some a ↔ (src.ref a, dst.ref b) ∈ c.pairs := by
  have hnone : c.dstOf (dst.ref b) = none :=
    find_fst_eq_none_iff.mpr fun q hq heq => hname (by
      rw [← (h.refs hs hd hq).1, heq]
      rfl)
  rw [get?, hnone, Option.none_or, Option.map_eq_some_iff]
  constructor
  · rintro ⟨x, hx, rfl⟩
    have hmem := mem_of_find_snd hx
    have hx' : x = src.ref x.node := by
      rw [Tree.ref, ← (h.refs hs hd hmem).1]
    rw [← hx']
    exact hmem
  · intro hmem
    exact ⟨src.ref a, h.oneToOne.find_snd_eq_some_iff.mpr hmem, rfl⟩

theorem mem_of_stands (hs : src.Linked) (hd : dst.Linked) (h : Resolved src dst m c) {s d : Nat}
    {a b : NodeId} (hsd : m.srcOf d = some s) (ha : Outline.Stands src s a)
    (hb : Outline.Stands dst d b) : (src.ref a, dst.ref b) ∈ c.pairs :=
  h.seeds_subset ((mem_seeds_iff hs hd).mpr ⟨s, d, a, b, Matching.mem_of_srcOf hsd, ha, hb, rfl⟩)

theorem ignored_of_mem (hs : src.Linked) (hd : dst.Linked) (h : Resolved src dst m c)
    {a b p q : NodeId} (hq : dst.parent? b = some q) (hb : dst.isIgnored b = true)
    (hpq : (src.ref p, dst.ref q) ∈ c.pairs) (hab : (src.ref a, dst.ref b) ∈ c.pairs) :
    src.parent? a = some p ∧ src.isIgnored a = true := by
  rcases h.cases _ hab with hseed | ⟨r, hr, hmem⟩
  · obtain ⟨_, d, _, b', -, -, hb', heq⟩ := (mem_seeds_iff hs hd).mp hseed
    obtain rfl : b = b' := congrArg (·.2.node) heq
    exact absurd hb' (not_stands_of_ignored hd hq hb)
  · obtain ⟨a', b', heq, ha, hignored, hb', -⟩ := of_mem_ignoredPairs hs hd hmem
    obtain rfl : a = a' := congrArg (·.1.node) heq
    obtain rfl : b = b' := congrArg (·.2.node) heq
    have hrq : r.2.node = q := Option.some.inj (hb'.symm.trans hq)
    have hr2 : r.2 = dst.ref q := by
      rw [Tree.ref, ← hrq, ← (h.refs hs hd hr).2]
    rw [h.oneToOne.eq_of_snd hr hpq hr2] at ha
    exact ⟨ha, hignored⟩

end Resolved

end

theorem resolved_of_diff {src dst : Tree} {minMoveSize : Nat} {nodes : Correspondence}
    (hs : src.Linked) (hd : dst.Linked)
    (h : resolve (src.diff dst minMoveSize).pairing (src.diff dst minMoveSize).pairs src dst =
      .ok nodes) : Resolved src dst ((Pairing.ofTrees src dst).matching minMoveSize) nodes := by
  obtain ⟨nodes', h', hresolved⟩ := resolve_ok hs hd (Pairing.matching_matches src dst minMoveSize)
  obtain rfl : nodes = nodes' := Except.ok.inj (h.symm.trans h')
  exact hresolved

end Correspondence

/-- The correspondence between the nodes of two trees that are compared; empty if there is none. -/
def Tree.correspondence (src dst : Tree) (minMoveSize : Nat) : Correspondence :=
  (Correspondence.resolve (src.diff dst minMoveSize).pairing (src.diff dst minMoveSize).pairs
    src dst).toOption.getD .empty

theorem Tree.eq_correspondence {src dst : Tree} {minMoveSize : Nat} {nodes : Correspondence}
    (h : Correspondence.resolve (src.diff dst minMoveSize).pairing (src.diff dst minMoveSize).pairs
      src dst = .ok nodes) : nodes = src.correspondence dst minMoveSize := by
  rw [correspondence, h]
  rfl

end TreePatch
