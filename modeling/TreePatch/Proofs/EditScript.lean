import TreePatch.EditScript
import TreePatch.Proofs.Matching

/-!
# Edit scripts split both trees

A destination node is kept when it and every node above it kept its partner, parent, role, order and
label. The two walks that read off an edit script decide alike: going down the destination, they leave
exactly the kept nodes alone and bring in each other node with one operation; going down the source,
they leave exactly the partners of kept nodes.

The walks are first brought into a closed form (`collect_ofRose`): a number is reached if the walk goes
on at every number above it. What remains is which nodes go on (`dst_goesOn_iff`, `src_goesOn_iff`), and
that a source node that is settled without a deletion is the source of a move or an update
(`src_settled`).
-/

namespace TreePatch

namespace Forest

variable {above : Nat → Option Nat} {below : Nat → List Nat} {size : Nat}

theorem exists_topmost (F : Forest above below size) {P : Nat → Prop} (n : Nat)
    (h : ¬ ∀ a ∈ n :: Walk.upward above size n, P a) :
    ∃ a ∈ n :: Walk.upward above size n, ¬ P a ∧ ∀ b ∈ Walk.upward above size a, P b := by
  induction n using F.induction_up with
  | step n ih =>
    by_cases hup : ∀ a ∈ Walk.upward above size n, P a
    · refine ⟨n, by simp, fun hn => h fun a ha => ?_, hup⟩
      rcases List.mem_cons.mp ha with rfl | ha
      · exact hn
      · exact hup a ha
    · cases hn : above n with
      | none =>
        rw [upward_of_none hn] at hup
        simp at hup
      | some p =>
        rw [F.upward_of_some hn] at hup ⊢
        obtain ⟨a, ha, hPa, hab⟩ := ih p hn hup
        exact ⟨a, List.mem_cons_of_mem _ ha, hPa, hab⟩

end Forest

namespace Pairing

/-! ## The walks -/

namespace Fate

/-- Whether the walk goes on below the node. -/
def goesOn : Fate → Bool
  | stays => true
  | settled _ => false

def operation? : Fate → Option Operation
  | stays => none
  | settled operation => operation

end Fate

/-- What a walk over `o` yields at a number: nothing unless it goes on at every number above. -/
def emitted (o : Outline) (fate : Nat → Fate) (i : Nat) : Option Operation :=
  if (o.ancestors i).all fun a => (fate a).goesOn then (fate i).operation? else none

theorem emitted_eq_some_iff {o : Outline} {fate : Nat → Fate} {i : Nat} {op : Operation} :
    emitted o fate i = some op ↔
      (∀ a ∈ o.ancestors i, (fate a).goesOn = true) ∧ fate i = .settled (some op) := by
  rw [emitted]
  cases hf : fate i with
  | stays => simp [Fate.operation?]
  | settled operation =>
    split
    · next h =>
      rw [Fate.operation?, Fate.settled.injEq]
      exact ⟨fun he => ⟨List.all_eq_true.mp h, he⟩, And.right⟩
    · next h =>
      simp only [List.all_eq_true] at h
      simp [h]

theorem collect_laid (r : Rose Mark) (fate : Nat → Fate) :
    ∀ (bound : Nat) (l : List (Nat × Rose Mark)),
      (∀ x ∈ l, (∃ q, Rose.Laid Outline.entry (Outline.ofRose r).node x.1 q x.2) ∧
        ∀ a ∈ (Outline.ofRose r).ancestors x.1, (fate a).goesOn = true) →
      Rose.sizeAll (l.map (·.2)) ≤ bound →
        collect fate (Outline.ofRose r).children bound (l.map (·.1)) =
          (l.flatMap fun x => List.range' x.1 x.2.size).filterMap
            (emitted (Outline.ofRose r) fate) := by
  have N := Outline.numbered_ofRose r
  have F := Outline.forest_ofRose r
  intro bound
  induction bound with
  | zero =>
    intro l _ hbound
    cases l with
    | nil => rfl
    | cons x l =>
      have := x.2.size_pos
      rw [List.map_cons, Rose.sizeAll] at hbound
      omega
  | succ bound ih =>
    intro l hl hbound
    cases l with
    | nil => rfl
    | cons x l =>
      obtain ⟨⟨q, hx⟩, hup⟩ := hl x (by simp)
      have hsize := x.2.size_eq
      have hkids : (Outline.ofRose r).children x.1 = Rose.topIds (x.1 + 1) x.2.children :=
        N.kids_of_laid hx
      have hemit : emitted (Outline.ofRose r) fate x.1 = (fate x.1).operation? := by
        rw [emitted, if_pos (List.all_eq_true.mpr hup)]
      rw [List.map_cons, Rose.sizeAll] at hbound
      rw [List.map_cons, collect, List.flatMap_cons, hsize, List.range'_succ, List.cons_append]
      cases hf : fate x.1 with
      | stays =>
        have hrest := ih (Rose.tops (x.1 + 1) x.2.children ++ l)
          (fun y hy => (List.mem_append.mp hy).elim (fun hy => by
            have hy1 : y.1 ∈ (Outline.ofRose r).children x.1 := by
              rw [hkids, ← Rose.map_fst_tops]
              exact List.mem_map_of_mem hy
            refine ⟨⟨_, hx.tops y hy⟩, fun a ha => ?_⟩
            rw [Outline.ancestors, F.upward_of_some (F.mem_below.mp hy1)] at ha
            rcases List.mem_cons.mp ha with rfl | ha
            · rw [hf]
              rfl
            · exact hup a ha) (fun hy => hl y (by simp [hy])))
          (by rw [List.map_append, Rose.sizeAll_append, Rose.map_snd_tops]; omega)
        rw [List.map_append, Rose.map_fst_tops, List.flatMap_append, Rose.flatMap_range_tops]
          at hrest
        rw [hf] at hemit
        simp only [hkids, hrest, List.filterMap_cons, hemit, Fate.operation?]
      | settled operation =>
        have hrest := ih l (fun y hy => hl y (by simp [hy]))
          (by have := x.2.size_pos; omega)
        -- nothing below a settled number is reached
        have hnone : ∀ i ∈ List.range' (x.1 + 1) (Rose.sizeAll x.2.children),
            emitted (Outline.ofRose r) fate i = none := by
          intro i hi
          rw [List.mem_range'_1] at hi
          have hmem := (N.mem_interval_iff hx i).mp (by omega)
          have hanc : x.1 ∈ (Outline.ofRose r).ancestors i := by
            rw [Outline.ancestors, Outline.size_ofRose]
            exact hmem.resolve_left (by omega)
          rw [emitted, if_neg]
          intro hall
          have := List.all_eq_true.mp hall x.1 hanc
          rw [hf] at this
          simp [Fate.goesOn] at this
        rw [hf] at hemit
        simp only [hrest, List.filterMap_cons, hemit, Fate.operation?, List.filterMap_append]
        rw [List.filterMap_eq_nil_iff.mpr hnone]
        cases operation with
        | none => rfl
        | some op => rfl

/-- **A pruned walk reads the reached numbers in order.** -/
theorem collect_ofRose (r : Rose Mark) (fate : Nat → Fate) :
    collect fate (Outline.ofRose r).children (Outline.ofRose r).size [Outline.root] =
      (List.range (Outline.ofRose r).size).filterMap (emitted (Outline.ofRose r) fate) := by
  have hroot : Rose.Laid Outline.entry (Outline.ofRose r).node Outline.root none r :=
    (Outline.numbered_ofRose r).laid
  have hnone : (Outline.ofRose r).parent? Outline.root = none := by
    rw [Outline.parent?, hroot.get_eq]
    rfl
  have h := collect_laid r fate (Outline.ofRose r).size [(Outline.root, r)]
    (fun x hx => by
      rw [List.mem_singleton] at hx
      subst hx
      refine ⟨⟨none, hroot⟩, fun a ha => ?_⟩
      rw [Outline.ancestors, Forest.upward_of_none hnone] at ha
      simp at ha)
    (by simp [Rose.sizeAll, Outline.size_ofRose])
  rw [List.flatMap_singleton, ← Outline.size_ofRose r, ← List.range_eq_range'] at h
  exact h

/-! ## Kept nodes -/

section

variable (p : Pairing) (m : Matching)

/-- A destination node that has a partner with its label, under the partner of its parent, in its
role and in order among its siblings. -/
def Unchanged (d : Nat) : Prop :=
  ∃ s, m.srcOf d = some s ∧
    (∀ q, p.dst.parent? d = some q → (p.src.parent? s).bind m.dstOf = some q ∧
      (p.src.node s).role = (p.dst.node d).role ∧ d ∉ p.disorderedChildren m q) ∧
    (p.src.node s).label = (p.dst.node d).label

/-- A destination node that is unchanged, like all nodes above it. -/
def Kept (d : Nat) : Prop :=
  d < p.dst.size ∧ ∀ a ∈ d :: p.dst.ancestors d, p.Unchanged m a

end

variable {p : Pairing} {m : Matching}

theorem Unchanged.parent {d q s : Nat} (h : p.Unchanged m d) (hq : p.dst.parent? d = some q)
    (hs : m.srcOf d = some s) : ∃ s', p.src.parent? s = some s' ∧ m.dstOf s' = some q := by
  obtain ⟨s₁, hs₁, hplace, -⟩ := h
  obtain rfl := Option.some.inj (hs.symm.trans hs₁)
  exact Option.bind_eq_some_iff.mp (hplace q hq).1

theorem mem_updatedNodes_iff {d : Nat} :
    d ∈ p.updatedNodes m ↔
      ∃ s, (s, d) ∈ m.pairs ∧ (p.src.node s).label ≠ (p.dst.node d).label := by
  rw [updatedNodes, List.mem_map]
  constructor
  · rintro ⟨⟨s, d'⟩, hmem, rfl⟩
    rw [List.mem_filter] at hmem
    exact ⟨s, hmem.1, by simpa using hmem.2⟩
  · rintro ⟨s, hmem, hne⟩
    exact ⟨(s, d), List.mem_filter.mpr ⟨hmem, by simpa using hne⟩, rfl⟩

theorem disorderedChildren_subset (d : Nat) : p.disorderedChildren m d ⊆ p.dst.children d := by
  intro c hc
  rw [disorderedChildren] at hc
  split at hc
  · simp at hc
  · obtain ⟨⟨c', i⟩, hmem, rfl⟩ := List.mem_map.mp hc
    have hstay := List.fst_mem_of_mem_zipIdx (List.mem_filter.mp hmem).1
    exact (List.mem_filter.mp hstay).1

section

variable {src dst : Tree}

theorem mem_movedNodes_iff {d : Nat} :
    d ∈ (ofTrees src dst).movedNodes m ↔
      (d < (Outline.ofTree dst).size ∧ (ofTrees src dst).isDisplaced m d = true) ∨
        ∃ q < (Outline.ofTree dst).size, d ∈ (ofTrees src dst).disorderedChildren m q := by
  rw [movedNodes, Outline.preorder_root_ofTree, List.mem_append, List.mem_filter, List.mem_flatMap,
    List.mem_range]
  simp only [List.mem_range]

theorem not_displaced_of_not_moved {d : Nat} (hd : d < (Outline.ofTree dst).size)
    (h : d ∉ (ofTrees src dst).movedNodes m) : (ofTrees src dst).isDisplaced m d = false := by
  by_contra hne
  exact h (mem_movedNodes_iff.mpr (Or.inl ⟨hd, by simpa using hne⟩))

theorem isDisplaced_eq_false_iff {d q s : Nat} (hq : p.dst.parent? d = some q)
    (hs : m.srcOf d = some s) :
    p.isDisplaced m d = false ↔ (p.src.parent? s).bind m.dstOf = some q ∧
      (p.src.node s).role = (p.dst.node d).role := by
  simp [isDisplaced, hq, hs]

theorem unchanged_iff (hm : (ofTrees src dst).Matches m) {d : Nat}
    (hd : d < (Outline.ofTree dst).size) :
    (ofTrees src dst).Unchanged m d ↔ (m.srcOf d).isSome = true ∧
      d ∉ (ofTrees src dst).movedNodes m ∧ d ∉ (ofTrees src dst).updatedNodes m := by
  have F := Outline.forest_ofTree dst
  constructor
  · rintro ⟨s, hs, hplace, hlabel⟩
    refine ⟨by simp [hs], fun hmoved => ?_, fun hupdated => ?_⟩
    · rcases mem_movedNodes_iff.mp hmoved with ⟨-, hdisp⟩ | ⟨q, -, hdis⟩
      · cases hq : (Outline.ofTree dst).parent? d with
        | none => simp [isDisplaced, hq] at hdisp
        | some q =>
          rw [(isDisplaced_eq_false_iff hq hs).mpr ⟨(hplace q hq).1, (hplace q hq).2.1⟩] at hdisp
          simp at hdisp
      · have hq := F.mem_below.mp (disorderedChildren_subset q hdis)
        exact (hplace q hq).2.2 hdis
    · obtain ⟨s', hs', hne⟩ := mem_updatedNodes_iff.mp hupdated
      have heq := Option.some.inj ((hm.oneToOne.srcOf_eq_some_iff.mpr hs').symm.trans hs)
      exact hne (heq ▸ hlabel)
  · rintro ⟨hsome, hmoved, hupdated⟩
    obtain ⟨s, hs⟩ := Option.isSome_iff_exists.mp hsome
    refine ⟨s, hs, fun q hq => ?_, ?_⟩
    · obtain ⟨hparent, hrole⟩ :=
        (isDisplaced_eq_false_iff hq hs).mp (not_displaced_of_not_moved hd hmoved)
      exact ⟨hparent, hrole, fun hdis =>
        hmoved (mem_movedNodes_iff.mpr (Or.inr ⟨q, (F.lt_size hq).1, hdis⟩))⟩
    · by_contra hne
      exact hupdated (mem_updatedNodes_iff.mpr ⟨s, Matching.mem_of_srcOf hs, hne⟩)

theorem srcOf_root (hm : (ofTrees src dst).Matches m) : m.srcOf Outline.root = some Outline.root :=
  hm.oneToOne.srcOf_eq_some_iff.mpr hm.roots

theorem root_of_srcOf_root (hm : (ofTrees src dst).Matches m) {d : Nat}
    (h : m.srcOf d = some Outline.root) : d = Outline.root :=
  congrArg Prod.snd (hm.oneToOne.eq_of_fst (Matching.mem_of_srcOf h) hm.roots rfl)

theorem unchanged_root (hm : (ofTrees src dst).Matches m) :
    (ofTrees src dst).Unchanged m Outline.root := by
  refine ⟨Outline.root, srcOf_root hm, fun q hq => ?_, ?_⟩
  · rw [Outline.parent_of_root] at hq
    simp at hq
  · rw [Outline.toMark_root, Outline.toMark_root]

/-! ## What the walks decide -/

/-- What becomes of the source node `s` in the edit script. -/
def fateOfSrc (src dst : Tree) (m : Matching) (s : Nat) : Fate :=
  (ofTrees src dst).srcFate m ((ofTrees src dst).movedNodes m) ((ofTrees src dst).updatedNodes m) s

/-- What becomes of the destination node `d` in the edit script. -/
def fateOfDst (src dst : Tree) (m : Matching) (d : Nat) : Fate :=
  (ofTrees src dst).dstFate m ((ofTrees src dst).movedNodes m) ((ofTrees src dst).updatedNodes m) d

theorem editScript_eq (src dst : Tree) (m : Matching) :
    (ofTrees src dst).editScript m =
      (List.range (Outline.ofTree src).size).filterMap
          (emitted (Outline.ofTree src) (fateOfSrc src dst m)) ++
        (List.range (Outline.ofTree dst).size).filterMap
          (emitted (Outline.ofTree dst) (fateOfDst src dst m)) :=
  congrArg₂ (· ++ ·) (collect_ofRose _ _) (collect_ofRose _ _)

theorem fateOfDst_of_ne_root (hs : src.Linked) (hd : dst.Linked)
    (hm : (ofTrees src dst).Matches m) {d : Nat} {n : NodeId} (h : Outline.Stands dst d n) :
    (m.srcOf d = none ∧ fateOfDst src dst m d = .settled (some ⟨.insert, dst.ref n, none⟩)) ∨
      ∃ s o, m.srcOf d = some s ∧ Outline.Stands src s o ∧
        fateOfDst src dst m d =
          if d ∈ (ofTrees src dst).movedNodes m then
            .settled (some ⟨.move, src.ref o, some (dst.ref n)⟩)
          else if d ∈ (ofTrees src dst).updatedNodes m then
            .settled (some ⟨.update, src.ref o, some (dst.ref n)⟩)
          else .stays := by
  have horigin := h.origin hd
  cases hsrc : m.srcOf d with
  | none =>
    refine Or.inl ⟨rfl, ?_⟩
    simp only [fateOfDst, dstFate, horigin, hsrc, Option.bind_none]
  | some s =>
    have hfit := hm.fits _ (Matching.mem_of_srcOf hsrc)
    have hne : s ≠ Outline.root := by
      rintro rfl
      exact h.ne_root hd (root_of_srcOf_root hm hsrc)
    obtain ⟨o, ho⟩ := Outline.exists_stands hs hfit.1 hne
    refine Or.inr ⟨s, o, rfl, ho, ?_⟩
    simp only [fateOfDst, dstFate, horigin, hsrc, Option.bind_some, ho.origin hs,
      List.contains_iff_mem]

theorem dst_goesOn_iff (hs : src.Linked) (hd : dst.Linked) (hm : (ofTrees src dst).Matches m)
    {d : Nat} (hlt : d < (Outline.ofTree dst).size) :
    (fateOfDst src dst m d).goesOn = true ↔ (ofTrees src dst).Unchanged m d := by
  by_cases hroot : d = Outline.root
  · subst hroot
    have hstays : fateOfDst src dst m Outline.root = .stays := by
      have horigin : ((Outline.ofTree dst).node Outline.root).origin = none := by
        rw [Outline.toMark_root]
        rfl
      simp only [fateOfDst, dstFate, horigin]
    rw [hstays]
    exact ⟨fun _ => unchanged_root hm, fun _ => rfl⟩
  · obtain ⟨n, hn⟩ := Outline.exists_stands hd hlt hroot
    rw [unchanged_iff hm hlt]
    rcases fateOfDst_of_ne_root hs hd hm hn with ⟨hnone, hfate⟩ | ⟨s, o, hsome, -, hfate⟩
    · simp [hfate, hnone, Fate.goesOn]
    · rw [hfate, hsome]
      split
      · next h => simp [Fate.goesOn, h]
      · next h =>
        split
        · next h' => simp [Fate.goesOn, h']
        · next h' => simp [Fate.goesOn, h, h']

theorem src_goesOn_iff (hm : (ofTrees src dst).Matches m) {s : Nat} :
    (fateOfSrc src dst m s).goesOn = true ↔
      ∃ d, m.srcOf d = some s ∧ (ofTrees src dst).Unchanged m d := by
  cases hdst : m.dstOf s with
  | none =>
    have hfate : (fateOfSrc src dst m s).goesOn = false := by
      simp only [fateOfSrc, srcFate, hdst, Fate.goesOn]
    rw [hfate]
    refine ⟨fun h => by simp at h, ?_⟩
    rintro ⟨d, hd, -⟩
    rw [hm.oneToOne.srcOf_iff_dstOf, hdst] at hd
    simp at hd
  | some d =>
    have hsrc := hm.oneToOne.srcOf_iff_dstOf.mpr hdst
    have hlt := (hm.fits _ (Matching.mem_of_dstOf hdst)).2.1
    have huniq : (∃ d', m.srcOf d' = some s ∧ (ofTrees src dst).Unchanged m d') ↔
        (ofTrees src dst).Unchanged m d := by
      refine ⟨?_, fun h => ⟨d, hsrc, h⟩⟩
      rintro ⟨d', hd', h⟩
      rw [hm.oneToOne.srcOf_iff_dstOf, hdst] at hd'
      exact Option.some.inj hd' ▸ h
    rw [huniq, unchanged_iff hm hlt, hsrc]
    simp only [fateOfSrc, srcFate, hdst, List.contains_iff_mem]
    split
    · next h =>
      split <;> simp [Fate.goesOn, h]
    · next h =>
      split
      · next h' => simp [Fate.goesOn, h']
      · next h' => simp [Fate.goesOn, h, h']

/-! ## Kept nodes and the walks -/

theorem kept_root (hm : (ofTrees src dst).Matches m) :
    (ofTrees src dst).Kept m Outline.root := by
  refine ⟨Outline.size_pos dst, fun a ha => ?_⟩
  rw [Outline.ancestors, Forest.upward_of_none (Outline.parent_of_root dst), List.mem_singleton] at ha
  exact ha ▸ unchanged_root hm

theorem kept_iff_of_parent {d q : Nat} (hq : (Outline.ofTree dst).parent? d = some q) :
    (ofTrees src dst).Kept m d ↔
      (ofTrees src dst).Unchanged m d ∧ (ofTrees src dst).Kept m q := by
  have F := Outline.forest_ofTree dst
  have hup : (Outline.ofTree dst).ancestors d = q :: (Outline.ofTree dst).ancestors q :=
    F.upward_of_some hq
  rw [Kept, Kept, hup]
  constructor
  · rintro ⟨-, h⟩
    exact ⟨h d (by simp), (F.lt_size hq).1, fun a ha => h a (List.mem_cons_of_mem _ ha)⟩
  · rintro ⟨hd, -, h⟩
    refine ⟨(F.lt_size hq).2, fun a ha => ?_⟩
    rcases List.mem_cons.mp ha with rfl | ha
    · exact hd
    · exact h a ha

theorem Kept.unchanged {d : Nat} (h : p.Kept m d) : p.Unchanged m d :=
  h.2 d (by simp)

theorem dst_stays_iff (hs : src.Linked) (hd : dst.Linked) (hm : (ofTrees src dst).Matches m)
    {d : Nat} :
    (∀ a ∈ (Outline.ofTree dst).ancestors d, (fateOfDst src dst m a).goesOn = true) ↔
      ∀ a ∈ (Outline.ofTree dst).ancestors d, (ofTrees src dst).Unchanged m a :=
  forall₂_congr fun _ ha =>
    dst_goesOn_iff hs hd hm ((Outline.forest_ofTree dst).upward_lt_size ha)

theorem src_stays_iff (hd : dst.Linked) (hm : (ofTrees src dst).Matches m)
    {s : Nat} (hlt : s < (Outline.ofTree src).size) :
    (∀ a ∈ s :: (Outline.ofTree src).ancestors s, (fateOfSrc src dst m a).goesOn = true) ↔
      ∃ d, (ofTrees src dst).Kept m d ∧ m.srcOf d = some s := by
  have F := Outline.forest_ofTree src
  have G := Outline.forest_ofTree dst
  constructor
  · intro h
    induction s using F.induction_up with
    | step s ih =>
      obtain ⟨d, hsd, hd'⟩ := (src_goesOn_iff hm).mp (h s (by simp))
      have hlt' : d < (Outline.ofTree dst).size := (hm.fits _ (Matching.mem_of_srcOf hsd)).2.1
      refine ⟨d, ?_, hsd⟩
      cases hq : (Outline.ofTree dst).parent? d with
      | none =>
        rw [Outline.eq_root_of_parent_eq_none hd hlt' hq]
        exact kept_root hm
      | some q =>
        -- the partner of the parent of `s` is the parent of `d`
        obtain ⟨s', hs', hq'⟩ := hd'.parent hq hsd
        have hup : (Outline.ofTree src).ancestors s = s' :: (Outline.ofTree src).ancestors s' :=
          F.upward_of_some hs'
        obtain ⟨q₁, hkept, hq₁⟩ := ih s' hs' (F.lt_size hs').1 fun a ha =>
          h a (List.mem_cons_of_mem _ (hup ▸ ha))
        rw [hm.oneToOne.srcOf_iff_dstOf, hq'] at hq₁
        obtain rfl := Option.some.inj hq₁
        exact (kept_iff_of_parent hq).mpr ⟨hd', hkept⟩
  · rintro ⟨d, hkept, hsd⟩
    induction d using G.induction_up generalizing s with
    | step d ih =>
      have hself := (src_goesOn_iff hm).mpr ⟨d, hsd, hkept.unchanged⟩
      intro a ha
      rcases List.mem_cons.mp ha with rfl | ha
      · exact hself
      · obtain ⟨s', hs', ha⟩ := F.mem_upward_iff.mp ha
        cases hq : (Outline.ofTree dst).parent? d with
        | none =>
          obtain rfl := Outline.eq_root_of_parent_eq_none hd hkept.1 hq
          rw [srcOf_root hm] at hsd
          obtain rfl := Option.some.inj hsd
          rw [Outline.parent_of_root] at hs'
          simp at hs'
        | some q =>
          obtain ⟨s₁, hs₁, hq'⟩ := hkept.unchanged.parent hq hsd
          obtain rfl := Option.some.inj (hs'.symm.trans hs₁)
          exact ih q hq (F.lt_size hs').1 ((kept_iff_of_parent hq).mp hkept).2
            (hm.oneToOne.srcOf_iff_dstOf.mpr hq') a (List.mem_cons.mpr ha)

/-! ## Operations and the nodes they name -/

theorem mem_editScript_iff {op : Operation} :
    op ∈ (ofTrees src dst).editScript m ↔
      (∃ s < (Outline.ofTree src).size,
        emitted (Outline.ofTree src) (fateOfSrc src dst m) s = some op) ∨
      ∃ d < (Outline.ofTree dst).size,
        emitted (Outline.ofTree dst) (fateOfDst src dst m) d = some op := by
  rw [editScript_eq, List.mem_append, List.mem_filterMap, List.mem_filterMap]
  simp only [List.mem_range]

theorem emitted_src (hs : src.Linked) {s : Nat} {op : Operation}
    (h : emitted (Outline.ofTree src) (fateOfSrc src dst m) s = some op) :
    ∃ o, Outline.Stands src s o ∧ op = ⟨.delete, src.ref o, none⟩ := by
  have hfate := (emitted_eq_some_iff.mp h).2
  have hdel : ((Outline.ofTree src).node s).origin.map
      (fun origin => (⟨.delete, origin, none⟩ : Operation)) = some op := by
    simp only [fateOfSrc, srcFate] at hfate
    split at hfate
    · exact Fate.settled.inj hfate
    · split at hfate
      · split at hfate
        · exact Fate.settled.inj hfate
        · simp at hfate
      · split at hfate <;> simp at hfate
  obtain ⟨r, hr, rfl⟩ := Option.map_eq_some_iff.mp hdel
  obtain ⟨o, ho, rfl⟩ := (Outline.origin_eq_some_iff hs).mp hr
  exact ⟨o, ho, rfl⟩

theorem emitted_dst (hs : src.Linked) (hd : dst.Linked) (hm : (ofTrees src dst).Matches m) {d : Nat}
    {op : Operation} (hlt : d < (Outline.ofTree dst).size)
    (h : emitted (Outline.ofTree dst) (fateOfDst src dst m) d = some op) :
    ∃ n, Outline.Stands dst d n ∧
      ((m.srcOf d = none ∧ op = ⟨.insert, dst.ref n, none⟩) ∨
        ∃ s o, m.srcOf d = some s ∧ Outline.Stands src s o ∧
          ((d ∈ (ofTrees src dst).movedNodes m ∧ op = ⟨.move, src.ref o, some (dst.ref n)⟩) ∨
            (d ∉ (ofTrees src dst).movedNodes m ∧ d ∈ (ofTrees src dst).updatedNodes m ∧
              op = ⟨.update, src.ref o, some (dst.ref n)⟩))) := by
  have hfate := (emitted_eq_some_iff.mp h).2
  have hne : d ≠ Outline.root := by
    rintro rfl
    have hgoes := (dst_goesOn_iff hs hd hm hlt).mpr (unchanged_root hm)
    rw [hfate] at hgoes
    simp [Fate.goesOn] at hgoes
  obtain ⟨n, hn⟩ := Outline.exists_stands hd hlt hne
  refine ⟨n, hn, ?_⟩
  rcases fateOfDst_of_ne_root hs hd hm hn with ⟨hnone, hins⟩ | ⟨s, o, hsome, ho, hcase⟩
  · rw [hins] at hfate
    exact Or.inl ⟨hnone, (Option.some.inj (Fate.settled.inj hfate)).symm⟩
  · refine Or.inr ⟨s, o, hsome, ho, ?_⟩
    rw [hcase] at hfate
    split at hfate
    · next hmoved => exact Or.inl ⟨hmoved, (Option.some.inj (Fate.settled.inj hfate)).symm⟩
    · next hmoved =>
      split at hfate
      · next hupdated =>
        exact Or.inr ⟨hmoved, hupdated, (Option.some.inj (Fate.settled.inj hfate)).symm⟩
      · simp at hfate

end

end Pairing

/-- The destination node that an operation puts in place. -/
def Operation.incoming? (op : Operation) : Option NodeRef :=
  match op.kind with
  | .delete => none
  | .insert => some op.node
  | .update | .move => op.counterpart

/-- The source node that an operation takes away. -/
def Operation.outgoing? (op : Operation) : Option NodeRef :=
  match op.kind with
  | .insert => none
  | .delete | .update | .move => some op.node

namespace Pairing

/-- The operation puts number `d` of the destination in place. -/
def Brings (p : Pairing) (op : Operation) (d : Nat) : Prop :=
  ∃ r, op.incoming? = some r ∧ (p.dst.node d).origin = some r

/-- The operation takes number `s` of the source away. -/
def Removes (p : Pairing) (op : Operation) (s : Nat) : Prop :=
  ∃ r, op.outgoing? = some r ∧ (p.src.node s).origin = some r

section

variable {m : Matching} {src dst : Tree}

theorem brings_iff (hs : src.Linked) (hd : dst.Linked) (hm : (ofTrees src dst).Matches m)
    {op : Operation} (hop : op ∈ (ofTrees src dst).editScript m) {d : Nat} :
    (ofTrees src dst).Brings op d ↔ d < (Outline.ofTree dst).size ∧
      emitted (Outline.ofTree dst) (fateOfDst src dst m) d = some op := by
  have named : ∀ {d'}, d' < (Outline.ofTree dst).size →
      emitted (Outline.ofTree dst) (fateOfDst src dst m) d' = some op →
        ∃ n, Outline.Stands dst d' n ∧ op.incoming? = some (dst.ref n) := by
    intro d' hlt hemit
    obtain ⟨n, hn, ⟨-, rfl⟩ | ⟨_, _, -, -, ⟨-, rfl⟩ | ⟨-, -, rfl⟩⟩⟩ := emitted_dst hs hd hm hlt hemit
    all_goals exact ⟨n, hn, rfl⟩
  constructor
  · rintro ⟨r, hr, horigin⟩
    rcases mem_editScript_iff.mp hop with ⟨s, -, hemit⟩ | ⟨d', hlt, hemit⟩
    · obtain ⟨o, -, rfl⟩ := emitted_src hs hemit
      simp [Operation.incoming?] at hr
    · obtain ⟨n, hn, hin⟩ := named hlt hemit
      obtain rfl := Option.some.inj (hin.symm.trans hr)
      obtain rfl := Outline.origin_injective hd horigin (hn.origin hd)
      exact ⟨hlt, hemit⟩
  · rintro ⟨hlt, hemit⟩
    obtain ⟨n, hn, hin⟩ := named hlt hemit
    exact ⟨_, hin, hn.origin hd⟩

theorem removes_iff (hs : src.Linked) (hd : dst.Linked) (hm : (ofTrees src dst).Matches m)
    {op : Operation} (hop : op ∈ (ofTrees src dst).editScript m) {s : Nat} :
    (ofTrees src dst).Removes op s ↔
      (s < (Outline.ofTree src).size ∧
        emitted (Outline.ofTree src) (fateOfSrc src dst m) s = some op) ∨
      ∃ d < (Outline.ofTree dst).size, m.srcOf d = some s ∧
        emitted (Outline.ofTree dst) (fateOfDst src dst m) d = some op := by
  constructor
  · rintro ⟨r, hr, horigin⟩
    rcases mem_editScript_iff.mp hop with ⟨s', hlt, hemit⟩ | ⟨d, hlt, hemit⟩
    · obtain ⟨o, ho, rfl⟩ := emitted_src hs hemit
      obtain rfl := Option.some.inj hr
      obtain rfl := Outline.origin_injective hs horigin (ho.origin hs)
      exact Or.inl ⟨hlt, hemit⟩
    · refine Or.inr ⟨d, hlt, ?_, hemit⟩
      obtain ⟨n, -, ⟨-, rfl⟩ | ⟨s', o, hsd, ho, hcase⟩⟩ := emitted_dst hs hd hm hlt hemit
      · simp [Operation.outgoing?] at hr
      · obtain rfl : src.ref o = r := by
          rcases hcase with ⟨-, rfl⟩ | ⟨-, -, rfl⟩ <;> exact Option.some.inj hr
        rw [Outline.origin_injective hs horigin (ho.origin hs)]
        exact hsd
  · rintro (⟨-, hemit⟩ | ⟨d, hlt, hsd, hemit⟩)
    · obtain ⟨o, ho, rfl⟩ := emitted_src hs hemit
      exact ⟨_, rfl, ho.origin hs⟩
    · obtain ⟨n, -, ⟨hnone, -⟩ | ⟨s', o, hsd', ho, hcase⟩⟩ := emitted_dst hs hd hm hlt hemit
      · rw [hnone] at hsd
        simp at hsd
      · obtain rfl := Option.some.inj (hsd.symm.trans hsd')
        rcases hcase with ⟨-, rfl⟩ | ⟨-, -, rfl⟩ <;> exact ⟨_, rfl, ho.origin hs⟩

theorem exists_emitted_dst_iff (hs : src.Linked) (hd : dst.Linked)
    (hm : (ofTrees src dst).Matches m) {d : Nat} (hlt : d < (Outline.ofTree dst).size) :
    (∃ op, emitted (Outline.ofTree dst) (fateOfDst src dst m) d = some op) ↔
      ¬ (ofTrees src dst).Unchanged m d ∧
        ∀ a ∈ (Outline.ofTree dst).ancestors d, (ofTrees src dst).Unchanged m a := by
  simp only [emitted_eq_some_iff, dst_stays_iff hs hd hm, ← dst_goesOn_iff hs hd hm hlt]
  constructor
  · rintro ⟨op, hup, hfate⟩
    exact ⟨by simp [hfate, Fate.goesOn], hup⟩
  · rintro ⟨hgoes, hup⟩
    have hne : d ≠ Outline.root := by
      rintro rfl
      exact hgoes ((dst_goesOn_iff hs hd hm hlt).mpr (unchanged_root hm))
    obtain ⟨n, hn⟩ := Outline.exists_stands hd hlt hne
    rcases fateOfDst_of_ne_root hs hd hm hn with ⟨-, hfate⟩ | ⟨s, o, -, -, hfate⟩
    · exact ⟨_, hup, hfate⟩
    · split at hfate
      · exact ⟨_, hup, hfate⟩
      · split at hfate
        · exact ⟨_, hup, hfate⟩
        · rw [hfate] at hgoes
          simp [Fate.goesOn] at hgoes

theorem not_goesOn_of_removes (hs : src.Linked) (hd : dst.Linked) (hm : (ofTrees src dst).Matches m)
    {op : Operation} (hop : op ∈ (ofTrees src dst).editScript m) {s : Nat}
    (h : (ofTrees src dst).Removes op s) : (fateOfSrc src dst m s).goesOn = false := by
  rcases (removes_iff hs hd hm hop).mp h with ⟨-, hemit⟩ | ⟨d, hlt, hsd, hemit⟩
  · rw [(emitted_eq_some_iff.mp hemit).2]
    rfl
  · rw [Bool.eq_false_iff, ne_eq, src_goesOn_iff hm]
    rintro ⟨d', hsd', hunchanged⟩
    rw [hm.oneToOne.srcOf_iff_dstOf] at hsd hsd'
    obtain rfl := Option.some.inj (hsd.symm.trans hsd')
    exact ((exists_emitted_dst_iff hs hd hm hlt).mp ⟨op, hemit⟩).1 hunchanged

theorem dst_ancestors_unchanged (hd : dst.Linked)
    (hm : (ofTrees src dst).Matches m) {s d : Nat} (hsd : m.srcOf d = some s)
    (hup : ∀ a ∈ (Outline.ofTree src).ancestors s, (fateOfSrc src dst m a).goesOn = true)
    (hmoved : d ∉ (ofTrees src dst).movedNodes m) :
    ∀ a ∈ (Outline.ofTree dst).ancestors d, (ofTrees src dst).Unchanged m a := by
  have F := Outline.forest_ofTree src
  have G := Outline.forest_ofTree dst
  have hlt : d < (Outline.ofTree dst).size := (hm.fits _ (Matching.mem_of_srcOf hsd)).2.1
  intro a ha
  obtain ⟨q, hq, ha⟩ := G.mem_upward_iff.mp ha
  -- `d` is not displaced, so the parent of its partner is the partner of its parent
  obtain ⟨s', hs', hq'⟩ := Option.bind_eq_some_iff.mp
    ((isDisplaced_eq_false_iff hq hsd).mp (not_displaced_of_not_moved hlt hmoved)).1
  have hup' : (Outline.ofTree src).ancestors s = s' :: (Outline.ofTree src).ancestors s' :=
    F.upward_of_some hs'
  obtain ⟨q₁, hkept, hq₁⟩ := (src_stays_iff hd hm (F.lt_size hs').1).mp (hup' ▸ hup)
  rw [hm.oneToOne.srcOf_iff_dstOf, hq'] at hq₁
  obtain rfl := Option.some.inj hq₁
  exact hkept.2 a (List.mem_cons.mpr ha)

theorem src_ancestors_goOn (hd : dst.Linked) (hm : (ofTrees src dst).Matches m) {s d : Nat}
    (hsd : m.srcOf d = some s)
    (hup : ∀ a ∈ (Outline.ofTree dst).ancestors d, (ofTrees src dst).Unchanged m a)
    (hmoved : d ∉ (ofTrees src dst).movedNodes m) :
    ∀ a ∈ (Outline.ofTree src).ancestors s, (fateOfSrc src dst m a).goesOn = true := by
  have F := Outline.forest_ofTree src
  have G := Outline.forest_ofTree dst
  have hlt : d < (Outline.ofTree dst).size := (hm.fits _ (Matching.mem_of_srcOf hsd)).2.1
  intro a ha
  obtain ⟨s', hs', ha⟩ := F.mem_upward_iff.mp ha
  cases hq : (Outline.ofTree dst).parent? d with
  | none =>
    obtain rfl := Outline.eq_root_of_parent_eq_none hd hlt hq
    rw [srcOf_root hm] at hsd
    obtain rfl := Option.some.inj hsd
    rw [Outline.parent_of_root] at hs'
    simp at hs'
  | some q =>
    obtain ⟨s₁, hs₁, hq'⟩ := Option.bind_eq_some_iff.mp
      ((isDisplaced_eq_false_iff hq hsd).mp (not_displaced_of_not_moved hlt hmoved)).1
    obtain rfl := Option.some.inj (hs'.symm.trans hs₁)
    have hkept : (ofTrees src dst).Kept m q :=
      ⟨(G.lt_size hq).1, fun b hb => hup b (G.mem_upward_iff.mpr ⟨q, hq, List.mem_cons.mp hb⟩)⟩
    exact (src_stays_iff hd hm (F.lt_size hs').1).mpr
      ⟨q, hkept, hm.oneToOne.srcOf_iff_dstOf.mpr hq'⟩ a (List.mem_cons.mpr ha)

theorem src_settled (hs : src.Linked) (hd : dst.Linked) (hm : (ofTrees src dst).Matches m) {s : Nat}
    (hlt : s < (Outline.ofTree src).size)
    (hup : ∀ a ∈ (Outline.ofTree src).ancestors s, (fateOfSrc src dst m a).goesOn = true)
    (hself : (fateOfSrc src dst m s).goesOn = false) :
    ∃ op ∈ (ofTrees src dst).editScript m, (ofTrees src dst).Removes op s := by
  have hne : s ≠ Outline.root := by
    rintro rfl
    rw [(src_goesOn_iff hm).mpr ⟨_, srcOf_root hm, unchanged_root hm⟩] at hself
    simp at hself
  obtain ⟨o, ho⟩ := Outline.exists_stands hs hlt hne
  -- either the walk over the source deletes `s`, or the one over the destination brings its partner
  have ofDelete : fateOfSrc src dst m s = .settled (some ⟨.delete, src.ref o, none⟩) →
      ∃ op ∈ (ofTrees src dst).editScript m, (ofTrees src dst).Removes op s := fun h =>
    ⟨_, mem_editScript_iff.mpr (Or.inl ⟨s, hlt, emitted_eq_some_iff.mpr ⟨hup, h⟩⟩), _, rfl,
      ho.origin hs⟩
  have ofPartner : ∀ d, m.srcOf d = some s →
      (∀ a ∈ (Outline.ofTree dst).ancestors d, (ofTrees src dst).Unchanged m a) →
        ∃ op ∈ (ofTrees src dst).editScript m, (ofTrees src dst).Removes op s := by
    intro d hsd hup'
    have hltd : d < (Outline.ofTree dst).size := (hm.fits _ (Matching.mem_of_srcOf hsd)).2.1
    have hchanged : ¬ (ofTrees src dst).Unchanged m d := fun h => by
      rw [(src_goesOn_iff hm).mpr ⟨d, hsd, h⟩] at hself
      simp at hself
    obtain ⟨op, hemit⟩ := (exists_emitted_dst_iff hs hd hm hltd).mpr ⟨hchanged, hup'⟩
    have hop := mem_editScript_iff.mpr (Or.inr ⟨d, hltd, hemit⟩)
    exact ⟨op, hop, (removes_iff hs hd hm hop).mpr (Or.inr ⟨d, hltd, hsd, hemit⟩)⟩
  cases hdst : m.dstOf s with
  | none =>
    refine ofDelete ?_
    simp only [fateOfSrc, srcFate, hdst, ho.origin hs, Option.map_some]
  | some d =>
    have hsd := hm.oneToOne.srcOf_iff_dstOf.mpr hdst
    by_cases hmoved : d ∈ (ofTrees src dst).movedNodes m
    · cases hcarried : (ofTrees src dst).isCarried m ((ofTrees src dst).movedNodes m ++
          (ofTrees src dst).updatedNodes m) d with
      | true =>
        refine ofDelete ?_
        simp only [fateOfSrc, srcFate, hdst, List.contains_iff_mem, hmoved, if_true, hcarried,
          ho.origin hs, Option.map_some]
      | false =>
        refine ofPartner d hsd fun a ha => ?_
        have ha' := List.any_eq_false.mp hcarried a ha
        rw [unchanged_iff hm ((Outline.forest_ofTree dst).upward_lt_size ha)]
        simpa [List.contains_iff_mem, not_or, Option.isSome_iff_ne_none] using ha'
    · exact ofPartner d hsd (dst_ancestors_unchanged hd hm hsd hup hmoved)

theorem nodup_editScript (hs : src.Linked) (hd : dst.Linked) (hm : (ofTrees src dst).Matches m) :
    ((ofTrees src dst).editScript m).Nodup := by
  -- an operation of either walk names the number that it was met at
  have hbrings : ∀ {d op}, emitted (Outline.ofTree dst) (fateOfDst src dst m) d = some op →
      d < (Outline.ofTree dst).size → (ofTrees src dst).Brings op d := fun h hlt =>
    (brings_iff hs hd hm (mem_editScript_iff.mpr (Or.inr ⟨_, hlt, h⟩))).mpr ⟨hlt, h⟩
  have hrange : ∀ {d op}, emitted (Outline.ofTree dst) (fateOfDst src dst m) d = some op →
      d < (Outline.ofTree dst).size := fun {d op} h => by
    by_contra hlt
    have hfate := (emitted_eq_some_iff.mp h).2
    have horigin : ((Outline.ofTree dst).node d).origin = none := by
      rw [Outline.node_of_size_le _ (by omega)]
      rfl
    simp only [fateOfDst, dstFate, horigin] at hfate
    simp at hfate
  rw [editScript_eq]
  refine List.Nodup.append ?_ ?_ ?_
  · refine List.nodup_range.filterMap fun i j op hi hj => ?_
    obtain ⟨o, ho, rfl⟩ := emitted_src hs hi
    obtain ⟨o', ho', heq⟩ := emitted_src hs hj
    rw [show o = o' from congrArg (·.node.node) heq] at ho
    exact ho.injective hs ho'
  · refine List.nodup_range.filterMap fun i j op hi hj => ?_
    obtain ⟨r, hr, hir⟩ := hbrings hi (hrange hi)
    obtain ⟨r', hr', hjr⟩ := hbrings hj (hrange hj)
    obtain rfl := Option.some.inj (hr.symm.trans hr')
    exact Outline.origin_injective hd hir hjr
  · intro op hsrc hdst
    obtain ⟨s, -, hs'⟩ := List.mem_filterMap.mp hsrc
    obtain ⟨d, -, hd'⟩ := List.mem_filterMap.mp hdst
    obtain ⟨o, -, rfl⟩ := emitted_src hs hs'
    obtain ⟨r, hr, -⟩ := hbrings hd' (hrange hd')
    simp [Operation.incoming?] at hr

/-! ## The split -/

theorem topmost_of_brings (hs : src.Linked) (hd : dst.Linked) (hm : (ofTrees src dst).Matches m)
    {op : Operation} {d : Nat} (hop : op ∈ (ofTrees src dst).editScript m)
    (h : (ofTrees src dst).Brings op d) : d < (Outline.ofTree dst).size ∧
      ¬ (ofTrees src dst).Unchanged m d ∧
        ∀ a ∈ (Outline.ofTree dst).ancestors d, (ofTrees src dst).Unchanged m a := by
  obtain ⟨hlt, hemit⟩ := (brings_iff hs hd hm hop).mp h
  exact ⟨hlt, (exists_emitted_dst_iff hs hd hm hlt).mp ⟨op, hemit⟩⟩

theorem exists_brings (hs : src.Linked) (hd : dst.Linked) (hm : (ofTrees src dst).Matches m)
    {op : Operation} (hop : op ∈ (ofTrees src dst).editScript m) (hkind : op.kind ≠ .delete) :
    ∃ d, (ofTrees src dst).Brings op d := by
  rcases mem_editScript_iff.mp hop with ⟨s, -, hemit⟩ | ⟨d, hlt, hemit⟩
  · obtain ⟨o, -, rfl⟩ := emitted_src hs hemit
    exact absurd rfl hkind
  · exact ⟨d, (brings_iff hs hd hm hop).mpr ⟨hlt, hemit⟩⟩

theorem exists_kept_parent (hs : src.Linked) (hd : dst.Linked) (hm : (ofTrees src dst).Matches m)
    {op : Operation} {d : Nat} (hop : op ∈ (ofTrees src dst).editScript m)
    (h : (ofTrees src dst).Brings op d) :
    ∃ q, (Outline.ofTree dst).parent? d = some q ∧ (ofTrees src dst).Kept m q := by
  have G := Outline.forest_ofTree dst
  obtain ⟨hlt, hchanged, hup⟩ := topmost_of_brings hs hd hm hop h
  cases hq : (Outline.ofTree dst).parent? d with
  | none =>
    rw [Outline.eq_root_of_parent_eq_none hd hlt hq] at hchanged
    exact absurd (unchanged_root hm) hchanged
  | some q =>
    exact ⟨q, rfl, (G.lt_size hq).1,
      fun a ha => hup a (G.mem_upward_iff.mpr ⟨q, hq, List.mem_cons.mp ha⟩)⟩

theorem existsUnique_brings (hs : src.Linked) (hd : dst.Linked) (hm : (ofTrees src dst).Matches m)
    {d : Nat} (hlt : d < (Outline.ofTree dst).size) (h : ¬ (ofTrees src dst).Kept m d) :
    ∃! op, op ∈ (ofTrees src dst).editScript m ∧
      ∃ a ∈ d :: (Outline.ofTree dst).ancestors d, (ofTrees src dst).Brings op a := by
  have G := Outline.forest_ofTree dst
  obtain ⟨a, ha, hchanged, hup⟩ := G.exists_topmost d fun hall => h ⟨hlt, hall⟩
  have hlta : a < (Outline.ofTree dst).size := by
    rcases List.mem_cons.mp ha with rfl | ha
    · exact hlt
    · exact G.upward_lt_size ha
  obtain ⟨op, hemit⟩ := (exists_emitted_dst_iff hs hd hm hlta).mpr ⟨hchanged, hup⟩
  have hop := mem_editScript_iff.mpr (Or.inr ⟨a, hlta, hemit⟩)
  refine ⟨op, ⟨hop, a, ha, (brings_iff hs hd hm hop).mpr ⟨hlta, hemit⟩⟩, ?_⟩
  -- two brought nodes on one way up would be above one another
  rintro op' ⟨hop', a', ha', hbrings'⟩
  obtain ⟨-, hchanged', hup'⟩ := topmost_of_brings hs hd hm hop' hbrings'
  obtain rfl : a = a' := by
    rcases G.comparable d ha ha' with heq | hmem | hmem
    · exact heq
    · exact absurd (hup' a hmem) hchanged
    · exact absurd (hup a' hmem) hchanged'
  exact Option.some.inj (((brings_iff hs hd hm hop').mp hbrings').2.symm.trans hemit)

theorem exists_removes (hs : src.Linked) (hd : dst.Linked) (hm : (ofTrees src dst).Matches m)
    {op : Operation} (hop : op ∈ (ofTrees src dst).editScript m) (hkind : op.kind ≠ .insert) :
    ∃ s < (Outline.ofTree src).size, (ofTrees src dst).Removes op s := by
  rcases mem_editScript_iff.mp hop with ⟨s, hlt, hemit⟩ | ⟨d, hlt, hemit⟩
  · exact ⟨s, hlt, (removes_iff hs hd hm hop).mpr (Or.inl ⟨hlt, hemit⟩)⟩
  · obtain ⟨n, -, ⟨-, rfl⟩ | ⟨s, o, hsd, -, -⟩⟩ := emitted_dst hs hd hm hlt hemit
    · exact absurd rfl hkind
    · exact ⟨s, (hm.fits _ (Matching.mem_of_srcOf hsd)).1,
        (removes_iff hs hd hm hop).mpr (Or.inr ⟨d, hlt, hsd, hemit⟩)⟩

theorem not_removes_iff (hs : src.Linked) (hd : dst.Linked) (hm : (ofTrees src dst).Matches m)
    {s : Nat} (hlt : s < (Outline.ofTree src).size) :
    (∀ op ∈ (ofTrees src dst).editScript m, ∀ a ∈ s :: (Outline.ofTree src).ancestors s,
        ¬ (ofTrees src dst).Removes op a) ↔
      ∀ a ∈ s :: (Outline.ofTree src).ancestors s, (fateOfSrc src dst m a).goesOn = true := by
  have F := Outline.forest_ofTree src
  constructor
  · intro hnone
    by_contra hgoes
    obtain ⟨a, ha, hself, hup⟩ := F.exists_topmost s hgoes
    have hlta : a < (Outline.ofTree src).size := by
      rcases List.mem_cons.mp ha with rfl | ha
      · exact hlt
      · exact F.upward_lt_size ha
    obtain ⟨op, hop, hremoves⟩ := src_settled hs hd hm hlta hup (by simpa using hself)
    exact hnone op hop a ha hremoves
  · intro hgoes op hop a ha hremoves
    have hself := hgoes a ha
    rw [not_goesOn_of_removes hs hd hm hop hremoves] at hself
    simp at hself

theorem goesOn_above_removes (hs : src.Linked) (hd : dst.Linked) (hm : (ofTrees src dst).Matches m)
    {op : Operation} (hop : op ∈ (ofTrees src dst).editScript m) (hkind : op.kind ≠ .move) {s : Nat}
    (h : (ofTrees src dst).Removes op s) :
    ∀ a ∈ (Outline.ofTree src).ancestors s, (fateOfSrc src dst m a).goesOn = true := by
  rcases (removes_iff hs hd hm hop).mp h with ⟨-, hemit⟩ | ⟨d, hlt, hsd, hemit⟩
  · exact (emitted_eq_some_iff.mp hemit).1
  · obtain ⟨n, -, ⟨hnone, -⟩ | ⟨_, o, -, -, ⟨-, rfl⟩ | ⟨hmoved, -, rfl⟩⟩⟩ :=
      emitted_dst hs hd hm hlt hemit
    · rw [hnone] at hsd
      simp at hsd
    · exact absurd rfl hkind
    · exact src_ancestors_goOn hd hm hsd
        ((exists_emitted_dst_iff hs hd hm hlt).mp ⟨_, hemit⟩).2 hmoved

end

/-- The operations split both outlines: the destination into what is kept and the subtrees that are
brought in, the source into the partners of what is kept and the subtrees that are taken away. -/
structure Splits (p : Pairing) (m : Matching) (ops : List Operation) : Prop where
  nodup : ops.Nodup
  /-- Every operation but a deletion brings a node in. -/
  brings : ∀ op ∈ ops, op.kind ≠ .delete → ∃ d, p.Brings op d
  brings_parent : ∀ op ∈ ops, ∀ d, p.Brings op d → ∃ q, p.dst.parent? d = some q ∧ p.Kept m q
  brings_apart : ∀ op ∈ ops, ∀ op' ∈ ops, ∀ d d', p.Brings op d → p.Brings op' d' →
    d' ∉ p.dst.ancestors d
  brings_cover : ∀ d < p.dst.size, d ≠ Outline.root →
    (p.Kept m d ∧ ∀ op ∈ ops, ∀ a ∈ d :: p.dst.ancestors d, ¬ p.Brings op a) ∨
      (¬ p.Kept m d ∧ ∃! op, op ∈ ops ∧ ∃ a ∈ d :: p.dst.ancestors d, p.Brings op a)
  /-- Every operation but an insertion takes a node away. -/
  removes : ∀ op ∈ ops, op.kind ≠ .insert → ∃ s < p.src.size, p.Removes op s
  removes_cover : ∀ s < p.src.size,
    (∀ op ∈ ops, ∀ a ∈ s :: p.src.ancestors s, ¬ p.Removes op a) ↔
      ∃ d, p.Kept m d ∧ m.srcOf d = some s
  /-- Of the nodes taken away, only a moved one can stand below another. -/
  removes_apart : ∀ op ∈ ops, op.kind ≠ .move → ∀ op' ∈ ops, ∀ s s', p.Removes op s →
    p.Removes op' s' → s' ∉ p.src.ancestors s

end Pairing

/-- **An edit script splits both trees.** -/
theorem Tree.splits_diff {src dst : Tree} (hs : src.Linked) (hd : dst.Linked) (minMoveSize : Nat) :
    (src.diff dst minMoveSize).pairing.Splits ⟨(src.diff dst minMoveSize).pairs⟩
      (src.diff dst minMoveSize).operations := by
  have hm := Pairing.matching_matches src dst minMoveSize
  exact
    { nodup := Pairing.nodup_editScript hs hd hm
      brings := fun op hop hkind => Pairing.exists_brings hs hd hm hop hkind
      brings_parent := fun op hop d h => Pairing.exists_kept_parent hs hd hm hop h
      brings_apart := fun op hop op' hop' d d' h h' hmem =>
        (Pairing.topmost_of_brings hs hd hm hop' h').2.1
          ((Pairing.topmost_of_brings hs hd hm hop h).2.2 d' hmem)
      brings_cover := fun d hlt _ => by
        by_cases hkept : (Pairing.ofTrees src dst).Kept ((Pairing.ofTrees src dst).matching minMoveSize) d
        · exact Or.inl ⟨hkept, fun op hop a ha h =>
            (Pairing.topmost_of_brings hs hd hm hop h).2.1 (hkept.2 a ha)⟩
        · exact Or.inr ⟨hkept, Pairing.existsUnique_brings hs hd hm hlt hkept⟩
      removes := fun op hop hkind => Pairing.exists_removes hs hd hm hop hkind
      removes_cover := fun s hlt =>
        (Pairing.not_removes_iff hs hd hm hlt).trans (Pairing.src_stays_iff hd hm hlt)
      removes_apart := fun op hop hkind op' hop' s s' h h' hmem => by
        have hself := Pairing.goesOn_above_removes hs hd hm hop hkind h s' hmem
        rw [Pairing.not_goesOn_of_removes hs hd hm hop' h'] at hself
        simp at hself }

/-- A tree with one leaf per word under its root. -/
def Tree.ofWords (name : String) (words : List String) : Tree :=
  Tree.ofRose name none <| .node Tree.rootContent <|
    words.map fun word => .node { kind := "identifier", label := word, role := .child } []

/-- One word goes, one stays, two change places and one comes. -/
theorem Tree.splits_diff_words :
    let src := Tree.ofWords "old" ["a", "b", "c", "d"]
    let dst := Tree.ofWords "new" ["c", "b", "d", "e"]
    (src.diff dst 1).operations.map (·.kind) = [.delete, .move, .insert] ∧
      (src.diff dst 1).pairing.Splits ⟨(src.diff dst 1).pairs⟩ (src.diff dst 1).operations :=
  ⟨by decide +kernel, Tree.splits_diff (Tree.linked_ofRose _ _ _) (Tree.linked_ofRose _ _ _) 1⟩

end TreePatch
