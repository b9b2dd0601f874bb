import TreePatch.Patch.Apply
import TreePatch.Proofs.Edit
import TreePatch.Proofs.Path

/-!
# Children in the course of patching

How the children of a patched node stand to the children of its destination while copies are linked in
one by one. `Arranged` says which nodes are there, that the members of every collection run in the order
of the destination, and, where the places are given in full, that all children do. It is kept by a
linked copy that goes to the right position (`Arranged.insert`); anchors and collection indices both
lead to it.
-/

namespace TreePatch

/-! ## Lists -/

section

variable {f g : NodeId → Option NodeId} {ds before after : List NodeId} {x n : NodeId}

theorem filterMap_of_split (hsplit : ds = before ++ x :: after) (hx : f x = none) :
    ds.filterMap f = before.filterMap f ++ after.filterMap f := by
  rw [hsplit, List.filterMap_append, List.filterMap_cons_none hx]

theorem filterMap_add (hnodup : ds.Nodup) (hsplit : ds = before ++ x :: after) (hx : g x = some n)
    (hother : ∀ y ∈ ds, y ≠ x → g y = f y) :
    ds.filterMap g = before.filterMap f ++ n :: after.filterMap f := by
  subst hsplit
  have hne : ∀ y ∈ before ++ after, y ≠ x := by
    rintro y hy rfl
    exact (List.nodup_middle.mp hnodup |> List.nodup_cons.mp).1 hy
  rw [List.filterMap_append, List.filterMap_cons_some hx]
  congr 1
  · refine List.filterMap_congr fun y hy => hother y (by simp [hy]) (hne y (by simp [hy]))
  · congr 1
    exact List.filterMap_congr fun y hy => hother y (by simp [hy]) (hne y (by simp [hy]))

end

/-- What goes between the elder siblings `before` and the younger siblings `there` gets next to the member
of the collection `R` that it is put beside: in front of the first younger member, or behind the last elder
one if there is no younger one. -/
def Beside (role : NodeId → Role) (R : Role) (before there : List NodeId) : Prop :=
  (∀ y ∈ there, role y = R → there.head?.map role = some R) ∧
    ((∀ y ∈ there, role y ≠ R) → ∀ y ∈ before, role y = R → before.getLast?.map role = some R)

instance (role : NodeId → Role) (R : Role) (before there : List NodeId) :
    Decidable (Beside role R before there) :=
  inferInstanceAs (Decidable (_ ∧ _))

theorem beside_of_all {role : NodeId → Role} {R : Role} {before there : List NodeId}
    (hbefore : ∀ y ∈ before, role y = R) (hthere : ∀ y ∈ there, role y = R) :
    Beside role R before there := by
  refine ⟨fun y hy _ => ?_, fun _ y hy _ => ?_⟩
  · obtain ⟨z, l, rfl⟩ := List.exists_cons_of_ne_nil (List.ne_nil_of_mem hy)
    simp [hthere z]
  · rcases List.eq_nil_or_concat before with rfl | ⟨l, z, rfl⟩
    · simp at hy
    · simp [hbefore z]

/-- From the first member with role `R` on, all have it. -/
def ComesLast (role : NodeId → Role) (R : Role) (ds : List NodeId) : Prop :=
  ∀ y ∈ ds.dropWhile (role · != R), role y = R

instance (role : NodeId → Role) (R : Role) (ds : List NodeId) : Decidable (ComesLast role R ds) :=
  inferInstanceAs (Decidable (∀ y ∈ _, _))

theorem ComesLast.younger {role : NodeId → Role} {R : Role} {before after : List NodeId} {x : NodeId}
    (h : ComesLast role R (before ++ x :: after)) (hx : role x = R) : ∀ y ∈ after, role y = R := by
  intro y hy
  refine h y ?_
  rw [List.dropWhile_append]
  split
  · rw [List.dropWhile_cons_of_neg (by simp [hx])]
    exact List.mem_cons_of_mem _ hy
  · exact List.mem_append_right _ (List.mem_cons_of_mem _ hy)

/-! ## Arrangements -/

/-- How the children of the patched node `p` stand to those of the destination node `q`, whose children
are so far represented as `image` says. Apart from these there is punctuation of the source that stayed
behind. -/
structure Arranged (src dst t : Tree) (image : NodeId → Option NodeId) (aligned : Prop)
    (q p : NodeId) : Prop where
  mem : ∀ {c}, c ∈ t.children p ↔
    (∃ x ∈ dst.children q, image x = some c) ∨ (c ∈ src.children p ∧ src.isIgnored c = true)
  collection : ∀ {R : Role}, R.isCollection = true →
    t.childrenWithRole p R = (dst.childrenWithRole q R).filterMap image
  exact : aligned → t.children p = (dst.children q).filterMap image

/-- A position among the children of `p` that lies behind what represents the elder siblings `before` of
`x`: those in its collection and, where all places are given, all of them. -/
structure Fits (dst t : Tree) (image : NodeId → Option NodeId) (aligned : Prop) (p x : NodeId)
    (before : List NodeId) (i : Nat) : Prop where
  le : i ≤ (t.children p).length
  collection : (dst.role x).isCollection = true →
    ((t.children p).take i).filter (t.role · == dst.role x) =
      (before.filter (dst.role · == dst.role x)).filterMap image
  exact : aligned → i = (before.filterMap image).length

namespace Arranged

variable {src dst t t' : Tree} {image image' : NodeId → Option NodeId} {aligned : Prop}
  {q p : NodeId}

theorem congr (h : Arranged src dst t image aligned q p) (hchildren : t'.children p = t.children p)
    (hrole : ∀ c ∈ t.children p, t'.role c = t.role c)
    (himage : ∀ x ∈ dst.children q, image' x = image x) :
    Arranged src dst t' image' aligned q p where
  mem {c} := by
    rw [hchildren, h.mem]
    refine or_congr_left (exists_congr fun x => and_congr_right fun hx => ?_)
    rw [himage x hx]
  collection {R} hR := by
    have hfilter : t'.childrenWithRole p R = t.childrenWithRole p R := by
      rw [Tree.childrenWithRole, Tree.childrenWithRole, hchildren]
      exact List.filter_congr fun c hc => by rw [hrole c hc]
    rw [hfilter, h.collection hR]
    exact (List.filterMap_congr fun x hx => himage x (List.mem_filter.mp hx).1).symm
  exact haligned := by
    rw [hchildren, h.exact haligned]
    exact (List.filterMap_congr himage).symm

theorem insert (h : Arranged src dst t image aligned q p) {x n : NodeId} {before after : List NodeId}
    {i : Nat} (hnodup : (dst.children q).Nodup) (hsplit : dst.children q = before ++ x :: after)
    (hx : image x = none) (hx' : image' x = some n)
    (hother : ∀ y ∈ dst.children q, y ≠ x → image' y = image y)
    (hchildren : t'.children p = (t.children p).take i ++ n :: (t.children p).drop i)
    (hrole : ∀ c ∈ t.children p, t'.role c = t.role c) (hn : t'.role n = dst.role x)
    (hfits : Fits dst t image aligned p x before i) : Arranged src dst t' image' aligned q p where
  mem {c} := by
    have hmem : c ∈ t'.children p ↔ c = n ∨ c ∈ t.children p := by
      rw [hchildren, List.mem_append, List.mem_cons, or_left_comm, ← List.mem_append,
        List.take_append_drop]
    have himage : (∃ y ∈ dst.children q, image' y = some c) ↔
        c = n ∨ ∃ y ∈ dst.children q, image y = some c := by
      constructor
      · rintro ⟨y, hy, hc⟩
        by_cases hyx : y = x
        · subst hyx
          exact Or.inl (Option.some.inj (hc.symm.trans hx'))
        · exact Or.inr ⟨y, hy, hother y hy hyx ▸ hc⟩
      · rintro (rfl | ⟨y, hy, hc⟩)
        · exact ⟨x, by simp [hsplit], hx'⟩
        · refine ⟨y, hy, (hother y hy ?_).trans hc⟩
          rintro rfl
          rw [hx] at hc
          simp at hc
    rw [hmem, himage, h.mem, or_assoc]
  collection {R} hR := by
    have hfilter : ∀ l ⊆ t.children p, l.filter (t'.role · == R) = l.filter (t.role · == R) :=
      fun l hl => List.filter_congr fun c hc => by rw [hrole c (hl hc)]
    rw [Tree.childrenWithRole, hchildren, List.filter_append, List.filter_cons,
      hfilter _ (List.take_subset _ _), hfilter _ (List.drop_subset _ _), hn]
    have hall : ((t.children p).take i).filter (t.role · == R) ++
        ((t.children p).drop i).filter (t.role · == R) =
          (dst.childrenWithRole q R).filterMap image := by
      rw [← List.filter_append, List.take_append_drop]
      exact h.collection hR
    by_cases hxR : dst.role x = R
    · subst hxR
      have hmembers : dst.childrenWithRole q (dst.role x) =
          before.filter (dst.role · == dst.role x) ++ x :: after.filter (dst.role · == dst.role x) := by
        rw [Tree.childrenWithRole, hsplit, List.filter_append, List.filter_cons_of_pos (by simp)]
      have hdistinct : (dst.childrenWithRole q (dst.role x)).Nodup := hnodup.filter _
      rw [filterMap_of_split hmembers hx, hfits.collection hR] at hall
      rw [filterMap_add hdistinct hmembers hx' fun y hy => hother y (List.mem_filter.mp hy).1,
        hfits.collection hR, List.append_cancel_left hall, if_pos (by simp)]
    · have hothers : (dst.childrenWithRole q R).filterMap image' =
          (dst.childrenWithRole q R).filterMap image := by
        refine List.filterMap_congr fun y hy => ?_
        obtain ⟨hy, hyR⟩ := List.mem_filter.mp hy
        refine hother y hy ?_
        rintro rfl
        exact hxR (by simpa using hyR)
      rw [hothers, ← hall, if_neg (by simpa using hxR)]
  exact haligned := by
    have hcs := h.exact haligned
    rw [filterMap_of_split hsplit hx] at hcs
    rw [hchildren, filterMap_add hnodup hsplit hx' hother, hcs, hfits.exact haligned, List.take_left,
      List.drop_left]

end Arranged

/-! ## Positions -/

theorem Tree.Linked.exists_childPosition {t : Tree} (L : t.Linked) {c p : NodeId}
    (hc : t.parent? c = some p) :
    ∃ u v, t.children p = u ++ c :: v ∧ t.childPosition? c = some u.length := by
  obtain ⟨u, v, hsplit⟩ := List.append_of_mem (L.mem_children.mpr hc)
  have hnodup := L.nodup p
  rw [hsplit] at hnodup
  refine ⟨u, v, hsplit, ?_⟩
  simp only [childPosition?, hc, Option.bind_eq_bind, Option.bind_some, hsplit]
  exact idxOf?_append_cons (notMem_of_nodup_append_cons hnodup)

/-- The position of index `elders.length` in a collection lies behind the first members `elders`, directly
in front of the next member or, if there is none, directly behind the last one. An empty collection gives
no position. -/
theorem Tree.Linked.position_in_collection {t : Tree} (L : t.Linked) {p : NodeId} {R : Role}
    {elders youngers : List NodeId} (hmembers : t.childrenWithRole p R = elders ++ youngers) :
    (elders ++ youngers = [] ∧ Patching.positionInCollection? t p R elders.length = none) ∨
      ∃ i, elders ++ youngers ≠ [] ∧ Patching.positionInCollection? t p R elders.length = some i ∧
        i ≤ (t.children p).length ∧ ((t.children p).take i).filter (t.role · == R) = elders ∧
          (∀ {next front back}, youngers.head? = some next → t.children p = front ++ next :: back →
            i = front.length) ∧
          ∀ {last front back}, youngers = [] → elders.getLast? = some last →
            t.children p = front ++ last :: back → i = front.length + 1 := by
  have hcs := L.nodup p
  have hdistinct : (elders ++ youngers).Nodup := hmembers ▸ hcs.filter _
  have hmember : ∀ {c}, c ∈ elders ++ youngers → t.parent? c = some p ∧ t.role c = R :=
    fun {c} hc => L.mem_childrenWithRole.mp (hmembers ▸ hc)
  have hfilter : ∀ {u v c}, t.children p = u ++ c :: v → t.role c = R →
      elders ++ youngers = u.filter (t.role · == R) ++ c :: v.filter (t.role · == R) :=
    fun {u v c} hchildren hc => by
      rw [← hmembers, childrenWithRole, hchildren, List.filter_append,
        List.filter_cons_of_pos (by simp [hc])]
  cases youngers with
  | cons next rest =>
    -- in front of the next member
    obtain ⟨hparent, hrole⟩ := hmember (c := next) (by simp)
    obtain ⟨u, v, hchildren, hposition⟩ := L.exists_childPosition hparent
    refine Or.inr ⟨u.length, by simp, ?_, ?_, ?_, fun {next' front back} hnext hall => ?_, by simp⟩
    · simp [Patching.positionInCollection?, hmembers, hposition]
    · simp [hchildren]
    · rw [hchildren, List.take_left]
      exact (eq_of_append_cons_eq hdistinct (hfilter hchildren hrole)).1.symm
    · obtain rfl : next = next' := by simpa using hnext
      rw [hchildren] at hcs hall
      rw [(eq_of_append_cons_eq hcs hall).1]
  | nil =>
    rcases List.eq_nil_or_concat elders with rfl | ⟨firsts, last, rfl⟩
    · refine Or.inl ⟨rfl, ?_⟩
      simp [Patching.positionInCollection?, hmembers]
    · -- behind the last member
      rw [List.concat_eq_append] at *
      rw [List.append_nil] at hdistinct hfilter
      obtain ⟨hparent, hrole⟩ := hmember (c := last) (by simp)
      obtain ⟨u, v, hchildren, hposition⟩ := L.exists_childPosition hparent
      have hsplit : t.children p = (u ++ [last]) ++ v := by simp [hchildren]
      have hlength : u.length + 1 = (u ++ [last]).length := by simp
      refine Or.inr
        ⟨u.length + 1, by simp, ?_, ?_, ?_, by simp, fun {last' front back} _ hlast hall => ?_⟩
      · simp [Patching.positionInCollection?, hmembers, hposition]
      · rw [hsplit, hlength]
        exact (List.sublist_append_left _ _).length_le
      · rw [hsplit, hlength, List.take_left, List.filter_append,
          List.filter_cons_of_pos (by simp [hrole]),
          (eq_of_append_cons_eq hdistinct (hfilter hchildren hrole)).1]
        rfl
      · obtain rfl : last = last' := by simpa using hlast
        rw [hchildren] at hcs hall
        rw [(eq_of_append_cons_eq hcs hall).1]

theorem filterMap_length_of_isSome {f : NodeId → Option NodeId} {l : List NodeId}
    (h : ∀ y ∈ l, (f y).isSome = true) : (l.filterMap f).length = l.length := by
  induction l with
  | nil => rfl
  | cons y l ih =>
    obtain ⟨c, hc⟩ := Option.isSome_iff_exists.mp (h y List.mem_cons_self)
    rw [List.filterMap_cons_some hc, List.length_cons, List.length_cons,
      ih fun z hz => h z (List.mem_cons_of_mem _ hz)]

namespace Arranged

variable {src dst t : Tree} {image : NodeId → Option NodeId} {aligned : Prop} {q p x : NodeId}
  {before after : List NodeId}

theorem members_eq (h : Arranged src dst t image aligned q p)
    (hsplit : dst.children q = before ++ x :: after) (hx : image x = none)
    (hR : (dst.role x).isCollection = true) :
    t.childrenWithRole p (dst.role x) =
      (before.filter (dst.role · == dst.role x)).filterMap image ++
        (after.filter (dst.role · == dst.role x)).filterMap image := by
  rw [h.collection hR, Tree.childrenWithRole, hsplit, List.filter_append,
    List.filter_cons_of_pos (by simp), filterMap_of_split rfl hx]

theorem collection_of_nil (h : Arranged src dst t image aligned q p)
    (hsplit : dst.children q = before ++ x :: after) (hx : image x = none)
    (hR : (dst.role x).isCollection = true) (hnil : t.childrenWithRole p (dst.role x) = []) (i : Nat) :
    ((t.children p).take i).filter (t.role · == dst.role x) =
      (before.filter (dst.role · == dst.role x)).filterMap image := by
  rw [(List.append_eq_nil_iff.mp ((h.members_eq hsplit hx hR).symm.trans hnil)).1]
  refine List.filter_eq_nil_iff.mpr fun c hc => ?_
  exact List.filter_eq_nil_iff.mp hnil c (List.mem_of_mem_take hc)

theorem position_behind (h : Arranged src dst t image aligned q p) (L : t.Linked)
    (hsplit : dst.children q = before ++ x :: after) (hx : image x = none)
    (hnil : (dst.role x).isCollection = true → t.childrenWithRole p (dst.role x) = []) :
    ∃ i, Patching.positionBehind t p (before.filterMap image).getLast? = .ok i ∧
      Fits dst t image aligned p x before i := by
  have hcollection := fun i hR => h.collection_of_nil hsplit hx hR (hnil hR) i
  rcases List.eq_nil_or_concat (before.filterMap image) with hempty | ⟨l, e, hlast⟩
  · rw [hempty]
    exact ⟨0, rfl, Nat.zero_le _, hcollection 0, fun _ => by rw [hempty]; rfl⟩
  · rw [List.concat_eq_append] at hlast
    have he : t.parent? e = some p := by
      obtain ⟨z, hz, hze⟩ := List.mem_filterMap.mp (hlast ▸ by simp : e ∈ before.filterMap image)
      exact L.mem_children.mp (h.mem.mpr (Or.inl ⟨z, by simp [hsplit, hz], hze⟩))
    obtain ⟨u, v, hchildren, hposition⟩ := L.exists_childPosition he
    refine ⟨u.length + 1, ?_, ?_, hcollection _, fun haligned => ?_⟩
    · rw [hlast, List.getLast?_concat, Patching.positionBehind, if_pos he, hposition]
    · rw [hchildren, List.length_append, List.length_cons]
      omega
    · have hcs := h.exact haligned
      rw [filterMap_of_split hsplit hx, hlast, List.append_assoc, List.singleton_append,
        hchildren] at hcs
      have hnodup := L.nodup p
      rw [hchildren] at hnodup
      rw [hlast, (eq_of_append_cons_eq hnodup hcs).1, List.length_append]
      rfl

theorem exact_of_beside (h : Arranged src dst t image aligned q p) (haligned : aligned)
    (hsplit : dst.children q = before ++ x :: after) (hx : image x = none) {there : List NodeId}
    (hthere : after.filterMap image = there.filterMap image)
    (hsome : ∀ y ∈ before ++ there, dst.role y = dst.role x → (image y).isSome = true)
    (hbeside : Beside dst.role (dst.role x) before there) {i : Nat}
    (hnext : ∀ {next front back},
      ((there.filter (dst.role · == dst.role x)).filterMap image).head? = some next →
        t.children p = front ++ next :: back → i = front.length)
    (hlast : ∀ {last front back}, (there.filter (dst.role · == dst.role x)).filterMap image = [] →
      ((before.filter (dst.role · == dst.role x)).filterMap image).getLast? = some last →
        t.children p = front ++ last :: back → i = front.length + 1)
    (hne : (before.filter (dst.role · == dst.role x)).filterMap image ++
      (there.filter (dst.role · == dst.role x)).filterMap image ≠ []) :
    i = (before.filterMap image).length := by
  have hchildren : t.children p = before.filterMap image ++ there.filterMap image := by
    rw [h.exact haligned, filterMap_of_split hsplit hx, hthere]
  by_cases hyounger : ∃ y ∈ there, dst.role y = dst.role x
  · obtain ⟨y, hy, hyrole⟩ := hyounger
    have hhead := hbeside.1 y hy hyrole
    cases there with
    | nil => simp at hy
    | cons z rest =>
      have hz : dst.role z = dst.role x := by simpa using hhead
      obtain ⟨c, hc⟩ := Option.isSome_iff_exists.mp (hsome z (by simp) hz)
      rw [List.filterMap_cons_some hc] at hchildren
      refine hnext ?_ hchildren
      rw [List.filter_cons_of_pos (by simp [hz]), List.filterMap_cons_some hc, List.head?_cons]
  · have hnone : ∀ y ∈ there, dst.role y ≠ dst.role x := fun y hy hyrole => hyounger ⟨y, hy, hyrole⟩
    have hyoungers : (there.filter (dst.role · == dst.role x)).filterMap image = [] := by
      rw [List.filter_eq_nil_iff.mpr fun y hy => by simpa using hnone y hy, List.filterMap_nil]
    rw [hyoungers, List.append_nil] at hne
    obtain ⟨c, hc⟩ := List.exists_mem_of_ne_nil _ hne
    obtain ⟨y, hy, -⟩ := List.mem_filterMap.mp hc
    obtain ⟨hy, hyrole⟩ := List.mem_filter.mp hy
    have hend := hbeside.2 hnone y hy (by simpa using hyrole)
    rcases List.eq_nil_or_concat before with rfl | ⟨firsts, z, rfl⟩
    · simp at hy
    · rw [List.concat_eq_append] at *
      have hz : dst.role z = dst.role x := by simpa using hend
      obtain ⟨c, hc⟩ := Option.isSome_iff_exists.mp (hsome z (by simp) hz)
      have hbefore : (firsts ++ [z]).filterMap image = firsts.filterMap image ++ [c] := by
        rw [List.filterMap_append, List.filterMap_cons_some hc, List.filterMap_nil]
      have helders : (((firsts ++ [z]).filter (dst.role · == dst.role x)).filterMap image).getLast? =
          some c := by
        rw [List.filter_append, List.filter_cons_of_pos (by simp [hz]), List.filter_nil,
          List.filterMap_append, List.filterMap_cons_some hc, List.filterMap_nil,
          List.getLast?_concat]
      rw [hbefore, List.append_assoc, List.singleton_append] at hchildren
      rw [hlast hyoungers helders hchildren, hbefore, List.length_append, List.length_singleton]

theorem position_in_collection (h : Arranged src dst t image aligned q p) (L : t.Linked)
    (hsplit : dst.children q = before ++ x :: after) (hx : image x = none)
    (hR : (dst.role x).isCollection = true) {present : NodeId → Bool}
    (habsent : ∀ y ∈ after, present y = false → image y = none)
    (hsome : ∀ y ∈ before ++ after.filter present, dst.role y = dst.role x → (image y).isSome = true)
    (hbeside : aligned → Beside dst.role (dst.role x) before (after.filter present)) :
    (t.childrenWithRole p (dst.role x) = [] ∧ Patching.positionInCollection? t p (dst.role x)
        (before.filter (dst.role · == dst.role x)).length = none) ∨
      ∃ i, Patching.positionInCollection? t p (dst.role x)
          (before.filter (dst.role · == dst.role x)).length = some i ∧
        Fits dst t image aligned p x before i := by
  have hthere : ∀ l ⊆ after, l.filterMap image = (l.filter present).filterMap image := fun l hl => by
    rw [List.filterMap_filter]
    refine List.filterMap_congr fun y hy => ?_
    by_cases hpresent : present y = true
    · rw [if_pos hpresent]
    · rw [if_neg hpresent, habsent y (hl hy) (by simpa using hpresent)]
  have hmembers := h.members_eq hsplit hx hR
  rw [hthere _ (List.filter_subset_self _), List.filter_comm] at hmembers
  have hlength : ((before.filter (dst.role · == dst.role x)).filterMap image).length =
      (before.filter (dst.role · == dst.role x)).length := by
    refine filterMap_length_of_isSome fun y hy => ?_
    obtain ⟨hy, hyR⟩ := List.mem_filter.mp hy
    exact hsome y (List.mem_append_left _ hy) (by simpa using hyR)
  rw [← hlength]
  rcases L.position_in_collection hmembers with ⟨hnil, hnone⟩ | ⟨i, hne, hi, hle, htake, hnext, hlast⟩
  · exact Or.inl ⟨hmembers.trans hnil, hnone⟩
  · refine Or.inr ⟨i, hi, hle, fun _ => htake, fun haligned => ?_⟩
    exact h.exact_of_beside haligned hsplit hx (hthere after (List.Subset.refl _)) hsome
      (hbeside haligned) hnext hlast hne

theorem position_last (h : Arranged src dst t image aligned q p)
    (hsplit : dst.children q = before ++ x :: after) (hx : image x = none)
    (hR : (dst.role x).isCollection = true) (hnil : t.childrenWithRole p (dst.role x) = [])
    (hlast : aligned → ComesLast dst.role (dst.role x) (dst.children q)) :
    Fits dst t image aligned p x before (t.children p).length := by
  refine ⟨Nat.le_refl _, fun _ => h.collection_of_nil hsplit hx hR hnil _, fun haligned => ?_⟩
  have hlast := hlast haligned
  rw [hsplit] at hlast
  have hall : after.filter (dst.role · == dst.role x) = after :=
    List.filter_eq_self.mpr fun y hy => by simp [hlast.younger rfl y hy]
  have hnone := (List.append_eq_nil_iff.mp ((h.members_eq hsplit hx hR).symm.trans hnil)).2
  rw [hall] at hnone
  rw [h.exact haligned, filterMap_of_split hsplit hx, hnone, List.append_nil]

end Arranged

end TreePatch
