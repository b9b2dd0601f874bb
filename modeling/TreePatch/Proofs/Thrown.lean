import TreePatch.Proofs.Linking

/-!
# Renewing thrown types

Thrown types are placed as a whole: those under the parent are unlinked, and copies of all thrown types
of the destination are linked in order. Copies made before are used again, so that afterwards every child
of the destination node is represented by its copy.
-/

namespace TreePatch

theorem Tree.Unlinked.isAttached {t t' : Tree} (L : t.Linked) {n p : NodeId}
    (hu : Tree.Unlinked t n t') (h : t.isAttached p = true) (hn : n ∉ p :: t.ancestors p) :
    t'.isAttached p = true := by
  refine L.induction_attached (P := fun p => n ∉ p :: t.ancestors p → t'.isAttached p = true)
    (fun _ => Tree.Linked.isAttached_root) (fun c q hq _ ih hc => ?_) h hn
  rw [L.ancestors_of_some hq, List.mem_cons, not_or] at hc
  have hq' : t'.parent? c = some q := by rw [hu.parent?, if_neg (Ne.symm hc.1), hq]
  exact ((hu.linked L).isAttached_of_parent hq').mpr (ih hc.2)

theorem Tree.Linked.notMem_above_parent {t : Tree} (L : t.Linked) {n p : NodeId}
    (h : t.parent? n = some p) : n ∉ p :: t.ancestors p := by
  rw [← L.ancestors_of_some h]
  exact L.forest.not_mem_upward_self n

/-! ## Unlinking all members -/

/-- The tree `t'` is `t` with the children `gone` of `p` unlinked. -/
structure Stripped (src dst : Tree) (renamed : NodeId → String → Prop)
    (copies : List (NodeId × NodeId)) (p : NodeId) (t : Tree) (gone : List NodeId) (t' : Tree) : Prop where
  sound : Sound src dst renamed t' copies
  inSync : t'.InSync
  attached : t'.isAttached p = true
  size : t'.size = t.size
  content : ∀ n, t'.content n = t.content n
  children : ∀ n, t'.children n = (t.children n).filter fun c => decide (c ∉ gone)
  parent? : ∀ n, t'.parent? n = if n ∈ gone then none else t.parent? n

theorem Stripped.detach {src dst t t' : Tree} {renamed : NodeId → String → Prop}
    {copies : List (NodeId × NodeId)} {p c : NodeId} {gone : List NodeId}
    (h : Stripped src dst renamed copies p t gone t')
    (hlt : p < src.size) (hc : t.parent? c = some p) (hnew : c ∉ gone) :
    ∃ t'', t'.detach c = .ok t'' ∧ Stripped src dst renamed copies p t (gone ++ [c]) t'' := by
  have hcp : t'.parent? c = some p := by rw [h.parent?, if_neg hnew, hc]
  obtain ⟨t'', ht'', hu⟩ := Tree.detach_ok h.sound.linked hcp
  refine ⟨t'', ht'', h.sound.unlinked hcp hlt hu, h.inSync.unlinked hu, ?_, hu.size.trans h.size,
    fun n => (hu.content n).trans (h.content n), fun n => ?_, fun n => ?_⟩
  · exact hu.isAttached h.sound.linked h.attached (h.sound.linked.notMem_above_parent hcp)
  · rw [hu.children, h.children, List.filter_filter]
    refine List.filter_congr fun m _ => ?_
    rw [Bool.eq_iff_iff]
    simp [and_comm]
  · rw [hu.parent?, h.parent?]
    by_cases hn : n = c
    · simp [hn]
    · simp [hn]

theorem succeeds_strip {src dst : Tree} {renamed : NodeId → String → Prop} {p : NodeId} {w : Workpiece}
    (S : Sound src dst renamed w.tree w.copies) (hsync : w.tree.InSync)
    (hatt : w.tree.isAttached p = true) (hlt : p < src.size) :
    Patching.Succeeds ((w.tree.childrenWithRole p .thrown).forM fun old =>
        Patching.edit (·.detach old)) w fun _ w' =>
      w'.copies = w.copies ∧ Stripped src dst renamed w.copies p w.tree
        (w.tree.childrenWithRole p .thrown) w'.tree := by
  refine Patching.Succeeds.forM
    (I := fun gone w' => w'.copies = w.copies ∧ Stripped src dst renamed w.copies p w.tree gone w'.tree)
    (fun {gone c rest w'} hsplit hI => ?_) ⟨rfl, S, hsync, hatt, rfl, fun _ => rfl, ?_, ?_⟩
  · obtain ⟨hcopies, hI⟩ := hI
    have hnodup : (w.tree.childrenWithRole p .thrown).Nodup := (S.linked.nodup p).filter _
    rw [hsplit] at hnodup
    have hc : c ∈ w.tree.childrenWithRole p .thrown := by simp [hsplit]
    obtain ⟨t'', ht'', hstripped⟩ := hI.detach hlt (S.linked.mem_childrenWithRole.mp hc).1
      (notMem_of_nodup_append_cons hnodup)
    exact Patching.succeeds_edit ht'' ⟨hcopies, hstripped⟩
  · simp
  · simp

/-! ## Linking all members -/

/-- The thrown types of `q` are being linked under `p`: those of `linked` stand there, behind `rest`, and
copies of the others are loose. All else is as in `t`. -/
structure Renewing (src dst : Tree) (renamed : NodeId → String → Prop) (t : Tree)
    (copies : List (NodeId × NodeId)) (q p : NodeId) (rest linked : List NodeId) (t' : Tree)
    (copies' : List (NodeId × NodeId)) : Prop where
  sound : Sound src dst renamed t' copies'
  inSync : t'.InSync
  attached : t'.isAttached p = true
  size_le : t.size ≤ t'.size
  content : ∀ n < t.size, t'.content n = t.content n
  others : ∀ n < t.size, n ≠ p → t'.children n = t.children n
  members : ∃ cs, t'.children p = rest ++ cs ∧
    (linked.map fun z => copies'.lookup z) = cs.map some
  loose : ∀ {z c}, dst.parent? z = some q → z ∉ linked → copies'.lookup z = some c →
    t'.parent? c = none
  free : copies'.lookup q = none
  root_free : copies'.lookup Tree.root = none
  kept : ∀ {y}, (copies.lookup y).isSome = true → (copies'.lookup y).isSome = true
  same : ∀ {q' y}, copies'.lookup q' = none → dst.parent? y = some q' → q' ≠ q →
    copies'.lookup y = copies.lookup y

namespace Renewing

variable {src dst t t' : Tree} {renamed : NodeId → String → Prop}
  {copies copies' : List (NodeId × NodeId)} {q p z : NodeId} {rest linked : List NodeId}

theorem append (h : Renewing src dst renamed t copies q p rest linked t' copies') (hlt : p < src.size)
    {c : NodeId} (hz : dst.parent? z = some q) (hrole : dst.role z = .thrown) (hnew : z ∉ linked)
    (hc : copies'.lookup z = some c) :
    ∃ t'', t'.appendChild p c = .ok t'' ∧
      Renewing src dst renamed t copies q p rest (linked ++ [z]) t'' copies' := by
  have htop := h.loose hz hnew hc
  obtain ⟨hlow, hhigh⟩ := h.sound.copy_bounds hc
  obtain ⟨t'', ht'', hl⟩ := Tree.insertChild_ok (Nat.lt_of_lt_of_le hlt h.sound.size_le) hhigh htop
    (Nat.le_refl _)
  obtain ⟨cs, hcs, hlinked⟩ := h.members
  have hS := h.sound.linkedIn hlt hlow htop h.attached hl
  refine ⟨t'', ht'',
    { h with
      sound := hS
      inSync := h.inSync.linkedIn (by rw [h.sound.copy_role hc, hrole]; simp) hl
      attached := ?_
      size_le := hl.size.symm ▸ h.size_le
      content := fun n hn => (hl.content n).trans (h.content n hn)
      others := fun n hn hne => by rw [hl.children, if_neg hne, h.others n hn hne]
      members := ⟨cs ++ [c], ?_, ?_⟩
      loose := fun {z' c'} hz' hnew' hc' => ?_ }⟩
  · refine h.sound.linked.isAttached_mono hS.linked (fun {n m} hnm => ?_) h.attached
    rw [hl.parent?, if_neg, hnm]
    rintro rfl
    rw [htop] at hnm
    simp at hnm
  · rw [hl.children, if_pos rfl, List.take_length, List.drop_length, hcs, List.append_assoc]
  · rw [List.map_append, List.map_append, hlinked, List.map_singleton, List.map_singleton, hc]
  · rw [List.mem_append, List.mem_singleton, not_or] at hnew'
    rw [hl.parent?, if_neg, h.loose hz' hnew'.1 hc']
    rintro rfl
    exact hnew'.2 (h.sound.copy_injective hc' hc)

theorem grafted (h : Renewing src dst renamed t copies q p rest linked t' copies') (hlt : p < src.size)
    (D : dst.Linked) (hz : dst.parent? z = some q) (hnew : z ∉ linked) {g : Tree.Graft}
    (G : Tree.Grafted t' dst z g) (Lg : g.tree.Linked) (hlinked : ∀ y ∈ linked, dst.parent? y = some q) :
    Renewing src dst renamed t copies q p rest linked g.tree (g.copies ++ copies') := by
  have hold : ∀ {n}, n < t.size → g.tree.node n = t'.node n := fun hn =>
    G.node_old _ (Nat.lt_of_lt_of_le hn h.size_le)
  have hfree := lookup_append_parent G D hz h.free
  -- the other children of `q` are copied as before
  have hsame : ∀ {y}, dst.parent? y = some q → y ≠ z →
      (g.copies ++ copies').lookup y = copies'.lookup y := fun hy hne =>
    lookup_append_of_free G D hfree hy hne
  obtain ⟨cs, hcs, hmembers⟩ := h.members
  refine
    { sound := h.sound.grafted D G Lg fun q' hq' => Option.some.inj (hz.symm.trans hq') ▸ h.free
      inSync := h.inSync.grafted h.sound.linked G
      attached := ?_
      size_le := Nat.le_trans h.size_le (Nat.le_of_lt G.size_lt)
      content := fun n hn => (congrArg Node.toContent (hold hn) :).trans (h.content n hn)
      others := fun n hn hne => (congrArg Node.children (hold hn) :).trans (h.others n hn hne)
      members := ⟨cs, ?_, ?_⟩
      loose := fun {y c} hy hnew' hc => ?_
      free := hfree
      root_free := lookup_append_root G D hz h.root_free
      kept := fun {y} hy => ?_
      same := fun {q' y} hq' hy hne => ?_ }
  · exact h.sound.linked.isAttached_mono Lg
      (fun hnp => (congrArg Node.parent (G.node_old _ (t'.lt_size_of_parent hnp))).trans hnp) h.attached
  · rw [← hcs]
    exact congrArg Node.children (G.node_old _ (Nat.lt_of_lt_of_le hlt h.sound.size_le))
  · rw [← hmembers]
    refine List.map_congr_left fun y hy => hsame (hlinked y hy) ?_
    rintro rfl
    exact hnew hy
  · by_cases hyz : y = z
    · subst hyz
      rw [List.lookup_append, G.lookup_top, Option.some_or] at hc
      rw [← Option.some.inj hc, G.top]
    · rw [hsame hy hyz] at hc
      rw [← h.loose hy hnew' hc]
      exact congrArg Node.parent (G.node_old _ (h.sound.copy_bounds hc).2)
  · rw [List.lookup_append, Option.isSome_or, h.kept hy, Bool.or_true]
  · have hq'' := hq'
    rw [List.lookup_append, Option.or_eq_none_iff] at hq''
    rw [lookup_append_of_free G D hq' hy, h.same hq''.2 hy hne]
    rintro rfl
    exact hne (Option.some.inj (hy.symm.trans hz))

theorem linkThrown (D : dst.Linked) (hlt : p < src.size) (hz : dst.parent? z = some q)
    (hrole : dst.role z = .thrown) (hnew : z ∉ linked)
    (hlinked : ∀ y ∈ linked, dst.parent? y = some q) {w : Workpiece}
    (h : Renewing src dst renamed t copies q p rest linked w.tree w.copies) :
    Patching.Succeeds (Patching.linkThrown dst p z) w fun _ w' =>
      Renewing src dst renamed t copies q p rest (linked ++ [z]) w'.tree w'.copies := by
  have hrun := Patching.linkThrown_run w dst p z
  cases hc : w.copies.lookup z with
  | some c =>
    have hloose : w.tree.isAttached c = false := by
      by_contra hatt
      have hroot : c ≠ Tree.root := Nat.ne_of_gt
        (Nat.lt_of_lt_of_le (Nat.zero_lt_of_lt hlt) (h.sound.copy_bounds hc).1)
      obtain ⟨p', hp', -⟩ := h.sound.linked.exists_parent_of_isAttached (by simpa using hatt) hroot
      rw [h.loose hz hnew hc] at hp'
      simp at hp'
    obtain ⟨t'', ht'', hR⟩ := h.append hlt hz hrole hnew hc
    refine ⟨(), { w with tree := t'' }, ?_, hR⟩
    simp only [hrun, hc, Option.filter_some, hloose, Bool.not_false, if_true, Patching.edit, ht'']
  | none =>
    have G : Tree.Grafted w.tree dst z (w.tree.graft dst z) := Tree.grafted D
    have Lg : (w.tree.graft dst z).tree.Linked := Tree.linked_graft h.sound.linked z
    simp only [hc, Option.filter_none] at hrun
    generalize w.tree.graft dst z = g at G Lg hrun
    have hcopy : (g.copies ++ w.copies).lookup z = some g.copy := by
      rw [List.lookup_append, G.lookup_top, Option.some_or]
    obtain ⟨t'', ht'', hR⟩ := (h.grafted hlt D hz hnew G Lg hlinked).append hlt hz hrole hnew hcopy
    exact ⟨(), ⟨t'', g.copies ++ w.copies, w.stages⟩, by rw [hrun, Patching.edit, ht''], hR⟩

theorem linkAll (D : dst.Linked) (hlt : p < src.size) {w : Workpiece}
    (h : Renewing src dst renamed t copies q p rest [] w.tree w.copies) :
    Patching.Succeeds ((dst.childrenWithRole q .thrown).forM (Patching.linkThrown dst p)) w
      fun _ w' =>
        Renewing src dst renamed t copies q p rest (dst.childrenWithRole q .thrown) w'.tree
          w'.copies := by
  refine Patching.Succeeds.forM
    (I := fun linked w' => Renewing src dst renamed t copies q p rest linked w'.tree w'.copies)
    (fun {linked z after w'} hsplit hI => ?_) h
  have hnodup : (dst.childrenWithRole q .thrown).Nodup := (D.nodup q).filter _
  have hmember : ∀ y ∈ linked ++ z :: after, dst.parent? y = some q ∧ dst.role y = .thrown :=
    fun y hy => D.mem_childrenWithRole.mp (hsplit ▸ hy)
  rw [hsplit] at hnodup
  exact hI.linkThrown D hlt (hmember z (by simp)).1 (hmember z (by simp)).2
    (notMem_of_nodup_append_cons hnodup) fun y hy => (hmember y (by simp [hy])).1

end Renewing

/-! ## The whole renewal -/

theorem Arranged.renew {src dst t t' : Tree} {image image' : NodeId → Option NodeId} {aligned : Prop}
    {q p : NodeId} {cs : List NodeId} (h : Arranged src dst t image aligned q p)
    (hall : ∀ y ∈ dst.children q, dst.role y = .thrown)
    (hrole : ∀ y ∈ dst.children q, ∀ c, image y = some c → t.role c = .thrown)
    (hextra : ∀ c ∈ src.children p, src.isIgnored c = true → t.role c = .token)
    (hchildren : t'.children p = ((t.children p).filter fun c => !(t.role c == .thrown)) ++ cs)
    (himage : (dst.children q).map image' = cs.map some)
    (hold : ∀ c ∈ t.children p, t'.role c = t.role c) (hnew : ∀ c ∈ cs, t'.role c = .thrown) :
    Arranged src dst t' image' aligned q p := by
  have hcs : (dst.children q).filterMap image' = cs := filterMap_of_map_eq himage
  have htoken : ∀ c ∈ (t.children p).filter fun c => !(t.role c == .thrown),
      c ∈ t.children p ∧ t.role c = .token := fun c hc => by
    obtain ⟨hc, hcrole⟩ := List.mem_filter.mp hc
    rcases h.mem.mp hc with ⟨y, hy, hyc⟩ | ⟨hsrc, hignored⟩
    · simp [hrole y hy c hyc] at hcrole
    · exact ⟨hc, hextra c hsrc hignored⟩
  constructor
  · intro c
    have hmem : c ∈ cs ↔ ∃ y ∈ dst.children q, image' y = some c := by
      rw [← hcs, List.mem_filterMap]
    rw [hchildren, List.mem_append, hmem, or_comm]
    refine or_congr_right ⟨fun hc => ?_, fun ⟨hsrc, hignored⟩ => ?_⟩
    · obtain ⟨hc, htok⟩ := htoken c hc
      rcases h.mem.mp hc with ⟨y, hy, hyc⟩ | hsrc
      · simp [hrole y hy c hyc] at htok
      · exact hsrc
    · refine List.mem_filter.mpr ⟨h.mem.mpr (Or.inr ⟨hsrc, hignored⟩), ?_⟩
      simp [hextra c hsrc hignored]
  · intro S hS
    have hrest : ((t.children p).filter fun c => !(t.role c == .thrown)).filter (t'.role · == S) = [] := by
      refine List.filter_eq_nil_iff.mpr fun c hc hcrole => ?_
      obtain ⟨hc, htok⟩ := htoken c hc
      rw [hold c hc, htok, beq_iff_eq] at hcrole
      simp [← hcrole, Role.isCollection] at hS
    rw [Tree.childrenWithRole, Tree.childrenWithRole, hchildren, List.filter_append, hrest,
      List.nil_append]
    by_cases hthrown : S = .thrown
    · subst hthrown
      rw [List.filter_eq_self.mpr fun c hc => by simp [hnew c hc],
        List.filter_eq_self.mpr fun y hy => by simp [hall y hy], hcs]
    · rw [List.filter_eq_nil_iff.mpr fun c hc => by simp [hnew c hc, Ne.symm hthrown],
        List.filter_eq_nil_iff.mpr fun y hy => by simp [hall y hy, Ne.symm hthrown]]
      rfl
  · intro haligned
    have hnil : ((t.children p).filter fun c => !(t.role c == .thrown)) = [] := by
      refine List.filter_eq_nil_iff.mpr fun c hc => ?_
      rw [h.exact haligned] at hc
      obtain ⟨y, hy, hyc⟩ := List.mem_filterMap.mp hc
      simp [hrole y hy c hyc]
    rw [hchildren, hnil, hcs, List.nil_append]

theorem Patching.renewThrown_run (w : Workpiece) {dst : Tree} {q n : NodeId}
    (hn : dst.parent? n = some q) (p : NodeId) :
    Patching.renewThrown dst p n w =
      ((do
        (w.tree.childrenWithRole p .thrown).forM fun old => Patching.edit (·.detach old)
        (dst.childrenWithRole q .thrown).forM (Patching.linkThrown dst p)) : Patching Unit) w := by
  rw [Patching.renewThrown, hn]
  rfl

section

variable {r : Revision} {stay : NodeId → Option NodeId} {deletes : List NodeId}
  {updates copies : List (NodeId × NodeId)} {placed : List (NodeId × Option NodeId)}
  {renamed : NodeId → String → Prop} {done : List NodeId} {t : Tree} {x q p : NodeId}
  {before after : List NodeId} {g : Tree.Graft}
  (R : Reconciled r.src r.dst stay deletes updates placed) (C : Corresponds r stay)
  (As : r.src.Regular) (Ad : r.dst.Regular)
  (h : Underway r stay deletes updates placed renamed done t copies)
  (due : Due r stay updates placed copies x q p before after)
  (hrole : r.dst.role x = .thrown)

include R C As Ad h due hrole

omit h R C As in
theorem Due.all_thrown {y : NodeId} (hy : y ∈ r.dst.children q) : r.dst.role y = .thrown :=
  Ad.thrown due.parent (Ad.linked.mem_children.mp hy) hrole

theorem Due.renewed {t' : Tree} {copies' : List (NodeId × NodeId)}
    (hR : Renewing r.src r.dst renamed t copies q p
      ((t.children p).filter fun c => !(t.role c == .thrown)) (r.dst.childrenWithRole q .thrown)
      t' copies') :
    Underway r stay deletes updates placed renamed (done ++ [x]) t' copies' := by
  have hfree_of : ∀ {q'}, copies'.lookup q' = none → copies.lookup q' = none := fun {q'} hnone => by
    by_contra hcopied
    have hsome := hR.kept (Option.isSome_iff_ne_none.mpr hcopied)
    rw [hnone] at hsome
    simp at hsome
  have hall : r.dst.childrenWithRole q .thrown = r.dst.children q :=
    List.filter_eq_self.mpr fun y hy => by simp [due.all_thrown Ad hrole hy]
  obtain ⟨cs, hcs, hlinked⟩ := hR.members
  rw [hall] at hlinked
  have hcopied : ∀ {y}, y ∈ r.dst.children q → (copies'.lookup y).isSome = true := fun {y} hy => by
    have hmem : copies'.lookup y ∈ cs.map some := hlinked ▸ List.mem_map.mpr ⟨y, hy, rfl⟩
    obtain ⟨c, -, hc⟩ := List.mem_map.mp hmem
    rw [← hc]
    rfl
  refine
    { sound := hR.sound
      inSync := hR.inSync
      root_free := hR.root_free
      unkept := fun {c c'} hkept hc hmem => ?_
      replaced := fun hmem => hR.kept (h.replaced hmem)
      copied := fun {y} hy => ?_
      done_subset := List.append_subset.mpr ⟨h.done_subset, by simpa using due.mem⟩
      fresh := fun {q' p' y} hqp hfree' hy hsome => ?_
      renewed := fun {q' p' z y} hqp hfree' hy hyq hyrole hz => ?_
      arranged := fun {q' p'} hqp hfree' => ?_ }
  · have hcp : c ≠ p := by
      rintro rfl
      exact hkept q due.stay
    rw [hR.others c (Nat.lt_of_lt_of_le hc h.sound.size_le) hcp] at hmem
    exact h.unkept hkept hc hmem
  · rcases List.mem_append.mp hy with hy | hy
    · exact hR.kept (h.copied hy)
    · rw [List.mem_singleton.mp hy]
      exact hcopied (Ad.linked.mem_children.mpr due.parent)
  · by_cases hq : q' = q
    · subst hq
      exact Or.inr (Or.inr ⟨due.all_thrown Ad hrole (Ad.linked.mem_children.mpr hy), x, by simp,
        due.parent, hrole⟩)
    · rw [hR.same hfree' hy hq] at hsome
      exact h.fresh_append hqp (hfree_of hfree') hy hsome [x]
  · by_cases hq : q' = q
    · subst hq
      exact hcopied (Ad.linked.mem_children.mpr hz)
    · rcases List.mem_append.mp hy with hy | hy
      · exact hR.kept (h.renewed hqp (hfree_of hfree') hy hyq hyrole hz)
      · rw [List.mem_singleton.mp hy, due.parent] at hyq
        exact absurd (Option.some.inj hyq).symm hq
  · by_cases hq : q' = q
    · subst hq
      obtain rfl := Option.some.inj (due.stay.symm.trans hqp)
      have hA := h.arranged hqp (hfree_of hfree')
      refine hA.renew (fun y hy => due.all_thrown Ad hrole hy) (fun y hy c hc => ?_)
        (fun c hc hignored => ?_) hcs ?_ (fun c hc => Tree.role_of_content (hR.content c ?_))
        fun c hc => ?_
      · rw [h.role_of_image R C As Ad hqp (Ad.linked.mem_children.mp hy) hc]
        exact due.all_thrown Ad hrole hy
      · have hp := As.linked.mem_children.mp hc
        rw [Tree.role_of_content (h.sound.content c (r.src.lt_size_of_parent hp)),
          As.role_of_ignored (R.ancestors_kept As.linked Ad.linked hqp).1 hp hignored]
      · rw [← hlinked]
        refine List.map_congr_left fun y hy => ?_
        obtain ⟨c, hc⟩ := Option.isSome_iff_exists.mp (hcopied hy)
        rw [Revision.image, hc, Option.some_or]
      · exact t.lt_size_of_parent (h.sound.linked.mem_children.mp hc)
      · have hmem : some c ∈ (r.dst.children q').map fun z => copies'.lookup z :=
          hlinked ▸ List.mem_map.mpr ⟨c, hc, rfl⟩
        obtain ⟨y, hy, hyc⟩ := List.mem_map.mp hmem
        rw [hR.sound.copy_role hyc, due.all_thrown Ad hrole hy]
    · have hp : p' ≠ p := by
        rintro rfl
        exact hq (R.injective hqp due.stay)
      refine (h.arranged hqp (hfree_of hfree')).congr (hR.others p' (h.lt_size R As Ad hqp) hp)
        (fun c hc => Tree.role_of_content (hR.content c ?_)) fun y hy => ?_
      · exact t.lt_size_of_parent (h.sound.linked.mem_children.mp hc)
      · rw [Revision.image, hR.same hfree' (Ad.linked.mem_children.mp hy) hq, Revision.image]

omit C in
theorem Due.renewing (G : Tree.Grafted t r.dst x g) (Lg : g.tree.Linked) {t' : Tree}
    (hS : Stripped r.src r.dst renamed (g.copies ++ copies) p g.tree (g.tree.childrenWithRole p .thrown)
      t') :
    Renewing r.src r.dst renamed t copies q p ((t.children p).filter fun c => !(t.role c == .thrown)) []
      t' (g.copies ++ copies) := by
  have hfree := due.free Ad h
  have hfree' := lookup_append_parent G Ad.linked due.parent hfree
  have hnode : ∀ {n}, n < t.size → g.tree.node n = t.node n := fun hn => G.node_old _ hn
  have hlt := h.lt_size R As Ad due.stay
  have hchildren : g.tree.children p = t.children p := congrArg Node.children (hnode hlt)
  have hroles : ∀ {c}, c ∈ t.children p → g.tree.role c = t.role c := fun hc =>
    congrArg (·.toContent.role) (hnode (t.lt_size_of_parent (h.sound.linked.mem_children.mp hc)))
  refine
    { sound := hS.sound
      inSync := hS.inSync
      attached := hS.attached
      size_le := ?_
      content := fun n hn => (hS.content n).trans (congrArg Node.toContent (hnode hn))
      others := fun n hn hne => ?_
      members := ⟨[], ?_, rfl⟩
      loose := fun {z c} hz _ hc => ?_
      free := hfree'
      root_free := lookup_append_root G Ad.linked due.parent h.root_free
      kept := fun {y} hy => by rw [List.lookup_append, Option.isSome_or, hy, Bool.or_true]
      same := fun {q' y} hq' hy hne => lookup_append_of_free G Ad.linked hq' hy ?_ }
  · rw [hS.size]
    exact Nat.le_of_lt G.size_lt
  · have hsame : g.tree.children n = t.children n := congrArg Node.children (hnode hn)
    rw [hS.children, hsame]
    refine List.filter_eq_self.mpr fun c hc => decide_eq_true fun hmem => ?_
    have hcp := (Lg.mem_childrenWithRole.mp hmem).1
    exact hne (Option.some.inj ((Lg.mem_children.mp (hsame ▸ hc)).symm.trans hcp))
  · rw [hS.children, hchildren, List.append_nil]
    refine List.filter_congr fun c hc => ?_
    rw [Bool.eq_iff_iff]
    simp [Tree.childrenWithRole, hchildren, hc, hroles hc]
  · by_cases hzx : z = x
    · subst hzx
      rw [List.lookup_append, G.lookup_top, Option.some_or] at hc
      rw [hS.parent?, ← Option.some.inj hc, G.top, ite_self]
    · -- the copy of another one was under the parent
      rw [lookup_append_of_free G Ad.linked hfree' hz hzx] at hc
      have hmem : c ∈ t.children p := (h.arranged due.stay hfree).mem.mpr <| Or.inl
        ⟨z, Ad.linked.mem_children.mpr hz, by rw [Revision.image, hc, Option.some_or]⟩
      have hthrown : t.role c = .thrown := by
        rw [h.sound.copy_role hc]
        exact due.all_thrown Ad hrole (Ad.linked.mem_children.mpr hz)
      rw [hS.parent?, if_pos]
      refine Lg.mem_childrenWithRole.mpr ⟨?_, (hroles hmem).trans hthrown⟩
      exact Lg.mem_children.mp (hchildren ▸ hmem)
  · rintro rfl
    exact hne (Option.some.inj (hy.symm.trans due.parent))

/-- **Thrown types are renewed as a whole.** -/
theorem Due.link_thrown {pl : Placement} {source : Option NodeId}
    (hpl : PlacementFor r stay (Reconciled.Brought updates placed) x source pl)
    (G : Tree.Grafted t r.dst x g) (Lg : g.tree.Linked) (stages : List Stage) :
    Patching.Succeeds (Patching.link r.dst pl p g.copy) ⟨g.tree, g.copies ++ copies, stages⟩
      fun _ w' => Underway r stay deletes updates placed renamed (done ++ [x]) w'.tree w'.copies := by
  have hlt := Cleared.lt_size_of_stay R As.linked Ad.linked due.stay
  have S := h.sound_grafted Ad due G Lg
  have hattached := h.isAttached_grafted R Ad due G Lg
  have hsync := h.inSync.grafted h.sound.linked G
  have hrun : Patching.link r.dst pl p g.copy ⟨g.tree, g.copies ++ copies, stages⟩ =
      Patching.renewThrown r.dst p x ⟨g.tree, g.copies ++ copies, stages⟩ := by
    have hlink := Patching.link.eq_1 r.dst pl p g.copy
    rw [hpl.role, hrole] at hlink
    rw [hlink, ← hpl.node]
    rfl
  refine Patching.Succeeds.of_eq (Patching.Succeeds.bind ?_)
    (hrun.trans (Patching.renewThrown_run _ due.parent p))
  refine (succeeds_strip (w := ⟨g.tree, g.copies ++ copies, stages⟩) S hsync hattached hlt).mono ?_
  rintro - w' ⟨hcopies : w'.copies = g.copies ++ copies, hS⟩
  have hR := due.renewing R As Ad h hrole G Lg hS
  rw [← hcopies] at hR
  exact (hR.linkAll Ad.linked hlt).mono fun _ _ hR' => due.renewed R C As Ad h hrole hR'

end

end TreePatch
