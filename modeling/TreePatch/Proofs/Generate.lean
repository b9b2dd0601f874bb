import TreePatch.Patch.Generate
import TreePatch.Patch.Plan
import TreePatch.Proofs.Correspondence
import TreePatch.Proofs.Reconcile

/-!
# Patches and plans

For reconciled trees every operation becomes a patch, and the patches resolve to a plan that names the
nodes of the operations again: what is deleted, what is replaced by what, and for each placed node the
counterpart of its parent and the elder sibling that it goes behind.
-/

namespace TreePatch

namespace Reconciled

variable {src dst : Tree} {stay : NodeId → Option NodeId} {deletes : List NodeId}
  {updates : List (NodeId × NodeId)} {placed : List (NodeId × Option NodeId)}

theorem ancestors_kept (h : Reconciled src dst stay deletes updates placed) (Ls : src.Linked)
    (Ld : dst.Linked) {q p : NodeId} (hqp : stay q = some p) :
    src.isAttached p = true ∧ dst.isAttached q = true ∧
      (∀ a ∈ src.ancestors p, ∃ b, stay b = some a) ∧ ∀ b ∈ dst.ancestors q, ∃ a, stay b = some a := by
  induction q using Ld.forest.induction_up generalizing p with
  | step q ih =>
    by_cases hroot : q = Tree.root
    · subst hroot
      obtain rfl := Option.some.inj (h.root.symm.trans hqp)
      rw [Ls.ancestors_root, Ld.ancestors_root]
      exact ⟨Tree.Linked.isAttached_root, Tree.Linked.isAttached_root, by simp, by simp⟩
    · obtain ⟨q', p', hq, hp, hstay⟩ := h.parent hqp hroot
      obtain ⟨hsatt, hdatt, hsrc, hdst⟩ := ih q' hq hstay
      refine ⟨(Ls.isAttached_of_parent hp).mpr hsatt, (Ld.isAttached_of_parent hq).mpr hdatt, ?_, ?_⟩
      · intro a ha
        rw [Ls.ancestors_of_some hp] at ha
        rcases List.mem_cons.mp ha with rfl | ha
        · exact ⟨q', hstay⟩
        · exact hsrc a ha
      · intro b hb
        rw [Ld.ancestors_of_some hq] at hb
        rcases List.mem_cons.mp hb with rfl | hb
        · exact ⟨p', hstay⟩
        · exact hdst b hb

theorem updates_apart (h : Reconciled src dst stay deletes updates placed) (Ls : src.Linked)
    (Ld : dst.Linked) {c x c' x' : NodeId} (hc : (c, x) ∈ updates) (hc' : (c', x') ∈ updates) :
    c' ∉ src.ancestors c := by
  intro hmem
  obtain ⟨q, p, hqp, hp, -⟩ := h.update hc
  rw [Ls.ancestors_of_some hp] at hmem
  have hkept : ∃ b, stay b = some c' := by
    rcases List.mem_cons.mp hmem with rfl | hmem
    · exact ⟨q, hqp⟩
    · exact (h.ancestors_kept Ls Ld hqp).2.2.1 c' hmem
  obtain ⟨b, hb⟩ := hkept
  exact (h.update_fresh hc').2.1 b hb

/-- What is brought in: the replacements and the placed nodes. -/
def Brought (updates : List (NodeId × NodeId)) (placed : List (NodeId × Option NodeId))
    (x : NodeId) : Prop :=
  x ∈ updates.map (·.2) ∨ x ∈ placed.map (·.1)

theorem of_brought (h : Reconciled src dst stay deletes updates placed) {x : NodeId}
    (hx : Brought updates placed x) : stay x = none ∧ dst.isIgnored x = false ∧
      ∃ q p, stay q = some p ∧ dst.parent? x = some q := by
  rcases hx with hx | hx
  · obtain ⟨⟨c, x⟩, hmem, rfl⟩ := List.mem_map.mp hx
    obtain ⟨q, p, hqp, -, hq, -, htracked, -⟩ := h.update hmem
    exact ⟨(h.update_fresh hmem).1, htracked, q, p, hqp, hq⟩
  · obtain ⟨⟨x, source⟩, hmem, rfl⟩ := List.mem_map.mp hx
    exact h.place hmem

theorem kept_or_brought (h : Reconciled src dst stay deletes updates placed) {q p x : NodeId}
    (hqp : stay q = some p) (hx : dst.parent? x = some q) (htracked : dst.isIgnored x = false) :
    (∃ c, stay x = some c) ∨ Brought updates placed x := by
  rcases h.dst_child hqp hx htracked with hkept | ⟨c, hc⟩ | ⟨source, hs⟩
  · exact Or.inl hkept
  · exact Or.inr (Or.inl (List.mem_map.mpr ⟨(c, x), hc, rfl⟩))
  · exact Or.inr (Or.inr (List.mem_map.mpr ⟨(x, source), hs, rfl⟩))

end Reconciled

/-! ## Counterparts -/

/-- The correspondence of a revision agrees with the kept nodes, and pairs ignored children of kept nodes
with ignored children of their counterparts. -/
structure Corresponds (r : Revision) (stay : NodeId → Option NodeId) : Prop where
  kept : ∀ {q p}, stay q = some p → r.counterpart? q = some p
  ignored : ∀ {q p z e}, stay q = some p → r.dst.parent? z = some q → r.dst.isIgnored z = true →
    r.counterpart? z = some e → r.src.parent? e = some p ∧ r.src.isIgnored e = true
  injective : ∀ {z z' e}, r.counterpart? z = some e → r.counterpart? z' = some e → z = z'

theorem Correspondence.Resolved.corresponds {src dst : Tree} {m : Matching} {c : Correspondence}
    (hs : src.Linked) (hd : dst.Linked) (hname : src.name ≠ dst.name)
    (h : Correspondence.Resolved src dst m c) :
    Corresponds { src, dst, nodes := c } (Pairing.stayOf src dst m) := by
  have hget : ∀ {z e}, Revision.counterpart? { src, dst, nodes := c } z = some e ↔
      (src.ref e, dst.ref z) ∈ c.pairs := h.get?_eq_some_iff hs hd hname
  have hkept : ∀ {q p}, Pairing.stayOf src dst m q = some p → (src.ref p, dst.ref q) ∈ c.pairs := by
    intro q p hqp
    obtain ⟨d, s, hq, hp, -, hsd⟩ := (Pairing.stayOf_eq_some_iff hs hd).mp hqp
    exact h.mem_of_stands hs hd hsd hp hq
  refine ⟨fun hqp => hget.mpr (hkept hqp), fun hqp hz hignored he => ?_, fun hz hz' => ?_⟩
  · exact h.ignored_of_mem hs hd hz hignored (hkept hqp) (hget.mp he)
  · exact congrArg (·.2.node) (h.oneToOne.eq_of_fst (hget.mp hz) (hget.mp hz') rfl)

/-- What stands for a destination node in the source tree as long as it is not copied: the counterpart
of a kept node, or of an ignored child of a kept node. -/
def Revision.held (r : Revision) (stay : NodeId → Option NodeId) (z : NodeId) : Option NodeId :=
  (stay z).or (if r.dst.isIgnored z && ((r.dst.parent? z).bind stay).isSome then r.counterpart? z
    else none)

section

variable {r : Revision} {stay : NodeId → Option NodeId} {deletes : List NodeId}
  {updates : List (NodeId × NodeId)} {placed : List (NodeId × Option NodeId)}

theorem Revision.held_of_stay {q p : NodeId} (h : stay q = some p) : r.held stay q = some p := by
  rw [held, h, Option.some_or]

theorem Corresponds.of_held (C : Corresponds r stay) {z e : NodeId} (h : r.held stay z = some e) :
    stay z = some e ∨ (r.dst.isIgnored z = true ∧ r.src.isIgnored e = true ∧
      ∃ q p, stay q = some p ∧ r.dst.parent? z = some q ∧ r.src.parent? e = some p) := by
  rw [Revision.held] at h
  cases hz : stay z with
  | some p =>
    rw [hz, Option.some_or] at h
    exact Or.inl h
  | none =>
    rw [hz, Option.none_or] at h
    split at h
    · next hcond =>
      rw [Bool.and_eq_true, Option.isSome_iff_exists] at hcond
      obtain ⟨hignored, p, hp⟩ := hcond
      obtain ⟨q, hq, hqp⟩ := Option.bind_eq_some_iff.mp hp
      obtain ⟨he, hie⟩ := C.ignored hqp hq hignored h
      exact Or.inr ⟨hignored, hie, q, p, hqp, hq, he⟩
    · simp at h

theorem Corresponds.counterpart_of_held (C : Corresponds r stay) {z e : NodeId}
    (h : r.held stay z = some e) : r.counterpart? z = some e := by
  rw [Revision.held] at h
  cases hz : stay z with
  | some p =>
    rw [hz, Option.some_or] at h
    exact C.kept (hz.trans h)
  | none =>
    rw [hz, Option.none_or] at h
    split at h
    · exact h
    · simp at h

theorem Corresponds.held_injective (C : Corresponds r stay) {z z' e : NodeId}
    (h : r.held stay z = some e) (h' : r.held stay z' = some e) : z = z' :=
  C.injective (C.counterpart_of_held h) (C.counterpart_of_held h')

theorem Reconciled.counterpart_eq_held (h : Reconciled r.src r.dst stay deletes updates placed)
    (C : Corresponds r stay) {q p z : NodeId} (hqp : stay q = some p)
    (hz : r.dst.parent? z = some q) (hb : ¬ Reconciled.Brought updates placed z) :
    r.counterpart? z = r.held stay z := by
  cases hignored : r.dst.isIgnored z with
  | false =>
    obtain ⟨c, hc⟩ := (h.kept_or_brought hqp hz hignored).resolve_right hb
    rw [C.kept hc, Revision.held_of_stay hc]
  | true =>
    have hnone : stay z = none := by
      cases hc : stay z with
      | none => rfl
      | some c =>
        rw [(h.tracked hc).1 q hz] at hignored
        simp at hignored
    rw [Revision.held, hnone, Option.none_or, hignored, hz, Option.bind_some, hqp]
    rfl

theorem Reconciled.held_of_brought (h : Reconciled r.src r.dst stay deletes updates placed)
    {z : NodeId} (hb : Reconciled.Brought updates placed z) : r.held stay z = none := by
  obtain ⟨hnone, htracked, -⟩ := h.of_brought hb
  rw [Revision.held, hnone, Option.none_or, htracked]
  rfl

theorem Reconciled.isAttached_of_held (h : Reconciled r.src r.dst stay deletes updates placed)
    (C : Corresponds r stay) (Ls : r.src.Linked) (Ld : r.dst.Linked) {z e : NodeId}
    (he : r.held stay z = some e) : r.src.isAttached e = true := by
  rcases C.of_held he with hkept | ⟨-, -, q, p, hqp, -, hp⟩
  · exact (h.ancestors_kept Ls Ld hkept).1
  · exact (Ls.isAttached_of_parent hp).mpr (h.ancestors_kept Ls Ld hqp).1

end

/-! ## What patches have to find -/

/-- Paths lead back to the nodes that patches name: those that leave their places, those under which
something is placed and, there, the nearest elder sibling that is held, unless one that is brought in is
nearer. What is placed finds its slot or modifier list free. -/
structure Unambiguous (r : Revision) (stay : NodeId → Option NodeId) (deletes : List NodeId)
    (updates : List (NodeId × NodeId)) (placed : List (NodeId × Option NodeId)) : Prop where
  leaving : ∀ {c}, (c ∈ goneNodes deletes placed ∨ ∃ x, (c, x) ∈ updates) → r.src.Leads c
  host : ∀ {x q p}, x ∈ placed.map (·.1) → r.dst.parent? x = some q → stay q = some p → r.src.Leads p
  anchor : ∀ {x q nearer z further e}, x ∈ placed.map (·.1) → r.dst.parent? x = some q →
    ((r.dst.children q).takeWhile (· != x)).reverse = nearer ++ z :: further →
      (∀ y ∈ nearer, ¬ Reconciled.Brought updates placed y ∧ r.held stay y = none) →
        ¬ Reconciled.Brought updates placed z → r.held stay z = some e → r.src.Leads e
  slot : ∀ {x y q}, x ∈ placed.map (·.1) → r.dst.parent? x = some q → r.dst.parent? y = some q →
    r.dst.role y = r.dst.role x → (r.dst.role x).isSingleSlot = true → y = x
  modifiers : ∀ {x y q}, x ∈ placed.map (·.1) → r.dst.parent? x = some q → r.dst.parent? y = some q →
    r.dst.role x = .modifier → r.dst.role y = .modifier → r.dst.kind x = "modifiers" →
      r.dst.kind y = "modifiers" → y = x

theorem Reconciled.unambiguous {r : Revision} {stay : NodeId → Option NodeId} {deletes : List NodeId}
    {updates : List (NodeId × NodeId)} {placed : List (NodeId × Option NodeId)}
    (h : Reconciled r.src r.dst stay deletes updates placed) (C : Corresponds r stay)
    (As : r.src.Addressable) (Ad : r.dst.Addressable) :
    Unambiguous r stay deletes updates placed where
  leaving := by
    rintro c (hc | ⟨x, hc⟩)
    · exact As.leads (h.gone hc).2.1
    · obtain ⟨q, p, hqp, hp, -⟩ := h.update hc
      exact As.leads ((As.linked.isAttached_of_parent hp).mpr
        (h.ancestors_kept As.linked Ad.linked hqp).1)
  host _ _ hqp := As.leads (h.ancestors_kept As.linked Ad.linked hqp).1
  anchor _ _ _ _ _ he := As.leads (h.isAttached_of_held C As.linked Ad.linked he)
  slot _ hx hy hrole hsingle := Ad.single hy hx hrole (hrole ▸ hsingle)
  modifiers _ hx hy hrole hrole' hkind hkind' := Ad.modifiers hy hx hrole' hrole hkind' hkind

/-! ## Anchors -/

/-- An anchor for a node with the elder siblings `before`, nearest first: it names the first of them
that is brought in or held, and the node that holds it. -/
def AnchorFor (held : NodeId → Option NodeId) (brought : NodeId → Prop) (before : List NodeId)
    (anchor : Anchor) (at? : Option NodeId) : Prop :=
  (anchor = .start ∧ ∀ z ∈ before, ¬ brought z ∧ held z = none) ∨
    ∃ nearer z further, before = nearer ++ z :: further ∧
      (∀ y ∈ nearer, ¬ brought y ∧ held y = none) ∧
        ((brought z ∧ anchor = .afterInserted z) ∨
          (¬ brought z ∧ ∃ path e, anchor = .after path ∧ at? = some e ∧ held z = some e))

theorem AnchorFor.cons {held : NodeId → Option NodeId} {brought : NodeId → Prop}
    {before : List NodeId} {anchor : Anchor} {at? : Option NodeId} {y : NodeId} (hb : ¬ brought y)
    (hy : held y = none) (h : AnchorFor held brought before anchor at?) :
    AnchorFor held brought (y :: before) anchor at? := by
  rcases h with ⟨hstart, hall⟩ | ⟨nearer, z, further, rfl, hnearer, hz⟩
  · refine Or.inl ⟨hstart, fun z hz => ?_⟩
    rcases List.mem_cons.mp hz with rfl | hz
    · exact ⟨hb, hy⟩
    · exact hall z hz
  · refine Or.inr ⟨y :: nearer, z, further, rfl, fun z hz => ?_, hz⟩
    rcases List.mem_cons.mp hz with rfl | hz
    · exact ⟨hb, hy⟩
    · exact hnearer z hz

section

variable {r : Revision} {stay : NodeId → Option NodeId} {deletes : List NodeId}
  {updates : List (NodeId × NodeId)} {placed : List (NodeId × Option NodeId)}

theorem Reconciled.exists_anchor (h : Reconciled r.src r.dst stay deletes updates placed)
    (C : Corresponds r stay) {brought : List NodeId}
    (hbrought : ∀ z, z ∈ brought ↔ Reconciled.Brought updates placed z) {q p : NodeId}
    (hqp : stay q = some p) : ∀ before : List NodeId, (∀ z ∈ before, r.dst.parent? z = some q) →
      (∀ {nearer z further e}, before = nearer ++ z :: further →
        (∀ y ∈ nearer, ¬ Reconciled.Brought updates placed y ∧ r.held stay y = none) →
          ¬ Reconciled.Brought updates placed z → r.held stay z = some e → r.src.Leads e) →
      ∃ anchor at?, r.anchorAmong brought before = .ok anchor ∧
        Plan.locateAnchor r.src anchor = .ok at? ∧
          AnchorFor (r.held stay) (Reconciled.Brought updates placed) before anchor at?
  | [], _, _ => ⟨.start, none, rfl, rfl, Or.inl ⟨rfl, by simp⟩⟩
  | y :: before, hbefore, hleads => by
    have hy := hbefore y List.mem_cons_self
    rw [Revision.anchorAmong]
    by_cases hb : Reconciled.Brought updates placed y
    · refine ⟨.afterInserted y, none, if_pos ?_, rfl, Or.inr ⟨[], y, before, rfl, by simp, ?_⟩⟩
      · rw [List.contains_iff_mem]
        exact (hbrought y).mpr hb
      · exact Or.inl ⟨hb, rfl⟩
    · rw [if_neg (by rw [List.contains_iff_mem, hbrought]; exact hb),
        h.counterpart_eq_held C hqp hy hb]
      cases he : r.held stay y with
      | some e =>
        obtain ⟨path, hpath, hresolve⟩ := @hleads [] y before e rfl (by simp) hb he
        refine ⟨.after path, some e, ?_, ?_, Or.inr ⟨[], y, before, rfl, by simp, ?_⟩⟩
        · simp only [Revision.pathOf, hpath]
          rfl
        · simp only [Plan.locateAnchor, Plan.locate, hresolve]
          rfl
        · exact Or.inr ⟨hb, path, e, rfl, rfl, he⟩
      | none =>
        obtain ⟨anchor, at?, hanchor, hat, hfor⟩ := h.exists_anchor C hbrought hqp before
          (fun z hz => hbefore z (List.mem_cons_of_mem _ hz)) fun {nearer z further e} hsplit hnearer =>
            @hleads (y :: nearer) z further e (congrArg (y :: ·) hsplit) fun z hz => by
              rcases List.mem_cons.mp hz with rfl | hz
              · exact ⟨hb, he⟩
              · exact hnearer z hz
        exact ⟨anchor, at?, hanchor, hat, hfor.cons hb he⟩

end

/-! ## Patches -/

/-- What a placement says about the destination node `x`, which is moved from `source` if that is given:
its place in its collection, the counterpart of its parent, and an anchor among its elder siblings. -/
structure PlacementFor (r : Revision) (stay : NodeId → Option NodeId) (brought : NodeId → Prop)
    (x : NodeId) (source : Option NodeId) (pl : Placement) : Prop where
  node : pl.insertion.node = x
  source : pl.source = source
  role : pl.insertion.role = r.dst.role x
  index : r.dst.indexInCollection x = .ok pl.insertion.index
  parent : ∃ q p path, r.dst.parent? x = some q ∧ stay q = some p ∧ pl.parent = some p ∧
    pl.insertion.parent = .existing path
  anchor : ∀ {q}, r.dst.parent? x = some q → AnchorFor (r.held stay) brought
    ((r.dst.children q).takeWhile (· != x)).reverse pl.insertion.anchor pl.anchor

/-- The form of the operations of an edit script. -/
inductive Operation.Between (src dst : Tree) : Operation → Prop
  | delete (c : NodeId) : Between src dst ⟨.delete, src.ref c, none⟩
  | update (c x : NodeId) : Between src dst ⟨.update, src.ref c, some (dst.ref x)⟩
  | insert (x : NodeId) : Between src dst ⟨.insert, dst.ref x, none⟩
  | move (c x : NodeId) : Between src dst ⟨.move, src.ref c, some (dst.ref x)⟩

theorem Pairing.between_of_mem_editScript {src dst : Tree} {m : Matching} (hs : src.Linked)
    (hd : dst.Linked) (hm : (Pairing.ofTrees src dst).Matches m) {op : Operation}
    (hop : op ∈ (Pairing.ofTrees src dst).editScript m) : op.Between src dst := by
  rcases mem_editScript_iff.mp hop with ⟨s, -, hemit⟩ | ⟨d, hlt, hemit⟩
  · obtain ⟨o, -, rfl⟩ := emitted_src hs hemit
    exact .delete o
  · obtain ⟨n, -, ⟨-, rfl⟩ | ⟨_, o, -, -, ⟨-, rfl⟩ | ⟨-, -, rfl⟩⟩⟩ := emitted_dst hs hd hm hlt hemit
    · exact .insert n
    · exact .move o n
    · exact .update o n

/-- A patch carries out an operation: its paths lead to the nodes that the operation names. -/
inductive Revision.Realizes (r : Revision) (stay : NodeId → Option NodeId) (brought : NodeId → Prop) :
    Operation → Patch → Prop
  | delete {c path} (hc : r.src.resolve path = some c) :
    Realizes r stay brought ⟨.delete, r.src.ref c, none⟩ (.delete path)
  | update {c x path} (hc : r.src.resolve path = some c) :
    Realizes r stay brought ⟨.update, r.src.ref c, some (r.dst.ref x)⟩ (.update path x)
  | insert {x i pl} (hi : Plan.locateInsertion r.src none i = .ok pl)
    (hpl : PlacementFor r stay brought x none pl) :
    Realizes r stay brought ⟨.insert, r.dst.ref x, none⟩ (.insert i)
  | move {c x path i pl} (hc : r.src.resolve path = some c)
    (hi : Plan.locateInsertion r.src (some c) i = .ok pl)
    (hpl : PlacementFor r stay brought x (some c) pl) :
    Realizes r stay brought ⟨.move, r.src.ref c, some (r.dst.ref x)⟩ (.move path i)

section

variable {r : Revision} {stay : NodeId → Option NodeId} {brought : NodeId → Prop}

theorem Plan.of_locateInsertion {t : Tree} {source : Option NodeId} {i : Insertion} {pl : Placement}
    (h : Plan.locateInsertion t source i = .ok pl) :
    pl.insertion = i ∧ pl.source = source ∧ locateParent t i.parent = .ok pl.parent := by
  obtain ⟨parent, hparent, h⟩ := bind_eq_ok.mp h
  obtain ⟨anchor, -, h⟩ := bind_eq_ok.mp h
  obtain rfl := Except.ok.inj h
  exact ⟨rfl, rfl, hparent⟩

theorem Revision.Realizes.injective {op op' : Operation} {patch : Patch}
    (h : r.Realizes stay brought op patch) (h' : r.Realizes stay brought op' patch) : op = op' := by
  cases h with
  | delete hc =>
    cases h' with
    | delete hc' => rw [Option.some.inj (hc.symm.trans hc')]
  | update hc =>
    cases h' with
    | update hc' => rw [Option.some.inj (hc.symm.trans hc')]
  | insert hi hpl =>
    cases h' with
    | insert hi' hpl' =>
      rw [← hpl.node, ← hpl'.node, (Plan.of_locateInsertion hi).1, (Plan.of_locateInsertion hi').1]
  | move hc hi hpl =>
    cases h' with
    | move hc' hi' hpl' =>
      rw [← hpl.node, ← hpl'.node, (Plan.of_locateInsertion hi).1, (Plan.of_locateInsertion hi').1,
        Option.some.inj (hc.symm.trans hc')]

theorem Revision.Realizes.nodup {ops : List Operation} {patches : List Patch}
    (h : List.Forall₂ (r.Realizes stay brought) ops patches) (hops : ops.Nodup) : patches.Nodup := by
  induction h with
  | nil => exact List.nodup_nil
  | cons hhead htail ih =>
    rw [List.nodup_cons] at hops
    refine List.nodup_cons.mpr ⟨fun hmem => ?_, ih hops.2⟩
    obtain ⟨op', hop', hrealizes⟩ := exists_mem_of_forall₂ htail hmem
    exact hops.1 (hhead.injective hrealizes ▸ hop')

theorem Revision.Realizes.exists_plan {ops : List Operation} {patches : List Patch}
    (h : List.Forall₂ (r.Realizes stay brought) ops patches) (plan : Plan) :
    ∃ placements, patches.foldlM (Plan.add r.src) plan =
        .ok ⟨plan.deletes ++ deletedNodes ops, plan.updates ++ updatedPairs ops,
          plan.placements ++ placements⟩ ∧
      List.Forall₂ (fun xs pl => PlacementFor r stay brought xs.1 xs.2 pl) (placedNodes ops)
        placements := by
  induction h generalizing plan with
  | nil =>
    refine ⟨[], ?_, .nil⟩
    simp [deletedNodes, updatedPairs, pure, Except.pure]
  | cons hhead _ ih =>
    rw [List.foldlM_cons]
    cases hhead with
    | @delete c path hc =>
      obtain ⟨placements, hfold, hplacements⟩ := ih { plan with deletes := plan.deletes ++ [c] }
      refine ⟨placements, ?_, hplacements⟩
      simp only [Plan.add, Plan.locate, hc]
      refine hfold.trans ?_
      simp [deletedNodes, updatedPairs, Tree.ref]
    | @update c x path hc =>
      obtain ⟨placements, hfold, hplacements⟩ := ih { plan with updates := plan.updates ++ [(c, x)] }
      refine ⟨placements, ?_, hplacements⟩
      simp only [Plan.add, Plan.locate, hc]
      refine hfold.trans ?_
      simp [deletedNodes, updatedPairs, Tree.ref]
    | @insert x i pl hi hpl =>
      obtain ⟨placements, hfold, hplacements⟩ := ih { plan with placements := plan.placements ++ [pl] }
      refine ⟨pl :: placements, ?_, .cons hpl hplacements⟩
      simp only [Plan.add, hi]
      refine hfold.trans ?_
      simp [deletedNodes, updatedPairs]
    | @move c x path i pl hc hi hpl =>
      obtain ⟨placements, hfold, hplacements⟩ := ih { plan with placements := plan.placements ++ [pl] }
      refine ⟨pl :: placements, ?_, .cons hpl hplacements⟩
      simp only [Plan.add, Plan.locate, hc]
      change (do let placement ← Plan.locateInsertion r.src (some c) i
                 pure { plan with placements := plan.placements ++ [placement] } : Except _ _) >>= _ = _
      rw [hi]
      refine hfold.trans ?_
      simp [deletedNodes, updatedPairs]

theorem Revision.Realizes.map_kind {ops : List Operation} {patches : List Patch}
    (h : List.Forall₂ (r.Realizes stay brought) ops patches) :
    patches.map Patch.kind = ops.map Operation.kind := by
  induction h with
  | nil => rfl
  | cons hhead _ ih =>
    rw [List.map_cons, List.map_cons, ih]
    cases hhead <;> rfl

theorem Revision.Realizes.exists_parent {op : Operation} {patch : Patch}
    (h : r.Realizes stay brought op patch) {i : Insertion} (hi : patch.insertion? = some i) :
    ∃ path, i.parent = .existing path := by
  cases h with
  | delete => simp [Patch.insertion?] at hi
  | update => simp [Patch.insertion?] at hi
  | insert hlocate hpl =>
    obtain ⟨-, -, path, -, -, -, hpath⟩ := hpl.parent
    rw [(Plan.of_locateInsertion hlocate).1] at hpath
    exact ⟨path, Option.some.inj hi ▸ hpath⟩
  | move _ hlocate hpl =>
    obtain ⟨-, -, path, -, -, -, hpath⟩ := hpl.parent
    rw [(Plan.of_locateInsertion hlocate).1] at hpath
    exact ⟨path, Option.some.inj hi ▸ hpath⟩

end

/-! ## Generation -/

theorem foldl_insert_of_nodup {patches : List Patch} {set : PatchSet}
    (h : (set.patches ++ patches).Nodup) :
    patches.foldl PatchSet.insert set = { set with patches := set.patches ++ patches } := by
  induction patches generalizing set with
  | nil => simp
  | cons patch patches ih =>
    have hnot : set.contains patch = false := by
      rw [PatchSet.contains, ← Bool.not_eq_true, List.contains_iff_mem]
      exact fun hmem => List.disjoint_of_nodup_append h hmem List.mem_cons_self
    rw [List.foldl_cons, PatchSet.insert, hnot, if_neg Bool.false_ne_true, ih (by simpa using h)]
    simp

theorem Tree.isImplicit_of_tracked {t : Tree} {n : NodeId} (h : t.isIgnored n = false) :
    t.isImplicit n = false := by
  rw [isIgnored, Bool.or_eq_false_iff] at h
  exact h.1

namespace Reconciled

section

variable {src dst : Tree} {stay : NodeId → Option NodeId} {deletes : List NodeId}
  {updates : List (NodeId × NodeId)} {placed : List (NodeId × Option NodeId)}

theorem of_leaving (h : Reconciled src dst stay deletes updates placed) (Ls : src.Linked)
    (Ld : dst.Linked) {c : NodeId}
    (hc : c ∈ goneNodes deletes placed ∨ ∃ x, (c, x) ∈ updates) :
    src.isAttached c = true ∧ src.isImplicit c = false := by
  rcases hc with hc | ⟨x, hc⟩
  · obtain ⟨-, hatt, htracked, -⟩ := h.gone hc
    exact ⟨hatt, Tree.isImplicit_of_tracked htracked⟩
  · obtain ⟨q, p, hqp, hp, -, htracked, -⟩ := h.update hc
    exact ⟨(Ls.isAttached_of_parent hp).mpr (h.ancestors_kept Ls Ld hqp).1,
      Tree.isImplicit_of_tracked htracked⟩

end

section

variable {r : Revision} {stay : NodeId → Option NodeId} {ops : List Operation}

theorem mem_brought_iff (hops : ∀ op ∈ ops, op.Between r.src r.dst) (z : NodeId) :
    z ∈ ops.filterMap Operation.brought? ↔ Brought (updatedPairs ops) (placedNodes ops) z := by
  rw [List.mem_filterMap]
  constructor
  · rintro ⟨op, hop, hz⟩
    cases hops op hop with
    | delete c => simp [Operation.brought?] at hz
    | update c x =>
      obtain rfl : x = z := by simpa [Operation.brought?, Tree.ref] using hz
      exact Or.inl (List.mem_map.mpr ⟨(c, x), List.mem_filterMap.mpr ⟨_, hop, rfl⟩, rfl⟩)
    | insert x =>
      obtain rfl : x = z := by simpa [Operation.brought?, Tree.ref] using hz
      exact Or.inr (List.mem_map.mpr ⟨(x, none), List.mem_filterMap.mpr ⟨_, hop, rfl⟩, rfl⟩)
    | move c x =>
      obtain rfl : x = z := by simpa [Operation.brought?, Tree.ref] using hz
      exact Or.inr (List.mem_map.mpr ⟨(x, some c), List.mem_filterMap.mpr ⟨_, hop, rfl⟩, rfl⟩)
  · rintro (hz | hz)
    · obtain ⟨⟨c, z⟩, hmem, rfl⟩ := List.mem_map.mp hz
      obtain ⟨op, hop, heq⟩ := List.mem_filterMap.mp hmem
      refine ⟨op, hop, ?_⟩
      cases hops op hop with
      | update c' x =>
        obtain ⟨-, rfl⟩ : c' = c ∧ x = z := by simpa [Tree.ref] using heq
        rfl
      | _ => simp at heq
    · obtain ⟨⟨z, source⟩, hmem, rfl⟩ := List.mem_map.mp hz
      obtain ⟨op, hop, heq⟩ := List.mem_filterMap.mp hmem
      refine ⟨op, hop, ?_⟩
      cases hops op hop with
      | insert x =>
        obtain ⟨rfl, -⟩ : x = z ∧ none = source := by simpa [Tree.ref] using heq
        rfl
      | move c x =>
        obtain ⟨rfl, -⟩ : x = z ∧ some c = source := by simpa [Tree.ref] using heq
        rfl
      | _ => simp at heq

theorem mem_goneNodes_of_mem {op : Operation} (hop : op ∈ ops) {c : NodeId} :
    (op = ⟨.delete, r.src.ref c, none⟩ ∨ ∃ x, op = ⟨.move, r.src.ref c, some (r.dst.ref x)⟩) →
      c ∈ goneNodes (deletedNodes ops) (placedNodes ops) := by
  rintro (rfl | ⟨x, rfl⟩)
  · exact List.mem_append_left _ (List.mem_filterMap.mpr ⟨_, hop, rfl⟩)
  · exact List.mem_append_right _
      (List.mem_filterMap.mpr ⟨(x, some c), List.mem_filterMap.mpr ⟨_, hop, rfl⟩, rfl⟩)

variable (h : Reconciled r.src r.dst stay (deletedNodes ops) (updatedPairs ops) (placedNodes ops))
  (As : r.src.Rooted) (Ad : r.dst.Rooted) (hops : ∀ op ∈ ops, op.Between r.src r.dst)

include h As Ad hops

theorem check_and_explicit {op : Operation} (hop : op ∈ ops) :
    op.check r.src r.dst = .ok () ∧ op.isImplicit r.src r.dst = false := by
  have hsrc : ∀ {c}, (c ∈ goneNodes (deletedNodes ops) (placedNodes ops) ∨
      ∃ x, (c, x) ∈ updatedPairs ops) → r.src.owns (r.src.ref c) = true ∧
        r.src.isImplicit c = false := fun {c} hc => by
    obtain ⟨hatt, himplicit⟩ := h.of_leaving As.linked Ad.linked hc
    have hlt := As.linked.lt_size_of_isAttached hatt
    exact ⟨by simp [Tree.owns, Tree.ref, hlt], himplicit⟩
  have hdst : ∀ {x}, Brought (updatedPairs ops) (placedNodes ops) x →
      r.dst.owns (r.dst.ref x) = true ∧ r.dst.isImplicit x = false := fun {x} hx => by
    obtain ⟨-, htracked, q, p, -, hq⟩ := h.of_brought hx
    have hlt := r.dst.lt_size_of_parent hq
    exact ⟨by simp [Tree.owns, Tree.ref, hlt], Tree.isImplicit_of_tracked htracked⟩
  cases hops op hop with
  | delete c =>
    obtain ⟨howns, himplicit⟩ := hsrc (Or.inl (mem_goneNodes_of_mem hop (Or.inl rfl)))
    exact ⟨by simp [Operation.check, howns], by simp [Operation.isImplicit, Tree.ref, himplicit]⟩
  | update c x =>
    have hmem : (c, x) ∈ updatedPairs ops := List.mem_filterMap.mpr ⟨_, hop, rfl⟩
    obtain ⟨howns, himplicit⟩ := hsrc (Or.inr ⟨x, hmem⟩)
    obtain ⟨howns', himplicit'⟩ := hdst (Or.inl (List.mem_map.mpr ⟨_, hmem, rfl⟩))
    exact ⟨by simp [Operation.check, howns, howns'],
      by simp [Operation.isImplicit, Tree.ref, himplicit, himplicit']⟩
  | insert x =>
    obtain ⟨howns, himplicit⟩ := hdst (Or.inr
      (List.mem_map.mpr ⟨(x, none), List.mem_filterMap.mpr ⟨_, hop, rfl⟩, rfl⟩))
    exact ⟨by simp [Operation.check, howns], by simp [Operation.isImplicit, Tree.ref, himplicit]⟩
  | move c x =>
    obtain ⟨howns, himplicit⟩ := hsrc (Or.inl (mem_goneNodes_of_mem hop (Or.inr ⟨x, rfl⟩)))
    obtain ⟨howns', himplicit'⟩ := hdst (Or.inr
      (List.mem_map.mpr ⟨(x, some c), List.mem_filterMap.mpr ⟨_, hop, rfl⟩, rfl⟩))
    exact ⟨by simp [Operation.check, howns, howns'],
      by simp [Operation.isImplicit, Tree.ref, himplicit, himplicit']⟩

theorem outermost_eq : Operation.outermost ops r.src = ops := by
  refine List.filter_eq_self.mpr fun op hop => ?_
  rw [Bool.not_eq_true', ← Bool.not_eq_true]
  intro hsub
  rw [Operation.isSubsumed, Bool.and_eq_true, List.any_eq_true] at hsub
  obtain ⟨hkind, other, hother, hsub⟩ := hsub
  rw [Bool.and_eq_true, Tree.Linked.isAncestor_iff] at hsub
  have hmem := hsub.2
  cases hops op hop with
  | update c x =>
    cases hops other hother with
    | update c' x' =>
      exact h.updates_apart As.linked Ad.linked (List.mem_filterMap.mpr ⟨_, hop, rfl⟩)
        (List.mem_filterMap.mpr ⟨_, hother, rfl⟩) hmem
    | _ => simp at hsub
  | _ => simp at hkind

theorem patches_eq :
    r.patches ops = ops.mapM (r.patchFor (ops.filterMap Operation.brought?)) := by
  have hall : ops.filter (fun op => !op.isImplicit r.src r.dst) = ops :=
    List.filter_eq_self.mpr fun op hop => by
      rw [(h.check_and_explicit As Ad hops hop).2]
      rfl
  have hcheck : ops.forM (·.check r.src r.dst) = .ok () :=
    forM_eq_ok_iff.mpr fun op hop => (h.check_and_explicit As Ad hops hop).1
  simp only [Revision.patches, hcheck, h.outermost_eq As Ad hops, hall]
  rfl

variable (C : Corresponds r stay) (U : Unambiguous r stay (deletedNodes ops) (updatedPairs ops)
  (placedNodes ops))

include C U

omit As in
theorem exists_insertion {x : NodeId} {source : Option NodeId} (hx : (x, source) ∈ placedNodes ops) :
    ∃ i pl, r.insertionOf (ops.filterMap Operation.brought?) x = .ok i ∧
      Plan.locateInsertion r.src source i = .ok pl ∧
        PlacementFor r stay (Brought (updatedPairs ops) (placedNodes ops)) x source pl := by
  obtain ⟨-, -, q, p, hqp, hq⟩ := h.place hx
  obtain ⟨index, hindex⟩ := Ad.charted.exists_index hq
  have hmem : x ∈ (placedNodes ops).map (·.1) := List.mem_map.mpr ⟨_, hx, rfl⟩
  obtain ⟨path, hpath, hresolve⟩ := U.host hmem hq hqp
  obtain ⟨anchor, at?, hanchor, hat, hfor⟩ := h.exists_anchor C (mem_brought_iff hops) hqp
    ((r.dst.children q).takeWhile (· != x)).reverse (fun z hz => Ad.linked.mem_children.mp
      ((List.takeWhile_prefix _).subset (List.mem_reverse.mp hz))) (U.anchor hmem hq)
  have hparent : r.parentRef q = .ok (.existing path) := by
    simp only [Revision.parentRef, C.kept hqp, Revision.pathOf, hpath]
    rfl
  have hanchorOf : r.anchorOf (ops.filterMap Operation.brought?) x = .ok anchor := by
    simp only [Revision.anchorOf, hq, Option.elim_some]
    exact hanchor
  let i : Insertion := ⟨index, x, r.dst.role x, .existing path, anchor⟩
  refine ⟨i, ⟨i, source, some p, at?⟩, ?_, ?_,
    ⟨rfl, rfl, rfl, hindex, ⟨q, p, path, hq, hqp, rfl, rfl⟩, fun hq' => ?_⟩⟩
  · simp only [Revision.insertionOf, hindex, hq, hparent, hanchorOf]
    rfl
  · simp only [i, Plan.locateInsertion, Plan.locateParent, Plan.locate, hresolve, hat]
    rfl
  · obtain rfl := Option.some.inj (hq.symm.trans hq')
    exact hfor

omit As in
theorem exists_patch {op : Operation} (hop : op ∈ ops) :
    ∃ patch, r.patchFor (ops.filterMap Operation.brought?) op = .ok patch ∧
      r.Realizes stay (Brought (updatedPairs ops) (placedNodes ops)) op patch := by
  have hpath : ∀ {c}, (c ∈ goneNodes (deletedNodes ops) (placedNodes ops) ∨
      ∃ x, (c, x) ∈ updatedPairs ops) → ∃ path, r.pathOf c = .ok path ∧
        r.src.resolve path = some c := fun {c} hc => by
    obtain ⟨path, hpath, hresolve⟩ := U.leaving hc
    exact ⟨path, by simp only [Revision.pathOf, hpath]; rfl, hresolve⟩
  cases hops op hop with
  | delete c =>
    obtain ⟨path, hpath, hc⟩ := hpath (Or.inl (mem_goneNodes_of_mem hop (Or.inl rfl)))
    exact ⟨.delete path, by simp only [Revision.patchFor, Tree.ref, hpath]; rfl, .delete hc⟩
  | update c x =>
    obtain ⟨path, hpath, hc⟩ := hpath (c := c) (Or.inr ⟨x, List.mem_filterMap.mpr ⟨_, hop, rfl⟩⟩)
    exact ⟨.update path x, by simp only [Revision.patchFor, Tree.ref, hpath]; rfl, .update hc⟩
  | insert x =>
    obtain ⟨i, pl, hi, hlocate, hpl⟩ := h.exists_insertion Ad hops C U
      (List.mem_filterMap.mpr ⟨_, hop, rfl⟩ : (x, none) ∈ placedNodes ops)
    exact ⟨.insert i, by simp only [Revision.patchFor, Tree.ref, hi]; rfl, .insert hlocate hpl⟩
  | move c x =>
    obtain ⟨path, hpath, hc⟩ := hpath (Or.inl (mem_goneNodes_of_mem hop (Or.inr ⟨x, rfl⟩)))
    obtain ⟨i, pl, hi, hlocate, hpl⟩ := h.exists_insertion Ad hops C U
      (List.mem_filterMap.mpr ⟨_, hop, rfl⟩ : (x, some c) ∈ placedNodes ops)
    exact ⟨.move path i, by simp only [Revision.patchFor, Tree.ref, hpath, hi]; rfl,
      .move hc hlocate hpl⟩

/-- **The operations become patches, and the patches resolve to a plan for the same nodes.** -/
theorem exists_plan (hnodup : ops.Nodup) :
    ∃ patches plan, r.generate ops = .ok ⟨r.dst, patches⟩ ∧
      patches.map Patch.kind = ops.map Operation.kind ∧
      (∀ patch ∈ patches, ∀ i, patch.insertion? = some i → ∃ path, i.parent = .existing path) ∧
        Plan.make r.src patches = .ok plan ∧ plan.deletes = deletedNodes ops ∧
          plan.updates = updatedPairs ops ∧
            List.Forall₂ (fun xs pl => PlacementFor r stay
              (Brought (updatedPairs ops) (placedNodes ops)) xs.1 xs.2 pl)
              (placedNodes ops) plan.placements := by
  obtain ⟨patches, hpatches, hrealizes⟩ :=
    mapM_ok_of_forall fun op hop => h.exists_patch Ad hops C U hop
  obtain ⟨placements, hplan, hplacements⟩ := Revision.Realizes.exists_plan hrealizes Plan.empty
  refine ⟨patches, _, ?_, Revision.Realizes.map_kind hrealizes, fun patch hpatch i hi => ?_, hplan,
    ?_, ?_, ?_⟩
  · rw [Revision.generate, h.patches_eq As Ad hops, hpatches, Except.map,
      foldl_insert_of_nodup (by simpa [PatchSet.empty] using Revision.Realizes.nodup hrealizes hnodup)]
    rfl
  · obtain ⟨op, -, hop⟩ := exists_mem_of_forall₂ hrealizes hpatch
    exact hop.exists_parent hi
  · exact List.nil_append _
  · exact List.nil_append _
  · exact hplacements

end

end Reconciled

/-- Comparing `src` with `dst` gives the correspondence `nodes` and the patches `set`. -/
structure Compared (src dst : Tree) (minMoveSize : Nat) (nodes : Correspondence) (set : PatchSet) :
    Prop where
  resolve : Correspondence.resolve (src.diff dst minMoveSize).pairing
    (src.diff dst minMoveSize).pairs src dst = .ok nodes
  generate : Revision.generate { src, dst, nodes } (src.diff dst minMoveSize).operations = .ok set

/-- The patches between two trees that are compared; none if they cannot be made. -/
def Tree.patchSet (src dst : Tree) (minMoveSize : Nat) : PatchSet :=
  (Revision.generate { src, dst, nodes := src.correspondence dst minMoveSize }
    (src.diff dst minMoveSize).operations).toOption.getD (.empty dst)

theorem Tree.eq_patchSet {src dst : Tree} {minMoveSize : Nat} {nodes : Correspondence} {set : PatchSet}
    (hresolve : Correspondence.resolve (src.diff dst minMoveSize).pairing
      (src.diff dst minMoveSize).pairs src dst = .ok nodes)
    (hgenerate : Revision.generate { src, dst, nodes } (src.diff dst minMoveSize).operations =
      .ok set) : set = src.patchSet dst minMoveSize := by
  rw [patchSet, ← eq_correspondence hresolve, hgenerate]
  rfl

end TreePatch
