import TreePatch.Proofs.Changes

/-!
# Where nodes come from

Whatever the patches are, and wherever their application breaks off, a patched tree holds the nodes of the
source tree with their contents and, behind them, copies of destination nodes. A copy differs from its
original in at most two things: the role that it took over from a node in whose place it was put, and the
name of a type declaration that an update replaced. `History` follows a run edit by edit and keeps a ledger
of both; what a ledger says of the contents is proved along a history (`History.traced`).
-/

namespace TreePatch

/-! ## What edits do to contents -/

namespace Tree

variable {t t' : Tree}

/-- Two trees whose nodes carry the same, however they are linked. -/
structure SameContents (t t' : Tree) : Prop where
  size : t'.size = t.size
  content : ∀ x, t'.content x = t.content x

theorem SameContents.trans {t'' : Tree} (h : SameContents t t') (h' : SameContents t' t'') :
    SameContents t t'' :=
  ⟨h'.size.trans h.size, fun x => (h'.content x).trans (h.content x)⟩

theorem SameContents.with_units (h : SameContents t t') (units : List CompilationUnit) :
    SameContents t { t' with units := units } :=
  ⟨h.size, h.content⟩

theorem sameContents_modify (t : Tree) (n : NodeId) (f : Node → Node)
    (h : ∀ m, (f m).toContent = m.toContent) : SameContents t (t.modify n f) := by
  refine ⟨size_modify t n f, fun x => ?_⟩
  rw [content, content, node_modify]
  split
  · exact h _
  · rfl

theorem sameContents_detach {n : NodeId} (h : t.detach n = .ok t') : SameContents t t' := by
  rw [detach] at h
  split at h
  · simp at h
  · next p _ =>
    have hsame := (sameContents_modify t p (fun m => { m with children := m.children.filter (· != n) })
      fun _ => rfl).trans (sameContents_modify _ n (fun m => { m with parent := none }) fun _ => rfl)
    split at h
    · obtain rfl := Except.ok.inj h
      exact hsame.with_units _
    · obtain rfl := Except.ok.inj h
      exact hsame

theorem sameContents_insertChild {p n : NodeId} {i : Nat} (h : t.insertChild p i n = .ok t') :
    SameContents t t' := by
  rw [insertChild] at h
  split at h
  · simp at h
  · split at h
    · simp at h
    · obtain rfl := Except.ok.inj h
      exact (sameContents_modify t p (fun m => { m with children := m.children.insertIdx i n })
        fun _ => rfl).trans (sameContents_modify _ n (fun m => { m with parent := some p }) fun _ => rfl)

theorem content_of_replace {old new : NodeId} (hnew : new < t.size) (h : t.replace old new = .ok t') :
    old < t.size ∧ t'.size = t.size ∧
      ∀ x, t'.content x = if x = new then { t.content new with role := t.role old } else t.content x := by
  rw [replace] at h
  split at h
  · simp at h
  split at h
  · simp at h
  next p hp =>
  split at h
  · let spliced := t.modify p fun m => { m with children := m.children.replace old new }
    let linked := spliced.modify new fun m => { m with parent := some p, role := t.role old }
    have hspliced : SameContents t spliced := sameContents_modify t p _ fun _ => rfl
    have hlinked : ∀ x, linked.content x =
        if x = new then { t.content new with role := t.role old } else t.content x := by
      intro x
      rw [content, node_modify, hspliced.size]
      by_cases hx : x = new
      · subst hx
        rw [if_pos ⟨rfl, hnew⟩, if_pos rfl, ← hspliced.content]
        rfl
      · rw [if_neg fun hand => hx hand.1, if_neg hx, ← hspliced.content]
        rfl
    have hcut : SameContents linked (linked.modify old fun m => { m with parent := none }) :=
      sameContents_modify _ old _ fun _ => rfl
    have hsize : linked.size = t.size := (size_modify _ _ _).trans hspliced.size
    refine ⟨t.lt_size_of_parent hp, ?_⟩
    split at h
    · obtain rfl := Except.ok.inj h
      exact ⟨hcut.size.trans hsize, fun x => (hcut.content x).trans (hlinked x)⟩
    · obtain rfl := Except.ok.inj h
      exact ⟨hcut.size.trans hsize, fun x => (hcut.content x).trans (hlinked x)⟩
  · simp at h

theorem lt_size_of_content_ne {n : NodeId} (h : t.content n ≠ Node.absent.toContent) : n < t.size := by
  by_contra hn
  exact h (congrArg Node.toContent (t.node_of_size_le (Nat.le_of_not_lt hn)))

theorem content_setLabel {n : NodeId} (hn : n < t.size) (label : String) (x : NodeId) :
    (t.setLabel n label).content x = if x = n then { t.content n with label } else t.content x := by
  rw [content, setLabel, node_modify]
  by_cases hx : x = n
  · subst hx
    rw [if_pos ⟨rfl, hn⟩, if_pos rfl]
    rfl
  · rw [if_neg fun hand => hx hand.1, if_neg hx]
    rfl

end Tree

/-! ## Histories -/

/-- What copies owe to the nodes that they replaced. -/
structure Ledger where
  /-- The node in whose place a copy was put. -/
  replaced : NodeId → Option NodeId := fun _ => none
  /-- The name that a copied node has in place of its own. -/
  name : NodeId → Option String := fun _ => none

namespace Ledger

/-- The ledger after `new` was put in the place of `old`. -/
def takeOver (l : Ledger) (old new : NodeId) : Ledger :=
  { l with replaced := fun c => if c = new then some old else l.replaced c }

/-- The ledger after a node got a name, if any did. -/
def keep (l : Ledger) : Option (NodeId × String) → Ledger
  | none => l
  | some (target, name) => { l with name := fun c => if c = target then some name else l.name c }

/-- What the copy `c` carries if the original carries `original`. -/
def contentOf (l : Ledger) (t : Tree) (c : NodeId) (original : Content) : Content :=
  { original with
    role := ((l.replaced c).map t.role).getD original.role
    label := (l.name c).getD original.label }

end Ledger

/-- The first name below the copy `new` and the name of the type declaration `old` that it gets, when both
have one. -/
def Tree.keptName? (t : Tree) (old new : NodeId) : Option (NodeId × String) :=
  if Source.isTypeDeclaration (t.kind old) then
    (t.nameNode? new).bind fun target => (t.simpleName? old).map fun name => (target, name)
  else
    none

/-- The destination node of which a patch brings in a copy. -/
def Patch.node? : Patch → Option NodeId
  | .delete _ => none
  | .update _ node => some node
  | .insert i | .move _ i => some i.node

namespace PatchSet

/-- Whether a patch of the set asks for a copy of `node`. -/
def Names (s : PatchSet) (node : NodeId) : Prop :=
  ∃ patch ∈ s.patches, patch.node? = some node

/-- Whether a patch of the set brings in a copy of `node` at a place of its own. -/
def Inserts (s : PatchSet) (node : NodeId) : Prop :=
  ∃ patch ∈ s.patches, ∃ i, patch.insertion? = some i ∧ i.node = node

theorem Inserts.names {s : PatchSet} {node : NodeId} (h : s.Inserts node) : s.Names node := by
  obtain ⟨patch, hpatch, i, hi, rfl⟩ := h
  refine ⟨patch, hpatch, ?_⟩
  cases patch with
  | delete | update => simp [Patch.insertion?] at hi
  | insert | move => exact congrArg _ (congrArg _ (Option.some.inj hi))

end PatchSet

/-- The trees that `src` goes through while the patches of `s` are applied, each with its ledger. -/
inductive History (s : PatchSet) (src : Tree) : Tree → Ledger → Prop
  | start : History s src src {}
  | detach {t t' : Tree} {l : Ledger} {n : NodeId} (h : History s src t l)
    (ht : t.detach n = .ok t') : History s src t' l
  | insertChild {t t' : Tree} {l : Ledger} {p n : NodeId} {i : Nat} (h : History s src t l)
    (ht : t.insertChild p i n = .ok t') : History s src t' l
  | declare {t : Tree} {l : Ledger} (h : History s src t l) (units : List CompilationUnit) :
    History s src { t with units := units } l
  /-- An insertion makes its copy, or the list of thrown types is renewed. -/
  | copy {t : Tree} {l : Ledger} {y : NodeId} (h : History s src t l)
    (hy : s.Inserts y ∨ s.destination.role y = .thrown) :
    History s src (t.graft s.destination y).tree l
  /-- An insertion puts its copy in the place of a node. -/
  | occupy {t t' : Tree} {l : Ledger} {old y : NodeId} (h : History s src t l) (hy : s.Inserts y)
    (ht : (t.graft s.destination y).tree.replace old t.size = .ok t') :
    History s src t' (l.takeOver old t.size)
  /-- An update puts a copy in the place of its target, and the copy keeps the name of the target. -/
  | update {t t' : Tree} {l : Ledger} {path : Path} {old y : NodeId} (h : History s src t l)
    (hpatch : .update path y ∈ s.patches) (hold : src.resolve path = some old)
    (ht : (Patching.keepName old t.size (t.graft s.destination y).tree).replace old t.size = .ok t') :
    History s src t'
      ((l.keep ((t.graft s.destination y).tree.keptName? old t.size)).takeOver old t.size)
  /-- An update breaks off when its copy is ready: the target cannot be replaced. -/
  | refusal {t : Tree} {l : Ledger} {path : Path} {old y : NodeId} {e : TreeError}
    (h : History s src t l) (hpatch : .update path y ∈ s.patches) (hold : src.resolve path = some old)
    (ht : (Patching.keepName old t.size (t.graft s.destination y).tree).replace old t.size = .error e) :
    History s src (Patching.keepName old t.size (t.graft s.destination y).tree)
      (l.keep ((t.graft s.destination y).tree.keptName? old t.size))

/-- The nodes of `t` are those of `src` with their contents, followed by copies of destination nodes as the
ledger says. -/
structure Traced (s : PatchSet) (src t : Tree) (l : Ledger) : Prop where
  size_le : src.size ≤ t.size
  old : ∀ n < src.size, t.content n = src.content n
  new : ∀ c, src.size ≤ c → c < t.size → ∃ y, (y < s.destination.size ∨ s.Names y) ∧
    t.content c = l.contentOf t c (s.destination.content y)
  unused : ∀ c, t.size ≤ c → l.replaced c = none ∧ l.name c = none
  replaced_lt : ∀ {c old}, l.replaced c = some old → old < t.size

namespace Traced

variable {s : PatchSet} {src t t' : Tree} {l : Ledger}

theorem contentOf_congr (hrole : ∀ {c old}, l.replaced c = some old → t'.role old = t.role old)
    (c : NodeId) (original : Content) : l.contentOf t' c original = l.contentOf t c original := by
  rw [Ledger.contentOf, Ledger.contentOf]
  cases hc : l.replaced c with
  | none => rfl
  | some old => rw [Option.map_some, Option.map_some, hrole hc]

theorem of_sameContents (h : Traced s src t l) (hsame : Tree.SameContents t t') :
    Traced s src t' l where
  size_le := hsame.size ▸ h.size_le
  old n hn := (hsame.content n).trans (h.old n hn)
  new c hc hlt := by
    obtain ⟨y, hy, hcontent⟩ := h.new c hc (hsame.size ▸ hlt)
    refine ⟨y, hy, ?_⟩
    rw [hsame.content, hcontent, contentOf_congr fun _ => (Tree.role_of_content (hsame.content _)).symm]
  unused c hc := h.unused c (hsame.size ▸ hc)
  replaced_lt hc := hsame.size ▸ h.replaced_lt hc

variable (D : s.destination.Linked)

include D in
theorem graft (h : Traced s src t l) {y : NodeId} (hy : y < s.destination.size ∨ s.Names y) :
    Traced s src (t.graft s.destination y).tree l := by
  have G : Tree.Grafted t s.destination y (t.graft s.destination y) := Tree.grafted D
  have hold : ∀ {n}, n < t.size → (t.graft s.destination y).tree.content n = t.content n := fun hn =>
    congrArg Node.toContent (G.node_old _ hn)
  refine ⟨Nat.le_of_lt (Nat.lt_of_le_of_lt h.size_le G.size_lt), fun n hn => ?_, fun c hc hlt => ?_,
    fun c hc => h.unused c (Nat.le_of_lt (Nat.lt_of_lt_of_le G.size_lt hc)),
    fun hc => Nat.lt_trans (h.replaced_lt hc) G.size_lt⟩
  · exact (hold (Nat.lt_of_lt_of_le hn h.size_le)).trans (h.old n hn)
  · have hsame := contentOf_congr fun {c old} hc => Tree.role_of_content (hold (h.replaced_lt (c := c) hc))
    by_cases hct : c < t.size
    · obtain ⟨z, hz, hcontent⟩ := h.new c hc hct
      exact ⟨z, hz, (hold hct).trans (hcontent.trans (hsame c _).symm)⟩
    · have hlow := Nat.le_of_not_lt hct
      -- the number of the copy tells which node of the subtree it is a copy of
      have hindex : c - t.size < (s.destination.subtree y).preorder.length := by
        rw [Rose.length_preorder]
        rw [Tree.size_graft] at hlt
        omega
      obtain ⟨z, hz⟩ : ∃ z, (s.destination.subtree y).preorder[c - t.size]? = some z :=
        ⟨_, List.getElem?_eq_getElem hindex⟩
      have hcopy := (Tree.lookup_graft D (t := t)).mpr ⟨hlow, hz⟩
      refine ⟨z, ?_, ?_⟩
      · rcases (G.lookup_isSome z).mp (by rw [hcopy]; rfl) with rfl | hbelow
        · exact hy
        · obtain ⟨p, hp⟩ : ∃ p, s.destination.parent? z = some p := by
            cases hp : s.destination.parent? z with
            | none =>
              rw [Tree.Linked.ancestors_of_none hp] at hbelow
              simp at hbelow
            | some p => exact ⟨p, rfl⟩
          exact Or.inl (s.destination.lt_size_of_parent hp)
      · rw [G.content hcopy, hsame, Ledger.contentOf, (h.unused c hlow).1, (h.unused c hlow).2]
        rfl

theorem setLabel (h : Traced s src t l) {target : NodeId} (hnew : src.size ≤ target)
    (hlt : target < t.size) (name : String) :
    Traced s src (t.setLabel target name) (l.keep (some (target, name))) := by
  have hsize : (t.setLabel target name).size = t.size := Tree.size_modify _ _ _
  have hcontent := Tree.content_setLabel hlt name
  have hrole : ∀ x, (t.setLabel target name).role x = t.role x := fun x => by
    refine (congrArg Content.role (hcontent x) :).trans ?_
    split
    · next hx => rw [hx]; rfl
    · rfl
  refine ⟨hsize ▸ h.size_le, fun n hn => ?_, fun c hc hct => ?_, fun c hc => ?_,
    fun hc => hsize ▸ h.replaced_lt hc⟩
  · rw [hcontent, if_neg (Nat.ne_of_lt (Nat.lt_of_lt_of_le hn hnew)), h.old n hn]
  · obtain ⟨y, hy, heq⟩ := h.new c hc (hsize ▸ hct)
    refine ⟨y, hy, ?_⟩
    have hkept : (l.keep (some (target, name))).contentOf (t.setLabel target name) c
        (s.destination.content y) = (l.keep (some (target, name))).contentOf t c
          (s.destination.content y) := contentOf_congr (fun _ => hrole _) _ _
    rw [hcontent, hkept]
    by_cases hx : c = target
    · subst hx
      rw [if_pos rfl, heq]
      simp [Ledger.contentOf, Ledger.keep]
    · rw [if_neg hx, heq]
      simp [Ledger.contentOf, Ledger.keep, hx]
  · rw [hsize] at hc
    have hne : c ≠ target := Nat.ne_of_gt (Nat.lt_of_lt_of_le hlt hc)
    simpa [Ledger.keep, hne] using h.unused c hc

theorem replace (h : Traced s src t l) {old new : NodeId} (hnew : src.size ≤ new) (hlt : new < t.size)
    (hfresh : ∀ c, l.replaced c ≠ some new) (ht : t.replace old new = .ok t') :
    Traced s src t' (l.takeOver old new) := by
  obtain ⟨hold, hsize, hcontent⟩ := Tree.content_of_replace hlt ht
  have hrole : ∀ x, x ≠ new → t'.role x = t.role x := fun x hx => by
    refine Tree.role_of_content ?_
    rw [hcontent, if_neg hx]
  have hrole_old : t'.role old = t.role old := by
    by_cases heq : old = new
    · refine (congrArg Content.role (hcontent old) :).trans ?_
      rw [if_pos heq]
    · exact hrole old heq
  refine ⟨hsize ▸ h.size_le, fun n hn => ?_, fun c hc hct => ?_, fun c hc => ?_, fun {c x} hc => ?_⟩
  · rw [hcontent, if_neg (Nat.ne_of_lt (Nat.lt_of_lt_of_le hn hnew)), h.old n hn]
  · obtain ⟨y, hy, heq⟩ := h.new c hc (hsize ▸ hct)
    refine ⟨y, hy, ?_⟩
    rw [hcontent]
    by_cases hx : c = new
    · subst hx
      rw [if_pos rfl, heq]
      simp [Ledger.contentOf, Ledger.takeOver, hrole_old]
    · rw [if_neg hx, heq, ← contentOf_congr fun {c x} hc => hrole x fun hxn => hfresh c (hxn ▸ hc)]
      simp [Ledger.contentOf, Ledger.takeOver, hx]
  · rw [hsize] at hc
    have hne : c ≠ new := Nat.ne_of_gt (Nat.lt_of_lt_of_le hlt hc)
    simpa [Ledger.takeOver, hne] using h.unused c hc
  · rw [hsize]
    by_cases hx : c = new
    · simp only [Ledger.takeOver, hx, if_true, Option.some.injEq] at hc
      exact hc ▸ hold
    · simp only [Ledger.takeOver, hx, if_false] at hc
      exact h.replaced_lt hc

theorem exchange (h : Traced s src t l) {g : Tree} {l' : Ledger} (hg : Traced s src g l')
    (hsize : t.size < g.size) (hreplaced : l'.replaced = l.replaced) {old : NodeId}
    (ht : g.replace old t.size = .ok t') : Traced s src t' (l'.takeOver old t.size) := by
  refine hg.replace h.size_le hsize (fun c hc => ?_) ht
  rw [hreplaced] at hc
  exact Nat.lt_irrefl _ (h.replaced_lt hc)

end Traced

theorem Patching.keepName_eq (old new : NodeId) (t : Tree) :
    keepName old new t =
      match t.keptName? old new with
      | none => t
      | some (target, name) => t.setLabel target name := by
  rw [keepName, Tree.keptName?]
  split
  · cases t.simpleName? old <;> cases t.nameNode? new <;> rfl
  · rfl

theorem Ledger.replaced_keep (l : Ledger) (kept : Option (NodeId × String)) :
    (l.keep kept).replaced = l.replaced := by
  cases kept <;> rfl

section

variable {s : PatchSet} {src t : Tree} {l : Ledger} (D : s.destination.Linked)

include D

theorem Traced.keepName (h : Traced s src t l) {y : NodeId} (hy : s.Names y) (old : NodeId) :
    Traced s src (Patching.keepName old t.size (t.graft s.destination y).tree)
      (l.keep ((t.graft s.destination y).tree.keptName? old t.size)) := by
  have hg := h.graft D (Or.inr hy)
  rw [Patching.keepName_eq]
  cases hkept : (t.graft s.destination y).tree.keptName? old t.size with
  | none => exact hg
  | some kept =>
    obtain ⟨target, name⟩ := kept
    rw [Tree.keptName?] at hkept
    split at hkept
    · obtain ⟨target', htarget, hkept⟩ := Option.bind_eq_some_iff.mp hkept
      obtain ⟨name', -, hpair⟩ := Option.map_eq_some_iff.mp hkept
      obtain ⟨rfl, rfl⟩ := Prod.mk.inj hpair
      have hmem := List.mem_of_mem_filter (List.mem_of_mem_head? htarget)
      have hcopied := (Tree.children_graft_new (Nat.le_refl _)
        (Tree.lt_size_of_mem_children _ hmem)).2 target' hmem
      exact hg.setLabel (Nat.le_trans h.size_le (Nat.le_of_lt hcopied.1))
        (Tree.lt_size_of_parent _ hcopied.2) name'
    · simp at hkept

/-- **The ledger is right** all along a history. -/
theorem History.traced (h : History s src t l) : Traced s src t l := by
  have hgrows : ∀ (t : Tree) y, t.size < (t.graft s.destination y).tree.size := fun _ _ =>
    (Tree.grafted D).size_lt
  induction h with
  | start =>
    exact ⟨Nat.le_refl _, fun _ _ => rfl, fun c hc hlt => absurd hlt (Nat.not_lt.mpr hc),
      fun _ _ => ⟨rfl, rfl⟩, fun hc => by simp at hc⟩
  | detach _ ht ih => exact ih.of_sameContents (Tree.sameContents_detach ht)
  | insertChild _ ht ih => exact ih.of_sameContents (Tree.sameContents_insertChild ht)
  | declare _ units ih => exact ih.of_sameContents ⟨rfl, fun _ => rfl⟩
  | copy _ hy ih =>
    refine ih.graft D (hy.elim (fun hy => Or.inr hy.names) fun hthrown => Or.inl ?_)
    refine Tree.lt_size_of_content_ne fun habsent => ?_
    have hrole : s.destination.role _ = .root := congrArg Content.role habsent
    rw [hthrown] at hrole
    simp at hrole
  | @occupy t t' l old y _ hy ht ih =>
    exact ih.exchange (ih.graft D (Or.inr hy.names)) (hgrows t y) rfl ht
  | @update t t' l path old y _ hpatch _ ht ih =>
    refine ih.exchange (ih.keepName D ⟨_, hpatch, rfl⟩ old) ?_ (Ledger.replaced_keep _ _) ht
    rw [Patching.size_keepName]
    exact hgrows t y
  | refusal _ hpatch _ _ ih => exact ih.keepName D ⟨_, hpatch, rfl⟩ _

end

/-! ## The history of a run -/

/-- The tree has a history. -/
def Recorded (s : PatchSet) (src t : Tree) : Prop :=
  ∃ l, History s src t l

namespace Patching

/-- Whether it ends well or not, the step goes on with the history of the tree. -/
def Records {α : Type} (s : PatchSet) (src : Tree) (x : Patching α) : Prop :=
  ∀ w, Recorded s src w.tree → Recorded s src (x.left w).tree

section

variable {α β : Type} {s : PatchSet} {src : Tree} {w : Workpiece}

theorem records_of_still {x : Patching α} (h : ∀ w, x.left w = w) : Records s src x := fun w hw => by
  rw [h w]
  exact hw

theorem left_of_eq {x y : Patching α} {w' : Workpiece} (h : x w = y w') : x.left w = y.left w' := by
  rw [left, left, h]

theorem Refuses.left_eq {x : Patching α} (h : Refuses x w) : x.left w = w := by
  obtain ⟨e, heq⟩ := h
  rw [left, heq]

theorem Records.bind {x : Patching α} {f : α → Patching β} (hx : Records s src x)
    (hf : ∀ a, Records s src (f a)) : Records s src (x >>= f) := by
  intro w hw
  have hleft := hx w hw
  rw [left] at hleft
  cases hrun : x w with
  | ok a w' =>
    rw [hrun] at hleft
    rw [left_of_eq (bind_of_ok hrun)]
    exact hf a w' hleft
  | error e w' =>
    rw [hrun] at hleft
    rw [left, bind_of_error hrun]
    exact hleft

theorem Records.forM {f : α → Patching Unit} {as : List α} (h : ∀ a ∈ as, Records s src (f a)) :
    Records s src (as.forM f) := by
  induction as with
  | nil => exact records_of_still fun _ => rfl
  | cons a as ih =>
    exact (h a List.mem_cons_self).bind fun _ => ih fun b hb => h b (List.mem_cons_of_mem _ hb)

theorem left_edit_of_ok {f : Tree → Except TreeError Tree} {t' : Tree} (h : f w.tree = .ok t') :
    (edit f).left w = { w with tree := t' } := by
  rw [left, edit, h]

theorem left_edit_of_error {f : Tree → Except TreeError Tree} {e : TreeError}
    (h : f w.tree = .error e) : (edit f).left w = w := by
  rw [left, edit, h]

theorem records_edit {f : Tree → Except TreeError Tree}
    (h : ∀ {t t'}, f t = .ok t' → Recorded s src t → Recorded s src t') : Records s src (edit f) := by
  intro w hw
  cases hf : f w.tree with
  | ok t' =>
    rw [left_edit_of_ok hf]
    exact h hf hw
  | error e =>
    rw [left_edit_of_error hf]
    exact hw

theorem records_detach (n : NodeId) : Records s src (edit (·.detach n)) :=
  records_edit fun ht ⟨l, h⟩ => ⟨l, h.detach ht⟩

theorem records_insertChild (p : NodeId) (i : Nat) (n : NodeId) :
    Records s src (edit (·.insertChild p i n)) :=
  records_edit fun ht ⟨l, h⟩ => ⟨l, h.insertChild ht⟩

theorem records_appendChild (p n : NodeId) : Records s src (edit (·.appendChild p n)) :=
  records_edit fun ht ⟨l, h⟩ => ⟨l, h.insertChild ht⟩

theorem records_declare (index : Option Nat) (n : NodeId) : Records s src (declare index n) :=
  records_edit fun ht ⟨l, h⟩ => by
    obtain ⟨u, -, ht⟩ := bind_eq_ok.mp ht
    obtain rfl := Except.ok.inj ht
    exact ⟨l, h.declare _⟩

theorem records_delete (n : NodeId) : Records s src (delete n) := by
  refine (records_of_still fun _ => rfl : Records s src get).bind fun w => ?_
  split
  · exact records_detach n
  · exact records_of_still fun _ => rfl

theorem records_copyIn {y : NodeId} (hy : s.Inserts y ∨ s.destination.role y = .thrown) :
    Records s src (copyIn s.destination y) := fun _ ⟨l, h⟩ => ⟨l, h.copy hy⟩

theorem records_linkAtAnchor (pl : Placement) (p n : NodeId) :
    Records s src (linkAtAnchor pl p n) := by
  have hanchor : Records s src (anchorOf pl) := records_of_still fun w => by
    rcases anchorOf_cases pl w with hrefuses | ⟨anchor, hrun⟩
    · exact hrefuses.left_eq
    · rw [left, hrun]
  refine hanchor.bind fun anchor => (records_of_still fun _ => rfl : Records s src get).bind fun w => ?_
  split
  · exact records_insertChild p _ n
  · exact records_of_still fun _ => rfl

theorem records_linkAtIndex (pl : Placement) (p n : NodeId) :
    Records s src (linkAtIndex pl p n) := by
  rw [linkAtIndex]
  split
  · exact records_of_still fun _ => rfl
  · refine (records_of_still fun _ => rfl : Records s src get).bind fun w => ?_
    split
    · exact records_insertChild p _ n
    · exact records_linkAtAnchor pl p n

theorem records_linkThrown {z : NodeId} (hz : s.destination.role z = .thrown) (p : NodeId) :
    Records s src (linkThrown s.destination p z) := by
  intro w hw
  have hrun := linkThrown_run w s.destination p z
  split at hrun
  · rw [left_of_eq hrun]
    exact records_appendChild p _ w hw
  · rw [left_of_eq hrun]
    exact records_appendChild p _ _ (records_copyIn (Or.inr hz) w hw)

theorem records_renewThrown (D : s.destination.Linked) (p y : NodeId) :
    Records s src (renewThrown s.destination p y) := by
  refine (records_of_still fun _ => rfl : Records s src get).bind fun w => ?_
  refine (Records.forM fun old _ => records_detach old).bind fun _ => ?_
  split
  · exact records_of_still fun _ => rfl
  · exact Records.forM fun z hz => records_linkThrown (D.mem_childrenWithRole.mp hz).2 p

theorem records_update {path : Path} {old y : NodeId} (hpatch : .update path y ∈ s.patches)
    (hold : src.resolve path = some old) : Records s src (update s.destination old y) := by
  intro w ⟨l, h⟩
  by_cases hatt : w.tree.isAttached old = true
  · obtain ⟨w', hw', hrun⟩ : ∃ w' : Workpiece,
        w'.tree = keepName old w.tree.size (w.tree.graft s.destination y).tree ∧
          update s.destination old y w = edit (·.replace old w.tree.size) w' :=
      ⟨_, rfl, (update_run w s.destination old y).trans (if_pos hatt)⟩
    rw [left_of_eq hrun]
    cases hreplace : w'.tree.replace old w.tree.size with
    | ok t' =>
      rw [left_edit_of_ok hreplace]
      exact ⟨_, h.update hpatch hold (hw' ▸ hreplace)⟩
    | error e =>
      rw [left_edit_of_error hreplace, hw']
      exact ⟨_, h.refusal hpatch hold (hw' ▸ hreplace)⟩
  · rw [left, (update_run w s.destination old y).trans (if_neg hatt)]
    exact ⟨l, h⟩

theorem recorded_link (D : s.destination.Linked) {pl : Placement} (hpl : s.Inserts pl.insertion.node)
    (p : NodeId) {t : Tree} (h : Recorded s src t)
    (hw : w.tree = (t.graft s.destination pl.insertion.node).tree) :
    Recorded s src ((link s.destination pl p t.size).left w).tree := by
  obtain ⟨l, h⟩ := h
  have hcopied : Recorded s src w.tree := ⟨l, hw ▸ h.copy (Or.inl hpl)⟩
  rcases link_cases s.destination pl p t.size w with
    ⟨-, hrun⟩ | ⟨-, hrun⟩ | hrefuses | ⟨-, hrun | hrun | ⟨occupant, -, hrun⟩⟩
  · rw [left_of_eq hrun]
    exact records_renewThrown D p _ w hcopied
  · rw [left_of_eq hrun]
    exact (records_linkAtIndex pl p _).bind (fun _ => records_declare _ _) w hcopied
  · rw [hrefuses.left_eq]
    exact hcopied
  · rw [left_of_eq hrun]
    exact records_linkAtIndex pl p _ w hcopied
  · rw [left_of_eq hrun]
    exact records_appendChild p _ w hcopied
  · rw [left_of_eq hrun]
    cases occupant with
    | none => exact records_linkAtAnchor pl p _ w hcopied
    | some old =>
      rw [linkOver]
      cases ht : w.tree.replace old t.size with
      | ok t' =>
        rw [left_edit_of_ok ht]
        exact ⟨_, h.occupy hpl (hw ▸ ht)⟩
      | error e =>
        rw [left_edit_of_error ht]
        exact hcopied

theorem parentOf_left (pl : Placement) (w : Workpiece) : (parentOf pl).left w = w := by
  cases hp : pl.parent with
  | some p => rw [left, parentOf, hp]; rfl
  | none =>
    cases hi : pl.insertion.parent with
    | existing path => rw [left, parentOf, hp, hi]; rfl
    | inserted node =>
      rw [left, parentOf, hp, hi]
      simp only [copyOf_bind]
      cases w.copies.lookup node <;> rfl

theorem records_place (D : s.destination.Linked) {pl : Placement} (hpl : s.Inserts pl.insertion.node) :
    Records s src (place s.destination pl) := by
  intro w hw
  cases hcopied : w.copies.lookup pl.insertion.node with
  | some c =>
    rw [left, place_run_of_copied s.destination (by rw [hcopied]; rfl)]
    exact hw
  | none =>
    rw [left_of_eq (place_run_of_lookup_eq_none s.destination hcopied)]
    refine (records_of_still (parentOf_left pl)).bind (fun p w' hw' => ?_) w hw
    have hrun : (copyIn s.destination pl.insertion.node >>= link s.destination pl p) w' =
      link s.destination pl p w'.tree.size _ := bind_of_ok rfl
    rw [left_of_eq hrun]
    exact recorded_link D hpl p hw' rfl

theorem records_carryOut (D : s.destination.Linked) {plan : Plan}
    (hplan : plan.MadeOf src s.patches) : Records s src (carryOut s.destination plan) := by
  have henter : ∀ stage, Records s src (enter stage) := fun _ _ hw => hw
  refine (henter _).bind fun _ => ?_
  refine (Records.forM fun n _ => records_delete n).bind fun _ => ?_
  refine (henter _).bind fun _ => ?_
  refine (Records.forM fun q hq => ?_).bind fun _ => ?_
  · obtain ⟨path, hpatch, hold⟩ := hplan.updates q hq
    exact records_update hpatch hold
  refine (henter _).bind fun _ => ?_
  refine (Records.forM fun n _ => records_delete n).bind fun _ => ?_
  refine (Records.forM fun pl hpl => ?_).bind fun _ => ?_
  · obtain ⟨patch, hpatch, hi⟩ := (hplan.placements pl hpl).1
    exact records_place D ⟨patch, hpatch, _, hi, rfl⟩
  exact (henter _).bind fun _ => henter _

end

end Patching

theorem PatchSet.recorded_apply {s : PatchSet} (D : s.destination.Linked) (src : Tree) :
    Recorded s src (s.apply src).tree := by
  have hstart : Recorded s src src := ⟨{}, .start⟩
  rw [apply]
  cases hmake : Plan.make src s.patches with
  | error e => exact hstart
  | ok plan =>
    have hrecorded := Patching.records_carryOut D (Plan.madeOf_make hmake) { tree := src } hstart
    rw [Patching.left] at hrecorded
    simp only [EStateM.run]
    cases hrun : Patching.carryOut s.destination plan { tree := src } <;> rwa [hrun] at hrecorded

/-! ## Origins -/

/-- The position is that of a node of the tree. -/
def Tree.Reports (t : Tree) (position : Position) : Prop :=
  ∃ n < t.size, (t.content n).position = some position

section

variable {t : Tree} {n : NodeId} {position : Position}

theorem Tree.lt_size_of_position (h : (t.content n).position = some position) : n < t.size :=
  lt_size_of_content_ne fun habsent => by
    rw [habsent] at h
    simp [Node.absent] at h

theorem Traced.reports {s : PatchSet} {src : Tree} {l : Ledger} (h : Traced s src t l)
    (hposition : (t.content n).position = some position) :
    src.Reports position ∨ s.destination.Reports position := by
  by_cases hold : n < src.size
  · exact Or.inl ⟨n, hold, h.old n hold ▸ hposition⟩
  · obtain ⟨y, -, hcontent⟩ := h.new n (Nat.le_of_not_lt hold) (Tree.lt_size_of_position hposition)
    rw [hcontent] at hposition
    exact Or.inr ⟨y, Tree.lt_size_of_position hposition, hposition⟩

end

theorem Traced.exists_original {s : PatchSet} {src t : Tree} {l : Ledger} (h : Traced s src t l)
    (hnames : ∀ y, s.Names y → y < s.destination.size) {c : NodeId} (hc : src.size ≤ c) (hlt : c < t.size) :
    ∃ y < s.destination.size, t.content c = l.contentOf t c (s.destination.content y) := by
  obtain ⟨y, hy, hcontent⟩ := h.new c hc hlt
  exact ⟨y, hy.elim id (hnames y), hcontent⟩

/-- **Every node stems from one of the two trees.** Whatever the patches are, and wherever their application
breaks off, the nodes of the source tree are still there with all that they carry, and the others are
copies of destination nodes, which exist if those that the patches name do. A copy has the role of its
original, or of the node in whose place it was put, and the label of its original, or the name of a type
declaration that an update put it in the place of. All positions are thus those of nodes of the two trees. -/
theorem PatchSet.apply_origins {s : PatchSet} (D : s.destination.Linked) (src : Tree) :
    src.size ≤ (s.apply src).tree.size ∧
      (∀ n < src.size, (s.apply src).tree.content n = src.content n) ∧
      (∃ l, History s src (s.apply src).tree l ∧
        (∀ c, src.size ≤ c → c < (s.apply src).tree.size →
          ∃ y, (y < s.destination.size ∨ s.Names y) ∧
            (s.apply src).tree.content c =
              l.contentOf (s.apply src).tree c (s.destination.content y)) ∧
        ((∀ y, s.Names y → y < s.destination.size) →
          ∀ c, src.size ≤ c → c < (s.apply src).tree.size →
            ∃ y < s.destination.size, (s.apply src).tree.content c =
              l.contentOf (s.apply src).tree c (s.destination.content y))) ∧
      ∀ n position, ((s.apply src).tree.content n).position = some position →
        src.Reports position ∨ s.destination.Reports position := by
  obtain ⟨l, h⟩ := s.recorded_apply D src
  have T := h.traced D
  exact ⟨T.size_le, T.old, ⟨l, h, T.new, fun hnames _ hc hlt => T.exists_original hnames hc hlt⟩,
    fun _ _ => T.reports⟩

/-- A class, and one declared in the branch of a conditional, both of the same name. -/
def Tree.ofBranch (file label : String) : Tree :=
  let position (line : Nat) : Option Position := some ⟨file, line, 1⟩
  let name : Rose Content :=
    .node { kind := "identifier", label, role := .slot .name, position := position 2 } []
  ofRose file none <| .node rootContent
    [.node { kind := "class_declaration", label := "", role := .containedType } [name],
      .node { kind := "if_statement", label := "", role := .child }
        [.node { kind := "class_declaration", label := "", role := .slot .consequence } [name]]]

/-- An update of the first class, and the insertion of another one in the branch. -/
def PatchSet.ofBranch (file label : String) : PatchSet where
  destination := Tree.ofBranch file label
  patches :=
    [.update ⟨[⟨.containedType, some 0⟩]⟩ 1,
      .insert
        { index := none, node := 4, role := .slot .consequence, parent := .existing ⟨[⟨.child, some 0⟩]⟩,
          anchor := .start }]

/-- The copy of the updated class, number 6, keeps the name `A`. -/
theorem PatchSet.apply_origins_branch :
    let s := PatchSet.ofBranch "New.java" "B"
    let src := Tree.ofBranch "Prev.java" "A"
    let t := (s.apply src).tree
    s.destination.Linked ∧ (∀ y, s.Names y → y < s.destination.size) ∧ (s.apply src).error = none ∧
      t.size = 10 ∧ t.parent? 6 = some Tree.root ∧ t.simpleName? 6 = some "A" ∧
      (∃ l, History s src t l ∧ ∀ c, src.size ≤ c → c < t.size →
        ∃ y < s.destination.size, t.content c = l.contentOf t c (s.destination.content y)) ∧
      (t.content 7).position = some ⟨"New.java", 2, 1⟩ ∧
      (src.Reports ⟨"New.java", 2, 1⟩ ∨ s.destination.Reports ⟨"New.java", 2, 1⟩) := by
  intro s src t
  have D : s.destination.Linked := Tree.linked_ofRose _ _ _
  have hnames : ∀ y, s.Names y → y < s.destination.size := by
    have hall : ∀ patch ∈ s.patches, ∀ y ∈ patch.node?, y < s.destination.size := by decide +kernel
    rintro y ⟨patch, hpatch, hy⟩
    exact hall patch hpatch y hy
  obtain ⟨-, -, ⟨l, hhistory, -, hcopies⟩, hpositions⟩ := s.apply_origins D src
  have hposition : (t.content 7).position = some ⟨"New.java", 2, 1⟩ := by decide +kernel
  exact ⟨D, hnames, by decide +kernel, by decide +kernel, by decide +kernel, by decide +kernel,
    ⟨l, hhistory, hcopies hnames⟩, hposition, hpositions 7 _ hposition⟩

/-- A copy that an insertion puts in the place of a type declaration does not keep its name: the class in
the branch is `B` now. -/
theorem PatchSet.occupant_renamed :
    let s := PatchSet.ofBranch "New.java" "B"
    let src := Tree.ofBranch "Prev.java" "A"
    let t := (s.apply src).tree
    src.Linked ∧ s.destination.Linked ∧ (s.apply src).error = none ∧
      src.children 3 = [4] ∧ t.children 3 = [8] ∧ Source.isTypeDeclaration (src.kind 4) = true ∧
      src.simpleName? 4 = some "A" ∧ t.simpleName? 4 = some "A" ∧ t.simpleName? 8 = some "B" := by
  intro s src t
  exact ⟨Tree.linked_ofRose _ _ _, Tree.linked_ofRose _ _ _, by decide +kernel, by decide +kernel,
    by decide +kernel, by decide +kernel, by decide +kernel, by decide +kernel, by decide +kernel⟩

end TreePatch
