import Mathlib.Data.List.TakeDrop
import TreePatch.Outline
import TreePatch.Proofs.Edit
import TreePatch.Proofs.Path
import TreePatch.Source.Parse

/-!
# Trees of source texts

What conversion ensures of a tree, whatever the concrete syntax is: top-level types stand below the root
only, and the types of a `throws` clause and the expressions of a `case` label stand among themselves. If
no token was supplied by the parser, no node is implicit, and fixed punctuation has nothing below it.
-/

namespace TreePatch

/-! ## Listings -/

namespace Rose

variable {α : Type}

theorem preorder_gather (depth : α → Nat) (a : α) (pending : List (Nat × Rose α)) :
    preorderAll ((gather depth a pending).map (·.2)) = a :: preorderAll (pending.map (·.2)) := by
  have happend : preorderAll ((pending.takeWhile fun p => decide (depth a < p.1)).map (·.2)) ++
      preorderAll ((pending.dropWhile fun p => decide (depth a < p.1)).map (·.2)) =
        preorderAll (pending.map (·.2)) := by
    rw [preorderAll_eq_flatMap, preorderAll_eq_flatMap, preorderAll_eq_flatMap, ← List.flatMap_append,
      ← List.map_append, List.takeWhile_append_dropWhile]
  rw [gather, List.span_eq_takeWhile_dropWhile]
  simp only [List.map_cons, preorderAll, preorder, List.cons_append]
  rw [happend]

theorem preorderAll_ofDepths (depth : α → Nat) (items : List α) :
    preorderAll (ofDepths depth items) = items := by
  rw [ofDepths]
  induction items with
  | nil => rfl
  | cons a items ih => rw [List.foldr_cons, preorder_gather, ih]

theorem mem_preorder_of_child {r s : Rose α} {a : α} (hs : s ∈ r.children) (ha : a ∈ s.preorder) :
    a ∈ r.preorder := by
  cases r with
  | node b rs =>
    rw [preorder, preorderAll_eq_flatMap]
    exact List.mem_cons_of_mem _ (List.mem_flatMap.mpr ⟨s, hs, ha⟩)

/-- Every node stands in the relation `Q` to the nodes directly below it. -/
inductive Everywhere (Q : α → List α → Prop) : Rose α → Prop
  | node {a : α} {rs : List (Rose α)} (top : Q a (rs.map value))
      (below : ∀ r ∈ rs, Everywhere Q r) : Everywhere Q (.node a rs)

namespace Everywhere

variable {Q : α → List α → Prop}

theorem top {r : Rose α} (h : r.Everywhere Q) : Q r.value (r.children.map value) := by
  cases h with
  | node top _ => exact top

theorem children {a : α} {rs : List (Rose α)} (h : (Rose.node a rs).Everywhere Q) :
    ∀ r ∈ rs, r.Everywhere Q := by
  cases h with
  | node _ below => exact below

end Everywhere

end Rose

theorem Source.Concrete.mem_of_mem_preorder {rows : List Source.Row} {program : Source.Concrete}
    (h : Source.Concrete.ofRows? rows = some program) {row : Source.Row}
    (hrow : row ∈ program.preorder) : row ∈ rows := by
  have hmem : program ∈ Rose.ofDepths Source.Row.depth rows := List.mem_of_head? h
  rw [← Rose.preorderAll_ofDepths Source.Row.depth rows, Rose.preorderAll_eq_flatMap]
  exact List.mem_flatMap.mpr ⟨program, hmem, hrow⟩

namespace Source

/-! ## Conversion -/

/-- What conversion ensures at a node with the content `c` above nodes with the contents `below`. -/
structure Formed (c : Content) (below : List Content) : Prop where
  role_ne_root : ∀ d ∈ below, d.role ≠ .root
  contained : ∀ d ∈ below, d.role = .containedType → c.role = .root
  token : c.role = .root → ∀ d ∈ below, d.role ≠ .token
  thrown : ∀ d ∈ below, ∀ d' ∈ below, d.role = .thrown → d'.role = .thrown
  cases : ∀ d ∈ below, ∀ d' ∈ below, d.role = .caseExpression → d'.role = .caseExpression
  label : below ≠ [] → c.label ∈ ["", "case", "default"]
  type_label : below ≠ [] → isTypeDeclaration c.kind = true → c.label = ""

theorem formed_nil (c : Content) : Formed c [] where
  role_ne_root := by simp
  contained := by simp
  token := by simp
  thrown := by simp
  cases := by simp
  label := by simp
  type_label := by simp

namespace Document

variable {d : Document}

/-- A role that is given below a node of the kind `parentKind`. -/
def Gives (parentKind : String) (role : Role) : Prop :=
  role ≠ .root ∧ role ≠ .containedType ∧ (role = .thrown ↔ parentKind = "throws") ∧
    (role = .caseExpression ↔ parentKind = "switch_label")

theorem gives_memberRole (parentKind childKind : String) :
    Gives parentKind (memberRole parentKind childKind) := by
  unfold memberRole
  split <;> grind [Gives]

theorem gives_of_roleUnder {parentKind : String} {row : Row} {role : Role}
    (h : roleUnder? parentKind row = some role) : Gives parentKind role := by
  unfold roleUnder? at h
  split at h
  · simp at h
  split at h
  · split at h
    · rw [← Option.some.inj h]
      exact gives_memberRole _ _
    · split at h
      · next hmodifiers =>
        rw [← Option.some.inj h, Gives, hmodifiers]
        simp
      · simp at h
  · next hcollection =>
    have hthrows : parentKind ≠ "throws" := fun heq => hcollection (heq ▸ rfl)
    have hlabel : parentKind ≠ "switch_label" := fun heq => hcollection (heq ▸ rfl)
    have hrole : ∀ slot : Option Slot, Gives parentKind ((slot.map Role.slot).getD .child) := by
      rintro (_ | slot) <;> simp [Gives, hthrows, hlabel]
    split at h
    · simp [← Option.some.inj h, Gives, hthrows, hlabel]
    · split at h
      · simp [← Option.some.inj h, Gives, hthrows, hlabel]
      · exact Option.some.inj h ▸ hrole _

theorem role_convert (role : Role) (r : Concrete) : (d.convert role r).value.role = role := by
  cases r with
  | node row below =>
    rw [convert]
    split
    · rw [Rose.value, leaf]
      split <;> rfl
    · rfl

/-- The nodes made of the concrete subtrees that `role?` gives a role. -/
def convertAmong (d : Document) (role? : Row → Option Role) (rs : List Concrete) : List (Rose Content) :=
  rs.filterMap fun r => (role? r.value).map fun role => d.convert role r

theorem convertBelow_eq_among (parentKind : String) (rs : List Concrete) :
    d.convertBelow parentKind rs = d.convertAmong (roleUnder? parentKind) rs := by
  induction rs with
  | nil => rfl
  | cons r rs ih =>
    rw [convertBelow, convertAmong, List.filterMap_cons]
    cases roleUnder? parentKind r.value with
    | none => exact ih
    | some role => exact congrArg _ ih

theorem mem_convertBelow {parentKind : String} {rs : List Concrete} {s : Rose Content}
    (h : s ∈ d.convertBelow parentKind rs) :
    ∃ r ∈ rs, ∃ role, roleUnder? parentKind r.value = some role ∧ s = d.convert role r := by
  rw [convertBelow_eq_among, convertAmong, List.mem_filterMap] at h
  obtain ⟨r, hr, hs⟩ := h
  obtain ⟨role, hrole, rfl⟩ := Option.map_eq_some_iff.mp hs
  exact ⟨r, hr, role, hrole, rfl⟩

theorem formed_interior {role : Role} (hrole : role ≠ .root) (row : Row) (below : List Concrete) :
    Formed (d.interior role row below) ((d.convertBelow row.kind below).map Rose.value) := by
  have hbelow : ∀ c ∈ (d.convertBelow row.kind below).map Rose.value, Gives row.kind c.role :=
    fun c hc => by
      obtain ⟨s, hs, rfl⟩ := List.mem_map.mp hc
      obtain ⟨r, hr, role', hrole', rfl⟩ := mem_convertBelow hs
      exact (role_convert (d := d) role' r).symm ▸ gives_of_roleUnder hrole'
  exact
    { role_ne_root := fun c hc => (hbelow c hc).1
      contained := fun c hc hcontained => absurd hcontained (hbelow c hc).2.1
      token := fun hroot => absurd hroot hrole
      thrown := fun c hc c' hc' hthrown =>
        (hbelow c' hc').2.2.1.mpr ((hbelow c hc).2.2.1.mp hthrown)
      cases := fun c hc c' hc' hcase => (hbelow c' hc').2.2.2.mpr ((hbelow c hc).2.2.2.mp hcase)
      label := fun _ => by
        rw [interior, interiorLabel]
        split
        · split <;> simp
        · simp
      type_label := fun _ hkind => by
        rw [interior, interiorLabel, if_neg]
        rintro heq
        rw [interior, heq] at hkind
        simp [isTypeDeclaration] at hkind }

mutual

/-- What holds of leaves, and of interior nodes with what is converted below them, holds in all that is
converted. -/
theorem everywhere_convert {Q : Content → List Content → Prop} (hleaf : ∀ c, Q c [])
    (hinterior : ∀ {role : Role}, role ≠ .root → ∀ row below,
      Q (d.interior role row below) ((d.convertBelow row.kind below).map Rose.value))
    {role : Role} (hrole : role ≠ .root) : ∀ r : Concrete, (d.convert role r).Everywhere Q
  | .node row below => by
    rw [convert]
    split
    · exact .node (hleaf _) (by simp)
    · exact .node (hinterior hrole row below) (everywhere_convertBelow hleaf hinterior row.kind below)

theorem everywhere_convertBelow {Q : Content → List Content → Prop} (hleaf : ∀ c, Q c [])
    (hinterior : ∀ {role : Role}, role ≠ .root → ∀ row below,
      Q (d.interior role row below) ((d.convertBelow row.kind below).map Rose.value))
    (parentKind : String) : ∀ rs : List Concrete, ∀ s ∈ d.convertBelow parentKind rs, s.Everywhere Q
  | [] => by simp [convertBelow]
  | r :: rs => by
    have hrest := everywhere_convertBelow hleaf hinterior parentKind rs
    rw [convertBelow]
    cases hrole : roleUnder? parentKind r.value with
    | none => exact hrest
    | some role =>
      intro s hs
      rcases List.mem_cons.mp hs with rfl | hs
      · exact everywhere_convert hleaf hinterior (gives_of_roleUnder hrole).1 r
      · exact hrest s hs

end

mutual

theorem explicit_convert (role : Role) : ∀ r : Concrete, (∀ row ∈ r.preorder, row.missing = false) →
    (d.convert role r).Everywhere fun c _ => c.implicit = false
  | .node row below, hmissing => by
    rw [Rose.preorder] at hmissing
    have hrow := hmissing row List.mem_cons_self
    rw [convert]
    split
    · exact .node (by simp [leaf, hrow]) (by simp)
    · exact .node hrow (explicit_convertBelow row.kind below fun row' hrow' =>
        hmissing row' (List.mem_cons_of_mem _ hrow'))

theorem explicit_convertBelow (parentKind : String) : ∀ rs : List Concrete,
    (∀ row ∈ Rose.preorderAll rs, row.missing = false) →
      ∀ s ∈ d.convertBelow parentKind rs, s.Everywhere fun c _ => c.implicit = false
  | [], _ => by simp [convertBelow]
  | r :: rs, hmissing => by
    rw [Rose.preorderAll] at hmissing
    have hrest := explicit_convertBelow parentKind rs fun row hrow =>
      hmissing row (List.mem_append_right _ hrow)
    rw [convertBelow]
    cases hrole : roleUnder? parentKind r.value with
    | none => exact hrest
    | some role =>
      intro s hs
      rcases List.mem_cons.mp hs with rfl | hs
      · exact explicit_convert role r fun row hrow => hmissing row (List.mem_append_left _ hrow)
      · exact hrest s hs

end

theorem topLevelRole_cases (kind : String) :
    topLevelRole kind ∈ [.packageDeclaration, .imported, .containedType, .child] := by
  unfold topLevelRole
  split
  · simp
  split
  · simp
  split <;> simp

theorem exists_of_mem_convertTop {program : Concrete} {s : Rose Content}
    (hs : s ∈ d.convertTop program) :
    ∃ r ∈ program.children, s = d.convert (topLevelRole r.value.kind) r := by
  obtain ⟨r, hr, rfl⟩ := List.mem_map.mp hs
  exact ⟨r, List.mem_of_mem_filter hr, rfl⟩

theorem role_of_mem_convertTop {program : Concrete} {c : Content}
    (hc : c ∈ (d.convertTop program).map Rose.value) :
    c.role ∈ [.packageDeclaration, .imported, .containedType, .child] := by
  obtain ⟨s, hs, rfl⟩ := List.mem_map.mp hc
  obtain ⟨r, -, rfl⟩ := exists_of_mem_convertTop hs
  exact (role_convert (d := d) _ r).symm ▸ topLevelRole_cases _

theorem everywhere_convertTop {Q : Content → List Content → Prop} (hleaf : ∀ c, Q c [])
    (hinterior : ∀ {role : Role}, role ≠ .root → ∀ row below,
      Q (d.interior role row below) ((d.convertBelow row.kind below).map Rose.value))
    {program : Concrete} (htop : Q Tree.rootContent ((d.convertTop program).map Rose.value)) :
    (Rose.node Tree.rootContent (d.convertTop program)).Everywhere Q := by
  refine .node htop fun s hs => ?_
  obtain ⟨r, -, rfl⟩ := exists_of_mem_convertTop hs
  refine everywhere_convert hleaf hinterior (fun hroot => ?_) r
  have hmem := topLevelRole_cases r.value.kind
  simp [hroot] at hmem

theorem formed_convertTop (program : Concrete) :
    (Rose.node Tree.rootContent (d.convertTop program)).Everywhere Formed := by
  have hne : ∀ {R : Role}, R ∉ [.packageDeclaration, .imported, .containedType, .child] →
      ∀ c ∈ (d.convertTop program).map Rose.value, c.role ≠ R := fun hR c hc heq =>
    hR (heq ▸ role_of_mem_convertTop hc)
  refine everywhere_convertTop formed_nil formed_interior ?_
  exact
    { role_ne_root := hne (by simp)
      contained := fun _ _ _ => rfl
      token := fun _ => hne (by simp)
      thrown := fun c hc _ _ hthrown => absurd hthrown (hne (by simp) c hc)
      cases := fun c hc _ _ hcase => absurd hcase (hne (by simp) c hc)
      label := fun _ => by simp [Tree.rootContent]
      type_label := fun _ _ => rfl }

end Document

end Source

/-! ## Trees -/

theorem Tree.everywhere_ofRose {Q : Content → List Content → Prop} {name : String}
    {file : Option String} {r : Rose Content} (h : r.Everywhere Q) {n : NodeId}
    (hn : n < (ofRose name file r).size) :
    Q ((ofRose name file r).content n)
      (((ofRose name file r).children n).map (ofRose name file r).content) := by
  have N := numbered_ofRose name file r
  rw [size_ofRose] at hn
  obtain ⟨s, hs, hQ, -⟩ := N.exists_laid (P := Rose.Everywhere Q) (fun _ _ h => h.children) h hn
  have hcontent : (ofRose name file r).content n = s.value := by
    rw [content, hs.get_eq]
  have hchildren : ((ofRose name file r).children n).map (ofRose name file r).content =
      s.children.map Rose.value := by
    have hkids : (ofRose name file r).children n = Rose.topIds (n + 1) s.children := N.kids_of_laid hs
    have hvalues := hs.children.imp fun c s' (hc : Rose.Laid _ _ c _ s') =>
      (by rw [content, hc.get_eq] : (ofRose name file r).content c = s'.value)
    rw [hkids, ← List.forall₂_eq_eq_eq, List.forall₂_map_left_iff, List.forall₂_map_right_iff]
    exact hvalues
  rw [hcontent, hchildren]
  exact hQ.top

/-- What conversion ensures of a tree without implicit nodes. -/
structure Tree.Converted (t : Tree) : Prop extends t.Regular where
  punctuation : ∀ {n p}, t.parent? n = some p → t.isIgnored n = true → t.children n = [] ∧ p ≠ root
  type_label : ∀ {n}, Source.isTypeDeclaration (t.kind n) = true → t.children n = [] ∨ t.label n = ""
  cases : ∀ {n n' p}, t.parent? n = some p → t.parent? n' = some p → t.role n = .caseExpression →
    t.role n' = .caseExpression

namespace Source

/-- A tree under the root that every tree starts with, in which every node is as conversion makes it. -/
structure FormedTree (t : Tree) : Prop where
  linked : t.Linked
  root : t.content Tree.root = Tree.rootContent
  inSync : t.InSync
  parent : ∀ n < t.size, n ≠ Tree.root → ∃ p, t.parent? n = some p
  formed : ∀ n < t.size, Formed (t.content n) ((t.children n).map t.content)

namespace FormedTree

variable {t : Tree} (h : FormedTree t)

include h

theorem of_parent {n p : NodeId} (hp : t.parent? n = some p) :
    Formed (t.content p) ((t.children p).map t.content) ∧
      t.content n ∈ (t.children p).map t.content :=
  ⟨h.formed p (h.linked.parent_lt hp), List.mem_map.mpr ⟨n, h.linked.mem_children.mpr hp, rfl⟩⟩

theorem of_children {n : NodeId} (hne : t.children n ≠ []) :
    Formed (t.content n) ((t.children n).map t.content) ∧ (t.children n).map t.content ≠ [] := by
  obtain ⟨c, hc⟩ := List.exists_mem_of_ne_nil _ hne
  exact ⟨h.formed n (t.lt_size_of_mem_children hc), by simpa using hne⟩

theorem role_ne_root {n p : NodeId} (hp : t.parent? n = some p) : t.role n ≠ .root :=
  (h.of_parent hp).1.role_ne_root _ (h.of_parent hp).2

theorem rooted : t.Rooted where
  linked := h.linked
  root_kind := congrArg Content.kind h.root
  root_label := congrArg Content.label h.root
  root_role := congrArg Content.role h.root
  inSync := h.inSync
  role_ne_root := h.role_ne_root
  thrown hp hp' := (h.of_parent hp).1.thrown _ (h.of_parent hp).2 _ (h.of_parent hp').2
  contained {n p} hp hcontained := by
    by_contra hne
    obtain ⟨p', hp'⟩ := h.parent p (h.linked.parent_lt hp) hne
    exact h.role_ne_root hp' ((h.of_parent hp).1.contained _ (h.of_parent hp).2 hcontained)

theorem converted (hexplicit : ∀ n, t.isImplicit n = false) : t.Converted :=
  { h.rooted with
    explicit := fun _ _ => hexplicit _
    cases := fun hp hp' => (h.of_parent hp).1.cases _ (h.of_parent hp).2 _ (h.of_parent hp').2
    punctuation := fun {n p} hp hignored => by
      rw [Tree.isIgnored, hexplicit, Bool.false_or, Bool.and_eq_true, beq_iff_eq] at hignored
      constructor
      · by_contra hne
        obtain ⟨hn, hne⟩ := h.of_children hne
        have hlabel : t.label n ∈ ["", "case", "default"] := hn.label hne
        have hfixed := hignored.2
        simp only [List.mem_cons, List.not_mem_nil, or_false] at hlabel
        rcases hlabel with hlabel | hlabel | hlabel <;>
          simp [hlabel, fixedPunctuation] at hfixed
      · rintro rfl
        exact (h.of_parent hp).1.token (congrArg Content.role h.root) _ (h.of_parent hp).2 hignored.1
    type_label := fun {n} hkind => by
      by_cases hnil : t.children n = []
      · exact Or.inl hnil
      · obtain ⟨hn, hne⟩ := h.of_children hnil
        exact Or.inr (hn.type_label hne hkind) }

end FormedTree

theorem exists_ofRose_of_parse {name file text : String} {rows : List Row} {t : Tree}
    (h : parse name file text rows = .ok t) :
    ∃ top, t = Tree.ofRose name file (.node Tree.rootContent top) ∧
      (top = [] ∨ ∃ program, Concrete.ofRows? rows = some program ∧
        top = (Document.ofText file text).convertTop program) := by
  rw [parse] at h
  split at h
  · simp at h
  · obtain rfl := Except.ok.inj h
    refine ⟨_, rfl, ?_⟩
    cases hrows : Concrete.ofRows? rows with
    | none => exact Or.inl rfl
    | some program => exact Or.inr ⟨program, rfl, rfl⟩

theorem eq_ofRose_of_parse {name file text : String} {rows : List Row} {program : Concrete}
    (hrows : Concrete.ofRows? rows = some program) {t : Tree} (ht : parse name file text rows = .ok t) :
    t = Tree.ofRose name file
      (.node Tree.rootContent ((Document.ofText file text).convertTop program)) := by
  rw [parse] at ht
  split at ht
  · simp at ht
  · rw [hrows] at ht
    exact (Except.ok.inj ht).symm

theorem exists_parse {rows : List Row} (h : ∀ row ∈ rows, row.faulty = false)
    (name file text : String) : ∃ t, parse name file text rows = .ok t := by
  have hfind : rows.find? Row.faulty = none :=
    List.find?_eq_none.mpr fun row hrow => by simp [h row hrow]
  rw [parse, hfind]
  exact ⟨_, rfl⟩

/-- **The tree of a source text is as conversion makes it.** -/
theorem formedTree_of_parse {name file text : String} {rows : List Row} {t : Tree}
    (h : parse name file text rows = .ok t) : t.name = name ∧ FormedTree t := by
  obtain ⟨top, rfl, htop⟩ := exists_ofRose_of_parse h
  have hformed : (Rose.node Tree.rootContent top).Everywhere Formed := by
    rcases htop with rfl | ⟨program, -, rfl⟩
    · exact .node (formed_nil _) (by simp)
    · exact Document.formed_convertTop program
  have N := Tree.numbered_ofRose name file (.node Tree.rootContent top)
  refine ⟨rfl, Tree.linked_ofRose _ _ _, ?_, Tree.inSync_ofRose _ _ _, fun n hn hne => ?_,
    fun n hn => Tree.everywhere_ofRose hformed hn⟩
  · rw [Tree.content, N.laid.get_eq]
    rfl
  · rw [Tree.size_ofRose] at hn
    obtain ⟨s, -, -, -, ⟨rfl, -⟩ | ⟨p, -, hp, -⟩⟩ := N.exists_laid (P := fun _ => True)
      (fun _ _ _ _ _ => trivial) trivial hn
    · exact absurd rfl hne
    · exact ⟨p, hp⟩

theorem explicit_of_parse {name file text : String} {rows : List Row} {t : Tree}
    (h : parse name file text rows = .ok t) (hmissing : ∀ row ∈ rows, row.missing = false)
    (n : NodeId) : t.isImplicit n = false := by
  obtain ⟨top, rfl, htop⟩ := exists_ofRose_of_parse h
  have hexplicit : (Rose.node Tree.rootContent top).Everywhere fun c _ => c.implicit = false := by
    refine .node rfl fun s hs => ?_
    rcases htop with rfl | ⟨program, hrows, rfl⟩
    · simp at hs
    · obtain ⟨r, hr, rfl⟩ := Document.exists_of_mem_convertTop hs
      exact Document.explicit_convert _ r fun row hrow => hmissing row
        (Concrete.mem_of_mem_preorder hrows (Rose.mem_preorder_of_child hr hrow))
  by_cases hn : n < (Tree.ofRose name file (.node Tree.rootContent top)).size
  · exact Tree.everywhere_ofRose hexplicit hn
  · rw [Tree.isImplicit, Tree.node_of_size_le _ (Nat.not_lt.mp hn)]
    rfl

/-! ## Sketches -/

/-- A node of concrete syntax without its place. A token has a text, which is the kind of an anonymous
one. -/
structure Word where
  kind : String
  field : Option String
  text : String

/-- Concrete syntax without places. -/
abbrev Sketch := Rose Word

namespace Sketch

/-- A token. -/
def leaf (kind : String) (field : Option String) (text : String) : Sketch :=
  .node ⟨kind, field, text⟩ []

/-- The text that is sketched: its tokens with blanks between them. -/
def text (s : Sketch) : String :=
  " ".intercalate ((s.preorder.map Word.text).filter (· != ""))

mutual

/-- The rows of a sketch whose text starts at the byte `start`. -/
def rows (depth start : Nat) : Sketch → List Row
  | .node w below =>
    { depth, kind := w.kind, named := w.kind != w.text, extra := false, missing := false,
      faulty := false, field := w.field, line := 0, column := start, startByte := start,
      endByte := start + (text (.node w below)).utf8ByteSize } :: rowsAll (depth + 1) start below

/-- `rows` on consecutive sketches. -/
def rowsAll (depth start : Nat) : List Sketch → List Row
  | [] => []
  | s :: rest => rows depth start s ++ rowsAll depth (start + s.text.utf8ByteSize + 1) rest

end

mutual

theorem whole_rows (depth start : Nat) : ∀ s : Sketch,
    ∀ row ∈ s.rows depth start, row.missing = false ∧ row.faulty = false
  | .node w below => by
    rw [rows, List.forall_mem_cons]
    exact ⟨⟨rfl, rfl⟩, whole_rowsAll (depth + 1) start below⟩

theorem whole_rowsAll (depth start : Nat) : ∀ ss : List Sketch,
    ∀ row ∈ rowsAll depth start ss, row.missing = false ∧ row.faulty = false
  | [] => by simp [rowsAll]
  | s :: rest => by
    rw [rowsAll, List.forall_mem_append]
    exact ⟨whole_rows depth start s, whole_rowsAll depth _ rest⟩

end

/-- The tree of the sketched text. -/
def tree (name : String) (s : Sketch) : Tree :=
  (parse name name s.text (s.rows 0 0)).toOption.getD (.bare name)

theorem parse_eq_tree (name : String) (s : Sketch) :
    parse name name s.text (s.rows 0 0) = .ok (s.tree name) := by
  obtain ⟨t, ht⟩ := exists_parse (fun row hrow => (whole_rows 0 0 s row hrow).2) name name s.text
  rw [tree, ht]
  rfl

theorem explicit_tree (name : String) (s : Sketch) (n : NodeId) : (s.tree name).isImplicit n = false :=
  explicit_of_parse (parse_eq_tree name s) (fun row hrow => (whole_rows 0 0 s row hrow).1) n

/-- A class with the given modifiers and fields, each field with its initial value. -/
def ofClass (modifiers : List Sketch) (fields : List (String × Sketch)) : Sketch :=
  let field : String × Sketch → Sketch := fun (name, value) =>
    .node ⟨"field_declaration", none, ""⟩
      [leaf "type_identifier" "type" "F", .node ⟨"variable_declarator", "declarator", ""⟩
        [leaf "identifier" "name" name, leaf "=" none "=", value], leaf ";" none ";"]
  .node ⟨"program", none, ""⟩ [.node ⟨"class_declaration", none, ""⟩
    ((if modifiers.isEmpty then [] else [.node ⟨"modifiers", none, ""⟩ modifiers]) ++
      [leaf "class" none "class", leaf "identifier" "name" "C", .node ⟨"class_body", "body", ""⟩
        (leaf "\x7b" none "\x7b" :: fields.map field ++ [leaf "\x7d" none "\x7d"])])]

/-- A class with the given fields. -/
def ofFields (fields : List (String × Sketch)) : Sketch :=
  ofClass [] fields

/-- The cast of `c` to the intersection of two types. -/
def cast (left right : String) : Sketch :=
  .node ⟨"cast_expression", "value", ""⟩ [leaf "(" none "(", leaf "type_identifier" "type" left,
    leaf "&" none "&", leaf "type_identifier" "type" right, leaf ")" none ")",
    leaf "identifier" "value" "c"]

end Sketch

end Source

end TreePatch
