import TreePatch.Proofs.KeptRows

/-!
# What conversion guarantees

All that the rest of the program relies on in the tree of a source text, for any concrete syntax without
errors: how its nodes are linked and numbered, which roles stand where, and which rows its nodes are made of.

A role that is given below a node suits the kind of that node (`Suits`), whichever row it is given to. So at
every node, the roles below it are in order (`Orderly`), and the tree inherits this from the rose tree that is
converted.
-/

namespace TreePatch.Source

open Document (roleUnder?)

/-! ## Roles -/

/-- Kinds below which all nodes share one role. -/
def isUniform (kind : String) : Bool :=
  kind ∈ ["class_body", "interface_body", "constructor_body", "block", "switch_block", "switch_label",
    "argument_list", "formal_parameters", "type_parameters", "throws"]

/-- The roles of the parts of a source file. -/
def partRoles : List Role :=
  [.packageDeclaration, .imported, .containedType]

/-- What the roles below a node of the kind `parentKind` are like, the root apart. -/
structure Suits (parentKind : String) (role : Role) : Prop where
  part : role ∉ partRoles
  collection : role.isCollection = true → isCollectionKind parentKind = true
  token : isCollectionKind parentKind = true → role ≠ .token
  uniform : isUniform parentKind = true → role = memberRole parentKind ""

theorem isCollectionKind_of_isUniform {kind : String} (h : isUniform kind = true) :
    isCollectionKind kind = true := by
  simp only [isUniform, isCollectionKind, List.mem_cons, List.not_mem_nil, decide_eq_true_eq] at *
  tauto

theorem memberRole_of_isUniform {kind : String} (h : isUniform kind = true) (childKind : String) :
    memberRole kind childKind = memberRole kind "" := by
  simp only [isUniform, List.mem_cons, List.not_mem_nil, or_false, decide_eq_true_eq] at h
  rcases h with rfl | rfl | rfl | rfl | rfl | rfl | rfl | rfl | rfl | rfl <;> rfl

theorem suits_memberRole {parentKind : String} (h : isCollectionKind parentKind = true)
    (childKind : String) : Suits parentKind (memberRole parentKind childKind) where
  part := by
    unfold memberRole partRoles
    split <;> grind
  collection _ := h
  token _ := by
    unfold memberRole
    split <;> grind
  uniform huniform := memberRole_of_isUniform huniform childKind

theorem suits_of_not_isCollectionKind {parentKind : String} {role : Role}
    (h : isCollectionKind parentKind = false) (hpart : role ∉ partRoles)
    (hrole : role.isCollection = false) : Suits parentKind role where
  part := hpart
  collection hcollection := by simp [hrole] at hcollection
  token hcollection := by simp [h] at hcollection
  uniform huniform := by simp [isCollectionKind_of_isUniform huniform] at h

theorem suits_of_roleUnder {parentKind : String} {row : Row} {role : Role}
    (h : roleUnder? parentKind row = some role) : Suits parentKind role := by
  unfold roleUnder? at h
  split at h
  · simp at h
  split at h
  · next hcollection =>
    split at h
    · rw [← Option.some.inj h]
      exact suits_memberRole hcollection _
    · split at h
      · next hmodifiers =>
        obtain rfl := Option.some.inj h
        rw [hmodifiers]
        exact suits_memberRole rfl ""
      · simp at h
  · next hcollection =>
    have hother : ∀ {role}, role ∉ partRoles → role.isCollection = false → Suits parentKind role :=
      suits_of_not_isCollectionKind (Bool.eq_false_iff.mpr hcollection)
    split at h
    · exact Option.some.inj h ▸ hother (by decide) rfl
    · split at h
      · exact Option.some.inj h ▸ hother (by decide) rfl
      · cases hslot : row.field.bind Slot.ofField? with
        | none =>
          rw [hslot] at h
          exact Option.some.inj h ▸ hother (by decide) rfl
        | some slot =>
          rw [hslot] at h
          exact Option.some.inj h ▸ hother (by simp [partRoles]) rfl

/-! ## Converted nodes -/

/-- The roles below a node with the content `c` are in order, and its label is that of a node with nodes
below it. -/
structure Orderly (c : Content) (below : List Content) : Prop where
  part : ∀ b ∈ below, b.role ∈ partRoles → c.role = .root
  collection : ∀ b ∈ below, b.role.isCollection = true → b.role ∉ partRoles →
    isCollectionKind c.kind = true
  token : isCollectionKind c.kind = true → ∀ b ∈ below, b.role ≠ .token
  uniform : isUniform c.kind = true → ∀ b ∈ below, ∀ b' ∈ below, b.role = b'.role
  label : below ≠ [] → c.label ≠ "" → c.kind = "switch_label"

theorem orderly_nil (c : Content) : Orderly c [] where
  part := by simp
  collection := by simp
  token := by simp
  uniform := by simp
  label := by simp

namespace Document

variable {d : Document}

theorem orderly_interior {role : Role} (_ : role ≠ .root) (row : Row) (below : List Concrete) :
    Orderly (d.interior role row below) ((d.convertBelow row.kind below).map Rose.value) := by
  have hsuits : ∀ c ∈ (d.convertBelow row.kind below).map Rose.value, Suits row.kind c.role :=
    fun c hc => by
      obtain ⟨s, hs, rfl⟩ := List.mem_map.mp hc
      obtain ⟨r, -, role', hrole', rfl⟩ := mem_convertBelow hs
      exact (role_convert (d := d) role' r).symm ▸ suits_of_roleUnder hrole'
  exact
    { part := fun c hc hpart => absurd hpart (hsuits c hc).part
      collection := fun c hc hcollection _ => (hsuits c hc).collection hcollection
      token := fun hkind c hc => (hsuits c hc).token hkind
      uniform := fun hkind c hc c' hc' =>
        ((hsuits c hc).uniform hkind).trans ((hsuits c' hc').uniform hkind).symm
      label := fun _ hlabel => by
        by_contra hkind
        exact hlabel (if_neg hkind) }

theorem orderly_convertTop (program : Concrete) :
    (Rose.node Tree.rootContent (d.convertTop program)).Everywhere Orderly := by
  refine everywhere_convertTop orderly_nil orderly_interior ?_
  exact
    { part := fun _ _ _ => rfl
      collection := fun c hc hcollection hpart => by
        have hrole := role_of_mem_convertTop hc
        simp only [partRoles, List.mem_cons, List.not_mem_nil, or_false, not_or] at hrole hpart
        obtain hrole : c.role = .child := by tauto
        simp [hrole, Role.isCollection] at hcollection
      token := fun hkind => absurd hkind (by decide)
      uniform := fun hkind => absurd hkind (by decide)
      label := fun _ hlabel => absurd rfl hlabel }

end Document

/-! ## Trees -/

theorem FormedTree.isAttached {t : Tree} (h : FormedTree t) {n : NodeId} (hn : n < t.size) :
    t.isAttached n = true := by
  induction n using h.linked.forest.induction_up with
  | step n ih =>
    by_cases hroot : n = Tree.root
    · exact hroot ▸ Tree.Linked.isAttached_root
    · obtain ⟨p, hp⟩ := h.parent n hn hroot
      exact (h.linked.isAttached_of_parent hp).mpr (ih p hp (h.linked.parent_lt hp))

theorem FormedTree.role_eq_root_iff {t : Tree} (h : FormedTree t) {n : NodeId} (hn : n < t.size) :
    t.role n = .root ↔ n = Tree.root := by
  constructor
  · intro hrole
    by_contra hroot
    obtain ⟨p, hp⟩ := h.parent n hn hroot
    exact h.role_ne_root hp hrole
  · rintro rfl
    exact h.rooted.root_role

/-- What can be relied on in the tree `t` of the concrete syntax `program`. -/
structure Guaranteed (program : Concrete) (t : Tree) : Prop where
  linked : t.Linked
  attached : ∀ n < t.size, t.isAttached n = true
  preorder : t.depthFirst Tree.root = List.range t.size
  inSync : t.InSync
  root_role : ∀ n < t.size, t.role n = .root ↔ n = Tree.root
  part : ∀ n < t.size, t.role n ∈ partRoles → t.parent? n = some Tree.root
  collection : ∀ n < t.size, (t.role n).isCollection = true → t.role n ∉ partRoles →
    ∃ p, t.parent? n = some p ∧ isCollectionKind (t.kind p) = true
  token : ∀ {n p}, t.parent? n = some p → isCollectionKind (t.kind p) = true → t.role n ≠ .token
  uniform : ∀ {m n p}, t.parent? m = some p → t.parent? n = some p → isUniform (t.kind p) = true →
    t.role m = t.role n
  label : ∀ n, t.children n ≠ [] → t.label n ≠ "" → t.kind n = "switch_label"
  root_explicit : t.isImplicit Tree.root = false
  made : ∃ origin, MadeFrom program origin t

theorem FormedTree.guaranteed {program : Concrete} {t : Tree} (h : FormedTree t)
    (hpreorder : t.depthFirst Tree.root = List.range t.size)
    (horderly : ∀ n < t.size, Orderly (t.content n) ((t.children n).map t.content))
    (hmade : ∃ origin, MadeFrom program origin t) : Guaranteed program t := by
  have L := h.linked
  have hbelow : ∀ {n p}, t.parent? n = some p →
      Orderly (t.content p) ((t.children p).map t.content) ∧
        t.content n ∈ (t.children p).map t.content := fun {n p} hp =>
    ⟨horderly p (L.parent_lt hp), List.mem_map.mpr ⟨n, L.mem_children.mpr hp, rfl⟩⟩
  have hparent : ∀ n < t.size, t.role n ≠ .root → ∃ p, t.parent? n = some p := fun n hn hrole =>
    h.parent n hn fun hroot => hrole ((h.role_eq_root_iff hn).mpr hroot)
  exact
    { linked := L
      attached := fun n => h.isAttached
      preorder := hpreorder
      inSync := h.inSync
      root_role := fun n => h.role_eq_root_iff
      part := fun n hn hpart => by
        obtain ⟨p, hp⟩ := hparent n hn fun hroot => by simp [hroot, partRoles] at hpart
        have hroot : t.role p = .root := (hbelow hp).1.part _ (hbelow hp).2 hpart
        rw [hp, (h.role_eq_root_iff (L.parent_lt hp)).mp hroot]
      collection := fun n hn hcollection hpart => by
        obtain ⟨p, hp⟩ := hparent n hn fun hroot => by simp [hroot, Role.isCollection] at hcollection
        exact ⟨p, hp, (hbelow hp).1.collection _ (hbelow hp).2 hcollection hpart⟩
      token := fun hp hkind => (hbelow hp).1.token hkind _ (hbelow hp).2
      uniform := fun hm hn hkind => (hbelow hm).1.uniform hkind _ (hbelow hm).2 _ (hbelow hn).2
      label := fun n hne => by
        obtain ⟨c, hc⟩ := List.exists_mem_of_ne_nil _ hne
        exact (horderly n (t.lt_size_of_mem_children hc)).label (by simpa using hne)
      root_explicit := congrArg Content.implicit h.root
      made := hmade }

/-- **What conversion guarantees.** A source text without syntax errors has a tree, which is numbered in
preorder, keeps roles where they belong and is made of the rows that are not dropped. -/
theorem parse_guarantees {rows : List Row} {program : Concrete}
    (hprogram : Concrete.ofRows? rows = some program) (hrows : ∀ row ∈ rows, row.faulty = false)
    (name file text : String) : ∃ t, parse name file text rows = .ok t ∧ Guaranteed program t := by
  obtain ⟨t, ht⟩ := exists_parse hrows name file text
  have heq := eq_ofRose_of_parse hprogram ht
  refine ⟨t, ht, (formedTree_of_parse ht).2.guaranteed ?_ ?_ ⟨_, madeFrom_ofRose heq⟩⟩
  · rw [heq]
    exact Tree.depthFirst_ofRose _ _ _
  · rw [heq]
    exact fun n hn => Tree.everywhere_ofRose (Document.orderly_convertTop program) hn

/-- The concrete syntax of a class with a comment and a field, after which the parser supplied the
semicolon. -/
def unfinished : Concrete :=
  let row (depth : Nat) (kind : String) (field : Option String) (first last : Nat) : Row :=
    { depth, kind, named := true, extra := false, missing := false, faulty := false, field, line := 0,
      column := first, startByte := first, endByte := last }
  let token (depth : Nat) (kind : String) (first last : Nat) : Row :=
    { row depth kind none first last with named := false }
  .node (row 0 "program" none 0 23)
    [.node (row 1 "class_declaration" none 0 23)
      [.node (token 2 "class" 0 5) [],
        .node (row 2 "identifier" "name" 6 7) [],
        .node (row 2 "class_body" "body" 8 23)
          [.node (token 3 "\x7b" 8 9) [],
            .node { row 3 "block_comment" none 10 17 with extra := true } [],
            .node (row 3 "field_declaration" none 18 21)
              [.node (row 4 "type_identifier" "type" 18 19) [],
                .node (row 4 "variable_declarator" "declarator" 20 21)
                  [.node (row 5 "identifier" "name" 20 21) []],
                .node { token 4 ";" 21 21 with missing := true } []],
            .node (token 3 "\x7d" 22 23) []]]]

/-- The semicolon is kept; the comment and the braces are dropped. -/
theorem parse_guarantees_unfinished :
    Concrete.ofRows? unfinished.preorder = some unfinished ∧
      (∀ row ∈ unfinished.preorder, row.faulty = false) ∧
        (∃ t, parse "C" "C.java" "class C \x7b /* f */ F f \x7d" unfinished.preorder = .ok t ∧
          Guaranteed unfinished t) ∧
        unfinished.kept = [0, 1, 2, 3, 4, 7, 8, 9, 10, 11] := by
  have hprogram : Concrete.ofRows? unfinished.preorder = some unfinished := rfl
  have hrows : ∀ row ∈ unfinished.preorder, row.faulty = false := by decide
  exact ⟨hprogram, hrows, parse_guarantees hprogram hrows _ _ _, by decide⟩

end TreePatch.Source
