import TreePatch.Proofs.Converted
import TreePatch.Proofs.Mirror
import TreePatch.Proofs.Tokens

/-!
# What a source text prints as

The tokens that a converted source text prints as, read off its concrete syntax: every node prints its
kept children, arranged as its kind requires, and of the top-level nodes first the package declaration,
then the imports and then the types are printed.
-/

namespace TreePatch

open Layout

theorem Layout.parts_eq_map (kind : String) (rs : List (Rose Content)) :
    parts kind rs = rs.map fun r => ⟨r.value.role, items kind r⟩ := by
  induction rs with
  | nil => rfl
  | cons r rs ih => rw [parts, ih, List.map_cons]

/-! ## Trees -/

namespace Tree

theorem tokens_programItems (t : Tree) (types : List NodeId) :
    tokens (t.programItems types) = (t.header ++ types).flatMap fun id => tokens (t.itemsOf id) := by
  have hblank : tokens (if t.header.isEmpty || types.isEmpty then [] else [.blankLine]) = [] := by
    split <;> rfl
  have htypes : tokens ((types.map fun id => t.itemsOf id ++ [.newline]).intersperse [.blankLine]).flatten =
      types.flatMap fun id => tokens (t.itemsOf id) := by
    rw [tokens_flatten, map_intersperse, List.map_map]
    exact (flatten_intersperse_nil _).trans (by simp [List.flatMap_def, Function.comp_def])
  rw [programItems, tokens_append, tokens_append, hblank, htypes]
  simp

theorem allPlain_programItems (t : Tree) (types : List NodeId) : AllPlain (t.programItems types) := by
  have hline : ∀ id, AllPlain (t.itemsOf id ++ [.newline]) := fun id =>
    allPlain_append.mpr ⟨allPlain_items _ _, by simp [Item.IsPlain]⟩
  have hblank : AllPlain (if t.header.isEmpty || types.isEmpty then [] else [.blankLine]) := by
    split <;> simp [Item.IsPlain]
  have htypes : AllPlain
      ((types.map fun id => t.itemsOf id ++ [.newline]).intersperse [.blankLine]).flatten := by
    intro item hitem
    obtain ⟨items, hitems, hitem⟩ := List.mem_flatten.mp hitem
    rcases mem_or_eq_of_mem_intersperse hitems with hitems | rfl
    · obtain ⟨id, -, rfl⟩ := List.mem_map.mp hitems
      exact hline id item hitem
    · rw [List.mem_singleton.mp hitem]
      trivial
  exact allPlain_append.mpr
    ⟨allPlain_append.mpr ⟨allPlain_flatMap fun id _ => hline id, hblank⟩, htypes⟩

mutual

theorem contents_of_laid {t : Tree} (L : t.Linked) {parent : Option Nat} :
    ∀ (r : Rose Content) (id : Nat),
    Rose.Laid (fun s parent children => (⟨s.value, parent, children⟩ : Node)) t.node id parent r →
      t.contents id = r
  | .node c below, id, h => by
    rw [contents_eq L, children, h.1, contents_of_laidAll L below (id + 1) h.2]
    rfl

theorem contents_of_laidAll {t : Tree} (L : t.Linked) {parent : Option Nat} :
    ∀ (rs : List (Rose Content)) (start : Nat),
    Rose.LaidAll (fun s parent children => (⟨s.value, parent, children⟩ : Node)) t.node start parent rs →
      (Rose.topIds start rs).map t.contents = rs
  | [], _, _ => rfl
  | r :: rs, start, h => by
    rw [Rose.topIds, List.map_cons, contents_of_laid L r start h.1,
      contents_of_laidAll L rs (start + r.size) h.2]

end

theorem map_contents_childrenWithRole {t : Tree} (L : t.Linked) (n : NodeId) (role : Role) :
    (t.childrenWithRole n role).map t.contents =
      (t.contents n).children.filter fun r => r.value.role == role := by
  have hrole : ∀ c, (t.contents c).value.role = t.role c := fun c => by
    rw [contents_eq L]
    rfl
  rw [contents_eq L n, Rose.children, List.filter_map, childrenWithRole]
  congr 1
  exact List.filter_congr fun c _ => by rw [Function.comp_apply, hrole]

theorem itemsOf_of_mem_children {t : Tree} (L : t.Linked) {p c : NodeId} (hc : c ∈ t.children p) :
    t.itemsOf c = items (t.kind p) (t.contents c) := by
  rw [itemsOf, L.mem_children.mp hc, Option.map_some]

theorem contents_ofRose (name : String) (file : Option String) (r : Rose Content) :
    (ofRose name file r).contents root = r :=
  contents_of_laid (linked_ofRose name file r) r root (numbered_ofRose name file r).laid

theorem exists_pieces {t : Tree} (h : t.InSync) (width : Nat) :
    ∃ ps : List Piece, t.print width = .ok (String.join (ps.map Piece.text)) ∧ WordsApart ps ∧
      ps.filterMap Piece.token? =
        (t.header ++ t.childrenWithRole root .containedType).flatMap fun id => tokens (t.itemsOf id) :=
  ⟨_, h.print_eq width, wordsApart_pieces width (t.allPlain_programItems _),
    (filterMap_pieces _ _ _).trans (t.tokens_programItems _)⟩

end Tree

/-! ## Concrete syntax -/

namespace Source.Document

variable {d : Document}

/-- The kept children of a node of the given kind, with their roles. -/
def members (kind : String) (below : List Concrete) : List (Role × Concrete) :=
  below.filterMap fun r => (roleUnder? kind r.value).map (·, r)

theorem convertBelow_eq_map (kind : String) (below : List Concrete) :
    d.convertBelow kind below = (members kind below).map fun m => d.convert m.1 m.2 := by
  rw [convertBelow_eq_among, convertAmong, members, List.map_filterMap]
  simp only [Option.map_map, Function.comp_def]

/-- A kept child of a node of the given kind, laid out. -/
def part (d : Document) (kind : String) (m : Role × Concrete) : Part :=
  ⟨m.1, items kind (d.convert m.1 m.2)⟩

theorem parts_convertBelow (kind : String) (below : List Concrete) :
    parts kind (d.convertBelow kind below) = (members kind below).map (d.part kind) := by
  rw [parts_eq_map, convertBelow_eq_map, List.map_map]
  exact List.map_congr_left fun m _ => by rw [Function.comp_apply, role_convert, part]

/-- The tokens that a concrete subtree in a role prints as below a node of the given kind. -/
def printed (d : Document) (parentKind : String) (m : Role × Concrete) : List String :=
  tokens (items parentKind (d.convert m.1 m.2))

/-- What a node with kept children prints as, arranged. -/
def arranged (row : Row) (below : List Concrete) : List ((Role × Concrete) ⊕ String) :=
  arrangement row.kind (interiorLabel row below) Prod.fst (members row.kind below)

theorem printed_leaf {parentKind : String} {role : Role} {row : Row} {below : List Concrete}
    (hleaf : (below.isEmpty || isAtomic row.kind) = true) (hkind : isCollectionKind row.kind = false)
    (hmissing : row.missing = false) :
    d.printed parentKind (role, .node row below) = [d.textOf row] := by
  rw [printed, convert, if_pos hleaf, leaf, if_neg (by simp [hmissing]), items, parts,
    assemble_of_not_collection hkind]
  exact tokens_leaf _ _

/-- **A node prints its kept children as its kind arranges them.** -/
theorem printed_node {parentKind : String} {role : Role} {row : Row} {below : List Concrete}
    (hbelow : (below.isEmpty || isAtomic row.kind) = false) (hne : arranged row below ≠ []) :
    d.printed parentKind (role, .node row below) = spell (d.printed row.kind) (arranged row below) := by
  have harranged : arrangement row.kind (interiorLabel row below) Part.role
      ((members row.kind below).map (d.part row.kind)) =
        (arranged row below).map (Sum.map (d.part row.kind) id) :=
    arrangement_map _ _ _ _ _
  rw [printed, convert, if_neg (by simp [hbelow]), items, interior, parts_convertBelow,
    tokens_assemble _ _ _ (by simpa [harranged] using hne), harranged, spell_map]
  rfl

/-- The top-level nodes that are kept, with their roles. -/
def tops (program : Concrete) : List (Role × Concrete) :=
  (program.children.filter fun r => !r.value.extra && r.value.named).map fun r =>
    (topLevelRole r.value.kind, r)

/-- The top-level nodes that are printed, in order. -/
def printOrder (program : Concrete) : List (Role × Concrete) :=
  [.packageDeclaration, .imported, .containedType].flatMap fun role =>
    (tops program).filter fun m => m.1 == role

end Source.Document

namespace Source

theorem flatMap_tokens_childrenWithRole {d : Document} {t : Tree} (L : t.Linked) {program : Concrete}
    (hroot : t.contents Tree.root = .node Tree.rootContent (d.convertTop program)) (role : Role) :
    ((t.childrenWithRole Tree.root role).flatMap fun id => tokens (t.itemsOf id)) =
      ((Document.tops program).filter fun m => m.1 == role).flatMap (d.printed "package") := by
  have hkind : t.kind Tree.root = "package" := by
    rw [Tree.contents_eq L, Rose.node.injEq] at hroot
    exact congrArg Content.kind hroot.1
  have htops : (t.childrenWithRole Tree.root role).map t.contents =
      ((Document.tops program).filter fun m => m.1 == role).map fun m => d.convert m.1 m.2 := by
    have hconvert : d.convertTop program = (Document.tops program).map fun m => d.convert m.1 m.2 := by
      rw [Document.convertTop, Document.tops, List.map_map]
      rfl
    rw [Tree.map_contents_childrenWithRole L, hroot, Rose.children, hconvert, List.filter_map]
    congr 1
    exact List.filter_congr fun m _ => by rw [Function.comp_apply, Document.role_convert]
  -- a top-level node prints as what it is converted to, below the root
  calc ((t.childrenWithRole Tree.root role).flatMap fun id => tokens (t.itemsOf id))
      = (t.childrenWithRole Tree.root role).flatMap fun id => tokens (items "package" (t.contents id)) := by
        refine List.flatMap_congr fun c hc => ?_
        rw [Tree.itemsOf_of_mem_children L (List.mem_of_mem_filter hc), hkind]
    _ = ((t.childrenWithRole Tree.root role).map t.contents).flatMap fun r =>
          tokens (items "package" r) := by rw [List.flatMap_map]
    _ = ((Document.tops program).filter fun m => m.1 == role).flatMap (d.printed "package") := by
        rw [htops, List.flatMap_map]
        rfl

/-- **The tokens that a source text prints as** are those of its top-level nodes. -/
theorem exists_pieces_of_parse {name file text : String} {rows : List Row} {program : Concrete}
    (hrows : Concrete.ofRows? rows = some program) {t : Tree} (ht : parse name file text rows = .ok t)
    (width : Nat) :
    ∃ ps : List Piece, t.print width = .ok (String.join (ps.map Piece.text)) ∧ WordsApart ps ∧
      ps.filterMap Piece.token? =
        (Document.printOrder program).flatMap ((Document.ofText file text).printed "package") := by
  have heq := eq_ofRose_of_parse hrows ht
  have hsync : t.InSync := heq ▸ Tree.inSync_ofRose _ _ _
  have L : t.Linked := heq ▸ Tree.linked_ofRose _ _ _
  have hroot : t.contents Tree.root =
      .node Tree.rootContent ((Document.ofText file text).convertTop program) := by
    rw [heq]
    exact Tree.contents_ofRose _ _ _
  obtain ⟨ps, hprint, hwords, htokens⟩ := Tree.exists_pieces hsync width
  refine ⟨ps, hprint, hwords, htokens.trans ?_⟩
  rw [Tree.header, List.flatMap_append, List.flatMap_append, flatMap_tokens_childrenWithRole L hroot,
    flatMap_tokens_childrenWithRole L hroot, flatMap_tokens_childrenWithRole L hroot, Document.printOrder]
  simp

end Source

end TreePatch
