import TreePatch.Layout.Program
import TreePatch.Proofs.Outline
import TreePatch.Proofs.Parallel

/-!
# Trees that look alike

What a tree prints as depends on the kinds, labels and roles of its nodes and on the order of children, and
on nothing else. Below a printed node this holds of the items that it is laid out as (`items_congr`), since
the only thing that is asked of a node outside a subtree is the kind of the parent of its top. At the top even
this kind does not matter. It can turn a token into an angle bracket, which shows in the blank before the
next token, but a top-level node is printed on lines of its own, and the first token of a line takes no notice
of the last one before it (`Pen.Alike`).
-/

namespace TreePatch

/-- What is seen of a node in print. -/
def Content.look (c : Content) : String × String × Role :=
  (c.kind, c.label, c.role)

namespace Layout

mutual

theorem items_congr (parentKind : Option String) : ∀ r s : Rose Content,
    r.map Content.look = s.map Content.look → items parentKind r = items parentKind s
  | .node c below, .node d below', h => by
    rw [Rose.map, Rose.map, Rose.node.injEq] at h
    obtain ⟨hlook, hbelow⟩ := h
    obtain ⟨hkind, hlabel, -⟩ : c.kind = d.kind ∧ c.label = d.label ∧ c.role = d.role := by
      simpa [Content.look] using hlook
    rw [items, items, hkind, hlabel, parts_congr d.kind below below' hbelow]

theorem parts_congr (kind : String) : ∀ rs ss : List (Rose Content),
    Rose.mapAll Content.look rs = Rose.mapAll Content.look ss → parts kind rs = parts kind ss
  | [], [], _ => rfl
  | [], _ :: _, h => by simp [Rose.mapAll] at h
  | _ :: _, [], h => by simp [Rose.mapAll] at h
  | r :: rs, s :: ss, h => by
    rw [Rose.mapAll, Rose.mapAll, List.cons.injEq] at h
    have hrole : r.value.role = s.value.role := by
      cases r with
      | node c below =>
        cases s with
        | node d below' =>
          have hlook := h.1
          rw [Rose.map, Rose.map, Rose.node.injEq] at hlook
          exact congrArg (·.2.2) hlook.1
    rw [parts, parts, items_congr kind r s h.1, parts_congr kind rs ss h.2, hrole]

end

theorem assemble_eq_or_leaf (k k' : Option String) (kind label : String) (parts : List Part) :
    assemble k kind label parts = assemble k' kind label parts ∨
      (assemble k kind label parts = leaf k label ∧ assemble k' kind label parts = leaf k' label) := by
  unfold assemble
  split
  rotate_right
  · split
    · exact Or.inr ⟨rfl, rfl⟩
    · exact Or.inl rfl
  all_goals exact Or.inl rfl

/-! ## Pens -/

/-- The pen after some items. -/
def after (width : Nat) (pen : Pen) (items : List Item) : Pen :=
  items.foldl (fun pen item => (pen.write width item).2) pen

theorem pieces_cons (width : Nat) (pen : Pen) (item : Item) (l : List Item) :
    pieces width pen (item :: l) = (pen.write width item).1 ++ pieces width (pen.write width item).2 l :=
  rfl

theorem pieces_append (width : Nat) (pen : Pen) (l l' : List Item) :
    pieces width pen (l ++ l') = pieces width pen l ++ pieces width (after width pen l) l' := by
  induction l generalizing pen with
  | nil => rfl
  | cons item l ih =>
    rw [List.cons_append, pieces_cons, pieces_cons, ih, List.append_assoc]
    rfl

theorem after_append (width : Nat) (pen : Pen) (l l' : List Item) :
    after width pen (l ++ l') = after width (after width pen l) l' :=
  List.foldl_append

/-- Two pens that print alike. The last token is not seen at the start of a line. -/
structure Pen.Alike (pen pen' : Pen) : Prop where
  depth : pen.depth = pen'.depth
  lineStart : pen.lineStart = pen'.lineStart
  last : pen.lineStart = false → pen.last = pen'.last

namespace Pen.Alike

variable {pen pen' : Pen} (h : pen.Alike pen') (width : Nat)

include h

theorem writeToken (token : Token) (glued : Bool) :
    (pen.writeToken width token glued).1 = (pen'.writeToken width token glued).1 ∧
      (pen.writeToken width token glued).2.Alike (pen'.writeToken width token glued).2 := by
  have hgap : pen.gap width token glued = pen'.gap width token glued := by
    rw [gap, gap, ← h.lineStart, ← h.depth]
    cases hstart : pen.lineStart with
    | true => rfl
    | false => rw [h.last hstart]
  exact ⟨congrArg (· ++ [Piece.token token.text]) hgap, h.depth, rfl, fun _ => rfl⟩

theorem endLine : pen.endLine.1 = pen'.endLine.1 ∧ pen.endLine.2.Alike pen'.endLine.2 := by
  rw [Pen.endLine, Pen.endLine, ← h.lineStart]
  cases hstart : pen.lineStart with
  | true => exact ⟨rfl, h⟩
  | false => exact ⟨rfl, h.depth, rfl, fun hend => by simp at hend⟩

theorem write (item : Item) :
    (pen.write width item).1 = (pen'.write width item).1 ∧
      (pen.write width item).2.Alike (pen'.write width item).2 := by
  cases item with
  | token text | angle text | glued text => exact h.writeToken width _ _
  | newline => exact h.endLine
  | blankLine => exact ⟨congrArg (· ++ [Piece.lineEnd]) h.endLine.1, h.endLine.2⟩
  | indent => exact ⟨rfl, congrArg (· + 1) h.depth, h.lineStart, h.last⟩
  | dedent => exact ⟨rfl, congrArg (· - 1) h.depth, h.lineStart, h.last⟩

theorem pieces (l : List Item) :
    Layout.pieces width pen l = Layout.pieces width pen' l ∧ (after width pen l).Alike (after width pen' l) := by
  induction l generalizing pen pen' with
  | nil => exact ⟨rfl, h⟩
  | cons item l ih =>
    obtain ⟨hpieces, halike⟩ := h.write width item
    obtain ⟨hrest, hafter⟩ := ih halike
    refine ⟨?_, hafter⟩
    rw [pieces_cons, pieces_cons, hpieces, hrest]

end Pen.Alike

/-! ## Lines -/

/-- Two lists of items that print the same whole lines: begun at the start of a line, they end at one. -/
def LinesAlike (l l' : List Item) : Prop :=
  ∀ (width : Nat) (pen pen' : Pen), pen.Alike pen' → pen.lineStart = true →
    pieces width pen l = pieces width pen' l' ∧ (after width pen l).Alike (after width pen' l') ∧
      (after width pen l).lineStart = true

namespace LinesAlike

theorem nil : LinesAlike [] [] :=
  fun _ _ _ halike hstart => ⟨rfl, halike, hstart⟩

theorem append {l l' m m' : List Item} (h : LinesAlike l l') (h' : LinesAlike m m') :
    LinesAlike (l ++ m) (l' ++ m') := by
  intro width pen pen' halike hstart
  obtain ⟨hfirst, halike, hstart⟩ := h width _ _ halike hstart
  obtain ⟨hsecond, hrest⟩ := h' width _ _ halike hstart
  rw [pieces_append, pieces_append, after_append, after_append, hfirst, hsecond]
  exact ⟨rfl, hrest⟩

theorem flatten {ls ls' : List (List Item)} (h : List.Forall₂ LinesAlike ls ls') :
    LinesAlike ls.flatten ls'.flatten := by
  induction h with
  | nil => exact nil
  | cons hl _ ih => exact hl.append ih

theorem blankLine : LinesAlike [.blankLine] [.blankLine] := by
  intro width pen pen' halike hstart
  refine ⟨(halike.pieces width _).1, (halike.pieces width _).2, ?_⟩
  simp [after, Pen.write, Pen.endLine, hstart]

theorem line (l : List Item) : LinesAlike (l ++ [.newline]) (l ++ [.newline]) := by
  intro width pen pen' halike _
  refine ⟨(halike.pieces width _).1, (halike.pieces width _).2, ?_⟩
  rw [after_append]
  generalize after width pen l = pen
  cases hstart : pen.lineStart <;> simp [after, Pen.write, Pen.endLine, hstart]

theorem leaf (k k' : Option String) (text : String) :
    LinesAlike (leaf k text ++ [.newline]) (Layout.leaf k' text ++ [.newline]) := by
  intro width pen pen' halike hstart
  have hline : ∀ (k : Option String) {pen : Pen}, pen.lineStart = true →
      pieces width pen (Layout.leaf k text ++ [.newline]) =
          [.blanks (pen.depth * width), .token text, .lineEnd] ∧
        (after width pen (Layout.leaf k text ++ [.newline])).depth = pen.depth ∧
        (after width pen (Layout.leaf k text ++ [.newline])).lineStart = true := by
    intro k pen hstart
    rw [Layout.leaf]
    split <;> simp [pieces, after, Pen.write, Pen.writeToken, Pen.gap, Pen.endLine, hstart]
  obtain ⟨hpieces, hdepth, hend⟩ := hline k hstart
  obtain ⟨hpieces', hdepth', hend'⟩ := hline k' (halike.lineStart ▸ hstart)
  refine ⟨?_, ⟨?_, hend.trans hend'.symm, fun hopen => ?_⟩, hend⟩
  · rw [hpieces, hpieces', halike.depth]
  · rw [hdepth, hdepth', halike.depth]
  · rw [hend] at hopen
    simp at hopen

theorem render_eq {l l' : List Item} (h : LinesAlike l l') (width : Nat) : render width l = render width l' := by
  rw [render, render, (h width {} {} ⟨rfl, rfl, fun _ => rfl⟩ rfl).1]

end LinesAlike

theorem linesAlike_items (k k' : Option String) {r s : Rose Content}
    (h : r.map Content.look = s.map Content.look) :
    LinesAlike (items k r ++ [.newline]) (items k' s ++ [.newline]) := by
  rw [← items_congr k' r s h]
  cases r with
  | node c below =>
    rw [items, items]
    rcases assemble_eq_or_leaf k k' c.kind c.label (parts c.kind below) with heq | ⟨hleaf, hleaf'⟩
    · rw [heq]
      exact .line _
    · rw [hleaf, hleaf']
      exact .leaf k k' c.label

end Layout

open Layout

namespace Tree

variable {t u : Tree}

theorem contents_eq (L : t.Linked) (n : NodeId) :
    t.contents n = .node (t.node n).toContent ((t.children n).map t.contents) := by
  rw [contents, L.subtree_eq, Rose.map, Rose.mapAll_eq_map, List.map_map]
  rfl

/-- `R` relates nodes of two trees that look alike and have related children in the same order. -/
structure Likeness (t u : Tree) (R : NodeId → NodeId → Prop) : Prop where
  kind : ∀ {a b}, R a b → t.kind a = u.kind b
  label : ∀ {a b}, R a b → t.label a = u.label b
  role : ∀ {a b}, R a b → t.role a = u.role b
  children : ∀ {a b}, R a b → List.Forall₂ R (t.children a) (u.children b)

namespace Likeness

variable {R : NodeId → NodeId → Prop} (h : Likeness t u R) (L : t.Linked) (L' : u.Linked)

include h L L'

theorem contents_look (a : NodeId) : ∀ {b}, R a b →
    (t.contents a).map Content.look = (u.contents b).map Content.look := by
  induction a using L.induction_down with
  | step a ih =>
    intro b hab
    have hlook : (t.node a).toContent.look = (u.node b).toContent.look := by
      rw [Content.look, Content.look, Prod.mk.injEq, Prod.mk.injEq]
      exact ⟨h.kind hab, h.label hab, h.role hab⟩
    rw [contents_eq L, contents_eq L', Rose.map, Rose.map, hlook, Rose.mapAll_eq_map, Rose.mapAll_eq_map,
      List.map_map, List.map_map, Rose.node.injEq, ← List.forall₂_eq_eq_eq, List.forall₂_map_left_iff,
      List.forall₂_map_right_iff]
    refine ⟨rfl, ((List.forall₂_and_left _ _).mpr ⟨fun c hc => hc, h.children hab⟩).imp fun c d hcd => ?_⟩
    exact ih c hcd.1 hcd.2

theorem lines {as bs : List NodeId} (hab : List.Forall₂ R as bs) :
    List.Forall₂ LinesAlike (as.map fun a => t.itemsOf a ++ [.newline])
      (bs.map fun b => u.itemsOf b ++ [.newline]) := by
  rw [List.forall₂_map_left_iff, List.forall₂_map_right_iff]
  exact hab.imp fun a b hab => linesAlike_items _ _ (h.contents_look L L' a hab)

theorem programItems {types types' : List NodeId} (htypes : List.Forall₂ R types types')
    (hheader : List.Forall₂ R t.header u.header) :
    LinesAlike (t.programItems types) (u.programItems types') := by
  rw [Tree.programItems, Tree.programItems, List.flatMap_def, List.flatMap_def]
  refine .append (.append (.flatten (h.lines L L' hheader)) ?_)
    (.flatten (forall₂_intersperse (h.lines L L' htypes) .blankLine))
  rw [isEmpty_eq_of_forall₂ hheader, isEmpty_eq_of_forall₂ htypes]
  split
  · exact .nil
  · exact .blankLine

theorem print_eq {unit unit' : CompilationUnit} (hunit : t.onlyUnit = .ok unit)
    (hunit' : u.onlyUnit = .ok unit') (htypes : List.Forall₂ R unit.declaredTypes unit'.declaredTypes)
    (hpackage : List.Forall₂ R (t.childrenWithRole root .packageDeclaration)
      (u.childrenWithRole root .packageDeclaration))
    (himports : List.Forall₂ R (t.childrenWithRole root .imported) (u.childrenWithRole root .imported))
    (width : Nat) : t.print width = u.print width := by
  have hlines := h.programItems L L' htypes (List.rel_append hpackage himports)
  rw [print, print, hunit, hunit']
  exact congrArg Except.ok (hlines.render_eq width)

/-- **Trees that look alike print alike.** It is enough that the declared types, the package declarations and
the imports look alike, one after the other, with all that is below them. Numbers, positions, what was supplied
or unlinked, the other children of the root and where the declared types stand among them are not seen. -/
theorem prints_alike {unit unit' : CompilationUnit} (hunit : t.onlyUnit = .ok unit)
    (hunit' : u.onlyUnit = .ok unit') (htypes : List.Forall₂ R unit.declaredTypes unit'.declaredTypes)
    (hpackage : List.Forall₂ R (t.childrenWithRole root .packageDeclaration)
      (u.childrenWithRole root .packageDeclaration))
    (himports : List.Forall₂ R (t.childrenWithRole root .imported) (u.childrenWithRole root .imported))
    (width : Nat) : ∃ text, t.print width = .ok text ∧ u.print width = .ok text := by
  have hprint : t.print width = .ok (render width (t.programItems unit.declaredTypes)) := by
    rw [print, hunit]
    rfl
  exact ⟨_, hprint, (h.print_eq L L' hunit hunit' htypes hpackage himports width).symm.trans hprint⟩

end Likeness

/-- The second tree has its import behind the type and something else between them, and a copy of the type that
is not linked. Its nodes stand elsewhere, and one was supplied. -/
theorem Likeness.prints_alike_shuffled :
    let leaf (kind label : String) (role : Role) : Rose Content := .node { kind, label, role } []
    let type (name : Content) : Rose Content := .node
      { kind := "class_declaration", label := "", role := .containedType }
      [.node name [], .node { kind := "type_arguments", label := "", role := .child }
        [leaf "<" "<" .token, leaf "identifier" "T" .child, leaf ">" ">" .token]]
    let name : Content := { kind := "identifier", label := "C", role := .slot .name }
    let t := ofRose "t" none <| .node rootContent
      [leaf "import_declaration" "import a;" .imported, type name]
    let whole := ofRose "u" (some "U") <| .node rootContent
      [type { name with position := some ⟨"U", 7, 1⟩, implicit := true }, leaf "identifier" "x" .child,
        leaf "import_declaration" "import a;" .imported]
    let u := (whole.graft whole 1).tree
    let pairs := [(1, 8), (2, 1), (3, 2), (4, 3), (5, 4), (6, 5), (7, 6)]
    let R : NodeId → NodeId → Prop := fun a b => (a, b) ∈ pairs
    t.Linked ∧ u.Linked ∧ Likeness t u R ∧ t.onlyUnit = .ok ⟨none, [2]⟩ ∧ u.onlyUnit = .ok ⟨some "U", [1]⟩ ∧
      t.print 4 = .ok "import a;\n\nC<T>\n" ∧
      ∃ text, t.print 4 = .ok text ∧ u.print 4 = .ok text := by
  intro leaf type name t whole u pairs R
  have L : t.Linked := linked_ofRose _ _ _
  have L' : u.Linked := linked_graft (linked_ofRose _ _ _) 1
  have hpairs : ∀ p ∈ pairs, t.kind p.1 = u.kind p.2 ∧ t.label p.1 = u.label p.2 ∧ t.role p.1 = u.role p.2 ∧
      List.Forall₂ R (t.children p.1) (u.children p.2) := by decide +kernel
  have h : Likeness t u R := ⟨fun hab => (hpairs _ hab).1, fun hab => (hpairs _ hab).2.1,
    fun hab => (hpairs _ hab).2.2.1, fun hab => (hpairs _ hab).2.2.2⟩
  have hunit : t.onlyUnit = .ok ⟨none, [2]⟩ := by decide +kernel
  have hunit' : u.onlyUnit = .ok ⟨some "U", [1]⟩ := by decide +kernel
  exact ⟨L, L', h, hunit, hunit', by decide +kernel, h.prints_alike L L' hunit hunit' (by decide +kernel)
    (by decide +kernel) (by decide +kernel) 4⟩

end Tree

end TreePatch
