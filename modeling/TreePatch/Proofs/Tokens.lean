import Mathlib.Data.List.Chain
import TreePatch.Layout.Program
import TreePatch.Proofs.Prelude
import TreePatch.Source.Kind

/-!
# Tokens of a layout

Laying out adds white space to the tokens of a list of items and nothing else, and never lets two words
run together. Of a node, the tokens depend on those of its children only: every kind arranges them in one
way among its own punctuation.
-/

namespace TreePatch.Layout

/-! ## Items and pieces -/

@[simp] def Item.token? : Item → Option String
  | .token text | .angle text | .glued text => some text
  | .newline | .blankLine | .indent | .dedent => none

def Piece.token? : Piece → Option String
  | .token text => some text
  | .blanks _ | .lineEnd => none

/-- The tokens among the items. -/
def tokens (items : List Item) : List String :=
  items.filterMap Item.token?

@[simp] theorem tokens_nil : tokens [] = [] := rfl

@[simp] theorem tokens_cons (item : Item) (items : List Item) :
    tokens (item :: items) = item.token?.toList ++ tokens items := by
  cases item <;> rfl

@[simp] theorem tokens_append (items items' : List Item) :
    tokens (items ++ items') = tokens items ++ tokens items' :=
  List.filterMap_append

@[simp] theorem tokens_flatMap {α : Type} (f : α → List Item) (l : List α) :
    tokens (l.flatMap f) = l.flatMap fun a => tokens (f a) :=
  List.filterMap_flatMap

@[simp] theorem tokens_flatten (l : List (List Item)) : tokens l.flatten = (l.map tokens).flatten :=
  List.filterMap_flatten

theorem filterMap_write (pen : Pen) (width : Nat) (item : Item) :
    (pen.write width item).1.filterMap Piece.token? = item.token?.toList := by
  have hgap : ∀ token glued, (pen.gap width token glued).filterMap Piece.token? = [] := by
    intro token glued
    unfold Pen.gap
    split
    · rfl
    · split <;> rfl
  have hend : pen.endLine.1.filterMap Piece.token? = [] := by
    unfold Pen.endLine
    split <;> rfl
  cases item with
  | token text | angle text | glued text =>
    rw [Pen.write, Pen.writeToken, List.filterMap_append, hgap]
    rfl
  | newline => exact hend
  | blankLine =>
    rw [Pen.write, List.filterMap_append, hend]
    rfl
  | indent | dedent => rfl

/-- **Laying out keeps the tokens**, whatever the width. -/
theorem filterMap_pieces (width : Nat) (pen : Pen) (items : List Item) :
    (pieces width pen items).filterMap Piece.token? = tokens items := by
  induction items generalizing pen with
  | nil => rfl
  | cons item items ih =>
    rw [pieces, List.filterMap_append, filterMap_write, ih, tokens_cons]

/-! ## Words -/

/-- Whether a text starts like a word or a literal. -/
def startsInWord (text : String) : Bool :=
  text.toList.head?.any isWordChar

/-- Whether two pieces may stand side by side: two words may not. -/
def Piece.Apart : Piece → Piece → Prop
  | .token text, .token text' => ¬ (endsInWord text = true ∧ startsInWord text' = true)
  | _, _ => True

/-- No two words run together. Pieces that are empty do not count. -/
def WordsApart (ps : List Piece) : Prop :=
  (ps.filter (· != .blanks 0)).IsChain Piece.Apart

/-- An angle is a bracket, and what is glued is a colon. -/
def Item.IsPlain : Item → Prop
  | .angle text => text = "<" ∨ text = ">"
  | .glued text => text = ":"
  | _ => True

/-- All items are plain. -/
def AllPlain (items : List Item) : Prop :=
  ∀ item ∈ items, item.IsPlain

/-- A token that is an angle only if it is a bracket. -/
def Token.IsPlain (token : Token) : Prop :=
  token.angle = true → token.text = "<" ∨ token.text = ">"

/-- All that can stand close to a neighbour. -/
def closeTokens : List String :=
  ["<", ">", ":", "++", "--"] ++ closeBefore ++ closeAfter

theorem not_word_of_close : ∀ text ∈ closeTokens,
    startsInWord text = false ∧ endsInWord text = false := by
  decide +kernel

theorem needsSpace_of_not_close {prev next : Token} (hprev : prev.IsPlain) (hnext : next.IsPlain)
    (hprev' : prev.text ∉ closeTokens) (hnext' : next.text ∉ closeTokens) :
    needsSpace prev next = true := by
  have hplain : ∀ {token : Token}, token.IsPlain → token.text ∉ closeTokens → token.angle = false := by
    intro token htoken hnot
    by_contra hangle
    rcases htoken (by simpa using hangle) with heq | heq <;> simp [heq, closeTokens] at hnot
  rw [needsSpace, hplain hprev hprev', hplain hnext hnext']
  simp only [closeTokens, closeBefore, closeAfter, List.mem_append, List.mem_cons, List.not_mem_nil, or_false,
    not_or] at hprev' hnext'
  simp [closeBefore, closeAfter, hprev', hnext']

/-- Whether two pieces may touch: of two tokens, one has to be of those that stand close. -/
def Piece.MayTouch : Piece → Piece → Prop
  | .token text, .token text' => text ∈ closeTokens ∨ text' ∈ closeTokens
  | _, _ => True

theorem Piece.MayTouch.apart : ∀ {p q : Piece}, p.MayTouch q → p.Apart q
  | .token _, .token _, h => by
    rintro ⟨hends, hstarts⟩
    rcases h with hclose | hclose
    · simp [(not_word_of_close _ hclose).2] at hends
    · simp [(not_word_of_close _ hclose).1] at hstarts
  | .token _, .blanks _, _ | .token _, .lineEnd, _ | .blanks _, _, _ | .lineEnd, _, _ => trivial

/-- The piece before the pen is what the pen takes it for: no token at the start of a line, and the last
token elsewhere. -/
structure Pen.Follows (pen : Pen) (before : Piece) : Prop where
  start : pen.lineStart = true → before.token? = none
  last : pen.lineStart = false →
    ∃ token, pen.last = some token ∧ before = .token token.text ∧ token.IsPlain

theorem Piece.mayTouch_of_left {p : Piece} (h : p.token? = none) (q : Piece) : p.MayTouch q := by
  cases p with
  | token text => simp [token?] at h
  | blanks count | lineEnd => trivial

theorem Piece.mayTouch_of_right (p : Piece) {q : Piece} (h : q.token? = none) : p.MayTouch q := by
  cases q with
  | token text => simp [token?] at h
  | blanks count | lineEnd => cases p <;> trivial

theorem isChain_writeToken {pen : Pen} {before : Piece} (h : pen.Follows before) (width : Nat)
    {token : Token} (htoken : token.IsPlain) {glued : Bool}
    (hglued : glued = true → token.text ∈ closeTokens) {rest : List Piece}
    (hrest : (.token token.text :: rest).IsChain Piece.MayTouch) :
    (before :: ((pen.writeToken width token glued).1.filter (· != .blanks 0) ++ rest)).IsChain
      Piece.MayTouch := by
  have hgap : ∀ count, (before :: .blanks count :: .token token.text :: rest).IsChain Piece.MayTouch :=
    fun _ => .cons_cons (before.mayTouch_of_right rfl) (.cons_cons trivial hrest)
  unfold Pen.writeToken Pen.gap
  split
  · next hstart =>
    by_cases hcount : pen.depth * width = 0
    · rw [hcount]
      exact .cons_cons (Piece.mayTouch_of_left (h.start hstart) _) hrest
    · simpa [hcount] using hgap _
  · next hstart =>
    split
    · exact hgap 1
    · next hclose =>
      -- nothing is put between the last token and this one, so one of them stands close
      obtain ⟨last, hlast, rfl, hplain⟩ := h.last (by simpa using hstart)
      refine .cons_cons (or_iff_not_and_not.mpr ?_) hrest
      rintro ⟨hnot, hnot'⟩
      have hspace := needsSpace_of_not_close hplain htoken hnot hnot'
      cases glued with
      | true => exact hnot' (hglued rfl)
      | false => simp [hlast, hspace] at hclose

/-- One item touches the piece before it only if it may. What is written later may rely on the pen only, so
it is a chain behind every piece that the pen can follow then. -/
theorem isChain_write {pen : Pen} {before : Piece} (h : pen.Follows before) (width : Nat) {item : Item}
    (hitem : item.IsPlain) {rest : List Piece}
    (hrest : ∀ before', (pen.write width item).2.Follows before' →
      (before' :: rest).IsChain Piece.MayTouch) :
    (before :: ((pen.write width item).1.filter (· != .blanks 0) ++ rest)).IsChain Piece.MayTouch := by
  have hend : ∀ {rest' : List Piece}, (∀ before', pen.endLine.2.Follows before' →
      (before' :: rest').IsChain Piece.MayTouch) →
        (before :: (pen.endLine.1.filter (· != .blanks 0) ++ rest')).IsChain Piece.MayTouch := by
    intro rest' hrest'
    unfold Pen.endLine at *
    split
    · next hstart =>
      rw [if_pos hstart] at hrest'
      exact hrest' before h
    · next hstart =>
      rw [if_neg hstart] at hrest'
      have hline := hrest' .lineEnd ⟨fun _ => rfl, fun hfalse => by simp at hfalse⟩
      exact .cons_cons (before.mayTouch_of_right rfl) hline
  have hwritten : ∀ {token : Token} {glued : Bool}, token.IsPlain →
      (pen.writeToken width token glued).2.Follows (.token token.text) := fun hplain =>
    ⟨fun hfalse => by simp [Pen.writeToken] at hfalse, fun _ => ⟨_, rfl, rfl, hplain⟩⟩
  cases item with
  | token text =>
    have hplain : Token.IsPlain ⟨text, false⟩ := fun hangle => by simp at hangle
    exact isChain_writeToken h width hplain (by simp) (hrest _ (hwritten hplain))
  | angle text =>
    have hplain : Token.IsPlain ⟨text, true⟩ := fun _ => hitem
    exact isChain_writeToken h width hplain (by simp) (hrest _ (hwritten hplain))
  | glued text =>
    have hplain : Token.IsPlain ⟨text, false⟩ := fun hangle => by simp at hangle
    refine isChain_writeToken h width hplain (fun _ => ?_) (hrest _ (hwritten hplain))
    rw [show text = ":" from hitem]
    simp [closeTokens]
  | newline => exact hend hrest
  | blankLine =>
    rw [Pen.write, List.filter_append, List.append_assoc]
    have hstart : pen.endLine.2.lineStart = true := by
      unfold Pen.endLine
      split <;> simp_all
    exact hend fun before' _ => .cons_cons (before'.mayTouch_of_right rfl)
      (hrest _ ⟨fun _ => rfl, fun hfalse => by simp [Pen.write, hstart] at hfalse⟩)
  | indent | dedent => exact hrest before ⟨h.start, h.last⟩

theorem isChain_pieces_of_follows (width : Nat) {items : List Item} (hitems : AllPlain items)
    {pen : Pen} {before : Piece} (h : pen.Follows before) :
    (before :: (pieces width pen items).filter (· != .blanks 0)).IsChain Piece.MayTouch := by
  induction items generalizing pen before with
  | nil => exact .singleton _
  | cons item items ih =>
    rw [pieces, List.filter_append]
    exact isChain_write h width (hitems item List.mem_cons_self)
      fun before' h' => ih (fun i hi => hitems i (List.mem_cons_of_mem _ hi)) h'

/-- **Tokens touch only where they may** in a layout. -/
theorem isChain_pieces (width : Nat) {items : List Item} (hitems : AllPlain items) :
    ((pieces width {} items).filter (· != .blanks 0)).IsChain Piece.MayTouch := by
  have hstart : Pen.Follows {} .lineEnd := ⟨fun _ => rfl, fun hfalse => by simp at hfalse⟩
  exact (isChain_pieces_of_follows width hitems hstart).tail

/-- **Words never run together** in a layout. -/
theorem wordsApart_pieces (width : Nat) {items : List Item} (hitems : AllPlain items) :
    WordsApart (pieces width {} items) :=
  (isChain_pieces width hitems).imp fun _ _ => Piece.MayTouch.apart

/-! ## Arrangements -/

section Arrangement

variable {α β : Type}

/-- Members with commas between them. -/
def commas (members : List α) : List (α ⊕ String) :=
  (members.map Sum.inl).intersperse (Sum.inr ",")

/-- The members of a node of the given kind and label in the order in which they are printed, among the
punctuation that is printed with them. -/
def arrangement (kind label : String) (role : α → Role) (members : List α) : List (α ⊕ String) :=
  match kind with
  | "class_body" | "interface_body" | "block" | "constructor_body" | "switch_block" =>
    [.inr "\x7b"] ++ members.map .inl ++ [.inr "\x7d"]
  | "enum_body" =>
    [.inr "\x7b"] ++ commas (members.filter fun a => role a == .typeMember) ++
      (members.filter fun a => role a != .typeMember).map .inl ++ [.inr "\x7d"]
  | "enum_body_declarations" => [.inr ";"] ++ members.map .inl
  | "switch_block_statement_group" =>
    (members.filter fun a => role a == .caseLabel).flatMap (fun a => [.inl a, .inr ":"]) ++
      (members.filter fun a => role a == .statement).map .inl
  | "switch_label" => if label = "default" then [.inr "default"] else [.inr "case"] ++ commas members
  | "argument_list" | "formal_parameters" => [.inr "("] ++ commas members ++ [.inr ")"]
  | "type_parameters" => [.inr "<"] ++ commas members ++ [.inr ">"]
  | "throws" => [.inr "throws"] ++ commas members
  | _ => members.map .inl

theorem commas_map (f : α → β) (members : List α) :
    commas (members.map f) = (commas members).map (Sum.map f id) := by
  rw [commas, commas, map_intersperse, List.map_map, List.map_map]
  rfl

theorem arrangement_map (kind label : String) (role : β → Role) (f : α → β) (members : List α) :
    arrangement kind label role (members.map f) =
      (arrangement kind label (role ∘ f) members).map (Sum.map f id) := by
  unfold arrangement
  split <;> simp [commas_map, List.filter_map, Function.comp_def, List.flatMap_map, List.map_flatMap]
  split <;> simp

end Arrangement

/-- The tokens of an arrangement, given those of its members. -/
def spell {α : Type} (f : α → List String) (places : List (α ⊕ String)) : List String :=
  places.flatMap (Sum.elim f ([·]))

section Spell

variable {α β : Type} (f : α → List String)

@[simp] theorem spell_append (places places' : List (α ⊕ String)) :
    spell f (places ++ places') = spell f places ++ spell f places' :=
  List.flatMap_append

@[simp] theorem spell_nil : spell f [] = [] := rfl

@[simp] theorem spell_mark (text : String) (places : List (α ⊕ String)) :
    spell f (.inr text :: places) = text :: spell f places := rfl

@[simp] theorem spell_member (a : α) (places : List (α ⊕ String)) :
    spell f (.inl a :: places) = f a ++ spell f places := rfl

@[simp] theorem spell_members (members : List α) : spell f (members.map .inl) = members.flatMap f := by
  rw [spell, List.flatMap_map]
  rfl

theorem spell_map (g : β → α) (places : List (β ⊕ String)) :
    spell f (places.map (Sum.map g id)) = spell (f ∘ g) places := by
  rw [spell, List.flatMap_map]
  exact congrArg (List.flatMap · places) (funext fun p => by cases p <;> rfl)

theorem spell_commas (members : List α) :
    spell f (commas members) = ((members.map f).intersperse [","]).flatten := by
  rw [spell, List.flatMap_def, commas, map_intersperse, List.map_map]
  rfl

end Spell

/-! ## Nodes -/

@[simp] theorem tokens_leaf (parentKind : Option String) (text : String) :
    tokens (leaf parentKind text) = [text] := by
  unfold leaf
  split <;> rfl

@[simp] theorem tokens_lines (parts : List Part) :
    tokens (lines parts) = parts.flatMap fun p => tokens p.items := by
  simp [lines]

theorem tokens_separated {separator : List Item} (h : tokens separator = [","]) (parts : List Part) :
    tokens (separated separator parts) = spell (fun p => tokens p.items) (commas parts) := by
  rw [separated, tokens_flatten, map_intersperse, List.map_map, spell_commas, ← h]
  rfl

@[simp] theorem tokens_commaList (parts : List Part) :
    tokens (commaList parts) = spell (fun p => tokens p.items) (commas parts) :=
  tokens_separated rfl parts

@[simp] theorem tokens_braced (parts : List Part) :
    tokens (braced parts) = ["\x7b"] ++ parts.flatMap (fun p => tokens p.items) ++ ["\x7d"] := by
  simp [braced]

@[simp] theorem tokens_enumBody (parts : List Part) :
    tokens (enumBody parts) =
      ["\x7b"] ++ spell (fun p => tokens p.items) (commas (withRole .typeMember parts)) ++
        (parts.filter fun p => p.role != .typeMember).flatMap (fun p => tokens p.items) ++ ["\x7d"] := by
  have hconstants : tokens (separated [.token ",", .newline] (withRole .typeMember parts)) =
      spell (fun p => tokens p.items) (commas (withRole .typeMember parts)) :=
    tokens_separated rfl _
  simp [enumBody, hconstants]

@[simp] theorem tokens_switchGroup (parts : List Part) :
    tokens (switchGroup parts) =
      (withRole .caseLabel parts).flatMap (fun p => tokens p.items ++ [":"]) ++
        (withRole .statement parts).flatMap fun p => tokens p.items := by
  simp [switchGroup]

theorem assemble_of_not_collection {kind : String} (h : Source.isCollectionKind kind = false)
    (parentKind : Option String) (label : String) (parts : List Part) :
    assemble parentKind kind label parts =
      if parts.isEmpty then leaf parentKind label else parts.flatMap Part.items := by
  unfold assemble
  split <;> simp_all [Source.isCollectionKind]

/-- **The tokens of a node** are those of its children, arranged as its kind requires. -/
theorem tokens_assemble (parentKind : Option String) (kind label : String) {parts : List Part}
    (h : arrangement kind label Part.role parts ≠ []) :
    tokens (assemble parentKind kind label parts) =
      spell (fun p => tokens p.items) (arrangement kind label Part.role parts) := by
  have hlabels : ∀ labels : List Part,
      spell (fun p => tokens p.items) (labels.flatMap fun p => [.inl p, .inr ":"]) =
        labels.flatMap fun p => tokens p.items ++ [":"] := fun labels => by
    rw [spell, List.flatMap_assoc]
    rfl
  unfold assemble
  split <;> simp only [arrangement] at h ⊢
  all_goals simp only [hlabels, withRole, tokens_braced, tokens_enumBody, tokens_switchGroup, tokens_lines,
    tokens_commaList, tokens_append, tokens_cons, tokens_nil, Item.token?, Option.toList_some,
    Option.toList_none, spell_append, spell_mark, spell_members, spell_nil, List.cons_append,
    List.nil_append, List.append_nil]
  -- what is left are case labels and the kinds without punctuation of their own
  · split <;> simp
  · rw [if_neg (by simpa using h), tokens_flatMap]

/-! ## Plain items -/

section Plain

@[simp] theorem allPlain_nil : AllPlain [] := by
  simp [AllPlain]

@[simp] theorem allPlain_cons {item : Item} {items : List Item} :
    AllPlain (item :: items) ↔ item.IsPlain ∧ AllPlain items :=
  List.forall_mem_cons

@[simp] theorem allPlain_append {items items' : List Item} :
    AllPlain (items ++ items') ↔ AllPlain items ∧ AllPlain items' :=
  List.forall_mem_append

theorem allPlain_flatMap {α : Type} {f : α → List Item} {l : List α} (h : ∀ a ∈ l, AllPlain (f a)) :
    AllPlain (l.flatMap f) := by
  intro item hitem
  obtain ⟨a, ha, hitem⟩ := List.mem_flatMap.mp hitem
  exact h a ha item hitem

theorem allPlain_leaf (parentKind : Option String) (text : String) : AllPlain (leaf parentKind text) := by
  unfold leaf
  split
  · next h => simpa [Item.IsPlain] using h.2
  · simp [Item.IsPlain]

variable {parts : List Part} (h : ∀ p ∈ parts, AllPlain p.items)

include h

theorem allPlain_lines : AllPlain (lines parts) :=
  allPlain_flatMap fun p hp => allPlain_append.mpr ⟨h p hp, by simp [Item.IsPlain]⟩

theorem allPlain_separated {separator : List Item} (hseparator : AllPlain separator) :
    AllPlain (separated separator parts) := by
  intro item hmem
  obtain ⟨items, hitems, hitem⟩ := List.mem_flatten.mp hmem
  rcases mem_or_eq_of_mem_intersperse hitems with hitems | rfl
  · obtain ⟨p, hp, rfl⟩ := List.mem_map.mp hitems
    exact h p hp item hitem
  · exact hseparator item hitem

theorem allPlain_enumBody : AllPlain (enumBody parts) := by
  have hconstants : AllPlain (separated [.token ",", .newline] (withRole .typeMember parts)) :=
    allPlain_separated (fun p hp => h p (List.mem_of_mem_filter hp)) (by simp [Item.IsPlain])
  have hrest : AllPlain ((parts.filter fun p => p.role != .typeMember).flatMap Part.items) :=
    allPlain_flatMap fun p hp => h p (List.mem_of_mem_filter hp)
  simp [enumBody, hconstants, hrest, Item.IsPlain]

theorem allPlain_switchGroup : AllPlain (switchGroup parts) := by
  have hlabels : AllPlain
      ((withRole .caseLabel parts).flatMap fun p => p.items ++ [.glued ":", .newline]) :=
    allPlain_flatMap fun p hp =>
      allPlain_append.mpr ⟨h p (List.mem_of_mem_filter hp), by simp [Item.IsPlain]⟩
  have hstatements : AllPlain (lines (withRole .statement parts)) :=
    allPlain_lines fun p hp => h p (List.mem_of_mem_filter hp)
  simp [switchGroup, hlabels, hstatements, Item.IsPlain]

theorem allPlain_assemble (parentKind : Option String) (kind label : String) :
    AllPlain (assemble parentKind kind label parts) := by
  have hlines := allPlain_lines h
  have hcommas : AllPlain (commaList parts) := allPlain_separated h (by simp [Item.IsPlain])
  have hlabel : AllPlain
      (if label = "default" then [.token "default"] else .token "case" :: commaList parts) := by
    split <;> simp [Item.IsPlain, hcommas]
  have hother : AllPlain
      (if parts.isEmpty then leaf parentKind label else parts.flatMap Part.items) := by
    split
    · exact allPlain_leaf _ _
    · exact allPlain_flatMap h
  unfold assemble
  split <;> simp only [braced, allPlain_append, allPlain_cons, allPlain_nil, Item.IsPlain, hlines, hcommas,
    allPlain_enumBody h, allPlain_switchGroup h, hlabel, hother, true_or, or_true, and_true]

end Plain

mutual

/-- **All items of a tree are plain.** -/
theorem allPlain_items (parentKind : Option String) : ∀ r : Rose Content, AllPlain (items parentKind r)
  | .node c below => allPlain_assemble (allPlain_parts c.kind below) parentKind c.kind c.label

theorem allPlain_parts (kind : String) : ∀ rs : List (Rose Content),
    ∀ p ∈ parts kind rs, AllPlain p.items
  | [] => by simp [parts]
  | r :: rs => by
    rw [parts, List.forall_mem_cons]
    exact ⟨allPlain_items kind r, allPlain_parts kind rs⟩

end

end TreePatch.Layout
