import TreePatch.Proofs.Reprint

/-!
# Separators of lists

Between two members of a list that follow each other a comma is printed, whatever they are. In the source
text there is one too, except in front of the guard of a case label: there the comma is made up.
-/

namespace TreePatch

open Layout

namespace Rose

variable {α : Type} {Q : α → List α → Prop} [∀ a l, Decidable (Q a l)]

mutual

/-- Decides by a walk over the tree. -/
def decidableEverywhere : (r : Rose α) → Decidable (r.Everywhere Q)
  | node a rs =>
    have := decidableAllEverywhere rs
    decidable_of_iff (Q a (rs.map value) ∧ ∀ r ∈ rs, r.Everywhere Q)
      ⟨fun h => .node h.1 h.2, fun h => ⟨h.top, h.children⟩⟩

def decidableAllEverywhere : (rs : List (Rose α)) → Decidable (∀ r ∈ rs, r.Everywhere Q)
  | [] => isTrue (by simp)
  | r :: rs =>
    have := decidableEverywhere r
    have := decidableAllEverywhere rs
    decidable_of_iff (r.Everywhere Q ∧ ∀ s ∈ rs, s.Everywhere Q) List.forall_mem_cons.symm

end

instance (r : Rose α) : Decidable (r.Everywhere Q) :=
  decidableEverywhere r

end Rose

/-! ## Neighbours in a list -/

/-- Two elements of a list, with what stands before, between and after them. -/
structure Gap (α : Type) where
  before : List α
  left : α
  between : List α
  right : α
  after : List α

namespace Gap

variable {α β : Type}

/-- The list that has the gap. -/
def whole (g : Gap α) : List α :=
  g.before ++ g.left :: (g.between ++ g.right :: g.after)

def map (f : α → β) (g : Gap α) : Gap β :=
  { before := g.before.map f, left := f g.left, between := g.between.map f, right := f g.right,
    after := g.after.map f }

theorem whole_map (f : α → β) (g : Gap α) : (g.map f).whole = g.whole.map f := by
  simp [whole, map]

/-- Whether the two elements have the property and follow each other among those that have it. -/
def isConsecutive (p : α → Bool) (g : Gap α) : Bool :=
  p g.left && p g.right && g.between.all fun a => !p a

theorem filter_whole {p : α → Bool} {g : Gap α} (h : g.isConsecutive p = true) :
    g.whole.filter p = g.before.filter p ++ g.left :: g.right :: g.after.filter p := by
  rw [isConsecutive, Bool.and_eq_true, Bool.and_eq_true, List.all_eq_true] at h
  obtain ⟨⟨hleft, hright⟩, hbetween⟩ := h
  have hnone : g.between.filter p = [] := List.filter_eq_nil_iff.mpr fun a ha => by
    simpa using hbetween a ha
  simp [whole, hleft, hright, hnone]

end Gap

/-- A list taken apart at each of its elements. -/
def splits {α : Type} : List α → List (List α × α × List α)
  | [] => []
  | a :: l => ([], a, l) :: (splits l).map fun s => (a :: s.1, s.2)

theorem mem_splits_iff {α : Type} {s : List α × α × List α} : ∀ {l : List α},
    s ∈ splits l ↔ s.1 ++ s.2.1 :: s.2.2 = l
  | [] => by simp [splits]
  | b :: l => by
    obtain ⟨before, a, after⟩ := s
    rw [splits, List.mem_cons, List.mem_map]
    cases before with
    | nil => simp
    | cons c before =>
      constructor
      · rintro (h | ⟨s, hs, h⟩)
        · simp at h
        · obtain ⟨before', a', after'⟩ := s
          obtain ⟨⟨rfl, rfl⟩, rfl, rfl⟩ : (b = c ∧ before' = before) ∧ a' = a ∧ after' = after := by
            simpa using h
          exact congrArg (b :: ·) (mem_splits_iff.mp hs)
      · intro h
        obtain ⟨rfl, hl⟩ : c = b ∧ before ++ a :: after = l := by simpa using h
        exact Or.inr ⟨(before, a, after), mem_splits_iff.mpr hl, rfl⟩

/-- The gaps between any two elements of a list. -/
def gaps {α : Type} (l : List α) : List (Gap α) :=
  (splits l).flatMap fun s => (splits s.2.2).map fun s' =>
    { before := s.1, left := s.2.1, between := s'.1, right := s'.2.1, after := s'.2.2 }

theorem mem_gaps_iff {α : Type} {g : Gap α} {l : List α} : g ∈ gaps l ↔ g.whole = l := by
  simp only [gaps, List.mem_flatMap, List.mem_map, mem_splits_iff]
  constructor
  · rintro ⟨s, rfl, s', hs', rfl⟩
    rw [← hs']
    rfl
  · rintro rfl
    exact ⟨(g.before, g.left, _), rfl, (g.between, g.right, g.after), rfl, rfl⟩

namespace Layout

variable {α : Type}

theorem commas_cons_cons (a b : α) (l : List α) :
    commas (a :: b :: l) = .inl a :: .inr "," :: commas (b :: l) := rfl

theorem exists_commas_cons (a : α) (l : List α) : ∃ places, commas (a :: l) = .inl a :: places := by
  cases l with
  | nil => exact ⟨_, rfl⟩
  | cons b l => exact ⟨_, rfl⟩

theorem exists_commas (a b : α) (after : List α) : ∀ before : List α,
    ∃ P Q, commas (before ++ a :: b :: after) = P ++ .inl a :: .inr "," :: .inl b :: Q
  | [] => by
    obtain ⟨places, hplaces⟩ := exists_commas_cons b after
    exact ⟨[], places, by rw [List.nil_append, commas_cons_cons, hplaces]; rfl⟩
  | c :: before => by
    obtain ⟨P, Q, h⟩ := exists_commas a b after before
    obtain ⟨e, l, hel⟩ : ∃ e l, before ++ a :: b :: after = e :: l := by
      cases before with
      | nil => exact ⟨_, _, rfl⟩
      | cons e l => exact ⟨_, _, rfl⟩
    refine ⟨.inl c :: .inr "," :: P, Q, ?_⟩
    rw [List.cons_append, hel, commas_cons_cons, ← hel, h]
    rfl

theorem mem_of_mem_arrangement {kind label : String} {role : α → Role} {members : List α} {a : α}
    (h : .inl a ∈ arrangement kind label role members) : a ∈ members := by
  -- an arrangement is natural, so it can be made of the members together with their membership
  rw [← List.attach_map_subtype_val members, arrangement_map, List.mem_map] at h
  obtain ⟨member | text, -, heq⟩ := h
  · obtain rfl := Sum.inl.inj heq
    exact member.2
  · cases heq

end Layout

/-! ## Places in print -/

namespace Source.Document

variable {d : Document} {program : Concrete}

/-- Where a kept subtree is printed below a node of the given kind: the tokens `front` stand before it and
the tokens `back` after it. -/
inductive Prints (d : Document) (program : Concrete) :
    (front : List String) → (kind : String) → (m : Role × Concrete) → (back : List String) → Prop
  | top {P Q : List (Role × Concrete)} {m : Role × Concrete} (h : printOrder program = P ++ m :: Q) :
    Prints d program (P.flatMap (d.printed "package")) "package" m (Q.flatMap (d.printed "package"))
  | member {front : List String} {kind : String} {role : Role} {row : Row} {below : List Concrete}
      {back : List String} {P Q : List ((Role × Concrete) ⊕ String)} {m : Role × Concrete}
      (node : Prints d program front kind (role, .node row below) back)
      (kept : (below.isEmpty || isAtomic row.kind) = false) (h : arranged row below = P ++ .inl m :: Q) :
    Prints d program (front ++ spell (d.printed row.kind) P) row.kind m
      (spell (d.printed row.kind) Q ++ back)

namespace Prints

variable {front back : List String} {kind : String} {m : Role × Concrete}

theorem exists_top (h : m ∈ printOrder program) : ∃ front back, d.Prints program front "package" m back := by
  obtain ⟨P, Q, h⟩ := List.append_of_mem h
  exact ⟨_, _, .top h⟩

theorem exists_member {role : Role} {row : Row} {below : List Concrete}
    (node : d.Prints program front kind (role, .node row below) back)
    (kept : (below.isEmpty || isAtomic row.kind) = false) (h : .inl m ∈ arranged row below) :
    ∃ front' back', d.Prints program front' row.kind m back' := by
  obtain ⟨P, Q, h⟩ := List.append_of_mem h
  exact ⟨_, _, .member node kept h⟩

theorem tokens_eq (h : d.Prints program front kind m back) :
    (printOrder program).flatMap (d.printed "package") = front ++ d.printed kind m ++ back := by
  induction h with
  | top h => simp [h]
  | @member _ _ _ row below _ P Q m _ kept h ih =>
    have hne : arranged row below ≠ [] := by simp [h]
    rw [ih, printed_node kept hne, h]
    simp [spell]

theorem everywhere {R : Row → List Row → Prop} (hprogram : program.Everywhere R)
    (h : d.Prints program front kind m back) : m.2.Everywhere R := by
  induction h with
  | @top P Q m h =>
    have hmem : m ∈ printOrder program := by simp [h]
    have htops : m ∈ tops program := by
      obtain ⟨role, -, hmem⟩ := List.mem_flatMap.mp hmem
      exact List.mem_of_mem_filter hmem
    obtain ⟨r, hr, rfl⟩ := List.mem_map.mp htops
    cases program with
    | node row rs => exact hprogram.children r (List.mem_of_mem_filter hr)
  | @member _ _ _ row below _ P Q m _ _ h ih =>
    have harranged : .inl m ∈ arranged row below := by simp [h]
    have hmem : m ∈ members row.kind below := mem_of_mem_arrangement harranged
    obtain ⟨r, hr, hm⟩ := List.mem_filterMap.mp hmem
    obtain ⟨role, -, rfl⟩ := Option.map_eq_some_iff.mp hm
    exact ih.children r hr

end Prints

end Source.Document

/-! ## Lists -/

namespace Source

/-- Kinds that print members with commas between them. -/
def isListKind (kind : String) : Bool :=
  kind ∈ ["argument_list", "formal_parameters", "type_parameters", "throws", "enum_body", "switch_label"]

theorem isCollectionKind_of_isListKind {kind : String} (h : isListKind kind = true) :
    isCollectionKind kind = true ∧ kind ≠ "modifiers" ∧ isAtomic kind = false := by
  simp only [isListKind, List.mem_cons, List.not_mem_nil, or_false, decide_eq_true_eq] at h
  rcases h with rfl | rfl | rfl | rfl | rfl | rfl <;> decide

/-- Whether a row below a node of the given kind is one of the members with commas between them. Of an enum
these are the constants. -/
def Row.isListed (kind : String) (row : Row) : Bool :=
  !row.extra && row.named && !(kind == "enum_body" && row.kind == "enum_body_declarations")

/-- A named child of a node of a collection kind, with its role. -/
def asMember (kind : String) (r : Concrete) : Role × Concrete :=
  (memberRole kind r.value.kind, r)

theorem members_eq_map {kind : String} (hcollection : isCollectionKind kind = true)
    (hmodifiers : kind ≠ "modifiers") (below : List Concrete) :
    Document.members kind below =
      (below.filter fun r => !r.value.extra && r.value.named).map (asMember kind) := by
  have hrole : ∀ r : Concrete, (Document.roleUnder? kind r.value).map (·, r) =
      if (!r.value.extra && r.value.named) = true then some (asMember kind r) else none := fun r => by
    rw [Document.roleUnder?, if_pos hcollection, if_neg hmodifiers]
    cases r.value.extra <;> cases r.value.named <;> rfl
  rw [Document.members]
  induction below with
  | nil => rfl
  | cons r rs ih =>
    by_cases hkept : (!r.value.extra && r.value.named) = true
    · have hsome := (hrole r).trans (if_pos hkept)
      rw [List.filterMap_cons, hsome, List.filter_cons, if_pos hkept, List.map_cons, ← ih]
    · have hnone := (hrole r).trans (if_neg hkept)
      rw [List.filterMap_cons, hnone, List.filter_cons, if_neg hkept, ← ih]

theorem exists_arrangement_eq {α : Type} {kind label : String} (hkind : isListKind kind = true)
    (hlabel : label ≠ "default") (role : α → Role) (members : List α) :
    ∃ P Q, arrangement kind label role members =
      P ++ commas (members.filter fun a => kind != "enum_body" || role a == .typeMember) ++ Q := by
  simp only [isListKind, List.mem_cons, List.not_mem_nil, or_false, decide_eq_true_eq] at hkind
  rcases hkind with rfl | rfl | rfl | rfl | rfl | rfl
  · exact ⟨[.inr "("], [.inr ")"], by simp [arrangement]⟩
  · exact ⟨[.inr "("], [.inr ")"], by simp [arrangement]⟩
  · exact ⟨[.inr "<"], [.inr ">"], by simp [arrangement]⟩
  · exact ⟨[.inr "throws"], [], by simp [arrangement]⟩
  · exact ⟨[.inr "\x7b"], (members.filter fun a => role a != .typeMember).map .inl ++ [.inr "\x7d"],
      by simp [arrangement]⟩
  · exact ⟨[.inr "case"], [], by simp [arrangement, hlabel]⟩

theorem exists_arranged_eq {row : Row} {below : List Concrete} (hkind : isListKind row.kind = true)
    (hlabel : Document.interiorLabel row below ≠ "default") :
    ∃ P Q, Document.arranged row below =
      P ++ commas ((below.filter fun r => r.value.isListed row.kind).map (asMember row.kind)) ++ Q := by
  obtain ⟨hcollection, hmodifiers, -⟩ := isCollectionKind_of_isListKind hkind
  have hlisted : ∀ r : Concrete,
      ((row.kind != "enum_body" || (asMember row.kind r).1 == .typeMember) &&
        (!r.value.extra && r.value.named)) = r.value.isListed row.kind := fun r => by
    rw [Row.isListed, asMember, Bool.and_comm]
    by_cases henum : row.kind = "enum_body"
    · rw [henum]
      by_cases hrest : r.value.kind = "enum_body_declarations" <;> simp [memberRole, hrest]
    · have hne : (row.kind == "enum_body") = false := beq_eq_false_iff_ne.mpr henum
      simp [bne, hne]
  obtain ⟨P, Q, h⟩ := exists_arrangement_eq hkind hlabel Prod.fst (Document.members row.kind below)
  refine ⟨P, Q, h.trans ?_⟩
  rw [members_eq_map hcollection hmodifiers, List.filter_map, List.filter_filter]
  simp only [Function.comp_apply, hlisted]

/-! ## Separators -/

def Row.isComma (row : Row) : Bool :=
  !row.extra && !row.named && row.kind == ","

/-- Whether there is a comma between two children. -/
def hasComma (g : Gap Row) : Bool :=
  g.between.any Row.isComma

/-- Whether the second of two children of a node of the given kind is the guard of a case label: its last
member, which directly follows the one before. -/
def isGuarded (kind : String) (g : Gap Row) : Bool :=
  kind == "switch_label" && g.right.kind == "guard" && g.between.all Row.extra &&
    g.after.all fun row => !row.isListed kind

/-- What the grammar ensures of a list: members that follow each other are separated by a comma, unless the
second one is the guard of a case label. -/
def Separated (row : Row) (below : List Row) : Prop :=
  isListKind row.kind = true → ∀ g ∈ gaps below, g.isConsecutive (Row.isListed row.kind) = true →
    hasComma g = true ∨ isGuarded row.kind g = true

instance (row : Row) (below : List Row) : Decidable (Separated row below) :=
  inferInstanceAs (Decidable (_ → _))

theorem hasComma_of_isGuarded {kind : String} {g : Gap Row} (h : isGuarded kind g = true) :
    hasComma g = false := by
  simp only [isGuarded, Bool.and_eq_true, List.all_eq_true] at h
  rw [hasComma, List.any_eq_false]
  intro row hrow
  simp [Row.isComma, h.1.2 row hrow]

theorem Separated.hasComma_iff {row : Row} {below : List Row} (h : Separated row below)
    (hkind : isListKind row.kind = true) {g : Gap Row} (hwhole : g.whole = below)
    (hconsecutive : g.isConsecutive (Row.isListed row.kind) = true) :
    hasComma g = true ↔ isGuarded row.kind g = false := by
  constructor
  · intro hcomma
    by_contra hguarded
    rw [hasComma_of_isGuarded (by simpa using hguarded)] at hcomma
    simp at hcomma
  · intro hguarded
    exact (h hkind g (mem_gaps_iff.mpr hwhole) hconsecutive).resolve_right (by simp [hguarded])

theorem Document.Prints.exists_comma {d : Document} {program : Concrete} {front back : List String}
    {kind : String} {role : Role} {row : Row} {below : List Concrete}
    (h : d.Prints program front kind (role, .node row below) back) (hkind : isListKind row.kind = true)
    (hlabel : Document.interiorLabel row below ≠ "default") {g : Gap Concrete} (hwhole : g.whole = below)
    (hconsecutive : g.isConsecutive (fun r => r.value.isListed row.kind) = true) :
    ∃ front' back',
      d.Prints program (front ++ front') row.kind (asMember row.kind g.left)
        ("," :: d.printed row.kind (asMember row.kind g.right) ++ back' ++ back) ∧
      d.Prints program (front ++ front' ++ d.printed row.kind (asMember row.kind g.left) ++ [","]) row.kind
        (asMember row.kind g.right) (back' ++ back) := by
  have hkept : (below.isEmpty || isAtomic row.kind) = false := by
    rw [(isCollectionKind_of_isListKind hkind).2.2, Bool.or_false, ← hwhole]
    simp [Gap.whole]
  obtain ⟨P, Q, harranged⟩ := exists_arranged_eq hkind hlabel
  obtain ⟨P', Q', hcommas⟩ := exists_commas (asMember row.kind g.left) (asMember row.kind g.right)
    ((g.after.filter fun r => r.value.isListed row.kind).map (asMember row.kind))
    ((g.before.filter fun r => r.value.isListed row.kind).map (asMember row.kind))
  have hlisted : ((below.filter fun r => r.value.isListed row.kind).map (asMember row.kind)) =
      (g.before.filter fun r => r.value.isListed row.kind).map (asMember row.kind) ++
        asMember row.kind g.left :: asMember row.kind g.right ::
          (g.after.filter fun r => r.value.isListed row.kind).map (asMember row.kind) := by
    rw [← hwhole, Gap.filter_whole hconsecutive, List.map_append, List.map_cons, List.map_cons]
  rw [hlisted, hcommas] at harranged
  -- the same arrangement, taken apart at the left and at the right member
  have hleft := h.member hkept (P := P ++ P') (m := asMember row.kind g.left)
    (Q := .inr "," :: .inl (asMember row.kind g.right) :: (Q' ++ Q)) (by simp [harranged])
  have hright := h.member hkept (P := P ++ P' ++ [.inl (asMember row.kind g.left), .inr ","])
    (m := asMember row.kind g.right) (Q := Q' ++ Q) (by simp [harranged])
  refine ⟨spell (d.printed row.kind) (P ++ P'), spell (d.printed row.kind) (Q' ++ Q), ?_, ?_⟩
  · simpa using hleft
  · simpa using hright

/-- **Between members of a list that follow each other a comma is always printed**, and it is made up exactly
in front of the guard of a case label. A label that says `default` prints no members. -/
theorem comma_made_up_iff {name file text : String} {rows : List Row} {program : Concrete}
    (hfaulty : ∀ row ∈ rows, row.faulty = false) (hrows : Concrete.ofRows? rows = some program)
    (hseparated : program.Everywhere Separated) :
    ∃ t, parse name file text rows = .ok t ∧ ∀ width, ∃ ps : List Piece,
      t.print width = .ok (String.join (ps.map Piece.text)) ∧
      ∀ front kind role row below back,
        (Document.ofText file text).Prints program front kind (role, .node row below) back →
        isListKind row.kind = true → Document.interiorLabel row below ≠ "default" →
        ∀ g : Gap Concrete, g.whole = below →
          g.isConsecutive (fun r => r.value.isListed row.kind) = true →
          let left := asMember row.kind g.left
          let right := asMember row.kind g.right
          let printed := (Document.ofText file text).printed row.kind
          (∃ front' back',
            (Document.ofText file text).Prints program (front ++ front') row.kind left
              ("," :: printed right ++ back' ++ back) ∧
            (Document.ofText file text).Prints program (front ++ front' ++ printed left ++ [","]) row.kind
              right (back' ++ back) ∧
            ps.filterMap Piece.token? =
              front ++ front' ++ printed left ++ "," :: printed right ++ back' ++ back) ∧
          (hasComma (g.map Rose.value) = false ↔ isGuarded row.kind (g.map Rose.value) = true) := by
  obtain ⟨t, ht⟩ := exists_parse hfaulty name file text
  refine ⟨t, ht, fun width => ?_⟩
  obtain ⟨ps, hprint, -, htokens⟩ := exists_pieces_of_parse hrows ht width
  refine ⟨ps, hprint, ?_⟩
  intro front kind role row below back h hkind hlabel g hwhole hconsecutive left right printed
  constructor
  · obtain ⟨front', back', hleft, hright⟩ := h.exists_comma hkind hlabel hwhole hconsecutive
    refine ⟨front', back', hleft, hright, ?_⟩
    rw [htokens, hright.tokens_eq]
    simp [left, right, printed]
  · have hnode : Separated row (below.map Rose.value) := (h.everywhere hseparated).top
    have hiff := hnode.hasComma_iff hkind (g := g.map Rose.value) (by rw [Gap.whole_map, hwhole])
      (by simpa [Gap.isConsecutive, Gap.map] using hconsecutive)
    rw [← Bool.not_eq_true, hiff, Bool.not_eq_false]

namespace Sketch

/-- The label of a case with a guard. -/
def guardedLabel : Sketch :=
  above "switch_label" [token "case",
    above "pattern" [above "type_pattern" [leaf "type_identifier" none "T", leaf "identifier" none "t"]],
    above "guard" [token "when", leaf "identifier" none "c"]]

end Sketch

set_option synthInstance.maxSize 256 in
/-- In front of a guard a comma is printed that is not in the source text. -/
theorem comma_made_up_iff_guard :
    let s := Sketch.above "program" [Sketch.above "class_declaration" [Sketch.guardedLabel]]
    let d := Document.ofText "C" s.text
    ∃ program front kind role row below back, ∃ g : Gap Concrete,
      (∀ row ∈ s.rows 0 0, row.faulty = false) ∧ Concrete.ofRows? (s.rows 0 0) = some program ∧
      program.Everywhere Separated ∧ d.Prints program front kind (role, .node row below) back ∧
      isListKind row.kind = true ∧ Document.interiorLabel row below ≠ "default" ∧ g.whole = below ∧
      g.isConsecutive (fun r => r.value.isListed row.kind) = true ∧
      ∃ t, parse "C" "C" s.text (s.rows 0 0) = .ok t ∧ ∀ width, ∃ ps : List Piece,
        t.print width = .ok (String.join (ps.map Piece.text)) ∧
        (∃ front' back', ps.filterMap Piece.token? =
          front ++ front' ++ d.printed row.kind (asMember row.kind g.left) ++
            "," :: d.printed row.kind (asMember row.kind g.right) ++ back' ++ back) ∧
        hasComma (g.map Rose.value) = false := by
  intro s d
  have hplace : ∃ program ∈ Concrete.ofRows? (s.rows 0 0), program.Everywhere Separated ∧
      ∃ m ∈ Document.printOrder program, (m.2.children.isEmpty || isAtomic m.2.value.kind) = false ∧
        ∃ m' ∈ Document.members m.2.value.kind m.2.children,
          Document.arranged m.2.value m.2.children = [.inl m'] ∧ isListKind m'.2.value.kind = true ∧
          Document.interiorLabel m'.2.value m'.2.children ≠ "default" ∧
          ∃ g ∈ gaps m'.2.children, g.isConsecutive (fun r => r.value.isListed m'.2.value.kind) = true ∧
            isGuarded m'.2.value.kind (g.map Rose.value) = true := by
    decide +kernel
  obtain ⟨program, hrows, hseparated, ⟨role, row, below⟩, hm, hkept, ⟨role', row', below'⟩, -, hm', hkind,
    hlabel, g, hg, hconsecutive, hguarded⟩ := hplace
  have hfaulty : ∀ row ∈ s.rows 0 0, row.faulty = false := fun row hrow =>
    (Sketch.whole_rows 0 0 s row hrow).2
  have hmem : .inl (role', .node row' below') ∈ Document.arranged row below := by
    rw [show Document.arranged row below = [.inl (role', .node row' below')] from hm']
    exact List.mem_singleton_self _
  obtain ⟨_, _, htop⟩ := Document.Prints.exists_top (d := d) hm
  obtain ⟨front, back, hprints⟩ := htop.exists_member hkept hmem
  have hwhole := mem_gaps_iff.mp hg
  obtain ⟨t, ht, hprint⟩ : ∃ t, parse "C" "C" s.text (s.rows 0 0) = .ok t ∧ _ :=
    comma_made_up_iff hfaulty hrows hseparated
  refine ⟨program, front, row.kind, role', row', below', back, g, hfaulty, hrows, hseparated, hprints, hkind,
    hlabel, hwhole, hconsecutive, t, ht, fun width => ?_⟩
  obtain ⟨ps, htext, hplaces⟩ := hprint width
  obtain ⟨⟨front', back', -, -, htokens⟩, hiff⟩ :=
    hplaces front row.kind role' row' below' back hprints hkind hlabel g hwhole hconsecutive
  exact ⟨ps, htext, ⟨front', back', htokens⟩, hiff.mpr hguarded⟩

namespace Sketch

/-- A method that switches over `o`, with a case for the given label. -/
def switching (label : Sketch) : Sketch :=
  let name := leaf "identifier" none
  let rule := above "switch_rule" [label, token "->", above "expression_statement"
    [above "method_invocation" [name "b", above "argument_list" [token "(", token ")"]], token ";"]]
  let body := above "block" [token "\x7b", above "switch_expression"
    [token "switch", above "parenthesized_expression" [token "(", name "o", token ")"],
      above "switch_block" [token "\x7b", rule, token "\x7d"]], token "\x7d"]
  above "program" [above "class_declaration" [token "class", name "C", above "class_body" [token "\x7b",
    above "method_declaration" [leaf "void_type" none "void", name "f",
      above "formal_parameters" [token "(", token ")"], body], token "\x7d"]]]

end Sketch

/-- A guard gets a comma in front of it, though there is none in the whole source text. -/
theorem guard_after_comma :
    let s := Sketch.switching Sketch.guardedLabel
    (∀ row ∈ s.rows 0 0, row.faulty = false ∧ row.missing = false ∧ row.isComma = false) ∧
      (∃ program ∈ Concrete.ofRows? (s.rows 0 0), program.Everywhere Separated) ∧
      ((s.tree "C").print 4).toOption = some
        ("class C \x7b\n    void f() \x7b\n        switch (o) \x7b\n            case T t, when c -> b();\n" ++
          "        \x7d\n    \x7d\n\x7d\n") := by
  decide +kernel

end Source

end TreePatch
