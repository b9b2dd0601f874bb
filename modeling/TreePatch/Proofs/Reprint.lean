import TreePatch.Proofs.Printed
import TreePatch.Proofs.SameForm

/-!
# Printing a source text again

A source text whose nodes are written as they are printed comes back token for token, whatever its layout
was and whatever the width of the indentation is: comments are left out, literals are kept whole, and the
punctuation that conversion drops is supplied where it stood.
-/

namespace TreePatch

open Layout

instance Rose.instDecidableEq {α : Type} [DecidableEq α] : DecidableEq (Rose α) := fun r s =>
  decidable_of_iff (r.beq s = true) ⟨eq_of_beq r s, fun h => h ▸ beq_self r⟩

namespace Source

deriving instance DecidableEq for Row

namespace Document

/-! ## Leaves -/

mutual

/-- The texts of the leaves of a subtree, in order. Comments have none, and literals are not split. -/
def leaves (d : Document) : Concrete → List String
  | .node row below =>
    if row.extra then []
    else if below.isEmpty || isAtomic row.kind then [d.textOf row]
    else d.leavesAll below

/-- The texts of the leaves of consecutive subtrees. -/
def leavesAll (d : Document) : List Concrete → List String
  | [] => []
  | r :: rs => d.leaves r ++ d.leavesAll rs

end

variable {d : Document}

theorem leaves_of_extra {r : Concrete} (h : r.value.extra = true) : d.leaves r = [] := by
  cases r with
  | node row below =>
    rw [leaves]
    exact if_pos h

/-- The children of a node of the given kind as they are written: the kept ones with their roles, and
the others by their kinds. Comments do not count. -/
def written (kind : String) (below : List Concrete) : List ((Role × Concrete) ⊕ String) :=
  (below.filter fun r => !r.value.extra).map fun r =>
    ((roleUnder? kind r.value).map fun role => (role, r)).elim (.inr r.value.kind) .inl

/-- Whether a node is a token that is written like its kind. -/
def isPunctuation (d : Document) (r : Concrete) : Bool :=
  r.children.isEmpty && d.textOf r.value == r.value.kind

mutual

/-- Whether every node of a subtree is written as it is printed. A leaf stands in the text and is of no
collection kind. Any other node has a child that is no comment, and its children are written as its kind
arranges them. -/
def isRegular (d : Document) : Concrete → Bool
  | .node row below =>
    if below.isEmpty || isAtomic row.kind then
      !row.missing && !isCollectionKind row.kind
    else
      below.any (fun r => !r.value.extra) && decide (written row.kind below = arranged row below) &&
        d.areRegular row.kind below

/-- Whether the kept ones among the children of a node of the given kind are written as they are printed,
and the others are punctuation or comments. -/
def areRegular (d : Document) (kind : String) : List Concrete → Bool
  | [] => true
  | r :: rs =>
    (r.value.extra || if (roleUnder? kind r.value).isSome then d.isRegular r else d.isPunctuation r) &&
      d.areRegular kind rs

end

theorem leaves_of_punctuation {r : Concrete} (hextra : r.value.extra = false)
    (h : d.isPunctuation r = true) : d.leaves r = [r.value.kind] := by
  cases r with
  | node row below =>
    rw [isPunctuation, Bool.and_eq_true, beq_iff_eq] at h
    obtain ⟨hbelow, htext⟩ : below.isEmpty = true ∧ d.textOf row = row.kind := h
    have hextra : row.extra = false := hextra
    rw [leaves, hextra, hbelow, htext]
    rfl

mutual

/-- **A regular subtree prints its leaves.** -/
theorem printed_eq_leaves (parentKind : String) (role : Role) : ∀ r : Concrete,
    d.isRegular r = true → r.value.extra = false → d.printed parentKind (role, r) = d.leaves r
  | .node row below, hregular, hextra => by
    have hextra : row.extra = false := hextra
    rw [isRegular] at hregular
    rw [leaves, if_neg (by simp [hextra])]
    split at hregular
    · next hleaf =>
      rw [Bool.and_eq_true, Bool.not_eq_true', Bool.not_eq_true'] at hregular
      rw [if_pos hleaf, printed_leaf hleaf hregular.2 hregular.1]
    · next hleaf =>
      rw [Bool.and_eq_true, Bool.and_eq_true, decide_eq_true_iff] at hregular
      obtain ⟨⟨hany, hwritten⟩, hbelow⟩ := hregular
      -- some child is no comment, so the node is not taken for a leaf in print
      have hne : arranged row below ≠ [] := by
        rw [← hwritten, written, ne_eq, List.map_eq_nil_iff, List.filter_eq_nil_iff]
        simpa using hany
      rw [if_neg hleaf, printed_node (by simpa using hleaf) hne, ← hwritten,
        spell_written row.kind below hbelow]

theorem spell_written (kind : String) : ∀ rs : List Concrete, d.areRegular kind rs = true →
    spell (d.printed kind) (written kind rs) = d.leavesAll rs
  | [], _ => rfl
  | r :: rs, hregular => by
    rw [areRegular, Bool.and_eq_true] at hregular
    obtain ⟨hr, hrs⟩ := hregular
    have hrest := spell_written kind rs hrs
    rw [leavesAll]
    cases hextra : r.value.extra with
    | true =>
      have hwritten : written kind (r :: rs) = written kind rs := by
        simp [written, hextra]
      rw [hwritten, hrest, leaves_of_extra hextra, List.nil_append]
    | false =>
      have hwritten : written kind (r :: rs) =
          [((roleUnder? kind r.value).map fun role => (role, r)).elim (.inr r.value.kind) .inl] ++
            written kind rs := by
        simp [written, hextra]
      rw [hextra, Bool.false_or] at hr
      rw [hwritten, spell_append, hrest]
      congr 1
      cases hrole : roleUnder? kind r.value with
      | none =>
        rw [hrole] at hr
        rw [leaves_of_punctuation hextra hr]
        rfl
      | some role =>
        rw [hrole] at hr
        rw [← printed_eq_leaves kind role r hr hextra]
        exact List.append_nil _

end

end Document

namespace Sketch

/-- An anonymous token. -/
def token (text : String) : Sketch :=
  leaf text none text

/-- A node above others. -/
def above (kind : String) (below : List Sketch) : Sketch :=
  .node ⟨kind, none, ""⟩ below

end Sketch

end Source

end TreePatch
