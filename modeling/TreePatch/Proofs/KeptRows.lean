import Mathlib.Data.List.GetD
import TreePatch.Proofs.Converted

/-!
# Rows that are kept

The rows of a concrete syntax tree have places in its preorder. Conversion drops comments, delimiters and
separators, and all that a text kept whole consists of. What is neither dropped nor below a dropped row is
kept (`Concrete.mem_kept_iff`), and the nodes of the converted tree are made of the kept rows, one after the
other, with the same links (`MadeFrom`).
-/

namespace TreePatch.Source

open Document (roleUnder?)

/-! ## Places of rows -/

/-- A row with the places of its parent and of its children in the preorder. -/
structure Place where
  row : Row
  parent : Option Nat
  children : List Nat

namespace Concrete

/-- What a subtree puts in its place. -/
def entry (s : Concrete) (parent : Option Nat) (children : List Nat) : Place :=
  ⟨s.value, parent, children⟩

/-- The place `k` of the preorder. -/
def place (r : Concrete) (k : Nat) : Place :=
  (r.number entry 0 none).getD k ⟨r.value, none, []⟩

def rowAt (r : Concrete) (k : Nat) : Row :=
  (r.place k).row

def parentAt (r : Concrete) (k : Nat) : Option Nat :=
  (r.place k).parent

/-- The places strictly above `k`, nearest first. -/
def above (r : Concrete) (k : Nat) : List Nat :=
  Walk.upward r.parentAt r.size k

theorem numbered (r : Concrete) :
    Rose.Numbered entry (·.parent) (·.children) r.place r where
  par_entry _ _ _ := rfl
  kids_entry _ _ _ := rfl
  laid := by
    refine Rose.laid_of_number 0 none r fun i x hx => ?_
    rw [Nat.zero_add, place, List.getD_eq_getElem?_getD, hx]
    rfl
  outside i hi := by
    have hlength := Rose.length_number entry 0 none r
    rw [place, List.getD_eq_getElem?_getD, List.getElem?_eq_none (by omega)]
    exact ⟨rfl, rfl⟩

theorem forest (r : Concrete) :
    Forest r.parentAt (fun k => (r.place k).children) r.size :=
  r.numbered.forest

end Concrete

/-! ## Dropped rows -/

/-- Whether conversion drops a row directly below the root: a comment or an anonymous token. -/
def dropsAtTop (row : Row) : Bool :=
  row.extra || !row.named

/-- Whether conversion drops a row below a node of the given kind: whatever is in a text that is kept whole,
comments, and the delimiters and separators of collection kinds. Of these only modifiers keep their
keywords. -/
def dropsUnder (parentKind : String) (row : Row) : Bool :=
  isAtomic parentKind || row.extra ||
    (isCollectionKind parentKind && parentKind != "modifiers" && !row.named)

namespace Concrete

/-- The row at `k` is dropped for what it is, not because one above it is. -/
def Drops (r : Concrete) (k : Nat) : Prop :=
  ∃ p ∈ r.parentAt k,
    (if p = 0 then dropsAtTop (r.rowAt k) else dropsUnder (r.rowAt p).kind (r.rowAt k)) = true

instance (r : Concrete) (k : Nat) : Decidable (r.Drops k) :=
  inferInstanceAs (Decidable (∃ p ∈ _, _))

end Concrete

/-- The role of a row directly below the root; none when the row is dropped. -/
def topRole? (row : Row) : Option Role :=
  if dropsAtTop row then none else some (topLevelRole row.kind)

theorem isSome_topRole (row : Row) : (topRole? row).isSome = true ↔ dropsAtTop row = false := by
  rw [topRole?]
  split <;> simp_all

theorem isSome_roleUnder {parentKind : String} (h : isAtomic parentKind = false) (row : Row) :
    (roleUnder? parentKind row).isSome = true ↔ dropsUnder parentKind row = false := by
  rw [roleUnder?, dropsUnder, h, Bool.false_or]
  split
  · next hextra => simp [hextra]
  · next hextra =>
    split
    · next hcollection =>
      split
      · next hnamed => simp [hextra, hnamed]
      · next hnamed => split <;> simp_all
    · next hcollection =>
      simp only [hextra, hcollection]
      split
      · simp
      · split <;> simp

/-! ## Kept rows -/

namespace Concrete

mutual

/-- The places of the rows that are kept of a subtree whose own row is, at `start`. -/
def keptOf (start : Nat) : Concrete → List Nat
  | .node row below =>
    start :: if isAtomic row.kind then [] else keptAmong (roleUnder? row.kind) (start + 1) below

/-- The places of the rows that are kept of consecutive subtrees when `role?` tells which of their own rows
are. -/
def keptAmong (role? : Row → Option Role) (start : Nat) : List Concrete → List Nat
  | [] => []
  | r :: rs =>
    (if (role? r.value).isSome then keptOf start r else []) ++ keptAmong role? (start + r.size) rs

end

/-- The places of the rows that are kept, and that of the root. -/
def kept (program : Concrete) : List Nat :=
  0 :: keptAmong topRole? 1 program.children

mutual

theorem keptOf_sublist (start : Nat) : ∀ r : Concrete,
    (keptOf start r).Sublist (List.range' start r.size)
  | .node row below => by
    rw [keptOf, Rose.size, List.range'_succ]
    refine List.Sublist.cons_cons start ?_
    split
    · exact List.nil_sublist _
    · exact keptAmong_sublist _ (start + 1) below

theorem keptAmong_sublist (role? : Row → Option Role) (start : Nat) : ∀ rs : List Concrete,
    (keptAmong role? start rs).Sublist (List.range' start (Rose.sizeAll rs))
  | [] => List.nil_sublist _
  | r :: rs => by
    rw [keptAmong, Rose.sizeAll, ← List.range'_append_1]
    refine List.Sublist.append ?_ (keptAmong_sublist role? (start + r.size) rs)
    split
    · exact keptOf_sublist start r
    · exact List.nil_sublist _

end

theorem kept_sublist (program : Concrete) : program.kept.Sublist (List.range' 0 program.size) := by
  rw [kept, Rose.size_eq, List.range'_succ]
  exact List.Sublist.cons_cons 0 (keptAmong_sublist topRole? 1 program.children)

variable {program : Concrete}

theorem drops_iff {k p : Nat} (hp : program.parentAt k = some p) :
    program.Drops k ↔ (if p = 0 then dropsAtTop (program.rowAt k)
      else dropsUnder (program.rowAt p).kind (program.rowAt k)) = true := by
  constructor
  · rintro ⟨p', hp', h⟩
    obtain rfl := Option.some.inj (hp.symm.trans hp')
    exact h
  · exact fun h => ⟨p, hp, h⟩

theorem parentAt_iff {start k : Nat} {par : Option Nat} {r : Concrete}
    (h : Rose.Laid entry program.place start par r) :
    program.parentAt k = some start ↔ k ∈ Rose.topIds (start + 1) r.children := by
  rw [← program.forest.mem_below, program.numbered.kids_of_laid h]

theorem mem_below_iff {start k : Nat} {par : Option Nat} {r : Concrete} (role? : Row → Option Role)
    {places : List Nat} (h : Rose.Laid entry program.place start par r)
    (hrole : program.parentAt k = some start →
      ((role? (program.rowAt k)).isSome = true ↔ ¬ program.Drops k))
    (hplaces : k ∈ places ↔
      (k ∈ Rose.topIds (start + 1) r.children ∧ (role? (program.rowAt k)).isSome = true) ∨
        ∃ p ∈ places, program.parentAt k = some p ∧ ¬ program.Drops k) :
    k ∈ places ↔ ∃ p ∈ start :: places, program.parentAt k = some p ∧ ¬ program.Drops k := by
  have htop : (k ∈ Rose.topIds (start + 1) r.children ∧ (role? (program.rowAt k)).isSome = true) ↔
      program.parentAt k = some start ∧ ¬ program.Drops k := by
    rw [← parentAt_iff h]
    exact and_congr_right hrole
  simp only [List.mem_cons, exists_eq_or_imp]
  rw [← htop]
  exact hplaces

mutual

theorem mem_keptOf_iff {k : Nat} (start : Nat) (hstart : 0 < start) (par : Option Nat) :
    ∀ r : Concrete, Rose.Laid entry program.place start par r →
      (k ∈ keptOf start r ↔ k = start ∨
        ∃ p ∈ keptOf start r, program.parentAt k = some p ∧ ¬ program.Drops k)
  | .node row below, h => by
    have hrow : program.rowAt start = row := by rw [rowAt, h.get_eq]; rfl
    have hdrops : program.parentAt k = some start →
        (program.Drops k ↔ dropsUnder row.kind (program.rowAt k) = true) := fun hp => by
      rw [drops_iff hp, if_neg (Nat.ne_of_gt hstart), hrow]
    rw [keptOf, List.mem_cons]
    refine or_congr_right ?_
    split
    · next hatomic =>
      simp only [List.not_mem_nil, List.mem_singleton, exists_eq_left, false_iff, not_and, not_not]
      exact fun hp => (hdrops hp).mpr (by simp [dropsUnder, hatomic])
    · next hatomic =>
      refine mem_below_iff (roleUnder? row.kind) h (fun hp => ?_)
        (mem_keptAmong_iff _ (start + 1) (Nat.succ_pos _) (some start) below h.2)
      rw [isSome_roleUnder (by simpa using hatomic), hdrops hp, Bool.not_eq_true]

theorem mem_keptAmong_iff {k : Nat} (role? : Row → Option Role) (start : Nat) (hstart : 0 < start)
    (par : Option Nat) : ∀ rs : List Concrete, Rose.LaidAll entry program.place start par rs →
      (k ∈ keptAmong role? start rs ↔
        (k ∈ Rose.topIds start rs ∧ (role? (program.rowAt k)).isSome = true) ∨
          ∃ p ∈ keptAmong role? start rs, program.parentAt k = some p ∧ ¬ program.Drops k)
  | [], _ => by simp [keptAmong, Rose.topIds]
  | r :: rs, h => by
    have hrow : program.rowAt start = r.value := by rw [rowAt, h.1.get_eq]; rfl
    -- the subtree in front, whose own row may be dropped
    have hfirst : k ∈ (if (role? r.value).isSome then keptOf start r else []) ↔
        (k = start ∧ (role? (program.rowAt k)).isSome = true) ∨
          ∃ p ∈ (if (role? r.value).isSome then keptOf start r else []),
            program.parentAt k = some p ∧ ¬ program.Drops k := by
      split
      · next hkeep =>
        rw [mem_keptOf_iff start hstart par r h.1]
        refine or_congr_left ⟨fun hk => ⟨hk, ?_⟩, And.left⟩
        rw [hk, hrow, hkeep]
      · next hdrop =>
        simp only [List.not_mem_nil, false_and, exists_false, or_false, false_iff]
        rintro ⟨rfl, hkeep⟩
        exact hdrop (hrow ▸ hkeep)
    rw [keptAmong, Rose.topIds, List.mem_append, hfirst,
      mem_keptAmong_iff role? (start + r.size) (by omega) par rs h.2]
    simp only [List.mem_append, List.mem_cons, or_and_right, exists_or]
    exact or_or_or_comm

end

theorem laid_below (program : Concrete) :
    Rose.LaidAll entry program.place 1 (some 0) program.children := by
  have h := program.numbered.laid
  generalize program.place = place at h
  cases program with
  | node row below => exact h.2

theorem mem_kept_iff_parent {k : Nat} : k ∈ program.kept ↔ k = 0 ∨
    ∃ p ∈ program.kept, program.parentAt k = some p ∧ ¬ program.Drops k := by
  rw [kept, List.mem_cons]
  refine or_congr_right (mem_below_iff topRole? program.numbered.laid (fun hp => ?_)
    (mem_keptAmong_iff topRole? 1 Nat.one_pos (some 0) _ program.laid_below))
  rw [isSome_topRole, drops_iff hp, if_pos rfl, Bool.not_eq_true]

theorem parentAt_root (program : Concrete) : program.parentAt 0 = none := by
  rw [parentAt, program.numbered.laid.get_eq, entry]

theorem above_root (program : Concrete) : program.above 0 = [] :=
  Forest.upward_of_none program.parentAt_root

theorem not_drops_root (program : Concrete) : ¬ program.Drops 0 := by
  rintro ⟨p, hp, -⟩
  rw [parentAt_root] at hp
  simp at hp

/-- **A row is kept if it is neither dropped nor below a dropped row.** -/
theorem mem_kept_iff {k : Nat} :
    k ∈ program.kept ↔ k < program.size ∧ ∀ j ∈ k :: program.above k, ¬ program.Drops j := by
  have F := program.forest
  induction k using F.induction_up with
  | step k ih =>
    rw [mem_kept_iff_parent]
    cases hp : program.parentAt k with
    | none =>
      have hroot : k < program.size → k = 0 := fun hk => by
        obtain ⟨-, -, -, -, ⟨hk, -⟩ | ⟨p, -, hp', -⟩⟩ := program.numbered.exists_laid
          (P := fun _ => True) (fun _ _ _ _ _ => trivial) trivial hk
        · exact hk
        · exact absurd (hp.symm.trans hp') (by simp)
      constructor
      · rintro (rfl | ⟨p, -, hp', -⟩)
        · rw [above_root, List.forall_mem_singleton]
          exact ⟨program.size_pos, program.not_drops_root⟩
        · simp at hp'
      · exact fun h => Or.inl (hroot h.1)
    | some p =>
      have habove : program.above k = p :: program.above p := F.upward_of_some hp
      have hne : k ≠ 0 := by
        rintro rfl
        simp [parentAt_root] at hp
      rw [habove, List.forall_mem_cons]
      constructor
      · rintro (hk | ⟨p', hmem, hp', hkeep⟩)
        · exact absurd hk hne
        · obtain rfl := Option.some.inj hp'
          exact ⟨(F.lt_size hp).2, hkeep, ((ih p hp).mp hmem).2⟩
      · rintro ⟨-, hkeep, hchain⟩
        exact Or.inr ⟨p, (ih p hp).mpr ⟨(F.lt_size hp).1, hchain⟩, rfl, hkeep⟩

end Concrete

/-! ## Nodes made of kept rows -/

namespace Document

open Concrete

theorem convertTop_eq_among (d : Document) (program : Concrete) :
    d.convertTop program = d.convertAmong topRole? program.children := by
  rw [convertTop, convertAmong]
  induction program.children with
  | nil => rfl
  | cons r rs ih =>
    rw [List.filter_cons, List.filterMap_cons, topRole?, dropsAtTop]
    cases r.value.extra <;> cases r.value.named <;> simp [ih]

/-- A node with its parent is made of the row at `k` if it has the kind of the row, is implicit if the row is
missing in the text, and stands below the node made of the row above. -/
structure MadeOf (program : Concrete) (origin : NodeId → Nat) (node : Content × Option NodeId)
    (k : Nat) : Prop where
  kind : node.1.kind = (program.rowAt k).kind
  implicit : node.1.implicit = (program.rowAt k).missing
  parent : node.2.map origin = program.parentAt k

/-- The nodes of a subtree with their parents, numbered from `id`. -/
def linksFrom (id : NodeId) (parent : Option NodeId) (s : Rose Content) : List (Content × Option NodeId) :=
  s.number (fun s parent _ => (s.value, parent)) id parent

/-- `linksFrom` on consecutive subtrees. -/
def linksOfAll (id : NodeId) (parent : Option NodeId) (ss : List (Rose Content)) :
    List (Content × Option NodeId) :=
  Rose.numberAll (fun s parent _ => (s.value, parent)) id parent ss

variable {d : Document} {program : Concrete} {origin : NodeId → Nat}

theorem kind_leaf (role : Role) (row : Row) : (d.leaf role row).kind = row.kind := by
  rw [leaf]
  split <;> rfl

theorem implicit_leaf (role : Role) (row : Row) : (d.leaf role row).implicit = row.missing := by
  rw [leaf]
  split
  · next hmissing => exact hmissing.symm
  · next hmissing => exact (Bool.eq_false_iff.mpr hmissing).symm

mutual

theorem madeOf_convert (role : Role) (id : NodeId) (q : Option NodeId) (start : Nat) (par : Option Nat)
    (hq : q.map origin = par) : ∀ r : Concrete, Rose.Laid entry program.place start par r →
      (∀ j k, (keptOf start r)[j]? = some k → origin (id + j) = k) →
        List.Forall₂ (MadeOf program origin) (linksFrom id q (d.convert role r)) (keptOf start r)
  | .node row below, h, horigin => by
    have hrow : program.rowAt start = row := by rw [rowAt, h.get_eq]; rfl
    have hpar : program.parentAt start = par := by rw [parentAt, h.get_eq]; rfl
    have hstart : origin id = start := horigin 0 start (by rw [keptOf]; rfl)
    rw [keptOf] at horigin ⊢
    rw [convert]
    split
    · next hleaf =>
      have hnil : (if isAtomic row.kind then [] else
          keptAmong (roleUnder? row.kind) (start + 1) below) = [] := by
        split
        · rfl
        · next hatomic =>
          obtain rfl : below = [] := by simpa [hatomic] using hleaf
          rw [keptAmong]
      rw [hnil]
      exact .cons ⟨by rw [hrow]; exact kind_leaf role row, by rw [hrow]; exact implicit_leaf role row,
        hq.trans hpar.symm⟩ .nil
    · next hinner =>
      have hatomic : isAtomic row.kind = false := by simp_all
      simp only [hatomic, Bool.false_eq_true, if_false] at horigin ⊢
      refine .cons ⟨by rw [hrow]; rfl, by rw [hrow]; rfl, hq.trans hpar.symm⟩ ?_
      rw [convertBelow_eq_among]
      refine madeOf_convertAmong _ (id + 1) (some id) (start + 1) (some start) (by simp [hstart]) below h.2
        fun j k hk => ?_
      rw [Nat.add_assoc, Nat.add_comm 1]
      exact horigin (j + 1) k (by simpa using hk)

theorem madeOf_convertAmong (role? : Row → Option Role) (id : NodeId) (q : Option NodeId) (start : Nat)
    (par : Option Nat) (hq : q.map origin = par) : ∀ rs : List Concrete,
      Rose.LaidAll entry program.place start par rs →
        (∀ j k, (keptAmong role? start rs)[j]? = some k → origin (id + j) = k) →
          List.Forall₂ (MadeOf program origin) (linksOfAll id q (d.convertAmong role? rs))
            (keptAmong role? start rs)
  | [], _, _ => .nil
  | r :: rs, h, horigin => by
    rw [keptAmong] at horigin ⊢
    rw [convertAmong, List.filterMap_cons]
    cases hrole : role? r.value with
    | none =>
      simp only [hrole, Option.isSome_none, Bool.false_eq_true, if_false, List.nil_append] at horigin ⊢
      exact madeOf_convertAmong role? id q (start + r.size) par hq rs h.2 horigin
    | some role =>
      simp only [hrole, Option.isSome_some, if_true] at horigin ⊢
      have hfirst := madeOf_convert role id q start par hq r h.1 fun j k hk =>
        horigin j k (by rw [List.getElem?_append_left (List.getElem?_eq_some_iff.mp hk).1, hk])
      have hlength : (keptOf start r).length = (d.convert role r).size := by
        rw [← hfirst.length_eq, linksFrom, Rose.length_number]
      refine List.rel_append hfirst ?_
      refine madeOf_convertAmong role? (id + (d.convert role r).size) q (start + r.size) par hq rs h.2
        fun j k hk => ?_
      rw [Nat.add_assoc]
      refine horigin _ k ?_
      rw [List.getElem?_append_right (by omega), hlength, Nat.add_sub_cancel_left, hk]

end

end Document

/-- The nodes of `t` below the root are made of the kept rows of `program`, in order and with the same links;
`origin` gives the places of these rows. -/
structure MadeFrom (program : Concrete) (origin : NodeId → Nat) (t : Tree) : Prop where
  root : origin Tree.root = 0
  increasing : ∀ {m n}, m < n → n < t.size → origin m < origin n
  kept_iff : ∀ k, (∃ n < t.size, n ≠ Tree.root ∧ origin n = k) ↔
    0 < k ∧ k < program.size ∧ ∀ j ∈ k :: program.above k, ¬ program.Drops j
  kind : ∀ n < t.size, n ≠ Tree.root → t.kind n = (program.rowAt (origin n)).kind
  implicit : ∀ n < t.size, n ≠ Tree.root → t.isImplicit n = (program.rowAt (origin n)).missing
  parent : ∀ n < t.size, n ≠ Tree.root → (t.parent? n).map origin = program.parentAt (origin n)

theorem linksFrom_ofRose (name : String) (file : Option String) (r : Rose Content) {n : Nat}
    (hn : n < r.size) : (Document.linksFrom 0 none r)[n]? =
      some ((Tree.ofRose name file r).content n, (Tree.ofRose name file r).parent? n) := by
  have hlinks : Document.linksFrom 0 none r =
      (r.number (fun s parent children => (⟨s.value, parent, children⟩ : Node)) 0 none).map
        fun m => (m.toContent, m.parent) := by
    rw [Rose.map_number]
    rfl
  have hlength := Rose.length_number
    (fun s parent children => (⟨s.value, parent, children⟩ : Node)) 0 none r
  rw [hlinks, List.getElem?_map, List.getElem?_eq_getElem (by omega), Option.map_some]
  have hnode : (Tree.ofRose name file r).node n =
      (r.number (fun s parent children => (⟨s.value, parent, children⟩ : Node)) 0 none)[n] := by
    rw [Tree.node, Array.getD_eq_getD_getElem?, Tree.ofRose, List.getElem?_toArray,
      List.getElem?_eq_getElem (by omega), Option.getD_some]
  rw [Tree.content, Tree.parent?, hnode]

theorem Concrete.pairwise_kept (program : Concrete) : program.kept.Pairwise (· < ·) :=
  (List.pairwise_lt_range' 1).sublist program.kept_sublist

theorem madeOf_convertTop (d : Document) (program : Concrete) :
    List.Forall₂ (Document.MadeOf program fun n => program.kept.getD n 0)
      (Document.linksOfAll 1 (some 0) (d.convertTop program))
      (Concrete.keptAmong topRole? 1 program.children) := by
  rw [Document.convertTop_eq_among]
  refine Document.madeOf_convertAmong topRole? 1 (some 0) 1 (some 0) rfl _ program.laid_below
    fun j k hk => ?_
  rw [Concrete.kept, Nat.add_comm, List.getD_cons_succ, List.getD_eq_getElem?_getD, hk, Option.getD_some]

/-- **The tree of a source text is made from its concrete syntax.** -/
theorem madeFrom_ofRose {d : Document} {program : Concrete} {name : String} {file : Option String} {t : Tree}
    (ht : t = Tree.ofRose name file (.node Tree.rootContent (d.convertTop program))) :
    MadeFrom program (fun n => program.kept.getD n 0) t := by
  have hmade := madeOf_convertTop d program
  have hsize : t.size = Rose.sizeAll (d.convertTop program) + 1 := by
    rw [ht, Tree.size_ofRose, Rose.size]
  have hlength : program.kept.length = t.size := by
    rw [hsize, Concrete.kept, List.length_cons, ← hmade.length_eq, Document.linksOfAll,
      Rose.length_numberAll]
  have hincreasing : ∀ {m n}, m < n → n < program.kept.length →
      program.kept.getD m 0 < program.kept.getD n 0 := fun {m n} hmn hn => by
    have hm : m < program.kept.length := Nat.lt_trans hmn hn
    rw [List.getD_eq_getElem _ _ hm, List.getD_eq_getElem _ _ hn]
    exact List.pairwise_iff_getElem.mp program.pairwise_kept m n hm hn hmn
  have hnode : ∀ n < t.size, n ≠ Tree.root → Document.MadeOf program (fun n => program.kept.getD n 0)
      (t.content n, t.parent? n) (program.kept.getD n 0) := by
    intro n hn hne
    obtain ⟨m, rfl⟩ := Nat.exists_eq_succ_of_ne_zero hne
    -- the root is first in both lists
    have hlink : (Document.linksOfAll 1 (some 0) (d.convertTop program))[m]? =
        some (t.content (m + 1), t.parent? (m + 1)) := by
      rw [ht]
      exact linksFrom_ofRose name file _ (by rw [← Tree.size_ofRose name file, ← ht]; exact hn)
    obtain ⟨hm, hlink⟩ := List.getElem?_eq_some_iff.mp hlink
    have hmade := (List.forall₂_iff_get.mp hmade).2 m hm (hmade.length_eq ▸ hm)
    rw [List.get_eq_getElem, List.get_eq_getElem, hlink] at hmade
    rw [Concrete.kept, List.getD_cons_succ, List.getD_eq_getElem]
    exact hmade
  refine ⟨rfl, fun hmn hn => hincreasing hmn (hlength ▸ hn), fun k => ?_,
    fun n hn hne => (hnode n hn hne).kind, fun n hn hne => (hnode n hn hne).implicit,
    fun n hn hne => (hnode n hn hne).parent⟩
  rw [← Concrete.mem_kept_iff, ← hlength]
  constructor
  · rintro ⟨n, hn, hne, rfl⟩
    refine ⟨hincreasing (m := 0) (Nat.pos_of_ne_zero hne) hn, ?_⟩
    rw [List.getD_eq_getElem _ _ hn]
    exact List.getElem_mem hn
  · rintro ⟨hk, hmem⟩
    obtain ⟨n, hn, rfl⟩ := List.mem_iff_getElem.mp hmem
    refine ⟨n, hn, ?_, List.getD_eq_getElem _ _ hn⟩
    rintro rfl
    exact absurd hk (Nat.lt_irrefl 0)

end TreePatch.Source
