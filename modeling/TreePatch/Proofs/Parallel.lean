import Mathlib.Data.Fintype.Pigeonhole
import Mathlib.Logic.Relator
import TreePatch.Path
import TreePatch.Proofs.Graft
import TreePatch.Proofs.Prelude

/-!
# Trees in parallel

Two trees that are the same up to the numbers of their nodes (`Tree.Parallel`). Numbers are compared by a
relation that is one-to-one and also relates the numbers that either tree gives out next, so it need not
change while the trees grow. What is read from one tree is read from the other, up to numbers, and an edit
that is made in both is refused in both or leaves them in parallel. None of this needs links to be
consistent: whether a node can be reached depends only on the parents, however many nodes there are
(`Tree.isAttached_iff_climb`).
-/

namespace TreePatch

/-! ## Lists in parallel -/

section

variable {R : NodeId → NodeId → Prop} {l l' : List NodeId} {a b : NodeId}

theorem cases_of_rel {o o' : Option NodeId} (h : Option.Rel R o o') :
    (o = none ∧ o' = none) ∨ ∃ a b, o = some a ∧ o' = some b ∧ R a b := by
  cases h with
  | none => exact Or.inl ⟨rfl, rfl⟩
  | some hab => exact Or.inr ⟨_, _, rfl, rfl, hab⟩

theorem rel_getElem? (h : List.Forall₂ R l l') (i : Nat) : Option.Rel R l[i]? l'[i]? := by
  induction h generalizing i with
  | nil => exact .none
  | cons hab _ ih =>
    cases i with
    | zero => exact .some hab
    | succ i => simpa using ih i

theorem rel_head? (h : List.Forall₂ R l l') : Option.Rel R l.head? l'.head? := by
  simpa only [List.head?_eq_getElem?] using rel_getElem? h 0

theorem rel_getLast? (h : List.Forall₂ R l l') : Option.Rel R l.getLast? l'.getLast? := by
  simpa only [List.getLast?_eq_getElem?, h.length_eq] using rel_getElem? h _

theorem rel_insertIdx (h : List.Forall₂ R l l') (hab : R a b) (i : Nat) :
    List.Forall₂ R (l.insertIdx i a) (l'.insertIdx i b) := by
  induction h generalizing i with
  | nil =>
    cases i with
    | zero => exact .cons hab .nil
    | succ i => exact .nil
  | cons hcd h ih =>
    cases i with
    | zero => exact .cons hab (.cons hcd h)
    | succ i => exact .cons hcd (ih i)

variable (hR : Relator.BiUnique R)

include hR

theorem eq_iff_of_rel {c d : NodeId} (hab : R a b) (hcd : R c d) : a = c ↔ b = d :=
  ⟨fun heq => hR.2 hab (heq ▸ hcd), fun heq => hR.1 hab (heq ▸ hcd)⟩

theorem idxOf?_eq_of_rel (h : List.Forall₂ R l l') (hab : R a b) : l.idxOf? a = l'.idxOf? b := by
  induction h with
  | nil => rfl
  | @cons c d l l' hcd h ih =>
    have hbeq : (c == a) = (d == b) := by
      rw [Bool.eq_iff_iff, beq_iff_eq, beq_iff_eq, eq_iff_of_rel hR hcd hab]
    rw [List.idxOf?_cons, List.idxOf?_cons, hbeq, ih]

theorem rel_replace (h : List.Forall₂ R l l') {c d : NodeId} (hab : R a b) (hcd : R c d) :
    List.Forall₂ R (l.replace a c) (l'.replace b d) := by
  induction h with
  | nil => exact .nil
  | @cons x y l l' hxy h ih =>
    have hbeq : (a == x) = (b == y) := by
      rw [Bool.eq_iff_iff, beq_iff_eq, beq_iff_eq, eq_iff_of_rel hR hab hxy]
    rw [List.replace_cons, List.replace_cons, hbeq]
    split
    · exact .cons hcd h
    · exact .cons hxy ih

theorem rel_erase (h : List.Forall₂ R l l') (hab : R a b) :
    List.Forall₂ R (l.filter (· != a)) (l'.filter (· != b)) := by
  refine List.rel_filter (fun c d hcd => ?_) h
  change (c != a) = true ↔ (d != b) = true
  rw [bne_iff_ne, bne_iff_ne, ne_eq, ne_eq, eq_iff_of_rel hR hcd hab]

end

/-! ## Climbing -/

namespace Walk

/-- The node `k` steps above `n`. -/
def climb (above : Nat → Option Nat) : (k : Nat) → (n : Nat) → Option Nat
  | 0, n => some n
  | k + 1, n => (above n).bind (climb above k)

variable {above : Nat → Option Nat}

theorem climb_add (j k n : Nat) : climb above (j + k) n = (climb above j n).bind (climb above k) := by
  induction j generalizing n with
  | zero => simp [climb]
  | succ j ih =>
    rw [Nat.succ_add, climb, climb]
    cases above n with
    | none => rfl
    | some p => exact ih p

theorem mem_upward_iff_climb {bound n a : Nat} :
    a ∈ upward above bound n ↔ ∃ k < bound, climb above (k + 1) n = some a := by
  induction bound generalizing n with
  | zero => simp [upward]
  | succ bound ih =>
    rw [upward]
    cases hp : above n with
    | none => simp [climb, hp]
    | some p =>
      rw [List.mem_cons, ih]
      constructor
      · rintro (rfl | ⟨k, hk, hclimb⟩)
        · exact ⟨0, Nat.zero_lt_succ _, by simp [climb, hp]⟩
        · exact ⟨k + 1, Nat.succ_lt_succ hk, by rw [climb, hp]; exact hclimb⟩
      · rintro ⟨k, hk, hclimb⟩
        rw [climb, hp, Option.bind_some] at hclimb
        cases k with
        | zero => exact Or.inl (Option.some.inj hclimb).symm
        | succ k => exact Or.inr ⟨k, Nat.lt_of_succ_lt_succ hk, hclimb⟩

/-- What is reached at all is reached in no more steps than there are nodes: a longer way passes some node
twice and can be cut short. -/
theorem climb_bounded {size n a : Nat} (habove : ∀ {m p}, above m = some p → m < size) {k : Nat}
    (h : climb above (k + 1) n = some a) : ∃ k' < size, climb above (k' + 1) n = some a := by
  induction k using Nat.strong_induction_on with
  | _ k ih =>
    by_cases hk : k < size
    · exact ⟨k, hk, h⟩
    · -- every node on the way has a node above it
      have hway : ∀ j : Fin (k + 1), ∃ m < size, climb above j n = some m := by
        intro j
        have hsplit : climb above (j + ((k - j) + 1)) n = some a := by
          rw [← h]
          congr 1
          omega
        rw [climb_add] at hsplit
        obtain ⟨m, hm, hrest⟩ := Option.bind_eq_some_iff.mp hsplit
        rw [climb] at hrest
        obtain ⟨p, hp, -⟩ := Option.bind_eq_some_iff.mp hrest
        exact ⟨m, habove hp, hm⟩
      choose node hlt hnode using hway
      obtain ⟨i, j, hne, heq⟩ := Fintype.exists_ne_map_eq_of_card_lt
        (fun j => (⟨node j, hlt j⟩ : Fin size)) (by simpa using Nat.lt_succ_of_le (Nat.le_of_not_lt hk))
      have hsame : node i = node j := congrArg Fin.val heq
      -- without the part between the two visits the way is shorter
      have hcut : ∀ {i j : Fin (k + 1)}, i < j → node i = node j →
          ∃ k' < size, climb above (k' + 1) n = some a := by
        intro i j hij hsame
        have hshort : climb above (i + (k - j) + 1) n = some a := by
          rw [Nat.add_assoc, climb_add, hnode i, hsame, ← hnode j, ← climb_add, ← h]
          congr 1
          omega
        exact ih (i + (k - j)) (by omega) hshort
      rcases Nat.lt_or_gt_of_ne (fun hval => hne (Fin.ext hval)) with hij | hij
      · exact hcut hij hsame
      · exact hcut hij hsame.symm

end Walk

namespace Tree

theorem isAttached_iff_climb {t : Tree} {n : NodeId} :
    t.isAttached n = true ↔ ∃ k, Walk.climb t.parent? k n = some root := by
  rw [Linked.isAttached_iff, ancestors, Walk.mem_upward_iff_climb]
  constructor
  · rintro (rfl | ⟨k, -, hclimb⟩)
    · exact ⟨0, rfl⟩
    · exact ⟨k + 1, hclimb⟩
  · rintro ⟨k, hclimb⟩
    cases k with
    | zero => exact Or.inl (Option.some.inj hclimb)
    | succ k => exact Or.inr (Walk.climb_bounded t.lt_size_of_parent hclimb)

end Tree

/-! ## Nodes and trees in parallel -/

/-- Two nodes that are the same up to the numbers that they are linked to; positions may differ. -/
structure Node.Parallel (R : NodeId → NodeId → Prop) (m m' : Node) : Prop where
  kind : m.kind = m'.kind
  label : m.label = m'.label
  role : m.role = m'.role
  parent : Option.Rel R m.parent m'.parent
  children : List.Forall₂ R m.children m'.children

/-- Two trees whose related nodes are the same up to numbers. The numbers that are given out next are related
as well. -/
structure Tree.Parallel (R : NodeId → NodeId → Prop) (t t' : Tree) : Prop where
  unique : Relator.BiUnique R
  root : R root root
  node : ∀ {a b}, R a b → Node.Parallel R (t.node a) (t'.node b)
  units : List.Forall₂ (fun u u' => List.Forall₂ R u.declaredTypes u'.declaredTypes) t.units t'.units
  inside : ∀ {a b}, R a b → (a < t.size ↔ b < t'.size)
  next : ∀ i, R (t.size + i) (t'.size + i)

namespace Node.Parallel

variable {R : NodeId → NodeId → Prop} {m m' : Node} (h : Node.Parallel R m m')

include h

theorem with_parent {p p' : Option NodeId} (hp : Option.Rel R p p') :
    Node.Parallel R { m with parent := p } { m' with parent := p' } :=
  ⟨h.kind, h.label, h.role, hp, h.children⟩

theorem with_children {cs cs' : List NodeId} (hcs : List.Forall₂ R cs cs') :
    Node.Parallel R { m with children := cs } { m' with children := cs' } :=
  ⟨h.kind, h.label, h.role, h.parent, hcs⟩

theorem with_role {r r' : Role} (hr : r = r') :
    Node.Parallel R { m with role := r } { m' with role := r' } :=
  ⟨h.kind, h.label, hr, h.parent, h.children⟩

theorem with_label (label : String) : Node.Parallel R { m with label } { m' with label } :=
  ⟨h.kind, rfl, h.role, h.parent, h.children⟩

end Node.Parallel

/-- Two errors that differ in the number of a node at most. -/
inductive TreeError.Alike : TreeError → TreeError → Prop
  | compilationUnitCount (n : Nat) : Alike (.compilationUnitCount n) (.compilationUnitCount n)
  | detached (a b : NodeId) : Alike (.detached a) (.detached b)
  | attached (a b : NodeId) : Alike (.attached a) (.attached b)
  | indexOutOfBounds (i n : Nat) : Alike (.indexOutOfBounds i n) (.indexOutOfBounds i n)

/-- An edit went well in two trees and left them in parallel, or was refused in both for the same reason. -/
inductive Tree.Agree (R : NodeId → NodeId → Prop) : Except TreeError Tree → Except TreeError Tree → Prop
  | ok {t t' : Tree} (h : Tree.Parallel R t t') : Agree R (.ok t) (.ok t')
  | error {e e' : TreeError} (h : e.Alike e') : Agree R (.error e) (.error e')

namespace Tree.Parallel

variable {R : NodeId → NodeId → Prop} {t t' : Tree} {a b : NodeId}

section

variable (h : Tree.Parallel R t t') (hab : R a b)

include h hab

theorem kind : t.kind a = t'.kind b :=
  (h.node hab).kind

theorem label : t.label a = t'.label b :=
  (h.node hab).label

theorem role : t.role a = t'.role b :=
  (h.node hab).role

theorem parent? : Option.Rel R (t.parent? a) (t'.parent? b) :=
  (h.node hab).parent

theorem children : List.Forall₂ R (t.children a) (t'.children b) :=
  (h.node hab).children

theorem childrenWithRole (r : Role) :
    List.Forall₂ R (t.childrenWithRole a r) (t'.childrenWithRole b r) := by
  refine List.rel_filter (fun c d hcd => ?_) (h.children hab)
  change (t.role c == r) = true ↔ (t'.role d == r) = true
  rw [h.role hcd]

theorem nameNode? : Option.Rel R (t.nameNode? a) (t'.nameNode? b) :=
  rel_head? (h.childrenWithRole hab _)

theorem simpleName? : t.simpleName? a = t'.simpleName? b := by
  rw [Tree.simpleName?, Tree.simpleName?]
  rcases cases_of_rel (h.nameNode? hab) with ⟨hn, hn'⟩ | ⟨c, d, hn, hn', hcd⟩ <;> rw [hn, hn']
  · rfl
  · exact congrArg some (h.label hcd)

theorem parent?_eq_iff {p q : NodeId} (hpq : R p q) : t.parent? a = some p ↔ t'.parent? b = some q := by
  rcases cases_of_rel (h.parent? hab) with ⟨hp, hp'⟩ | ⟨c, d, hp, hp', hcd⟩ <;> rw [hp, hp']
  · simp
  · rw [Option.some.injEq, Option.some.injEq, eq_iff_of_rel h.unique hcd hpq]

theorem childPosition? : t.childPosition? a = t'.childPosition? b := by
  rw [Tree.childPosition?, Tree.childPosition?]
  rcases cases_of_rel (h.parent? hab) with ⟨hp, hp'⟩ | ⟨p, q, hp, hp', hpq⟩ <;> rw [hp, hp']
  · rfl
  · exact idxOf?_eq_of_rel h.unique (h.children hpq) hab

theorem climb (k : Nat) : Option.Rel R (Walk.climb t.parent? k a) (Walk.climb t'.parent? k b) := by
  induction k generalizing a b with
  | zero => exact .some hab
  | succ k ih =>
    rw [Walk.climb, Walk.climb]
    rcases cases_of_rel (h.parent? hab) with ⟨hp, hp'⟩ | ⟨p, q, hp, hp', hpq⟩ <;> rw [hp, hp']
    · exact .none
    · exact ih hpq

theorem isAttached : t.isAttached a = t'.isAttached b := by
  rw [Bool.eq_iff_iff, isAttached_iff_climb, isAttached_iff_climb]
  refine exists_congr fun k => ?_
  rcases cases_of_rel (h.climb hab k) with ⟨hc, hc'⟩ | ⟨c, d, hc, hc', hcd⟩ <;> rw [hc, hc']
  rw [Option.some.injEq, Option.some.injEq, eq_iff_of_rel h.unique hcd h.root]

end

/-! ## Addresses -/

section

variable (h : Tree.Parallel R t t')

include h

theorem onlyUnit :
    (∃ u u', t.onlyUnit = .ok u ∧ t'.onlyUnit = .ok u' ∧
      List.Forall₂ R u.declaredTypes u'.declaredTypes) ∨
    ∃ n, t.onlyUnit = .error (.compilationUnitCount n) ∧
      t'.onlyUnit = .error (.compilationUnitCount n) := by
  have hunits := h.units
  rw [Tree.onlyUnit, Tree.onlyUnit]
  generalize t.units = units, t'.units = units' at hunits
  cases hunits with
  | nil => exact Or.inr ⟨0, rfl, rfl⟩
  | @cons u u' _ _ hu hrest =>
    cases hrest with
    | nil => exact Or.inl ⟨u, u', rfl, rfl, hu⟩
    | @cons v v' vs vs' _ hrest =>
      refine Or.inr ⟨vs.length + 2, rfl, ?_⟩
      rw [hrest.length_eq]
      rfl

theorem follow (hab : R a b) (step : Step) : Option.Rel R (t.follow a step) (t'.follow b step) := by
  rw [Tree.follow, Tree.follow]
  split
  · rcases h.onlyUnit with ⟨u, u', hu, hu', hrel⟩ | ⟨n, hn, hn'⟩
    · rw [hu, hu']
      exact rel_getElem? hrel _
    · rw [hn, hn']
      exact .none
  · exact rel_getElem? (h.childrenWithRole hab _) _

theorem resolve (path : Path) : Option.Rel R (t.resolve path) (t'.resolve path) := by
  have hrun : ∀ (steps : List Step) {a b}, R a b →
      Option.Rel R (steps.foldlM t.follow a) (steps.foldlM t'.follow b) := by
    intro steps
    induction steps with
    | nil => exact fun hab => .some hab
    | cons step steps ih =>
      intro a b hab
      rw [List.foldlM_cons, List.foldlM_cons]
      rcases cases_of_rel (h.follow hab step) with ⟨hf, hf'⟩ | ⟨c, d, hf, hf', hcd⟩ <;> rw [hf, hf']
      · exact .none
      · exact ih hcd
  exact hrun path.steps h.root

end

/-! ## Edits in parallel -/

theorem with_units (h : Tree.Parallel R t t') {units units' : List CompilationUnit}
    (hunits : List.Forall₂ (fun u u' => List.Forall₂ R u.declaredTypes u'.declaredTypes) units units') :
    Tree.Parallel R { t with units := units } { t' with units := units' } :=
  ⟨h.unique, h.root, h.node, hunits, h.inside, h.next⟩

theorem modify (h : Tree.Parallel R t t') (hab : R a b) {f g : Node → Node}
    (hf : ∀ {m m'}, Node.Parallel R m m' → Node.Parallel R (f m) (g m')) :
    Tree.Parallel R (t.modify a f) (t'.modify b g) := by
  refine ⟨h.unique, h.root, fun {x y} hxy => ?_, h.units, fun hxy => ?_, fun i => ?_⟩
  · have hiff : (x = a ∧ a < t.size) ↔ (y = b ∧ b < t'.size) := by
      rw [eq_iff_of_rel h.unique hxy hab, h.inside hab]
    simp only [node_modify, hiff]
    split
    · exact hf (h.node hxy)
    · exact h.node hxy
  · rw [size_modify, size_modify]
    exact h.inside hxy
  · rw [size_modify, size_modify]
    exact h.next i

theorem map_units (h : Tree.Parallel R t t') {f g : CompilationUnit → CompilationUnit}
    (hf : ∀ {u u'}, List.Forall₂ R u.declaredTypes u'.declaredTypes →
      List.Forall₂ R (f u).declaredTypes (g u').declaredTypes) :
    List.Forall₂ (fun u u' => List.Forall₂ R u.declaredTypes u'.declaredTypes)
      (t.units.map f) (t'.units.map g) := by
  rw [List.forall₂_map_left_iff, List.forall₂_map_right_iff]
  exact h.units.imp fun _ _ => hf

theorem detach (h : Tree.Parallel R t t') (hab : R a b) : Agree R (t.detach a) (t'.detach b) := by
  rw [Tree.detach, Tree.detach]
  rcases cases_of_rel (h.parent? hab) with ⟨hp, hp'⟩ | ⟨p, q, hp, hp', hpq⟩ <;> rw [hp, hp']
  · exact .error (.detached a b)
  · have hunlinked := (h.modify hpq (f := fun m => { m with children := m.children.filter (· != a) })
      (g := fun m => { m with children := m.children.filter (· != b) }) fun hn =>
        hn.with_children (rel_erase h.unique hn.children hab)).modify hab
          (f := fun m => { m with parent := none }) (g := fun m => { m with parent := none }) fun hn =>
            hn.with_parent .none
    simp only [h.role hab]
    split
    · exact .ok (hunlinked.with_units (h.map_units fun hu => rel_erase h.unique hu hab))
    · exact .ok hunlinked

theorem insertChild (h : Tree.Parallel R t t') {p q : NodeId} (hpq : R p q) (hab : R a b) (i : Nat) :
    Agree R (t.insertChild p i a) (t'.insertChild q i b) := by
  have hlength := (h.children hpq).length_eq
  have hsome : (t.parent? a).isSome = (t'.parent? b).isSome := by
    rcases cases_of_rel (h.parent? hab) with ⟨hp, hp'⟩ | ⟨_, _, hp, hp', -⟩ <;> rw [hp, hp']
    rfl
  rw [Tree.insertChild, Tree.insertChild, hsome, hlength]
  split
  · exact .error (.attached a b)
  · split
    · exact .error (.indexOutOfBounds i _)
    · exact .ok <| (h.modify hpq (f := fun m => { m with children := m.children.insertIdx i a })
        (g := fun m => { m with children := m.children.insertIdx i b }) fun hn =>
          hn.with_children (rel_insertIdx hn.children hab i)).modify hab
            (f := fun m => { m with parent := some p }) (g := fun m => { m with parent := some q })
              fun hn => hn.with_parent (.some hpq)

theorem appendChild (h : Tree.Parallel R t t') {p q : NodeId} (hpq : R p q) (hab : R a b) :
    Agree R (t.appendChild p a) (t'.appendChild q b) := by
  rw [Tree.appendChild, Tree.appendChild, (h.children hpq).length_eq]
  exact h.insertChild hpq hab _

theorem replace (h : Tree.Parallel R t t') {c d : NodeId} (hab : R a b) (hcd : R c d) :
    Agree R (t.replace a c) (t'.replace b d) := by
  have hsome : (t.parent? c).isSome = (t'.parent? d).isSome := by
    rcases cases_of_rel (h.parent? hcd) with ⟨hp, hp'⟩ | ⟨_, _, hp, hp', -⟩ <;> rw [hp, hp']
    rfl
  rw [Tree.replace, Tree.replace, hsome]
  split
  · exact .error (.attached c d)
  · rcases cases_of_rel (h.parent? hab) with ⟨hp, hp'⟩ | ⟨p, q, hp, hp', hpq⟩ <;> rw [hp, hp']
    · exact .error (.detached a b)
    · have hcontains : (t.children p).contains a = (t'.children q).contains b := by
        rw [Bool.eq_iff_iff, List.contains_iff_mem, List.contains_iff_mem]
        exact List.rel_mem h.unique hab (h.children hpq)
      have hlinked := ((h.modify hpq (f := fun m => { m with children := m.children.replace a c })
        (g := fun m => { m with children := m.children.replace b d }) fun hn =>
          hn.with_children (rel_replace h.unique hn.children hab hcd)).modify hcd
            (f := fun m => { m with parent := some p, role := t.role a })
            (g := fun m => { m with parent := some q, role := t'.role b }) fun hn =>
              (hn.with_role (h.role hab)).with_parent (.some hpq)).modify hab
                (f := fun m => { m with parent := none }) (g := fun m => { m with parent := none })
                  fun hn => hn.with_parent .none
      simp only [hcontains]
      split
      · simp only [h.role hab] at hlinked ⊢
        split
        · refine .ok (hlinked.with_units (h.map_units fun hu => ?_))
          refine List.rel_map (fun x y hxy => ?_) hu
          rw [if_congr (eq_iff_of_rel h.unique hxy hab) rfl rfl]
          split
          · exact hcd
          · exact hxy
        · exact .ok hlinked
      · exact .error (.detached a b)

theorem setLabel (h : Tree.Parallel R t t') (hab : R a b) (label : String) :
    Tree.Parallel R (t.setLabel a label) (t'.setLabel b label) :=
  h.modify hab fun hn => hn.with_label label

end Tree.Parallel

/-! ## Copies in parallel -/

section

variable {R : NodeId → NodeId → Prop} {start start' : Nat}

theorem rel_shift (h : ∀ i, R (start + i) (start' + i)) (k i : Nat) :
    R (start + k + i) (start' + k + i) := by
  rw [Nat.add_assoc, Nat.add_assoc]
  exact h (k + i)

theorem rel_topIds (h : ∀ i, R (start + i) (start' + i)) (rs : List (Rose NodeId)) :
    List.Forall₂ R (Rose.topIds start rs) (Rose.topIds start' rs) := by
  induction rs generalizing start start' with
  | nil => exact .nil
  | cons r rs ih => exact .cons (h 0) (ih (rel_shift h r.size))

mutual

theorem rel_number (donor : Tree) {start start' : Nat} (h : ∀ i, R (start + i) (start' + i))
    {p p' : Option NodeId} (hp : Option.Rel R p p') : ∀ r : Rose NodeId,
      List.Forall₂ (Node.Parallel R) (r.number (Tree.graftEntry donor) start p)
        (r.number (Tree.graftEntry donor) start' p')
  | .node _ rs =>
    .cons ⟨rfl, rfl, rfl, hp, rel_topIds (rel_shift h 1) rs⟩
      (rel_numberAll donor (rel_shift h 1) (.some (h 0)) rs)

theorem rel_numberAll (donor : Tree) {start start' : Nat} (h : ∀ i, R (start + i) (start' + i))
    {p p' : Option NodeId} (hp : Option.Rel R p p') : ∀ rs : List (Rose NodeId),
      List.Forall₂ (Node.Parallel R) (Rose.numberAll (Tree.graftEntry donor) start p rs)
        (Rose.numberAll (Tree.graftEntry donor) start' p' rs)
  | [] => .nil
  | r :: rs =>
    List.rel_append (rel_number donor h hp r) (rel_numberAll donor (rel_shift h r.size) hp rs)

end

theorem rel_zipIdx (h : ∀ i, R (start + i) (start' + i)) (l : List NodeId) :
    List.Forall₂ (fun x y => x.1 = y.1 ∧ R x.2 y.2) (l.zipIdx start) (l.zipIdx start') := by
  induction l generalizing start start' with
  | nil => exact .nil
  | cons a l ih =>
    rw [List.zipIdx_cons, List.zipIdx_cons]
    exact .cons ⟨rfl, h 0⟩ (ih (rel_shift h 1))

theorem rel_lookup {l l' : List (NodeId × NodeId)}
    (h : List.Forall₂ (fun x y => x.1 = y.1 ∧ R x.2 y.2) l l') (n : NodeId) :
    Option.Rel R (l.lookup n) (l'.lookup n) := by
  induction h with
  | nil => exact .none
  | @cons x y l l' hxy _ ih =>
    rw [List.lookup_cons, List.lookup_cons, hxy.1]
    split
    · exact .some hxy.2
    · exact ih

end

namespace Tree

variable {R : NodeId → NodeId → Prop} {t t' : Tree}

theorem node_graft_new (t donor : Tree) (id : NodeId) (i : Nat) :
    (t.graft donor id).tree.node (t.size + i) =
      ((donor.subtree id).number (graftEntry donor) t.size none)[i]?.getD Node.absent := by
  rw [node, nodes_graft, Array.getD_eq_getD_getElem?, size,
    Array.getElem?_append_right (Nat.le_add_right _ _), Nat.add_sub_cancel_left, List.getElem?_toArray]

theorem Parallel.cases (h : Parallel R t t') {a b : NodeId} (hab : R a b) :
    (a < t.size ∧ b < t'.size) ∨ ∃ i, a = t.size + i ∧ b = t'.size + i := by
  by_cases ha : a < t.size
  · exact Or.inl ⟨ha, (h.inside hab).mp ha⟩
  · obtain ⟨i, rfl⟩ := Nat.exists_eq_add_of_le (Nat.le_of_not_lt ha)
    exact Or.inr ⟨i, rfl, h.unique.2 hab (h.next i)⟩

theorem Parallel.graft (h : Parallel R t t') (donor : Tree) (id : NodeId) :
    Parallel R (t.graft donor id).tree (t'.graft donor id).tree := by
  refine ⟨h.unique, h.root, fun {a b} hab => ?_, h.units, fun {a b} hab => ?_, fun i => ?_⟩
  · rcases h.cases hab with ⟨ha, hb⟩ | ⟨i, rfl, rfl⟩
    · rw [node_graft_old _ _ _ ha, node_graft_old _ _ _ hb]
      exact h.node hab
    · rw [node_graft_new, node_graft_new]
      have hnew := rel_number donor h.next .none (donor.subtree id)
      generalize (donor.subtree id).number (graftEntry donor) t.size none = copied,
        (donor.subtree id).number (graftEntry donor) t'.size none = copied' at hnew
      by_cases hi : i < copied.length
      · have hi' : i < copied'.length := hnew.length_eq ▸ hi
        rw [List.getElem?_eq_getElem hi, List.getElem?_eq_getElem hi']
        exact hnew.get hi hi'
      · rw [List.getElem?_eq_none (Nat.le_of_not_lt hi),
          List.getElem?_eq_none (hnew.length_eq ▸ Nat.le_of_not_lt hi)]
        exact ⟨rfl, rfl, rfl, .none, .nil⟩
  · rw [size_graft, size_graft]
    rcases h.cases hab with ⟨ha, hb⟩ | ⟨i, rfl, rfl⟩
    · exact iff_of_true (Nat.lt_add_right _ ha) (Nat.lt_add_right _ hb)
    · rw [Nat.add_lt_add_iff_left, Nat.add_lt_add_iff_left]
  · rw [size_graft, size_graft]
    exact rel_shift h.next _ i

theorem Parallel.copies (h : Parallel R t t') (donor : Tree) (id : NodeId) :
    List.Forall₂ (fun x y => x.1 = y.1 ∧ R x.2 y.2) (t.graft donor id).copies
      (t'.graft donor id).copies :=
  rel_zipIdx h.next _

end Tree

end TreePatch
