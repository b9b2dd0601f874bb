import Mathlib.Data.List.Nodup

/-!
# One-to-one lists of pairs

Lists of pairs in which nothing occurs twice on the same side, and what a search finds in them. Both
matchings and correspondences are kept as such lists.
-/

namespace TreePatch

variable {α β : Type}

/-- No two pairs agree on either side. -/
def OneToOne (l : List (α × β)) : Prop :=
  l.Pairwise fun a b => a.1 ≠ b.1 ∧ a.2 ≠ b.2

namespace OneToOne

variable {l l' : List (α × β)}

theorem nodup_fst (h : OneToOne l) : (l.map (·.1)).Nodup :=
  List.pairwise_map.mpr (h.imp And.left)

theorem nodup_snd (h : OneToOne l) : (l.map (·.2)).Nodup :=
  List.pairwise_map.mpr (h.imp And.right)

theorem nodup (h : OneToOne l) : l.Nodup :=
  h.imp fun hab heq => hab.1 (congrArg Prod.fst heq)

theorem eq_of_fst (h : OneToOne l) {a b : α × β} (ha : a ∈ l) (hb : b ∈ l) (hab : a.1 = b.1) :
    a = b :=
  List.inj_on_of_nodup_map h.nodup_fst ha hb hab

theorem eq_of_snd (h : OneToOne l) {a b : α × β} (ha : a ∈ l) (hb : b ∈ l) (hab : a.2 = b.2) :
    a = b :=
  List.inj_on_of_nodup_map h.nodup_snd ha hb hab

theorem append_iff : OneToOne (l ++ l') ↔
    OneToOne l ∧ OneToOne l' ∧ ∀ a ∈ l, ∀ b ∈ l', a.1 ≠ b.1 ∧ a.2 ≠ b.2 :=
  List.pairwise_append

theorem zip {as : List α} {bs : List β} (ha : as.Nodup) (hb : bs.Nodup) : OneToOne (as.zip bs) := by
  induction as generalizing bs with
  | nil => exact List.Pairwise.nil
  | cons a as ih =>
    cases bs with
    | nil => exact List.Pairwise.nil
    | cons b bs =>
      rw [List.nodup_cons] at ha hb
      refine List.Pairwise.cons (fun q hq => ?_) (ih ha.2 hb.2)
      obtain ⟨hqa, hqb⟩ := List.of_mem_zip (show (q.1, q.2) ∈ as.zip bs from hq)
      exact ⟨fun heq : a = q.1 => ha.1 (heq ▸ hqa), fun heq : b = q.2 => hb.1 (heq ▸ hqb)⟩

end OneToOne

section

variable {l : List (α × β)}

theorem mem_of_find_fst [DecidableEq α] {a : α} {b : β} (h : (l.find? (·.1 == a)).map (·.2) = some b) :
    (a, b) ∈ l := by
  obtain ⟨q, hq, rfl⟩ := Option.map_eq_some_iff.mp h
  have ha := List.find?_some hq
  rw [beq_iff_eq] at ha
  exact ha ▸ List.mem_of_find?_eq_some hq

theorem mem_of_find_snd [DecidableEq β] {a : α} {b : β} (h : (l.find? (·.2 == b)).map (·.1) = some a) :
    (a, b) ∈ l := by
  obtain ⟨q, hq, rfl⟩ := Option.map_eq_some_iff.mp h
  have hb := List.find?_some hq
  rw [beq_iff_eq] at hb
  exact hb ▸ List.mem_of_find?_eq_some hq

theorem find_fst_eq_none_iff [DecidableEq α] {a : α} :
    (l.find? (·.1 == a)).map (·.2) = none ↔ ∀ q ∈ l, q.1 ≠ a := by
  simp [List.find?_eq_none]

theorem find_snd_eq_none_iff [DecidableEq β] {b : β} :
    (l.find? (·.2 == b)).map (·.1) = none ↔ ∀ q ∈ l, q.2 ≠ b := by
  simp [List.find?_eq_none]

theorem OneToOne.find_fst_eq_some_iff [DecidableEq α] (h : OneToOne l) {a : α} {b : β} :
    (l.find? (·.1 == a)).map (·.2) = some b ↔ (a, b) ∈ l := by
  refine ⟨mem_of_find_fst, fun hmem => ?_⟩
  cases hs : (l.find? (·.1 == a)).map (·.2) with
  | none => exact absurd rfl (find_fst_eq_none_iff.mp hs _ hmem)
  | some b' => exact congrArg (fun q => some q.2) (h.eq_of_fst (mem_of_find_fst hs) hmem rfl)

theorem OneToOne.find_snd_eq_some_iff [DecidableEq β] (h : OneToOne l) {a : α} {b : β} :
    (l.find? (·.2 == b)).map (·.1) = some a ↔ (a, b) ∈ l := by
  refine ⟨mem_of_find_snd, fun hmem => ?_⟩
  cases hs : (l.find? (·.2 == b)).map (·.1) with
  | none => exact absurd rfl (find_snd_eq_none_iff.mp hs _ hmem)
  | some a' => exact congrArg (fun q => some q.1) (h.eq_of_snd (mem_of_find_snd hs) hmem rfl)

end

end TreePatch
