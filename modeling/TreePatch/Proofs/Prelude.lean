import Mathlib.Data.List.Forall2
import Mathlib.Data.List.InsertIdx
import Mathlib.Data.List.Nodup
import Mathlib.Data.List.TakeWhile

/-!
# Lists, arrays and results

What the proofs use of lists, arrays and results that may be errors, beyond the library: runs of checks and of
partial maps over a list, lists whose members go together one by one, and where the members of a list stand.
-/

namespace TreePatch

variable {α β ε : Type}

/-! ## Results -/

theorem bind_eq_ok {x : Except ε α} {f : α → Except ε β} {b : β} :
    (x >>= f) = .ok b ↔ ∃ a, x = .ok a ∧ f a = .ok b := by
  cases x <;> simp [bind, Except.bind]

theorem map_eq_ok {x : Except ε α} {f : α → β} {b : β} :
    x.map f = .ok b ↔ ∃ a, x = .ok a ∧ f a = b := by
  cases x <;> simp [Except.map]

theorem eq_ok_of_isSome {x : Except ε α} {a : α} (h : x.toOption.isSome = true) :
    x = .ok (x.toOption.getD a) := by
  cases x with
  | error e => simp [Except.toOption] at h
  | ok b => rfl

theorem mapM_congr_of_mem {m : Type → Type} [Monad m] [LawfulMonad m] {f g : α → m β}
    {l : List α} (h : ∀ a ∈ l, f a = g a) : l.mapM f = l.mapM g := by
  induction l with
  | nil => rfl
  | cons a l ih =>
    rw [List.mapM_cons, List.mapM_cons, h a List.mem_cons_self,
      ih fun b hb => h b (List.mem_cons_of_mem _ hb)]

theorem mapM_ok_of_forall {f : α → Except ε β} {R : α → β → Prop} :
    ∀ {l : List α}, (∀ a ∈ l, ∃ b, f a = .ok b ∧ R a b) →
      ∃ bs, l.mapM f = .ok bs ∧ List.Forall₂ R l bs
  | [], _ => ⟨[], rfl, .nil⟩
  | a :: l, h => by
    obtain ⟨b, hb, hab⟩ := h a List.mem_cons_self
    obtain ⟨bs, hbs, hrest⟩ := mapM_ok_of_forall fun a' ha' => h a' (List.mem_cons_of_mem _ ha')
    refine ⟨b :: bs, ?_, .cons hab hrest⟩
    rw [List.mapM_cons, hb, hbs]
    rfl

theorem forall₂_of_mapM {f : α → Except ε β} {l : List α} :
    ∀ {bs : List β}, l.mapM f = .ok bs → List.Forall₂ (fun a b => f a = .ok b) l bs := by
  induction l with
  | nil =>
    intro bs h
    obtain rfl : [] = bs := Except.ok.inj h
    exact .nil
  | cons a l ih =>
    intro bs h
    rw [List.mapM_cons] at h
    obtain ⟨b, hb, h⟩ := bind_eq_ok.mp h
    obtain ⟨bs', hbs', h⟩ := bind_eq_ok.mp h
    obtain rfl : b :: bs' = bs := Except.ok.inj h
    exact .cons hb (ih hbs')

theorem forM_eq_ok_iff {f : α → Except ε Unit} {l : List α} :
    l.forM f = .ok () ↔ ∀ a ∈ l, f a = .ok () := by
  induction l with
  | nil => exact ⟨fun _ => by simp, fun _ => rfl⟩
  | cons a l ih =>
    rw [List.forall_mem_cons, ← ih]
    change (f a >>= fun _ => l.forM f) = .ok () ↔ _
    rw [bind_eq_ok]
    exact ⟨fun ⟨_, ha, hl⟩ => ⟨ha, hl⟩, fun ⟨ha, hl⟩ => ⟨(), ha, hl⟩⟩

/-! ## Lists in parallel -/

theorem isEmpty_eq_of_forall₂ {R : α → β → Prop} {l : List α} {l' : List β}
    (h : List.Forall₂ R l l') : l.isEmpty = l'.isEmpty := by
  cases h <;> rfl

theorem exists_mem_of_forall₂ {R : α → β → Prop} {as : List α} {bs : List β}
    (h : List.Forall₂ R as bs) {b : β} (hb : b ∈ bs) : ∃ a ∈ as, R a b := by
  induction h with
  | nil => simp at hb
  | cons hhead _ ih =>
    rcases List.mem_cons.mp hb with rfl | hb
    · exact ⟨_, List.mem_cons_self, hhead⟩
    · obtain ⟨a, ha, hab⟩ := ih hb
      exact ⟨a, List.mem_cons_of_mem _ ha, hab⟩

theorem forall₂_imp_of_mem {P Q : α → β → Prop} {as : List α} {bs : List β}
    (h : List.Forall₂ P as bs) (himp : ∀ a ∈ as, ∀ b ∈ bs, P a b → Q a b) :
    List.Forall₂ Q as bs := by
  induction h with
  | nil => exact .nil
  | cons hhead _ ih =>
    refine .cons (himp _ List.mem_cons_self _ List.mem_cons_self hhead) (ih fun a ha b hb => ?_)
    exact himp a (List.mem_cons_of_mem _ ha) b (List.mem_cons_of_mem _ hb)

theorem forall₂_comp {γ : Type} {R : α → β → Prop} {S : β → γ → Prop} :
    ∀ {as : List α} {bs : List β} {cs : List γ}, List.Forall₂ R as bs → List.Forall₂ S bs cs →
      List.Forall₂ (fun a c => ∃ b, R a b ∧ S b c) as cs
  | _, _, _, .nil, .nil => .nil
  | _, _, _, .cons hab hrest, .cons hbc hrest' => .cons ⟨_, hab, hbc⟩ (forall₂_comp hrest hrest')

theorem forall₂_filter {R : α → β → Prop} {f : α → Bool} {g : β → Bool} :
    ∀ {as : List α} {bs : List β}, List.Forall₂ R as bs →
      (∀ a b, a ∈ as → b ∈ bs → R a b → (f a = true ↔ g b = true)) →
        List.Forall₂ R (as.filter f) (bs.filter g)
  | _, _, .nil, _ => .nil
  | a :: _, b :: _, .cons hab hrest, h => by
    have ih := forall₂_filter hrest fun a b ha hb => h a b (by simp [ha]) (by simp [hb])
    have hfg := h a b (by simp) (by simp) hab
    cases hf : f a with
    | true =>
      rw [List.filter_cons_of_pos hf, List.filter_cons_of_pos (hfg.mp hf)]
      exact .cons hab ih
    | false =>
      have hg : ¬ g b = true := fun hg => by simp [hfg.mpr hg] at hf
      rw [List.filter_cons_of_neg (by simp [hf]), List.filter_cons_of_neg hg]
      exact ih

theorem forall₂_filterMap {f : α → Option β} {P : β → α → Prop} {l : List α}
    (h : ∀ x ∈ l, ∃ c, f x = some c ∧ P c x) : List.Forall₂ P (l.filterMap f) l := by
  induction l with
  | nil => exact .nil
  | cons x l ih =>
    obtain ⟨c, hc, hP⟩ := h x List.mem_cons_self
    rw [List.filterMap_cons_some hc]
    exact .cons hP (ih fun y hy => h y (List.mem_cons_of_mem _ hy))

theorem forall₂_of_filterMap_filter {f : Nat → Option Nat} {g : Nat → Bool} (l : List Nat) :
    List.Forall₂ (fun a b => f a = some b) (l.filter fun a => (f a).any g)
      ((l.filterMap f).filter g) := by
  induction l with
  | nil => exact .nil
  | cons a l ih =>
    cases hf : f a with
    | none =>
      rw [List.filterMap_cons_none hf, List.filter_cons_of_neg (by simp [hf])]
      exact ih
    | some b =>
      rw [List.filterMap_cons_some hf]
      cases hg : g b with
      | true =>
        rw [List.filter_cons_of_pos (by simp [hf, hg]), List.filter_cons_of_pos hg]
        exact .cons hf ih
      | false =>
        rw [List.filter_cons_of_neg (by simp [hf, hg]), List.filter_cons_of_neg (by simp [hg])]
        exact ih

theorem forall₂_intersperse {R : α → β → Prop} {l : List α} {l' : List β} {a : α} {b : β}
    (h : List.Forall₂ R l l') (hab : R a b) : List.Forall₂ R (l.intersperse a) (l'.intersperse b) := by
  induction h with
  | nil => exact .nil
  | cons hfirst hrest ih =>
    cases hrest with
    | nil => exact .cons hfirst .nil
    | cons hsecond hrest =>
      rw [List.intersperse_cons_cons, List.intersperse_cons_cons]
      exact .cons hfirst (.cons hab ih)

theorem head_of_interleaved {P : Nat → Nat → Prop} {f g : Nat → Bool} {a b : Nat} {as bs : List Nat}
    (hP : List.Forall₂ P ((a :: as).filter fun c => !f c) ((b :: bs).filter fun x => !g x))
    (hcount : ∀ c ∈ a :: as, ∀ x ∈ b :: bs, f c = false → g x = false → P c x →
      ((a :: as).takeWhile (· != c)).countP f = ((b :: bs).takeWhile (· != x)).countP g)
    (ha : f a = true) : g b = true := by
  by_contra hb
  rw [Bool.not_eq_true] at hb
  have hfirst : (b :: bs).filter (fun x => !g x) = b :: bs.filter fun x => !g x :=
    List.filter_cons_of_pos (by simp [hb])
  rw [hfirst] at hP
  cases hl : (a :: as).filter fun c => !f c with
  | nil =>
    rw [hl] at hP
    cases hP
  | cons c l =>
    rw [hl] at hP
    cases hP with
    | cons hhead _ =>
      -- `c` goes with `b`, although it stands behind `a`
      obtain ⟨hc, hfc⟩ := List.mem_filter.mp (hl ▸ List.mem_cons_self : c ∈ (a :: as).filter _)
      rw [Bool.not_eq_true'] at hfc
      have hac : a ≠ c := by
        rintro rfl
        rw [ha] at hfc
        simp at hfc
      have h := hcount c hc b List.mem_cons_self hfc hb hhead
      rw [List.takeWhile_cons_of_pos (by simpa using hac), List.countP_cons_of_pos ha] at h
      simp at h

theorem forall₂_of_interleaved {P Q : Nat → Nat → Prop} {f g : Nat → Bool} :
    ∀ {as bs : List Nat}, as.Nodup → bs.Nodup → List.Forall₂ Q (as.filter f) (bs.filter g) →
      List.Forall₂ P (as.filter fun c => !f c) (bs.filter fun x => !g x) →
        (∀ c ∈ as, ∀ x ∈ bs, f c = false → g x = false → P c x →
          (as.takeWhile (· != c)).countP f = (bs.takeWhile (· != x)).countP g) →
            List.Forall₂ (fun c x => P c x ∨ Q c x) as bs := by
  have hlength : ∀ {as bs : List Nat}, List.Forall₂ Q (as.filter f) (bs.filter g) →
      List.Forall₂ P (as.filter fun c => !f c) (bs.filter fun x => !g x) →
        as.length = bs.length := fun {as bs} hQ hP => by
    rw [as.length_eq_length_filter_add f, bs.length_eq_length_filter_add g, hQ.length_eq, hP.length_eq]
  intro as
  induction as with
  | nil =>
    intro bs _ _ hQ hP _
    rw [List.length_eq_zero_iff.mp (hlength hQ hP).symm]
    exact .nil
  | cons a as ih =>
    intro bs ha hb hQ hP hcount
    cases bs with
    | nil => simpa using hlength hQ hP
    | cons b bs =>
      rw [List.nodup_cons] at ha hb
      have hheads : f a = g b := Bool.eq_iff_iff.mpr ⟨head_of_interleaved hP hcount,
        head_of_interleaved hP.flip fun x hx c hc hgx hfc hcx => (hcount c hc x hx hfc hgx hcx).symm⟩
      -- what stands behind the heads stands behind one token more, or behind as many
      have htail : ∀ c ∈ as, ∀ x ∈ bs, f c = false → g x = false → P c x →
          (as.takeWhile (· != c)).countP f = (bs.takeWhile (· != x)).countP g :=
        fun c hc x hx hfc hgx hcx => by
          have hac : a ≠ c := by
            rintro rfl
            exact ha.1 hc
          have hbx : b ≠ x := by
            rintro rfl
            exact hb.1 hx
          have h := hcount c (List.mem_cons_of_mem _ hc) x (List.mem_cons_of_mem _ hx) hfc hgx hcx
          rw [List.takeWhile_cons_of_pos (by simpa using hac),
            List.takeWhile_cons_of_pos (by simpa using hbx), List.countP_cons, List.countP_cons,
            hheads] at h
          omega
      cases hfa : f a with
      | true =>
        have hgb : g b = true := hheads ▸ hfa
        rw [List.filter_cons_of_pos hfa, List.filter_cons_of_pos hgb] at hQ
        rw [List.filter_cons_of_neg (by simp [hfa]), List.filter_cons_of_neg (by simp [hgb])] at hP
        cases hQ with
        | cons hhead hQ => exact .cons (Or.inr hhead) (ih ha.2 hb.2 hQ hP htail)
      | false =>
        have hgb : g b = false := hheads ▸ hfa
        rw [List.filter_cons_of_neg (by simp [hfa]), List.filter_cons_of_neg (by simp [hgb])] at hQ
        rw [List.filter_cons_of_pos (by simp [hfa]), List.filter_cons_of_pos (by simp [hgb])] at hP
        cases hP with
        | cons hhead hP => exact .cons (Or.inl hhead) (ih ha.2 hb.2 hQ hP htail)

/-! ## Parts of lists -/

theorem filter_filter_of_imp {f g : α → Bool} (h : ∀ c, f c = true → g c = true)
    (l : List α) : (l.filter g).filter f = l.filter f := by
  rw [List.filter_filter]
  refine List.filter_congr fun c _ => ?_
  rw [Bool.and_eq_left_iff_imp]
  exact h c

theorem filterMap_of_map_eq {f : α → Option β} {l : List α} {cs : List β}
    (h : l.map f = cs.map some) : l.filterMap f = cs := by
  calc l.filterMap f = (l.map f).filterMap id := by rw [List.filterMap_map]; rfl
    _ = cs := by rw [h, List.filterMap_map]; exact List.filterMap_some

theorem filterMap_eq_map_getD {f : α → Option α} {l : List α}
    (h : ∀ x ∈ l, f x = some ((f x).getD x)) : l.filterMap f = l.map fun x => (f x).getD x := by
  refine filterMap_of_map_eq ?_
  rw [List.map_map]
  exact List.map_congr_left h

theorem filter_mem_of_sublist {l l' : List Nat} (h : List.Sublist l' l) (hl : l.Nodup) :
    l.filter (fun x => decide (x ∈ l')) = l' := by
  induction h with
  | slnil => rfl
  | @cons l₁ l₂ a h ih =>
    rw [List.nodup_cons] at hl
    rw [List.filter_cons_of_neg (by simpa using fun hmem => hl.1 (h.subset hmem))]
    exact ih hl.2
  | @cons_cons l₁ l₂ a h ih =>
    rw [List.nodup_cons] at hl
    rw [List.filter_cons_of_pos (by simp)]
    have hrest : l₂.filter (fun x => decide (x ∈ a :: l₁)) = l₂.filter fun x => decide (x ∈ l₁) := by
      refine List.filter_congr fun x hx => ?_
      have hne : x ≠ a := fun heq => hl.1 (heq ▸ hx)
      simp [hne]
    rw [hrest, ih hl.2]

theorem eq_of_sublist_of_mem_iff {l l₁ l₂ : List Nat} (hl : l.Nodup) (h₁ : List.Sublist l₁ l)
    (h₂ : List.Sublist l₂ l) (h : ∀ x, x ∈ l₁ ↔ x ∈ l₂) : l₁ = l₂ := by
  rw [← filter_mem_of_sublist h₁ hl, ← filter_mem_of_sublist h₂ hl]
  exact List.filter_congr fun x _ => by simp only [h x]

theorem map_intersperse (f : α → β) (sep : α) : ∀ l : List α,
    (l.intersperse sep).map f = (l.map f).intersperse (f sep)
  | [] => rfl
  | [_] => rfl
  | a :: b :: l => by
    rw [List.intersperse_cons_cons, List.map_cons, List.map_cons, map_intersperse f sep (b :: l)]
    rfl

theorem mem_or_eq_of_mem_intersperse {a sep : α} : ∀ {l : List α},
    a ∈ l.intersperse sep → a ∈ l ∨ a = sep
  | [], h => by simp at h
  | [b], h => Or.inl h
  | b :: c :: l, h => by
    rw [List.intersperse_cons_cons, List.mem_cons, List.mem_cons] at h
    rcases h with rfl | rfl | h
    · exact Or.inl List.mem_cons_self
    · exact Or.inr rfl
    · exact (mem_or_eq_of_mem_intersperse h).imp_left (List.mem_cons_of_mem _)

theorem flatten_intersperse_nil : ∀ l : List (List α), (l.intersperse []).flatten = l.flatten
  | [] => rfl
  | [_] => rfl
  | a :: b :: l => by
    rw [List.intersperse_cons_cons, List.flatten_cons, List.flatten_cons, List.nil_append,
      flatten_intersperse_nil (b :: l)]
    rfl

/-! ## Positions -/

theorem exists_idxOf? {l : List Nat} {a : Nat} (h : a ∈ l) :
    ∃ i, l.idxOf? a = some i ∧ l[i]? = some a := by
  induction l with
  | nil => simp at h
  | cons b l ih =>
    by_cases hb : b = a
    · exact ⟨0, by simp [List.idxOf?_cons, hb], by simp [hb]⟩
    · obtain ⟨i, hi, hget⟩ := ih ((List.mem_cons.mp h).resolve_left (Ne.symm hb))
      exact ⟨i + 1, by simp [List.idxOf?_cons, hb, hi], by simpa using hget⟩

theorem insertIdx_eq_take_append {l : List α} {i : Nat} (h : i ≤ l.length) (a : α) :
    l.insertIdx i a = l.take i ++ a :: l.drop i := by
  induction l generalizing i with
  | nil =>
    obtain rfl : i = 0 := by simpa using h
    rfl
  | cons b l ih =>
    cases i with
    | zero => rfl
    | succ i => simp [ih (by simpa using h)]

theorem replace_eq_map [BEq α] [LawfulBEq α] [DecidableEq α] {l : List α} (h : l.Nodup)
    (a b : α) : l.replace a b = l.map fun x => if x = a then b else x := by
  induction l with
  | nil => rfl
  | cons x l ih =>
    rw [List.nodup_cons] at h
    rw [List.replace_cons, List.map_cons]
    by_cases hx : x = a
    · subst hx
      have hrest : l.map (fun y => if y = x then b else y) = l :=
        (List.map_congr_left fun y hy => if_neg fun heq : y = x => h.1 (heq ▸ hy)).trans
          (List.map_id l)
      simp [hrest]
    · have hne : (a == x) = false := by simpa using fun heq => hx heq.symm
      simp [hx, hne, ih h.2]

theorem idxOf?_append_cons {a : Nat} {u v : List Nat} (h : a ∉ u) :
    (u ++ a :: v).idxOf? a = some u.length := by
  induction u with
  | nil => simp [List.idxOf?_cons]
  | cons b u ih =>
    have hb : b ≠ a := fun heq => h (heq ▸ List.mem_cons_self)
    simp [List.idxOf?_cons, hb, ih fun hmem => h (List.mem_cons_of_mem _ hmem)]

theorem notMem_of_nodup_append_cons {a : Nat} {u v : List Nat} (h : (u ++ a :: v).Nodup) : a ∉ u :=
  fun hmem => List.disjoint_of_nodup_append h hmem List.mem_cons_self

theorem eq_of_append_cons_eq {a : Nat} {u v u' v' : List Nat} (h : (u ++ a :: v).Nodup)
    (heq : u ++ a :: v = u' ++ a :: v') : u = u' ∧ v = v' := by
  have hlen : u.length = u'.length := by
    have hidx := idxOf?_append_cons (v := v) (notMem_of_nodup_append_cons h)
    rw [heq, idxOf?_append_cons (notMem_of_nodup_append_cons (heq ▸ h))] at hidx
    exact (Option.some.inj hidx).symm
  obtain ⟨hu, hv⟩ := List.append_inj heq hlen
  exact ⟨hu, List.tail_eq_of_cons_eq hv⟩

theorem takeWhile_of_split {x : Nat} {l before after : List Nat} (hnodup : l.Nodup)
    (hsplit : l = before ++ x :: after) : l.takeWhile (· != x) = before := by
  subst hsplit
  have hne : ∀ y ∈ before, (y != x) = true := by
    intro y hy
    have hyx : y ≠ x := fun heq => notMem_of_nodup_append_cons hnodup (heq ▸ hy)
    simpa using hyx
  rw [List.takeWhile_append_of_pos hne, List.takeWhile_cons_of_neg (by simp), List.append_nil]

theorem idxOf_lt_iff_countP_le {f : Nat → Bool} {x y : Nat} (hfx : f x = false) :
    ∀ {l : List Nat} {k : Nat}, l.Nodup → x ∈ l → (l.filter f)[k]? = some y →
      (l.idxOf x < l.idxOf y ↔ (l.takeWhile (· != x)).countP f ≤ k) := by
  intro l
  induction l with
  | nil =>
    intro k _ hx
    simp at hx
  | cons a l ih =>
    intro k hnodup hx hy
    rw [List.nodup_cons] at hnodup
    have hfy : f y = true := (List.mem_filter.mp (List.mem_of_getElem? hy)).2
    have hxy : x ≠ y := by
      rintro rfl
      rw [hfx] at hfy
      simp at hfy
    by_cases hax : a = x
    · subst hax
      simp [hxy]
    · have hxl : x ∈ l := (List.mem_cons.mp hx).resolve_left (Ne.symm hax)
      have htake : (a :: l).takeWhile (· != x) = a :: l.takeWhile (· != x) :=
        List.takeWhile_cons_of_pos (by simpa using hax)
      rw [htake, List.idxOf_cons_ne _ hax]
      by_cases hfa : f a = true
      · rw [List.filter_cons_of_pos hfa] at hy
        rw [List.countP_cons_of_pos hfa]
        cases k with
        | zero =>
          obtain rfl : a = y := by simpa using hy
          simp
        | succ k =>
          rw [List.getElem?_cons_succ] at hy
          have hay : a ≠ y := by
            rintro rfl
            exact hnodup.1 (List.mem_of_mem_filter (List.mem_of_getElem? hy))
          rw [List.idxOf_cons_ne _ hay, Nat.succ_lt_succ_iff, ih hnodup.2 hxl hy,
            Nat.add_le_add_iff_right]
      · rw [List.filter_cons_of_neg hfa] at hy
        have hay : a ≠ y := by
          rintro rfl
          exact hfa hfy
        rw [List.countP_cons_of_neg hfa, List.idxOf_cons_ne _ hay, Nat.succ_lt_succ_iff,
          ih hnodup.2 hxl hy]

theorem countP_takeWhile_filter {f g : Nat → Bool} {c : Nat} (hc : g c = true)
    (hfg : ∀ x, f x = true → g x = true) (l : List Nat) :
    ((l.filter g).takeWhile (· != c)).countP f = (l.takeWhile (· != c)).countP f := by
  induction l with
  | nil => rfl
  | cons a l ih =>
    by_cases hac : a = c
    · subst hac
      rw [List.filter_cons_of_pos hc]
      simp
    · have hskip : ∀ l : List Nat, (a :: l).takeWhile (· != c) = a :: l.takeWhile (· != c) := fun _ =>
        List.takeWhile_cons_of_pos (by simpa using hac)
      cases hga : g a with
      | true =>
        rw [List.filter_cons_of_pos hga, hskip, hskip, List.countP_cons, List.countP_cons, ih]
      | false =>
        have hfa : f a = false := by
          by_contra hfa
          rw [hfg a (by simpa using hfa)] at hga
          simp at hga
        rw [List.filter_cons_of_neg (by simp [hga]), hskip, List.countP_cons_of_neg (by simp [hfa]), ih]

theorem lookup_zipIdx {l : List Nat} (h : l.Nodup) {k y i : Nat} :
    (l.zipIdx k).lookup y = some i ↔ k ≤ i ∧ l[i - k]? = some y := by
  induction l generalizing k with
  | nil => simp
  | cons a l ih =>
    rw [List.nodup_cons] at h
    rw [List.zipIdx_cons, List.lookup_cons]
    by_cases hy : y = a
    · subst hy
      simp only [beq_self_eq_true, Option.some.injEq]
      constructor
      · rintro rfl
        simp
      · rintro ⟨hk, hget⟩
        cases hj : i - k with
        | zero => omega
        | succ j =>
          rw [hj, List.getElem?_cons_succ] at hget
          exact absurd (List.mem_of_getElem? hget) h.1
    · have hne : (y == a) = false := by simpa using hy
      rw [hne, ih h.2]
      constructor
      · rintro ⟨hk, hget⟩
        refine ⟨by omega, ?_⟩
        rw [show i - k = (i - (k + 1)) + 1 by omega, List.getElem?_cons_succ]
        exact hget
      · rintro ⟨hk, hget⟩
        cases hj : i - k with
        | zero =>
          rw [hj] at hget
          exact absurd (Option.some.inj hget).symm hy
        | succ j =>
          rw [hj, List.getElem?_cons_succ] at hget
          exact ⟨by omega, by rw [show i - (k + 1) = j by omega]; exact hget⟩

/-! ## Arrays -/

theorem modify_append_of_lt {a b : Array α} {i : Nat} (h : i < a.size) (f : α → α) :
    (a ++ b).modify i f = a.modify i f ++ b := by
  apply Array.ext_getElem?
  intro j
  rw [Array.getElem?_modify, Array.getElem?_append, Array.getElem?_append, Array.size_modify,
    Array.getElem?_modify]
  by_cases hij : i = j
  · subst hij
    rw [if_pos rfl, if_pos rfl, if_pos h, if_pos h]
  · rw [if_neg hij, if_neg hij]

theorem modify_append_size (a : Array α) (x : α) (l : List α) (f : α → α) :
    (a ++ (x :: l).toArray).modify a.size f = a ++ (f x :: l).toArray := by
  apply Array.ext_getElem?
  intro j
  rw [Array.getElem?_modify, Array.getElem?_append, Array.getElem?_append]
  by_cases hj : a.size = j
  · subst hj
    simp
  · rw [if_neg hj]
    by_cases hlt : j < a.size
    · rw [if_pos hlt, if_pos hlt]
    · obtain ⟨k, rfl⟩ : ∃ k, j = a.size + 1 + k := ⟨j - (a.size + 1), by omega⟩
      rw [if_neg hlt, if_neg hlt, show a.size + 1 + k - a.size = k + 1 by omega]
      simp

theorem push_modify_append (a : Array α) (x : α) (f : α → α) (l : List α) :
    (a.push x).modify a.size f ++ l.toArray = a ++ (f x :: l).toArray := by
  rw [Array.push_eq_append, modify_append_size a x [] f, Array.append_assoc]
  simp

theorem modify_modify (a : Array α) (i : Nat) (f g : α → α) :
    (a.modify i f).modify i g = a.modify i (g ∘ f) := by
  apply Array.ext_getElem?
  intro j
  rw [Array.getElem?_modify, Array.getElem?_modify, Array.getElem?_modify]
  by_cases hij : i = j
  · rw [if_pos hij, if_pos hij, if_pos hij, Option.map_map]
  · rw [if_neg hij, if_neg hij, if_neg hij]

end TreePatch
