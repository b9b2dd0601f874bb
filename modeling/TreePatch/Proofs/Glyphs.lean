import TreePatch.Proofs.Printed

/-!
# Printed characters

A printed text, character by character: each character comes from a token or is white space that was put
between tokens. Taking this white space away leaves the texts of the tokens, and two word characters that
come from different tokens never stand side by side.

The second part rests on what is known of pieces (`isChain_pieces`): where two tokens touch, one of them
is of those that stand close. These are not empty and neither start nor end in a word, so an empty token
between two words has a blank on either side.
-/

namespace TreePatch.Layout

/-- A printed character, with the number of the token that it comes from, if it comes from one. -/
structure Glyph where
  char : Char
  source : Option Nat
  deriving DecidableEq

/-- Whether two characters may stand side by side: word characters of different tokens may not. -/
def Glyph.Apart (g h : Glyph) : Prop :=
  ∀ i j, g.source = some i → h.source = some j → i ≠ j →
    ¬ (isWordChar g.char = true ∧ isWordChar h.char = true)

theorem Glyph.apart_of_left {g : Glyph} (hg : g.source = none) (h : Glyph) : g.Apart h := by
  intro i j hi
  simp [hg] at hi

theorem Glyph.apart_of_right (g : Glyph) {h : Glyph} (hh : h.source = none) : g.Apart h := by
  intro i j _ hj
  simp [hh] at hj

/-- The characters of a token. -/
def tokenGlyphs (text : String) (i : Nat) : List Glyph :=
  text.toList.map (⟨·, some i⟩)

@[simp] theorem map_char_tokenGlyphs (text : String) (i : Nat) :
    (tokenGlyphs text i).map Glyph.char = text.toList := by
  simp [tokenGlyphs, Function.comp_def]

/-- The characters of tokens, which are numbered from `start`. -/
def numbered (texts : List String) (start : Nat) : List Glyph :=
  (texts.zipIdx start).flatMap fun m => tokenGlyphs m.1 m.2

theorem numbered_append (texts texts' : List String) (start : Nat) :
    numbered (texts ++ texts') start = numbered texts start ++ numbered texts' (start + texts.length) := by
  rw [numbered, List.zipIdx_append, List.flatMap_append]
  rfl

theorem map_char_numbered (texts : List String) (start : Nat) :
    (numbered texts start).map Glyph.char = (String.join texts).toList := by
  induction texts generalizing start with
  | nil => rfl
  | cons text texts ih =>
    rw [← List.singleton_append, numbered_append, List.map_append, ih]
    simp [numbered]

/-! ## Characters of pieces -/

/-- The characters of a piece, which has the number `i` if it is a token. -/
def Piece.glyphs (i : Nat) : Piece → List Glyph
  | .token text => tokenGlyphs text i
  | .blanks count => List.replicate count ⟨' ', none⟩
  | .lineEnd => [⟨'\n', none⟩]

/-- The characters of pieces, whose tokens are numbered from `start`. -/
def glyphs (start : Nat) : List Piece → List Glyph
  | [] => []
  | p :: ps => p.glyphs start ++ glyphs (start + p.token?.toList.length) ps

theorem map_char_glyphs (start : Nat) (ps : List Piece) :
    (glyphs start ps).map Glyph.char = (String.join (ps.map Piece.text)).toList := by
  have hpiece : ∀ i (p : Piece), (p.glyphs i).map Glyph.char = p.text.toList := by
    intro i p
    cases p with
    | token text => exact map_char_tokenGlyphs text i
    | blanks count => simp [Piece.glyphs, Piece.text]
    | lineEnd => rfl
  induction ps generalizing start with
  | nil => rfl
  | cons p ps ih =>
    rw [glyphs, List.map_append, hpiece, ih]
    simp

theorem filterMap_token?_cons (p : Piece) (ps : List Piece) :
    (p :: ps).filterMap Piece.token? = p.token?.toList ++ ps.filterMap Piece.token? := by
  cases p <;> rfl

theorem filter_glyphs (start : Nat) (ps : List Piece) :
    (glyphs start ps).filter (·.source.isSome) = numbered (ps.filterMap Piece.token?) start := by
  have hpiece : ∀ i (p : Piece),
      (p.glyphs i).filter (·.source.isSome) = numbered p.token?.toList i := by
    intro i p
    cases p with
    | token text => simp [Piece.glyphs, tokenGlyphs, Piece.token?, numbered, List.filter_map, Function.comp_def]
    | blanks count => simp [Piece.glyphs, Piece.token?, numbered]
    | lineEnd => rfl
  induction ps generalizing start with
  | nil => rfl
  | cons p ps ih =>
    rw [glyphs, List.filter_append, hpiece, ih, filterMap_token?_cons, numbered_append]

theorem tokenGlyphs_infix {start : Nat} {ps : List Piece} {m : String × Nat}
    (hm : m ∈ (ps.filterMap Piece.token?).zipIdx start) : tokenGlyphs m.1 m.2 <:+: glyphs start ps := by
  induction ps generalizing start with
  | nil => simp at hm
  | cons p ps ih =>
    rw [filterMap_token?_cons, List.zipIdx_append, List.mem_append] at hm
    rcases hm with hm | hm
    · cases p with
      | token text =>
        obtain rfl : m = (text, start) := by simpa [Piece.token?] using hm
        exact (List.prefix_append _ _).isInfix
      | blanks count | lineEnd => simp [Piece.token?] at hm
    · exact (ih hm).trans (List.suffix_append _ _).isInfix

theorem blank_of_mem_glyphs {start : Nat} {ps : List Piece} {g : Glyph} (hg : g ∈ glyphs start ps)
    (hsource : g.source = none) : g.char = ' ' ∨ g.char = '\n' := by
  induction ps generalizing start with
  | nil => simp [glyphs] at hg
  | cons p ps ih =>
    rw [glyphs, List.mem_append] at hg
    rcases hg with hg | hg
    · cases p with
      | token text =>
        obtain ⟨c, -, rfl⟩ := List.mem_map.mp hg
        simp at hsource
      | blanks count => exact Or.inl (by rw [List.eq_of_mem_replicate hg])
      | lineEnd => exact Or.inr (by rw [List.mem_singleton.mp hg])
    · exact ih hg

theorem glyphs_filter_blanks (start : Nat) (ps : List Piece) :
    glyphs start (ps.filter (· != .blanks 0)) = glyphs start ps := by
  induction ps generalizing start with
  | nil => rfl
  | cons p ps ih =>
    by_cases hp : p = .blanks 0
    · rw [hp, List.filter_cons_of_neg (by simp), ih]
      rfl
    · rw [List.filter_cons_of_pos (by simpa using hp), glyphs, glyphs, ih]

/-! ## Neighbours -/

/-- What the last character up to a piece can be. Nothing is known of it behind an empty token. -/
def Piece.EndsIn : Piece → Glyph → Prop
  | .token text, g => ∀ c, text.toList.getLast? = some c → g.char = c
  | .blanks _, g | .lineEnd, g => g.source = none

theorem exists_last_of_close {text : String} (h : text ∈ closeTokens) :
    ∃ c, text.toList.getLast? = some c ∧ isWordChar c = false := by
  have hlast : ∀ text ∈ closeTokens, text.toList.getLast?.any (!isWordChar ·) = true := by
    decide +kernel
  obtain ⟨c, hc, hword⟩ := (Option.any_eq_true _ _).mp (hlast text h)
  exact ⟨c, hc, by simpa using hword⟩

theorem Piece.MayTouch.glyph_apart {p : Piece} {text : String} (h : p.MayTouch (.token text)) {g : Glyph}
    (hg : p.EndsIn g) {c : Char} (hc : text.toList.head? = some c) (i : Nat) : g.Apart ⟨c, some i⟩ := by
  cases p with
  | blanks count | lineEnd => exact Glyph.apart_of_left hg _
  | token before =>
    rintro - - - - - ⟨hword, hword'⟩
    rcases h with hclose | hclose
    · obtain ⟨last, hlast, hnot⟩ := exists_last_of_close hclose
      simp [hg last hlast, hnot] at hword
    · have hstarts := (not_word_of_close text hclose).1
      simp [startsInWord, hc, hword'] at hstarts

theorem isChain_tokenGlyphs (text : String) (i : Nat) : (tokenGlyphs text i).IsChain Glyph.Apart := by
  refine (List.isChain_map _).mpr (List.pairwise_of_forall fun a b j k hj hk hne => ?_).isChain
  exact absurd (Option.some.inj (hj.symm.trans hk)) hne

/-- The characters of one piece are apart from what is before them. What comes later may rely on the piece
only, so it is a chain behind every character that the piece can end in. -/
theorem isChain_glyphs_append {p q : Piece} (h : p.MayTouch q) (hq : q ≠ .blanks 0) {g : Glyph}
    (hg : p.EndsIn g) (i : Nat) {rest : List Glyph}
    (hrest : ∀ g', q.EndsIn g' → (g' :: rest).IsChain Glyph.Apart) :
    (g :: (q.glyphs i ++ rest)).IsChain Glyph.Apart := by
  cases q with
  | token text =>
    rcases List.eq_nil_or_concat text.toList with hnil | ⟨front, c, hconcat⟩
    · -- the token is empty, and what is before it is before the rest
      rw [Piece.glyphs, tokenGlyphs, hnil]
      exact hrest g (by simp [Piece.EndsIn, hnil])
    · have hchain : (g :: tokenGlyphs text i).IsChain Glyph.Apart := by
        refine List.isChain_cons.mpr ⟨fun first hfirst => ?_, isChain_tokenGlyphs text i⟩
        rw [tokenGlyphs, List.head?_map] at hfirst
        obtain ⟨c, hc, rfl⟩ := Option.map_eq_some_iff.mp hfirst
        exact h.glyph_apart hg hc i
      have hglyphs : tokenGlyphs text i = front.map (⟨·, some i⟩) ++ [⟨c, some i⟩] := by
        simp [tokenGlyphs, hconcat]
      rw [Piece.glyphs, hglyphs, List.append_assoc, List.singleton_append, List.isChain_cons_split, ← hglyphs]
      exact ⟨hchain, hrest _ (by simp [Piece.EndsIn, hconcat])⟩
  | blanks count =>
    obtain ⟨count, rfl⟩ := Nat.exists_eq_succ_of_ne_zero (n := count) (by simpa using hq)
    have hblanks : (g :: List.replicate (count + 1) ⟨' ', none⟩).IsChain Glyph.Apart :=
      .cons_cons (g.apart_of_right rfl)
        (List.isChain_replicate_of_rel (count + 1) (Glyph.apart_of_left rfl _))
    rw [Piece.glyphs, List.replicate_succ', List.append_assoc, List.singleton_append,
      List.isChain_cons_split, ← List.replicate_succ']
    exact ⟨hblanks, hrest _ rfl⟩
  | lineEnd => exact .cons_cons (g.apart_of_right rfl) (hrest _ rfl)

theorem isChain_glyphs_of_endsIn {p : Piece} {ps : List Piece} (h : (p :: ps).IsChain Piece.MayTouch)
    (hps : ∀ q ∈ ps, q ≠ .blanks 0) {g : Glyph} (hg : p.EndsIn g) (start : Nat) :
    (g :: glyphs start ps).IsChain Glyph.Apart := by
  induction ps generalizing p g start with
  | nil => exact .singleton _
  | cons q ps ih =>
    rw [List.isChain_cons_cons] at h
    exact isChain_glyphs_append h.1 (hps q List.mem_cons_self) hg start fun g' hg' =>
      ih h.2 (fun r hr => hps r (List.mem_cons_of_mem _ hr)) hg' _

/-- **Word characters of different tokens never stand side by side** in a layout. -/
theorem isChain_glyphs (width : Nat) {items : List Item} (hitems : AllPlain items) (start : Nat) :
    (glyphs start (pieces width {} items)).IsChain Glyph.Apart := by
  have hchain : (.lineEnd :: (pieces width {} items).filter (· != .blanks 0)).IsChain Piece.MayTouch :=
    List.isChain_cons.mpr ⟨fun q _ => Piece.mayTouch_of_left rfl q, isChain_pieces width hitems⟩
  have hblanks : ∀ q ∈ (pieces width {} items).filter (· != .blanks 0), q ≠ .blanks 0 := fun q hq => by
    simpa using (List.mem_filter.mp hq).2
  rw [← glyphs_filter_blanks]
  exact (isChain_glyphs_of_endsIn hchain hblanks (g := ⟨'\n', none⟩) rfl start).tail

end TreePatch.Layout

namespace TreePatch

open Layout

/-- **Printing only puts white space between tokens**: without it, the characters of the printed text are
those of the tokens, in order, each token stands in one stretch, and word characters of different tokens
are kept apart, whatever the labels are. -/
theorem Tree.print_spaces_tokens {t : Tree} {unit : CompilationUnit} (hunit : t.onlyUnit = .ok unit)
    (width : Nat) :
    let texts := (t.header ++ unit.declaredTypes).flatMap fun id => tokens (t.itemsOf id)
    ∃ gs : List Glyph, t.print width = .ok (String.ofList (gs.map Glyph.char)) ∧
      gs.filter (·.source.isSome) = numbered texts 0 ∧
      String.ofList ((gs.filter (·.source.isSome)).map Glyph.char) = String.join texts ∧
      (∀ g ∈ gs, g.source = none → g.char = ' ' ∨ g.char = '\n') ∧
      (∀ m ∈ texts.zipIdx, tokenGlyphs m.1 m.2 <:+: gs) ∧ gs.IsChain Glyph.Apart := by
  intro texts
  have htokens : (pieces width {} (t.programItems unit.declaredTypes)).filterMap Piece.token? = texts := by
    rw [filterMap_pieces, tokens_programItems]
  have htexts : (glyphs 0 (pieces width {} (t.programItems unit.declaredTypes))).filter (·.source.isSome) =
      numbered texts 0 := by
    rw [filter_glyphs, htokens]
  refine ⟨_, ?_, htexts, ?_, fun g hg => blank_of_mem_glyphs hg, fun m hm => ?_,
    isChain_glyphs width (t.allPlain_programItems _) 0⟩
  · rw [map_char_glyphs, String.ofList_toList, print, hunit]
    rfl
  · rw [htexts, map_char_numbered, String.ofList_toList]
  · exact tokenGlyphs_infix (htokens.symm ▸ hm)

/-- A type with the given leaves. -/
def Tree.ofLeaves (labels : List String) : Tree :=
  ofRose "t" none <| .node rootContent
    [.node { kind := "class_declaration", label := "", role := .containedType }
      (labels.map fun label => .node { kind := "identifier", label := label, role := .child } [])]

/-- An empty label leaves two blanks between the words around it, and the blank in a label is kept. -/
theorem Tree.print_spaces_tokens_empty :
    let t := Tree.ofLeaves ["a", "", "b c"]
    t.onlyUnit = .ok ⟨none, [1]⟩ ∧ t.print 4 = .ok "a  b c\n" ∧
      ∃ gs : List Glyph, String.ofList (gs.map Glyph.char) = "a  b c\n" ∧
        gs.filter (·.source.isSome) = numbered ["a", "", "b c"] 0 ∧ gs.IsChain Glyph.Apart := by
  intro t
  have hunit : t.onlyUnit = .ok ⟨none, [1]⟩ := by decide +kernel
  have hprint : t.print 4 = .ok "a  b c\n" := by decide +kernel
  obtain ⟨gs, htext, htokens, -, -, -, hapart⟩ := Tree.print_spaces_tokens hunit 4
  refine ⟨hunit, hprint, gs, ?_, ?_, hapart⟩
  · simpa [hprint] using htext.symm
  · rw [htokens]
    decide +kernel

end TreePatch
