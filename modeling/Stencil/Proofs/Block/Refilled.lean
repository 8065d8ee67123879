import Stencil.Proofs.Block.Siblings

/-!
# Filling a block anew

A block that is opened without the sign is emptied, but what was written below it is not: the blocks
there are found again by their names.  They are emptied in turn before anything refers to them, so
what is left over from before is never seen.

* `Outline.Visible` : the blocks that references lead to from a block.
* `Outline.Twins` : two blocks are filled alike, and the same can be seen from both.  Operations without
  a sign keep this (`Outline.Twins.run`, `Outline.Twins.runs`), whatever there was before.
* `Outline.Flattens.twin`, `Outline.Flattens.of_same` : what can be seen makes the text.
* `Tree.refill_after` : so a block that is filled anew has the text that it would have as a root.
-/

namespace Stencil.Block

namespace Outline

variable {m m' : Outline} {path path' inner r q : Path} {name : String}

/-! ### What can be seen -/

/-- The blocks that references lead to from a block, with their paths within it. -/
inductive Visible (m : Outline) (path : Path) : Path → Prop
  | here : Visible m path []
  | child {inner : Path} {name : String} : Visible m path inner →
      .child name ∈ m.pieces (inner ++ path) → Visible m path (name :: inner)

theorem Visible.mono (h : m.Visible path r)
    (hsub : ∀ q name, .child name ∈ m.pieces q → .child name ∈ m'.pieces q) : m'.Visible path r := by
  induction h with
  | here => exact .here
  | child _ hmem ih => exact ih.child (hsub _ _ hmem)

/-- Changing texts changes nothing about what can be seen. -/
theorem visible_write {f : List Piece → List Piece}
    (hf : ∀ name es, .child name ∈ f es ↔ .child name ∈ es) :
    (m.write q f).Visible path r ↔ m.Visible path r := by
  have hmem (q' : Path) (name : String) :
      .child name ∈ (m.write q f).pieces q' ↔ .child name ∈ m.pieces q' := by
    rw [pieces_write]
    split
    · exact hf name _
    · exact Iff.rfl
  exact ⟨fun h => h.mono fun q' name => (hmem q' name).1,
    fun h => h.mono fun q' name => (hmem q' name).2⟩

/-- From an empty block nothing else can be seen. -/
theorem Visible.eq_nil (h : m.Visible path r) (hnil : m.pieces path = []) : r = [] := by
  induction h with
  | here => rfl
  | child _ hmem ih =>
    rw [ih, List.nil_append, hnil] at hmem
    cases hmem

theorem mem_trimPieces {es : List Piece} : .child name ∈ trimPieces es ↔ .child name ∈ es := by
  have hliteral : .child name ∉ es.rtakeWhile Piece.isLiteral := fun hmem =>
    Bool.false_ne_true (List.mem_rtakeWhile_imp hmem)
  have hsplit : es.rdropWhile Piece.isLiteral ++ es.rtakeWhile Piece.isLiteral = es :=
    List.rdropWhile_append_rtakeWhile ..
  conv_rhs => rw [← hsplit, List.mem_append]
  simp [trimPieces, hliteral]

/-! ### Opening a block anew -/

section openBlock

variable (hopened : m.opened = inner ++ path) (hne : path ≠ [])
include hopened hne

/-- What is written within an outer block after an opening that keeps nothing. -/
theorem pieces_openBlock_within (hname : keeps name = false) (r : Path) :
    (m.openBlock name).pieces (r ++ path) =
      if r = inner then refer (bareName name) (m.pieces (r ++ path))
      else if r = bareName name :: inner then [] else m.pieces (r ++ path) := by
  have hnil : m.opened ≠ [] := hopened ▸ List.append_ne_nil_of_right_ne_nil _ hne
  rw [pieces_openBlock hnil, pathTo, hopened, ← List.cons_append]
  simp only [List.append_left_inj, hname, and_true]

/-- After an opening, the block that is opened can be seen from an outer one … -/
theorem Visible.openBlock (h : m.Visible path inner) (hname : keeps name = false) :
    (m.openBlock name).Visible path (bareName name :: inner) := by
  -- the references that lead to the open block are higher up than the block that is emptied
  have hkept {r : Path} (hr : m.Visible path r) (hlength : r.length ≤ inner.length) :
      (m.openBlock name).Visible path r := by
    induction hr with
    | here => exact .here
    | @child r name' _ hmem ih =>
      have hlt : r.length < inner.length := hlength
      refine (ih (Nat.le_of_lt hlt)).child ?_
      rw [pieces_openBlock_within hopened hne hname, if_neg (by rintro rfl; omega), if_neg]
      · exact hmem
      · rintro rfl
        rw [List.length_cons] at hlt
        omega
  refine (hkept h (Nat.le_refl _)).child ?_
  rw [pieces_openBlock_within hopened hne hname, if_pos rfl]
  exact mem_refer _ _

/-- … and otherwise only what could be seen before. -/
theorem Visible.of_openBlock (h : (m.openBlock name).Visible path r) (hname : keeps name = false) :
    r = bareName name :: inner ∨ m.Visible path r := by
  induction h with
  | here => exact .inr .here
  | @child r name' _ hmem ih =>
    rw [pieces_openBlock_within hopened hne hname] at hmem
    rcases ih with rfl | hvisible
    · rw [if_neg (List.cons_ne_self _ _), if_pos rfl] at hmem
      cases hmem
    · split at hmem
      next hr =>
        subst hr
        rw [refer] at hmem
        split at hmem
        · exact .inr (hvisible.child hmem)
        · rcases List.mem_append.1 hmem with hmem | hmem
          · exact .inr (hvisible.child hmem)
          · cases List.mem_singleton.1 hmem
            exact .inl rfl
      next =>
        split at hmem
        · cases hmem
        · exact .inr (hvisible.child hmem)

end openBlock

/-! ### Twins -/

/-- The same block is open below each of two blocks, and the same can be seen from both. -/
structure Twins (path path' inner : Path) (m m' : Outline) : Prop where
  /-- This block is open below the one, … -/
  opened : m.opened = inner ++ path
  /-- … and below the other. -/
  opened' : m'.opened = inner ++ path'
  /-- It can be seen. -/
  visible : m.Visible path inner
  /-- Where something can be seen, the same is written. -/
  pieces : ∀ r, m.Visible path r → m.pieces (r ++ path) = m'.pieces (r ++ path')

namespace Twins

/-- Changing the texts of the open block. -/
theorem write (h : Twins path path' inner m m') {f : List Piece → List Piece}
    (hf : ∀ name es, .child name ∈ f es ↔ .child name ∈ es) :
    Twins path path' inner (m.write m.opened f) (m'.write m'.opened f) where
  opened := h.opened
  opened' := h.opened'
  visible := (visible_write hf).2 h.visible
  pieces := by
    intro r hr
    rw [pieces_write, pieces_write, h.opened, h.opened', h.pieces r ((visible_write hf).1 hr)]
    simp only [List.append_left_inj]

/-- Opening a block. -/
theorem openBlock (h : Twins path path' inner m m') (hne : path ≠ []) (hne' : path' ≠ [])
    (hname : keeps name = false) :
    Twins path path' (bareName name :: inner) (m.openBlock name) (m'.openBlock name) where
  opened := congrArg (bareName name :: ·) h.opened
  opened' := congrArg (bareName name :: ·) h.opened'
  visible := h.visible.openBlock h.opened hne hname
  pieces := by
    intro r hr
    rw [pieces_openBlock_within h.opened hne hname, pieces_openBlock_within h.opened' hne' hname]
    rcases hr.of_openBlock h.opened hne hname with rfl | hr
    · rw [if_neg (List.cons_ne_self _ _), if_neg (List.cons_ne_self _ _), if_pos rfl, if_pos rfl]
    · rw [h.pieces r hr]

/-- Closing a block. -/
theorem close (h : Twins path path' (name :: inner) m m') (hne : path ≠ []) (hne' : path' ≠ []) :
    Twins path path' inner m.close m'.close where
  opened := opened_close (List.append_ne_nil_of_right_ne_nil _ hne) h.opened
  opened' := opened_close (List.append_ne_nil_of_right_ne_nil _ hne') h.opened'
  visible := by
    cases h.visible with
    | child hvisible _ => exact hvisible.mono fun q name' hmem => by rwa [pieces_close]
  pieces := by
    intro r hr
    rw [pieces_close, pieces_close]
    exact h.pieces r (hr.mono fun q name' hmem => by rwa [pieces_close] at hmem)

/-- Any operation without a sign that closes nothing outside. -/
theorem run (h : Twins path path' inner m m') (hne : path ≠ []) (hne' : path' ≠ []) {op : Op}
    (hop : ∀ name, op = .openBlock name → keeps name = false) {depth : Nat}
    (hlevel : op.level inner.length = some depth) :
    ∃ inner', inner'.length = depth ∧ Twins path path' inner' (m.run op) (m'.run op) := by
  have hnil : m.opened ≠ [] := h.opened ▸ List.append_ne_nil_of_right_ne_nil _ hne
  have hnil' : m'.opened ≠ [] := h.opened' ▸ List.append_ne_nil_of_right_ne_nil _ hne'
  cases op with
  | openBlock name =>
    cases hlevel
    exact ⟨_, rfl, h.openBlock hne hne' (hop name rfl)⟩
  | close =>
    cases inner with
    | nil => cases hlevel
    | cons name inner =>
      cases hlevel
      exact ⟨inner, rfl, h.close hne hne'⟩
  | append text =>
    cases hlevel
    refine ⟨inner, rfl, ?_⟩
    rw [Outline.run, Outline.run, append, append, ensureOpen_of_opened hnil,
      ensureOpen_of_opened hnil']
    exact h.write fun name es => by simp
  | trim =>
    cases hlevel
    refine ⟨inner, rfl, ?_⟩
    rw [Outline.run, Outline.run, trim, trim, ensureOpen_of_opened hnil, ensureOpen_of_opened hnil']
    exact h.write fun name es => mem_trimPieces

/-- Operations without a sign, one after the other. -/
theorem runs (h : Twins path path' inner m m') (hne : path ≠ []) (hne' : path' ≠ [])
    {ops : List Op} (hops : ∀ name, .openBlock name ∈ ops → keeps name = false) {depth : Nat}
    (hlevel : levelAfter ops inner.length = some depth) :
    ∃ inner', inner'.length = depth ∧
      Twins path path' inner' (ops.foldl Outline.run m) (ops.foldl Outline.run m') := by
  induction ops generalizing m m' inner with
  | nil =>
    cases hlevel
    exact ⟨inner, rfl, h⟩
  | cons op ops ih =>
    obtain ⟨next, hnext, hrest⟩ := Option.bind_eq_some_iff.1 hlevel
    obtain ⟨inner', rfl, h'⟩ := h.run hne hne'
      (fun name heq => hops name (heq ▸ List.mem_cons_self ..)) hnext
    exact ih h' (fun name hmem => hops name (List.mem_cons_of_mem _ hmem)) hrest

end Twins

/-! ### Texts -/

/-- A text that is made from what can be seen from a block is made from its twin too. -/
theorem Flattens.twin {es : List Piece} {text : List Char}
    (hpieces : ∀ r, m.Visible path r → m.pieces (r ++ path) = m'.pieces (r ++ path'))
    (h : m'.Flattens q es text) (hq : q = inner ++ path') (hvisible : m.Visible path inner)
    (hes : ∀ name, .child name ∈ es → .child name ∈ m.pieces (inner ++ path)) :
    m.Flattens (inner ++ path) es text := by
  induction h generalizing inner with
  | nil => exact .nil
  | literal s _ ih =>
    exact .literal s (ih hq hvisible fun name hmem => hes name (List.mem_cons_of_mem _ hmem))
  | @child q es text rest name _ _ ihchild ih =>
    have hchild : m.Visible path (name :: inner) :=
      hvisible.child (hes name (List.mem_cons_self ..))
    have heq : m.pieces (name :: inner ++ path) = m'.pieces (name :: q) := by
      rw [hpieces _ hchild, hq]
      rfl
    refine .child name ?_ (ih hq hvisible fun name hmem => hes name (List.mem_cons_of_mem _ hmem))
    have hq' : name :: q = (name :: inner) ++ path' := by
      rw [hq]
      rfl
    have hflattens := ihchild hq' hchild fun name' hmem => heq ▸ hmem
    rw [← heq] at hflattens
    exact hflattens

/-- If two outlines differ at and below a path only, and the same text is written at that path, the
same text is written everywhere else. -/
theorem Flattens.of_same {es : List Piece} {text inside : List Char}
    (hpieces : ∀ q, ¬ path <:+ q → m.pieces q = m'.pieces q)
    (hinside : m.Flattens path (m.pieces path) inside)
    (hinside' : m'.Flattens path (m'.pieces path) inside)
    (h : m.Flattens q es text) (hq : ¬ path <:+ q) : m'.Flattens q es text := by
  induction h with
  | nil => exact .nil
  | literal s _ ih => exact .literal s (ih hq)
  | @child q es text rest name hchild _ ihchild ih =>
    refine .child name ?_ (ih hq)
    by_cases heq : path = name :: q
    · subst heq
      rw [hchild.unique hinside]
      exact hinside'
    · have hq' : ¬ path <:+ name :: q := fun hsuffix =>
        (List.suffix_cons_iff.1 hsuffix).elim heq hq
      rw [← hpieces _ hq']
      exact ihchild hq'

section fill

variable (hopen : m.opened ≠ []) (hname : keeps name = false) {body : List Op}
  (hbody : Balanced body) (hsigns : ∀ inner, .openBlock inner ∈ body → keeps inner = false)
include hopen hname hbody hsigns

/-- A block that is filled anew and the root of an outline in which nothing else has been done. -/
theorem twins_fill : Twins (m.pathTo name) [rootName] [] (body.foldl run (m.openBlock name))
    (body.foldl run (({} : Outline).openBlock rootName)) := by
  have hempty : (m.openBlock name).pieces (m.pathTo name) = [] := by
    have hpath : m.pathTo name ≠ m.opened := fun heq =>
      m.not_pathTo_suffix name (heq ▸ List.suffix_refl _)
    rw [pieces_openBlock hopen, if_neg hpath, if_pos ⟨rfl, hname⟩]
  have hfirst : Twins (m.pathTo name) [rootName] [] (m.openBlock name)
      (({} : Outline).openBlock rootName) := by
    refine ⟨rfl, by decide, .here, fun r hr => ?_⟩
    rw [hr.eq_nil hempty, List.nil_append, List.nil_append, hempty]
    decide
  obtain ⟨inner, hlength, htwins⟩ :=
    hfirst.runs (m.pathTo_ne_nil name) (List.cons_ne_nil _ _) hsigns hbody
  rw [List.length_eq_zero_iff.1 hlength] at htwins
  exact htwins

/-- What is written in a block that is filled anew. -/
theorem flattens_fill {text : List Char}
    (h : (body.foldl run (({} : Outline).openBlock rootName)).Flattens [rootName]
      ((body.foldl run (({} : Outline).openBlock rootName)).pieces [rootName]) text) :
    ((fill name body).foldl run m).Flattens (m.pathTo name)
      (((fill name body).foldl run m).pieces (m.pathTo name)) text := by
  have htwins := twins_fill hopen hname hbody hsigns
  have hpieces : ((fill name body).foldl run m).pieces =
      (body.foldl run (m.openBlock name)).pieces := by
    rw [foldl_fill, pieces_close]
  have hsame (r : Path) (hr : ((fill name body).foldl run m).Visible (m.pathTo name) r) :
      ((fill name body).foldl run m).pieces (r ++ m.pathTo name) =
        (body.foldl run (({} : Outline).openBlock rootName)).pieces (r ++ [rootName]) := by
    rw [hpieces]
    exact htwins.pieces r (hr.mono fun q name' hmem => by rwa [hpieces] at hmem)
  have hstart := hsame [] .here
  rw [List.nil_append, List.nil_append] at hstart
  rw [← hstart] at h
  exact h.twin hsame rfl .here fun name' hmem => hmem

/-- Filling a block anew a second time writes the same. -/
theorem rootHolds_fill_fill (hroot : m.root.length ≤ 1) {inside : List Char}
    (hinside : (body.foldl run (({} : Outline).openBlock rootName)).Flattens [rootName]
      ((body.foldl run (({} : Outline).openBlock rootName)).pieces [rootName]) inside)
    {text : String} (h : ((fill name body).foldl run m).RootHolds text) :
    ((fill name body).foldl run ((fill name body).foldl run m)).RootHolds text := by
  have hopened := opened_fill hopen hbody name
  have hopen' : ((fill name body).foldl run m).opened ≠ [] := hopened ▸ hopen
  have hpath : ((fill name body).foldl run m).pathTo name = m.pathTo name :=
    congrArg (bareName name :: ·) hopened
  have hmem : .child (bareName name) ∈ ((fill name body).foldl run m).pieces m.opened := by
    rw [pieces_fill hopen hbody name (m.not_pathTo_suffix name), if_pos rfl]
    exact mem_refer _ _
  rw [← hopened] at hmem
  have hpieces (q : Path) (hq : ¬ m.pathTo name <:+ q) :
      ((fill name body).foldl run m).pieces q =
        ((fill name body).foldl run ((fill name body).foldl run m)).pieces q :=
    (pieces_fill_of_mem hopen' hbody hmem (hpath ▸ hq)).symm
  have honce := flattens_fill hopen hname hbody hsigns hinside
  have htwice := flattens_fill hopen' hname hbody hsigns hinside
  rw [hpath] at htwice
  -- the block is not at the top, so the root is another one
  have houter : ¬ m.pathTo name <:+ m.root := by
    intro hsuffix
    have hlength := hsuffix.length_le
    have hpos := List.length_pos_iff.2 hopen
    rw [pathTo, List.length_cons] at hlength
    omega
  rw [RootHolds, root_fill hopen hbody] at h
  rw [RootHolds, root_fill hopen' hbody, root_fill hopen hbody]
  split at h
  next hnil => rwa [if_pos hnil]
  next hne =>
    rw [if_neg hne, Holds, ← hpieces _ houter]
    exact Flattens.of_same hpieces honce htwice h houter

end fill

end Outline

namespace Tree

/-- The root is at the top. -/
theorem length_root_le {t : Tree} {m : Outline} (h : Tracks t m) (hwell : Wellformed t) :
    m.root.length ≤ 1 := by
  have hroot := h.root
  generalize hr : t.root = root at hroot
  generalize m.root = path at hroot ⊢
  cases hroot with
  | top => exact Nat.zero_le 1
  | @name parent path _ id hpath hmem =>
    have hparent := hwell.parent_of_mem hmem
    rw [hwell.root_eq] at hr
    split at hr
    · cases hr
    · cases hr
      cases parent with
      | none =>
        rw [hpath.eq_nil_iff.2 rfl]
        exact Nat.le_refl 1
      | some p => exact absurd (hwell.parent_lt hparent) (Nat.not_lt_zero p)

/-- **Filling anew.**  After every sequence of operations that leaves a block open, let a block be opened
within it without the sign, be filled with operations that close what they open and use no sign
either, and be closed.  It has the text then that the root of a fresh tree has after the same
operations, whatever it and the blocks below it held before.  Doing this twice gives the same text
of the root as doing it once. -/
theorem refill_after (ops body : List Op) (name : String) (hopen : (after ops).current.isSome)
    (hname : (splitSign name).1 = false) (hbody : Balanced body)
    (hsigns : ∀ inner, .openBlock inner ∈ body → (splitSign inner).1 = false) :
    (after (ops ++ fill name body)).render ((after ops).openBlock name).1 =
      (after (.openBlock rootName :: body)).renderRoot ∧
    (after (ops ++ fill name body ++ fill name body)).renderRoot =
      (after (ops ++ fill name body)).renderRoot := by
  have hwell := wellformed_after ops
  have htracks := Tracks.after ops
  have houtline := Tracks.after_append ops
  generalize hm : Outline.after ops = m at *
  have hlinked (ops : List Op) : Linked (after ops) := (wellformed_after ops).toLinked
  have hne : m.opened ≠ [] := by
    intro hnil
    rw [htracks.opened.eq_nil_iff.1 hnil] at hopen
    cases hopen
  simp only [Outline.splitSign_eq] at hname hsigns
  -- the fresh tree
  have hfresh := Tracks.after (.openBlock rootName :: body)
  have hfreshroot : (Outline.after (.openBlock rootName :: body)).root = [rootName] := by
    have hwithin : (({} : Outline).openBlock rootName).Within [rootName] 0 := ⟨[], by decide, rfl⟩
    exact (Outline.root_runs hwithin (List.cons_ne_nil _ _) hbody).trans (by decide)
  have hinside := (hfresh.rootHolds (hlinked _) _).2 rfl
  rw [Outline.RootHolds, hfreshroot, if_neg (List.cons_ne_nil _ _)] at hinside
  constructor
  · have hleads : Leads (after (ops ++ fill name body)).names (some ((after ops).openBlock name).1)
        (m.pathTo name) := by
      have hopened := (htracks.openBlock hwell name).opened
      rw [after_append]
      exact hopened.mono (names_runs_subset (body ++ [.close]) _)
    have hholds := (houtline (fill name body)).holds (hlinked _) hleads
    exact (Outline.holds_iff hholds _).1 (Outline.flattens_fill hne hname hbody hsigns hinside)
  · have hroot := ((houtline (fill name body)).rootHolds (hlinked _) _).2 rfl
    have hagain := houtline (fill name body ++ fill name body)
    rw [List.foldl_append, ← List.append_assoc] at hagain
    refine (hagain.rootHolds (hlinked _) _).1 ?_
    exact Outline.rootHolds_fill_fill hne hname hbody hsigns (length_root_le htracks hwell) hinside
      hroot

/-- A block with a nested one, both of which hold something. -/
def filledBefore : List Op :=
  [.append "<", .openBlock "n", .append "old", .openBlock "c", .append "older", .close, .close,
    .append ">"]

/-- Opens the nested block twice, and another one of its name in it. -/
def openingTwice : List Op :=
  [.append "1", .openBlock "c", .trim, .openBlock "c", .append "2", .close, .close, .trim,
    .openBlock "c", .append "3", .close]

theorem refill_after_filledBefore :
    (after filledBefore).current.isSome ∧ (splitSign "n").1 = false ∧ Balanced openingTwice ∧
    (∀ inner, .openBlock inner ∈ openingTwice → (splitSign inner).1 = false) ∧
    (after filledBefore).renderRoot = "<oldolder>" ∧
    (after (filledBefore ++ fill "n" openingTwice)).render ((after filledBefore).openBlock "n").1 =
      "13" ∧
    (after (filledBefore ++ fill "n" openingTwice ++ fill "n" openingTwice)).renderRoot =
      "<13>" := by
  have hopen : (after filledBefore).current.isSome := by decide
  have hname : (splitSign "n").1 = false := by decide
  have hbody : Balanced openingTwice := by decide
  have hsigns : ∀ inner, .openBlock inner ∈ openingTwice → (splitSign inner).1 = false := by
    intro inner hmem
    have hinner : inner = "c" := by simpa [openingTwice] using hmem
    rw [hinner]
    decide
  obtain ⟨hfresh, honce⟩ := refill_after filledBefore openingTwice "n" hopen hname hbody hsigns
  refine ⟨hopen, hname, hbody, hsigns, by decide, ?_, ?_⟩
  · rw [hfresh]
    decide
  · rw [honce]
    decide

end Tree

end Stencil.Block
