import Mathlib.Data.List.DropRight
import Mathlib.Data.List.Forall2
import Mathlib.Data.Sum.Basic
import Mathlib.Logic.Function.Basic
import Stencil.Proofs.Block.Linked

/-!
# Block trees without numbers

An `Outline` is a block tree as a template's author sees it: no numbers and no arena, only what has
been written at each path of names.  `outline_after` shows that the arena and the outline agree after
every sequence of operations.

The bridge is `Leads`: by the table of names, a number has one path, and a path has at most one number.
Texts need not be cut into the same literals on both sides, since trimming an outline joins them, so
contents are compared character by character (`Alike`).
-/

namespace Stencil.Block

/-- The names of a block and of the blocks around it, its own name first. -/
abbrev Path := List String

/-- A piece of what is written at a path. -/
inductive Piece where
  /-- Text. -/
  | literal (text : String)
  /-- The block of that name. -/
  | child (name : String)
  deriving DecidableEq, Repr

namespace Piece

/-- Whether a piece is text. -/
def isLiteral : Piece → Bool
  | .literal _ => true
  | .child _ => false

/-- The text of a piece. -/
def text : Piece → List Char
  | .literal text => text.toList
  | .child _ => []

end Piece

/-- What has been written at each path. -/
structure Outline where
  /-- The path of the open block; it is empty if nothing is open. -/
  opened : Path := []
  /-- The first path that was opened at the top; it is empty before that. -/
  root : Path := []
  /-- What has been written, in order. -/
  pieces : Path → List Piece := fun _ => []

namespace Outline

/-- Whether a name asks for the block to keep its content. -/
def keeps (name : String) : Bool := name.toList.head? = some keepSign

/-- The name without the sign that asks for that; only the first sign is one. -/
def bareName (name : String) : String :=
  if keeps name then String.ofList name.toList.tail else name

/-- Changes what is written at a path. -/
def write (m : Outline) (path : Path) (f : List Piece → List Piece) : Outline :=
  { m with pieces := Function.update m.pieces path (f (m.pieces path)) }

/-- Refers to a block at the end, unless that has been done. -/
def refer (name : String) (es : List Piece) : List Piece :=
  if .child name ∈ es then es else es ++ [.child name]

/-- Refers to a block from the open one; at the top, its path becomes the root unless there is one. -/
def attach (m : Outline) (name : String) : Outline :=
  if m.opened = [] then { m with root := if m.root = [] then [name] else m.root }
  else m.write m.opened (refer name)

/-- The path of a name within the open block. -/
def pathTo (m : Outline) (name : String) : Path := bareName name :: m.opened

/-- Removes what is written under a name, unless the name asks to keep it. -/
def entered (m : Outline) (name : String) : Outline :=
  if keeps name then m else m.write (m.pathTo name) fun _ => []

/-- Opens a block within the open block. -/
def openBlock (m : Outline) (name : String) : Outline :=
  { (m.entered name).attach (bareName name) with opened := m.pathTo name }

/-- Closes the open block, unless it is at the top. -/
def close (m : Outline) : Outline :=
  match m.opened with
  | _ :: parent :: path => { m with opened := parent :: path }
  | _ => m

/-- Opens the root if nothing is open. -/
def ensureOpen (m : Outline) : Outline := if m.opened = [] then m.openBlock rootName else m

/-- Writes text into the open block. -/
def append (m : Outline) (text : String) : Outline :=
  m.ensureOpen.write m.ensureOpen.opened (· ++ [.literal text])

/-- Joins the texts at the end and removes the blanks that they end with. -/
def trimPieces (es : List Piece) : List Piece :=
  es.rdropWhile Piece.isLiteral ++
    [.literal (String.ofList (Text.trimEnd ((es.rtakeWhile Piece.isLiteral).flatMap Piece.text)))]

/-- Removes the blanks that the open block ends with. -/
def trim (m : Outline) : Outline := m.ensureOpen.write m.ensureOpen.opened trimPieces

/-- The outline after an operation. -/
def run (m : Outline) : Op → Outline
  | .openBlock name => m.openBlock name
  | .close => m.close
  | .append text => m.append text
  | .trim => m.trim

/-- The outline after some operations, the first of which finds nothing written. -/
def after (ops : List Op) : Outline := ops.foldl run {}

/-- The paths that are opened by operations on an outline, in order. -/
def answers (m : Outline) : List Op → List Path
  | [] => []
  | .openBlock name :: ops => (m.openBlock name).opened :: (m.openBlock name).answers ops
  | op :: ops => (m.run op).answers ops

/-- Pieces at a path, with each block written out, are this text. -/
inductive Flattens (m : Outline) : Path → List Piece → List Char → Prop
  | nil {path} : Flattens m path [] []
  | literal {path es rest} (text : String) :
      Flattens m path es rest → Flattens m path (.literal text :: es) (text.toList ++ rest)
  | child {path es inner rest} (name : String) :
      Flattens m (name :: path) (m.pieces (name :: path)) inner → Flattens m path es rest →
        Flattens m path (.child name :: es) (inner ++ rest)

/-- What is written at a path is this text. -/
def Holds (m : Outline) (path : Path) (text : String) : Prop :=
  m.Flattens path (m.pieces path) text.toList

/-- What is written at the root is this text. -/
def RootHolds (m : Outline) (text : String) : Prop :=
  if m.root = [] then text = "" else m.Holds m.root text

/-- Pieces are one text only. -/
theorem Flattens.unique {m : Outline} {path : Path} {es : List Piece} {a b : List Char}
    (ha : m.Flattens path es a) (hb : m.Flattens path es b) : a = b := by
  induction ha generalizing b with
  | nil =>
    cases hb
    rfl
  | literal text _ ih =>
    cases hb with
    | literal _ hb => rw [ih hb]
  | child name _ _ ihinner ih =>
    cases hb with
    | child _ hinner hb => rw [ihinner hinner, ih hb]

theorem holds_iff {m : Outline} {path : Path} {a : String} (ha : m.Holds path a) (b : String) :
    m.Holds path b ↔ a = b := by
  refine ⟨fun hb => String.toList_inj.1 (ha.unique hb), ?_⟩
  rintro rfl
  exact ha

/-- Signs are split off alike. -/
theorem splitSign_eq (name : String) : Tree.splitSign name = (keeps name, bareName name) := by
  rw [Tree.splitSign, keeps, bareName, keeps]
  cases name.toList with
  | nil => rfl
  | cons c cs =>
    by_cases hc : c = keepSign
    · simp [hc]
    · simp [hc]

end Outline

/-! ### Paths of numbers -/

/-- The numbers of names within blocks, and at the top. -/
abbrev Names := List ((Option Id × String) × Id)

/-- A table of names leads to a number along a path; no number stands for the top. -/
inductive Leads (names : Names) : Option Nat → Path → Prop
  | top : Leads names none []
  | name {parent : Option Nat} {path : Path} {name : String} {id : Nat} :
      Leads names parent path → ((parent, name), id) ∈ names → Leads names (some id) (name :: path)

namespace Leads

variable {names names' : Names} {q q' : Option Nat} {path path' : Path} {t : Tree}

theorem mono (hsub : names ⊆ names') (h : Leads names q path) : Leads names' q path := by
  induction h with
  | top => exact .top
  | name _ hmem ih => exact ih.name (hsub hmem)

theorem eq_nil_iff (h : Leads names q path) : path = [] ↔ q = none := by
  cases h with
  | top => exact iff_of_true rfl rfl
  | name _ _ => exact iff_of_false (List.cons_ne_nil _ _) (Option.some_ne_none _)

/-- A number has one path, because it has one name. -/
theorem path_unique (hlinked : Tree.Linked t) (h : Leads t.names q path)
    (h' : Leads t.names q path') : path = path' := by
  induction h generalizing path' with
  | top =>
    cases h' with
    | top => rfl
  | name _ hmem ih =>
    cases h' with
    | name h' hmem' =>
      have heq := (hlinked.name_unique (hlinked.id_lt hmem)).unique hmem hmem'
      obtain ⟨rfl, rfl⟩ := Prod.mk.inj heq
      rw [ih h']

/-- A path has one number, because a name within a block is given once. -/
theorem id_unique (hlinked : Tree.Linked t) (h : Leads t.names q path)
    (h' : Leads t.names q' path) : q = q' := by
  induction h generalizing q' with
  | top =>
    cases h' with
    | top => rfl
  | name _ hmem ih =>
    cases h' with
    | name h' hmem' =>
      rw [← ih h'] at hmem'
      have heq := List.inj_on_of_nodup_map hlinked.names_nodup hmem hmem' rfl
      exact congrArg some (congrArg Prod.snd heq)

/-- Every block has a path: its parent, which is older, has one. -/
theorem exists_path (hlinked : Tree.Linked t) {id : Nat} (hid : id < t.blocks.size) :
    ∃ path, Leads t.names (some id) path := by
  induction id using Nat.strongRecOn with
  | ind id ih =>
    obtain ⟨⟨parent, name⟩, hmem, -⟩ := hlinked.name_unique hid
    cases parent with
    | none => exact ⟨_, Leads.top.name hmem⟩
    | some p =>
      have hlt := hlinked.parent_lt (hlinked.parent_of_mem hmem)
      obtain ⟨path, hpath⟩ := ih p hlt (Nat.lt_trans hlt hid)
      exact ⟨_, hpath.name hmem⟩

theorem lt_size (hlinked : Tree.Linked t) {id : Nat} (h : Leads t.names (some id) path) :
    id < t.blocks.size := by
  cases h with
  | name _ hmem => exact hlinked.id_lt hmem

end Leads

/-! ### Equal contents -/

/-- An entry character by character. -/
def Entry.marks : Entry → List (Char ⊕ Nat)
  | .literal text => text.toList.map .inl
  | .block id => [.inr id]

/-- A piece character by character. -/
def Piece.marks : Piece → List (Char ⊕ String)
  | .literal text => text.toList.map .inl
  | .child name => [.inr name]

/-- A character is itself, and a number in the content of a block is a name within that block. -/
def Same (names : Names) (p : Nat) : Char ⊕ Nat → Char ⊕ String → Prop :=
  Sum.LiftRel (· = ·) fun c name => ((some p, name), c) ∈ names

/-- A content, of which the latest entry is the first, is these pieces. -/
def Alike (names : Names) (p : Nat) (content : List Entry) (es : List Piece) : Prop :=
  List.Forall₂ (Same names p) (content.reverse.flatMap Entry.marks) (es.flatMap Piece.marks)

namespace Alike

variable {names names' : Names} {p : Nat} {content : List Entry} {es : List Piece} {t : Tree}

theorem mono (hsub : names ⊆ names') (h : Alike names p content es) :
    Alike names' p content es :=
  h.imp fun _ _ hsame => hsame.mono (fun _ _ heq => heq) fun _ _ hmem => hsub hmem

theorem nil : Alike names p [] [] := List.Forall₂.nil

theorem marks_literal (names : Names) (p : Nat) (cs : List Char) :
    List.Forall₂ (Same names p) (cs.map .inl) (cs.map .inl) := by
  induction cs with
  | nil => exact .nil
  | cons c cs ih => exact .cons (.inl rfl) ih

theorem literal (h : Alike names p content es) (text : String) :
    Alike names p (.literal text :: content) (es ++ [.literal text]) := by
  rw [Alike, List.reverse_cons, List.flatMap_append, List.flatMap_append]
  refine List.rel_append h ?_
  rw [List.flatMap_singleton, List.flatMap_singleton]
  exact marks_literal names p text.toList

theorem mem_marks_entry {c : Nat} : .inr c ∈ content.reverse.flatMap Entry.marks ↔
    .block c ∈ content := by
  rw [List.mem_flatMap]
  constructor
  · rintro ⟨e, he, hc⟩
    cases e with
    | literal text => simp [Entry.marks] at hc
    | block id =>
      cases List.mem_singleton.1 hc
      exact List.mem_reverse.1 he
  · intro hc
    exact ⟨_, List.mem_reverse.2 hc, List.mem_singleton_self _⟩

theorem mem_marks_piece {name : String} : .inr name ∈ es.flatMap Piece.marks ↔
    .child name ∈ es := by
  rw [List.mem_flatMap]
  constructor
  · rintro ⟨e, he, hc⟩
    cases e with
    | literal text => simp [Piece.marks] at hc
    | child name =>
      cases List.mem_singleton.1 hc
      exact he
  · intro hc
    exact ⟨_, hc, List.mem_singleton_self _⟩

/-- A block is referred to by its number on one side where it is by its name on the other. -/
theorem mem_iff (hlinked : Tree.Linked t) {c : Nat} {name : String}
    (hmem : ((some p, name), c) ∈ t.names) (h : Alike t.names p content es) :
    .block c ∈ content ↔ .child name ∈ es := by
  rw [← mem_marks_entry, ← mem_marks_piece]
  have hsame : Same t.names p (.inr c) (.inr name) := .inr hmem
  refine List.rel_mem ⟨?_, ?_⟩ hsame h
  · rintro a b c (⟨rfl⟩ | ⟨hc⟩) (⟨rfl⟩ | ⟨hc'⟩)
    · rfl
    · have heq := List.inj_on_of_nodup_map hlinked.names_nodup hc hc' rfl
      exact congrArg Sum.inr (congrArg Prod.snd heq)
  · rintro a b c (⟨rfl⟩ | ⟨hc⟩) (⟨rfl⟩ | ⟨hc'⟩)
    · rfl
    · have heq := (hlinked.name_unique (hlinked.id_lt hc)).unique hc hc'
      exact congrArg Sum.inr (congrArg Prod.snd heq)

/-- Referring to a block, unless that has been done. -/
theorem refer (hlinked : Tree.Linked t) {c : Nat} {name : String}
    (hmem : ((some p, name), c) ∈ t.names) (h : Alike t.names p content es) :
    Alike t.names p (if content.contains (.block c) then content else .block c :: content)
      (Outline.refer name es) := by
  rw [Outline.refer]
  simp only [List.contains_iff_mem, h.mem_iff hlinked hmem]
  split
  · exact h
  · rw [Alike, List.reverse_cons, List.flatMap_append, List.flatMap_append]
    exact List.rel_append h (.cons (.inr hmem) .nil)

/-! ### Trimming -/

/-- Whether a mark is a blank character. -/
def isBlankMark {α : Type} : Char ⊕ α → Bool := Sum.elim Text.isBlank fun _ => false

theorem isBlankMark_eq {p : Nat} {names : Names} {a : Char ⊕ Nat} {b : Char ⊕ String}
    (h : Same names p a b) : isBlankMark a = isBlankMark b := by
  cases h with
  | inl heq => exact congrArg Text.isBlank heq
  | inr _ => rfl

theorem trimEnd_eq (cs : List Char) : Text.trimEnd cs = cs.rdropWhile Text.isBlank := rfl

/-- The blanks after a text are gone, and if the text was blank, so are those before it. -/
theorem rdropWhile_marks {α : Type} (before : List (Char ⊕ α)) (cs : List Char) :
    (before ++ cs.map Sum.inl).rdropWhile isBlankMark =
      if Text.trimEnd cs = [] then before.rdropWhile isBlankMark
      else before ++ (Text.trimEnd cs).map Sum.inl := by
  induction cs using List.reverseRec with
  | nil => simp [trimEnd_eq]
  | append_singleton cs c ih =>
    rw [trimEnd_eq] at ih ⊢
    rw [List.map_append, ← List.append_assoc, List.map_singleton, List.rdropWhile_concat,
      List.rdropWhile_concat, ih]
    by_cases hc : Text.isBlank c
    · rw [if_pos (show isBlankMark (.inl c : Char ⊕ α) from hc), if_pos hc]
    · rw [if_neg (show ¬ isBlankMark (.inl c : Char ⊕ α) from hc), if_neg hc, if_neg (by simp)]
      simp

/-- Trimming a content removes the blank characters at its end. -/
theorem marks_trimContent (content : List Entry) :
    (Tree.trimContent content).reverse.flatMap Entry.marks =
      (content.reverse.flatMap Entry.marks).rdropWhile isBlankMark := by
  induction content with
  | nil => rfl
  | cons e rest ih =>
    rw [List.reverse_cons, List.flatMap_append, List.flatMap_singleton]
    cases e with
    | block id =>
      have htrim : Tree.trimContent (.block id :: rest) = .block id :: rest := rfl
      rw [htrim, List.reverse_cons, List.flatMap_append, List.flatMap_singleton]
      exact (List.rdropWhile_concat_neg _ _ _ Bool.false_ne_true).symm
    | literal text =>
      rw [Entry.marks, rdropWhile_marks, Tree.trimContent]
      split
      next hblank =>
        rw [if_pos hblank, List.reverse_cons, List.flatMap_append, ih]
        exact List.append_nil _
      next hkept =>
        rw [if_neg (fun hblank => hkept hblank), List.reverse_cons, List.flatMap_append,
          List.flatMap_singleton, Entry.marks, String.toList_ofList]

theorem marks_literals {es : List Piece} (h : ∀ e ∈ es, e.isLiteral) :
    es.flatMap Piece.marks = (es.flatMap Piece.text).map Sum.inl := by
  induction es with
  | nil => rfl
  | cons e es ih =>
    rw [List.flatMap_cons, List.flatMap_cons, List.map_append,
      ih fun e he => h e (List.mem_cons_of_mem _ he)]
    cases e with
    | literal text => rfl
    | child name => exact absurd (h _ (List.mem_cons_self ..)) Bool.false_ne_true

/-- What does not end in a text does not end in a blank. -/
theorem rdropWhile_marks_self (es : List Piece) :
    ((es.rdropWhile Piece.isLiteral).flatMap Piece.marks).rdropWhile isBlankMark =
      (es.rdropWhile Piece.isLiteral).flatMap Piece.marks := by
  induction es using List.reverseRec with
  | nil => rfl
  | append_singleton es e ih =>
    rw [List.rdropWhile_concat]
    cases e with
    | literal text => exact ih
    | child name =>
      rw [if_neg (show ¬ (Piece.child name).isLiteral from Bool.false_ne_true),
        List.flatMap_append, List.flatMap_singleton]
      exact List.rdropWhile_concat_neg _ _ _ Bool.false_ne_true

/-- Trimming pieces removes the blank characters at their end. -/
theorem marks_trimPieces (es : List Piece) :
    (Outline.trimPieces es).flatMap Piece.marks =
      (es.flatMap Piece.marks).rdropWhile isBlankMark := by
  have hsplit : es.flatMap Piece.marks =
      (es.rdropWhile Piece.isLiteral).flatMap Piece.marks ++
        ((es.rtakeWhile Piece.isLiteral).flatMap Piece.text).map Sum.inl := by
    rw [← marks_literals fun e he => List.mem_rtakeWhile_imp he, ← List.flatMap_append,
      List.rdropWhile_append_rtakeWhile]
  rw [hsplit, rdropWhile_marks, rdropWhile_marks_self, Outline.trimPieces, List.flatMap_append,
    List.flatMap_singleton, Piece.marks, String.toList_ofList]
  split
  next hblank => rw [hblank, List.map_nil, List.append_nil]
  next => rfl

/-- Alike lists stay alike without what they end with, if that is told alike. -/
theorem forall₂_rdropWhile {α β : Type} {R : α → β → Prop} {f : α → Bool} {g : β → Bool}
    (hR : ∀ a b, R a b → f a = g b) {as : List α} {bs : List β} (h : List.Forall₂ R as bs) :
    List.Forall₂ R (as.rdropWhile f) (bs.rdropWhile g) := by
  rw [List.rdropWhile, List.rdropWhile, List.forall₂_reverse_iff]
  have hrev := List.forall₂_reverse_iff.2 h
  generalize as.reverse = as at hrev
  generalize bs.reverse = bs at hrev
  induction hrev with
  | nil => exact .nil
  | cons hab htail ih =>
    rw [List.dropWhile_cons, List.dropWhile_cons, hR _ _ hab]
    split
    · exact ih
    · exact .cons hab htail

theorem trim (h : Alike names p content es) :
    Alike names p (Tree.trimContent content) (Outline.trimPieces es) := by
  rw [Alike, marks_trimContent, marks_trimPieces]
  exact forall₂_rdropWhile (R := Same names p) (fun _ _ hsame => isBlankMark_eq hsame) h

end Alike

/-! ### The outline of a tree -/

section Writes

variable {t : Tree} {pieces : Path → List Piece} {path : Path} {parent : Option Nat} {id : Nat}

/-- What is written at the paths is what the blocks hold. -/
structure Writes (t : Tree) (pieces : Path → List Piece) : Prop where
  /-- A block holds what is written at its path. -/
  alike : ∀ {id path}, Leads t.names (some id) path → Alike t.names id (t.content id) (pieces path)
  /-- Nothing is written where there is no block. -/
  exists_leads : ∀ {path}, pieces path ≠ [] → ∃ id, Leads t.names (some id) path

namespace Writes

/-- Entering a block that is not there yet writes nothing, since its path has not been written to. -/
theorem enter (h : Writes t pieces) (hlinked : Tree.Linked t) (hplace : Tree.IsPlace t parent)
    (hpath : Leads t.names parent path) (name : String) :
    Writes (t.enter parent name).2 pieces ∧
      Leads (t.enter parent name).2.names (some (t.enter parent name).1) (name :: path) := by
  obtain ⟨hlinked', hmem⟩ := hlinked.enter hplace name
  have hsub : t.names ⊆ (t.enter parent name).2.names := Tree.names_enter_subset
  have hleads := (hpath.mono hsub).name hmem
  refine ⟨⟨fun {id path'} hid => ?_, fun hne => ?_⟩, hleads⟩
  · rw [Tree.content_enter]
    by_cases hlt : id < t.blocks.size
    · obtain ⟨path, hold⟩ := Leads.exists_path hlinked hlt
      rw [hid.path_unique hlinked' (hold.mono hsub)]
      exact (h.alike hold).mono hsub
    · have hnil : pieces path' = [] := by
        by_contra hne
        obtain ⟨id', hold⟩ := h.exists_leads hne
        have heq := Option.some.inj (hid.id_unique hlinked' (hold.mono hsub))
        exact hlt (heq ▸ hold.lt_size hlinked)
      rw [hnil, Tree.content_of_size_le (Nat.not_lt.1 hlt)]
      exact .nil
  · obtain ⟨id, hid⟩ := h.exists_leads hne
    exact ⟨id, hid.mono hsub⟩

/-- Changing a block and what is written at its path alike. -/
theorem write (h : Writes t pieces) (hlinked : Tree.Linked t) (hpath : Leads t.names (some id) path)
    {f : List Entry → List Entry} {g : List Piece → List Piece}
    (hfg : Alike t.names id (t.content id) (pieces path) →
      Alike t.names id (f (t.content id)) (g (pieces path))) :
    Writes (t.modifyContent id f) (Function.update pieces path (g (pieces path))) where
  alike := by
    intro j path' hj
    rw [Tree.names_modifyContent] at hj ⊢
    rw [Tree.content_modifyContent]
    by_cases hid : id = j
    · subst hid
      have heq := hj.path_unique hlinked hpath
      subst heq
      rw [if_pos ⟨rfl, hj.lt_size hlinked⟩, Function.update_self]
      exact hfg (h.alike hj)
    · have hne : path' ≠ path := by
        rintro rfl
        exact hid (Option.some.inj (hpath.id_unique hlinked hj))
      rw [if_neg fun hcond => hid hcond.1, Function.update_of_ne hne]
      exact h.alike hj
  exists_leads := by
    intro path' hne
    by_cases heq : path' = path
    · exact ⟨id, heq ▸ hpath⟩
    · rw [Function.update_of_ne heq] at hne
      exact h.exists_leads hne

end Writes

end Writes

/-- An outline is that of a tree. -/
structure Tracks (t : Tree) (m : Outline) : Prop extends Writes t m.pieces where
  /-- The same block is open. -/
  opened : Leads t.names t.current m.opened
  /-- The same block is the root. -/
  root : Leads t.names t.root m.root

namespace Tracks

variable {t : Tree} {m : Outline}

theorem empty : Tracks .empty {} where
  alike hid := by
    cases hid with
    | name _ hmem => cases hmem
  exists_leads hne := absurd rfl hne
  opened := .top
  root := .top

/-- Writing into the open block. -/
theorem write (h : Tracks t m) (hwell : Tree.Wellformed t) {id : Nat} (hid : t.current = some id)
    {f : List Entry → List Entry} {g : List Piece → List Piece}
    (hfg : ∀ {content es}, Alike t.names id content es → Alike t.names id (f content) (g es)) :
    Tracks (t.modifyContent id f) (m.write m.opened g) where
  toWrites := h.toWrites.write hwell.toLinked (hid ▸ h.opened) hfg
  opened := h.opened
  root := h.root

/-- Entering a name. -/
theorem entered (h : Tracks t m) (hwell : Tree.Wellformed t) (name : String) :
    Tracks (t.entered name) (m.entered name) ∧
      ((t.current, Outline.bareName name), (t.enter t.current (Outline.bareName name)).1) ∈
        (t.entered name).names := by
  obtain ⟨hlinked, hmem⟩ := hwell.toLinked.enter hwell.isPlace (Outline.bareName name)
  obtain ⟨hwrites, hleads⟩ :=
    h.toWrites.enter hwell.toLinked hwell.isPlace h.opened (Outline.bareName name)
  have hsub : t.names ⊆ (t.enter t.current (Outline.bareName name)).2.names :=
    Tree.names_enter_subset
  have hcurrent := Tree.current_enter t t.current (Outline.bareName name)
  have hroot := Tree.root_enter (t := t) t.current (Outline.bareName name)
  rw [Tree.entered, Outline.entered, Outline.splitSign_eq]
  dsimp only
  split
  · refine ⟨{ hwrites with opened := ?_, root := ?_ }, hmem⟩
    · rw [hcurrent]
      exact h.opened.mono hsub
    · rw [hroot]
      exact h.root.mono hsub
  · refine ⟨{ hwrites.write hlinked hleads (f := fun _ => []) (g := fun _ => []) fun _ => .nil with
      opened := ?_, root := ?_ }, hmem⟩
    · rw [Tree.current_modifyContent, hcurrent]
      exact h.opened.mono hsub
    · rw [Tree.root_modifyContent, hroot]
      exact h.root.mono hsub

/-- Referring to a block from the open one. -/
theorem attach (h : Tracks t m) (hlinked : Tree.Linked t) {name : String} {id : Nat}
    (hmem : ((t.current, name), id) ∈ t.names) :
    Tracks { t.attach t.current id with current := some id }
      { m.attach name with opened := name :: m.opened } := by
  have hleads := h.opened.name hmem
  rw [Outline.attach]
  cases hc : t.current with
  | none =>
    rw [hc] at hmem
    have hopened := h.opened.eq_nil_iff.2 hc
    rw [if_pos hopened]
    refine { h.toWrites with opened := hleads, root := ?_ }
    show Leads t.names (t.root.or (some id)) (if m.root = [] then [name] else m.root)
    have hroot := h.root
    cases hr : t.root with
    | none =>
      rw [if_pos (hroot.eq_nil_iff.2 hr)]
      exact Leads.top.name hmem
    | some r =>
      rw [hr] at hroot
      rw [if_neg fun hnil => Option.some_ne_none r (hroot.eq_nil_iff.1 hnil)]
      exact hroot
  | some p =>
    rw [hc] at hmem
    have hopened : m.opened ≠ [] := fun hnil =>
      Option.some_ne_none p (hc ▸ h.opened.eq_nil_iff.1 hnil)
    rw [if_neg hopened]
    have hwrites := h.toWrites.write hlinked (hc ▸ h.opened)
      (f := fun content =>
        if content.contains (.block id) then content else .block id :: content)
      (g := Outline.refer name) fun halike => halike.refer hlinked hmem
    exact { hwrites with opened := hleads, root := h.root }

/-- Opening a block. -/
theorem openBlock (h : Tracks t m) (hwell : Tree.Wellformed t) (name : String) :
    Tracks (t.openBlock name).2 (m.openBlock name) := by
  obtain ⟨htracks, hmem⟩ := h.entered hwell name
  rw [← Tree.current_entered t name] at hmem
  have hattach := htracks.attach (hwell.entered name).1 hmem
  have hopened : (m.entered name).opened = m.opened := by
    rw [Outline.entered]
    split <;> rfl
  rw [Tree.openBlock_eq, Outline.openBlock, Outline.splitSign_eq]
  rw [Tree.current_entered, hopened] at hattach
  exact hattach

theorem ensureOpen (h : Tracks t m) (hwell : Tree.Wellformed t) :
    Tracks t.ensureOpen.2 m.ensureOpen := by
  have hopened := h.opened
  rw [Tree.ensureOpen, Outline.ensureOpen]
  split
  next id hid =>
    rw [hid] at hopened
    rw [if_neg fun hnil => Option.some_ne_none id (hopened.eq_nil_iff.1 hnil)]
    exact h
  next hnone =>
    rw [hnone] at hopened
    rw [if_pos (hopened.eq_nil_iff.2 rfl)]
    exact h.openBlock hwell rootName

/-- Closing a block. -/
theorem close (h : Tracks t m) (hwell : Tree.Wellformed t) : Tracks t.close m.close := by
  have hopened := h.opened
  rw [Tree.close_eq, Outline.close]
  generalize hc : t.current = current at hopened
  generalize ho : m.opened = opened at hopened
  -- The path ends where the block has no parent.
  cases hopened with
  | top => exact h
  | name hpath hmem =>
    rw [Option.bind_some, hwell.parent_of_mem hmem]
    cases hpath with
    | top => exact h
    | name hpath hmem' => exact { h with opened := hpath.name hmem' }

/-- Every operation. -/
theorem run (h : Tracks t m) (hwell : Tree.Wellformed t) (op : Op) :
    Tracks (op.run t) (m.run op) := by
  cases op with
  | openBlock name => exact h.openBlock hwell name
  | close => exact h.close hwell
  | append text =>
    exact (h.ensureOpen hwell).write hwell.ensureOpen (Tree.current_ensureOpen t)
      fun halike => halike.literal text
  | trim =>
    exact (h.ensureOpen hwell).write hwell.ensureOpen (Tree.current_ensureOpen t)
      fun halike => halike.trim

theorem after (ops : List Op) : Tracks (Tree.after ops) (Outline.after ops) := by
  induction ops using List.reverseRec with
  | nil => exact .empty
  | append_singleton ops op ih =>
    rw [Tree.after_concat, Outline.after, List.foldl_concat]
    exact ih.run (Tree.wellformed_after ops) op

/-! ### Texts -/

/-- The marks of a text stand for that text only. -/
theorem eq_of_same_text {names : Names} {p : Nat} {marks : List (Char ⊕ Nat)} {cs : List Char}
    (h : List.Forall₂ (Same names p) marks (cs.map Sum.inl)) : marks = cs.map Sum.inl := by
  induction cs generalizing marks with
  | nil => exact List.forall₂_nil_right_iff.1 h
  | cons c cs ih =>
    obtain ⟨a, rest, hsame, hrest, rfl⟩ := List.forall₂_cons_right_iff.1 h
    cases hsame with
    | inl heq => rw [heq, ih hrest, List.map_cons]

/-- Pieces are the text of the marks that they are alike to, if that is so for each block. -/
theorem flattens_marks (id : Nat) {path : Path} {text : Nat → List Char} {es : List Piece}
    {marks : List (Char ⊕ Nat)}
    (hchild : ∀ c name, ((some id, name), c) ∈ t.names → .inr c ∈ marks →
      m.Flattens (name :: path) (m.pieces (name :: path)) (text c))
    (halike : List.Forall₂ (Same t.names id) marks (es.flatMap Piece.marks)) :
    m.Flattens path es (marks.flatMap (Sum.elim (fun c => [c]) text)) := by
  induction es generalizing marks with
  | nil =>
    cases halike
    exact .nil
  | cons e es ih =>
    rw [List.flatMap_cons] at halike
    have hfirst := List.forall₂_take_append _ _ _ halike
    have hrest := List.forall₂_drop_append _ _ _ halike
    rw [← List.take_append_drop e.marks.length marks] at hchild ⊢
    rw [List.flatMap_append]
    have ih := ih (fun c name hmem hc => hchild c name hmem (List.mem_append_right _ hc)) hrest
    cases e with
    | literal s =>
      rw [eq_of_same_text hfirst]
      have htext : (s.toList.map Sum.inl).flatMap (Sum.elim (fun c => [c]) text) = s.toList := by
        rw [List.flatMap_map]
        exact List.flatMap_singleton' _
      rw [htext]
      exact .literal s ih
    | child name =>
      obtain ⟨a, rest, hsame, hnil, hmarks⟩ := List.forall₂_cons_right_iff.1 hfirst
      cases List.forall₂_nil_right_iff.1 hnil
      rw [hmarks] at hchild ⊢
      cases hsame with
      | inr hmem =>
        rw [List.flatMap_singleton]
        exact .child name (hchild _ name hmem (List.mem_append_left _ (List.mem_singleton_self _)))
          ih

/-- The text of a content, mark by mark. -/
theorem renderTo_eq (t : Tree) (depth id : Nat) :
    t.renderTo (depth + 1) id = ((t.content id).reverse.flatMap Entry.marks).flatMap
      (Sum.elim (fun c => [c]) (t.renderTo depth)) := by
  rw [Tree.renderTo, Tree.content, List.flatMap_assoc]
  cases t.blocks[id]? with
  | none => rfl
  | some b =>
    refine List.flatMap_congr fun e _ => ?_
    cases e with
    | literal text =>
      rw [Entry.marks, List.flatMap_map]
      exact (List.flatMap_singleton' _).symm
    | block c => exact (List.append_nil _).symm

/-- The text of a block is what is written at its path. -/
theorem flattens (h : Tracks t m) (hlinked : Tree.Linked t) {id : Nat} {path : Path}
    (hid : Leads t.names (some id) path) {depth : Nat} (hdepth : t.blocks.size ≤ id + depth) :
    m.Flattens path (m.pieces path) (t.renderTo depth id) := by
  induction depth generalizing id path with
  | zero =>
    have hlt := hid.lt_size hlinked
    omega
  | succ depth ih =>
    rw [renderTo_eq]
    refine flattens_marks (t := t) id (fun c name hmem _ => ?_) (h.alike hid)
    have hlt := hlinked.parent_lt (hlinked.parent_of_mem hmem)
    exact ih (hid.name hmem) (by omega)

theorem holds (h : Tracks t m) (hlinked : Tree.Linked t) {id : Nat} {path : Path}
    (hid : Leads t.names (some id) path) : m.Holds path (t.render id) := by
  rw [Outline.Holds, Tree.render, String.toList_ofList]
  exact h.flattens hlinked hid (Nat.le_add_left ..)

theorem rootHolds (h : Tracks t m) (hlinked : Tree.Linked t) (text : String) :
    m.RootHolds text ↔ t.renderRoot = text := by
  have hroot := h.root
  rw [Outline.RootHolds, Tree.renderRoot]
  split
  next hnil =>
    rw [hroot.eq_nil_iff.1 hnil]
    exact eq_comm
  next hne =>
    cases hr : t.root with
    | none => exact absurd (hroot.eq_nil_iff.2 hr) hne
    | some id =>
      rw [hr] at hroot
      exact Outline.holds_iff (h.holds hlinked hroot) text

end Tracks

/-! ### Answers -/

section Answers

variable {t : Tree} {m : Outline}

theorem names_openBlock_subset (t : Tree) (name : String) :
    t.names ⊆ (t.openBlock name).2.names := by
  rw [Tree.openBlock_eq]
  dsimp only
  rw [Tree.names_attach, Tree.names_entered]
  exact Tree.names_enter_subset

theorem names_ensureOpen_subset (t : Tree) : t.names ⊆ t.ensureOpen.2.names := by
  rw [Tree.ensureOpen]
  split
  · exact List.Subset.refl _
  · exact names_openBlock_subset t rootName

/-- No operation takes a name away. -/
theorem names_run_subset (op : Op) (t : Tree) : t.names ⊆ (op.run t).names := by
  cases op with
  | openBlock name => exact names_openBlock_subset t name
  | close =>
    rw [Op.run, Tree.close]
    split
    · exact List.Subset.refl _
    · exact List.Subset.refl _
  | append text => exact names_ensureOpen_subset t
  | trim => exact names_ensureOpen_subset t

theorem names_runs_subset (ops : List Op) (t : Tree) :
    t.names ⊆ (ops.foldl (fun t op => op.run t) t).names := by
  induction ops generalizing t with
  | nil => exact List.Subset.refl _
  | cons op ops ih => exact List.Subset.trans (names_run_subset op t) (ih (op.run t))

/-- The numbers that openings answer with lead along the paths that they open. -/
theorem Tracks.answers (h : Tracks t m) (hwell : Tree.Wellformed t) (ops : List Op) :
    List.Forall₂ (fun id path => Leads (ops.foldl (fun t op => op.run t) t).names (some id) path)
      (t.answers ops) (m.answers ops) := by
  induction ops generalizing t m with
  | nil => exact .nil
  | cons op ops ih =>
    have htail := ih (h.run hwell op) (hwell.run op)
    cases op with
    | openBlock name =>
      have hopened := (h.openBlock hwell name).opened
      exact .cons (hopened.mono (names_runs_subset ops _)) htail
    | close => exact htail
    | append text => exact htail
    | trim => exact htail

end Answers

/-- **Refinement.**  After every sequence of operations the root and each block that was opened have the
text that is written at their paths, and two openings answer with the same number exactly if they
open the same path. -/
theorem outline_after (ops : List Op) :
    (∀ text, (Outline.after ops).RootHolds text ↔ (Tree.after ops).renderRoot = text) ∧
      List.Forall₂ (fun id path =>
          ∀ text, (Outline.after ops).Holds path text ↔ (Tree.after ops).render id = text)
        (Tree.empty.answers ops) (Outline.answers {} ops) ∧
      ∀ a ∈ (Tree.empty.answers ops).zip (Outline.answers {} ops),
        ∀ b ∈ (Tree.empty.answers ops).zip (Outline.answers {} ops), a.1 = b.1 ↔ a.2 = b.2 := by
  have hlinked := (Tree.wellformed_after ops).toLinked
  have htracks := Tracks.after ops
  have hleads := Tracks.empty.answers .empty ops
  refine ⟨htracks.rootHolds hlinked, hleads.imp fun id path hid => ?_, fun a ha b hb => ?_⟩
  · exact Outline.holds_iff (htracks.holds hlinked hid)
  · have hpath := List.forall₂_zip hleads ha
    have hpath' := List.forall₂_zip hleads hb
    constructor
    · intro heq
      rw [heq] at hpath
      exact hpath.path_unique hlinked hpath'
    · intro heq
      rw [heq] at hpath
      exact Option.some.inj (hpath.id_unique hlinked hpath')

/-- Opening a block again empties it, and what was written below it comes back with its name. -/
example : (Tree.after [.append "", .openBlock "a", .openBlock "b", .append "x", .close, .close,
    .openBlock "a", .append "y", .openBlock "+b"]).renderRoot = "yx" := by decide

end Stencil.Block
