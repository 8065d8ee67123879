import Stencil.Proofs.Block.Outline

/-!
# Texts in pieces

A block keeps its text in the literals in which it was written, and trimming goes through them one
by one.  Nothing that can be seen of a tree tells where a text was cut.

* `Tree.Joins` : two trees are the same, but for how the texts in their blocks are cut.
* `Tree.Joins.run` : every operation keeps this, so every sequence of operations does.
* `Tree.Joins.looksLike`, `Tree.Joins.answers` : such trees have the same texts, and openings answer
  alike.
* `Tree.append_joined` : so it is all one whether two texts are written one after the other or as one
  text, and writing the empty text into an open block is the same as writing nothing.
-/

namespace Stencil.Block.Tree

variable {t t' : Tree}

/-! ### Views -/

/-- What a block holds, character by character, with the blocks that it refers to. -/
def marks (t : Tree) (id : Id) : List (Char ⊕ Nat) := (t.content id).reverse.flatMap Entry.marks

/-- Two trees have as many blocks, with the same texts, and roots with the same text. -/
structure LooksLike (t t' : Tree) : Prop where
  /-- There are as many blocks, … -/
  size : t.blocks.size = t'.blocks.size
  /-- … which have the same texts, … -/
  block : ∀ id, t.render id = t'.render id
  /-- … as have the roots. -/
  root : t.renderRoot = t'.renderRoot

/-- Two trees that differ in how the texts in their blocks are cut, and in nothing else. -/
structure Joins (t t' : Tree) : Prop where
  /-- The blocks have the same parents, … -/
  parent : ∀ id, t.parent? id = t'.parent? id
  /-- … the same names, … -/
  names : t.names = t'.names
  /-- … and hold the same, character by character. -/
  marks : ∀ id, t.marks id = t'.marks id
  /-- The same block is the root, … -/
  root : t.root = t'.root
  /-- … and the same block is open. -/
  current : t.current = t'.current

theorem marks_modifyContent (t : Tree) (id : Id) (f : List Entry → List Entry) (j : Id) :
    (t.modifyContent id f).marks j = if id = j ∧ j < t.blocks.size then
      (f (t.content j)).reverse.flatMap Entry.marks else t.marks j := by
  unfold marks
  rw [content_modifyContent]
  split
  · rfl
  · rfl

theorem marks_enter (t : Tree) (parent : Option Id) (name : String) (j : Id) :
    (t.enter parent name).2.marks j = t.marks j := by
  unfold marks
  rw [content_enter]

theorem flatMap_marks_cons (e : Entry) (es : List Entry) :
    (e :: es).reverse.flatMap Entry.marks = es.reverse.flatMap Entry.marks ++ e.marks := by
  rw [List.reverse_cons, List.flatMap_append, List.flatMap_singleton]

namespace Joins

theorem size (h : Joins t t') : t.blocks.size = t'.blocks.size := by
  have hlt (id : Nat) : id < t.blocks.size ↔ id < t'.blocks.size := by
    rw [← parent?_isSome, ← parent?_isSome, h.parent]
  have hle := (hlt t'.blocks.size).not
  have hge := (hlt t.blocks.size).not
  omega

/-! ### Operations -/

/-- Changing a block in two ways that come to the same. -/
theorem modifyContent (h : Joins t t') (id : Id) {f g : List Entry → List Entry}
    (hfg : t.marks id = t'.marks id →
      (f (t.content id)).reverse.flatMap Entry.marks =
        (g (t'.content id)).reverse.flatMap Entry.marks) :
    Joins (t.modifyContent id f) (t'.modifyContent id g) where
  parent := by
    intro j
    rw [parent?_modifyContent, parent?_modifyContent]
    exact h.parent j
  names := h.names
  marks := by
    intro j
    rw [marks_modifyContent, marks_modifyContent, h.size]
    by_cases hj : id = j ∧ j < t'.blocks.size
    · rw [if_pos hj, if_pos hj, ← hj.1]
      exact hfg (h.marks id)
    · rw [if_neg hj, if_neg hj]
      exact h.marks j
  root := h.root
  current := h.current

/-- Entering a name. -/
theorem enter (h : Joins t t') (parent : Option Id) (name : String) :
    (t.enter parent name).1 = (t'.enter parent name).1 ∧
      Joins (t.enter parent name).2 (t'.enter parent name).2 := by
  have hid : t.idOf? parent name = t'.idOf? parent name := by
    unfold idOf?
    rw [h.names]
  have hmarks (j : Id) : (t.enter parent name).2.marks j = (t'.enter parent name).2.marks j := by
    rw [marks_enter, marks_enter]
    exact h.marks j
  rcases enter_cases t' parent name with ⟨id, hfound, heq'⟩ | ⟨hnone, heq'⟩
  · have heq : t.enter parent name = (id, t) := by
      unfold Tree.enter
      rw [hid, hfound]
    rw [heq, heq']
    exact ⟨rfl, h⟩
  · have heq : t.enter parent name = (t.blocks.size, { t with
        blocks := t.blocks.push ⟨parent, []⟩
        names := ((parent, name), t.blocks.size) :: t.names }) := by
      unfold Tree.enter
      rw [hid, hnone]
    rw [heq, heq'] at hmarks ⊢
    refine ⟨h.size, ?_, by rw [h.names, h.size], hmarks, h.root, h.current⟩
    -- the parents are those of the blocks before, and that of the new block
    intro j
    simp only [parent?, Array.getElem?_push, h.size]
    split
    · rfl
    · exact h.parent j

/-- Referring to a block: what is referred to can be seen character by character. -/
theorem attach (h : Joins t t') (parent : Option Id) (id : Id) :
    Joins (t.attach parent id) (t'.attach parent id) := by
  cases parent with
  | none => exact { h with root := congrArg (·.or (some id)) h.root }
  | some p =>
    unfold Tree.attach
    refine h.modifyContent p ?_
    intro hmarks
    have hmem : (t.content p).contains (.block id) = (t'.content p).contains (.block id) := by
      rw [Bool.eq_iff_iff, List.contains_iff_mem, List.contains_iff_mem, ← Alike.mem_marks_entry,
        ← Alike.mem_marks_entry]
      unfold Tree.marks at hmarks
      rw [hmarks]
    simp only [hmem]
    split
    · exact hmarks
    · rw [flatMap_marks_cons, flatMap_marks_cons]
      exact congrArg (· ++ _) hmarks

/-- Opening a block, with the number that this answers. -/
theorem openBlock (h : Joins t t') (name : String) :
    (t.openBlock name).1 = (t'.openBlock name).1 ∧
      Joins (t.openBlock name).2 (t'.openBlock name).2 := by
  obtain ⟨hid, henter⟩ := h.enter t.current (splitSign name).2
  have hentered : Joins (t.entered name) (t'.entered name) := by
    unfold Tree.entered
    rw [← h.current]
    dsimp only
    split
    · exact henter
    · rw [hid]
      exact henter.modifyContent _ fun _ => rfl
  rw [openBlock_eq, openBlock_eq, ← h.current, ← hid]
  exact ⟨rfl, { hentered.attach t.current _ with current := rfl }⟩

theorem ensureOpen (h : Joins t t') :
    t.ensureOpen.1 = t'.ensureOpen.1 ∧ Joins t.ensureOpen.2 t'.ensureOpen.2 := by
  unfold Tree.ensureOpen
  rw [← h.current]
  cases t.current with
  | none => exact h.openBlock rootName
  | some id => exact ⟨rfl, h⟩

theorem append (h : Joins t t') (text : String) : Joins (t.append text) (t'.append text) := by
  obtain ⟨hid, hopen⟩ := h.ensureOpen
  rw [append_eq, append_eq, ← hid]
  refine hopen.modifyContent _ ?_
  intro hmarks
  rw [flatMap_marks_cons, flatMap_marks_cons]
  exact congrArg (· ++ _) hmarks

/-- Trimming: the blanks that a content ends with are seen character by character. -/
theorem trim (h : Joins t t') : Joins t.trim t'.trim := by
  obtain ⟨hid, hopen⟩ := h.ensureOpen
  rw [trim_eq, trim_eq, ← hid]
  refine hopen.modifyContent _ ?_
  intro hmarks
  rw [Alike.marks_trimContent, Alike.marks_trimContent]
  exact congrArg (List.rdropWhile Alike.isBlankMark) hmarks

theorem close (h : Joins t t') : Joins t.close t'.close := by
  have hparent : (fun id : Nat => (t.parent? id).join) = fun id => (t'.parent? id).join := by
    funext id
    rw [h.parent]
  rw [close_eq, close_eq, ← h.current, ← hparent]
  cases t.current.bind fun id => (t.parent? id).join with
  | none => exact h
  | some p => exact { h with current := rfl }

/-- Every operation keeps the trees the same, but for the cuts. -/
theorem run (h : Joins t t') (op : Op) : Joins (op.run t) (op.run t') := by
  cases op with
  | openBlock name => exact (h.openBlock name).2
  | close => exact h.close
  | append text => exact h.append text
  | trim => exact h.trim

theorem runs (h : Joins t t') (ops : List Op) :
    Joins (ops.foldl (fun t op => op.run t) t) (ops.foldl (fun t op => op.run t) t') := by
  induction ops generalizing t t' with
  | nil => exact h
  | cons op ops ih => exact ih (h.run op)

/-- Openings answer with the same numbers. -/
theorem answers (h : Joins t t') (ops : List Op) : t.answers ops = t'.answers ops := by
  induction ops generalizing t t' with
  | nil => rfl
  | cons op ops ih =>
    have htail := ih (h.run op)
    cases op with
    | openBlock name => exact congrArg₂ List.cons (h.openBlock name).1 htail
    | close => exact htail
    | append text => exact htail
    | trim => exact htail

/-! ### Texts -/

theorem renderTo (h : Joins t t') (depth id : Nat) : t.renderTo depth id = t'.renderTo depth id := by
  induction depth generalizing id with
  | zero => rfl
  | succ depth ih =>
    have hmarks := h.marks id
    unfold Tree.marks at hmarks
    rw [Tracks.renderTo_eq, Tracks.renderTo_eq, hmarks, funext ih]

theorem render (h : Joins t t') (id : Nat) : t.render id = t'.render id := by
  unfold Tree.render
  rw [h.size, h.renderTo]

theorem looksLike (h : Joins t t') : LooksLike t t' where
  size := h.size
  block := h.render
  root := by
    unfold renderRoot
    rw [h.root]
    cases t'.root with
    | none => rfl
    | some id => exact h.render id

end Joins

/-! ### Writing in pieces -/

/-- The empty text in an open block. -/
theorem joins_append_empty (h : t.current.isSome) : Joins (t.append "") t := by
  obtain ⟨id, hid⟩ := Option.isSome_iff_exists.1 h
  rw [append_of_current hid]
  refine ⟨parent?_modifyContent t id _, rfl, ?_, rfl, rfl⟩
  intro j
  rw [marks_modifyContent]
  split
  · rw [flatMap_marks_cons]
    exact List.append_nil _
  · rfl

/-- Two texts, one after the other. -/
theorem joins_append_append (t : Tree) (a b : String) :
    Joins ((t.append a).append b) (t.append (a ++ b)) := by
  have hopen : (t.append a).current = some t.ensureOpen.1 := current_ensureOpen t
  rw [append_of_current hopen, append_eq, append_eq]
  generalize t.ensureOpen.1 = id
  generalize t.ensureOpen.2 = t
  refine ⟨?_, rfl, ?_, rfl, rfl⟩
  · intro j
    rw [parent?_modifyContent, parent?_modifyContent, parent?_modifyContent]
  · intro j
    rw [marks_modifyContent, marks_modifyContent, marks_modifyContent, content_modifyContent,
      size_modifyContent]
    split
    · -- once written as two literals, once as one
      simp only [flatMap_marks_cons, Entry.marks, String.toList_append, List.map_append,
        List.append_assoc]
    · rfl

/-- **Texts in pieces.**  After every sequence of operations it is all one whether two texts are
written one after the other or as one text: whatever is done later, the root and all blocks have the
same texts then, and openings answer with the same numbers.  If a block is open, writing the empty
text is as good as writing nothing. -/
theorem append_joined (ops later : List Op) (a b : String) :
    (LooksLike (after (ops ++ [.append a, .append b] ++ later))
        (after (ops ++ [.append (a ++ b)] ++ later)) ∧
      (after (ops ++ [.append a, .append b])).answers later =
        (after (ops ++ [.append (a ++ b)])).answers later) ∧
    ((after ops).current.isSome →
      LooksLike (after (ops ++ [.append ""] ++ later)) (after (ops ++ later)) ∧
      (after (ops ++ [.append ""])).answers later = (after ops).answers later) := by
  constructor
  · have hjoins : Joins (after (ops ++ [.append a, .append b])) (after (ops ++ [.append (a ++ b)])) := by
      rw [after_append, after_append]
      exact joins_append_append (after ops) a b
    rw [after_append _ later, after_append _ later]
    exact ⟨(hjoins.runs later).looksLike, hjoins.answers later⟩
  · intro hopen
    have hjoins : Joins (after (ops ++ [.append ""])) (after ops) := by
      rw [after_append]
      exact joins_append_empty hopen
    rw [after_append _ later, after_append _ later]
    exact ⟨(hjoins.runs later).looksLike, hjoins.answers later⟩

/-- A block in another one. -/
def nested : List Op := [.append "a", .openBlock "b"]

/-- Trimming, writing and opening a block in that one. -/
def goingOn : List Op := [.trim, .append "y", .openBlock "c"]

/-- A text that is cut before the blanks it ends with, which are trimmed away later. -/
theorem append_joined_blank :
    LooksLike (after (nested ++ [.append "x", .append " \n"] ++ goingOn))
      (after (nested ++ [.append "x \n"] ++ goingOn)) ∧
    (after (nested ++ [.append "x", .append " \n"])).answers goingOn = [2] ∧
    (after nested).current.isSome ∧
    LooksLike (after (nested ++ [.append ""] ++ goingOn)) (after (nested ++ goingOn)) := by
  obtain ⟨⟨hlooks, hanswers⟩, -⟩ := append_joined nested goingOn "x" " \n"
  have htext : "x" ++ " \n" = "x \n" := by decide
  rw [htext] at hlooks hanswers
  have hopen : (after nested).current.isSome := by decide
  refine ⟨hlooks, ?_, hopen, ?_⟩
  · rw [hanswers]
    decide
  · exact ((append_joined nested goingOn "" "").2 hopen).1

end Stencil.Block.Tree
