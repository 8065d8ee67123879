import Mathlib.Data.List.Induction
import Mathlib.Data.List.Nodup
import Stencil.Block.Tree

/-!
# Links between blocks

What the operations on a block tree keep about the links between its blocks.

* `Op`, `Tree.after` : the operations, and the tree that a sequence of them leaves.
* `Tree.Linked` : the names, parents and contents of the blocks fit together.  Each part of an operation
  keeps this (`Linked.enter`, `Linked.modifyContent`, `Linked.attach`), so every operation does, and
  so it holds after every sequence of operations (`linked_after`).
-/

namespace Stencil.Block

/-! ### Operations -/

/-- An operation on a tree. -/
inductive Op where
  /-- Opens a block; a sign before the name keeps its content. -/
  | openBlock (name : String)
  /-- Closes the open block. -/
  | close
  /-- Writes text into the open block. -/
  | append (text : String)
  /-- Removes the blanks that the open block ends with. -/
  | trim
  deriving DecidableEq, Repr

/-- The tree after an operation. -/
def Op.run : Op → Tree → Tree
  | .openBlock name, t => (t.openBlock name).2
  | .close, t => t.close
  | .append text, t => t.append text
  | .trim, t => t.trim

namespace Tree

/-- The tree after some operations, the first of which finds no block. -/
def after (ops : List Op) : Tree := ops.foldl (fun t op => op.run t) .empty

/-- The numbers that openings among some operations on a tree answer with, in order. -/
def answers (t : Tree) : List Op → List Id
  | [] => []
  | .openBlock name :: ops => (t.openBlock name).1 :: (t.openBlock name).2.answers ops
  | op :: ops => (op.run t).answers ops

@[simp]
theorem after_nil : after [] = .empty := rfl

theorem after_concat (ops : List Op) (op : Op) : after (ops ++ [op]) = op.run (after ops) := by
  rw [after, List.foldl_concat, after]

theorem after_append (ops later : List Op) :
    after (ops ++ later) = later.foldl (fun t op => op.run t) (after ops) := by
  rw [after, List.foldl_append, after]

/-! ### Views of a tree -/

/-- The parent of a block, if there is such a block. -/
def parent? (t : Tree) (id : Id) : Option (Option Id) := (t.blocks[id]?).map Node.parent

/-- What a block holds, the latest first. -/
def content (t : Tree) (id : Id) : List Entry := ((t.blocks[id]?).map Node.content).getD []

variable {t : Tree} {id : Nat}

theorem parent?_isSome : (t.parent? id).isSome ↔ id < t.blocks.size := by
  simp [parent?]

theorem lt_size_of_parent? {parent : Option Id} (h : t.parent? id = some parent) :
    id < t.blocks.size :=
  parent?_isSome.1 (by rw [h]; rfl)

theorem content_of_block {b : Node} (h : t.blocks[id]? = some b) : t.content id = b.content := by
  rw [content, h]
  rfl

theorem content_of_size_le (h : t.blocks.size ≤ id) : t.content id = [] := by
  rw [content, Array.getElem?_eq_none h]
  rfl

section modifyContent

variable (t id) (f : List Entry → List Entry)

@[simp]
theorem size_modifyContent : (t.modifyContent id f).blocks.size = t.blocks.size := by
  simp [modifyContent]

@[simp]
theorem names_modifyContent : (t.modifyContent id f).names = t.names := rfl

@[simp]
theorem root_modifyContent : (t.modifyContent id f).root = t.root := rfl

@[simp]
theorem current_modifyContent : (t.modifyContent id f).current = t.current := rfl

@[simp]
theorem parent?_modifyContent (j : Id) : (t.modifyContent id f).parent? j = t.parent? j := by
  simp only [parent?, modifyContent, Array.getElem?_modify]
  split
  · rw [Option.map_map]
    rfl
  · rfl

theorem content_modifyContent (j : Id) :
    (t.modifyContent id f).content j =
      if id = j ∧ j < t.blocks.size then f (t.content j) else t.content j := by
  simp only [content, modifyContent, Array.getElem?_modify]
  by_cases hid : id = j
  · by_cases hj : j < t.blocks.size
    · simp [hid, hj]
    · simp [hid, hj]
  · simp [hid]

end modifyContent

/-! ### Entering -/

/-- What an entering finds: the block that has the name, or a new one. -/
theorem enter_cases (t : Tree) (parent : Option Id) (name : String) :
    (∃ id, t.idOf? parent name = some id ∧ t.enter parent name = (id, t)) ∨
      t.idOf? parent name = none ∧ t.enter parent name = (t.blocks.size, { t with
        blocks := t.blocks.push ⟨parent, []⟩
        names := ((parent, name), t.blocks.size) :: t.names }) := by
  rw [enter]
  cases h : t.idOf? parent name with
  | none => exact .inr ⟨rfl, rfl⟩
  | some id => exact .inl ⟨id, rfl, rfl⟩

/-- A name that is found stands in the table. -/
theorem mem_names_of_idOf? {parent : Option Id} {name : String}
    (h : t.idOf? parent name = some id) : ((parent, name), id) ∈ t.names := by
  obtain ⟨before, after, hnames, -⟩ := List.lookup_eq_some_iff.1 h
  rw [hnames]
  exact List.mem_append_right _ (List.mem_cons_self ..)

theorem not_mem_names_of_idOf? {parent : Option Id} {name : String}
    (h : t.idOf? parent name = none) : (parent, name) ∉ t.names.map Prod.fst := by
  intro hmem
  obtain ⟨⟨key, id⟩, hmem, rfl⟩ := List.mem_map.1 hmem
  have hne := List.lookup_eq_none_iff.1 h _ hmem
  simp at hne

/-- A block that is entered holds nothing if it is new. -/
theorem content_enter (t : Tree) (parent : Option Id) (name : String) (j : Id) :
    (t.enter parent name).2.content j = t.content j := by
  rcases enter_cases t parent name with ⟨id, -, heq⟩ | ⟨-, heq⟩
  · rw [heq]
  · rw [heq]
    simp only [content, Array.getElem?_push]
    split
    next hj => rw [hj, Array.getElem?_eq_none (Nat.le_refl _)]; rfl
    next => rfl

/-! ### Links -/

/-- The names, parents and contents of the blocks of a tree fit together. -/
structure Linked (t : Tree) : Prop where
  /-- A name within a block is given once. -/
  names_nodup : (t.names.map Prod.fst).Nodup
  /-- Every block has been given one name, in the order of the numbers. -/
  ids_eq : t.names.map Prod.snd = (List.range t.blocks.size).reverse
  /-- A block was opened in the block that its name belongs to. -/
  parent_of_mem : ∀ {parent name id}, ((parent, name), id) ∈ t.names → t.parent? id = some parent
  /-- Only the first block has no parent. -/
  eq_zero : ∀ {id}, t.parent? id = some none → id = 0
  /-- A parent is older than its children. -/
  parent_lt : ∀ {id p : Nat}, t.parent? id = some (some p) → p < id
  /-- A block refers to blocks that were opened in it. -/
  child : ∀ {p c}, .block c ∈ t.content p → t.parent? c = some (some p)
  /-- It refers to each of them once. -/
  child_once : ∀ p c, (t.content p).count (.block c) ≤ 1

/-- Where a block can be entered: within a block, or at the top if there is no block yet. -/
def IsPlace (t : Tree) : Option Id → Prop
  | none => t.blocks.size = 0
  | some p => p < t.blocks.size

namespace Linked

theorem id_lt (h : Linked t) {key : Option Id × String} (hmem : (key, id) ∈ t.names) :
    id < t.blocks.size := by
  have hid : id ∈ t.names.map Prod.snd := List.mem_map_of_mem hmem
  rw [h.ids_eq, List.mem_reverse, List.mem_range] at hid
  exact hid

/-- Every block has exactly one name. -/
theorem name_unique (h : Linked t) (hid : id < t.blocks.size) :
    ∃! key, (key, id) ∈ t.names := by
  have hmem : id ∈ t.names.map Prod.snd := by
    rw [h.ids_eq, List.mem_reverse, List.mem_range]
    exact hid
  obtain ⟨⟨key, id⟩, hkey, rfl⟩ := List.mem_map.1 hmem
  refine ⟨key, hkey, fun key' hkey' => ?_⟩
  have hnodup : (t.names.map Prod.snd).Nodup := by
    rw [h.ids_eq]
    exact List.nodup_reverse.2 List.nodup_range
  have heq := List.inj_on_of_nodup_map hnodup hkey' hkey rfl
  exact congrArg Prod.fst heq

theorem empty : Linked .empty where
  names_nodup := List.nodup_nil
  ids_eq := rfl
  parent_of_mem hmem := by cases hmem
  eq_zero hp := by cases hp
  parent_lt hp := by cases hp
  child hmem := by cases hmem
  child_once _ _ := Nat.zero_le 1

/-- Entering a block gives it a number, and keeps the links. -/
theorem enter (h : Linked t) {parent : Option Id} (hplace : IsPlace t parent) (name : String) :
    Linked (t.enter parent name).2 ∧
      ((parent, name), (t.enter parent name).1) ∈ (t.enter parent name).2.names := by
  rcases enter_cases t parent name with ⟨id, hid, heq⟩ | ⟨hnone, heq⟩
  · rw [heq]
    exact ⟨h, mem_names_of_idOf? hid⟩
  rw [heq]
  refine ⟨?_, List.mem_cons_self ..⟩
  -- The new block is the last one, and nothing refers to it.
  have hparent (j : Id) : parent? { t with
      blocks := t.blocks.push ⟨parent, []⟩
      names := ((parent, name), t.blocks.size) :: t.names } j =
        if j = t.blocks.size then some parent else t.parent? j := by
    simp only [parent?, Array.getElem?_push]
    split
    · rfl
    · rfl
  have hcontent (j : Id) : content { t with
      blocks := t.blocks.push ⟨parent, []⟩
      names := ((parent, name), t.blocks.size) :: t.names } j = t.content j := by
    rw [← t.content_enter parent name, heq]
  have hold {j : Id} {q : Option Id} (hj : t.parent? j = some q) : j ≠ t.blocks.size :=
    Nat.ne_of_lt (lt_size_of_parent? hj)
  exact {
    names_nodup := List.nodup_cons.2 ⟨not_mem_names_of_idOf? hnone, h.names_nodup⟩
    ids_eq := by
      rw [List.map_cons, h.ids_eq, Array.size_push, List.range_succ, List.reverse_append]
      rfl
    parent_of_mem := by
      intro q m j hmem
      rw [hparent]
      rcases List.mem_cons.1 hmem with heq | hmem
      · cases heq
        exact if_pos rfl
      · rw [if_neg (hold (h.parent_of_mem hmem))]
        exact h.parent_of_mem hmem
    eq_zero := by
      intro j hj
      rw [hparent] at hj
      split at hj
      next hsize =>
        cases hj
        exact hsize.trans hplace
      next => exact h.eq_zero hj
    parent_lt := by
      intro j p hj
      rw [hparent] at hj
      split at hj
      next hsize =>
        cases hj
        exact hsize ▸ hplace
      next => exact h.parent_lt hj
    child := by
      intro p c hc
      rw [hcontent] at hc
      rw [hparent, if_neg (hold (h.child hc))]
      exact h.child hc
    child_once := by
      intro p c
      rw [hcontent]
      exact h.child_once p c }

/-- Changing a content keeps the links if only references to children are added, each of them
once. -/
theorem modifyContent (h : Linked t) {f : List Entry → List Entry}
    (hchild : ∀ c, .block c ∈ f (t.content id) →
      .block c ∈ t.content id ∨ t.parent? c = some (some id))
    (honce : ∀ c, (f (t.content id)).count (.block c) ≤ 1) : Linked (t.modifyContent id f) where
  names_nodup := h.names_nodup
  ids_eq := by rw [size_modifyContent]; exact h.ids_eq
  parent_of_mem hmem := by rw [parent?_modifyContent]; exact h.parent_of_mem hmem
  eq_zero hp := by rw [parent?_modifyContent] at hp; exact h.eq_zero hp
  parent_lt hp := by rw [parent?_modifyContent] at hp; exact h.parent_lt hp
  child := by
    intro p c hc
    rw [parent?_modifyContent]
    rw [content_modifyContent] at hc
    split at hc
    next hp =>
      obtain ⟨rfl, -⟩ := hp
      exact (hchild c hc).elim h.child fun hc => hc
    next => exact h.child hc
  child_once := by
    intro p c
    rw [content_modifyContent]
    split
    next hp => exact hp.1 ▸ honce c
    next => exact h.child_once p c

/-- References that are only taken away. -/
theorem modifyContent_of_count_le (h : Linked t) {f : List Entry → List Entry}
    (hcount : ∀ c, (f (t.content id)).count (.block c) ≤ (t.content id).count (.block c)) :
    Linked (t.modifyContent id f) := by
  refine h.modifyContent (fun c hc => .inl ?_) fun c =>
    Nat.le_trans (hcount c) (h.child_once id c)
  exact List.count_pos_iff.1 (Nat.lt_of_lt_of_le (List.count_pos_iff.2 hc) (hcount c))

/-- Referring to a block from its parent. -/
theorem attach (h : Linked t) {parent : Option Id} (hparent : t.parent? id = some parent) :
    Linked (t.attach parent id) := by
  cases parent with
  | none => exact { h with }
  | some p =>
    rw [Tree.attach]
    refine h.modifyContent (fun c hc => ?_) fun c => ?_
    · split at hc
      · exact .inl hc
      · rcases List.mem_cons.1 hc with heq | hc
        · cases heq
          exact .inr hparent
        · exact .inl hc
    · split
      · exact h.child_once p c
      next hnew =>
        by_cases hc : c = id
        · have hzero : (t.content p).count (.block id) = 0 :=
            List.count_eq_zero.2 fun hmem => hnew (List.contains_iff_mem.2 hmem)
          have hone : (Entry.block id :: t.content p).count (.block c) = 0 + 1 := by
            rw [hc, List.count_cons_self, hzero]
          exact Nat.le_of_eq hone
        · rw [List.count_cons_of_ne (fun heq => hc (Entry.block.inj heq).symm)]
          exact h.child_once p c

end Linked

/-! ### Opening -/

section attach

variable (t id) (parent : Option Id)

@[simp]
theorem size_attach : (t.attach parent id).blocks.size = t.blocks.size := by
  cases parent with
  | none => rfl
  | some p => exact size_modifyContent ..

@[simp]
theorem names_attach : (t.attach parent id).names = t.names := by
  cases parent with
  | none => rfl
  | some p => rfl

@[simp]
theorem parent?_attach (j : Id) : (t.attach parent id).parent? j = t.parent? j := by
  cases parent with
  | none => rfl
  | some p => exact parent?_modifyContent ..

theorem root_attach :
    (t.attach parent id).root = if parent.isNone then t.root.or (some id) else t.root := by
  cases parent with
  | none => rfl
  | some p => rfl

end attach

/-- A name that is entered, with its block emptied unless it is to keep its content. -/
def entered (t : Tree) (name : String) : Tree :=
  let e := t.enter t.current (splitSign name).2
  if (splitSign name).1 then e.2 else e.2.modifyContent e.1 fun _ => []

/-- Opening a block is entering its name and referring to it. -/
theorem openBlock_eq (t : Tree) (name : String) :
    t.openBlock name =
      let id := (t.enter t.current (splitSign name).2).1
      (id, { (t.entered name).attach t.current id with current := some id }) := rfl

theorem names_enter_subset {parent : Option Id} {name : String} :
    t.names ⊆ (t.enter parent name).2.names := by
  rcases enter_cases t parent name with ⟨id, -, heq⟩ | ⟨-, heq⟩
  · rw [heq]
    exact List.Subset.refl _
  · rw [heq]
    exact List.subset_cons_self ..

@[simp]
theorem current_enter (t : Tree) (parent : Option Id) (name : String) :
    (t.enter parent name).2.current = t.current := by
  rcases enter_cases t parent name with ⟨id, -, heq⟩ | ⟨-, heq⟩ <;> rw [heq]

@[simp]
theorem root_enter (parent : Option Id) (name : String) :
    (t.enter parent name).2.root = t.root := by
  rcases enter_cases t parent name with ⟨id, -, heq⟩ | ⟨-, heq⟩ <;> rw [heq]

section entered

variable (t) (name : String)

@[simp]
theorem size_entered :
    (t.entered name).blocks.size = (t.enter t.current (splitSign name).2).2.blocks.size := by
  rw [entered]
  split
  · rfl
  · exact size_modifyContent ..

@[simp]
theorem names_entered :
    (t.entered name).names = (t.enter t.current (splitSign name).2).2.names := by
  rw [entered]
  split
  · rfl
  · rfl

@[simp]
theorem root_entered : (t.entered name).root = t.root := by
  rw [entered]
  split
  · exact root_enter ..
  · exact root_enter ..

end entered

@[simp]
theorem current_entered (t : Tree) (name : String) : (t.entered name).current = t.current := by
  rw [entered]
  split
  · exact current_enter ..
  · exact current_enter ..

/-- Closing goes to the parent of the open block. -/
theorem close_eq (t : Tree) :
    t.close = match t.current.bind fun id => (t.parent? id).join with
      | some parent => { t with current := some parent }
      | none => t := by
  have hparent : (fun id : Nat => (t.blocks[id]?).bind Node.parent) =
      fun id => (t.parent? id).join := by
    funext id
    rw [parent?]
    cases t.blocks[id]? with
    | none => rfl
    | some b => rfl
  rw [← hparent]
  rfl

/-- Writing goes to the block that is open, or to the root, opened for that. -/
theorem append_eq (t : Tree) (text : String) :
    t.append text = t.ensureOpen.2.modifyContent t.ensureOpen.1 (.literal text :: ·) := rfl

/-- So does trimming. -/
theorem trim_eq (t : Tree) : t.trim = t.ensureOpen.2.modifyContent t.ensureOpen.1 trimContent := rfl

theorem ensureOpen_of_current (h : t.current = some id) : t.ensureOpen = (id, t) := by
  unfold ensureOpen
  rw [h]

theorem append_of_current (h : t.current = some id) (text : String) :
    t.append text = t.modifyContent id (.literal text :: ·) := by
  rw [append_eq, ensureOpen_of_current h]

theorem trim_eq_of_current (h : t.current = some id) : t.trim = t.modifyContent id trimContent := by
  rw [trim_eq, ensureOpen_of_current h]

/-! ### Well-formed trees -/

/-- A tree whose links fit together, with its root and its open block in place. -/
structure Wellformed (t : Tree) : Prop extends Linked t where
  /-- The first block is the root. -/
  root_eq : t.root = if t.blocks.size = 0 then none else some 0
  /-- The open block is a block. -/
  current_lt : ∀ {id : Nat}, t.current = some id → id < t.blocks.size
  /-- Nothing is open only as long as there is no block. -/
  size_eq : t.current = none → t.blocks.size = 0

namespace Wellformed

theorem empty : Wellformed .empty where
  toLinked := .empty
  root_eq := rfl
  current_lt hid := by cases hid
  size_eq _ := rfl

theorem isPlace (h : Wellformed t) : IsPlace t t.current := by
  cases hc : t.current with
  | none => exact h.size_eq hc
  | some p => exact h.current_lt hc

/-- A name that is entered, with its block emptied or not. -/
theorem entered (h : Wellformed t) (name : String) :
    Linked (t.entered name) ∧
      (t.entered name).parent? (t.enter t.current (splitSign name).2).1 = some t.current := by
  obtain ⟨hlinked, hmem⟩ := h.toLinked.enter h.isPlace (splitSign name).2
  have hparent := hlinked.parent_of_mem hmem
  rw [Tree.entered]
  split
  · exact ⟨hlinked, hparent⟩
  · refine ⟨hlinked.modifyContent_of_count_le fun c => Nat.zero_le _, ?_⟩
    rw [parent?_modifyContent]
    exact hparent

/-- Opening a block keeps a tree well-formed. -/
theorem openBlock (h : Wellformed t) (name : String) : Wellformed (t.openBlock name).2 := by
  obtain ⟨hlinked, hparent⟩ := h.entered name
  have hattach := hlinked.attach hparent
  rw [openBlock_eq]
  dsimp only
  generalize hid : (t.enter t.current (splitSign name).2).1 = id at hparent hattach ⊢
  have hlt : id < ((t.entered name).attach t.current id).blocks.size := by
    rw [size_attach]
    exact lt_size_of_parent? hparent
  refine { hattach with root_eq := ?_, current_lt := ?_, size_eq := ?_ }
  · dsimp only
    rw [if_neg (Nat.ne_of_gt (Nat.zero_lt_of_lt hlt)), root_attach, root_entered, h.root_eq]
    cases hc : t.current with
    | none =>
      rw [hc] at hparent
      rw [h.size_eq hc, hlinked.eq_zero hparent]
      rfl
    | some p =>
      have hpos : t.blocks.size ≠ 0 := Nat.ne_of_gt (Nat.zero_lt_of_lt (h.current_lt hc))
      rw [if_neg hpos]
      rfl
  · rintro j hj
    cases hj
    exact hlt
  · intro hnone
    cases hnone

/-- Changing the content of a block, other than by new references, keeps a tree well-formed. -/
theorem modifyContent (h : Wellformed t) {f : List Entry → List Entry}
    (hcount : ∀ c, (f (t.content id)).count (.block c) ≤ (t.content id).count (.block c)) :
    Wellformed (t.modifyContent id f) where
  toLinked := h.toLinked.modifyContent_of_count_le hcount
  root_eq := by rw [size_modifyContent]; exact h.root_eq
  current_lt hid := by rw [size_modifyContent]; exact h.current_lt hid
  size_eq hnone := by rw [size_modifyContent]; exact h.size_eq hnone

theorem ensureOpen (h : Wellformed t) : Wellformed t.ensureOpen.2 := by
  rw [Tree.ensureOpen]
  split
  · exact h
  · exact h.openBlock rootName

/-- Writing text keeps a tree well-formed. -/
theorem append (h : Wellformed t) (text : String) : Wellformed (t.append text) := by
  refine h.ensureOpen.modifyContent fun c => ?_
  exact Nat.le_of_eq (List.count_cons_of_ne Entry.noConfusion)

/-- Trimming changes texts only. -/
theorem count_trimContent (c : Id) (content : List Entry) :
    (trimContent content).count (.block c) = content.count (.block c) := by
  induction content with
  | nil => rfl
  | cons e rest ih =>
    cases e with
    | block id => rfl
    | literal text =>
      rw [trimContent]
      split
      · rw [List.count_cons_of_ne Entry.noConfusion, List.count_cons_of_ne Entry.noConfusion, ih]
      · rw [List.count_cons_of_ne Entry.noConfusion, List.count_cons_of_ne Entry.noConfusion]

/-- Trimming keeps a tree well-formed. -/
theorem trim (h : Wellformed t) : Wellformed t.trim :=
  h.ensureOpen.modifyContent fun c => Nat.le_of_eq (count_trimContent c _)

/-- Closing a block keeps a tree well-formed. -/
theorem close (h : Wellformed t) : Wellformed t.close := by
  rw [close_eq]
  split
  next p hp =>
    obtain ⟨id, -, hp⟩ := Option.bind_eq_some_iff.1 hp
    have hparent := Option.join_eq_some_iff.1 hp
    have hlt : p < t.blocks.size :=
      Nat.lt_trans (h.parent_lt hparent) (lt_size_of_parent? hparent)
    refine { h with current_lt := ?_, size_eq := ?_ }
    · rintro j hj
      cases hj
      exact hlt
    · intro hnone
      cases hnone
  next => exact h

/-- Every operation keeps a tree well-formed. -/
theorem run (h : Wellformed t) (op : Op) : Wellformed (op.run t) := by
  cases op with
  | openBlock name => exact h.openBlock name
  | close => exact h.close
  | append text => exact h.append text
  | trim => exact h.trim

end Wellformed

/-- Every tree that operations leave is well-formed. -/
theorem wellformed_after (ops : List Op) : Wellformed (after ops) := by
  induction ops using List.reverseRec with
  | nil => exact .empty
  | append_singleton ops op ih =>
    rw [after_concat]
    exact ih.run op

/-! ### Open blocks -/

theorem current_ensureOpen (t : Tree) : t.ensureOpen.2.current = some t.ensureOpen.1 := by
  rw [ensureOpen]
  split
  next id hid => exact hid
  next => rfl

/-- What is open stays open, or its parent is open. -/
theorem isSome_current_close (h : t.current.isSome) : t.close.current.isSome := by
  rw [close]
  split
  · rfl
  · exact h

/-- As soon as a block has been opened or written to, some block is open. -/
theorem isSome_current_after {ops : List Op} (h : ∃ op ∈ ops, op ≠ .close) :
    (after ops).current.isSome := by
  induction ops using List.reverseRec with
  | nil =>
    obtain ⟨op, hop, -⟩ := h
    cases hop
  | append_singleton ops op ih =>
    rw [after_concat]
    cases op with
    | openBlock name => rfl
    | append text => exact congrArg Option.isSome (current_ensureOpen (after ops))
    | trim => exact congrArg Option.isSome (current_ensureOpen (after ops))
    | close =>
      refine isSome_current_close (ih ?_)
      obtain ⟨op, hop, hne⟩ := h
      rcases List.mem_append.1 hop with hop | hop
      · exact ⟨op, hop, hne⟩
      · exact absurd (List.mem_singleton.1 hop) hne

end Tree

end Stencil.Block
