import Stencil.Proofs.Block.Walk

/-!
# What an operation touches

An operation works on the block that is open.  It changes what that block holds, and an opening may
empty the block that it opens, which lies directly below.  All other blocks are left alone.

* `Tree.content_openBlock`, `Tree.content_run` : what the blocks hold after an operation.
* `Tree.IsOpen` : a block is open, or a block below it is.  Only an operation that closes the block ends
  this (`Tree.Closes`, `Tree.IsOpen.run`).
* `Tree.content_runs` : as long as a block is open, nothing outside it changes.
-/

namespace Stencil.Block.Tree

variable {t : Tree} {a id j p q : Nat}

/-! ### Parents -/

/-- A new block takes no parent away. -/
theorem parent?_enter (parent : Option Id) (name : String) (hj : j < t.blocks.size) :
    (t.enter parent name).2.parent? j = t.parent? j := by
  rcases enter_cases t parent name with ⟨id, -, heq⟩ | ⟨-, heq⟩
  · rw [heq]
  · rw [heq]
    simp only [parent?, Array.getElem?_push, if_neg (Nat.ne_of_lt hj)]

theorem parent?_openBlock_of_lt (name : String) (hj : j < t.blocks.size) :
    (t.openBlock name).2.parent? j = t.parent? j := by
  have hentered : (t.entered name).parent? j = t.parent? j := by
    rw [entered]
    split
    · exact parent?_enter _ _ hj
    · rw [parent?_modifyContent]
      exact parent?_enter _ _ hj
  rw [← hentered, openBlock_eq]
  exact parent?_attach ..

theorem parent?_ensureOpen (hj : j < t.blocks.size) : t.ensureOpen.2.parent? j = t.parent? j := by
  rw [ensureOpen]
  split
  · rfl
  · exact parent?_openBlock_of_lt rootName hj

theorem parent?_close (j : Id) : t.close.parent? j = t.parent? j := by
  rw [close]
  split
  · rfl
  · rfl

/-- No operation moves a block below another one. -/
theorem parent?_run (op : Op) (hj : j < t.blocks.size) : (op.run t).parent? j = t.parent? j := by
  cases op with
  | openBlock name => exact parent?_openBlock_of_lt name hj
  | close => exact parent?_close j
  | append text =>
    rw [Op.run, append_eq, parent?_modifyContent]
    exact parent?_ensureOpen hj
  | trim =>
    rw [Op.run, trim_eq, parent?_modifyContent]
    exact parent?_ensureOpen hj

theorem size_le_run (op : Op) (t : Tree) : t.blocks.size ≤ (op.run t).blocks.size := by
  by_contra hlt
  have hj : (op.run t).blocks.size < t.blocks.size := Nat.not_le.1 hlt
  have hparent := parent?_run op hj
  have hnone : (op.run t).parent? (op.run t).blocks.size = none := by
    rw [parent?, Array.getElem?_eq_none (Nat.le_refl _)]
    rfl
  have hsome := parent?_isSome.2 hj
  rw [← hparent, hnone] at hsome
  cases hsome

theorem size_le_runs (ops : List Op) (t : Tree) :
    t.blocks.size ≤ (ops.foldl (fun t op => op.run t) t).blocks.size := by
  induction ops generalizing t with
  | nil => exact Nat.le_refl _
  | cons op ops ih => exact Nat.le_trans (size_le_run op t) (ih (op.run t))

theorem Below.run (h : Below t a j) (op : Op) : Below (op.run t) a j := by
  induction h with
  | refl => exact .refl
  | child _ hp ih => exact ih.child (by rw [parent?_run op (lt_size_of_parent? hp)]; exact hp)

theorem Below.antisymm (hlinked : Linked t) (h : Below t a j) (h' : Below t j a) : a = j :=
  Nat.le_antisymm (h.le hlinked) (h'.le hlinked)

/-! ### Contents -/

theorem content_entered (t : Tree) (name : String) (j : Id) :
    (t.entered name).content j =
      if (splitSign name).1 = false ∧ (t.openBlock name).1 = j then [] else t.content j := by
  rw [openBlock_eq, entered]
  dsimp only
  cases (splitSign name).1 with
  | true => exact content_enter ..
  | false =>
    rw [if_neg Bool.false_ne_true, content_modifyContent]
    simp only [true_and]
    by_cases hid : (t.enter t.current (splitSign name).2).1 = j
    · simp only [hid, if_true, true_and]
      split
      · rfl
      next hlt => exact content_of_size_le (Nat.not_lt.1 hlt)
    · rw [if_neg hid, if_neg fun h => hid h.1]
      exact content_enter ..

/-- The block that an opening opens lies directly below the one that was open. -/
theorem Wellformed.parent?_openBlock (h : Wellformed t) (name : String) :
    (t.openBlock name).2.parent? (t.openBlock name).1 = some t.current := by
  rw [openBlock_eq]
  exact (parent?_attach ..).trans (h.entered name).2

theorem Wellformed.lt_openBlock (h : Wellformed t) (hq : t.current = some q) (name : String) :
    q < (t.openBlock name).1 := by
  have hparent := h.parent?_openBlock name
  rw [hq] at hparent
  exact (h.openBlock name).parent_lt hparent

/-- What the blocks hold after an opening: the block that was open refers to the one that is opened,
which is empty unless it is to keep its content. -/
theorem content_openBlock (h : Wellformed t) (hq : t.current = some q) (name : String) (j : Id) :
    (t.openBlock name).2.content j =
      if q = j then
        if (t.content q).contains (.block (t.openBlock name).1) then t.content q
        else .block (t.openBlock name).1 :: t.content q
      else if (splitSign name).1 = false ∧ (t.openBlock name).1 = j then [] else t.content j := by
  have hne : (t.openBlock name).1 ≠ q := Nat.ne_of_gt (h.lt_openBlock hq name)
  have hcontent : (t.entered name).content q = t.content q := by
    rw [content_entered, if_neg fun hid => hne hid.2]
  have hlt : q < (t.entered name).blocks.size := by
    have hle : t.blocks.size ≤ (t.openBlock name).2.blocks.size := size_le_run (.openBlock name) t
    rw [openBlock_eq] at hle
    dsimp only at hle
    rw [size_attach] at hle
    exact Nat.lt_of_lt_of_le (h.current_lt hq) hle
  have hopen : (t.openBlock name).2.content j =
      ((t.entered name).attach (some q) (t.openBlock name).1).content j := by
    rw [openBlock_eq, ← hq]
    rfl
  rw [hopen, attach, content_modifyContent]
  by_cases hj : q = j
  · subst hj
    rw [if_pos ⟨rfl, hlt⟩, if_pos rfl, hcontent]
  · rw [if_neg fun h => hj h.1, if_neg hj, content_entered]

theorem content_close (j : Id) : t.close.content j = t.content j := by
  rw [close]
  split
  · rfl
  · rfl

/-- An operation leaves alone what is not below the open block. -/
theorem content_run (h : Wellformed t) (hq : t.current = some q) (op : Op) (hj : ¬ Below t q j) :
    (op.run t).content j = t.content j := by
  have hne : q ≠ j := by
    rintro rfl
    exact hj .refl
  cases op with
  | openBlock name =>
    rw [Op.run, content_openBlock h hq, if_neg hne]
    split
    next hid =>
      obtain ⟨-, rfl⟩ := hid
      -- the opened block would be below the open one if it had been there
      have hsize : t.blocks.size ≤ (t.openBlock name).1 := by
        by_contra hlt
        have hparent := h.parent?_openBlock name
        rw [parent?_openBlock_of_lt name (Nat.not_le.1 hlt), hq] at hparent
        exact hj (Below.refl.child hparent)
      exact (content_of_size_le hsize).symm
    next => rfl
  | close => exact content_close j
  | append text =>
    rw [Op.run, append_of_current hq, content_modifyContent, if_neg fun h => hne h.1]
  | trim =>
    rw [Op.run, trim_eq_of_current hq, content_modifyContent, if_neg fun h => hne h.1]

/-! ### Open blocks -/

/-- A block is open, or a block below it is. -/
def IsOpen (t : Tree) (id : Id) : Prop := ∃ q, t.current = some q ∧ Below t id q

/-- An operation closes a block: it is a closing while that block is open, and then another block is
open. -/
def Closes (t : Tree) (id : Id) (op : Op) : Prop :=
  op = .close ∧ t.current = some id ∧ t.close.current ≠ some id

instance (t : Tree) (id : Id) (op : Op) : Decidable (Closes t id op) :=
  inferInstanceAs (Decidable (_ ∧ _ ∧ _))

/-- Operations on a tree never close a block. -/
def NeverCloses (id : Id) : Tree → List Op → Prop
  | _, [] => True
  | t, op :: ops => ¬ Closes t id op ∧ NeverCloses id (op.run t) ops

instance (id : Id) : (t : Tree) → (ops : List Op) → Decidable (NeverCloses id t ops)
  | _, [] => inferInstanceAs (Decidable True)
  | t, op :: ops =>
    have := instDecidableNeverCloses id (op.run t) ops
    inferInstanceAs (Decidable (_ ∧ _))

theorem isOpen_of_current (h : t.current = some id) : IsOpen t id := ⟨id, h, .refl⟩

/-- A block stays open until it is closed. -/
theorem IsOpen.run (h : IsOpen t id) (hwell : Wellformed t) {op : Op} (hop : ¬ Closes t id op) :
    IsOpen (op.run t) id := by
  obtain ⟨q, hq, hbelow⟩ := h
  cases op with
  | openBlock name =>
    have hparent := hwell.parent?_openBlock name
    rw [hq] at hparent
    exact ⟨_, rfl, (hbelow.run (.openBlock name)).child hparent⟩
  | append text =>
    refine ⟨q, ?_, hbelow.run (.append text)⟩
    rw [Op.run, append_of_current hq]
    exact hq
  | trim =>
    refine ⟨q, ?_, hbelow.run .trim⟩
    rw [Op.run, trim_eq_of_current hq]
    exact hq
  | close =>
    by_cases heq : q = id
    · -- closing has left the block open
      subst heq
      exact isOpen_of_current (by_contra fun hne => hop ⟨rfl, hq, hne⟩)
    · cases hbelow with
      | refl => exact absurd rfl heq
      | child hbelow hp =>
        refine ⟨_, ?_, hbelow.run .close⟩
        rw [Op.run, close_eq, hq, Option.bind_some, hp]
        rfl

/-- An operation within an open block leaves everything outside it alone. -/
theorem IsOpen.content_run (h : IsOpen t id) (hwell : Wellformed t) (op : Op)
    (hj : ¬ Below t id j) : (op.run t).content j = t.content j := by
  obtain ⟨q, hq, hbelow⟩ := h
  exact Tree.content_run hwell hq op fun hqj => hj (hbelow.trans hqj)

theorem Below.runs (h : Below t a j) (ops : List Op) :
    Below (ops.foldl (fun t op => op.run t) t) a j := by
  induction ops generalizing t with
  | nil => exact h
  | cons op ops ih => exact ih (h.run op)

/-- As long as a block is not closed, everything that is still outside it then is left alone. -/
theorem content_runs (hwell : Wellformed t) (h : IsOpen t id) {ops : List Op}
    (hops : NeverCloses id t ops) (hj : ¬ Below (ops.foldl (fun t op => op.run t) t) id j) :
    (ops.foldl (fun t op => op.run t) t).content j = t.content j := by
  induction ops generalizing t with
  | nil => rfl
  | cons op ops ih =>
    rw [List.foldl_cons, ih (hwell.run op) (h.run hwell hops.1) hops.2 hj]
    exact h.content_run hwell op fun hbelow => hj ((hbelow.run op).runs ops)

end Stencil.Block.Tree
