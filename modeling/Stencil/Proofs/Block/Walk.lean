import Stencil.Proofs.Block.Linked

/-!
# Going through a block tree

Rendering follows references from block to block and keeps no list of the blocks it has been to.
`Tree.walk` is the same journey with such a list, and it fails where rendering would leave the arena or
go deeper than it may.  In a tree with fitting links it never fails and never comes to a block twice
(`Linked.walks`): references lead from a block to its children, and a block is below only one of the
children of its parent.

`Tree.Sound` says in full how the numbers in a tree refer to its blocks, and `sound_after` that they do
so after every sequence of operations, so that every rendering ends.
-/

namespace Stencil.Block

namespace Tree

variable {t : Tree} {id : Nat}

/-! ### Ancestors -/

/-- A block is another one, or lies below it. -/
inductive Below (t : Tree) (a : Nat) : Nat → Prop
  | refl : Below t a a
  | child {p c : Nat} : Below t a p → t.parent? c = some (some p) → Below t a c

namespace Below

variable {a b c p : Nat}

theorem le (hlinked : Linked t) (h : Below t a b) : a ≤ b := by
  induction h with
  | refl => exact Nat.le_refl a
  | child _ hp ih => exact Nat.le_trans ih (Nat.le_of_lt (hlinked.parent_lt hp))

theorem trans (h : Below t a b) (h' : Below t b c) : Below t a c := by
  induction h' with
  | refl => exact h
  | child _ hp ih => exact ih.child hp

/-- Of two blocks above a third one, one is above the other. -/
theorem total (h : Below t a c) (h' : Below t b c) : Below t a b ∨ Below t b a := by
  induction h generalizing b with
  | refl => exact .inr h'
  | child h hp ih =>
    cases h' with
    | refl => exact .inl (h.child hp)
    | child h' hp' =>
      rw [hp] at hp'
      cases hp'
      exact ih h'

/-- A block is not below a sibling of its own. -/
theorem eq_of_siblings (hlinked : Linked t) (h : Below t a b) (ha : t.parent? a = some (some p))
    (hb : t.parent? b = some (some p)) : a = b := by
  cases h with
  | refl => rfl
  | child h hp =>
    rw [hb] at hp
    cases hp
    exact absurd (hlinked.parent_lt ha) (Nat.not_lt.2 (h.le hlinked))

/-- A block is below one child only. -/
theorem unique (hlinked : Linked t) (ha : t.parent? a = some (some p))
    (hb : t.parent? b = some (some p)) (h : Below t a c) (h' : Below t b c) : a = b := by
  rcases h.total h' with hab | hba
  · exact hab.eq_of_siblings hlinked ha hb
  · exact (hba.eq_of_siblings hlinked hb ha).symm

end Below

/-! ### Walks -/

/-- Going through the pieces of a content: the blocks that are visited and the text, if each visit of
a block succeeds. -/
def walkEntries (visit : Nat → Option (List Nat × List Char)) :
    List Entry → Option (List Nat × List Char)
  | [] => some ([], [])
  | .literal text :: es => (walkEntries visit es).map fun r => (r.1, text.toList ++ r.2)
  | .block c :: es =>
    (visit c).bind fun r => (walkEntries visit es).map fun r' => (r.1 ++ r'.1, r.2 ++ r'.2)

/-- The blocks that rendering a block goes through, in order, with its text.  There is no answer if a
block is missing on the way, or if the way leads more than `depth` blocks deep. -/
def walk (t : Tree) : (depth : Nat) → Nat → Option (List Nat × List Char)
  | 0, _ => none
  | depth + 1, id =>
    (t.blocks[id]?).bind fun b =>
      (walkEntries (t.walk depth) b.content.reverse).map fun r => (id :: r.1, r.2)

/-- A walk that ends, goes through blocks below its first one, and comes to none of them twice. -/
def Walks (t : Tree) (depth id : Nat) : Prop :=
  ∃ ids, t.walk depth id = some (ids, t.renderTo depth id) ∧ ids.Nodup ∧ ∀ j ∈ ids, Below t id j

/-- Walks to some children of a block, one after the other. -/
theorem walks_entries (hlinked : Linked t) {depth p : Nat} {es : List Entry}
    (hchild : ∀ {c}, .block c ∈ es → t.parent? c = some (some p) ∧ Walks t depth c)
    (honce : ∀ c, es.count (.block c) ≤ 1) :
    ∃ ids, walkEntries (t.walk depth) es = some (ids, es.flatMap fun
        | .literal text => text.toList
        | .block child => t.renderTo depth child) ∧
      ids.Nodup ∧ ∀ j ∈ ids, ∃ c, .block c ∈ es ∧ Below t c j := by
  induction es with
  | nil => exact ⟨[], rfl, List.nodup_nil, fun j hj => by cases hj⟩
  | cons e es ih =>
    have honce' (c : Id) : es.count (.block c) ≤ 1 :=
      Nat.le_trans (List.count_le_count_cons ..) (honce c)
    obtain ⟨ids, hwalk, hnodup, hbelow⟩ :=
      ih (fun hc => hchild (List.mem_cons_of_mem _ hc)) honce'
    have hbelow' : ∀ j ∈ ids, ∃ c, .block c ∈ e :: es ∧ Below t c j := by
      intro j hj
      obtain ⟨c, hc, hcj⟩ := hbelow j hj
      exact ⟨c, List.mem_cons_of_mem _ hc, hcj⟩
    cases e with
    | literal text =>
      refine ⟨ids, ?_, hnodup, hbelow'⟩
      rw [walkEntries, hwalk]
      rfl
    | block c =>
      obtain ⟨hparent, ids', hwalk', hnodup', hbelowc⟩ := hchild (List.mem_cons_self ..)
      refine ⟨ids' ++ ids, ?_, List.nodup_append.2 ⟨hnodup', hnodup, ?_⟩, ?_⟩
      · rw [walkEntries, hwalk', hwalk]
        rfl
      · -- A block below two children would make them one, but each child is referred to once.
        rintro j hj j' hj' rfl
        obtain ⟨c', hc', hcj⟩ := hbelow j hj'
        have heq := (hbelowc j hj).unique hlinked hparent
          (hchild (List.mem_cons_of_mem _ hc')).1 hcj
        have hcount := honce c
        rw [List.count_cons_self, heq] at hcount
        have hpos := List.count_pos_iff.2 hc'
        omega
      · intro j hj
        rcases List.mem_append.1 hj with hj | hj
        · exact ⟨c, List.mem_cons_self .., hbelowc j hj⟩
        · exact hbelow' j hj

/-- **Walks.**  If links fit together, a rendering that may go as deep as there are younger blocks goes
through blocks of the arena only, and through each of them once. -/
theorem Linked.walks (h : Linked t) {depth : Nat} (hid : id < t.blocks.size)
    (hdepth : t.blocks.size ≤ id + depth) : Walks t depth id := by
  induction depth generalizing id with
  | zero => omega
  | succ depth ih =>
    obtain ⟨b, hblock⟩ : ∃ b, t.blocks[id]? = some b := ⟨_, Array.getElem?_eq_getElem hid⟩
    have hcontent := content_of_block hblock
    have hchild {c : Nat} (hc : .block c ∈ b.content.reverse) :
        t.parent? c = some (some id) ∧ Walks t depth c := by
      rw [List.mem_reverse, ← hcontent] at hc
      have hparent := h.child hc
      have hlt := h.parent_lt hparent
      exact ⟨hparent, ih (lt_size_of_parent? hparent) (by omega)⟩
    have honce (c : Nat) : b.content.reverse.count (.block c) ≤ 1 := by
      rw [List.count_reverse, ← hcontent]
      exact h.child_once id c
    obtain ⟨ids, hwalk, hnodup, hbelow⟩ := walks_entries h hchild honce
    have hbelow' : ∀ j ∈ ids, Below t id j ∧ id < j := by
      intro j hj
      obtain ⟨c, hc, hcj⟩ := hbelow j hj
      have hparent := (hchild hc).1
      exact ⟨(Below.refl.child hparent).trans hcj,
        Nat.lt_of_lt_of_le (h.parent_lt hparent) (hcj.le h)⟩
    refine ⟨id :: ids, ?_, ?_, ?_⟩
    · rw [walk, hblock, Option.bind_some, hwalk, renderTo, hblock]
      rfl
    · exact List.nodup_cons.2 ⟨fun hmem => Nat.lt_irrefl id (hbelow' id hmem).2, hnodup⟩
    · intro j hj
      rcases List.mem_cons.1 hj with rfl | hj
      · exact .refl
      · exact (hbelow' j hj).1

/-! ### Sound trees -/

/-- A visit that succeeds gives the same answer if it may go deeper. -/
theorem walkEntries_mono {visit visit' : Nat → Option (List Nat × List Char)}
    (hvisit : ∀ c r, visit c = some r → visit' c = some r) {es : List Entry}
    {r : List Nat × List Char} (h : walkEntries visit es = some r) :
    walkEntries visit' es = some r := by
  induction es generalizing r with
  | nil => exact h
  | cons e es ih =>
    cases e with
    | literal text =>
      rw [walkEntries] at h ⊢
      obtain ⟨rest, hrest, heq⟩ := Option.map_eq_some_iff.1 h
      rw [ih hrest]
      exact congrArg some heq
    | block c =>
      rw [walkEntries] at h ⊢
      obtain ⟨first, hfirst, h⟩ := Option.bind_eq_some_iff.1 h
      obtain ⟨rest, hrest, heq⟩ := Option.map_eq_some_iff.1 h
      rw [hvisit c first hfirst, ih hrest]
      exact congrArg some heq

theorem walk_mono {depth depth' : Nat} {r : List Nat × List Char} (hle : depth ≤ depth')
    (h : t.walk depth id = some r) : t.walk depth' id = some r := by
  induction depth generalizing depth' id r with
  | zero => cases h
  | succ depth ih =>
    obtain ⟨depth', rfl⟩ : ∃ d, depth' = d + 1 := ⟨depth' - 1, by omega⟩
    rw [walk] at h ⊢
    obtain ⟨b, hb, h⟩ := Option.bind_eq_some_iff.1 h
    obtain ⟨rest, hrest, heq⟩ := Option.map_eq_some_iff.1 h
    rw [hb, Option.bind_some,
      walkEntries_mono (fun c r hc => ih (Nat.le_of_succ_le_succ hle) hc) hrest]
    exact congrArg some heq

/-- How the numbers in a tree refer to its blocks. -/
structure Sound (t : Tree) : Prop where
  /-- A content refers to blocks of the tree. -/
  content_lt : ∀ p c : Nat, .block c ∈ t.content p → c < t.blocks.size
  /-- So do the names, … -/
  id_lt : ∀ (parent : Option Nat) (name : String) (id : Nat),
    ((parent, name), id) ∈ t.names → id < t.blocks.size ∧ ∀ p ∈ parent, p < t.blocks.size
  /-- … the root, … -/
  root_lt : ∀ id : Nat, t.root = some id → id < t.blocks.size
  /-- … and the open block. -/
  current_lt : ∀ id : Nat, t.current = some id → id < t.blocks.size
  /-- The names are a map. -/
  names_nodup : (t.names.map Prod.fst).Nodup
  /-- Every block has exactly one name. -/
  name_unique : ∀ id < t.blocks.size, ∃! key, (key, id) ∈ t.names
  /-- It is a name within the block's parent. -/
  parent_of_mem : ∀ (parent : Option Nat) (name : String) (id : Nat),
    ((parent, name), id) ∈ t.names → t.parent? id = some parent
  /-- Block 0, if there is one, and no other block has no parent. -/
  parent_none : ∀ id : Nat, t.parent? id = some none ↔ id = 0 ∧ 0 < t.blocks.size
  /-- Block 0 is the root. -/
  root_eq : t.root = if t.blocks.size = 0 then none else some 0
  /-- A parent comes before its children. -/
  parent_lt : ∀ id p : Nat, t.parent? id = some (some p) → p < id
  /-- A content refers to children of its block only. -/
  child_parent : ∀ p c : Nat, .block c ∈ t.content p → t.parent? c = some (some p)
  /-- It refers to each of them once. -/
  child_once : ∀ p c : Nat, (t.content p).count (.block c) ≤ 1

/-- The first block has no parent: a parent would come before it. -/
theorem Linked.parent_none (h : Linked t) :
    t.parent? id = some none ↔ id = 0 ∧ 0 < t.blocks.size := by
  constructor
  · intro hid
    have hzero := h.eq_zero hid
    exact ⟨hzero, hzero ▸ lt_size_of_parent? hid⟩
  · rintro ⟨rfl, hsize⟩
    obtain ⟨parent, hparent⟩ := Option.isSome_iff_exists.1 (parent?_isSome.2 hsize)
    cases parent with
    | none => exact hparent
    | some p => exact absurd (h.parent_lt hparent) (Nat.not_lt_zero p)

/-- Well-formed trees are sound. -/
theorem Wellformed.sound (h : Wellformed t) : Sound t where
  content_lt _ _ hc := lt_size_of_parent? (h.child hc)
  id_lt := by
    intro parent name id hmem
    have hparent := h.parent_of_mem hmem
    refine ⟨lt_size_of_parent? hparent, ?_⟩
    rintro p rfl
    exact Nat.lt_trans (h.parent_lt hparent) (lt_size_of_parent? hparent)
  root_lt := by
    intro id hid
    rw [h.root_eq] at hid
    split at hid
    · cases hid
    next hsize =>
      cases hid
      exact Nat.pos_of_ne_zero hsize
  current_lt _ hid := h.current_lt hid
  names_nodup := h.names_nodup
  name_unique _ hid := h.toLinked.name_unique hid
  parent_of_mem _ _ _ hmem := h.parent_of_mem hmem
  parent_none _ := h.toLinked.parent_none
  root_eq := h.root_eq
  parent_lt _ _ hp := h.parent_lt hp
  child_parent _ _ hc := h.child hc
  child_once := h.child_once

/-- Rendering a block ends with a text: however deep it may go, it goes through blocks of the arena
only, and through none of them twice. -/
def Renders (t : Tree) (id : Nat) (text : String) : Prop :=
  ∃ ids, ids.Nodup ∧ ∀ depth ≥ t.blocks.size, t.walk depth id = some (ids, text.toList)

theorem Linked.renders (h : Linked t) (hid : id < t.blocks.size) : Renders t id (t.render id) := by
  obtain ⟨ids, hwalk, hnodup, -⟩ := h.walks hid (Nat.le_add_left ..)
  refine ⟨ids, hnodup, fun depth hdepth => ?_⟩
  rw [render, String.toList_ofList]
  exact walk_mono hdepth hwalk

/-- **Soundness.**  After every sequence of operations the tree is sound, some block is open if more than
closing has been done, and rendering ends for every block and for the root. -/
theorem sound_after (ops : List Op) :
    Sound (after ops) ∧
      ((∃ op ∈ ops, op ≠ .close) → (after ops).current.isSome) ∧
      (∀ id < (after ops).blocks.size, Renders (after ops) id ((after ops).render id)) ∧
      ∀ id, (after ops).root = some id → Renders (after ops) id (after ops).renderRoot := by
  have hwell := wellformed_after ops
  refine ⟨hwell.sound, isSome_current_after, fun id hid => hwell.renders hid, fun id hroot => ?_⟩
  rw [renderRoot, hroot]
  exact hwell.renders (hwell.sound.root_lt id hroot)

/-- The same name within two blocks denotes two blocks. -/
example : (after [.openBlock "a", .openBlock "b", .append "x", .close, .openBlock "c",
    .openBlock "b", .append "y"]).renderRoot = "xy" := by decide

end Tree

end Stencil.Block
