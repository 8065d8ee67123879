import Stencil.Proofs.Block.Frame
import Stencil.Proofs.Block.Outline

/-!
# Filling a block

To fill a block is to open it, to do something in it that closes what it opens, and to close it.

* `Balanced` : operations that close what they open, and nothing else.
* `Outline.Within`, `Outline.Agree` : operations within a block see nothing of what is written outside
  it, and write nothing there.
* `Outline.opened_fill`, `Outline.pieces_fill`, `Outline.Agree.fill` : so a filling changes what is
  written at and below its path only, and depends on nothing else.
-/

namespace Stencil.Block

/-! ### Balanced operations -/

/-- How many of the blocks that some operations have opened are open after one more.  There is no
answer if that one closes a block that they have not opened. -/
def Op.level : Op → Nat → Option Nat
  | .openBlock _, depth => some (depth + 1)
  | .close, 0 => none
  | .close, depth + 1 => some depth
  | .append _, depth => some depth
  | .trim, depth => some depth

/-- How many of the blocks are open after some more operations. -/
def levelAfter : List Op → Nat → Option Nat
  | [], depth => some depth
  | op :: ops, depth => (op.level depth).bind (levelAfter ops)

/-- Operations close every block that they open, and no other block. -/
def Balanced (ops : List Op) : Prop := levelAfter ops 0 = some 0

instance (ops : List Op) : Decidable (Balanced ops) := inferInstanceAs (Decidable (_ = _))

/-- Opens a block, does something in it and closes it. -/
def fill (name : String) (body : List Op) : List Op := .openBlock name :: body ++ [.close]

namespace Outline

variable {m m' : Outline} {path opened q : Path} {name : String} {depth : Nat}

/-! ### One operation -/

/-- The open block is the one at `path`, or a block below it that is this many blocks deeper. -/
def Within (m : Outline) (path : Path) (depth : Nat) : Prop :=
  ∃ inner, m.opened = inner ++ path ∧ inner.length = depth

/-- Outlines in which the same block is open and the same is written at and below a path. -/
structure Agree (path : Path) (m m' : Outline) : Prop where
  /-- The same block is open. -/
  opened : m.opened = m'.opened
  /-- The same is written. -/
  pieces : ∀ q, path <:+ q → m.pieces q = m'.pieces q

theorem ensureOpen_of_opened (h : m.opened ≠ []) : m.ensureOpen = m := if_neg h

theorem pieces_write (m : Outline) (path : Path) (f : List Piece → List Piece) (q : Path) :
    (m.write path f).pieces q = if q = path then f (m.pieces q) else m.pieces q := by
  rw [write]
  dsimp only
  by_cases hq : q = path
  · rw [hq, Function.update_self, if_pos rfl]
  · rw [Function.update_of_ne hq, if_neg hq]

@[simp]
theorem opened_entered (m : Outline) (name : String) : (m.entered name).opened = m.opened := by
  rw [entered]
  split
  · rfl
  · rfl

theorem pathTo_ne_nil (m : Outline) (name : String) : m.pathTo name ≠ [] := List.cons_ne_nil _ _

/-- The open block does not lie below a block within it. -/
theorem not_pathTo_suffix (m : Outline) (name : String) : ¬ m.pathTo name <:+ m.opened :=
  fun hsuffix => absurd hsuffix.length_le (Nat.not_succ_le_self _)

theorem mem_refer (name : String) (es : List Piece) : .child name ∈ refer name es := by
  rw [refer]
  split
  · assumption
  · exact List.mem_append_right _ (List.mem_singleton_self _)

/-- An opening refers to the block that it opens, and empties it unless it is to keep its content. -/
theorem pieces_openBlock (h : m.opened ≠ []) (name : String) (q : Path) :
    (m.openBlock name).pieces q =
      if q = m.opened then refer (bareName name) (m.pieces q)
      else if q = m.pathTo name ∧ keeps name = false then [] else m.pieces q := by
  have hentered (q : Path) : (m.entered name).pieces q =
      if q = m.pathTo name ∧ keeps name = false then [] else m.pieces q := by
    rw [entered]
    cases hkeeps : keeps name with
    | true => simp
    | false => simp [pieces_write]
  rw [openBlock, attach, opened_entered, if_neg h]
  dsimp only
  rw [pieces_write, hentered]
  by_cases hq : q = m.opened
  · have hpath : q ≠ m.pathTo name := fun heq =>
      m.not_pathTo_suffix name (heq ▸ hq ▸ List.suffix_refl _)
    rw [if_pos hq, if_pos hq, if_neg fun h => hpath h.1]
  · rw [if_neg hq, if_neg hq]

theorem root_openBlock (h : m.opened ≠ []) (name : String) : (m.openBlock name).root = m.root := by
  rw [openBlock, attach, opened_entered, if_neg h, entered]
  split
  · rfl
  · rfl

/-- Whatever is done, the root stays what it is if something is open. -/
theorem root_run (h : m.opened ≠ []) (op : Op) : (m.run op).root = m.root := by
  cases op with
  | openBlock name => exact root_openBlock h name
  | close =>
    rw [run, close]
    split
    · rfl
    · rfl
  | append text =>
    rw [run, append, ensureOpen_of_opened h]
    rfl
  | trim =>
    rw [run, trim, ensureOpen_of_opened h]
    rfl

theorem opened_close (h : path ≠ []) (hopen : m.opened = name :: path) : m.close.opened = path := by
  obtain ⟨parent, rest, rfl⟩ := List.exists_cons_of_ne_nil h
  rw [close, hopen]

theorem pieces_close (m : Outline) : m.close.pieces = m.pieces := by
  rw [close]
  split
  · rfl
  · rfl

/-- An operation that closes nothing outside goes no deeper or higher than it says. -/
theorem Within.run (h : m.Within path depth) (hne : path ≠ []) {op : Op} {depth' : Nat}
    (hlevel : op.level depth = some depth') : (m.run op).Within path depth' := by
  obtain ⟨inner, hopened, rfl⟩ := h
  have hnil : m.opened ≠ [] := by
    rw [hopened]
    exact List.append_ne_nil_of_right_ne_nil _ hne
  cases op with
  | openBlock name =>
    cases hlevel
    exact ⟨bareName name :: inner, congrArg (bareName name :: ·) hopened, rfl⟩
  | close =>
    cases inner with
    | nil => cases hlevel
    | cons name inner =>
      cases hlevel
      exact ⟨inner, opened_close (List.append_ne_nil_of_right_ne_nil _ hne) hopened, rfl⟩
  | append text =>
    cases hlevel
    refine ⟨inner, ?_, rfl⟩
    rw [Outline.run, append, ensureOpen_of_opened hnil]
    exact hopened
  | trim =>
    cases hlevel
    refine ⟨inner, ?_, rfl⟩
    rw [Outline.run, trim, ensureOpen_of_opened hnil]
    exact hopened

theorem Within.ne_nil (h : m.Within path depth) (hne : path ≠ []) : m.opened ≠ [] := by
  obtain ⟨inner, hopened, -⟩ := h
  rw [hopened]
  exact List.append_ne_nil_of_right_ne_nil _ hne

theorem Within.suffix (h : m.Within path depth) : path <:+ m.opened := by
  obtain ⟨inner, hopened, -⟩ := h
  exact ⟨inner, hopened.symm⟩

/-- An operation writes nothing outside a block that is open. -/
theorem pieces_run (hsuffix : path <:+ m.opened) (hne : m.opened ≠ []) (op : Op)
    (hq : ¬ path <:+ q) : (m.run op).pieces q = m.pieces q := by
  have hopened : q ≠ m.opened := fun heq => hq (heq ▸ hsuffix)
  cases op with
  | openBlock name =>
    have hpath : q ≠ m.pathTo name := fun heq => hq (heq ▸ hsuffix.trans (List.suffix_cons ..))
    rw [run, pieces_openBlock hne, if_neg hopened, if_neg fun h => hpath h.1]
  | close => rw [run, pieces_close]
  | append text => rw [run, append, ensureOpen_of_opened hne, pieces_write, if_neg hopened]
  | trim => rw [run, trim, ensureOpen_of_opened hne, pieces_write, if_neg hopened]

/-- What an operation writes within an open block depends on what is written there. -/
theorem Agree.run (h : Agree path m m') (hne : m.opened ≠ []) (op : Op) :
    Agree path (m.run op) (m'.run op) := by
  have hne' : m'.opened ≠ [] := h.opened ▸ hne
  cases op with
  | openBlock name =>
    refine ⟨congrArg (bareName name :: ·) h.opened, fun q hq => ?_⟩
    rw [Outline.run, Outline.run, pieces_openBlock hne, pieces_openBlock hne', pathTo, pathTo,
      h.opened, h.pieces q hq]
  | close =>
    refine ⟨?_, fun q hq => ?_⟩
    · rw [Outline.run, Outline.run, close, close, h.opened]
      split
      · rfl
      · exact h.opened
    · rw [Outline.run, Outline.run, pieces_close, pieces_close]
      exact h.pieces q hq
  | append text =>
    rw [Outline.run, Outline.run, append, append, ensureOpen_of_opened hne,
      ensureOpen_of_opened hne', h.opened]
    refine ⟨h.opened, fun q hq => ?_⟩
    rw [pieces_write, pieces_write, h.pieces q hq]
  | trim =>
    rw [Outline.run, Outline.run, trim, trim, ensureOpen_of_opened hne,
      ensureOpen_of_opened hne', h.opened]
    refine ⟨h.opened, fun q hq => ?_⟩
    rw [pieces_write, pieces_write, h.pieces q hq]

/-! ### Many operations -/

theorem Within.runs (h : m.Within path depth) (hne : path ≠ []) {ops : List Op} {depth' : Nat}
    (hlevel : levelAfter ops depth = some depth') :
    (ops.foldl Outline.run m).Within path depth' := by
  induction ops generalizing m depth with
  | nil =>
    cases hlevel
    exact h
  | cons op ops ih =>
    obtain ⟨next, hnext, hrest⟩ := Option.bind_eq_some_iff.1 hlevel
    exact ih (h.run hne hnext) hrest

theorem root_runs (h : m.Within path depth) (hne : path ≠ []) {ops : List Op} {depth' : Nat}
    (hlevel : levelAfter ops depth = some depth') : (ops.foldl run m).root = m.root := by
  induction ops generalizing m depth with
  | nil => rfl
  | cons op ops ih =>
    obtain ⟨next, hnext, hrest⟩ := Option.bind_eq_some_iff.1 hlevel
    rw [List.foldl_cons, ih (h.run hne hnext) hrest, root_run (h.ne_nil hne)]

theorem pieces_runs (h : m.Within path depth) (hne : path ≠ []) {ops : List Op} {depth' : Nat}
    (hlevel : levelAfter ops depth = some depth') (hq : ¬ path <:+ q) :
    (ops.foldl run m).pieces q = m.pieces q := by
  induction ops generalizing m depth with
  | nil => rfl
  | cons op ops ih =>
    obtain ⟨next, hnext, hrest⟩ := Option.bind_eq_some_iff.1 hlevel
    rw [List.foldl_cons, ih (h.run hne hnext) hrest, pieces_run h.suffix (h.ne_nil hne) op hq]

theorem Agree.runs (hagree : Agree path m m') (h : m.Within path depth) (hne : path ≠ [])
    {ops : List Op} {depth' : Nat} (hlevel : levelAfter ops depth = some depth') :
    Agree path (ops.foldl Outline.run m) (ops.foldl Outline.run m') := by
  induction ops generalizing m m' depth with
  | nil => exact hagree
  | cons op ops ih =>
    obtain ⟨next, hnext, hrest⟩ := Option.bind_eq_some_iff.1 hlevel
    exact ih (hagree.run (h.ne_nil hne) op) (h.run hne hnext) hrest

/-! ### Filling -/

theorem foldl_fill (m : Outline) (name : String) (body : List Op) :
    (fill name body).foldl run m = (body.foldl run (m.openBlock name)).close := by
  rw [fill, List.cons_append, List.foldl_cons, List.foldl_append]
  rfl

theorem within_openBlock (m : Outline) (name : String) :
    (m.openBlock name).Within (m.pathTo name) 0 := ⟨[], rfl, rfl⟩

theorem Within.opened_eq (h : m.Within path 0) : m.opened = path := by
  obtain ⟨inner, hopened, hlength⟩ := h
  rw [hopened, List.length_eq_zero_iff.1 hlength, List.nil_append]

section fill

variable (hopen : m.opened ≠ []) {body : List Op} (hbody : Balanced body)
include hopen hbody

/-- After a filling the same block is open as before, … -/
theorem opened_fill (name : String) : ((fill name body).foldl run m).opened = m.opened := by
  have hwithin := (m.within_openBlock name).runs (m.pathTo_ne_nil name) hbody
  rw [foldl_fill]
  exact opened_close hopen hwithin.opened_eq

/-- … and the same one is the root. -/
theorem root_fill (name : String) : ((fill name body).foldl run m).root = m.root := by
  have hwithin := (m.within_openBlock name).runs (m.pathTo_ne_nil name) hbody
  have hclose := root_run (hwithin.ne_nil (m.pathTo_ne_nil name)) .close
  have hruns := root_runs (m.within_openBlock name) (m.pathTo_ne_nil name) hbody
  rw [foldl_fill]
  exact hclose.trans (hruns.trans (root_openBlock hopen name))

/-- A filling writes at and below its path, and nothing else than a reference to that. -/
theorem pieces_fill (name : String) (hq : ¬ m.pathTo name <:+ q) :
    ((fill name body).foldl run m).pieces q =
      if q = m.opened then refer (bareName name) (m.pieces q) else m.pieces q := by
  have hpath : q ≠ m.pathTo name := fun heq => hq (heq ▸ List.suffix_refl _)
  rw [foldl_fill, pieces_close,
    pieces_runs (m.within_openBlock name) (m.pathTo_ne_nil name) hbody hq, pieces_openBlock hopen]
  split
  · rfl
  · exact if_neg fun h => hpath h.1

/-- What it writes there depends on what is written there. -/
theorem Agree.fill {m' : Outline} (name : String) (h : Agree (m.pathTo name) m m') :
    Agree (m.pathTo name) ((Block.fill name body).foldl Outline.run m)
      ((Block.fill name body).foldl Outline.run m') := by
  have hagree : Agree (m.pathTo name) (m.openBlock name) (m'.openBlock name) :=
    h.run hopen (.openBlock name)
  have hwithin := m.within_openBlock name
  have hlast := hwithin.runs (m.pathTo_ne_nil name) hbody
  rw [foldl_fill, foldl_fill]
  exact (hagree.runs hwithin (m.pathTo_ne_nil name) hbody).run
    (hlast.ne_nil (m.pathTo_ne_nil name)) .close

end fill

end Outline

/-- The outline of a tree on which more has been done. -/
theorem Tracks.after_append (ops later : List Op) :
    Tracks (Tree.after (ops ++ later)) (later.foldl Outline.run (Outline.after ops)) := by
  have htracks := Tracks.after (ops ++ later)
  rw [Outline.after, List.foldl_append] at htracks
  exact htracks

end Stencil.Block
