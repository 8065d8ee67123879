import Stencil.Proofs.Block.Balanced
import Stencil.Proofs.Block.Slots

/-!
# Siblings

Two blocks within the same block have nothing to do with each other.  What is written while one of
them is open goes to its path and below, so it is all one in which order they are filled.

* `Outline.fill_comm` : the same is written in the end.
* `Tree.neverCloses` : balanced operations do not close a block that was open before.
* `Tree.fill_comm_after` : in the arena the orders differ in the numbers of new blocks only.
-/

namespace Stencil.Block

namespace Outline

variable {m : Outline} {path q : Path} {a b : String}

theorem refer_of_mem {name : String} {es : List Piece} (h : .child name ∈ es) :
    refer name es = es := if_pos h

/-- No path is below two different names. -/
theorem not_suffix_of_suffix (hab : a ≠ b) (ha : (a :: path) <:+ q) : ¬ (b :: path) <:+ q := by
  intro hb
  have hlength : (a :: path).length = (b :: path).length := rfl
  have heq := (List.suffix_of_suffix_length_le ha hb (Nat.le_of_eq hlength)).eq_of_length hlength
  exact hab (List.cons.inj heq).1

section fill

variable (hopen : m.opened ≠ []) {body : List Op} (hbody : Balanced body)
include hopen hbody

/-- A filling of a block that is referred to writes at and below its path only. -/
theorem pieces_fill_of_mem {name : String} (hmem : .child (bareName name) ∈ m.pieces m.opened)
    (hq : ¬ m.pathTo name <:+ q) : ((fill name body).foldl run m).pieces q = m.pieces q := by
  rw [pieces_fill hopen hbody name hq]
  split
  next heq => rw [heq, refer_of_mem hmem]
  next => rfl

/-- What a filling writes is not changed by another one that comes first. -/
theorem pieces_fill_fill {other : List Op} (hother : Balanced other)
    (hab : bareName a ≠ bareName b) (hb : .child (bareName b) ∈ m.pieces m.opened)
    (hq : m.pathTo a <:+ q) :
    ((fill a body).foldl run ((fill b other).foldl run m)).pieces q =
      ((fill a body).foldl run m).pieces q := by
  have hagree : Agree (m.pathTo a) m ((fill b other).foldl run m) := by
    refine ⟨(opened_fill hopen hother b).symm, fun q hq => ?_⟩
    exact (pieces_fill_of_mem hopen hother hb (not_suffix_of_suffix hab hq)).symm
  exact ((hagree.fill hopen hbody a).pieces q hq).symm

end fill

/-- Filling two blocks in either order. -/
theorem fill_comm (hopen : m.opened ≠ []) {bodyA bodyB : List Op} (hA : Balanced bodyA)
    (hB : Balanced bodyB) (hab : bareName a ≠ bareName b)
    (ha : .child (bareName a) ∈ m.pieces m.opened) (hb : .child (bareName b) ∈ m.pieces m.opened) :
    (fill b bodyB).foldl run ((fill a bodyA).foldl run m) =
      (fill a bodyA).foldl run ((fill b bodyB).foldl run m) := by
  -- a block that is not filled refers to both of them as before
  have hopenA : ((fill a bodyA).foldl run m).opened = m.opened := opened_fill hopen hA a
  have hopenB : ((fill b bodyB).foldl run m).opened = m.opened := opened_fill hopen hB b
  have hb' : .child (bareName b) ∈ ((fill a bodyA).foldl run m).pieces m.opened := by
    rw [pieces_fill_of_mem hopen hA ha (m.not_pathTo_suffix a)]
    exact hb
  have ha' : .child (bareName a) ∈ ((fill b bodyB).foldl run m).pieces m.opened := by
    rw [pieces_fill_of_mem hopen hB hb (m.not_pathTo_suffix b)]
    exact ha
  rw [← hopenA] at hb'
  rw [← hopenB] at ha'
  have hopen' := hopenA ▸ hopen
  have hopen'' := hopenB ▸ hopen
  have hpathB : ((fill a bodyA).foldl run m).pathTo b = m.pathTo b := congrArg (_ :: ·) hopenA
  have hpathA : ((fill b bodyB).foldl run m).pathTo a = m.pathTo a := congrArg (_ :: ·) hopenB
  have hpieces (q : Path) : ((fill b bodyB).foldl run ((fill a bodyA).foldl run m)).pieces q =
      ((fill a bodyA).foldl run ((fill b bodyB).foldl run m)).pieces q := by
    by_cases hqa : m.pathTo a <:+ q
    · have hqb : ¬ m.pathTo b <:+ q := not_suffix_of_suffix hab hqa
      rw [pieces_fill_of_mem hopen' hB hb' (hpathB ▸ hqb),
        pieces_fill_fill hopen hA hB hab hb hqa]
    · rw [pieces_fill_of_mem hopen'' hA ha' (hpathA ▸ hqa)]
      by_cases hqb : m.pathTo b <:+ q
      · exact pieces_fill_fill hopen hB hA (Ne.symm hab) ha hqb
      · rw [pieces_fill_of_mem hopen' hB hb' (hpathB ▸ hqb), pieces_fill_of_mem hopen hA ha hqa,
          pieces_fill_of_mem hopen hB hb hqb]
  have hopened : ((fill b bodyB).foldl run ((fill a bodyA).foldl run m)).opened =
      ((fill a bodyA).foldl run ((fill b bodyB).foldl run m)).opened := by
    rw [opened_fill hopen' hB, opened_fill hopen'' hA, hopenA, hopenB]
  have hroot : ((fill b bodyB).foldl run ((fill a bodyA).foldl run m)).root =
      ((fill a bodyA).foldl run ((fill b bodyB).foldl run m)).root := by
    rw [root_fill hopen' hB, root_fill hopen'' hA, root_fill hopen hA, root_fill hopen hB]
  cases hleft : (fill b bodyB).foldl run ((fill a bodyA).foldl run m)
  cases hright : (fill a bodyA).foldl run ((fill b bodyB).foldl run m)
  rw [hleft, hright] at hpieces hopened hroot
  cases hopened
  cases hroot
  cases funext hpieces
  rfl

end Outline

/-! ### The arena -/

namespace Tree

variable {t : Tree} {m : Outline} {id j : Nat} {path : Path} {depth depth' : Nat} {ops : List Op}

/-- Balanced operations within an open block do not close it. -/
theorem neverCloses (h : Tracks t m) (hwell : Wellformed t) (hid : Leads t.names (some id) path)
    (hwithin : m.Within path depth) (hlevel : levelAfter ops depth = some depth') :
    NeverCloses id t ops := by
  induction ops generalizing t m depth with
  | nil => exact trivial
  | cons op ops ih =>
    obtain ⟨next, hnext, hrest⟩ := Option.bind_eq_some_iff.1 hlevel
    have hne : path ≠ [] := fun hnil => Option.some_ne_none id (hid.eq_nil_iff.1 hnil)
    refine ⟨?_, ih (h.run hwell op) (hwell.run op) (hid.mono (names_run_subset op t))
      (hwithin.run hne hnext) hrest⟩
    -- to close the block, it would have to be the open one, but then its path would be the opened one
    rintro ⟨rfl, hcurrent, -⟩
    obtain ⟨inner, hopened, rfl⟩ := hwithin
    have hpath := (hcurrent ▸ h.opened).path_unique hwell.toLinked hid
    rw [hopened, List.append_left_eq_self] at hpath
    rw [hpath] at hnext
    cases hnext

/-- Entering a name that is known. -/
theorem fst_openBlock {name : String} (h : t.idOf? t.current (splitSign name).2 = some id) :
    (t.openBlock name).1 = id := by
  rw [openBlock_eq]
  dsimp only
  rw [enter, h]

/-- The block that a filling opens stays open until the end. -/
theorem content_fill (h : Tracks t m) (hwell : Wellformed t) {p : Nat} (hcurrent : t.current = some p)
    {name : String} {body : List Op} (hbody : Balanced body)
    (hid : t.idOf? (some p) (splitSign name).2 = some id) (hmem : id ∈ t.slots p)
    (hj : ¬ Below ((fill name body).foldl (fun t op => op.run t) t) id j) :
    ((fill name body).foldl (fun t op => op.run t) t).content j = t.content j := by
  have hopened : (t.openBlock name).1 = id := fst_openBlock (hcurrent ▸ hid)
  have htracks := h.openBlock hwell name
  have hwell' := hwell.openBlock name
  have hleads : Leads (t.openBlock name).2.names (some id) (m.pathTo name) := by
    rw [← hopened]
    exact htracks.opened
  have hnever : NeverCloses id (t.openBlock name).2 body :=
    neverCloses htracks hwell' hleads (m.within_openBlock name) hbody
  have hopen : IsOpen (t.openBlock name).2 id := isOpen_of_current (congrArg some hopened)
  rw [fill, List.cons_append, List.foldl_cons, List.foldl_append] at hj ⊢
  have hbodyj : ¬ Below (body.foldl (fun t op => op.run t) (t.openBlock name).2) id j :=
    fun hbelow => hj (hbelow.run .close)
  have hne : id ≠ j := fun heq => hj (heq ▸ .refl)
  refine (content_close j).trans ((content_runs hwell' hopen hnever hbodyj).trans ?_)
  rw [content_openBlock hwell hcurrent, hopened]
  split
  next hp => rw [if_pos (List.contains_iff_mem.2 (mem_slots.1 hmem)), hp]
  next => exact if_neg fun h => hne h.2

/-- Trees with the same outline have roots with the same text. -/
theorem renderRoot_of_tracks {t' : Tree} (h : Tracks t m) (h' : Tracks t' m) (hlinked : Linked t)
    (hlinked' : Linked t') : t.renderRoot = t'.renderRoot :=
  (h.rootHolds hlinked _).1 ((h'.rootHolds hlinked' _).2 rfl)

/-- A block has the same text in trees that have the same outline and come from one tree. -/
theorem render_of_tracks {t₀ t' : Tree} (h : Tracks t m) (h' : Tracks t' m) (hlinked : Linked t)
    (hlinked' : Linked t') (hlinked₀ : Linked t₀) (hsub : t₀.names ⊆ t.names)
    (hsub' : t₀.names ⊆ t'.names) (hj : j < t₀.blocks.size) : t.render j = t'.render j := by
  obtain ⟨path, hpath⟩ := Leads.exists_path hlinked₀ hj
  have hholds := h.holds hlinked (hpath.mono hsub)
  exact (Outline.holds_iff hholds _).1 (h'.holds hlinked' (hpath.mono hsub'))

/-- The open block of an outline is the same in trees that come from one tree. -/
theorem current_of_tracks {t₀ : Tree} {p : Nat} (h : Tracks t m) (hlinked : Linked t)
    (hsub : t₀.names ⊆ t.names) (hp : Leads t₀.names (some p) m.opened) : t.current = some p :=
  h.opened.id_unique hlinked (hp.mono hsub)

/-- **Siblings.**  After every sequence of operations, let the open block refer to two blocks of
different names, and let each of them be filled with operations that close what they open.  Whichever
of them is filled first, the same block is open then, and the root and every block that there was
have the same texts.  Filling one changes no block outside it, so not the open one. -/
theorem fill_comm_after (ops bodyA bodyB : List Op) (nameA nameB : String) (p a b : Nat)
    (hopen : (after ops).current = some p)
    (hidA : (after ops).idOf? (some p) (splitSign nameA).2 = some a)
    (hidB : (after ops).idOf? (some p) (splitSign nameB).2 = some b)
    (ha : a ∈ (after ops).slots p) (hb : b ∈ (after ops).slots p)
    (hab : (splitSign nameA).2 ≠ (splitSign nameB).2)
    (hA : Balanced bodyA) (hB : Balanced bodyB) :
    ((after (ops ++ fill nameA bodyA ++ fill nameB bodyB)).current = some p ∧
      (after (ops ++ fill nameB bodyB ++ fill nameA bodyA)).current = some p) ∧
    (after (ops ++ fill nameA bodyA ++ fill nameB bodyB)).renderRoot =
      (after (ops ++ fill nameB bodyB ++ fill nameA bodyA)).renderRoot ∧
    (∀ j < (after ops).blocks.size, (after (ops ++ fill nameA bodyA ++ fill nameB bodyB)).render j =
      (after (ops ++ fill nameB bodyB ++ fill nameA bodyA)).render j) ∧
    ¬ Below (after (ops ++ fill nameA bodyA)) a p ∧
    ∀ j, ¬ Below (after (ops ++ fill nameA bodyA)) a j →
      (after (ops ++ fill nameA bodyA)).content j = (after ops).content j := by
  have hwell := wellformed_after ops
  have htracks := Tracks.after ops
  have houtline := Tracks.after_append ops
  generalize ht : after ops = t at *
  generalize hm : Outline.after ops = m at *
  have hafter (later : List Op) : after (ops ++ later) = later.foldl (fun t op => op.run t) t := by
    rw [after_append, ht]
  have hsub (later : List Op) : t.names ⊆ (after (ops ++ later)).names := by
    rw [hafter]
    exact names_runs_subset later t
  have hlinked (ops : List Op) : Linked (after ops) := (wellformed_after ops).toLinked
  -- the open block refers to both blocks by their names
  have hp : Leads t.names (some p) m.opened := hopen ▸ htracks.opened
  have hne : m.opened ≠ [] := fun hnil => Option.some_ne_none p (hp.eq_nil_iff.1 hnil)
  have hchild {name : String} {c : Nat} (hid : t.idOf? (some p) (splitSign name).2 = some c)
      (hc : c ∈ t.slots p) : .child (Outline.bareName name) ∈ m.pieces m.opened := by
    rw [Outline.splitSign_eq] at hid
    exact ((htracks.alike hp).mem_iff hwell.toLinked (mem_names_of_idOf? hid)).1 (mem_slots.1 hc)
  rw [Outline.splitSign_eq, Outline.splitSign_eq] at hab
  have hcomm := Outline.fill_comm hne hA hB hab (hchild hidA ha) (hchild hidB hb)
  have hAB := houtline (fill nameA bodyA ++ fill nameB bodyB)
  have hBA := houtline (fill nameB bodyB ++ fill nameA bodyA)
  rw [List.foldl_append] at hAB hBA
  rw [hcomm] at hAB
  have hopened : ((fill nameA bodyA).foldl Outline.run
      ((fill nameB bodyB).foldl Outline.run m)).opened = m.opened := by
    rw [Outline.opened_fill (Outline.opened_fill hne hB _ ▸ hne) hA, Outline.opened_fill hne hB]
  simp only [List.append_assoc]
  refine ⟨⟨?_, ?_⟩, ?_, fun j hj => ?_, ?_, fun j hj => ?_⟩
  · exact current_of_tracks hAB (hlinked _) (hsub _) (hopened ▸ hp)
  · exact current_of_tracks hBA (hlinked _) (hsub _) (hopened ▸ hp)
  · exact renderRoot_of_tracks hAB hBA (hlinked _) (hlinked _)
  · exact render_of_tracks hAB hBA (hlinked _) (hlinked _) hwell.toLinked (hsub _) (hsub _) hj
  · intro hbelow
    have hparent := hwell.child (mem_slots.1 ha)
    exact absurd (hbelow.le (hlinked _)) (Nat.not_le.2 (hwell.parent_lt hparent))
  · rw [hafter] at hj ⊢
    exact content_fill htracks hwell hopen hA hidA ha hj

/-- A block that refers to two others. -/
def twoSiblings : List Op :=
  [.append "<", .openBlock "p", .openBlock "a", .append "1", .close, .append "-", .openBlock "b",
    .append "2", .close, .trim]

/-- Writing around a nested block. -/
def aroundNested : List Op := [.append "x ", .openBlock "c", .append "y", .close, .append " ", .trim]

/-- Reusing the name of a sibling deeper down. -/
def reusingName : List Op := [.openBlock "c", .openBlock "+a", .append "z", .close, .close, .trim]

theorem fill_comm_after_twoSiblings :
    (after twoSiblings).current = some 1 ∧
    (after twoSiblings).idOf? (some 1) (splitSign "a").2 = some 2 ∧
    (after twoSiblings).idOf? (some 1) (splitSign "+b").2 = some 3 ∧
    (after twoSiblings).slots 1 = [2, 3] ∧
    (splitSign "a").2 ≠ (splitSign "+b").2 ∧
    Balanced aroundNested ∧ Balanced reusingName ∧
    (after (twoSiblings ++ fill "a" aroundNested ++ fill "+b" reusingName)).current = some 1 ∧
    (after (twoSiblings ++ fill "a" aroundNested ++ fill "+b" reusingName)).renderRoot =
      "<x y-2z" ∧
    (after (twoSiblings ++ fill "+b" reusingName ++ fill "a" aroundNested)).renderRoot =
      "<x y-2z" ∧
    (after (twoSiblings ++ fill "a" aroundNested)).content 1 = (after twoSiblings).content 1 := by
  have hopen : (after twoSiblings).current = some 1 := by decide
  have hidA : (after twoSiblings).idOf? (some 1) (splitSign "a").2 = some 2 := by decide
  have hidB : (after twoSiblings).idOf? (some 1) (splitSign "+b").2 = some 3 := by decide
  have hslots : (after twoSiblings).slots 1 = [2, 3] := by decide
  have hab : (splitSign "a").2 ≠ (splitSign "+b").2 := by decide
  have hA : Balanced aroundNested := by decide
  have hB : Balanced reusingName := by decide
  obtain ⟨⟨hcurrent, -⟩, hroot, -, hp, hcontent⟩ :=
    fill_comm_after twoSiblings aroundNested reusingName "a" "+b" 1 2 3 hopen hidA hidB
      (by rw [hslots]; decide) (by rw [hslots]; decide) hab hA hB
  have htext : (after (twoSiblings ++ fill "a" aroundNested ++ fill "+b" reusingName)).renderRoot =
      "<x y-2z" := by decide
  exact ⟨hopen, hidA, hidB, hslots, hab, hA, hB, hcurrent, htext, hroot ▸ htext, hcontent 1 hp⟩

end Tree

end Stencil.Block
