import Mathlib.Data.List.DropRight
import Stencil.Proofs.Block.Frame
import Stencil.Proofs.Block.Trimmed

/-!
# Places of nested blocks

The place of a nested block in the block that it is opened in is its slot.  As long as a block stays
open, its slots stay: blocks that are opened in it for the first time come after them, and what it
holds up to its last nested block no longer changes.

* `Tree.slots`, `Tree.settled` : the nested blocks of a block, and what it holds up to the last one.
* `Tree.settled_run`, `Tree.slots_run` : what one operation does to them, and so a sequence of
  operations (`Tree.settled_runs`, `Tree.slots_runs`).
* `Tree.toList_render` : the text of a block is that of its entries, in order.
* `Tree.slots_after` : so a nested block keeps its place in the text of the block around it.
-/

namespace Stencil.Block

/-- The block that an entry refers to. -/
def Entry.child? : Entry → Option Id
  | .literal _ => none
  | .block id => some id

namespace Tree

variable {t : Tree} {id p q : Nat}

/-- The blocks that a block refers to, in order. -/
def slots (t : Tree) (id : Id) : List Id := (t.entries id).filterMap Entry.child?

/-- What a block holds up to the last block that it refers to. -/
def settled (t : Tree) (id : Id) : List Entry := (t.entries id).rdropWhile Entry.isLiteral

/-- The block that an operation opens, if it does so directly within a given block. -/
def openedBy (t : Tree) (id : Id) : Op → List Id
  | .openBlock name => if t.current = some id then [(t.openBlock name).1] else []
  | _ => []

/-- The blocks that operations on a tree open directly within a block, in order of opening. -/
def openedIn (id : Id) : Tree → List Op → List Id
  | _, [] => []
  | t, op :: ops => t.openedBy id op ++ openedIn id (op.run t) ops

/-- The text of an entry, with the text of the block that it refers to. -/
def textOf (t : Tree) : Entry → List Char
  | .literal text => text.toList
  | .block id => (t.render id).toList

/-! ### One operation -/

theorem mem_slots {c : Nat} : c ∈ t.slots id ↔ .block c ∈ t.content id := by
  rw [slots, List.mem_filterMap]
  constructor
  · rintro ⟨e, he, hc⟩
    cases e with
    | literal text => cases hc
    | block d =>
      cases hc
      exact List.mem_reverse.1 he
  · intro hc
    exact ⟨_, List.mem_reverse.2 hc, rfl⟩

theorem slots_nodup (h : Linked t) (id : Id) : (t.slots id).Nodup := by
  rw [List.nodup_iff_count_le_one]
  intro c
  have hcount : (t.slots id).count c = (t.entries id).count (.block c) := by
    rw [slots]
    induction t.entries id with
    | nil => rfl
    | cons e es ih =>
      cases e with
      | literal text =>
        rw [List.filterMap_cons_none (by rfl), ih, List.count_cons_of_ne Entry.noConfusion]
      | block d =>
        rw [List.filterMap_cons_some (by rfl), List.count_cons, List.count_cons, ih]
        simp
  rw [hcount, entries, List.count_reverse]
  exact h.child_once id c

theorem entries_of_content {t' : Tree} (h : t'.content id = t.content id) :
    t'.entries id = t.entries id := by
  rw [entries, entries, h]

/-- A block that is open holds one more literal after a writing. -/
theorem entries_append (hopen : t.current = some id) (hlt : id < t.blocks.size) (text : String) :
    (t.append text).entries id = t.entries id ++ [.literal text] := by
  rw [entries, append_of_current hopen, content_modifyContent, if_pos ⟨rfl, hlt⟩,
    List.reverse_cons, entries]

/-- An opening refers to the block that it opens, at the end, unless there is a reference. -/
theorem entries_openBlock (h : Wellformed t) (hopen : t.current = some id) (name : String) :
    (t.openBlock name).2.entries id =
      if (t.openBlock name).1 ∈ t.slots id then t.entries id
      else t.entries id ++ [.block (t.openBlock name).1] := by
  rw [entries, content_openBlock h hopen, if_pos rfl]
  simp only [List.contains_iff_mem, mem_slots]
  split
  · rfl
  · rw [List.reverse_cons, entries]

/-- What a content has settled, and the texts after that. -/
theorem entries_eq_settled (t : Tree) (id : Id) :
    ∃ texts, t.entries id = t.settled id ++ texts ∧ ∀ e ∈ texts, e.isLiteral :=
  ⟨_, (List.rdropWhile_append_rtakeWhile ..).symm, fun _ he => List.mem_rtakeWhile_imp he⟩

theorem rdropWhile_append_literals {es texts : List Entry} (htexts : ∀ e ∈ texts, e.isLiteral) :
    (es ++ texts).rdropWhile Entry.isLiteral = es.rdropWhile Entry.isLiteral := by
  induction texts using List.reverseRec with
  | nil => rw [List.append_nil]
  | append_singleton texts e ih =>
    rw [← List.append_assoc, List.rdropWhile_concat_pos _ _ _ (htexts e (by simp))]
    exact ih fun e he => htexts e (List.mem_append_left _ he)

theorem filterMap_literals {texts : List Entry} (htexts : ∀ e ∈ texts, e.isLiteral) :
    texts.filterMap Entry.child? = [] := by
  rw [List.filterMap_eq_nil_iff]
  intro e he
  cases e with
  | literal text => rfl
  | block c => exact absurd (htexts _ he) Bool.false_ne_true

/-- The slots are those of what has been settled. -/
theorem slots_eq_settled (t : Tree) (id : Id) :
    t.slots id = (t.settled id).filterMap Entry.child? := by
  obtain ⟨texts, hentries, htexts⟩ := t.entries_eq_settled id
  rw [slots, hentries, List.filterMap_append, filterMap_literals htexts, List.append_nil]

/-- Trimming stops before what the open block has settled. -/
theorem settled_trim (h : Wellformed t) (hopen : t.current = some id) :
    t.trim.settled id = t.settled id := by
  obtain ⟨texts, hentries, htexts⟩ := t.entries_eq_settled id
  have hlast : ∀ e ∈ (t.settled id).getLast?, e.isLiteral = false := by
    intro e he
    obtain ⟨hne, rfl⟩ := List.mem_getLast?_eq_getLast he
    exact Bool.eq_false_iff.2 (List.rdropWhile_last_not Entry.isLiteral (t.entries id) hne)
  obtain ⟨texts', htrim, htexts', -⟩ := entries_trim hopen (h.current_lt hopen) hentries htexts hlast
  rw [settled, htrim, rdropWhile_append_literals htexts']
  exact List.rdropWhile_idempotent ..

/-- What a block has settled depends on its content alone. -/
theorem settled_of_content {t' : Tree} (h : t'.content id = t.content id) :
    t'.settled id = t.settled id := by
  rw [settled, settled, entries_of_content h]

/-- Opening a block settles what the open block holds, unless that block has its reference. -/
theorem settled_openBlock (h : Wellformed t) (hopen : t.current = some id) (name : String) :
    t.settled id <+: (t.openBlock name).2.settled id := by
  rw [settled, settled, entries_openBlock h hopen]
  split
  · exact ⟨[], List.append_nil _⟩
  · rw [List.rdropWhile_concat_neg _ _ _ Bool.false_ne_true]
    exact (List.rdropWhile_prefix ..).trans (List.prefix_append ..)

/-- Writing into the open block settles nothing. -/
theorem settled_append (hopen : t.current = some id) (hlt : id < t.blocks.size) (text : String) :
    (t.append text).settled id = t.settled id := by
  rw [settled, entries_append hopen hlt]
  exact List.rdropWhile_concat_pos _ _ _ rfl

/-- An operation on an open block, or on a block below it, only adds to what it has settled. -/
theorem settled_run (h : Wellformed t) (hopen : IsOpen t id) (op : Op) :
    t.settled id <+: (op.run t).settled id := by
  -- All but an opening leaves what is settled as it is.
  have hkept : (op.run t).settled id = t.settled id → t.settled id <+: (op.run t).settled id :=
    fun hsame => ⟨[], (List.append_nil _).trans hsame.symm⟩
  obtain ⟨q, hq, hbelow⟩ := hopen
  by_cases heq : q = id
  · subst heq
    cases op with
    | openBlock name => exact settled_openBlock h hq name
    | close => exact hkept (settled_of_content (content_close _))
    | append text => exact hkept (settled_append hq (h.current_lt hq) text)
    | trim => exact hkept (settled_trim h hq)
  · have hcontent := content_run h hq op fun hqid => heq (hqid.antisymm h.toLinked hbelow)
    exact hkept (settled_of_content hcontent)

/-- One more element, after the distinct ones of a list. -/
theorem eraseDups_concat (ids : List Id) (c : Id) :
    (ids ++ [c]).eraseDups = if c ∈ ids.eraseDups then ids.eraseDups else ids.eraseDups ++ [c] := by
  rw [List.eraseDups_append, List.removeAll]
  simp only [List.mem_eraseDups]
  split
  next hmem => simp [hmem]
  next hnew => simp [hnew, List.eraseDups_cons]

/-- What an operation opens in an open block comes after its slots, if it is not among them. -/
theorem slots_run (h : Wellformed t) (hopen : IsOpen t id) (op : Op) {ids : List Id}
    (hids : t.slots id = ids.eraseDups) :
    (op.run t).slots id = (ids ++ t.openedBy id op).eraseDups := by
  obtain ⟨q, hq, hbelow⟩ := hopen
  by_cases heq : q = id
  · subst heq
    cases op with
    | openBlock name =>
      rw [openedBy, if_pos hq, eraseDups_concat, ← hids, slots, Op.run, entries_openBlock h hq]
      split
      · rfl
      · rw [List.filterMap_append]
        rfl
    | close =>
      rw [openedBy, List.append_nil, slots, Op.run, entries_of_content (content_close _)]
      · exact hids
      · exact fun _ => Op.noConfusion
    | append text =>
      rw [openedBy, List.append_nil, slots, Op.run, entries_append hq (h.current_lt hq),
        List.filterMap_append]
      · exact (List.append_nil _).trans hids
      · exact fun _ => Op.noConfusion
    | trim =>
      rw [openedBy, List.append_nil, slots_eq_settled, Op.run, settled_trim h hq,
        ← slots_eq_settled]
      · exact hids
      · exact fun _ => Op.noConfusion
  · have hcontent := content_run h hq op fun hqid => heq (hqid.antisymm h.toLinked hbelow)
    have hnone : t.openedBy id op = [] := by
      cases op with
      | openBlock name => exact if_neg fun hid => heq (Option.some.inj (hq.symm.trans hid))
      | close => rfl
      | append text => rfl
      | trim => rfl
    rw [hnone, List.append_nil, slots, entries_of_content hcontent]
    exact hids

/-! ### Many operations -/

theorem settled_runs (h : Wellformed t) (hopen : IsOpen t id) {ops : List Op}
    (hops : NeverCloses id t ops) :
    t.settled id <+: (ops.foldl (fun t op => op.run t) t).settled id := by
  induction ops generalizing t with
  | nil => exact List.prefix_refl _
  | cons op ops ih =>
    exact (settled_run h hopen op).trans (ih (h.run op) (hopen.run h hops.1) hops.2)

theorem slots_runs (h : Wellformed t) (hopen : IsOpen t id) {ops : List Op}
    (hops : NeverCloses id t ops) {ids : List Id} (hids : t.slots id = ids.eraseDups) :
    (ops.foldl (fun t op => op.run t) t).slots id = (ids ++ openedIn id t ops).eraseDups := by
  induction ops generalizing t ids with
  | nil =>
    rw [openedIn, List.append_nil]
    exact hids
  | cons op ops ih =>
    rw [List.foldl_cons, openedIn, ← List.append_assoc]
    exact ih (h.run op) (hopen.run h hops.1) hops.2 (slots_run h hopen op hids)

theorem eraseDups_of_nodup {ids : List Id} (h : ids.Nodup) : ids.eraseDups = ids := by
  induction ids with
  | nil => rfl
  | cons c ids ih =>
    obtain ⟨hc, h⟩ := List.nodup_cons.1 h
    have hall : ∀ d ∈ ids, (!d == c) = true := by
      rintro d hd
      simpa using ne_of_mem_of_not_mem hd hc
    rw [List.eraseDups_cons, List.filter_eq_self.2 hall, ih h]

/-! ### Texts -/

/-- A rendering that may go deeper than it needs gives the same text. -/
theorem Linked.renderTo_of_le (h : Linked t) {depth depth' : Nat} (hid : id < t.blocks.size)
    (hdepth : t.blocks.size ≤ id + depth) (hle : depth ≤ depth') :
    t.renderTo depth' id = t.renderTo depth id := by
  obtain ⟨ids, hwalk, -⟩ := h.walks hid hdepth
  obtain ⟨ids', hwalk', -⟩ := h.walks hid (Nat.le_trans hdepth (Nat.add_le_add_left hle id))
  rw [walk_mono hle hwalk] at hwalk'
  exact (congrArg Prod.snd (Option.some.inj hwalk')).symm

/-- The text of a block is that of what it holds, in order. -/
theorem Linked.toList_render (h : Linked t) (hid : id < t.blocks.size) :
    (t.render id).toList = (t.entries id).flatMap t.textOf := by
  obtain ⟨b, hblock⟩ : ∃ b, t.blocks[id]? = some b := ⟨_, Array.getElem?_eq_getElem hid⟩
  obtain ⟨depth, hdepth⟩ : ∃ depth, t.blocks.size = depth + 1 :=
    Nat.exists_eq_succ_of_ne_zero (Nat.ne_of_gt (Nat.zero_lt_of_lt hid))
  rw [render, String.toList_ofList, hdepth, renderTo, hblock, entries, content_of_block hblock]
  refine List.flatMap_congr fun e he => ?_
  cases e with
  | literal text => rfl
  | block c =>
    rw [List.mem_reverse, ← content_of_block hblock] at he
    have hparent := h.child he
    have hlt := h.parent_lt hparent
    show t.renderTo depth c = (t.render c).toList
    rw [render, String.toList_ofList]
    exact (h.renderTo_of_le (lt_size_of_parent? hparent) (by omega) (by omega)).symm

/-- **Slots.**  After every sequence of operations that leaves a block open, let others follow that
never close it.  What the block held up to the last block that it referred to is still there, and is
what it begins with.  It still refers to the same blocks, in the same order, and then to those that have
been opened in it since, in the order in which they were first opened, and to none of them twice.
Its text is put together from its texts and theirs in that order. -/
theorem slots_after (ops later : List Op) (id : Nat) (hopen : (after ops).current = some id)
    (hlater : NeverCloses id (after ops) later) :
    (after ops).settled id <+: (after (ops ++ later)).entries id ∧
    (after (ops ++ later)).slots id = (after ops).slots id ++
      ((openedIn id (after ops) later).removeAll ((after ops).slots id)).eraseDups ∧
    ((after (ops ++ later)).slots id).Nodup ∧
    ((after (ops ++ later)).render id).toList =
      ((after (ops ++ later)).entries id).flatMap (after (ops ++ later)).textOf := by
  have hwell := wellformed_after ops
  have hwell' := wellformed_after (ops ++ later)
  have hisOpen := isOpen_of_current hopen
  have hnodup := eraseDups_of_nodup (slots_nodup hwell.toLinked id)
  have hsettled := settled_runs hwell hisOpen hlater
  have hslots := slots_runs hwell hisOpen hlater hnodup.symm
  rw [List.eraseDups_append, hnodup] at hslots
  rw [← after_append] at hsettled hslots
  refine ⟨hsettled.trans (List.rdropWhile_prefix ..), hslots, slots_nodup hwell'.toLinked id, ?_⟩
  refine hwell'.toLinked.toList_render ?_
  rw [after_append]
  exact Nat.lt_of_lt_of_le (hwell.current_lt hopen) (size_le_runs later _)

/-- A block with two nested ones, a text between them and a blank behind them. -/
def nestedTwice : List Op :=
  [.append "<", .openBlock "p", .openBlock "a", .append "1", .close, .append "b ", .openBlock "c",
    .close, .append " "]

/-- Opening both again and others with them, also deeper, and trimming on the way. -/
def reopening : List Op :=
  [.openBlock "a", .append "2", .openBlock "p", .close, .close, .trim, .openBlock "+c", .trim,
    .append "3", .close, .openBlock "d", .append "4", .openBlock "c", .close, .close, .openBlock "a",
    .append "5", .close, .openBlock "d", .close]

theorem slots_after_reopening :
    (after nestedTwice).current = some 1 ∧ NeverCloses 1 (after nestedTwice) reopening ∧
    [.block 2, .literal "b ", .block 3] <+: (after (nestedTwice ++ reopening)).entries 1 ∧
    (after (nestedTwice ++ reopening)).slots 1 = [2, 3, 5] ∧
    (after (nestedTwice ++ reopening)).renderRoot = "<5b 3" := by
  have hopen : (after nestedTwice).current = some 1 := by decide
  have hnever : NeverCloses 1 (after nestedTwice) reopening := by decide
  obtain ⟨hsettled, hslots, -⟩ := slots_after nestedTwice reopening 1 hopen hnever
  have hbefore : (after nestedTwice).settled 1 = [.block 2, .literal "b ", .block 3] := by decide
  rw [hbefore] at hsettled
  refine ⟨hopen, hnever, hsettled, ?_, by decide⟩
  rw [hslots]
  decide

end Tree

end Stencil.Block
