import Mathlib.Data.List.DropRight
import Stencil.Proofs.Block.Linked
import Stencil.Proofs.Template.Instructions
import Stencil.Proofs.Template.Splices
import Stencil.Proofs.Template.Verbatim

/-!
# Names of blocks

A block tag without a name is refused, and what it is opened by has no blanks at its ends.  Both are
said of the name as it is written, with its sign; the sign is split off later, by the block tree.
So a name is what it should be unless its sign stands apart from it.

* `Text.trim_eq_self_iff` : a text is trimmed if neither end of it is blank.
* `SignApart` : the names that become empty, or padded, without their sign.
* `openBlock_of_read` : the names that a template opens blocks by, the tags that are refused, and
  the blocks that a name stands for with its sign and without it.
-/

namespace Stencil.Text

theorem trimStart_eq_self_iff {s : List Char} :
    trimStart s = s ↔ ∀ c ∈ s.head?, isBlank c = false := by
  cases s with
  | nil => simp [trimStart]
  | cons c s =>
    rw [trimStart, List.dropWhile_eq_self_iff]
    simp

theorem trimEnd_eq_self_iff {s : List Char} :
    trimEnd s = s ↔ ∀ c ∈ s.getLast?, isBlank c = false := by
  rw [trimEnd, ← List.head?_reverse, ← trimStart_eq_self_iff, trimStart]
  exact List.reverse_eq_iff

theorem trimEnd_isPrefix (s : List Char) : trimEnd s <+: s := List.rdropWhile_prefix isBlank s

/-- A text is trimmed if neither its first nor its last character is blank. -/
theorem trim_eq_self_iff {s : List Char} :
    trim s = s ↔ (∀ c ∈ s.head?, isBlank c = false) ∧ ∀ c ∈ s.getLast?, isBlank c = false := by
  rw [← trimStart_eq_self_iff, ← trimEnd_eq_self_iff]
  constructor
  · intro h
    -- a text that is missing nothing at the end is missing nothing at the start
    have hlength : s.length ≤ (trimStart s).length := by
      have hle := (trimEnd_isPrefix (trimStart s)).length_le
      rwa [← trim, h] at hle
    have hstart : trimStart s = s := (List.dropWhile_suffix _).eq_of_length_le hlength
    rw [trim, hstart] at h
    exact ⟨hstart, h⟩
  · rintro ⟨hstart, hend⟩
    rw [trim, hstart, hend]

/-- Trimming leaves nothing to trim. -/
theorem trim_trim (s : List Char) : trim (trim s) = trim s := by
  have hend : trimEnd (trim s) = trim s := List.rdropWhile_idempotent isBlank (trimStart s)
  have hstart : trimStart (trimStart s) = trimStart s := List.dropWhile_idempotent isBlank s
  refine trim_eq_self_iff.2 ⟨fun c hc => ?_, trimEnd_eq_self_iff.1 hend⟩
  -- what is left once the end has been trimmed starts as it did before
  obtain ⟨rest, hrest⟩ := trimEnd_isPrefix (trimStart s)
  refine trimStart_eq_self_iff.1 hstart c ?_
  rw [← hrest, List.head?_append, ← trim, Option.mem_def.1 hc]
  rfl

end Stencil.Text

namespace Stencil.Template

open Scan
open Block (Tree keepSign)

/-! ### Signs -/

/-- The sign of a name stands apart: nothing follows it, or a blank. -/
def SignApart (name : String) : Prop :=
  ∃ rest, name.toList = keepSign :: rest ∧ ∀ c ∈ rest.head?, Text.isBlank c

/-- What is left of a name without its sign. -/
theorem splitSign_cases (name : String) :
    (∃ rest, name.toList = keepSign :: rest ∧ Tree.splitSign name = (true, String.ofList rest)) ∨
      name.toList.head? ≠ some keepSign ∧ Tree.splitSign name = (false, name) := by
  unfold Tree.splitSign
  split
  next c rest hname =>
    split
    next hsign => exact .inl ⟨rest, by rw [hname, hsign], rfl⟩
    next hsign => exact .inr ⟨by simpa [hname] using hsign, rfl⟩
  next hname => exact .inr ⟨by simp [hname], rfl⟩

/-- A name without blanks at its ends stays like that without its sign, and does not become empty,
unless its sign stands apart. -/
theorem bare_iff {name : String} (hne : name ≠ "") (htrim : Text.trim name.toList = name.toList) :
    (Tree.splitSign name).2 ≠ "" ∧
        Text.trim (Tree.splitSign name).2.toList = (Tree.splitSign name).2.toList ↔
      ¬ SignApart name := by
  have hends := Text.trim_eq_self_iff.1 htrim
  rcases splitSign_cases name with ⟨rest, hname, hsplit⟩ | ⟨hsign, hsplit⟩
  · rw [hsplit, String.toList_ofList, Text.trim_eq_self_iff]
    constructor
    · rintro ⟨hrest, hhead, -⟩ ⟨rest', hname', hblank⟩
      obtain ⟨-, rfl⟩ := List.cons.inj (hname.symm.trans hname')
      cases rest with
      | nil => exact hrest rfl
      | cons c rest =>
        have := hhead c rfl
        rw [hblank c rfl] at this
        cases this
    · intro hapart
      cases rest with
      | nil => exact absurd ⟨[], hname, by simp⟩ hapart
      | cons c rest =>
        have hc : Text.isBlank c = false := by
          by_contra hblank
          exact hapart ⟨c :: rest, hname, by simpa using hblank⟩
        refine ⟨by simp [← String.toList_inj], by simpa using hc, ?_⟩
        -- the end is that of the whole name
        have hlast := hends.2
        rwa [hname, List.getLast?_cons_cons] at hlast
  · rw [hsplit]
    refine ⟨fun _ hapart => ?_, fun _ => ⟨hne, htrim⟩⟩
    obtain ⟨rest, hname, -⟩ := hapart
    exact hsign (by rw [hname]; rfl)

theorem splitSign_sign (name : String) : Tree.splitSign ("+" ++ name) = (true, name) := by
  have hname : ("+" ++ name).toList = keepSign :: name.toList := by simp [keepSign]
  simp [Tree.splitSign, hname]

theorem splitSign_of_ne {name : String} (h : name.toList.head? ≠ some keepSign) :
    Tree.splitSign name = (false, name) := by
  rcases splitSign_cases name with ⟨rest, hname, -⟩ | ⟨-, hsplit⟩
  · exact absurd (by rw [hname]; rfl) h
  · exact hsplit

/-- What can stand in a block tag can stand there with a sign. -/
theorem embeds_sign {name : String} (h : Embeds '%' name) (hne : name ≠ "") :
    Embeds '%' ("+" ++ name) := by
  obtain ⟨hun, hclose, htrim⟩ := h
  have hname : ("+" ++ name).toList = '+' :: name.toList := by simp
  unfold Embeds
  rw [hname]
  refine ⟨?_, ?_, ?_⟩
  · rw [unmarked_iff, List.isChain_cons]
    exact ⟨fun d _ => opens_eq_false (by decide) d, unmarked_iff.1 hun⟩
  · rw [List.infix_cons_iff]
    rintro (hstart | hmid)
    · exact absurd (List.cons_prefix_cons.1 hstart).1 (by decide)
    · exact hclose hmid
  · rw [Text.trim_eq_self_iff] at htrim ⊢
    refine ⟨by simpa using (show Text.isBlank '+' = false by decide), ?_⟩
    obtain ⟨c, rest, hrest⟩ := List.exists_cons_of_ne_nil (mt String.toList_eq_nil_iff.1 hne)
    rw [hrest, List.getLast?_cons_cons, ← hrest]
    exact htrim.2

/-- A name stands for the same block with its sign and without it. -/
theorem openBlock_congr (t : Tree) {name name' : String}
    (h : (Tree.splitSign name).2 = (Tree.splitSign name').2) :
    (t.openBlock name).1 = (t.openBlock name').1 := by
  rw [Tree.openBlock_eq, Tree.openBlock_eq, h]

/-! ### Tags -/

/-- What opens a block is what has been collected in a tag, trimmed, and it is not empty. -/
theorem Instr.Made.block {name : String} (h : (Instr.openBlock name).Made) :
    name ≠ "" ∧ Text.trim name.toList = name.toList := by
  cases h with
  | @tag scope text _ hinstr =>
    cases scope with
    | blockName =>
      simp only [Scope.instr?] at hinstr
      split at hinstr
      · cases hinstr
      next hempty =>
        obtain rfl := Instr.openBlock.inj (Option.some.inj hinstr)
        refine ⟨fun hnil => hempty (by rw [hnil]; rfl), ?_⟩
        rw [String.toList_ofList, Text.trim_trim]
    | ending tag => cases tag <;> cases hinstr
    | tagName => cases hinstr
    | header _ => cases hinstr
    | echoed => cases hinstr
    | statement => cases hinstr
    | includePath => cases hinstr

namespace Scan

variable {s : Scan} {t t' : OpenTag} {ts : List OpenTag}

theorem scope_of_told_block (h : t.told? = some t') (hscope : t'.scope = .blockName) :
    t.scope = .tagName ∨ t.scope = .blockName := by
  rcases OpenTag.told?_cases h with hname | rfl
  · exact .inl hname
  · exact .inr hscope

/-- The end of a block tag without a name is refused, with its closing mark and without it. -/
theorem turn_nameless (hs : Sound s) (ht : s.tags = t :: ts) (h : t.told? = some t')
    (hscope : t'.scope = .blockName) (hempty : Text.trim t'.text.reverse = [])
    (hend : ['%', '\x7d'] <+: s.ahead ∨ s.ahead = [] ∧ t.text ≠ []) :
    ∃ place s₁, s.turn = .fault .expectedBlockName place s₁ := by
  have hrefused (s : Scan) : s.closeTag t' ts =
      .fault .expectedBlockName (({ s with tags := ts }).sinceTag t') { s with tags := ts } :=
    closeTag_unnamed hscope (by rw [hempty]; rfl)
  rcases hend with ⟨rest, ha⟩ | ⟨ha, htext⟩
  · have hcl : closer? (some t.scope) = some '%' := by
      rcases scope_of_told_block h hscope with hsc | hsc <;> rw [hsc] <;> rfl
    rw [turn_percent_told (hs.raw_nil ht) ha.symm ht hcl h, hrefused]
    exact ⟨_, _, rfl⟩
  · rw [turn_nil_told (hs.raw_nil ht) ha ht (.inl htext) h, hrefused]
    exact ⟨_, _, rfl⟩

/-- A block tag in which nothing has been collected is forgotten at the end of a template. -/
theorem turn_forgotten (ht : s.tags = t :: ts) (h : t.told? = some t')
    (hscope : t'.scope = .blockName) (ha : s.ahead = []) (htext : t.text = []) :
    s.turn = .done s := by
  have hending : t.scope.isEnding = false := by
    rcases scope_of_told_block h hscope with hsc | hsc <;> rw [hsc] <;> rfl
  rw [turn, ha]
  show s.flush = _
  simp [flush, ht, htext, hending]

end Scan

/-! ### Reading -/

variable (engine : Engine) (origin : Option String)

/-- **Names of blocks.**  No template opens a block by an empty name, or by one with blanks at its
ends, and without its sign a name is still like that, unless the sign stands apart from it.  A block
tag in which no name has been collected is refused where it ends; one that is not even begun is
forgotten at the end of the template.  A name whose sign does not stand apart can be written with
the sign and without it, and stands for the same block of the block that is open. -/
theorem openBlock_of_read :
    (∀ source is name, Reads engine origin source (.ok is) → .openBlock name ∈ is →
      name ≠ "" ∧ Text.trim name.toList = name.toList ∧
      ((Tree.splitSign name).2 ≠ "" ∧
          Text.trim (Tree.splitSign name).2.toList = (Tree.splitSign name).2.toList ↔
        ¬ SignApart name)) ∧
    (∀ source s t ts t', Reaches (.start engine origin source) s → s.tags = t :: ts →
      t.told? = some t' → t'.scope = .blockName → Text.trim t'.text.reverse = [] →
      (['%', '\x7d'] <+: s.ahead ∨ s.ahead = [] ∧ t.text ≠ [] →
        ∃ place, Reads engine origin source (.error (.tag .expectedBlockName place))) ∧
      (s.ahead = [] ∧ t.text = [] → Reads engine origin source (.ok s.instructions))) ∧
    ∀ name, name ≠ "" → Embeds '%' name → name.toList.head? ≠ some keepSign →
      Reads engine origin ("\x7b% block " ++ name ++ " %\x7d") (.ok [.openBlock name]) ∧
      Reads engine origin ("\x7b% block +" ++ name ++ " %\x7d") (.ok [.openBlock ("+" ++ name)]) ∧
      ∀ t : Tree, (t.openBlock name).1 = (t.openBlock ("+" ++ name)).1 := by
  refine ⟨fun source is name hreads hname => ?_, ?_, fun name hne hembeds hsign => ?_⟩
  · obtain ⟨n, hn⟩ := hreads
    obtain ⟨hne, htrim⟩ := (made_of_read (hn n (Nat.le_refl n)) _ hname).block
    exact ⟨hne, htrim, bare_iff hne htrim⟩
  · intro source s t ts t' hreach ht htold hscope hempty
    refine ⟨fun hend => ?_, fun ⟨ha, htext⟩ => ?_⟩
    · obtain ⟨place, s₁, hturn⟩ :=
        turn_nameless (sound_of_reaches hreach) ht htold hscope hempty hend
      exact ⟨place, reads_of_turn_fault hreach hturn⟩
    · exact reads_of_turn_done hreach (turn_forgotten ht htold hscope ha htext)
  · refine ⟨reads_tag (i := .openBlock name) ⟨hne, hembeds⟩ rfl ?_,
      reads_tag (i := .openBlock ("+" ++ name)) ⟨?_, embeds_sign hembeds hne⟩ rfl ?_, fun t => ?_⟩
    · simp [Instr.written, tagSource, padded, dashed]
    · simp
    · simp [Instr.written, tagSource, padded, dashed]
    · exact openBlock_congr t (by rw [splitSign_of_ne hsign, splitSign_sign])

/-- A name of two words after its sign, and a block tag that holds blanks only. -/
theorem openBlock_of_read_words :
    let bare := (Tree.splitSign "+side bar").2
    bare ≠ "" ∧ Text.trim bare.toList = bare.toList ∧
    (∀ t : Tree, (t.openBlock "side bar").1 = (t.openBlock "+side bar").1) ∧
    ∃ place, Reads {} none "\x7b% block  %\x7d" (.error (.tag .expectedBlockName place)) := by
  have hname : "side bar" ≠ "" ∧ Embeds '%' "side bar" ∧
      "side bar".toList.head? ≠ some keepSign := by decide
  obtain ⟨-, hreads, hsame⟩ :=
    (openBlock_of_read {} none).2.2 "side bar" hname.1 hname.2.1 hname.2.2
  obtain ⟨-, -, hbare⟩ := (openBlock_of_read {} none).1 _ _ _ hreads (List.mem_singleton.2 rfl)
  have happ : ¬ SignApart ("+" ++ "side bar") := by
    rintro ⟨rest, hname, hblank⟩
    obtain ⟨-, rfl⟩ := List.cons.inj hname
    exact absurd (hblank 's' rfl) (by decide)
  have hrefused := (openBlock_of_read {} none).2.1 "\x7b% block  %\x7d" _ _ _ _
    ⟨9, takes_of_after rfl⟩ rfl rfl rfl (by decide)
  exact ⟨(hbare.2 happ).1, (hbare.2 happ).2, hsame, hrefused.1 (.inl (by decide))⟩

/-- A sign without a name opens a block all the same, and so does a name apart from its sign, which
is not the block of that name. -/
theorem reads_lone_sign :
    Reads {} none "\x7b% block + %\x7d\x7b% endblock %\x7d" (.ok [.openBlock "+", .closeBlock]) ∧
    (Tree.splitSign "+").2 = "" ∧
    Reads {} none "\x7b% block + a %\x7d\x7b% endblock %\x7d" (.ok [.openBlock "+ a", .closeBlock]) ∧
    Text.trim (Tree.splitSign "+ a").2.toList ≠ (Tree.splitSign "+ a").2.toList ∧
    let t := ((Tree.empty.openBlock "root").2.openBlock "a").2.close
    (t.openBlock "a").1 ≠ (t.openBlock "+ a").1 := by
  have hlone : (read 40 {} none "\x7b% block + %\x7d\x7b% endblock %\x7d").outcome =
      .ok [.openBlock "+", .closeBlock] := by decide
  have hapart : (read 40 {} none "\x7b% block + a %\x7d\x7b% endblock %\x7d").outcome =
      .ok [.openBlock "+ a", .closeBlock] := by decide
  exact ⟨reads_of_read hlone, by decide, reads_of_read hapart, by decide, by decide⟩

end Stencil.Template
