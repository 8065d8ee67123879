import Mathlib.Data.List.DropRight
import Stencil.Proofs.Block.Linked

/-!
# What trimming removes

Trimming goes back over the texts that the open block ends with, one literal after the other: it
empties those that are blank, cuts the first one that is not, and stops there or at a nested block.
Taken together, the texts lose the blanks that they end with and nothing else.

* `Tree.Keeps` : a tree is another one but for what one block holds.
* `Tree.entries_trim` : what becomes of the texts at the end of the open block.
* `Tree.trim_trim` : trimming twice is trimming once.
* `Tree.trim_after` : so trimming changes the end of the open block only, or opens an empty root.
-/

namespace Stencil.Text

theorem trimEnd_trimEnd (s : List Char) : trimEnd (trimEnd s) = trimEnd s :=
  List.rdropWhile_idempotent _ s

/-- The blanks at the end of two texts: those of the second one, and if it is blank, those of the
first one too. -/
theorem trimEnd_append (s s' : List Char) :
    trimEnd (s ++ s') = if trimEnd s' = [] then trimEnd s else s ++ trimEnd s' := by
  simp only [trimEnd, List.reverse_append, List.dropWhile_append, List.isEmpty_iff,
    List.reverse_eq_nil_iff]
  split
  · rfl
  · rw [List.reverse_append, List.reverse_reverse]

end Stencil.Text

namespace Stencil.Block

namespace Entry

/-- Whether an entry is text. -/
def isLiteral : Entry → Bool
  | .literal _ => true
  | .block _ => false

/-- The text of an entry. -/
def text : Entry → List Char
  | .literal text => text.toList
  | .block _ => []

end Entry

namespace Tree

/-- What a block holds, in order. -/
def entries (t : Tree) (id : Id) : List Entry := (t.content id).reverse

/-- A tree is another one, but for what one block holds. -/
structure Keeps (id : Id) (t t' : Tree) : Prop where
  /-- It has the same blocks, … -/
  size : t'.blocks.size = t.blocks.size
  /-- … with the same parents … -/
  parent : ∀ j, t'.parent? j = t.parent? j
  /-- … and the same names. -/
  names : t'.names = t.names
  /-- The same block is the root, … -/
  root : t'.root = t.root
  /-- … and the same block is open. -/
  current : t'.current = t.current
  /-- Every other block holds the same entries. -/
  entries : ∀ j, j ≠ id → t'.entries j = t.entries j

variable {t : Tree} {id : Nat}

theorem keeps_modifyContent (t : Tree) (id : Id) (f : List Entry → List Entry) :
    Keeps id t (t.modifyContent id f) where
  size := size_modifyContent t id f
  parent := parent?_modifyContent t id f
  names := rfl
  root := rfl
  current := rfl
  entries := by
    intro j hj
    unfold Tree.entries
    rw [content_modifyContent, if_neg fun h => hj h.1.symm]

/-! ### One content -/

/-- Texts, of which the latest is the first, are trimmed together; what comes before them stays as
it is if it does not end in a text. -/
theorem trimContent_append {texts before : List Entry} (htexts : ∀ e ∈ texts, e.isLiteral)
    (hbefore : ∀ e ∈ before.head?, e.isLiteral = false) :
    ∃ texts', trimContent (texts ++ before) = texts' ++ before ∧ (∀ e ∈ texts', e.isLiteral) ∧
      texts'.reverse.flatMap Entry.text = Text.trimEnd (texts.reverse.flatMap Entry.text) := by
  induction texts with
  | nil =>
    refine ⟨[], ?_, by simp, rfl⟩
    cases before with
    | nil => rfl
    | cons e before =>
      cases e with
      | literal text => exact absurd (hbefore _ rfl) (by simp [Entry.isLiteral])
      | block c => rfl
  | cons e texts ih =>
    obtain ⟨texts', htrim, hliteral, htext⟩ := ih fun e he => htexts e (List.mem_cons_of_mem _ he)
    have hrest : ∀ e ∈ texts, e.isLiteral := fun e he => htexts e (List.mem_cons_of_mem _ he)
    cases e with
    | block c => exact absurd (htexts _ (List.mem_cons_self ..)) (by simp [Entry.isLiteral])
    | literal text =>
      have hlast : (Entry.literal text :: texts).reverse.flatMap Entry.text =
          texts.reverse.flatMap Entry.text ++ text.toList := by simp [Entry.text]
      rw [hlast, Text.trimEnd_append, List.cons_append, trimContent]
      split
      next hblank =>
        -- a blank text is emptied, and trimming goes on before it
        refine ⟨.literal "" :: texts', by rw [htrim]; rfl, ?_, ?_⟩
        · exact List.forall_mem_cons.2 ⟨rfl, hliteral⟩
        · rw [if_pos hblank, ← htext]
          simp [Entry.text]
      next hkept =>
        refine ⟨.literal (String.ofList (Text.trimEnd text.toList)) :: texts, rfl, ?_, ?_⟩
        · exact List.forall_mem_cons.2 ⟨rfl, hrest⟩
        · rw [if_neg hkept]
          simp [Entry.text]

theorem trimContent_trimContent (content : List Entry) :
    trimContent (trimContent content) = trimContent content := by
  induction content with
  | nil => rfl
  | cons e rest ih =>
    cases e with
    | block c => rfl
    | literal text =>
      rw [trimContent]
      split
      next => exact congrArg (Entry.literal "" :: ·) ih
      next hkept =>
        rw [trimContent, String.toList_ofList, Text.trimEnd_trimEnd]
        split
        next hblank => exact absurd hblank hkept
        next => rfl

/-! ### Trees -/

/-- What trimming makes of the texts that the open block ends with. -/
theorem entries_trim (hopen : t.current = some id) (hlt : id < t.blocks.size)
    {before texts : List Entry} (h : t.entries id = before ++ texts)
    (htexts : ∀ e ∈ texts, e.isLiteral) (hbefore : ∀ e ∈ before.getLast?, e.isLiteral = false) :
    ∃ texts', t.trim.entries id = before ++ texts' ∧ (∀ e ∈ texts', e.isLiteral) ∧
      texts'.flatMap Entry.text = Text.trimEnd (texts.flatMap Entry.text) := by
  have hcontent : t.content id = texts.reverse ++ before.reverse := by
    rw [← List.reverse_append, ← h, entries, List.reverse_reverse]
  have htexts' : ∀ e ∈ texts.reverse, e.isLiteral := by simpa using htexts
  have hbefore' : ∀ e ∈ before.reverse.head?, e.isLiteral = false := by rwa [List.head?_reverse]
  obtain ⟨texts', htrim, hliteral, htext⟩ := trimContent_append htexts' hbefore'
  refine ⟨texts'.reverse, ?_, by simpa using hliteral, ?_⟩
  · rw [entries, trim_eq_of_current hopen, content_modifyContent, if_pos ⟨rfl, hlt⟩, hcontent, htrim]
    simp
  · rw [htext, List.reverse_reverse]

theorem modifyContent_modifyContent (t : Tree) (id : Id) (f g : List Entry → List Entry) :
    (t.modifyContent id f).modifyContent id g = t.modifyContent id fun es => g (f es) := by
  unfold modifyContent
  congr 1
  apply Array.ext_getElem?
  intro j
  simp only [Array.getElem?_modify]
  split
  · rw [Option.map_map]
    rfl
  · rfl

theorem trim_trim (t : Tree) : t.trim.trim = t.trim := by
  have hopen : t.trim.current = some t.ensureOpen.1 := current_ensureOpen t
  rw [trim_eq_of_current hopen, trim_eq, modifyContent_modifyContent]
  simp only [trimContent_trimContent]

/-- A well-formed tree in which nothing is open has nothing at all. -/
theorem Wellformed.eq_empty (h : Wellformed t) (hnone : t.current = none) : t = .empty := by
  have hsize := h.size_eq hnone
  have hids := h.ids_eq
  rw [hsize] at hids
  have hnames : t.names = [] := List.map_eq_nil_iff.1 hids
  have hroot := h.root_eq
  rw [if_pos hsize] at hroot
  obtain ⟨blocks, names, root, current⟩ := t
  obtain rfl : blocks = #[] := Array.eq_empty_of_size_eq_zero hsize
  subst hnames hroot hnone
  rfl

/-- **Trimming.**  After every sequence of operations, let the open block hold some entries that do
not end in a text, and then texts only.  Trimming leaves those entries and all the rest of the tree
as they are, and the texts after them lose the blanks that they end with, all together.  Trimming
again changes nothing.  If nothing is open, trimming opens an empty root, and that is all there is
then. -/
theorem trim_after (ops : List Op) :
    (∀ (id : Nat) (before texts : List Entry), (after ops).current = some id →
      (after ops).entries id = before ++ texts → (∀ e ∈ texts, e.isLiteral) →
      (∀ e ∈ before.getLast?, e.isLiteral = false) →
        Keeps id (after ops) (after ops).trim ∧
        ∃ texts', (after ops).trim.entries id = before ++ texts' ∧ (∀ e ∈ texts', e.isLiteral) ∧
          texts'.flatMap Entry.text = Text.trimEnd (texts.flatMap Entry.text)) ∧
    (after ops).trim.trim = (after ops).trim ∧
    ((after ops).current = none → after ops = .empty ∧
      (after ops).trim = ⟨#[⟨none, []⟩], [((none, rootName), 0)], some 0, some 0⟩) := by
  have hwell := wellformed_after ops
  refine ⟨?_, trim_trim _, ?_⟩
  · intro id before texts hopen hentries htexts hbefore
    refine ⟨?_, entries_trim hopen (hwell.current_lt hopen) hentries htexts hbefore⟩
    rw [trim_eq_of_current hopen]
    exact keeps_modifyContent _ id trimContent
  · intro hnone
    have hempty := hwell.eq_empty hnone
    rw [hempty]
    exact ⟨rfl, rfl⟩

/-- Blank texts behind a nested block, the first of which goes on to a text before an empty one. -/
def nestedThenBlank : List Op :=
  [.append "a ", .openBlock "b", .append "x ", .close, .append "y \n", .append "", .append "\t"]

theorem trim_after_nested :
    (after nestedThenBlank).current = some 0 ∧
    (after nestedThenBlank).entries 0 =
      [.literal "a ", .block 1] ++ [.literal "y \n", .literal "", .literal "\t"] ∧
    Keeps 0 (after nestedThenBlank) (after nestedThenBlank).trim ∧
    ∃ texts', (after nestedThenBlank).trim.entries 0 = [.literal "a ", .block 1] ++ texts' ∧
      (∀ e ∈ texts', e.isLiteral) ∧ texts'.flatMap Entry.text = ['y'] := by
  have hopen : (after nestedThenBlank).current = some 0 := by decide
  have hentries : (after nestedThenBlank).entries 0 =
      [.literal "a ", .block 1] ++ [.literal "y \n", .literal "", .literal "\t"] := by decide
  obtain ⟨hkeeps, texts', htexts', hliteral, htext⟩ :=
    (trim_after nestedThenBlank).1 0 _ _ hopen hentries (by decide) (by decide)
  refine ⟨hopen, hentries, hkeeps, texts', htexts', hliteral, ?_⟩
  rw [htext]
  decide

end Tree

end Stencil.Block
