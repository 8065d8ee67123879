import Stencil.Proofs.Template.Acts
import Stencil.Proofs.Template.Finite

/-!
# What a scan adds

A scan never takes back an instruction, and it adds three kinds of them only: text outside of tags,
trim marks, and what a tag with a text stands for.

* `Instr.Made` : these kinds.
* `Scan.Adds s s₁` : `s₁` has the instructions of `s`, and such ones after them.
* `Scan.Act.adds`, `Scan.Takes.adds` : a turn adds instructions like that, and so does a run.
* `made_of_read` : so all instructions of a template are of these kinds.
-/

namespace Stencil.Template

/-- The instructions that come of a template. -/
inductive Instr.Made : Instr → Prop
  /-- Text outside of tags. -/
  | raw (text : String) : Made (.raw text)
  /-- A trim mark. -/
  | trim : Made .trim
  /-- A tag that stands for an instruction, with what has been collected in it. -/
  | tag {scope : Scope} (text : List Char) {i : Instr}
      (h : scope.instr? (String.ofList (Text.trim text)) = some i) : Made i

namespace Scan

/-- One scan has added instructions to those of another one. -/
def Adds (s s₁ : Scan) : Prop := ∃ new, s₁.instrs = new ++ s.instrs ∧ ∀ i ∈ new, i.Made

variable {s s₁ s₂ : Scan} {t : OpenTag} {ts : List OpenTag} {n : Nat}

namespace Adds

/-- Two scans with the same instructions. -/
theorem still (h : s₁.instrs = s.instrs) : Adds s s₁ := ⟨[], h, by simp⟩

theorem refl (s : Scan) : Adds s s := .still rfl

theorem trans (h : Adds s s₁) (h' : Adds s₁ s₂) : Adds s s₂ := by
  obtain ⟨new, hinstrs, hmade⟩ := h
  obtain ⟨new', hinstrs', hmade'⟩ := h'
  refine ⟨new' ++ new, by rw [hinstrs', hinstrs, List.append_assoc], fun i hi => ?_⟩
  exact (List.mem_append.1 hi).elim (hmade' i) (hmade i)

/-- One instruction more. -/
theorem one {i : Instr} (h : s₁.instrs = i :: s.instrs) (hi : i.Made) : Adds s s₁ := by
  refine ⟨[i], h, fun j hj => ?_⟩
  rwa [List.mem_singleton.1 hj]

/-- Instructions are never taken back. -/
theorem length_le (h : Adds s s₁) : s.instrs.length ≤ s₁.instrs.length := by
  obtain ⟨new, hinstrs, -⟩ := h
  rw [hinstrs, List.length_append]
  exact Nat.le_add_left _ _

end Adds

/-! ### Functions of a turn -/

theorem adds_advance (s : Scan) (n : Nat) : Adds s (s.advance n) := by
  rw [advance_eq]
  exact .still rfl

theorem adds_flushRaw (s : Scan) : Adds s s.flushRaw := by
  unfold flushRaw
  split
  · exact .refl s
  · exact .one rfl (.raw _)

theorem adds_openTag (s : Scan) (scope : Scope) (before : List Char) :
    Adds s (s.openTag scope before) := by
  unfold openTag
  split
  · exact s.adds_flushRaw.trans (.still rfl)
  · exact .still rfl

theorem adds_readText (s : Scan) (text rest : List Char) : Adds s (s.readText text rest) := by
  set s₁ : Scan := { s with behind := text.reverse ++ s.behind, ahead := rest } with hs₁
  cases ht : s₁.tags with
  | nil =>
    rw [readText, collectAll_eq_raw ht]
    exact .still rfl
  | cons t ts =>
    rw [readText, collectAll_eq_tag ht]
    exact .still rfl

theorem adds_splice (s : Scan) (t : OpenTag) (path : String) : Adds s (s.splice t path).scan := by
  unfold splice
  split
  split <;> exact .still rfl

/-- The end of a tag adds what the tag stands for, or nothing. -/
theorem adds_closeTag (s : Scan) (t : OpenTag) (ts : List OpenTag) :
    Adds s (s.closeTag t ts).scan := by
  cases hinstr : t.scope.instr? (String.ofList (Text.trim t.text.reverse)) with
  | some i =>
    rw [closeTag_eq_emit hinstr]
    exact .one rfl (.tag _ hinstr)
  | none =>
    rcases Scope.instr?_eq_none hinstr with hscope | ⟨hscope, hempty⟩ | hscope
    · rw [closeTag_include hscope]
      have htail : Adds s { s with tags := ts } := .still rfl
      exact htail.trans (adds_splice _ t _)
    · rw [closeTag_unnamed hscope hempty]
      exact .still rfl
    · rw [closeTag_untold hscope]
      exact .still rfl

theorem adds_nameTag (s : Scan) (t : OpenTag) (ts : List OpenTag) (upTo : List Char) :
    Adds s (s.nameTag t ts upTo).scan := by
  have htail : Adds s { s with tags := ts } := .still rfl
  simp only [nameTag]
  split
  · exact htail.trans (adds_openTag _ _ _)
  · exact htail

theorem adds_endTag (s : Scan) (t : OpenTag) (ts : List OpenTag) (upTo : List Char) :
    Adds s (s.endTag t ts upTo).scan := by
  unfold endTag
  split
  · have hnamed := s.adds_nameTag t ts upTo
    cases hmore : s.nameTag t ts upTo with
    | more s₂ =>
      rw [hmore] at hnamed
      simp only
      split
      · exact hnamed
      · exact hnamed.trans (adds_closeTag s₂ _ _)
    | done s₂ => rw [hmore] at hnamed; exact hnamed
    | fault f place s₂ => rw [hmore] at hnamed; exact hnamed
  · exact s.adds_closeTag t ts

/-! ### Turns -/

/-- Each act adds instructions to those that are there. -/
theorem Act.adds {p : Progress} (h : Act s p) : Adds s p.scan := by
  cases h with
  | read => exact s.adds_readText _ _
  | skipped => exact s.adds_advance 1
  | @opened scope mark dash rest =>
    have hopen := s.adds_openTag scope s.behind
    cases dash with
    | false => exact hopen.trans (.still rfl)
    | true => exact hopen.trans (.one rfl .trim)
  | @named _ _ t ts scope =>
    have htail : Adds s { s with tags := ts } := .still rfl
    exact (htail.trans (adds_openTag _ scope t.before)).trans (adds_advance _ 1)
  | unnamed => exact .still rfl
  | @closed _ _ t ts _ _ _ _ hp =>
    rw [← hp]
    exact (s.adds_advance 2).trans (adds_endTag _ t ts s.behind)
  | refused => exact .refl s
  | finished => exact s.adds_flushRaw
  | abandoned => exact .refl s
  -- at the end of a template the innermost tag is closed by that
  | @ended t ts _ _ _ _ hp =>
    have hend := s.adds_endTag t ts s.behind
    rwa [hp] at hend
  | @resumed t ts _ _ _ _ hp =>
    have hend := s.adds_endTag t ts s.behind
    rwa [hp] at hend
  | @failed t ts _ _ _ _ _ _ hp =>
    have hend := s.adds_endTag t ts s.behind
    rwa [hp] at hend

/-- A run adds instructions, turn by turn. -/
theorem Takes.adds (h : Takes n s s₁) : Adds s s₁ := by
  induction h with
  | refl s => exact .refl s
  | @turn n s s₁ s₂ ht _ ih =>
    have hturn := (turn_act s).adds
    rw [ht] at hturn
    exact hturn.trans ih

end Scan

open Scan

/-- All instructions of a template are text outside of tags, trim marks, and what its tags stand
for. -/
theorem made_of_read {turns : Nat} {engine : Engine} {origin : Option String} {source : String}
    {is : List Instr} (h : (read turns engine origin source).outcome = .ok is) :
    ∀ i ∈ is, i.Made := by
  rw [read] at h
  split at h
  next s hrun =>
    obtain ⟨n, s', htakes, hlast, -⟩ := exists_last hrun
    have hturn := (turn_act s').adds
    rw [hlast] at hturn
    obtain ⟨new, hinstrs, hmade⟩ := htakes.adds.trans hturn
    obtain rfl := Except.ok.inj h
    intro i hi
    refine hmade i ?_
    -- the scan has started without instructions
    rw [Progress.scan, show (start engine origin source).instrs = [] from rfl,
      List.append_nil] at hinstrs
    rw [← hinstrs]
    exact List.mem_reverse.1 hi
  all_goals cases h

end Stencil.Template
