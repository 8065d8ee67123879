import Stencil.Proofs.Template.Alike
import Stencil.Proofs.Template.Deeds
import Stencil.Proofs.Template.Printed
import Stencil.Proofs.Template.Rendered

/-!
# Plain text

A text in which no tag opens is read as it is, up to a lone brace at its end (`read_plain`).  Its chunk
writes it with one call, which no limit of the script language can refuse (`parse_copying`).  So a
template without tags compiles and is its own output (`render_plain`).
-/

namespace Stencil.Template

open Script
open Stencil.Block (Tree)
open Stencil.Text (Bytes bytesOf)

/-! ### Reading -/

/-- The program that copies a text. -/
def copying (source : String) : Program :=
  if source = "" then .done else .act (.raw source) .done

theorem flatten_copying (source : String) :
    (copying source).flatten = Scan.pending source.toList.reverse := by
  rw [copying]
  split
  next h => rw [h]; rfl
  next h =>
    have hne : source.toList.reverse ≠ [] := by simpa using h
    cases hraw : source.toList.reverse with
    | nil => exact absurd hraw hne
    | cons c raw =>
      rw [Scan.pending, ← hraw, List.reverse_reverse, String.ofList_toList]
      · rfl
      · simp

/-- A text in which no tag opens is one instruction, or none if it is empty. -/
theorem read_plain {source : String} (h : Unmarked source.toList) {turns : Nat}
    (hturns : source.length < turns) (engine : Engine) (origin : Option String) :
    (read turns engine origin source).outcome = .ok (copying source).flatten := by
  let s := Scan.start engine origin source
  have hchain : (source.toList ++ List.take 1 []).IsChain (Scan.Inert none) := by
    rw [List.take_nil, List.append_nil]
    exact h.isChain fun _ ha => by cases ha
  have hwithin : Scan.Within source.toList.length s (s.readText source.toList []) :=
    Scan.within_collect (List.append_nil _).symm rfl hchain (.inr (by simp))
  have htext : s.readText source.toList [] =
      { s with behind := source.toList.reverse, ahead := [], raw := source.toList.reverse } := by
    rw [Scan.readText, Scan.collectAll_eq_raw rfl]
    simp [s, Scan.start]
  have hturn : (s.readText source.toList []).turn = .done (s.readText source.toList []).flushRaw := by
    rw [htext]
    rfl
  have hrun := hwithin.run_eq hturn (fun _ h => by cases h) (by rwa [String.length_toList])
  rw [read, hrun]
  change Except.ok (s.readText source.toList []).flushRaw.instructions = _
  rw [Scan.flushRaw_instructions, htext, flatten_copying]
  rfl

/-! ### Compiling -/

theorem isProper_copying (source : String) : (copying source).IsProper := by
  rw [copying]
  split <;> trivial

theorem free_copying (source : String) : (copying source).free = [] := by
  rw [copying]
  split <;> rfl

/-- The chunk of a text to copy is a script, whatever the text is. -/
theorem parse_copying (source : String) :
    ∃ b, Script.parse (bytesOf (chunk (copying source).flatten)) = .ok b ∧
      Stat.allUnlined b = chunkTree (copying source).tree := by
  -- a text is a template of one deed, which declares nothing
  let ds : List Deed := if source = "" then [] else [.act (.raw source)]
  have hproper : ∀ d ∈ ds, d.IsProper := by
    intro d hd
    obtain ⟨-, rfl⟩ : source ≠ "" ∧ d = .act (.raw source) := by simpa [ds] using hd
    trivial
  have hroom : ds.countP Deed.declares = 0 := by
    simp only [ds]
    split <;> rfl
  have hflatten : (copying source).flatten = ds.map Deed.instr := by
    simp only [ds, copying]
    split <;> rfl
  have htree : (copying source).tree = ds.map Deed.stat := by
    simp only [ds, copying]
    split <;> rfl
  rw [hflatten, htree]
  exact parse_deeds hproper (by omega)

/-! ### Rendering -/

/-- What copies a text has it as its output. -/
theorem output_copying (source : String) (names : String → Scalar) :
    (copying source).output names = source := by
  rw [Program.output, copying]
  split
  next h =>
    rw [h]
    rfl
  next h =>
    have htext : (Program.run (.act (.raw source) .done) names
        (Tree.empty.openBlock Block.rootName).2).renderRoot = String.ofList (source.toList ++ []) := rfl
    rw [htext, List.append_nil, String.ofList_toList]

/-- A name without a NUL can be the name of a script. -/
theorem checkName_ok {origin : Option String} (h : ∀ name ∈ origin, 0 ∉ bytesOf name) :
    Procedure.checkName origin = .ok () := by
  have hnone : (bytesOf (origin.getD Procedure.anonymous)).findIdx? (· == 0) = none := by
    rw [List.findIdx?_eq_none_iff]
    intro b hb
    cases origin with
    | none => revert b; decide +kernel
    | some name => simpa using fun hzero : b = 0 => h name rfl (hzero ▸ hb)
  rw [Procedure.checkName, hnone]

/-- **Plain text.**  A text in which no tag opens compiles under any name without a NUL, and rendering it
with a map or without data gives the text, whatever the options are. -/
theorem render_plain {source : String} (hsource : Unmarked source.toList) {origin : Option String}
    (horigin : ∀ name ∈ origin, 0 ∉ bytesOf name) {data : Data.Value}
    (hdata : data = .none ∨ ∃ es, data = .map es) (engine : Engine) (options : Data.Value) :
    ∃ p, (∀ turns > source.length, (engine.compile turns origin source).outcome = .ok p) ∧
      ∃ n, ∀ fuel ≥ n, p.render fuel data options = .ok source := by
  obtain ⟨b, hparse, hb⟩ := parse_copying source
  have hchunk : Procedure.parse origin (chunk (copying source).flatten) = .ok b := by
    rw [Procedure.parse, checkName_ok horigin]
    simp only [hparse]
    rfl
  obtain ⟨es, hes⟩ : ∃ es, entries? data = some es := by
    rcases hdata with rfl | ⟨es, rfl⟩
    · exact ⟨[], rfl⟩
    · exact ⟨es, rfl⟩
  refine ⟨⟨origin, chunk (copying source).flatten⟩, fun turns hturns => ?_, ?_⟩
  · simp only [Engine.compile, read_plain hsource hturns engine origin, hchunk]
  · have hnames : ∀ x ∈ (copying source).free, es.lookup x = some (Scalar.text "").data := by
      rw [free_copying]
      exact fun x hx => absurd hx List.not_mem_nil
    have hrender := render_program (isProper_copying source) hes hnames
      ⟨origin, chunk (copying source).flatten⟩ hchunk hb options
    rwa [output_copying] at hrender

/-- Quotes, backslashes, brackets and braces that are no tags. -/
theorem render_plain_marks :
    ∃ p, (∀ turns > "\x7b %\x7d \"\\]]--\x7b".length,
        (({} : Engine).compile turns (some "a.txt") "\x7b %\x7d \"\\]]--\x7b").outcome = .ok p) ∧
      ∃ n, ∀ fuel ≥ n, p.render fuel (.map [("x", .int 1)]) (.bool true) =
        .ok "\x7b %\x7d \"\\]]--\x7b" := by
  have horigin : ∀ name ∈ some "a.txt", 0 ∉ bytesOf name := by
    intro name hname
    rw [← Option.some.inj hname]
    decide +kernel
  exact render_plain (by decide) horigin (.inr ⟨_, rfl⟩) {} (.bool true)

end Stencil.Template
