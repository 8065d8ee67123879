import Mathlib.Data.List.Basic
import Stencil.Sink
import Stencil.Proofs.Script.Started

/-!
# Data that is no map

A script looks its names up in the table of the data, so data without a table is refused before anything of the
script runs, and nothing reaches a sink.  Absent data counts as an empty map.  A list has a table as well, so it
is taken for a map without entries.

* `Run.Raises` : a computation raises a value.
* `Simple` : data that is loaded without a table.
* `Procedure.render_simple` : such data is refused, whatever the template is.
* `Procedure.execute_none` : a script runs without data as it runs with an empty map.
-/

namespace Stencil

open Script
open Text (Bytes bytesOf stringLossy)

namespace Script.Run

variable {α β : Type} {p : Run α} {f : α → Run β} {m m' m'' : Machine} {a : α} {v : Value}

/-- A computation raises a value and leaves a machine. -/
def Raises (p : Run α) (m : Machine) (v : Value) (m' : Machine) : Prop := p.runOn m = (.error (.error v), m')

theorem raises_fail (message : Bytes) (m : Machine) : (fail message : Run α).Raises m (.string message) m := rfl

theorem Gives.raises (h : p.Gives m a m') (h' : (f a).Raises m' v m'') : (p >>= f).Raises m v m'' := by
  rw [Raises, runOn_bind, h]
  exact h'

theorem Raises.bind (h : p.Raises m v m') (f : α → Run β) : (p >>= f).Raises m v m' := by
  rw [Raises, runOn_bind, h]

/-- What is raised is caught, and the calls that it leaves behind are ended. -/
theorem Raises.catching (h : p.Raises m v m') :
    (catching p).Gives m (.error v) { m' with calls := m.calls } := by
  refine gives_get.bind (Gives.bind (show Gives _ _ (.error (.error v)) _ from ?_) (gives_pure _))
  refine (runOn_tryCatch _ _ m).trans ?_
  erw [runOn_bind, h]
  rfl

end Script.Run

/-- Data that is loaded without a table, and that is there. -/
def Data.Value.IsSimple : Data.Value → Prop
  | .bool _ | .int _ | .float _ | .text _ => True
  | .none | .list _ | .map _ => False

/-- The value of a script for simple data. -/
def Data.Value.plain : Data.Value → Script.Value
  | .bool b => .bool b
  | .int n => .number (.int n)
  | .float x => .number (.float x)
  | .text s => .string (bytesOf s)
  | .none | .list _ | .map _ => .nil

/-- What is said of data that is no map. -/
def notMap (kind : String) : String := "expected template data to be a map, found " ++ kind

namespace Procedure

variable {v : Data.Value}

theorem gives_loadSimple (hv : v.IsSimple) (m : Machine) : (load v).Gives m v.plain m := by
  cases v with
  | none => cases hv
  | list items => cases hv
  | map entries => cases hv
  | _ => exact Run.gives_pure _

/-- Simple data has no scope. -/
theorem raises_scope (hv : v.IsSimple) (m : Machine) :
    (scope v.plain).Raises m (.text (notMap v.plain.typeName)) m := by
  cases v with
  | none => cases hv
  | list items => cases hv
  | map entries => cases hv
  | _ => exact Run.raises_fail _ m

/-- **Refusal.**  A script is not run if its data is simple, whatever the script is. -/
theorem raises_execute (hv : v.IsSimple) (fuel : Nat) (body : Script.Block) (options : Data.Value) (m : Machine) :
    ∃ m', (execute fuel body v options).Raises m (.text (notMap v.plain.typeName)) m' ∧ m'.tree = m.tree := by
  obtain ⟨w, m', hoptions, hm⟩ := gives_load options m
  exact ⟨m', hoptions.raises ((gives_loadSimple hv m').raises ((raises_scope hv m').bind _)), hm.tree⟩

/-- The host says what has been raised. -/
theorem gives_raised (text : String) (fuel : Nat) (m : Machine) :
    (raised (fuel + 1) (.text text)).Gives m (.eval ("runtime error: " ++ text) true) m := by
  have htext : ((Evaluator.at (fuel + 1) (fuel + 1)).text (.text text)).Gives m (bytesOf text) m :=
    Run.gives_pure _
  have hsaid : (Native.uncaught (Evaluator.at (fuel + 1) (fuel + 1)).toCallbacks (.text text)).Gives m
      ("runtime error: " ++ stringLossy (bytesOf text)) m :=
    htext.catching.bind (Run.gives_pure _)
  rw [Text.stringLossy_bytesOf] at hsaid
  exact hsaid.bind (Run.gives_pure _)

variable {p : Procedure} {body : Script.Block}

/-- Simple data is refused, whatever the template is. -/
theorem render_simple (hp : parse p.origin p.chunk = .ok body) (hv : v.IsSimple) (options : Data.Value)
    (fuel : Nat) : p.render (fuel + 1) v options =
      .error (.error (.eval ("runtime error: " ++ notMap v.plain.typeName) true)) := by
  obtain ⟨m', hexecute, -⟩ := raises_execute hv (fuel + 1) body options (Machine.start (scriptName p.origin))
  have hfinish : (finish (fuel + 1) body v options).Gives (Machine.start (scriptName p.origin))
      (.error (.eval ("runtime error: " ++ notMap v.plain.typeName) true))
      { m' with calls := (Machine.start (scriptName p.origin)).calls } :=
    hexecute.catching.bind ((gives_raised _ fuel _).bind (Run.gives_pure _))
  have hrun : (finish (fuel + 1) body v options).run (Machine.start (scriptName p.origin)) = _ := hfinish
  simp only [render, hp, hrun]

/-- Without data there is an empty table for it. -/
theorem execute_none (fuel : Nat) (body : Script.Block) (options : Data.Value) :
    execute fuel body .none options = execute fuel body (.map []) options := by
  -- `scope` makes in one case the table that `load` makes in the other
  unfold execute
  rfl

/-- A template renders without data as it does with an empty map. -/
theorem render_none (p : Procedure) (options : Data.Value) (fuel : Nat) :
    p.render fuel .none options = p.render fuel (.map []) options := by
  unfold render finish
  simp only [execute_none]

/-- Rendering into a sink: a template without a result writes nothing. -/
theorem renderTo_of_error {data options : Data.Value} {fuel : Nat} {stop : Stop}
    (h : p.render fuel data options = .error stop) (sink : Sink) :
    p.renderTo fuel data options sink = (.error stop, sink) := by
  rw [renderTo, h]

end Procedure

namespace Engine

open Template

/-- The script of a compiled template can be read. -/
theorem parse_of_compile {turns : Nat} {engine : Engine} {origin : Option String} {source : String} {p : Procedure}
    (h : (engine.compile turns origin source).outcome = .ok p) :
    ∃ body, Procedure.parse p.origin p.chunk = .ok body := by
  unfold compile at h
  dsimp only at h
  split at h
  · cases h
  · split at h
    · cases h
    · rename_i body hbody
      cases h
      exact ⟨body, hbody⟩

/-- **Data that is no map.**  Data that is there and is neither a map nor a list is refused by every template that
compiles, with the kind of the data in the message, and nothing reaches a sink.  Absent data counts as an empty
map. -/
theorem render_refused {turns : Nat} {engine : Engine} {origin : Option String} {source : String} {p : Procedure}
    (h : (engine.compile turns origin source).outcome = .ok p) (options : Data.Value) :
    (∀ v : Data.Value, v ≠ .none → (∀ es, v ≠ .map es) → (∀ items, v ≠ .list items) → ∀ fuel > 0, ∀ sink,
      p.render fuel v options =
          .error (.error (.eval ("runtime error: " ++ notMap v.plain.typeName) true)) ∧
        p.renderTo fuel v options sink =
          (.error (.error (.eval ("runtime error: " ++ notMap v.plain.typeName) true)), sink)) ∧
    ∀ fuel sink, p.render fuel .none options = p.render fuel (.map []) options ∧
      p.renderTo fuel .none options sink = p.renderTo fuel (.map []) options sink := by
  obtain ⟨body, hparse⟩ := parse_of_compile h
  constructor
  · intro v hnone hmap hlist fuel hfuel sink
    have hv : v.IsSimple := by
      cases v with
      | none => exact hnone rfl
      | list items => exact hlist items rfl
      | map es => exact hmap es rfl
      | _ => trivial
    have hrender := Procedure.render_simple hparse hv options (fuel - 1)
    rw [Nat.sub_add_cancel hfuel] at hrender
    exact ⟨hrender, Procedure.renderTo_of_error hrender sink⟩
  · intro fuel sink
    have hrender := p.render_none options fuel
    exact ⟨hrender, by rw [Procedure.renderTo, Procedure.renderTo, hrender]⟩

theorem compile_text :
    (({} : Engine).compile 40 none "text").outcome = .ok ⟨none, chunk [.raw "text"]⟩ := by
  decide +kernel

/-- A template without an expression is not rendered with a number. -/
theorem render_refused_number :
    (({} : Engine).compile 40 none "text").outcome = .ok ⟨none, chunk [.raw "text"]⟩ ∧
      (Procedure.mk none (chunk [.raw "text"])).render 1 (.int 5) Procedure.noOptions = .error (.error
        (.eval "runtime error: expected template data to be a map, found number" true)) := by
  obtain ⟨hrefused, -⟩ := render_refused compile_text Procedure.noOptions
  exact ⟨compile_text, (hrefused (.int 5) (by simp) (by simp) (by simp) 1 Nat.one_pos ⟨none, none, []⟩).1⟩

/-- A list has a table, so a template takes it for a map without entries. -/
theorem render_list :
    (({} : Engine).compile 40 none "text").outcome = .ok ⟨none, chunk [.raw "text"]⟩ ∧
      (Procedure.mk none (chunk [.raw "text"])).render 60 (.list [.int 1, .int 2]) Procedure.noOptions =
        .ok "text" :=
  ⟨compile_text, by decide +kernel⟩

end Engine

end Stencil
