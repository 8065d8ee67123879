import Stencil.Proofs.Include.History
import Stencil.Proofs.Include.Lookup
import Stencil.Proofs.Output.Arguments

/-!
# Requests for several templates

A request for several templates is served as so many requests for one of them would be, one after the other up to
the first that fails.  Nothing passes from one template to the next but the standard input, which whoever reads it
first uses up: the engine is the same after a template as before, as it looks for includes in files only.

* `Command.runAll_cons` : the first template is served as on its own.
* `Command.runAll_eq` : so is every one.
* `Command.run_request` : what the command prints and how it ends.
-/

namespace Stencil.Command

open Include (Disk)
open Text (Bytes bytesOf)

variable {budget : Budget} {engine : Engine} {disk : Disk} {r : Request} {stdin input : Bytes}
  {output path text : String} {events : List Event} {data : Option Data.Value} {value : Data.Value}

/-! ### Data -/

/-- The data that a request is served with: what its file holds, or an empty map. -/
def Request.HasData (r : Request) (disk : Disk) (value : Data.Value) : Prop :=
  match r.data with
  | none => value = .map []
  | some path => ∃ text, disk.read path = .ok text ∧ Data.Json.read (bytesOf text) = .ok value

theorem dataOf_eq_ok_iff : dataOf disk r.data = .ok value ↔ r.HasData disk value := by
  unfold dataOf Request.HasData
  cases r.data with
  | none => exact ⟨fun h => (Except.ok.inj h).symm, fun h => congrArg Except.ok h.symm⟩
  | some path =>
    dsimp only
    cases disk.read path with
    | error fault => simp
    | ok text =>
      dsimp only
      cases hread : Data.Json.read (bytesOf text) <;> simp [hread]

/-- A request whose data cannot be had prints nothing. -/
theorem perform_of_no_data (h : ¬ ∃ value, r.HasData disk value) :
    (perform budget disk stdin r).output = "" ∧ (perform budget disk stdin r).ending.code = 1 := by
  rw [perform]
  cases hdata : dataOf disk r.data with
  | error report => exact ⟨rfl, rfl⟩
  | ok value => exact absurd ⟨value, dataOf_eq_ok_iff.1 hdata⟩ h

/-- The data that templates are rendered with, if they are to be rendered. -/
def Request.rendering (r : Request) (value : Data.Value) : Option Data.Value :=
  if r.render || r.data.isSome then some value else none

theorem printed_rendering {fuel : Nat} {p : Procedure} : printed fuel (r.rendering value) p = .ok text ↔
    if r.render || r.data.isSome then p.render fuel value Procedure.noOptions = .ok text else p.chunk = text := by
  rw [Request.rendering]
  split
  · exact Iff.rfl
  · exact ⟨Except.ok.inj, congrArg Except.ok⟩

theorem perform_of_data (h : r.HasData disk value) : perform budget disk stdin r =
    runAll budget (Engine.new disk) (r.rendering value) stdin "" [] r.templates := by
  rw [perform, dataOf_eq_ok_iff.2 h]
  rfl

/-! ### One template after the other -/

/-- The standard input that is left when a path has been taken. -/
def inputAfter (path : String) (stdin : Bytes) : Bytes := if path = "-" then [] else stdin

/-- The standard input that a path in a list gets: the first one that names it uses it up. -/
def inputAt (stdin : Bytes) (paths : List String) (i : Nat) : Bytes :=
  if "-" ∈ paths.take i then [] else stdin

/-- What each of some templates comes to on its own, with the standard input that is left for it. -/
def shares (serve : Bytes → String → Result) (stdin : Bytes) (paths : List String) : List Result :=
  paths.mapIdx fun i path => serve (inputAt stdin paths i) path

theorem inputAt_zero (stdin : Bytes) (paths : List String) : inputAt stdin paths 0 = stdin := by
  simp [inputAt]

theorem inputAt_succ (stdin : Bytes) (path : String) (paths : List String) (i : Nat) :
    inputAt stdin (path :: paths) (i + 1) = inputAt (inputAfter path stdin) paths i := by
  unfold inputAt inputAfter
  by_cases hpath : path = "-"
  · simp [hpath]
  · simp [hpath, Ne.symm hpath]

theorem shares_cons (serve : Bytes → String → Result) (stdin : Bytes) (path : String) (paths : List String) :
    shares serve stdin (path :: paths) = serve stdin path :: shares serve (inputAfter path stdin) paths := by
  rw [shares, List.mapIdx_cons, inputAt_zero]
  simp only [inputAt_succ]
  rfl

theorem shares_congr {serve serve' : Bytes → String → Result} {paths : List String}
    (h : ∀ path ∈ paths, ∀ input, serve input path = serve' input path) (stdin : Bytes) :
    shares serve stdin paths = shares serve' stdin paths := by
  induction paths generalizing stdin with
  | nil => rfl
  | cons path paths ih =>
    rw [shares_cons, shares_cons, h path List.mem_cons_self,
      ih fun path' hmem => h path' (List.mem_cons_of_mem _ hmem)]

/-- Compiling leaves an engine that has nothing but files as it is. -/
theorem compile_engine (hfiles : engine.OnlyFiles) {turns : Nat} {compiled : Template.Traced Procedure}
    (h : compile turns engine stdin path = .ok compiled) : compiled.engine = engine := by
  rw [compile] at h
  split at h
  · split at h
    · cases h
      exact (Engine.compile_engine ..).trans (hfiles.askAll_eq _)
    · cases h
  · cases h
    exact (Engine.compileFile_engine ..).trans (hfiles.askAll_eq _)

/-- What a template comes to on its own. -/
def alone (budget : Budget) (engine : Engine) (data : Option Data.Value) (input : Bytes) (path : String) : Result :=
  runAll budget engine data input "" [] [path]

/-- **Step.**  The first of several templates is served as on its own; if it fails, that is the end. -/
theorem runAll_cons (hfiles : engine.OnlyFiles) (path : String) (rest : List String) :
    runAll budget engine data stdin output events (path :: rest) =
      let share := alone budget engine data stdin path
      if share.ending.code = 0 then
        runAll budget engine data (inputAfter path stdin) (output ++ share.output) (events ++ share.events) rest
      else ⟨output, share.ending, events ++ share.events⟩ := by
  cases hcompile : compile budget.turns engine stdin path with
  | error report => simp [alone, runAll, hcompile, Ending.code]
  | ok compiled =>
    cases htext : compiled.outcome.bind (printed budget.fuel data) with
    | ok text => simp [alone, runAll, hcompile, htext, Ending.code, compile_engine hfiles hcompile, inputAfter]
    | error stop => cases stop <;> simp [alone, runAll, hcompile, htext, Ending.code]

/-- **Run.**  Each of several templates is served as on its own: what is printed is what those before the first
that fails print, and the end is how that one ends.  The induction is on the templates. -/
theorem runAll_eq (hfiles : engine.OnlyFiles) (paths : List String) :
    let result := runAll budget engine data stdin output events paths
    let shares := shares (alone budget engine data) stdin paths
    result.output = output ++ String.join ((shares.takeWhile (·.ending.code = 0)).map (·.output)) ∧
      result.ending = (shares.find? (·.ending.code ≠ 0)).elim .done (·.ending) := by
  induction paths generalizing stdin output events with
  | nil => simp [runAll, shares]
  | cons path rest ih =>
    rw [runAll_cons hfiles, shares_cons]
    dsimp only
    generalize hshare : alone budget engine data stdin path = share
    by_cases hcode : share.ending.code = 0
    · have hrest := @ih (inputAfter path stdin) (output ++ share.output) (events ++ share.events)
      simpa [hcode, String.append_assoc] using hrest
    · simp [hcode]

/-- The first failure is a failure, and there is one unless there is none at all. -/
theorem first_failing_code {shares : List Result} :
    ((shares.find? (·.ending.code ≠ 0)).elim Ending.done (·.ending)).code = 0 ↔
      ∀ share ∈ shares, share.ending.code = 0 := by
  cases hfind : shares.find? (·.ending.code ≠ 0) with
  | none =>
    refine ⟨fun _ share hmem => ?_, fun _ => rfl⟩
    simpa using List.find?_eq_none.1 hfind share hmem
  | some share =>
    have hcode : share.ending.code ≠ 0 := by simpa using List.find?_some hfind
    exact ⟨fun h => absurd h hcode, fun h => h share (List.mem_of_find?_eq_some hfind)⟩

/-- A request that means something is served or fails. -/
theorem runAll_code_le (paths : List String) :
    (runAll budget engine data stdin output events paths).ending.code ≤ 1 := by
  induction paths generalizing engine stdin output events with
  | nil => exact Nat.zero_le _
  | cons path rest ih =>
    rw [runAll]
    split
    · exact Nat.le_refl _
    · dsimp only
      split
      · exact ih
      · exact Nat.le_refl _
      · exact Nat.le_refl _

/-- One template on its own prints its script or its text. -/
theorem alone_prints_iff :
    (alone budget engine data input path).ending.code = 0 ∧ (alone budget engine data input path).output = text ↔
      ∃ compiled p, compile budget.turns engine input path = .ok compiled ∧ compiled.outcome = .ok p ∧
        printed budget.fuel data p = .ok text := by
  cases hcompile : compile budget.turns engine input path with
  | error report => simp [alone, runAll, hcompile, Ending.code]
  | ok compiled =>
    cases hp : compiled.outcome with
    | error stop => cases stop <;> simp [alone, runAll, hcompile, hp, Except.bind, Ending.code]
    | ok p =>
      cases htext : printed budget.fuel data p with
      | ok text => simp [alone, runAll, hcompile, hp, htext, Except.bind, Ending.code]
      | error stop => cases stop <;> simp [alone, runAll, hcompile, hp, htext, Except.bind, Ending.code]

/-! ### The command -/

theorem run_of_read {args : List String} (h : read args = .request r) :
    run budget disk stdin args = perform budget disk stdin r := by
  rw [run, h]

/-- A template that is a file is the same whatever the standard input is. -/
theorem alone_of_ne (hpath : path ≠ "-") (input input' : Bytes) :
    alone budget engine data input path = alone budget engine data input' path := by
  simp only [alone, runAll, compile, if_neg hpath]

/-- A request for one template of several is served like the one template. -/
theorem run_only (hr : r.Proper) (hpath : path ∈ r.templates) (hdata : r.HasData disk value) (input : Bytes) :
    run budget disk input (r.only path).arguments =
      alone budget (Engine.new disk) (r.rendering value) input path := by
  rw [run_of_read (read_arguments (hr.only hpath)), perform_of_data (r := r.only path) hdata]
  rfl

end Stencil.Command
