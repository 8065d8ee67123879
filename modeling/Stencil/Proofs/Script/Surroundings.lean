import Stencil.Proofs.Script.Mirror

/-!
# Names in two places

The rules on names do not depend on lines (`step_unlined`), and a function that uses extra
arguments of its own only says the same of its own names wherever it stands, as long as no variable
around it is constant (`run_function`).
-/

namespace Stencil.Script

open Stencil.Text (Bytes bytesOf)

namespace Scope

/-- Goes on past some mentions. -/
def run (frames : Frames) (ms : List Mention) : Except ScopeFault Frames := ms.foldlM step frames

@[simp]
theorem run_nil (frames : Frames) : run frames [] = .ok frames := rfl

theorem run_cons (frames : Frames) (m : Mention) (ms : List Mention) :
    run frames (m :: ms) = (step frames m).bind fun frames => run frames ms := rfl

theorem run_append (frames : Frames) (ms ms' : List Mention) :
    run frames (ms ++ ms') = (run frames ms).bind fun frames => run frames ms' := by
  rw [run, List.foldlM_append]
  rfl

theorem checkFrom_eq (frames : Frames) (ms : List (Mention × Lexeme)) :
    (checkFrom frames ms).map Prod.fst =
      match run frames (ms.map (·.1)) with
      | .ok _ => none
      | .error fault => some fault := by
  induction ms generalizing frames with
  | nil => rfl
  | cons p ms ih =>
    rw [checkFrom, List.map_cons, run_cons]
    cases step frames p.1 with
    | ok frames => exact ih frames
    | error fault => rfl

/-! ### Lines -/

/-- A label without its line. -/
def Label.unlined (l : Label) : Label := { l with line := 0 }

/-- A jump without its line. -/
def Jump.unlined (j : Jump) : Jump := { j with line := 0 }

/-- A block without lines. -/
def Level.unlined (l : Level) : Level :=
  { l with labels := l.labels.map Label.unlined, jumps := l.jumps.map Jump.unlined }

/-- A function without lines. -/
def Frame.unlined (f : Frame) : Frame :=
  { f with line := 0, levels := f.levels.map Level.unlined }

end Scope

/-- A fault without its line. -/
def ScopeFault.unlined : ScopeFault → ScopeFault
  | .repeatedLabel name _ => .repeatedLabel name 0
  | .noLabel name _ => .noLabel name 0
  | .noLoop _ => .noLoop 0
  | .intoScope label _ name => .intoScope label 0 name
  | .tooManyLocals _ => .tooManyLocals 0
  | fault => fault

namespace Scope

/-- What comes of mentions, without lines. -/
def unlined (outcome : Except ScopeFault Frames) : Except ScopeFault Frames :=
  (outcome.mapError ScopeFault.unlined).map (List.map Frame.unlined)

namespace Frame

variable (f : Frame)

theorem label?_unlined (name : Bytes) :
    f.unlined.label? name = (f.label? name).map Label.unlined := by
  rw [label?, label?, unlined, List.findSome?_map, List.map_findSome?]
  congr 1
  funext l
  exact List.find?_map

theorem modifyLevel_unlined {change change' : Level → Level}
    (h : ∀ l, change' l.unlined = (change l).unlined) :
    f.unlined.modifyLevel change' = (f.modifyLevel change).unlined := by
  obtain ⟨line, vararg, active, pending, levels⟩ := f
  cases levels with
  | nil => rfl
  | cons l ls => simp [modifyLevel, unlined, h]

theorem jump_unlined (label : Option Bytes) (line : Nat) :
    f.unlined.jump label 0 = (f.jump label line).unlined := by
  have hsome : (label.bind f.unlined.label?).isSome = (label.bind f.label?).isSome := by
    cases label with
    | none => rfl
    | some name => simp [label?_unlined]
  rw [jump, jump, hsome]
  by_cases h : (label.bind f.label?).isSome
  · rw [if_pos h, if_pos h]
  · rw [if_neg h, if_neg h]
    refine f.modifyLevel_unlined fun l => ?_
    simp [Level.unlined, Jump.unlined, unlined]

theorem closeLevel_unlined : f.unlined.closeLevel = f.closeLevel.unlined := by
  obtain ⟨line, vararg, active, pending, levels⟩ := f
  match levels with
  | [] => rfl
  | [l] => rfl
  | l :: outer :: ls =>
    have hfilter : (l.jumps.map Jump.unlined).filter (fun j => j.label.isSome) =
        (l.jumps.filter fun j => j.label.isSome).map Jump.unlined := by
      rw [List.filter_map]
      rfl
    cases hl : l.loop <;>
      simp [closeLevel, unlined, Level.unlined, hl, hfilter, Jump.unlined, Function.comp_def]

theorem openJump?_unlined : f.unlined.openJump? = f.openJump?.map ScopeFault.unlined := by
  obtain ⟨line, vararg, active, pending, levels⟩ := f
  cases levels with
  | nil => rfl
  | cons l ls =>
    simp only [openJump?, unlined, Level.unlined, List.map_cons, List.head?_map, Option.map_map]
    congr 1
    funext j
    cases h : j.label <;> simp [Jump.unlined, h, ScopeFault.unlined]

theorem addLabel_unlined (name : Bytes) (line : Nat) (last : Bool) :
    f.unlined.addLabel name 0 last =
      ((f.addLabel name line last).mapError ScopeFault.unlined).map Frame.unlined := by
  have hlabel := f.label?_unlined name
  cases h : f.label? name with
  | some old =>
    rw [h] at hlabel
    rw [addLabel, addLabel, hlabel, h]
    rfl
  | none =>
    rw [h] at hlabel
    rw [addLabel, addLabel, hlabel, h]
    obtain ⟨fline, vararg, active, pending, levels⟩ := f
    cases levels with
    | nil => rfl
    | cons l ls =>
      have hfilter (p : Jump → Bool) (hp : ∀ j : Jump, p j.unlined = p j) :
          (l.jumps.map Jump.unlined).filter p = (l.jumps.filter p).map Jump.unlined := by
        rw [List.filter_map]
        congr 2
        exact funext hp
      have hmine := hfilter (fun j => j.label == some name) fun _ => rfl
      have hothers := hfilter (not ∘ fun j => j.label == some name) fun _ => rfl
      have hfind (inScope : Nat) (js : List Jump) :
          (js.map Jump.unlined).find? (fun j => decide (j.inScope < inScope)) =
            (js.find? fun j => decide (j.inScope < inScope)).map Jump.unlined := List.find?_map
      simp only [unlined, Level.unlined, List.map_cons, Option.map_none,
        List.partition_eq_filter_filter, hmine, hothers]
      generalize (if last = true then l.inScope else active.length) = inScope
      rw [hfind]
      cases (l.jumps.filter fun j => j.label == some name).find?
        fun j => decide (j.inScope < inScope) <;> rfl

end Frame

theorem step_unlined (frames : Frames) (m : Mention) :
    step (frames.map Frame.unlined) m.unlined = unlined (step frames m) := by
  cases frames with
  | nil => cases m <;> rfl
  | cons f fs =>
    cases m with
    | declare name kind =>
      by_cases h : f.active.length + f.pending.length ≥ maxLocals
      · simp only [step, List.map_cons, Mention.unlined, Frame.unlined, if_pos h]
        rfl
      · simp only [step, List.map_cons, Mention.unlined, Frame.unlined, if_neg h]
        rfl
    | assign name =>
      have hfind : ((f :: fs).map Frame.unlined).findSome? (fun g => g.find? name) =
          (f :: fs).findSome? fun g => g.find? name := List.findSome?_map
      simp only [step, List.map_cons, Mention.unlined]
      rw [← List.map_cons, hfind]
      cases ((f :: fs).findSome? fun g => g.find? name).map Variable.kind with
      | none => rfl
      | some kind => cases kind <;> rfl
    | dots =>
      simp only [step, List.map_cons, Mention.unlined, Frame.unlined]
      by_cases h : f.vararg
      · rw [if_pos h, if_pos h]
        rfl
      · rw [if_neg h, if_neg h]
        rfl
    | closeFunction =>
      simp only [step, List.map_cons, Mention.unlined, Frame.openJump?_unlined]
      cases f.openJump? <;> rfl
    | jump label line =>
      simp only [step, List.map_cons, Mention.unlined, f.jump_unlined label line]
      rfl
    | label name line last =>
      simp only [step, List.map_cons, Mention.unlined, f.addLabel_unlined name line last]
      cases f.addLabel name line last <;> rfl
    | closeBlock =>
      simp only [step, List.map_cons, Mention.unlined, f.closeLevel_unlined]
      rfl
    | _ => rfl

theorem run_unlined (frames : Frames) (ms : List Mention) :
    run (frames.map Frame.unlined) (ms.map Mention.unlined) = unlined (run frames ms) := by
  induction ms generalizing frames with
  | nil => rfl
  | cons m ms ih =>
    rw [List.map_cons, run_cons, run_cons, step_unlined]
    cases step frames m with
    | ok frames => exact ih frames
    | error fault => rfl

/-- Whether mentions break a rule does not depend on lines. -/
theorem run_ok_congr {frames : Frames} {ms ms' : List Mention}
    (h : ms.map Mention.unlined = ms'.map Mention.unlined) (hok : ∃ fs, run frames ms = .ok fs) :
    ∃ fs, run frames ms' = .ok fs := by
  obtain ⟨fs, hok⟩ := hok
  have heq := run_unlined frames ms
  rw [h, run_unlined, hok] at heq
  cases hrun : run frames ms' with
  | ok fs' => exact ⟨fs', rfl⟩
  | error fault => rw [hrun] at heq; cases heq

/-! ### Functions inside others -/

/-- No variable of a function is constant. -/
def Frame.Plain (f : Frame) : Prop := ∀ v ∈ f.active ++ f.pending, v.kind = .plain

theorem Frame.Plain.find? {f : Frame} (h : f.Plain) {name : Bytes} {v : Variable}
    (hv : f.find? name = some v) : v.kind = .plain :=
  h v (List.mem_append_left _ (List.mem_of_find?_eq_some hv))

theorem Frame.Plain.declare {f : Frame} (h : f.Plain) (name : Bytes) :
    Frame.Plain { f with pending := f.pending ++ [⟨name, .plain⟩] } := by
  intro v hv
  rw [← List.append_assoc, List.mem_append, List.mem_singleton] at hv
  rcases hv with hv | rfl
  · exact h v hv
  · rfl

/-- What surrounds a function does not matter for its names if no variable there is constant. -/
theorem step_append {inner outer : Frames} (hi : inner ≠ []) (ho : ∀ f ∈ outer, f.Plain)
    (m : Mention) : step (inner ++ outer) m = (step inner m).map (· ++ outer) := by
  cases inner with
  | nil => exact absurd rfl hi
  | cons f fs =>
    rw [List.cons_append]
    cases m with
    | declare name kind =>
      simp only [step]
      by_cases h : f.active.length + f.pending.length ≥ maxLocals
      · rw [if_pos h, if_pos h]
        rfl
      · rw [if_neg h, if_neg h]
        rfl
    | assign name =>
      simp only [step]
      rw [← List.cons_append, List.findSome?_append]
      cases hfind : (f :: fs).findSome? fun g => g.find? name with
      | some v =>
        cases hv : v.kind <;> simp [hv, Except.map]
      | none =>
        cases hout : outer.findSome? fun g => g.find? name with
        | none => rfl
        | some v =>
          obtain ⟨g, hg, hgv⟩ := List.exists_of_findSome?_eq_some hout
          simp [(ho g hg).find? hgv, Except.map]
    | dots =>
      simp only [step]
      by_cases h : f.vararg
      · rw [if_pos h, if_pos h]
        rfl
      · rw [if_neg h, if_neg h]
        rfl
    | closeFunction =>
      simp only [step]
      cases f.openJump? <;> rfl
    | label name line last =>
      simp only [step]
      cases f.addLabel name line last <;> rfl
    | _ => rfl

/-- What is mentioned inside a function leaves those around it alone. -/
theorem step_tail {f : Frame} {fs fs' : Frames} {m : Mention} (hm : m.IsInner)
    (h : step (f :: fs) m = .ok fs') : ∃ f', fs' = f' :: fs := by
  cases m with
  | openFunction => cases hm
  | closeFunction => cases hm
  | declare name kind =>
    simp only [step] at h
    split at h <;> cases h
    exact ⟨_, rfl⟩
  | assign name =>
    simp only [step] at h
    split at h <;> cases h <;> exact ⟨_, rfl⟩
  | dots =>
    simp only [step] at h
    split at h <;> cases h
    exact ⟨_, rfl⟩
  | label name line last =>
    simp only [step] at h
    cases hl : f.addLabel name line last with
    | ok f' => rw [hl] at h; cases h; exact ⟨f', rfl⟩
    | error e => rw [hl] at h; cases h
  | _ => cases h; exact ⟨_, rfl⟩

/-- A function in another one, and what comes after it. -/
theorem run_function (f : Frame) (fs : Frames) (line : Nat) (body ms : List Mention) :
    run (f :: fs) (.openFunction line :: (body ++ .closeFunction :: ms)) =
      (run ({ line := line, vararg := false } :: f :: fs) body).bind fun gs =>
        (step gs .closeFunction).bind fun gs => run gs ms := by
  rw [run_cons]
  exact run_append _ body _

theorem run_tail {kind : Mention → Prop} {ms : List Mention} (h : Nested kind ms)
    (hk : ∀ m, kind m → m.IsInner) {f : Frame} {fs fs' : Frames}
    (hrun : run (f :: fs) ms = .ok fs') : ∃ f', fs' = f' :: fs := by
  induction h generalizing f fs fs' with
  | nil => cases hrun; exact ⟨f, rfl⟩
  | cons hm _ ih =>
    rw [run_cons] at hrun
    cases hstep : step (f :: fs) _ with
    | error e => rw [hstep] at hrun; cases hrun
    | ok gs =>
      rw [hstep] at hrun
      obtain ⟨f', rfl⟩ := step_tail (hk _ hm) hstep
      exact ih hk hrun
  | @function _ line body ms _ _ ihb ih =>
    rw [run_function] at hrun
    cases hbody : run ({ line := line, vararg := false } :: f :: fs) body with
    | error e => rw [hbody] at hrun; cases hrun
    | ok gs =>
      obtain ⟨g, rfl⟩ := ihb (fun _ => id) hbody
      rw [hbody] at hrun
      simp only [Except.bind, step] at hrun
      cases hjump : g.openJump? with
      | some fault => rw [hjump] at hrun; cases hrun
      | none =>
        rw [hjump] at hrun
        exact ih hk hrun

/-- What is mentioned inside a function says the same of it wherever the function stands. -/
theorem run_nested {kind : Mention → Prop} {ms : List Mention} (h : Nested kind ms)
    (hk : ∀ m, kind m → m.IsInner) (f : Frame) (fs : Frames) {outer : Frames}
    (ho : ∀ g ∈ outer, g.Plain) :
    run (f :: (fs ++ outer)) ms = (run (f :: fs) ms).map (· ++ outer) := by
  induction h generalizing f fs with
  | nil => rfl
  | @cons _ m ms hm _ ih =>
    have hstep := step_append (List.cons_ne_nil f fs) ho m
    rw [run_cons, run_cons, ← List.cons_append, hstep]
    cases hf : step (f :: fs) m with
    | error e => rfl
    | ok gs =>
      obtain ⟨f', rfl⟩ := step_tail (hk m hm) hf
      exact ih hk f' fs
  | @function _ line body ms hb _ ihb ih =>
    have hbody := ihb (fun _ => id) { line := line, vararg := false } (f :: fs)
    rw [run_function, run_function, ← List.cons_append, hbody]
    cases hf : run ({ line := line, vararg := false } :: f :: fs) body with
    | error e => rfl
    | ok gs =>
      obtain ⟨g, rfl⟩ := run_tail hb (fun _ => id) hf
      simp only [Except.bind, Except.map, List.cons_append, step]
      cases g.openJump? with
      | some fault => rfl
      | none => exact ih hk f fs

/-- A function says the same of its names wherever it stands. -/
theorem run_function_alone {body : List Mention} (h : Nested Mention.IsInner body) (line : Nat)
    (f : Frame) (fs : Frames) (hp : ∀ g ∈ f :: fs, g.Plain) (ms : List Mention) :
    run (f :: fs) (.openFunction line :: (body ++ .closeFunction :: ms)) =
      (run [{ line := line, vararg := false }] (body ++ [.closeFunction])).bind
        fun _ => run (f :: fs) ms := by
  have hbody := run_nested h (fun _ => id) { line := line, vararg := false } [] hp
  rw [run_function, ← List.nil_append (f :: fs), hbody, run_append]
  cases hf : run [{ line := line, vararg := false }] body with
  | error e => rfl
  | ok gs =>
    obtain ⟨g, rfl⟩ := run_tail h (fun _ => id) hf
    simp only [Except.bind, Except.map, List.cons_append, List.nil_append, step, run_cons, run_nil]
    cases g.openJump? <;> rfl

/-! ### Parts of a function -/

/-- A run that comes to an end, or meets too many variables. -/
def Ends (frames : Frames) (ms : List Mention) (frames' : Frames) : Prop :=
  run frames ms = .ok frames' ∨ ∃ line, run frames ms = .error (.tooManyLocals line)

theorem Ends.cons {fs fs' fs'' : Frames} {m : Mention} {ms : List Mention}
    (hstep : step fs m = .ok fs') (h : Ends fs' ms fs'') : Ends fs (m :: ms) fs'' := by
  rw [Ends, run_cons, hstep]
  exact h

theorem Ends.append {fs fs' fs'' : Frames} {ms ms' : List Mention} (h : Ends fs ms fs')
    (h' : Ends fs' ms' fs'') : Ends fs (ms ++ ms') fs'' := by
  rcases h with h | ⟨line, h⟩
  · rcases h' with h' | ⟨line, h'⟩
    · exact .inl (by rw [run_append, h]; exact h')
    · exact .inr ⟨line, by rw [run_append, h]; exact h'⟩
  · exact .inr ⟨line, by rw [run_append, h]; rfl⟩

/-- The frame of a function without extra arguments. -/
def bare : Frame := { line := 0, vararg := false }

/-- What the header of a loop says by itself in a function without extra arguments it says in any
other function: it declares variables and nothing else. -/
theorem ends_heading {ms : List Mention} (h : Nested Mention.IsHeading ms) {b : Frame}
    (hb : b.vararg = false) (hbp : b.Plain) (halone : ∃ fs, run [b] ms = .ok fs) {f : Frame}
    {fs : Frames} (hp : ∀ g ∈ f :: fs, g.Plain) :
    ∃ vs : List Variable, (∀ v ∈ vs, v.kind = .plain) ∧
      Ends (f :: fs) ms ({ f with pending := f.pending ++ vs } :: fs) := by
  generalize hkind : Mention.IsHeading = kind at h
  induction h generalizing b f with
  | nil => exact ⟨[], by simp, .inl (by simp)⟩
  | @cons _ m ms hm _ ih =>
    subst hkind
    rcases hm with rfl | ⟨name, rfl⟩
    · obtain ⟨gs, halone⟩ := halone
      rw [run_cons, step, hb] at halone
      cases halone
    · obtain ⟨gs, halone⟩ := halone
      by_cases hmany : b.active.length + b.pending.length ≥ maxLocals
      · rw [run_cons, step, if_pos hmany] at halone
        cases halone
      · rw [run_cons, step, if_neg hmany] at halone
        by_cases hmany' : f.active.length + f.pending.length ≥ maxLocals
        · have herr : step (f :: fs) (.declare name .plain) = .error (.tooManyLocals f.line) := by
            rw [step, if_pos hmany']
          exact ⟨[], by simp, .inr ⟨f.line, by rw [run_cons, herr]; rfl⟩⟩
        · have hp' : ∀ g ∈ { f with pending := f.pending ++ [⟨name, .plain⟩] } :: fs, g.Plain := by
            intro g hg
            rcases List.mem_cons.1 hg with rfl | hg
            · exact (hp f (List.mem_cons_self ..)).declare name
            · exact hp g (List.mem_cons_of_mem _ hg)
          have hb' : Frame.vararg { b with pending := b.pending ++ [⟨name, .plain⟩] } = false := hb
          obtain ⟨vs, hvs, hends⟩ := ih hb' (hbp.declare name) ⟨gs, halone⟩ hp' rfl
          refine ⟨⟨name, .plain⟩ :: vs, by simpa using hvs, .cons (by rw [step, if_neg hmany']) ?_⟩
          simpa using hends
  | @function _ line body ms hbody _ _ ih =>
    rw [run_function_alone hbody line b [] (by simpa using hbp)] at halone
    have hall := run_function_alone hbody line f fs hp ms
    cases hrun : run [{ line := line, vararg := false }] (body ++ [.closeFunction]) with
    | error e =>
      rw [hrun] at halone
      obtain ⟨_, halone⟩ := halone
      cases halone
    | ok gs =>
      rw [hrun] at halone hall
      obtain ⟨vs, hvs, hends⟩ := ih hb hbp halone hp hkind
      exact ⟨vs, hvs, by rw [Ends, hall]; exact hends⟩

/-! ### Mentions that do no harm -/

/-- A function in which nothing can go wrong but the number of its variables. -/
structure Frame.Calm (f : Frame) : Prop where
  plain : f.Plain
  levels : f.levels ≠ []

/-- Mentions that break no rule in a calm function, apart from the number of variables, and leave
its blocks as they are. -/
def Harmless (ms : List Mention) : Prop :=
  ∀ f fs, (∀ g ∈ f :: fs, g.Calm) →
    ∃ f' : Frame, f'.Calm ∧ f'.levels = f.levels ∧ Ends (f :: fs) ms (f' :: fs)

namespace Harmless

variable {ms ms' : List Mention}

theorem nil : Harmless [] := fun f _ h => ⟨f, h f (List.mem_cons_self ..), rfl, .inl rfl⟩

theorem append (h : Harmless ms) (h' : Harmless ms') : Harmless (ms ++ ms') := by
  intro f fs hcalm
  obtain ⟨f', hf', hl, hends⟩ := h f fs hcalm
  have hcalm' : ∀ g ∈ f' :: fs, g.Calm := by
    intro g hg
    rcases List.mem_cons.1 hg with rfl | hg
    · exact hf'
    · exact hcalm g (List.mem_cons_of_mem _ hg)
  obtain ⟨f'', hf'', hl', hends'⟩ := h' f' fs hcalm'
  exact ⟨f'', hf'', hl'.trans hl, hends.append hends'⟩

/-- A mention that changes nothing but variables. -/
theorem of_step {m : Mention} (h : ∀ f fs, f.Calm → ∃ f' : Frame, f'.Calm ∧ f'.levels = f.levels ∧
    step (f :: fs) m = .ok (f' :: fs)) : Harmless [m] := by
  intro f fs hcalm
  obtain ⟨f', hf', hl, hstep⟩ := h f fs (hcalm f (List.mem_cons_self ..))
  exact ⟨f', hf', hl, .cons hstep (.inl rfl)⟩

theorem declare (name : Bytes) : Harmless [.declare name .plain] := by
  intro f fs hcalm
  have hf := hcalm f (List.mem_cons_self ..)
  by_cases hmany : f.active.length + f.pending.length ≥ maxLocals
  · refine ⟨f, hf, rfl, .inr ⟨f.line, ?_⟩⟩
    rw [run_cons, step, if_pos hmany]
    rfl
  · exact ⟨{ f with pending := f.pending ++ [⟨name, .plain⟩] }, ⟨hf.plain.declare name, hf.levels⟩,
      rfl, .cons (by rw [step, if_neg hmany]) (.inl rfl)⟩

theorem activate (count : Nat) : Harmless [.activate count] := by
  refine of_step fun f fs hf => ⟨f.activate count, ⟨fun v hv => ?_, hf.levels⟩, rfl, rfl⟩
  refine hf.plain v ?_
  simp only [Frame.activate, List.mem_append, List.mem_reverse] at hv ⊢
  rcases hv with (hv | hv) | hv
  · exact .inr (List.mem_of_mem_take hv)
  · exact .inl hv
  · exact .inr (List.mem_of_mem_drop hv)

/-- A block of harmless mentions. -/
theorem block (h : Harmless ms) (loop : Bool) :
    Harmless (.openBlock loop :: (ms ++ [.closeBlock])) := by
  intro f fs hcalm
  have hf := hcalm f (List.mem_cons_self ..)
  have hcalm' : ∀ g ∈ { f with levels := ⟨loop, f.active.length, [], []⟩ :: f.levels } :: fs,
      g.Calm := by
    intro g hg
    rcases List.mem_cons.1 hg with rfl | hg
    · exact ⟨hf.plain, List.cons_ne_nil _ _⟩
    · exact hcalm g (List.mem_cons_of_mem _ hg)
  obtain ⟨f', hf', hl, hends⟩ := h _ fs hcalm'
  obtain ⟨outer, rest, houter⟩ := List.exists_cons_of_ne_nil hf.levels
  rw [houter] at hl
  have hclose : f'.closeLevel = { f' with
      active := f'.active.drop (f'.active.length - f.active.length), levels := f.levels } := by
    rw [Frame.closeLevel, hl, houter]
    cases loop <;> simp
  refine ⟨f'.closeLevel, ?_, by rw [hclose], .cons rfl (hends.append (.cons rfl (.inl rfl)))⟩
  rw [hclose]
  refine ⟨fun v hv => hf'.plain v ?_, hf.levels⟩
  rcases List.mem_append.1 hv with hv | hv
  · exact List.mem_append_left _ (List.mem_of_mem_drop hv)
  · exact List.mem_append_right _ hv

/-- A function of harmless mentions. -/
theorem function (h : Harmless ms) (line : Nat) :
    Harmless (.openFunction line :: (ms ++ [.closeFunction])) := by
  intro f fs hcalm
  have hcalm' : ∀ g ∈ { line := line, vararg := false } :: f :: fs, g.Calm := by
    intro g hg
    rcases List.mem_cons.1 hg with rfl | hg
    · exact ⟨fun v hv => by simp at hv, List.cons_ne_nil _ _⟩
    · exact hcalm g hg
  obtain ⟨f', hf', hl, hends⟩ := h _ _ hcalm'
  have hclose : step (f' :: f :: fs) .closeFunction = .ok (f :: fs) := by
    rw [step, Frame.openJump?, hl]
    rfl
  exact ⟨f, hcalm f (List.mem_cons_self ..), rfl, .cons rfl (hends.append (.cons hclose (.inl rfl)))⟩

/-- What breaks no rule in a function of its own does no harm. -/
theorem of_alone (hn : Nested Mention.IsHeading ms')
    (hu : ms.map Mention.unlined = ms'.map Mention.unlined)
    (halone : ∃ fs, run [bare] ms = .ok fs) : Harmless ms' := by
  intro f fs hcalm
  have hf := hcalm f (List.mem_cons_self ..)
  obtain ⟨vs, hvs, hends⟩ := ends_heading hn rfl (fun v hv => by simp [bare] at hv)
    (run_ok_congr hu halone) (fun g hg => (hcalm g hg).plain)
  refine ⟨{ f with pending := f.pending ++ vs }, ⟨fun v hv => ?_, hf.levels⟩, rfl, hends⟩
  rw [← List.append_assoc, List.mem_append] at hv
  rcases hv with hv | hv
  · exact hf.plain v hv
  · exact hvs v hv

end Harmless

end Scope

end Stencil.Script
