import Stencil.Script.Execute

/-!
# What scripts come to

How a script is run does not depend on the budget once there is enough of it.  This file says what a
computation comes to then:

* `Run.Gives` : a computation succeeds, with a result and a machine.
* `Ends` : with enough budget a computation succeeds, and something is known of the result and of the
  machine that it leaves.
* `Loops` : the same of a loop that goes on from some state.

A larger computation is followed from its first step to its last with `Ends.bind`; what an evaluator
asks of the level below it takes one level more (`Ends.below`).
-/

namespace Stencil.Script

variable {α β σ : Type}

namespace Run

/-- What comes of a computation. -/
def runOn (p : Run α) (m : Machine) : Except Raise α × Machine := p.run.run m

/-- A computation succeeds with a result and leaves a machine. -/
def Gives (p : Run α) (m : Machine) (a : α) (m' : Machine) : Prop := p.runOn m = (.ok a, m')

variable {p : Run α} {f : α → Run β} {m m' m'' : Machine} {a : α} {b : β}

theorem runOn_bind (p : Run α) (f : α → Run β) (m : Machine) :
    (p >>= f).runOn m =
      match p.runOn m with
      | (.ok a, m') => (f a).runOn m'
      | (.error e, m') => (.error e, m') := by
  simp only [runOn]
  change (ExceptT.run (p >>= f)).run m = _
  rw [ExceptT.run_bind, StateT.run_bind]
  generalize StateT.run (ExceptT.run p) m = x
  rcases x with ⟨_ | _, _⟩ <;> rfl

theorem Gives.bind (h : p.Gives m a m') (h' : (f a).Gives m' b m'') : (p >>= f).Gives m b m'' := by
  rw [Gives, runOn_bind, h]
  exact h'

theorem gives_pure (a : α) : (pure a : Run α).Gives m a m := rfl

theorem gives_get : (get : Run Machine).Gives m m m := rfl

theorem gives_modify (f : Machine → Machine) : (modify f : Run Unit).Gives m () (f m) := rfl

/-! ### Calls -/

theorem Gives.withCalls {change : Calls → Calls}
    (h : p.Gives { m with calls := change m.calls } a m') :
    (withCalls change p).Gives m a { m' with calls := m.calls } :=
  gives_get.bind ((gives_modify _).bind (h.bind ((gives_modify _).bind (gives_pure a))))

theorem Gives.within {frame : Frame} (hdepth : m.calls.depth < maxDepth)
    (h : p.Gives { m with calls :=
      { m.calls with frames := frame :: m.calls.frames, depth := m.calls.depth + 1 } } a m') :
    (within frame p).Gives m a { m' with calls := m.calls } := by
  refine gives_get.bind ?_
  rw [if_neg (by omega)]
  exact h.withCalls

theorem Gives.nested (hnested : m.calls.nested < maxNested)
    (h : p.Gives { m with calls := { m.calls with nested := m.calls.nested + 1 } } a m') :
    (nested p).Gives m a { m' with calls := m.calls } := by
  refine gives_get.bind ?_
  rw [if_neg (by omega)]
  exact h.withCalls

theorem runOn_tryCatch (p : Run α) (handle : Raise → Run α) (m : Machine) :
    (tryCatch p handle).runOn m =
      match p.runOn m with
      | (.ok a, m') => (.ok a, m')
      | (.error e, m') => (handle e).runOn m' := by
  simp only [runOn]
  change StateT.run (ExceptT.run (tryCatch p handle)) m = _
  rw [ExceptT.run_tryCatch, StateT.run_bind]
  generalize StateT.run (ExceptT.run p) m = x
  rcases x with ⟨_ | _, _⟩ <;> rfl

theorem Gives.catching (h : p.Gives m a m') : (catching p).Gives m (.ok a) m' := by
  -- the result leaves the protected part early, and is then the result of everything
  refine gives_get.bind (Gives.bind (show Gives _ _ (.error (.ok a)) m' from ?_) (gives_pure _))
  refine (runOn_tryCatch _ _ m).trans ?_
  erw [runOn_bind, h]
  rfl

/-! ### Loops -/

theorem Gives.iterate_done {turn : σ → Run (Turn σ β)} {s : σ} (h : (turn s).Gives m (.done b) m')
    (turns : Nat) : (iterate turn (turns + 1) s).Gives m b m' :=
  h.bind (gives_pure b)

theorem Gives.iterate_again {turn : σ → Run (Turn σ β)} {s s' : σ} {turns : Nat}
    (h : (turn s).Gives m (.again s') m') (h' : (iterate turn turns s').Gives m' b m'') :
    (iterate turn (turns + 1) s).Gives m b m'' :=
  h.bind h'

end Run

/-! ### Enough budget -/

/-- With enough budget a computation succeeds, with a result and a machine of which something is
known. -/
def Ends (p : Evaluator → Run α) (m : Machine) (Q : α → Machine → Prop) : Prop :=
  ∃ a m', Q a m' ∧ ∃ n, ∀ turns ≥ n, ∀ depth ≥ n, (p (Evaluator.at turns depth)).Gives m a m'

/-- With enough budget a loop that goes on from a state comes to its end. -/
def Loops (turn : Evaluator → σ → Run (Run.Turn σ β)) (s : σ) (m : Machine)
    (Q : β → Machine → Prop) : Prop :=
  ∃ b m', Q b m' ∧ ∃ n, ∀ turns ≥ n, ∀ depth ≥ n, ∀ rounds ≥ n,
    (Run.iterate (turn (Evaluator.at turns depth)) rounds s).Gives m b m'

variable {p q : Evaluator → Run α} {f : Evaluator → α → Run β} {m m' : Machine} {a : α}
  {Q Q' : α → Machine → Prop} {R : β → Machine → Prop}

namespace Ends

theorem of_gives (h : ∀ level, (p level).Gives m a m') (hQ : Q a m') : Ends p m Q :=
  ⟨a, m', hQ, 0, fun _ _ _ _ => h _⟩

theorem pure (h : Q a m) : Ends (fun _ => Pure.pure a) m Q :=
  of_gives (fun _ => Run.gives_pure a) h

theorem mono (h : Ends p m Q) (hQ : ∀ a m', Q a m' → Q' a m') : Ends p m Q' := by
  obtain ⟨a, m', ha, hn⟩ := h
  exact ⟨a, m', hQ a m' ha, hn⟩

theorem bind (hp : Ends p m Q) (hf : ∀ a m', Q a m' → Ends (fun level => f level a) m' R) :
    Ends (fun level => p level >>= f level) m R := by
  obtain ⟨a, m', ha, n, hn⟩ := hp
  obtain ⟨b, m'', hb, k, hk⟩ := hf a m' ha
  refine ⟨b, m'', hb, max n k, fun turns hturns depth hdepth => ?_⟩
  exact (hn turns (by omega) depth (by omega)).bind (hk turns (by omega) depth (by omega))

/-- A step that does not ask the evaluator. -/
theorem step {p : Run α} (hp : p.Gives m a m') (hf : Ends (fun level => f level a) m' R) :
    Ends (fun level => p >>= f level) m R :=
  bind (of_gives (Q := fun b m'' => b = a ∧ m'' = m') (fun _ => hp) ⟨rfl, rfl⟩)
    fun _ _ ⟨hb, hm⟩ => hb ▸ hm ▸ hf

/-- What an evaluator asks of the level below it. -/
theorem below (h : Ends p m Q)
    (hq : ∀ turns depth, q (Evaluator.at turns (depth + 1)) = p (Evaluator.at turns depth)) :
    Ends q m Q := by
  obtain ⟨a, m', ha, n, hn⟩ := h
  refine ⟨a, m', ha, n + 1, fun turns hturns depth hdepth => ?_⟩
  obtain ⟨depth, rfl⟩ : ∃ d, depth = d + 1 := ⟨depth - 1, by omega⟩
  rw [hq]
  exact hn turns (by omega) depth (by omega)

theorem within {frame : Frame} (hdepth : m.calls.depth < Run.maxDepth)
    (h : Ends p { m with calls :=
        { m.calls with frames := frame :: m.calls.frames, depth := m.calls.depth + 1 } }
      fun a m' => Q a { m' with calls := m.calls }) :
    Ends (fun level => Run.within frame (p level)) m Q := by
  obtain ⟨a, m', ha, n, hn⟩ := h
  exact ⟨a, _, ha, n, fun turns hturns depth hd => (hn turns hturns depth hd).within hdepth⟩

theorem nested (hnested : m.calls.nested < Run.maxNested)
    (h : Ends p { m with calls := { m.calls with nested := m.calls.nested + 1 } }
      fun a m' => Q a { m' with calls := m.calls }) :
    Ends (fun level => Run.nested (p level)) m Q := by
  obtain ⟨a, m', ha, n, hn⟩ := h
  exact ⟨a, _, ha, n, fun turns hturns depth hd => (hn turns hturns depth hd).nested hnested⟩

theorem catching (h : Ends p m Q) :
    Ends (fun level => Run.catching (p level)) m fun r m' => ∃ a, r = .ok a ∧ Q a m' := by
  obtain ⟨a, m', ha, n, hn⟩ := h
  exact ⟨.ok a, m', ⟨a, rfl, ha⟩, n, fun turns hturns depth hd => (hn turns hturns depth hd).catching⟩

end Ends

namespace Loops

variable {next : Evaluator → σ → Run (Run.Turn σ β)} {s : σ}

theorem mono {R' : β → Machine → Prop} (h : Loops next s m R) (hR : ∀ b m', R b m' → R' b m') :
    Loops next s m R' := by
  obtain ⟨b, m', hb, hn⟩ := h
  exact ⟨b, m', hR b m' hb, hn⟩

/-- One turn of a loop, after which it is over or goes on. -/
theorem turn (h : Ends (fun level => next level s) m fun t m' =>
      match t with
      | .again s' => Loops next s' m' R
      | .done b => R b m') : Loops next s m R := by
  obtain ⟨t, m', ht, n, hn⟩ := h
  cases t with
  | done b =>
    refine ⟨b, m', ht, n + 1, fun turns hturns depth hdepth rounds hrounds => ?_⟩
    obtain ⟨rounds, rfl⟩ : ∃ r, rounds = r + 1 := ⟨rounds - 1, by omega⟩
    exact (hn turns (by omega) depth (by omega)).iterate_done rounds
  | again s' =>
    obtain ⟨b, m'', hb, k, hk⟩ := ht
    refine ⟨b, m'', hb, max n k + 1, fun turns hturns depth hdepth rounds hrounds => ?_⟩
    obtain ⟨rounds, rfl⟩ : ∃ r, rounds = r + 1 := ⟨rounds - 1, by omega⟩
    exact (hn turns (by omega) depth (by omega)).iterate_again
      (hk turns (by omega) depth (by omega) rounds (by omega))

/-- A loop goes round as often as the evaluator lets it. -/
theorem ends (h : Loops next s m R) :
    Ends (fun level => Run.iterate (next level) level.turns s) m R := by
  obtain ⟨b, m', hb, n, hn⟩ := h
  refine ⟨b, m', hb, n + 1, fun turns hturns depth hdepth => ?_⟩
  obtain ⟨depth, rfl⟩ : ∃ d, depth = d + 1 := ⟨depth - 1, by omega⟩
  exact hn turns (by omega) _ (by omega) turns (by omega)

end Loops

end Stencil.Script
