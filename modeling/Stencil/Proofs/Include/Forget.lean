import Stencil.Include.Engine

/-!
# Resolvers without a memory

A resolver keeps the questions that were put to it.  Its answers may depend on them; where they do
not, two engines that differ in these questions alone answer every question alike:

* `Engine.resolve_forget` : asking leaves an engine as it was, but for the questions it keeps.
* `Engine.resolve_answer` : the answer does not depend on the questions it keeps.
-/

namespace Stencil

namespace Include.Resolver

/-- Whether the answers of a resolver depend on the question alone. -/
def IsPure : Resolver → Prop
  | .rule answer _ => ∀ asked asked' ask, answer asked ask = answer asked' ask
  | .files => True

/-- A resolver that has not been asked anything. -/
def forget : Resolver → Resolver
  | .rule answer _ => .rule answer []
  | .files => .files

variable {r r' : Resolver} {disk : Disk} {a : Ask}

theorem ask_forget : (r.ask disk a).2.1.forget = r.forget := by
  cases r <;> rfl

theorem IsPure.ask_answer (h : r.IsPure) : (r.ask disk a).1 = (r.forget.ask disk a).1 := by
  cases r with
  | rule answer asked => exact h _ _ _
  | files => rfl

theorem isPure_forget : r.forget.IsPure ↔ r.IsPure := by
  cases r <;> rfl

end Include.Resolver

open Include

namespace Engine

/-- Whether the answers of an engine depend on the question alone. -/
def IsPure (e : Engine) : Prop := ∀ r ∈ e.added ++ e.fallback.toList, r.IsPure

/-- An engine that has not been asked anything. -/
def forget (e : Engine) : Engine :=
  { e with added := e.added.map Resolver.forget, fallback := e.fallback.map Resolver.forget }

variable {e e' : Engine} {disk : Disk} {a : Ask} {rs : List Resolver}

@[simp] theorem forget_forget (e : Engine) : e.forget.forget = e.forget := by
  have hforget : ∀ r : Resolver, r.forget.forget = r.forget := by rintro (_ | _) <;> rfl
  simp [forget, Function.comp_def, hforget]

theorem askInOrder_forget :
    (askInOrder disk a rs).2.1.map Resolver.forget = rs.map Resolver.forget := by
  induction rs with
  | nil => rfl
  | cons r rs ih =>
    have hr : (r.ask disk a).2.1.forget = r.forget := Resolver.ask_forget
    rw [askInOrder]
    cases hans : (r.ask disk a).1.filter (!·.isEmpty) with
    | some text => simp [hans, hr]
    | none => simp [hans, hr, ih]

theorem askInOrder_answer (h : ∀ r ∈ rs, r.IsPure) :
    (askInOrder disk a rs).1 = (askInOrder disk a (rs.map Resolver.forget)).1 := by
  induction rs with
  | nil => rfl
  | cons r rs ih =>
    have hr : (r.ask disk a).1 = (r.forget.ask disk a).1 := (h r (by simp)).ask_answer
    have hrs := ih fun r hr => h r (by simp [hr])
    rw [List.map_cons, askInOrder, askInOrder]
    cases hans : (r.ask disk a).1.filter (!·.isEmpty) with
    | some text => rw [hr] at hans; simp [hr, hans]
    | none => rw [hr] at hans; simp [hr, hans, hrs]

theorem resolve_forget : (e.resolve a).2.1.forget = e.forget := by
  have hadded : (askInOrder e.disk a e.added).2.1.map Resolver.forget =
      e.added.map Resolver.forget := askInOrder_forget
  have hlast : (askInOrder e.disk a e.fallback.toList).2.1.head?.map Resolver.forget =
      e.fallback.map Resolver.forget := by
    rw [← List.head?_map, askInOrder_forget]
    cases e.fallback <;> rfl
  rw [resolve]
  split
  next found added events hask =>
    rw [hask] at hadded
    split
    · simp [forget, hadded]
    · simp [forget, hadded, hlast]

theorem IsPure.resolve_answer (h : e.IsPure) : (e.resolve a).1 = (e.forget.resolve a).1 := by
  have hadded : (askInOrder e.disk a e.added).1 =
      (askInOrder e.disk a (e.added.map Resolver.forget)).1 :=
    askInOrder_answer fun r hr => h r (by simp [hr])
  have hlast : (askInOrder e.disk a e.fallback.toList).1 =
      (askInOrder e.disk a (e.fallback.map Resolver.forget).toList).1 := by
    rw [show (e.fallback.map Resolver.forget).toList = e.fallback.toList.map Resolver.forget by
      cases e.fallback <;> rfl]
    exact askInOrder_answer fun r hr => h r (List.mem_append_right _ hr)
  simp only [resolve, forget]
  cases hans : (askInOrder e.disk a e.added).1 with
  | some text => rw [hadded] at hans; simp [hans]
  | none => rw [hadded] at hans; simp [hans, hlast]

theorem isPure_forget : e.forget.IsPure ↔ e.IsPure := by
  have hfall : (e.fallback.map Resolver.forget).toList = e.fallback.toList.map Resolver.forget := by
    cases e.fallback <;> rfl
  simp only [IsPure, forget, hfall, ← List.map_append, List.forall_mem_map, Resolver.isPure_forget]

/-- Engines without a memory that differ in what they have been asked answer alike. -/
theorem IsPure.resolve_eq (h : e.IsPure) (he : e.forget = e'.forget) :
    (e.resolve a).1 = (e'.resolve a).1 := by
  have h' : e'.IsPure := isPure_forget.1 (he ▸ isPure_forget.2 h)
  rw [h.resolve_answer, he, ← h'.resolve_answer]

/-- An engine without a memory does not get one by being asked. -/
theorem IsPure.resolve (h : e.IsPure) : (e.resolve a).2.1.IsPure := by
  rw [← isPure_forget, resolve_forget]
  exact isPure_forget.2 h

end Engine

end Stencil
