import Mathlib.Data.List.Forall2
import Stencil.Proofs.Include.Forget

/-!
# How often resolvers answer

A resolver that remembers what it was asked may answer a few times only.  `Engine.hits` counts the
answers to questions that are put to an engine one after the other:

* `Engine.resolve_ne_empty` : an answer of an engine is a text that is not empty.
* `Resolver.answersAtMost_ofMap` : a map with a limit answers no more often than that.
* `Engine.answersAtMost_sum` : an engine answers no more often than its resolvers together.
-/

namespace Stencil

-- sums as the core library has them, whatever else is imported
attribute [local instance (high)] Zero.ofOfNat0

namespace Include.Resolver

/-- How many of some questions, put one after the other, a resolver answers with text. -/
def hits (disk : Disk) (r : Resolver) : List Ask → Nat
  | [] => 0
  | a :: asks =>
    ((r.ask disk a).1.filter (!·.isEmpty)).toList.length + hits disk (r.ask disk a).2.1 asks

/-- Whatever a resolver is asked, it answers at most so many times. -/
def AnswersAtMost (disk : Disk) (r : Resolver) (n : Nat) : Prop := ∀ asks, r.hits disk asks ≤ n

variable {r : Resolver} {disk : Disk}

/-- An answer uses up one of those that are left. -/
theorem AnswersAtMost.ask {n : Nat} (h : r.AnswersAtMost disk n) (a : Ask) :
    ∃ k, (r.ask disk a).2.1.AnswersAtMost disk k ∧
      ((r.ask disk a).1.filter (!·.isEmpty)).toList.length + k ≤ n := by
  have hfirst : ∀ asks, ((r.ask disk a).1.filter (!·.isEmpty)).toList.length +
      (r.ask disk a).2.1.hits disk asks ≤ n := fun asks => h (a :: asks)
  have hone := hfirst []
  refine ⟨n - ((r.ask disk a).1.filter (!·.isEmpty)).toList.length, fun asks => ?_, ?_⟩
  · have := hfirst asks
    omega
  · rw [hits] at hone
    omega

/-- A map with a limit answers no more often than that. -/
theorem answersAtMost_ofMap (entries : List (String × String)) (limit : Nat) :
    (ofMap entries limit).AnswersAtMost disk limit := by
  -- each question takes one from the limit, whether it is answered or not
  have hasked : ∀ asks asked, hits disk (.rule (fun asked ask =>
      if asked.length < limit then entries.lookup ask.name else none) asked) asks ≤
        limit - asked.length := by
    intro asks
    induction asks with
    | nil => exact fun _ => Nat.zero_le _
    | cons a asks ih =>
      intro asked
      have hrest := ih (a :: asked)
      rw [List.length_cons] at hrest
      rw [hits]
      simp only [ask]
      by_cases hlimit : asked.length < limit
      · have hone : ((entries.lookup a.name).filter (!·.isEmpty)).toList.length ≤ 1 :=
          Option.length_toList_le
        rw [if_pos hlimit]
        omega
      · rw [if_neg hlimit]
        simp only [Option.filter_none, Option.toList_none, List.length_nil]
        omega
  exact fun asks => hasked asks []

end Include.Resolver

open Include

namespace Engine

variable {e : Engine} {disk : Disk} {a : Ask} {rs : List Resolver}

theorem askInOrder_ne_empty {text : String} (h : (askInOrder disk a rs).1 = some text) :
    text ≠ "" := by
  induction rs with
  | nil => cases h
  | cons r rs ih =>
    rw [askInOrder] at h
    cases hans : (r.ask disk a).1.filter (!·.isEmpty) with
    | some text' =>
      simp only [hans] at h
      cases h
      have := (Option.filter_eq_some_iff.1 hans).2
      rintro rfl
      exact absurd this (by decide)
    | none =>
      simp only [hans] at h
      exact ih h

/-- An answer of an engine is not empty. -/
theorem resolve_ne_empty {text : String} (h : (e.resolve a).1 = some text) : text ≠ "" := by
  simp only [resolve] at h
  split at h
  next hfound =>
    cases h
    exact askInOrder_ne_empty (by rw [hfound])
  next => exact askInOrder_ne_empty h

theorem askInOrder_events {ev : Event} (h : ev ∈ (askInOrder disk a rs).2.2) :
    ∃ path cause, ev = .unreadable path cause := by
  have hread : ∀ paths, ev ∈ (Resolver.firstReadable disk paths).2 →
      ∃ path cause, ev = .unreadable path cause := by
    intro paths
    induction paths with
    | nil => exact fun h => absurd h List.not_mem_nil
    | cons path paths ih =>
      intro h
      simp only [Resolver.firstReadable] at h
      split at h
      · exact absurd h List.not_mem_nil
      · rcases List.mem_cons.1 h with rfl | h
        · exact ⟨_, _, rfl⟩
        · exact ih h
  have hask : ∀ r : Resolver, ev ∈ (r.ask disk a).2.2 →
      ∃ path cause, ev = .unreadable path cause := by
    rintro (_ | _) h
    · exact absurd h List.not_mem_nil
    · exact hread _ h
  induction rs with
  | nil => exact absurd h List.not_mem_nil
  | cons r rs ih =>
    rw [askInOrder] at h
    cases hans : (r.ask disk a).1.filter (!·.isEmpty) with
    | some text =>
      simp only [hans] at h
      exact hask r h
    | none =>
      simp only [hans, List.mem_append] at h
      exact h.elim (hask r) ih

/-- An engine reports nothing but files that cannot be read. -/
theorem resolve_events {ev : Event} (h : ev ∈ (e.resolve a).2.2) :
    ∃ path cause, ev = .unreadable path cause := by
  simp only [resolve] at h
  split at h
  · exact askInOrder_events h
  · exact (List.mem_append.1 h).elim askInOrder_events askInOrder_events

/-! ### Counting answers -/

/-- How many of some questions, put one after the other, an engine answers. -/
def hits (e : Engine) : List Ask → Nat
  | [] => 0
  | a :: asks => (e.resolve a).1.toList.length + hits (e.resolve a).2.1 asks

/-- Whatever an engine is asked, it answers at most so many times. -/
def AnswersAtMost (e : Engine) (n : Nat) : Prop := ∀ asks, e.hits asks ≤ n

/-- An answer uses up one of those that are left. -/
theorem AnswersAtMost.resolve {n : Nat} (h : e.AnswersAtMost n) (a : Ask) :
    ∃ k, (e.resolve a).2.1.AnswersAtMost k ∧ (e.resolve a).1.toList.length + k ≤ n := by
  have hfirst : ∀ asks, (e.resolve a).1.toList.length + (e.resolve a).2.1.hits asks ≤ n :=
    fun asks => h (a :: asks)
  have hone := hfirst []
  refine ⟨n - (e.resolve a).1.toList.length, fun asks => ?_, ?_⟩
  · have := hfirst asks
    omega
  · rw [hits] at hone
    omega

theorem askInOrder_atMost {ns : List Nat} (h : List.Forall₂ (Resolver.AnswersAtMost disk) rs ns) :
    ∃ ks, List.Forall₂ (Resolver.AnswersAtMost disk) (askInOrder disk a rs).2.1 ks ∧
      (askInOrder disk a rs).1.toList.length + ks.sum ≤ ns.sum := by
  induction h with
  | nil => exact ⟨[], .nil, Nat.le_refl _⟩
  | @cons r n rs ns hr hrs ih =>
    obtain ⟨k, hk, hkn⟩ := hr.ask a
    obtain ⟨ks, hks, hle⟩ := ih
    rw [askInOrder]
    cases hans : (r.ask disk a).1.filter (!·.isEmpty) with
    | some text =>
      simp only [hans]
      rw [hans, Option.toList_some, List.length_singleton] at hkn
      refine ⟨k :: ns, .cons hk hrs, ?_⟩
      simp only [Option.toList_some, List.length_singleton, List.sum_cons]
      omega
    | none =>
      simp only [hans]
      refine ⟨k :: ks, .cons hk hks, ?_⟩
      simp only [List.sum_cons]
      omega

/-- **Resolvers together.**  An engine answers no more often than its resolvers together. -/
theorem answersAtMost_sum {ns ms : List Nat}
    (hadded : List.Forall₂ (Resolver.AnswersAtMost e.disk) e.added ns)
    (hlast : List.Forall₂ (Resolver.AnswersAtMost e.disk) e.fallback.toList ms) :
    e.AnswersAtMost (ns.sum + ms.sum) := by
  intro asks
  induction asks generalizing e ns ms with
  | nil => exact Nat.zero_le _
  | cons a asks ih =>
    obtain ⟨ks, hks, hkn⟩ := askInOrder_atMost (a := a) hadded
    obtain ⟨ls, hls, hlm⟩ := askInOrder_atMost (a := a) hlast
    rw [hits, resolve]
    cases hans : (askInOrder e.disk a e.added).1 with
    | some text =>
      rw [hans, Option.toList_some, List.length_singleton] at hkn
      have hrest := ih (e := { e with added := (askInOrder e.disk a e.added).2.1 }) hks hlast
      simp only [hans, Option.toList_some, List.length_singleton]
      refine Nat.le_trans (Nat.add_le_add_left hrest 1) ?_
      omega
    | none =>
      -- at most one resolver is asked last
      have hhead : (askInOrder e.disk a e.fallback.toList).2.1.head?.toList =
          (askInOrder e.disk a e.fallback.toList).2.1 := by
        have hforget : (askInOrder e.disk a e.fallback.toList).2.1.map Resolver.forget =
          e.fallback.toList.map Resolver.forget := askInOrder_forget
        have hlength := congrArg List.length hforget
        simp only [List.length_map] at hlength
        have hone : e.fallback.toList.length ≤ 1 := Option.length_toList_le
        cases h : (askInOrder e.disk a e.fallback.toList).2.1 with
        | nil => rfl
        | cons r rs =>
          rw [h, List.length_cons] at hlength
          have hnone : rs = [] := List.length_eq_zero_iff.1 (by omega)
          rw [hnone]
          rfl
      have hrest := ih (e := { e with
        added := (askInOrder e.disk a e.added).2.1
        fallback := (askInOrder e.disk a e.fallback.toList).2.1.head? }) hks
        (by rw [hhead]; exact hls)
      simp only [hans]
      refine Nat.le_trans (Nat.add_le_add_left hrest _) ?_
      omega

end Engine

end Stencil
