import Stencil.Proofs.Template.Moves

/-!
# Scans that end

A template may include itself, so reading it need not come to an end.  It does as soon as the
resolvers stop answering: an include uses up an answer, and between two includes every turn reads a
character.

* `Scan.run_ends` : a scan that includes so many texts at most comes to its end.
* `Scan.run_ends_within` : it takes no more turns than the template and the included texts have
  bytes and includes, and one.
* `Scan.included_le` : an engine that answers so often at most includes no more texts.
-/

namespace Stencil.Template

-- sums as the core library has them, whatever else is imported
attribute [local instance (high)] Zero.ofOfNat0

namespace Scan

variable {s s₁ : Scan} {n H : Nat}

/-! ### Counting turns -/

/-- Every turn reads a character or includes a text. -/
theorem turn_count (h : s.turn = .more s₁) :
    1 + s.behind.length + s.included.length ≤ s₁.behind.length + s₁.included.length := by
  obtain ⟨read, asked, hmoves, hmore⟩ := s.turn_moves
  rw [h, Progress.scan] at hmoves
  rw [hmoves.behind, hmoves.included, List.length_append, List.length_append, List.length_reverse]
  rcases hmore s₁ h with hread | hanswer
  · have := List.length_pos_iff.2 hread
    omega
  · have := sizes_of_answer hanswer
    omega

theorem Takes.count (h : Takes n s s₁) :
    n + s.behind.length + s.included.length ≤ s₁.behind.length + s₁.included.length := by
  induction h with
  | refl s => omega
  | @turn n s s₁ s₂ ht _ ih =>
    have hone := turn_count ht
    omega

/-- A turn that includes nothing leaves less ahead. -/
theorem turn_shrinks (h : s.turn = .more s₁) :
    s.included.length < s₁.included.length ∨
      s₁.included.length = s.included.length ∧ s₁.ahead.length < s.ahead.length := by
  obtain ⟨read, asked, hmoves, hmore⟩ := s.turn_moves
  rw [h, Progress.scan] at hmoves
  rw [hmoves.included, List.length_append]
  by_cases hanswer : s.answer asked = []
  · have hread := List.length_pos_iff.2 ((hmore s₁ h).resolve_right (fun hne => hne hanswer))
    obtain ⟨rest, hahead, hahead₁⟩ := hmoves.ahead
    rw [hahead, hahead₁, hanswer, List.nil_append, List.length_append,
      sizes_of_no_answer hanswer, List.length_nil]
    omega
  · have := sizes_of_answer hanswer
    omega

/-! ### The end -/

/-- **Scans end.**  A scan that includes so many texts at most comes to its end.  An include leaves
fewer of them, and every other turn leaves less to read. -/
theorem run_ends (s : Scan) (h : ∀ s₁, Reaches s s₁ → s₁.included.length ≤ H) :
    ∃ turns p, s.run turns = some p := by
  cases hturn : s.turn with
  | done s₁ => exact ⟨1, .done s₁, by rw [run, hturn]⟩
  | fault f p s₁ => exact ⟨1, .fault f p s₁, by rw [run, hturn]⟩
  | more s₁ =>
    have hle := h s₁ (.head hturn (.refl s₁))
    have hshrinks := turn_shrinks hturn
    obtain ⟨turns, p, hp⟩ := run_ends s₁ fun s₂ h₂ => h s₂ (.head hturn h₂)
    exact ⟨turns + 1, p, by rw [run, hturn]; exact hp⟩
termination_by (H - s.included.length, s.ahead.length)
decreasing_by
  rcases hshrinks with hlt | ⟨heq, hlt⟩
  · exact Prod.Lex.left _ _ (by omega)
  · rw [heq]
    exact Prod.Lex.right _ hlt

/-- A run that ends is some turns that go on and a last one. -/
theorem exists_last {turns : Nat} {p : Progress} (h : s.run turns = some p) :
    ∃ n s₁, Takes n s s₁ ∧ s₁.turn = p ∧ s.run (n + 1) = some p := by
  induction turns generalizing s with
  | zero => cases h
  | succ turns ih =>
    rw [run] at h
    cases hturn : s.turn with
    | more s₁ =>
      rw [hturn] at h
      obtain ⟨n, s₂, htakes, hlast, hrun⟩ := ih h
      exact ⟨n + 1, s₂, .turn hturn htakes, hlast, by rw [run, hturn]; exact hrun⟩
    | done s₁ =>
      rw [hturn] at h
      exact ⟨0, s, .refl s, hturn.trans (Option.some.inj h), by rw [run, hturn]; exact h⟩
    | fault f q s₁ =>
      rw [hturn] at h
      exact ⟨0, s, .refl s, hturn.trans (Option.some.inj h), by rw [run, hturn]; exact h⟩

/-! ### Answers -/

/-- Every included text is an answer of the engine. -/
theorem Takes.answers {k : Nat} (h : Takes n s s₁) (he : s.engine.AnswersAtMost k) :
    ∃ l, s₁.engine.AnswersAtMost l ∧ s₁.included.length + l ≤ s.included.length + k := by
  induction h generalizing k with
  | refl s => exact ⟨k, he, Nat.le_refl _⟩
  | @turn n s s₁ s₂ ht _ ih =>
    obtain ⟨read, asked, hmoves, -⟩ := s.turn_moves
    rw [ht, Progress.scan] at hmoves
    have hincluded := congrArg List.length hmoves.included
    rw [List.length_append] at hincluded
    obtain ⟨l, hl, hle⟩ : ∃ l, s₁.engine.AnswersAtMost l ∧ (s.sizes asked).length + l ≤ k := by
      rw [hmoves.engine]
      cases asked with
      | none => exact ⟨k, he, by simp [sizes, reported]⟩
      | some path =>
        rw [length_sizes]
        exact he.resolve _
    obtain ⟨m, hm, hle'⟩ := ih hl
    exact ⟨m, hm, by omega⟩

end Scan

open Scan

variable {e : Engine} {o : Option String} {source : String}

/-- An engine that answers so often at most includes no more texts. -/
theorem included_le {H : Nat} (he : e.AnswersAtMost H) {s : Scan}
    (hs : Reaches (.start e o source) s) : s.included.length ≤ H := by
  obtain ⟨n, hn⟩ := hs
  obtain ⟨l, -, hle⟩ := hn.answers he
  rw [show (Scan.start e o source).included = [] from rfl, List.length_nil] at hle
  omega

/-- **Reading ends whenever includes do.**  If so many texts are included at most, reading a
template comes to its end, in no more turns than the template and the included texts have bytes,
one for each include, and one for the end. -/
theorem run_ends_within {H : Nat}
    (h : ∀ s, Reaches (.start e o source) s → s.included.length ≤ H) :
    ∃ turns p, (Scan.start e o source).run turns = some p ∧ (∀ s, p ≠ .more s) ∧
      Text.byteSize p.scan.expanded = source.utf8ByteSize + p.scan.included.sum ∧
      turns ≤ source.utf8ByteSize + p.scan.included.sum + H + 1 := by
  obtain ⟨turns, p, hp⟩ := run_ends _ h
  obtain ⟨n, s, htakes, hlast, hrun⟩ := exists_last hp
  have hstart : Text.byteSize (Scan.start e o source).expanded = source.utf8ByteSize :=
    (Text.utf8ByteSize_eq source).symm
  have hnone : (Scan.start e o source).included = [] := rfl
  have hstop : ∀ s₁, p ≠ .more s₁ := by
    rintro s₁ rfl
    exact run_ne_more _ _ _ hrun
  -- the turns before the last one read characters of the template, or include
  have hcount := htakes.count
  have hsize := htakes.size
  have hread := Text.length_le_byteSize s.behind.reverse
  have hbehind : Text.byteSize s.expanded =
      Text.byteSize s.behind.reverse + Text.byteSize s.ahead := Text.byteSize_append _ _
  have hincluded := h s ⟨n, htakes⟩
  -- the last one takes nothing away
  have hend := s.turn_size
  rw [hlast] at hend
  obtain ⟨read, asked, hmoves, -⟩ := s.turn_moves
  have hsum := congrArg List.sum hmoves.included
  rw [hlast, List.sum_append] at hsum
  rw [hnone, List.sum_nil, hstart] at hsize
  rw [hnone, List.length_nil, show (Scan.start e o source).behind = [] from rfl,
    List.length_nil] at hcount
  rw [List.length_reverse] at hread
  refine ⟨n + 1, p, hrun, hstop, ?_, ?_⟩ <;> omega

/-- An engine that knows one text, which includes itself, and answers three times. -/
def threeTimes : Engine := ⟨.empty, [.ofMap [("a", "b\x7b% include a %\x7d")] 3], none⟩

/-- A template that includes itself. -/
theorem run_ends_within_itself :
    (∀ s, Reaches (.start threeTimes none "\x7b% include a %\x7d") s → s.included.length ≤ 3) ∧
    ∃ turns p, (Scan.start threeTimes none "\x7b% include a %\x7d").run turns = some p ∧
      (∀ s, p ≠ .more s) ∧
      Text.byteSize p.scan.expanded =
        "\x7b% include a %\x7d".utf8ByteSize + p.scan.included.sum ∧
      turns ≤ "\x7b% include a %\x7d".utf8ByteSize + p.scan.included.sum + 3 + 1 := by
  have hmost : threeTimes.AnswersAtMost ([3].sum + [].sum) :=
    Engine.answersAtMost_sum (.cons (Include.Resolver.answersAtMost_ofMap _ 3) .nil) .nil
  have hincluded (s : Scan) (hs : Reaches (.start threeTimes none "\x7b% include a %\x7d") s) :
      s.included.length ≤ 3 := included_le hmost hs
  exact ⟨hincluded, run_ends_within hincluded⟩

end Stencil.Template
