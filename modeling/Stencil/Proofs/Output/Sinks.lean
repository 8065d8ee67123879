import Stencil.Proofs.Template.Refused

/-!
# What a sink gets

A sink that takes at most `k` bytes at a time and fails after `n` writes has room for `n * k` bytes.  It gets the
beginning of what is to be written, as much as there is room for, and everything is written exactly if all of it
has room.

* `Sink.write_limited` : one write.
* `Sink.writeAll_limited` : the loop of writes.
* `Procedure.renderTo_limited` : so the output of a template is written whole, or its beginning is, and the
  error says which limit was hit.
-/

namespace Stencil

open Text (Bytes bytesOf)

namespace Sink

/-- Why a sink with no room left takes no more: it takes nothing at a time, or it fails. -/
def refusal (k n : Nat) : Fault := if k = 0 ∧ 0 < n then .stuck else .full

variable {k n : Nat} {written bs : Bytes}

/-- A write takes the next bytes, so many at most, and uses up one of the writes. -/
theorem write_limited : (Sink.mk (some k) (some (n + 1)) written).write bs =
    .ok (min bs.length k, ⟨some k, some n, written ++ bs.take k⟩) := by
  have htake : bs.take (min bs.length k) = bs.take k := by
    rw [← List.take_take, List.take_take, Nat.min_comm, ← List.take_take, List.take_length]
  simp only [write, Option.getD_some, htake]

/-- **The loop of writes.**  The induction is on the bound of the loop; each write leaves room for one write
less, and what it took is gone from the bytes. -/
theorem writeFrom_limited {turns : Nat} (h : bs.length < turns) :
    ∃ left, writeFrom turns ⟨some k, some n, written⟩ bs =
      (if bs.length ≤ n * k then none else some (refusal k n),
        ⟨some k, some left, written ++ bs.take (n * k)⟩) := by
  induction turns generalizing n written bs with
  | zero => exact absurd h (Nat.not_lt_zero _)
  | succ turns ih =>
    cases bs with
    | nil => exact ⟨n, by simp [writeFrom]⟩
    | cons b bs =>
      cases n with
      | zero =>
        -- there are bytes left and no writes: the sink fails
        refine ⟨0, ?_⟩
        simp [writeFrom, write, refusal]
      | succ n =>
        rw [writeFrom, write_limited]
        cases k with
        | zero =>
          -- the write takes nothing, and so would every other one
          refine ⟨n, ?_⟩
          simp [refusal]
        | succ k =>
          obtain ⟨taken, htaken⟩ : ∃ taken, min (b :: bs).length (k + 1) = taken + 1 :=
            ⟨min bs.length k, by rw [List.length_cons]; omega⟩
          -- what the write took is what is taken from the bytes
          have hdrop : bs.drop taken = (b :: bs).drop (k + 1) := by
            rw [← List.drop_succ_cons (a := b), ← htaken, Nat.min_def]
            split
            next hle => rw [List.drop_length, List.drop_of_length_le hle]
            next => rfl
          rw [htaken]
          simp only [hdrop]
          have hlength : ((b :: bs).drop (k + 1)).length < turns := by
            rw [List.length_drop, List.length_cons] at *
            omega
          obtain ⟨left, hleft⟩ := @ih n (written ++ (b :: bs).take (k + 1)) _ hlength
          refine ⟨left, ?_⟩
          have hroom : ((b :: bs).drop (k + 1)).length ≤ n * (k + 1) ↔
              (b :: bs).length ≤ (n + 1) * (k + 1) := by
            rw [List.length_drop, Nat.succ_mul]
            omega
          have htook : (b :: bs).take (k + 1) ++ ((b :: bs).drop (k + 1)).take (n * (k + 1)) =
              (b :: bs).take ((n + 1) * (k + 1)) := by
            rw [← List.take_add, Nat.succ_mul, Nat.add_comm]
          have hrefusal : refusal (k + 1) n = refusal (k + 1) (n + 1) := by simp [refusal]
          rw [hleft, List.append_assoc, htook, hrefusal]
          simp only [hroom]

/-- **Writing to a sink.**  A sink gets as many bytes as it has room for. -/
theorem writeAll_limited (k n : Nat) (written bs : Bytes) :
    ∃ left, (Sink.mk (some k) (some n) written).writeAll bs =
      (if bs.length ≤ n * k then none else some (refusal k n),
        ⟨some k, some left, written ++ bs.take (n * k)⟩) :=
  writeFrom_limited (Nat.lt_succ_self _)

theorem refusal_message (k n : Nat) : (refusal k n).message =
    if k = 0 ∧ 0 < n then "failed to write whole buffer" else "writer is full" := by
  rw [refusal]
  split <;> rfl

end Sink

namespace Procedure

variable {p : Procedure} {fuel : Nat} {data options : Data.Value} {sink sink' : Sink} {text : String}

/-- The output of a template is written, and a fault of the sink is the answer. -/
theorem renderTo_of_ok (h : p.render fuel data options = .ok text) {fault : Option Sink.Fault}
    (hwrite : sink.writeAll (bytesOf text) = (fault, sink')) :
    p.renderTo fuel data options sink = (fault.elim (.ok ()) fun fault =>
      .error (.error (.io "failed to write rendered template" fault.message)), sink') := by
  rw [renderTo, h]
  dsimp only
  rw [hwrite]
  cases fault <;> rfl

/-- There is room for a text that is empty, and for no other one where nothing is taken at a time. -/
theorem length_le_iff {k n : Nat} : (bytesOf text).length ≤ n * k ↔
    text = "" ∨ 0 < k ∧ n * k ≥ (bytesOf text).length := by
  have hempty : (bytesOf text).length = 0 ↔ text = "" := by
    constructor
    · intro hlength
      exact Text.bytesOf_injective (List.length_eq_zero_iff.1 hlength)
    · rintro rfl
      rfl
  constructor
  · intro hle
    rcases Nat.eq_zero_or_pos k with rfl | hk
    · exact .inl (hempty.1 (Nat.le_zero.1 hle))
    · exact .inr ⟨hk, hle⟩
  · rintro (htext | ⟨-, hle⟩)
    · rw [hempty.2 htext]
      exact Nat.zero_le _
    · exact hle

/-- **Writing output.**  A render that fails is not written: its error is the answer, and the sink has all its
writes left.  Of the text of a render that succeeds, a sink that takes at most `k` bytes at a time and fails after
`n` writes gets the beginning, as long as it has room; that is all of it exactly if the text is empty or there is
room for it, and then there is no error.  Otherwise the error says which of the limits was hit. -/
theorem renderTo_limited (p : Procedure) (fuel : Nat) (data options : Data.Value) (k n : Nat) (written : Bytes) :
    let sink : Sink := ⟨some k, some n, written⟩
    let after := p.renderTo fuel data options sink
    (∀ stop, p.render fuel data options = .error stop → after = (.error stop, sink)) ∧
    ∀ text, p.render fuel data options = .ok text →
      after.2.written = written ++ (bytesOf text).take (min (bytesOf text).length (n * k)) ∧
      (after.1 = .ok () ↔ text = "" ∨ 0 < k ∧ n * k ≥ (bytesOf text).length) ∧
      (after.1 = .ok () → after.2.written = written ++ bytesOf text) ∧
      (after.1 ≠ .ok () → after.1 = .error (.error (.io "failed to write rendered template"
        (if k = 0 ∧ 0 < n then "failed to write whole buffer" else "writer is full")))) := by
  intro sink after
  refine ⟨fun stop h => renderTo_of_error h sink, fun text h => ?_⟩
  obtain ⟨left, hwrite⟩ := Sink.writeAll_limited k n written (bytesOf text)
  have htake : (bytesOf text).take (min (bytesOf text).length (n * k)) = (bytesOf text).take (n * k) := by
    rw [Nat.min_comm, ← List.take_take, List.take_length]
  have hafter : after = _ := renderTo_of_ok h hwrite
  rw [htake, ← length_le_iff, hafter]
  by_cases hroom : (bytesOf text).length ≤ n * k
  · simp [hroom, List.take_of_length_le hroom]
  · simp [hroom, Sink.refusal_message]

/-- A sink with room for two bytes gets the first two of four. -/
theorem renderTo_limited_full :
    let p : Procedure := ⟨none, Template.chunk [.raw "text"]⟩
    let after := p.renderTo 60 (.map []) noOptions ⟨some 2, some 1, []⟩
    p.render 60 (.map []) noOptions = .ok "text" ∧
      after.1 = .error (.error (.io "failed to write rendered template" "writer is full")) ∧
      after.2.written = bytesOf "te" := by
  intro p after
  have hrender : p.render 60 (.map []) noOptions = .ok "text" := by decide +kernel
  obtain ⟨hwritten, hok, -, herror⟩ := (renderTo_limited p 60 (.map []) noOptions 2 1 []).2 "text" hrender
  have hshort : ¬ ("text" = "" ∨ 0 < 2 ∧ 1 * 2 ≥ (bytesOf "text").length) := by decide
  exact ⟨hrender, herror fun h => hshort (hok.1 h), hwritten⟩

end Procedure

end Stencil
