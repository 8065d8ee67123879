import Mathlib.Data.List.Basic
import Stencil.Text.Utf8

/-!
# Offsets in a text

An offset counts bytes.  `cut?` cuts a text in two at an offset and `slice?` takes the piece
between two offsets; both have no answer at an offset that is outside of the text or inside one of
its characters.

* `Text.cut?_eq_some` : the offsets at which a text can be cut are the sizes of its beginnings.
* `Text.slice?_eq_some` : what can be sliced is what stands between a beginning and an end.
-/

namespace Stencil.Text

/-! ### Sizes -/

@[simp] theorem byteSize_nil : byteSize [] = 0 := rfl

@[simp] theorem byteSize_cons (c : Char) (s : List Char) :
    byteSize (c :: s) = c.utf8Size + byteSize s := by
  simp [byteSize]

@[simp] theorem byteSize_append (s t : List Char) :
    byteSize (s ++ t) = byteSize s + byteSize t := by
  simp [byteSize]

@[simp] theorem byteSize_reverse (s : List Char) : byteSize s.reverse = byteSize s := by
  induction s with
  | nil => rfl
  | cons c s ih =>
    rw [List.reverse_cons, byteSize_append, byteSize_cons, byteSize_cons, byteSize_nil, ih]
    omega

/-- Every character takes a byte at least. -/
theorem length_le_byteSize (s : List Char) : s.length ≤ byteSize s := by
  induction s with
  | nil => exact Nat.le_refl _
  | cons c s ih =>
    have := c.utf8Size_pos
    rw [List.length_cons, byteSize_cons]
    omega

theorem byteSize_pos {s : List Char} (h : s ≠ []) : 0 < byteSize s :=
  Nat.lt_of_lt_of_le (List.length_pos_iff.2 h) (length_le_byteSize s)

theorem utf8ByteSize_ofList (s : List Char) : (String.ofList s).utf8ByteSize = byteSize s := by
  induction s with
  | nil => rfl
  | cons c s ih =>
    rw [String.ofList_cons, String.utf8ByteSize_append, String.utf8ByteSize_singleton, ih,
      byteSize_cons]

theorem utf8ByteSize_eq (text : String) : text.utf8ByteSize = byteSize text.toList := by
  rw [← utf8ByteSize_ofList, String.ofList_toList]

/-! ### Cutting -/

/-- Cuts a text at an offset. -/
def cut? : List Char → Nat → Option (List Char × List Char)
  | s, 0 => some ([], s)
  | [], _ + 1 => none
  | c :: s, n + 1 =>
    if c.utf8Size ≤ n + 1 then (cut? s (n + 1 - c.utf8Size)).map fun (a, b) => (c :: a, b)
    else none

/-- The piece of a text between two offsets. -/
def slice? (s : List Char) (m n : Nat) : Option (List Char) := do
  let (a, _) ← cut? s n
  let (_, b) ← cut? a m
  pure b

/-- An offset at which a text can be cut. -/
def IsBoundary (s : List Char) (n : Nat) : Prop := (cut? s n).isSome

@[simp] theorem cut?_zero (s : List Char) : cut? s 0 = some ([], s) := by
  rw [cut?]

theorem cut?_append (a b : List Char) : cut? (a ++ b) (byteSize a) = some (a, b) := by
  induction a with
  | nil => exact cut?_zero b
  | cons c a ih =>
    obtain ⟨k, hk⟩ : ∃ k, c.utf8Size = k + 1 := ⟨c.utf8Size - 1, by have := c.utf8Size_pos; omega⟩
    rw [byteSize_cons, List.cons_append, show c.utf8Size + byteSize a = k + byteSize a + 1 by omega,
      cut?, if_pos (by omega), show k + byteSize a + 1 - c.utf8Size = byteSize a by omega, ih]
    rfl

/-- **Boundaries.**  The offsets at which a text can be cut are the sizes of its beginnings. -/
theorem cut?_eq_some {s a b : List Char} {n : Nat} :
    cut? s n = some (a, b) ↔ s = a ++ b ∧ n = byteSize a := by
  refine ⟨fun h => ?_, fun ⟨hs, hn⟩ => hs ▸ hn ▸ cut?_append a b⟩
  induction s generalizing n a with
  | nil =>
    cases n with
    | zero => simp_all [cut?]
    | succ n => simp [cut?] at h
  | cons c s ih =>
    cases n with
    | zero =>
      rw [cut?_zero] at h
      cases h
      exact ⟨rfl, rfl⟩
    | succ n =>
      rw [cut?] at h
      split at h
      next hle =>
        obtain ⟨⟨a', b'⟩, hcut, heq⟩ := Option.map_eq_some_iff.1 h
        cases heq
        obtain ⟨hs, hn⟩ := ih hcut
        refine ⟨by rw [hs, List.cons_append], ?_⟩
        rw [byteSize_cons]
        omega
      next => cases h

theorem isBoundary_append (a b : List Char) : IsBoundary (a ++ b) (byteSize a) := by
  rw [IsBoundary, cut?_append]
  rfl

/-- **Slices.**  What can be sliced is what stands between a beginning and an end. -/
theorem slice?_eq_some {s t : List Char} {m n : Nat} :
    slice? s m n = some t ↔ ∃ a b, s = a ++ t ++ b ∧ m = byteSize a ∧ n = byteSize (a ++ t) := by
  simp only [slice?, Option.bind_eq_bind, Option.pure_def, Option.bind_eq_some_iff, Prod.exists,
    Option.some.injEq, cut?_eq_some]
  constructor
  · rintro ⟨p, b, ⟨rfl, rfl⟩, a, t', ⟨rfl, rfl⟩, rfl⟩
    exact ⟨a, b, rfl, rfl, rfl⟩
  · rintro ⟨a, b, rfl, rfl, rfl⟩
    exact ⟨a ++ t, b, ⟨rfl, rfl⟩, a, t, ⟨rfl, rfl⟩, rfl⟩

theorem slice?_append (a t b : List Char) :
    slice? (a ++ t ++ b) (byteSize a) (byteSize (a ++ t)) = some t :=
  slice?_eq_some.2 ⟨a, b, rfl, rfl, rfl⟩

end Stencil.Text
