import Mathlib.Data.List.TakeWhile
import Stencil.Error
import Stencil.Proofs.Text.Offsets

/-!
# Reports by offsets

An error knows the text of its template and two offsets in it.  To show them, the line of the first one
is looked for among the lines of the text, and the text is cut at both: `report?` has no answer where one
of the cuts is out of range.  A place that does not start at the end of its text is shown as
`Place.report` shows it (`Place.report?_eq`).
-/

namespace Stencil

open Stencil.Text (byteSize cut? slice?)

/-- The lines of a text; a line feed at its end starts no line. -/
def linesOf : List Char → List (List Char)
  | [] => []
  | c :: text =>
    if c = '\n' then [] :: linesOf text
    else
      match linesOf text with
      | [] => [[c]]
      | line :: lines => (c :: line) :: lines

/-- The line of an offset and its column, both from zero, among lines of which the first is the
`line`-th one and starts at `start`.  An offset after all lines is put at the end of the last one, of
which the number and the width are given. -/
def lineColumnFrom (offset : Nat) (last : Nat × Nat) :
    (line start : Nat) → List (List Char) → Option (Nat × Nat)
  | _, _, [] => some last
  | line, start, text :: rest =>
    if offset < start + (byteSize text + 1) then
      if start ≤ offset then
        (cut? text (offset - start)).map fun cut => (line, Text.width cut.1)
      else none
    else lineColumnFrom offset last (line + 1) (start + (byteSize text + 1)) rest

/-- The line of an offset and its column, both from zero. -/
def lineColumn? (lines : List (List Char)) (offset : Nat) : Option (Nat × Nat) :=
  lineColumnFrom offset (lines.length, (lines.getLast?.map Text.width).getD 0) 0 0 lines

/-- A stretch that starts on a line, from zero, at a column, with a message below it. -/
def layout (message : String) (line column : Nat) (code marked : List Char) : String :=
  let number := toString (line + 1)
  let gutter := Place.blanks number.length
  let carets := String.ofList (List.replicate (max 1 (Text.width marked)) '^')
  "\n " ++ gutter ++ " |\n " ++ number ++ " | " ++ String.ofList code ++ "\n " ++ gutter ++
    " | " ++ Place.blanks column ++ carets ++ " " ++ message ++ "\n"

/-- The stretch of a text between two offsets with a message below it. -/
def report? (message : String) (text : List Char) (start stop : Nat) : Option String := do
  let lines := linesOf text
  let (line, column) ← lineColumn? lines start
  let marked ← slice? text start stop
  some (layout message line column ((lines[line]?.or lines.getLast?).getD []) marked)

/-! ### Lines -/

theorem inLine_newline : Place.inLine '\n' = false := by decide

theorem inLine_of_ne {c : Char} (h : c ≠ '\n') : Place.inLine c = true := by
  simp [Place.inLine, h]

theorem takeWhile_newline (text rest : List Char) :
    (text ++ '\n' :: rest).takeWhile Place.inLine = text.takeWhile Place.inLine := by
  induction text with
  | nil => simp [inLine_newline]
  | cons c text ih => simp only [List.cons_append, List.takeWhile_cons, ih]

theorem linesOf_newline {line : List Char} (h : '\n' ∉ line) (rest : List Char) :
    linesOf (line ++ '\n' :: rest) = line :: linesOf rest := by
  induction line with
  | nil => rw [List.nil_append, linesOf, if_pos rfl]
  | cons c line ih =>
    rw [List.mem_cons, not_or] at h
    rw [List.cons_append, linesOf, if_neg (Ne.symm h.1), ih h.2]

/-- A text that is not empty has a first line. -/
theorem linesOf_eq_cons {text : List Char} (h : text ≠ []) :
    ∃ lines, linesOf text = text.takeWhile Place.inLine :: lines := by
  induction text with
  | nil => exact absurd rfl h
  | cons c text ih =>
    rw [linesOf]
    by_cases hc : c = '\n'
    · rw [if_pos hc, hc, List.takeWhile_cons_of_neg (by decide)]
      exact ⟨_, rfl⟩
    · rw [if_neg hc, List.takeWhile_cons_of_pos (inLine_of_ne hc)]
      cases text with
      | nil => exact ⟨[], rfl⟩
      | cons d text =>
        obtain ⟨lines, hlines⟩ := ih (List.cons_ne_nil d text)
        rw [hlines]
        exact ⟨lines, rfl⟩

/-- **Lines of offsets.**  The line of an offset inside of a text is found. -/
theorem lineColumnFrom_eq (before : List Char) {rest : List Char} (hrest : rest ≠ [])
    (last : Nat × Nat) (line start : Nat) :
    lineColumnFrom (start + byteSize before) last line start (linesOf (before ++ rest)) =
        some (line + before.count '\n',
          Text.width (before.reverse.takeWhile Place.inLine).reverse) ∧
      (linesOf (before ++ rest))[before.count '\n']? =
        some ((before.reverse.takeWhile Place.inLine).reverse ++ rest.takeWhile Place.inLine) := by
  induction hn : before.length using Nat.strong_induction_on generalizing before line start with
  | _ n ih =>
    subst hn
    by_cases hnewline : '\n' ∈ before
    · obtain ⟨first, before', rfl, hfirst⟩ := List.eq_append_cons_of_mem hnewline
      have hlines : linesOf (first ++ '\n' :: before' ++ rest) =
          first :: linesOf (before' ++ rest) := by
        rw [List.append_assoc, List.cons_append, linesOf_newline hfirst]
      have hcount : (first ++ '\n' :: before').count '\n' = before'.count '\n' + 1 := by
        rw [List.count_append, List.count_cons_self, List.count_eq_zero.2 hfirst, Nat.zero_add]
      have hstart : (first ++ '\n' :: before').reverse.takeWhile Place.inLine =
          before'.reverse.takeWhile Place.inLine := by
        rw [List.reverse_append, List.reverse_cons, List.append_assoc, List.singleton_append,
          takeWhile_newline]
      have hsize : start + byteSize (first ++ '\n' :: before') =
          start + (byteSize first + 1) + byteSize before' := by
        rw [Text.byteSize_append, Text.byteSize_cons]
        have : '\n'.utf8Size = 1 := rfl
        omega
      obtain ⟨hcolumn, hline⟩ := ih before'.length
        (by rw [List.length_append, List.length_cons]; omega) before' (line + 1)
        (start + (byteSize first + 1)) rfl
      rw [hlines, hcount, hstart, hsize, lineColumnFrom, if_neg (by omega), hcolumn,
        List.getElem?_cons_succ, hline]
      exact ⟨by rw [Nat.add_assoc, Nat.add_comm 1], rfl⟩
    · have hall : ∀ c ∈ before, Place.inLine c = true := fun c hc =>
        inLine_of_ne fun h => hnewline (h ▸ hc)
      obtain ⟨lines, hlines⟩ := linesOf_eq_cons (List.append_ne_nil_of_right_ne_nil before hrest)
      rw [List.takeWhile_append_of_pos hall] at hlines
      have hstart : (before.reverse.takeWhile Place.inLine).reverse = before := by
        rw [List.takeWhile_eq_self_iff.2 fun c hc => hall c (List.mem_reverse.1 hc),
          List.reverse_reverse]
      rw [hlines, hstart, List.count_eq_zero.2 hnewline, lineColumnFrom,
        if_pos (by rw [Text.byteSize_append]; omega), if_pos (Nat.le_add_right _ _),
        Nat.add_sub_cancel_left, Text.cut?_append]
      exact ⟨rfl, rfl⟩

/-! ### Places -/

namespace Place

variable {p : Place}

/-- **Reports.**  A place that does not start at the end of its text can be shown by its offsets. -/
theorem report?_eq (h : p.marked ++ p.after ≠ []) (message : String) :
    report? message p.text p.start p.stop = some (p.report message) := by
  have htext : p.text = p.before ++ (p.marked ++ p.after) := by rw [text, List.append_assoc]
  have hslice : slice? p.text p.start p.stop = some p.marked := Text.slice?_append _ _ _
  obtain ⟨hcolumn, hline⟩ := lineColumnFrom_eq p.before h
    ((linesOf p.text).length, ((linesOf p.text).getLast?.map Text.width).getD 0) 0 0
  rw [← htext] at hline
  rw [← htext, Nat.zero_add, Nat.zero_add] at hcolumn
  have hcolumn' : lineColumn? (linesOf p.text) p.start =
      some (p.before.count '\n', p.column) := hcolumn
  have hlayout : p.report message =
      layout message (p.before.count '\n') p.column p.line p.marked := rfl
  rw [report?, hcolumn', hlayout]
  simp only [Option.bind_eq_bind, Option.bind_some, hslice, hline]
  rfl

theorem start_le_stop (p : Place) : p.start ≤ p.stop := by
  rw [start, stop, Text.byteSize_append]
  omega

end Place

end Stencil
