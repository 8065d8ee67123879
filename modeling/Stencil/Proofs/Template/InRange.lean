import Stencil.Proofs.Template.Bounds
import Stencil.Proofs.Template.Reported
import Stencil.Template.Reading

/-!
# Templates are read in range

* `Cursor.InRange` : the stack is not empty, and the offsets are boundaries of the template.
* `Agrees` : a scan by offsets makes no misstep and ends like the scan without offsets.
* `Scan.view_reaches` : a scan by offsets is always a scan that is sound, seen by offsets.
* `read_in_range` : so it stays in range, makes no misstep, and the errors that come of it can be
  shown.
-/

namespace Stencil

/-- Two offsets between which a stretch of a text stands, the first one not at its end. -/
structure IsSpan (text : List Char) (m n : Nat) : Prop where
  /-- The stretch does not end before it starts. -/
  ordered : m ≤ n
  /-- It ends in the text. -/
  stop : n ≤ Text.byteSize text
  /-- Something stands at or after its start. -/
  start : m < Text.byteSize text
  /-- It starts between characters. -/
  startBoundary : Text.IsBoundary text m
  /-- It ends between characters. -/
  stopBoundary : Text.IsBoundary text n

theorem Place.LiesIn.isSpan {p : Place} {text : List Char} (h : p.LiesIn text) :
    IsSpan text p.start p.stop := by
  have hstart : text = p.before ++ (p.marked ++ p.after) := by
    rw [← h.text, Place.text, List.append_assoc]
  have hstop : text = (p.before ++ p.marked) ++ p.after := by rw [← h.text, Place.text]
  have hrest := Text.byteSize_pos h.rest
  refine ⟨p.start_le_stop, ?_, ?_, ?_, ?_⟩
  · rw [hstop, Place.stop, Text.byteSize_append _ p.after]
    omega
  · rw [hstart, Place.start, Text.byteSize_append p.before]
    omega
  · rw [hstart]
    exact Text.isBoundary_append _ _
  · rw [hstop]
    exact Text.isBoundary_append _ _

end Stencil

namespace Stencil.Template

open Stencil.Text (byteSize)

namespace Cursor

/-- A cursor that a scan comes to; the last one is where the template has ended. -/
inductive Reaches : Cursor → Cursor → Prop
  | refl (c : Cursor) : Reaches c c
  | last {c c₁ : Cursor} : c.turn = .ok (false, c₁) → Reaches c c₁
  | turn {c c₁ c₂ : Cursor} : c.turn = .ok (true, c₁) → Reaches c₁ c₂ → Reaches c c₂

/-- An entry of the stack for a tag that was opened before the offset. -/
structure TagInRange (c : Cursor) (e : Entry) : Prop where
  /-- It is an entry for a tag. -/
  scope : e.scope ≠ none
  /-- The tag starts between characters. -/
  boundary : Text.IsBoundary c.source e.start
  /-- The tag starts before the offset. -/
  start : e.start < c.offset

/-- What holds of a cursor at any time. -/
structure InRange (c : Cursor) : Prop where
  /-- The lowest entry of the stack is the only one for text outside of tags, and it holds none while
  a tag is open. -/
  stack : ∃ tags bottom, c.stack = tags ++ [bottom] ∧ bottom.scope = none ∧
    (tags ≠ [] → bottom.text = []) ∧ ∀ e ∈ tags, c.TagInRange e
  /-- The offset is between characters. -/
  boundary : Text.IsBoundary c.source c.offset
  /-- The offset is in the template. -/
  offset : c.offset ≤ byteSize c.source

end Cursor

/-- What comes of a run by offsets, beside what comes of the run without them. -/
inductive Agrees : Option Progress → Option (Checked Cursor) → Prop
  /-- The turns are not enough. -/
  | short : Agrees none none
  /-- The template ends. -/
  | done (s : Scan) (n : Nat) : Agrees (some (.done s)) (some (.ok (s.view n)))
  /-- The template is wrong between two offsets of it. -/
  | fault (f : TagFault) (p : Place) (s : Scan) (n : Nat) : p.LiesIn s.expanded →
      Agrees (some (.fault f p s)) (some (.fault f p.start p.stop (s.view n)))

namespace Scan

variable {s : Scan} {n : Nat} {c : Cursor}

theorem view_start (e : Engine) (o : Option String) (source : String) :
    (start e o source).view 0 = Cursor.start e o source := rfl

/-- A sound scan is in range. -/
theorem view_inRange (hs : Sound s) : (s.view n).InRange := by
  refine ⟨⟨s.tags.map OpenTag.entry, ⟨none, s.raw, n⟩, rfl, rfl, fun hne => ?_, fun e he => ?_⟩,
    ?_, ?_⟩
  · exact hs.raw fun hnil => hne (by rw [hnil]; rfl)
  · obtain ⟨t, ht, rfl⟩ := List.mem_map.1 he
    obtain ⟨⟨later, hbehind⟩, hlength, -⟩ := hs.tags t ht
    have hlater : later ≠ [] := by
      rintro rfl
      rw [← hbehind] at hlength
      exact Nat.lt_irrefl _ hlength
    refine ⟨by simp [OpenTag.entry_scope], ?_, ?_⟩
    · change Text.IsBoundary s.expanded (byteSize t.before)
      rw [expanded, ← hbehind, List.reverse_append, List.append_assoc, ← Text.byteSize_reverse]
      exact Text.isBoundary_append _ _
    · change byteSize t.before < byteSize s.behind
      have := Text.byteSize_pos hlater
      rw [← hbehind, Text.byteSize_append]
      omega
  · change Text.IsBoundary s.expanded (byteSize s.behind)
    rw [expanded, ← Text.byteSize_reverse]
    exact Text.isBoundary_append _ _
  · change byteSize s.behind ≤ byteSize s.expanded
    rw [expanded, Text.byteSize_append, Text.byteSize_reverse]
    omega

theorem turn_done (hs : Sound s) {s₁ : Scan} (hdone : s.turn = .done s₁) : Sound s₁ := by
  cases ha : s.ahead with
  | nil =>
    rw [turn, ha] at hdone
    exact hs.flush_done hdone
  | cons x rest =>
    have hstep := view_step (n := 0) hs ha
    rw [← turn_cons ha, hdone] at hstep
    exact hstep.elim

/-- A turn by offsets that goes well leads to a sound scan. -/
theorem view_turn_ok (hs : Sound s) {more : Bool} (h : (s.view n).turn = .ok (more, c)) :
    ∃ s₁ m, Sound s₁ ∧ c = s₁.view m := by
  have hturn := view_turn (n := n) hs
  rw [h] at hturn
  cases hp : s.turn with
  | more s₁ =>
    rw [hp] at hturn
    obtain ⟨m, hm⟩ := hturn
    cases hm
    exact ⟨s₁, m, hs.turn hp, rfl⟩
  | done s₁ =>
    rw [hp] at hturn
    obtain ⟨m, hm⟩ := hturn
    cases hm
    exact ⟨s₁, m, turn_done hs hp, rfl⟩
  | fault f p s₁ =>
    rw [hp] at hturn
    obtain ⟨-, m, hm⟩ := hturn
    cases hm

/-- What a scan by offsets comes to is sound. -/
theorem view_reaches (hs : Sound s) (h : Cursor.Reaches (s.view n) c) :
    ∃ s₁ m, Sound s₁ ∧ c = s₁.view m := by
  generalize hview : s.view n = c₀ at h
  induction h generalizing s n with
  | refl c => exact ⟨s, n, hs, hview.symm⟩
  | last hlast => exact view_turn_ok (n := n) hs (by rw [hview, hlast])
  | turn hmore _ ih =>
    obtain ⟨s₁, m, hs₁, rfl⟩ := view_turn_ok (n := n) hs (by rw [hview, hmore])
    exact ih hs₁ rfl

/-- What a scan comes to, a scan by offsets comes to as well. -/
theorem reaches_view {s₁ : Scan} (hs : Sound s) (h : Reaches s s₁) :
    ∃ m, Cursor.Reaches (s.view n) (s₁.view m) := by
  obtain ⟨k, htakes⟩ := h
  induction htakes generalizing n with
  | refl s => exact ⟨n, .refl _⟩
  | turn hmore _ ih =>
    have hturn := view_turn (n := n) hs
    rw [hmore] at hturn
    obtain ⟨m, hm⟩ := hturn
    obtain ⟨m', hreaches⟩ := ih (n := m) (hs.turn hmore)
    exact ⟨m', .turn hm hreaches⟩

/-- A run by offsets makes no misstep. -/
theorem view_run (hs : Sound s) (turns : Nat) : Agrees (s.run turns) ((s.view n).run turns) := by
  induction turns generalizing s n with
  | zero => exact .short
  | succ turns ih =>
    have hturn := view_turn (n := n) hs
    rw [run, Cursor.run]
    cases hp : s.turn with
    | more s₁ =>
      rw [hp] at hturn
      obtain ⟨m, hm⟩ := hturn
      rw [hm]
      exact ih (hs.turn hp)
    | done s₁ =>
      rw [hp] at hturn
      obtain ⟨m, hm⟩ := hturn
      rw [hm]
      exact .done s₁ m
    | fault f p s₁ =>
      rw [hp] at hturn
      obtain ⟨hin, m, hm⟩ := hturn
      rw [hm]
      exact .fault f p s₁ m hin

end Scan

/-- An error that can be shown between two offsets of a text. -/
structure CanBeShown (err : Error) (text : List Char) (m n : Nat) : Prop where
  /-- The template is to blame, or an include that nobody knows. -/
  kind : err.kind = .syntaxKind ∨ err.kind = .resolveKind
  /-- The offsets are those of a stretch of the text. -/
  span : IsSpan text m n
  /-- Its place is shown to a reader. -/
  pretty : report? err.message text m n = some err.pretty
  /-- Its place is shown to a developer. -/
  debug : report? err.message text m n = some err.debug

theorem canBeShown_of_liesIn {p : Place} {text : List Char} (h : p.LiesIn text)
    (f : TagFault) : CanBeShown (.tag f p) text p.start p.stop := by
  have hreport : report? f.message text p.start p.stop = some (p.report f.message) := by
    rw [← h.text]
    exact Place.report?_eq h.rest f.message
  refine ⟨?_, h.isSpan, hreport, hreport⟩
  cases f with
  | unresolved _ => exact .inr rfl
  | unknownTag _ => exact .inl rfl
  | expectedEnd _ => exact .inl rfl
  | expectedBlockName => exact .inl rfl

variable {e : Engine} {o : Option String} {source : String} {turns : Nat}

theorem Agrees.ne_misstep {r : Option Progress} {r' : Option (Checked Cursor)} (h : Agrees r r')
    (m : Misstep) : r' ≠ some (.misstep m) := by
  cases h <;> simp

/-- An error of reading stands between two offsets of the template with its includes. -/
theorem read_error {err : Error} (h : (read turns e o source).outcome = .error (.error err)) :
    ∃ f p c, err = .tag f p ∧
      (Cursor.start e o source).run turns = some (.fault f p.start p.stop c) ∧
      CanBeShown err c.source p.start p.stop := by
  have hagrees := Scan.view_run (n := 0) (Scan.sound_start e o source) turns
  rw [Scan.view_start] at hagrees
  rw [read] at h
  generalize hrun : (Scan.start e o source).run turns = r at h hagrees
  generalize (Cursor.start e o source).run turns = r' at hagrees
  cases hagrees with
  | short => cases h
  | done s n => cases h
  | fault f p s n hin =>
    cases h
    exact ⟨f, p, s.view n, rfl, rfl, canBeShown_of_liesIn hin f⟩

/-- **Ranges.**  A scan by offsets goes where the scan goes and stays in range; it makes no misstep and
ends like the scan; and an error that comes of it can be shown. -/
theorem read_in_range (turns : Nat) (e : Engine) (o : Option String) (source : String) :
    (∀ s, Scan.Reaches (.start e o source) s →
      ∃ n, Cursor.Reaches (.start e o source) (s.view n)) ∧
    (∀ c, Cursor.Reaches (.start e o source) c → c.InRange) ∧
    (∀ m, (Cursor.start e o source).run turns ≠ some (.misstep m)) ∧
    Agrees ((Scan.start e o source).run turns) ((Cursor.start e o source).run turns) ∧
    ∀ err, (read turns e o source).outcome = .error (.error err) →
      ∃ f p c, err = .tag f p ∧
        (Cursor.start e o source).run turns = some (.fault f p.start p.stop c) ∧
        CanBeShown err c.source p.start p.stop := by
  have hsound := Scan.sound_start e o source
  have hagrees : Agrees _ ((Cursor.start e o source).run turns) :=
    Scan.view_run (n := 0) hsound turns
  refine ⟨fun s hs => Scan.reaches_view (n := 0) hsound hs, fun c hc => ?_, hagrees.ne_misstep,
    hagrees, fun err => read_error⟩
  obtain ⟨s, n, hs, rfl⟩ := Scan.view_reaches (n := 0) hsound hc
  exact Scan.view_inRange hs

/-- An unknown tag behind a character of two bytes. -/
theorem read_in_range_unknown :
    ∃ c, (Cursor.start {} none "é\x7b% lol %\x7d").run 20 =
        some (.fault (.unknownTag "lol") 5 8 c) ∧
      CanBeShown (.tag (.unknownTag "lol") ⟨"é\x7b% ".toList, "lol".toList, " %\x7d".toList⟩)
        c.source 5 8 := by
  obtain ⟨-, -, -, -, herror⟩ := read_in_range 20 {} none "é\x7b% lol %\x7d"
  obtain ⟨f, p, c, herr, hrun, hshown⟩ := herror
    (.tag (.unknownTag "lol") ⟨"é\x7b% ".toList, "lol".toList, " %\x7d".toList⟩) (by rfl)
  cases herr
  exact ⟨c, hrun, hshown⟩

end Stencil.Template
