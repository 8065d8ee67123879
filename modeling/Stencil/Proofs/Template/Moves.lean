import Stencil.Proofs.Include.Answers
import Stencil.Proofs.Template.Tags
import Stencil.Proofs.Text.Offsets

/-!
# What a turn moves

A turn of a scan reads some characters, and may ask the engine for one include, whose text it puts
ahead.  Nothing else happens to what is behind and ahead, to the engine and to the events.

* `Scan.Moves s read asked s₁` : `s₁` has read `read` more than `s` and has asked for `asked`.
* `Scan.turn_moves` : every turn moves like that; one that does not end the scan reads something or
  puts something ahead.
* `Scan.Takes.byteSize_expanded` : a template grows by the sizes of the included texts.
-/

namespace Stencil.Template

-- sums as the core library has them, whatever else is imported
attribute [local instance (high)] Zero.ofOfNat0

/-- The scan after a turn. -/
def Progress.scan : Progress → Scan
  | .more s => s
  | .done s => s
  | .fault _ _ s => s

/-- The size of an included text. -/
def includedSize? : Event → Option Nat
  | .splicing _ _ size => some size
  | _ => none

namespace Scan

/-- The sizes of the texts that have been included, the latest first. -/
def included (s : Scan) : List Nat := s.events.filterMap includedSize?

/-! ### Asking -/

/-- What an include tag puts ahead. -/
def answer (s : Scan) : Option String → List Char
  | none => []
  | some path => ((s.engine.resolve ⟨path, s.origin⟩).1.getD "").toList

/-- The engine after an include tag. -/
def engineAsked (s : Scan) : Option String → Engine
  | none => s.engine
  | some path => (s.engine.resolve ⟨path, s.origin⟩).2.1

/-- What is reported of an include tag, the latest first. -/
def reported (s : Scan) : Option String → List Event
  | none => []
  | some path =>
    let (found, _, events) := s.engine.resolve ⟨path, s.origin⟩
    (found.toList.map fun text => .splicing path s.origin text.utf8ByteSize) ++ events.reverse

/-- The sizes of the texts that an include tag puts ahead. -/
def sizes (s : Scan) (asked : Option String) : List Nat :=
  (s.reported asked).filterMap includedSize?

variable {s s₁ s₂ : Scan} {read read' : List Char} {asked : Option String}

theorem sizes_some (path : String) :
    s.sizes (some path) =
      (s.engine.resolve ⟨path, s.origin⟩).1.toList.map String.utf8ByteSize := by
  have hquiet : (s.engine.resolve ⟨path, s.origin⟩).2.2.reverse.filterMap includedSize? = [] := by
    rw [List.filterMap_eq_nil_iff]
    intro ev hev
    obtain ⟨_, _, rfl⟩ := Engine.resolve_events (List.mem_reverse.1 hev)
    rfl
  rw [sizes, reported, List.filterMap_append, hquiet, List.append_nil, List.filterMap_map]
  exact List.filterMap_eq_map (f := String.utf8ByteSize) ▸ rfl

theorem byteSize_answer : Text.byteSize (s.answer asked) = (s.sizes asked).sum := by
  cases asked with
  | none => rfl
  | some path =>
    rw [sizes_some, answer]
    cases (s.engine.resolve ⟨path, s.origin⟩).1 with
    | none => rfl
    | some text => simp [Text.utf8ByteSize_eq]

theorem length_sizes (path : String) :
    (s.sizes (some path)).length = (s.engine.resolve ⟨path, s.origin⟩).1.toList.length := by
  rw [sizes_some, List.length_map]

/-- What is put ahead is the text of one include. -/
theorem sizes_of_answer (h : s.answer asked ≠ []) : (s.sizes asked).length = 1 := by
  cases asked with
  | none => exact absurd rfl h
  | some path =>
    rw [length_sizes]
    cases hans : (s.engine.resolve ⟨path, s.origin⟩).1 with
    | none => exact absurd (by rw [answer, hans]; rfl) h
    | some text => rfl

/-- An include that is found puts something ahead. -/
theorem answer_ne_nil {path text : String}
    (h : (s.engine.resolve ⟨path, s.origin⟩).1 = some text) : s.answer (some path) ≠ [] := by
  rw [answer, h]
  exact fun hnil => Engine.resolve_ne_empty h (String.toList_eq_nil_iff.1 hnil)

/-- An include that puts nothing ahead is not found. -/
theorem sizes_of_no_answer (h : s.answer asked = []) : s.sizes asked = [] := by
  cases asked with
  | none => rfl
  | some path =>
    rw [sizes_some]
    cases hans : (s.engine.resolve ⟨path, s.origin⟩).1 with
    | none => rfl
    | some text => exact absurd h (answer_ne_nil hans)

/-! ### Moving -/

/-- One scan has read some characters more than another one, and has asked for an include after
that. -/
structure Moves (s : Scan) (read : List Char) (asked : Option String) (s₁ : Scan) : Prop where
  /-- What has been read is behind. -/
  behind : s₁.behind = read.reverse ++ s.behind
  /-- The text of the include stands before what has not been read. -/
  ahead : ∃ rest, s.ahead = read ++ rest ∧ s₁.ahead = s.answer asked ++ rest
  /-- The engine has been asked. -/
  engine : s₁.engine = s.engineAsked asked
  /-- The template is the same. -/
  origin : s₁.origin = s.origin
  /-- The include is reported. -/
  events : s₁.events = s.reported asked ++ s.events

/-- Two scans that differ in tags, text and instructions only. -/
theorem Moves.still (hbehind : s₁.behind = s.behind) (hahead : s₁.ahead = s.ahead)
    (hengine : s₁.engine = s.engine) (horigin : s₁.origin = s.origin)
    (hevents : s₁.events = s.events) : Moves s [] none s₁ :=
  ⟨hbehind, ⟨s.ahead, rfl, hahead⟩, hengine, horigin, hevents⟩

theorem Moves.refl (s : Scan) : Moves s [] none s := .still rfl rfl rfl rfl rfl

theorem Moves.trans (h : Moves s read none s₁) (h' : Moves s₁ read' asked s₂) :
    Moves s (read ++ read') asked s₂ := by
  obtain ⟨rest, hahead, hahead₁⟩ := h.ahead
  obtain ⟨rest', hahead', hahead₂⟩ := h'.ahead
  have hrest : rest = read' ++ rest' := hahead₁.symm.trans hahead'
  have hanswer : s₁.answer asked = s.answer asked := by
    cases asked with
    | none => rfl
    | some path => rw [answer, answer, h.engine, h.origin]; rfl
  have hasked : s₁.engineAsked asked = s.engineAsked asked := by
    cases asked with
    | none => exact h.engine
    | some path => rw [engineAsked, engineAsked, h.engine, h.origin]; rfl
  have hreported : s₁.reported asked = s.reported asked := by
    cases asked with
    | none => rfl
    | some path => rw [reported, reported, h.engine, h.origin]; rfl
  refine ⟨?_, ⟨rest', ?_, ?_⟩, h'.engine.trans hasked, h'.origin.trans h.origin, ?_⟩
  · rw [h'.behind, h.behind, List.reverse_append, List.append_assoc]
  · rw [hahead, hrest, List.append_assoc]
  · rw [hahead₂, hanswer]
  · rw [h'.events, hreported, h.events]; rfl

theorem moves_advance (s : Scan) (n : Nat) : Moves s (s.ahead.take n) none (s.advance n) := by
  rw [advance_eq]
  exact ⟨rfl, ⟨s.ahead.drop n, (List.take_append_drop n s.ahead).symm, rfl⟩, rfl, rfl, rfl⟩

theorem moves_collect (s : Scan) (c : Char) : Moves s [] none (s.collect c) := by
  cases h : s.tags <;> exact .still (by simp [collect, h]) (by simp [collect, h])
    (by simp [collect, h]) (by simp [collect, h]) (by simp [collect, h])

theorem moves_openTag (s : Scan) (scope : Scope) (before : List Char) :
    Moves s [] none (s.openTag scope before) := by
  have hevents : (s.openTag scope before).events = s.events := by
    cases hr : s.raw <;> cases ht : s.tags <;> simp [openTag, flushRaw, emit, ht, hr]
  have hengine : (s.openTag scope before).engine = s.engine := by
    cases ht : s.tags <;> simp [openTag, ht]
  have horigin : (s.openTag scope before).origin = s.origin := by
    cases ht : s.tags <;> simp [openTag, ht]
  exact .still (openTag_behind s scope before) (openTag_ahead s scope before) hengine horigin
    hevents

theorem moves_nameTag (s : Scan) (t : OpenTag) (rest : List OpenTag) (upTo : List Char) :
    Moves s [] none (s.nameTag t rest upTo).scan := by
  have hstill : Moves s [] none { s with tags := rest } := .still rfl rfl rfl rfl rfl
  rw [nameTag]
  cases Scope.named? (Text.trim t.text.reverse) with
  | none => exact hstill
  | some scope => exact hstill.trans (moves_openTag _ scope t.before)

theorem moves_splice (s : Scan) (t : OpenTag) (path : String) :
    Moves s [] (some path) (s.splice t path).scan := by
  cases hfound : (s.engine.resolve ⟨path, s.origin⟩).1 with
  | none =>
    rw [splice_missed t hfound]
    refine ⟨rfl, ⟨s.ahead, rfl, ?_⟩, rfl, rfl, ?_⟩
    · simp [Progress.scan, answer, hfound]
    · simp [Progress.scan, reported, hfound]
  | some text =>
    rw [splice_found t hfound]
    refine ⟨rfl, ⟨s.ahead, rfl, ?_⟩, rfl, rfl, ?_⟩
    · simp [Progress.scan, answer, hfound]
    · simp [Progress.scan, reported, hfound]

theorem moves_closeTag (s : Scan) (t : OpenTag) (rest : List OpenTag) :
    ∃ asked, Moves s [] asked (s.closeTag t rest).scan := by
  have hstill : Moves s [] none { s with tags := rest } := .still rfl rfl rfl rfl rfl
  rw [closeTag.eq_def]
  cases t.scope with
  | includePath => exact ⟨_, hstill.trans (moves_splice _ t _)⟩
  | blockName =>
    refine ⟨none, ?_⟩
    dsimp only
    split
    · exact hstill
    · exact .still rfl rfl rfl rfl rfl
  | tagName => exact ⟨none, hstill⟩
  | header _ => exact ⟨none, .still rfl rfl rfl rfl rfl⟩
  | echoed => exact ⟨none, .still rfl rfl rfl rfl rfl⟩
  | statement => exact ⟨none, .still rfl rfl rfl rfl rfl⟩
  | ending _ => exact ⟨none, .still rfl rfl rfl rfl rfl⟩

theorem moves_endTag (s : Scan) (t : OpenTag) (rest : List OpenTag) (upTo : List Char) :
    ∃ asked, Moves s [] asked (s.endTag t rest upTo).scan := by
  rw [endTag]
  split
  · have hname := moves_nameTag s t rest upTo
    cases hnamed : s.nameTag t rest upTo with
    | more s₁ =>
      rw [hnamed] at hname
      cases htags : s₁.tags with
      | nil => exact ⟨none, by simpa only [htags] using hname⟩
      | cons t' rest' =>
        obtain ⟨asked, hclose⟩ := moves_closeTag s₁ t' rest'
        refine ⟨asked, ?_⟩
        simp only [htags]
        exact hname.trans hclose
    | done s₁ => exact ⟨none, by rwa [hnamed] at hname⟩
    | fault f p s₁ => exact ⟨none, by rwa [hnamed] at hname⟩
  · exact moves_closeTag s t rest

/-! ### Reading a character -/

/-- What comes of reading has read something if it goes on. -/
def Reading (s : Scan) (p : Progress) : Prop :=
  ∃ read asked, Moves s read asked p.scan ∧ ∀ s₁, p = .more s₁ → read ≠ []

theorem Reading.more (h : Moves s read none s₁) (hne : read ≠ []) : Reading s (.more s₁) :=
  ⟨read, none, h, fun _ _ => hne⟩

theorem Reading.fault {f : TagFault} {p : Place} (h : Moves s [] none s₁) :
    Reading s (.fault f p s₁) :=
  ⟨[], none, h, by rintro _ ⟨⟩⟩

theorem take_ne_nil {c : Char} {rest : List Char} (h : s.ahead = c :: rest) (n : Nat) :
    s.ahead.take (n + 1) ≠ [] := by
  rw [h]
  exact List.cons_ne_nil _ _

variable {c : Char} {rest : List Char}

/-- Passing over characters. -/
theorem Reading.advance (h : s.ahead = c :: rest) (hstill : Moves s [] none s₁) (n : Nat) :
    Reading s (.more (s₁.advance (n + 1))) := by
  have hahead : s₁.ahead = c :: rest := by
    obtain ⟨rest', hs, hs₁⟩ := hstill.ahead
    rw [hs₁, ← h, hs]
    rfl
  exact .more (hstill.trans (moves_advance s₁ (n + 1))) (take_ne_nil hahead n)

/-- Closing a tag behind the characters. -/
theorem Reading.then {p : Progress} (h : s.ahead = c :: rest) (n : Nat)
    (hp : ∃ asked, Moves (s.advance (n + 1)) [] asked p.scan) : Reading s p := by
  obtain ⟨asked, hmoves⟩ := hp
  refine ⟨_, asked, (moves_advance s (n + 1)).trans hmoves, fun _ _ => ?_⟩
  rw [List.append_nil]
  exact take_ne_nil h n

theorem reading_readOpening (h : s.ahead = c :: rest) (scope : Scope) :
    Reading s (s.readOpening scope) := by
  have hopen := moves_openTag s scope s.behind
  have hahead : (s.openTag scope s.behind).ahead = c :: rest := (openTag_ahead ..).trans h
  have hmoves := hopen.trans (moves_advance _ 2)
  have hne := take_ne_nil hahead 1
  rw [readOpening]
  split
  · have hdash := hmoves.trans (moves_advance _ 1)
    have htrim : Moves (((s.openTag scope s.behind).advance 2).advance 1) [] none
        ((((s.openTag scope s.behind).advance 2).advance 1).emit .trim) :=
      .still rfl rfl rfl rfl rfl
    exact .more (hdash.trans htrim) fun hnil => hne (List.append_eq_nil_iff.1
      (List.append_eq_nil_iff.1 hnil).1).1
  · exact .more hmoves hne

theorem reading_readCloser (h : s.ahead = c :: rest) (closed : Scope) :
    Reading s (s.readCloser c closed) := by
  have hcollect : Reading s (.more ((s.collect c).advance 1)) :=
    .advance h (moves_collect s c) 0
  rw [readCloser]
  cases s.tags with
  | nil => exact hcollect
  | cons t ts =>
    simp only
    split
    · exact .fault (.refl s)
    · split
      · exact .then h 1 (moves_closeTag _ t ts)
      · exact hcollect

theorem reading_readPercent (h : s.ahead = c :: rest) : Reading s s.readPercent := by
  have hcollect : Reading s (.more ((s.collect '%').advance 1)) :=
    .advance h (moves_collect s _) 0
  have hboth : Reading s (.more (((s.collect '%').collect '\x7d').advance 2)) :=
    .advance h ((moves_collect s _).trans (moves_collect _ _)) 1
  rw [readPercent]
  cases s.tags with
  | nil =>
    simp only
    split
    · exact hboth
    · exact hcollect
  | cons t ts =>
    simp only
    split
    · split
      · exact hboth
      · exact .then h 1 (moves_endTag _ t ts _)
    · split
      · exact .fault (.refl s)
      · exact hcollect

theorem reading_readPlain (h : s.ahead = c :: rest) : Reading s (s.readPlain c) := by
  have hcollect : Reading s (.more ((s.collect c).advance 1)) :=
    .advance h (moves_collect s c) 0
  have hpass : Reading s (.more (s.advance 1)) := .advance h (.refl s) 0
  rw [readPlain]
  cases s.tags with
  | nil => exact hcollect
  | cons t ts =>
    simp only
    split
    · split
      · exact hpass
      · have hname := moves_nameTag s t ts s.behind
        cases hnamed : s.nameTag t ts s.behind with
        | more s₁ => exact .advance h (by rwa [hnamed] at hname) 0
        | done s₁ => exact ⟨[], none, by rwa [hnamed] at hname, by rintro _ ⟨⟩⟩
        | fault f p s₁ => exact .fault (by rwa [hnamed] at hname)
    · split
      · split
        · exact hpass
        · exact .fault (.refl s)
      · exact hcollect

/-- A character is read by every step that goes on. -/
theorem reading_step (h : s.ahead = c :: rest) : Reading s (s.step c) := by
  rw [step.eq_def]
  split
  · split
    · exact .fault (.refl s)
    · split
      · exact reading_readOpening h _
      · exact .advance h (moves_collect s _) 0
  · exact reading_readCloser h _
  · exact reading_readCloser h _
  · exact reading_readPercent h
  · exact reading_readPlain h

/-- At the end of a template, a scan goes on only with the text of an include ahead. -/
theorem moves_flush (h : s.ahead = []) :
    ∃ asked, Moves s [] asked s.flush.scan ∧
      ∀ s₁, s.flush = .more s₁ → s.answer asked ≠ [] := by
  have hstop : ∀ {p : Progress}, Moves s [] none p.scan → (∀ s₁, p ≠ .more s₁) →
      ∃ asked, Moves s [] asked p.scan ∧ ∀ s₁, p = .more s₁ → s.answer asked ≠ [] :=
    fun hmoves hp => ⟨none, hmoves, fun s₁ h => absurd h (hp s₁)⟩
  rw [flush.eq_def]
  cases s.tags with
  | nil =>
    refine hstop ?_ (by rintro _ ⟨⟩)
    refine .still (flushRaw_behind s) (flushRaw_ahead s) (flushRaw_engine s) (flushRaw_origin s) ?_
    cases hr : s.raw <;> simp [Progress.scan, flushRaw, emit, hr]
  | cons t ts =>
    simp only
    split
    · exact hstop (.refl s) (by rintro _ ⟨⟩)
    · obtain ⟨asked, hmoves⟩ := moves_endTag s t ts s.behind
      cases hend : s.endTag t ts s.behind with
      | more s₁ =>
        rw [hend] at hmoves
        simp only
        split
        · exact ⟨asked, hmoves, by rintro _ ⟨⟩⟩
        next hne =>
          refine ⟨asked, hmoves, fun _ _ hnil => hne ?_⟩
          obtain ⟨rest, hrest, hahead⟩ := hmoves.ahead
          have hempty : rest = [] := by rw [h] at hrest; exact hrest.symm
          rw [Progress.scan] at hahead
          rw [hahead, hnil, hempty]
          rfl
      | done s₁ => exact ⟨asked, by rwa [hend] at hmoves, by rintro _ ⟨⟩⟩
      | fault f p s₁ => exact ⟨asked, by rwa [hend] at hmoves, by rintro _ ⟨⟩⟩

/-- **Turns.**  A turn reads some characters and may ask for an include; if it goes on, it has read
something or has put something ahead. -/
theorem turn_moves (s : Scan) :
    ∃ read asked, Moves s read asked s.turn.scan ∧
      ∀ s₁, s.turn = .more s₁ → read ≠ [] ∨ s.answer asked ≠ [] := by
  rw [turn.eq_def]
  cases h : s.ahead with
  | nil =>
    obtain ⟨asked, hmoves, hmore⟩ := moves_flush h
    exact ⟨[], asked, hmoves, fun s₁ h => .inr (hmore s₁ h)⟩
  | cons c rest =>
    obtain ⟨read, asked, hmoves, hmore⟩ := reading_step h
    exact ⟨read, asked, hmoves, fun s₁ h => .inl (hmore s₁ h)⟩

/-! ### Scans without includes -/

theorem answer_of_quiet (h : s.reported asked = []) : s.answer asked = [] := by
  by_contra hne
  have hone := sizes_of_answer hne
  rw [sizes, h] at hone
  cases hone

/-- What has been reported stays reported. -/
theorem Takes.quiet {n : Nat} (h : Takes n s s₁) (hq : s₁.events = []) : s.events = [] := by
  induction h with
  | refl => exact hq
  | @turn n s s₁ s₂ ht _ ih =>
    obtain ⟨read, asked, hmoves, -⟩ := s.turn_moves
    have hevents := hmoves.events
    rw [ht, Progress.scan, ih hq] at hevents
    exact (List.append_eq_nil_iff.1 hevents.symm).2

/-- A template in which nothing is included stays as it is. -/
theorem Takes.expanded {n : Nat} (h : Takes n s s₁) (hq : s₁.events = []) :
    s₁.expanded = s.expanded := by
  induction h with
  | refl => rfl
  | @turn n s s₁ s₂ ht hrun ih =>
    obtain ⟨read, asked, hmoves, -⟩ := s.turn_moves
    rw [ht, Progress.scan] at hmoves
    have hevents := hmoves.events
    rw [hrun.quiet hq] at hevents
    have hanswer := answer_of_quiet (List.append_eq_nil_iff.1 hevents.symm).1
    obtain ⟨rest, hahead, hahead₁⟩ := hmoves.ahead
    rw [ih hq, Scan.expanded, Scan.expanded, hmoves.behind, hahead, hahead₁, hanswer,
      List.reverse_append, List.reverse_reverse, List.append_assoc, List.nil_append]

/-! ### Sizes -/

theorem Moves.included (h : Moves s read asked s₁) :
    s₁.included = s.sizes asked ++ s.included := by
  rw [Scan.included, h.events, List.filterMap_append]
  rfl

/-- A template grows by the sizes of the included texts. -/
theorem Moves.byteSize_expanded (h : Moves s read asked s₁) :
    Text.byteSize s₁.expanded = (s.sizes asked).sum + Text.byteSize s.expanded := by
  obtain ⟨rest, hahead, hahead₁⟩ := h.ahead
  simp only [expanded, Text.byteSize_append, Text.byteSize_reverse, h.behind, hahead, hahead₁,
    byteSize_answer]
  omega

theorem turn_size (s : Scan) :
    Text.byteSize s.turn.scan.expanded + s.included.sum =
      Text.byteSize s.expanded + s.turn.scan.included.sum := by
  obtain ⟨read, asked, hmoves, -⟩ := s.turn_moves
  rw [hmoves.byteSize_expanded, hmoves.included, List.sum_append]
  omega

theorem Takes.size {n : Nat} (h : Takes n s s₁) :
    Text.byteSize s₁.expanded + s.included.sum = Text.byteSize s.expanded + s₁.included.sum := by
  induction h with
  | refl s => rfl
  | @turn n s s₁ s₂ ht _ ih =>
    have hone := s.turn_size
    rw [ht, Progress.scan] at hone
    omega

end Scan

end Stencil.Template
