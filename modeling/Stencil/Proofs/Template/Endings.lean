import Stencil.Proofs.Template.Instructions
import Stencil.Proofs.Template.Pasted
import Stencil.Proofs.Template.Printed

/-!
# End tags

An end tag holds its name, blanks on either side of it, and nothing else.  Behind the name a scan
passes over blanks; the closing mark and the end of the template end the tag, and every other
character is refused where it stands.

* `UnclosedEnd` : a text and an end tag behind it, up to where the tag could end.
* `UnclosedEnd.reaches_inside` : a scan comes to that place, whichever blanks the tag is written
  with, and there it knows which tag it is in.
* `UnclosedEnd.reads_end` : what follows decides what comes of the tag.
-/

namespace Stencil.Template

open Scan

/-! ### Characters of an end tag -/

/-- The name of an end tag. -/
def EndTag.name : EndTag → List Char
  | .elseTag => ['e', 'l', 's', 'e']
  | .endIf => ['e', 'n', 'd', 'i', 'f']
  | .endFor => ['e', 'n', 'd', 'f', 'o', 'r']
  | .endWhile => ['e', 'n', 'd', 'w', 'h', 'i', 'l', 'e']
  | .endBlock => ['e', 'n', 'd', 'b', 'l', 'o', 'c', 'k']

theorem EndTag.name_spec (tag : EndTag) :
    tag.name.all isNamePart ∧ (∃ rest, tag.name = 'e' :: rest) ∧
      Scope.named? tag.name = some (.ending tag) := by
  cases tag <;> exact ⟨by decide, ⟨_, rfl⟩, by decide⟩

theorem Scope.ne_tagName_of_isEnding {scope : Scope} (h : scope.isEnding) : scope ≠ .tagName := by
  rintro rfl
  cases h

/-- A blank is part of no mark. -/
theorem blank_ne_mark {c : Char} (h : Text.isBlank c) :
    c ≠ '\x7b' ∧ c ≠ '$' ∧ c ≠ '\x7d' ∧ c ≠ '%' := by
  refine ⟨?_, ?_, ?_, ?_⟩ <;> rintro rfl <;> exact absurd h (by decide)

/-- What an end tag is said to have got instead of its closing mark: the next character, and with a
percent sign the one after it. -/
def refused : List Char → List Char
  | [] => []
  | c :: rest => c :: if c = '%' then rest.take 1 else []

namespace Scan

/-- The instructions of a text outside of tags. -/
def rawInstrs (text : List Char) : List Instr :=
  if text = [] then [] else [.raw (String.ofList text)]

variable {s s₁ s₂ : Scan} {t : OpenTag} {ts : List OpenTag} {c : Char} {rest : List Char}

/-- Blanks before a name and behind the name of an end tag are passed over. -/
theorem turn_skipped (h : s.ahead = c :: rest) (ht : s.tags = t :: ts) (hc : Text.isBlank c)
    (hin : t.scope = .tagName ∧ t.text = [] ∨ t.scope.isEnding) :
    s.turn = .more { s with behind := c :: s.behind, ahead := rest } := by
  rcases hin with ⟨hscope, htext⟩ | hend
  · exact turn_blank h ht hscope htext hc (blank_ne_mark hc)
  · have hscope := Scope.ne_tagName_of_isEnding hend
    rw [turn_cons h, step_plain (blank_ne_mark hc), readPlain]
    simp [ht, hscope, hend, hc, advance_one h]

theorem reaches_skipped {blanks : List Char} (h : s.ahead = blanks ++ rest) (ht : s.tags = t :: ts)
    (hblanks : ∀ c ∈ blanks, Text.isBlank c)
    (hin : t.scope = .tagName ∧ t.text = [] ∨ t.scope.isEnding) :
    Reaches s { s with behind := blanks.reverse ++ s.behind, ahead := rest } := by
  induction blanks generalizing s with
  | nil =>
    subst h
    exact .refl s
  | cons c blanks ih =>
    have hturn := turn_skipped h ht (hblanks c (List.mem_cons_self ..)) hin
    have hrest := @ih { s with behind := c :: s.behind, ahead := blanks ++ rest } rfl ht
      fun d hd => hblanks d (List.mem_cons_of_mem c hd)
    rw [List.reverse_cons, List.append_assoc]
    exact .head hturn hrest

/-- In an end tag nothing can stand but blanks and the closing mark. -/
theorem turn_refused (h : s.ahead = c :: rest) (ht : s.tags = t :: ts) (hend : t.scope.isEnding)
    (hc : Text.isBlank c = false) (hclose : ¬ ['%', '\x7d'] <+: s.ahead) :
    s.turn = s.refuse (refused s.ahead) := by
  have hscope : s.scope?.any Scope.isEnding := by simpa [scope?, ht] using hend
  have hnext : (s.ahead.drop 1).head? = rest.head? := by rw [h]; rfl
  rw [turn_cons h, step.eq_def]
  split
  · rw [if_pos hscope, h]
    rfl
  · simp [readCloser, ht, hend, h, refused]
  · simp [readCloser, ht, hend, h, refused]
  · -- with a brace after it the percent sign would close the tag
    have hne : rest.head? ≠ some '\x7d' := by
      intro hbrace
      obtain ⟨more, rfl⟩ := List.head?_eq_some_iff.1 hbrace
      exact hclose ⟨more, h.symm⟩
    have hgot : refused s.ahead = '%' :: rest.head?.toList := by
      rw [h, refused, if_pos rfl]
      cases rest <;> rfl
    rw [readPercent, hnext, ht]
    simp only [if_neg hne, if_pos hend, hgot]
  next _ _ _ hpercent =>
    have hscope := Scope.ne_tagName_of_isEnding hend
    have hgot : refused s.ahead = [c] := by
      rw [h, refused, if_neg fun hc => hpercent hc]
    rw [readPlain, ht, hgot]
    simp [hscope, hend, hc]

theorem flushRaw_eq (s : Scan) :
    s.flushRaw = { s with raw := [], instrs := rawInstrs s.raw.reverse ++ s.instrs } := by
  cases h : s.raw with
  | nil =>
    rw [flushRaw_of_raw h, List.reverse_nil, rawInstrs, if_pos rfl, List.nil_append, ← h]
  | cons c raw => simp [flushRaw, h, rawInstrs, emit]

theorem reverse_rawInstrs (text : List Char) : (rawInstrs text).reverse = rawInstrs text := by
  unfold rawInstrs
  split <;> rfl

/-! ### Runs -/

/-- Of two scans that a scan comes to, one comes to the other. -/
theorem reaches_total (h : Reaches s s₁) (h' : Reaches s s₂) : Reaches s₁ s₂ ∨ Reaches s₂ s₁ := by
  obtain ⟨m, hm⟩ := h
  obtain ⟨n, hn⟩ := h'
  induction hm generalizing n with
  | refl => exact .inl ⟨n, hn⟩
  | turn ht hm ih =>
    cases hn with
    | refl => exact .inr ⟨_, .turn ht hm⟩
    | turn ht' hn =>
      obtain rfl := Progress.more.inj (ht.symm.trans ht')
      exact ih _ hn

/-- A scan that a turn ends comes to no other one. -/
theorem Reaches.eq_of_stop (h : Reaches s s₁) (hstop : ∀ s₂, s.turn ≠ .more s₂) : s₁ = s := by
  obtain ⟨n, hn⟩ := h
  cases hn with
  | refl => rfl
  | turn ht _ => exact absurd ht (hstop _)

/-- A scan comes to another one, in the middle of a template or at the end of it. -/
def ComesTo (s s₁ : Scan) : Prop := Reaches s s₁ ∨ ∃ s₂, Reaches s s₂ ∧ s₂.turn = .done s₁

end Scan

/-! ### Tags without their closing mark -/

/-- A text and an end tag behind it, up to where the tag could end. -/
structure UnclosedEnd where
  /-- The text. -/
  text : List Char
  /-- The tag. -/
  tag : EndTag
  /-- Whether it has a trim mark. -/
  dash : Bool
  /-- What stands before the name of the tag. -/
  lead : List Char
  /-- What stands behind it. -/
  tail : List Char
  /-- No tag opens in the text. -/
  unmarked : Unmarked text
  /-- Nor does one open where the text ends. -/
  apart : text.getLast? ≠ some '\x7b'
  /-- Only blanks stand before the name. -/
  lead_blank : ∀ c ∈ lead, Text.isBlank c
  /-- Only blanks stand behind it. -/
  tail_blank : ∀ c ∈ tail, Text.isBlank c

namespace UnclosedEnd

/-- The source. -/
def source (x : UnclosedEnd) : List Char :=
  x.text ++ '\x7b' :: '%' :: (dashed x.dash ++ (x.lead ++ (x.tag.name ++ x.tail)))

/-- The instructions before that of the tag. -/
def before (x : UnclosedEnd) : List Instr :=
  rawInstrs x.text ++ trimmed x.dash

/-- The instructions, that of the tag included. -/
def instrs (x : UnclosedEnd) : List Instr := x.before ++ [x.tag.instr]

section

variable (x : UnclosedEnd) (engine : Engine) (origin : Option String)

theorem reverse_source :
    x.source.reverse =
      x.tail.reverse ++ (x.tag.name.reverse ++ (x.lead.reverse ++
        (dashed x.dash ++ '%' :: '\x7b' :: x.text.reverse))) := by
  cases h : x.dash <;> simp [source, dashed, h]

/-- A scan inside of the tag. -/
def inside (behind ahead : List Char) (scope : Scope) (text : List Char) : Scan where
  behind := behind
  ahead := ahead
  tags := [⟨scope, text, x.text.reverse⟩]
  instrs := x.before.reverse
  origin := origin
  engine := engine

/-- A scan behind the tag and its closing mark. -/
def passed (closing rest : List Char) : Scan where
  behind := (x.source ++ closing).reverse
  ahead := rest
  instrs := x.instrs.reverse
  origin := origin
  engine := engine

/-- The opening mark ends the text. -/
theorem reaches_opened (rest : List Char) :
    Reaches (.start engine origin (String.ofList (x.source ++ rest)))
      (x.inside engine origin (dashed x.dash ++ '%' :: '\x7b' :: x.text.reverse)
        (x.lead ++ (x.tag.name ++ (x.tail ++ rest))) .tagName []) := by
  set tail := x.lead ++ (x.tag.name ++ (x.tail ++ rest)) with htail
  set s : Scan := .start engine origin (String.ofList (x.source ++ rest)) with hs
  have hahead : s.ahead = x.text ++ '\x7b' :: '%' :: (dashed x.dash ++ tail) := by
    simp [hs, htail, Scan.start, source]
  set s₁ : Scan := { s with
    behind := x.text.reverse
    ahead := '\x7b' :: '%' :: (dashed x.dash ++ tail)
    raw := x.text.reverse } with hs₁
  have htext : Reaches s s₁ := by
    by_cases hnil : x.text = []
    · have hsame : s₁ = s := by
        rw [hnil, List.nil_append] at hahead
        rw [hs₁, hnil, ← hahead]
        rfl
      rw [hsame]
      exact .refl s
    · have hraw : (Instr.raw (String.ofList x.text)).Writable :=
        ⟨by simpa [← String.toList_inj] using hnil, by simpa using x.unmarked,
          by simpa using x.apart⟩
      have hwithin := within_raw (s := s) hraw (by simpa using hahead) rfl (by simp)
      simpa [hs₁, hs, Scan.start] using hwithin.reaches
  have hdash : x.dash = false → tail.head? ≠ some '-' := by
    intro _
    obtain ⟨-, ⟨more, hname⟩, -⟩ := x.tag.name_spec
    cases hlead : x.lead with
    | nil => simp [htail, hlead, hname]
    | cons c lead =>
      have hc := x.lead_blank c (by rw [hlead]; exact List.mem_cons_self ..)
      have hne : c ≠ '-' := by
        rintro rfl
        exact absurd hc (by decide)
      simp [htail, hlead, hne]
  have hopen := turn_opening (s := s₁) rfl rfl rfl hdash
  have hinside : s₁.opened .tagName '%' x.dash tail =
      x.inside engine origin (dashed x.dash ++ '%' :: '\x7b' :: x.text.reverse) tail .tagName [] := by
    rw [opened_outside rfl, flushRaw_eq]
    cases hdash : x.dash <;>
      simp [hs₁, hs, inside, before, Scan.start, trimmed, hdash, reverse_rawInstrs]
  rw [hinside] at hopen
  exact htext.trans (.head hopen (.refl _))

variable {x engine origin} {behind rest : List Char} {scope : Scope} {text : List Char}

/-- Blanks in the tag are passed over. -/
theorem reaches_blanks {blanks : List Char} (hblanks : ∀ c ∈ blanks, Text.isBlank c)
    (hin : scope = .tagName ∧ text = [] ∨ scope.isEnding) :
    Reaches (x.inside engine origin behind (blanks ++ rest) scope text)
      (x.inside engine origin (blanks.reverse ++ behind) rest scope text) :=
  reaches_skipped (s := x.inside engine origin behind (blanks ++ rest) scope text) rfl rfl hblanks hin

/-- The name of the tag is collected. -/
theorem reaches_name :
    Reaches (x.inside engine origin behind (x.tag.name ++ rest) .tagName [])
      (x.inside engine origin (x.tag.name.reverse ++ behind) rest .tagName x.tag.name.reverse) := by
  set s := x.inside engine origin behind (x.tag.name ++ rest) .tagName [] with hs
  have hread := (within_nameText (s := s) x.tag.name rest rfl rfl rfl x.tag.name_spec.1).reaches
  have htags : ({ s with behind := x.tag.name.reverse ++ s.behind, ahead := rest } : Scan).tags =
      [⟨.tagName, [], x.text.reverse⟩] := rfl
  rw [readText, collectAll_eq_tag htags, List.append_nil] at hread
  exact hread

/-- A blank behind the name tells the tag. -/
theorem turn_name {c : Char} (hc : Text.isBlank c) :
    (x.inside engine origin behind (c :: rest) .tagName x.tag.name.reverse).turn =
      .more (x.inside engine origin (c :: behind) rest (.ending x.tag) []) := by
  obtain ⟨hpart, ⟨more, hcons⟩, hnamed⟩ := x.tag.name_spec
  have hne : x.tag.name ≠ [] := by simp [hcons]
  exact turn_named (s := x.inside engine origin behind (c :: rest) .tagName x.tag.name.reverse)
    rfl rfl rfl rfl hpart hne hc (blank_ne_mark hc) hnamed rfl

variable (x engine origin)

/-- The scan comes to the place where the tag could end, and knows which tag it is in. -/
theorem reaches_inside (rest : List Char) :
    ∃ scope text, Reaches (.start engine origin (String.ofList (x.source ++ rest)))
        (x.inside engine origin x.source.reverse rest scope text) ∧
      OpenTag.told? ⟨scope, text, x.text.reverse⟩ = some ⟨.ending x.tag, [], x.text.reverse⟩ ∧
      (text ≠ [] ∨ scope.isEnding) ∧ (x.tail ≠ [] → scope.isEnding) := by
  obtain ⟨hpart, ⟨more, hcons⟩, hnamed⟩ := x.tag.name_spec
  have hlead := (x.reaches_opened engine origin rest).trans
    (reaches_blanks x.lead_blank (.inl ⟨rfl, rfl⟩))
  have hname := hlead.trans reaches_name
  cases htail : x.tail with
  | nil =>
    refine ⟨.tagName, x.tag.name.reverse, ?_, ?_, .inl (by simp [hcons]), by simp⟩
    · rw [htail] at hname
      rw [reverse_source, htail]
      exact hname
    · rw [OpenTag.told?, if_pos rfl, List.reverse_reverse, trim_of_namePart hpart, hnamed]
      rfl
  | cons c tail =>
    rw [htail] at hname
    have hblank := x.tail_blank
    rw [htail] at hblank
    have htold := hname.trans (.head (turn_name (hblank c (List.mem_cons_self ..))) (.refl _))
    have hskipped := htold.trans
      (reaches_blanks (fun d hd => hblank d (List.mem_cons_of_mem c hd)) (.inr rfl))
    refine ⟨.ending x.tag, [], ?_, rfl, .inr rfl, fun _ => rfl⟩
    rw [reverse_source, htail, List.reverse_cons, List.append_assoc]
    exact hskipped

/-! ### What follows -/

variable {x engine origin}

/-- The tag is closed by its mark. -/
theorem turn_closing
    (h : OpenTag.told? ⟨scope, text, x.text.reverse⟩ = some ⟨.ending x.tag, [], x.text.reverse⟩) :
    (x.inside engine origin x.source.reverse ('%' :: '\x7d' :: rest) scope text).turn =
      .more (x.passed engine origin ['%', '\x7d'] rest) := by
  have hcl : closer? (some scope) = some '%' := by
    rcases OpenTag.told?_cases h with hscope | hsame
    · rw [show scope = .tagName from hscope]
      rfl
    · obtain ⟨rfl, -⟩ := OpenTag.mk.inj hsame
      rfl
  rw [turn_percent_told (t := ⟨scope, text, x.text.reverse⟩) rfl rfl rfl hcl h,
    closeTag_eq_emit (i := x.tag.instr) rfl, advance_two rfl]
  simp [inside, passed, instrs, emit]

/-- The end of the template closes the tag too. -/
theorem turn_end (hin : text ≠ [] ∨ scope.isEnding)
    (h : OpenTag.told? ⟨scope, text, x.text.reverse⟩ = some ⟨.ending x.tag, [], x.text.reverse⟩) :
    (x.inside engine origin x.source.reverse [] scope text).turn =
      .done (x.passed engine origin [] []) := by
  rw [turn_nil_told (t := ⟨scope, text, x.text.reverse⟩) rfl rfl rfl hin h,
    closeTag_eq_emit (i := x.tag.instr) rfl]
  simp [inside, passed, instrs, emit]

/-- Anything else is refused, at the place of the next character. -/
theorem turn_other (hend : scope.isEnding) {c : Char} (hc : Text.isBlank c = false)
    (hclose : ¬ ['%', '\x7d'] <+: c :: rest) :
    (x.inside engine origin x.source.reverse (c :: rest) scope text).turn =
      .fault (.expectedEnd (String.ofList (refused (c :: rest)))) ⟨x.source, [c], rest⟩
        (x.inside engine origin x.source.reverse (c :: rest) scope text) := by
  rw [turn_refused (s := x.inside engine origin x.source.reverse (c :: rest) scope text) rfl rfl hend
    hc hclose, refuse, nextChar]
  simp [inside]

/-- A scan that is stopped inside the tag does not come to a place behind it: the instruction of the
tag would have to be taken back. -/
theorem not_comesTo {s : Scan} {behind closing after : List Char} {f : TagFault} {place : Place}
    {s₁ : Scan} (h : Reaches s (x.inside engine origin behind rest scope text))
    (hturn : (x.inside engine origin behind rest scope text).turn = .fault f place s₁) :
    ¬ s.ComesTo (x.passed engine origin closing after) := by
  set stop := x.inside engine origin behind rest scope text with hstop
  have hstuck : ∀ s₂, stop.turn ≠ .more s₂ := by
    intro s₂ hmore
    rw [hturn] at hmore
    cases hmore
  have hfewer : stop.instrs.length < (x.passed engine origin closing after).instrs.length := by
    simp [hstop, inside, passed, instrs]
  rintro (hpassed | ⟨s₂, hs₂, hdone⟩)
  · rcases reaches_total hpassed h with ⟨n, hn⟩ | hback
    · have := hn.adds.length_le
      omega
    · rw [hback.eq_of_stop hstuck] at hfewer
      omega
  · -- no turn leads on from either scan, so they are one
    have hsame : s₂ = stop := by
      rcases reaches_total hs₂ h with hr | hr
      · exact (hr.eq_of_stop (by simp [hdone])).symm
      · exact hr.eq_of_stop hstuck
    rw [hsame, hturn] at hdone
    cases hdone

end

/-- **End tags.**  After a text without marks, an end tag with blanks around its name gives its
instruction, and the scan goes on behind it, exactly if the closing mark follows or nothing does.
Any other character is refused with a syntax error at its place, which is all of its bytes. -/
theorem reads_end (x : UnclosedEnd) (engine : Engine) (origin : Option String) {rest : List Char}
    (hrest : ∀ c ∈ rest.head?, Text.isBlank c = false)
    (htail : x.tail = [] → rest = [] ∨ ['%', '\x7d'] <+: rest) :
    let source := String.ofList (x.source ++ rest)
    let s := Scan.start engine origin source
    ((∃ closing after, rest = closing ++ after ∧ s.ComesTo (x.passed engine origin closing after)) ↔
      rest = [] ∨ ['%', '\x7d'] <+: rest) ∧
    (∀ after, rest = '%' :: '\x7d' :: after →
      s.Reaches (x.passed engine origin ['%', '\x7d'] after)) ∧
    (rest = [] → Reads engine origin source (.ok x.instrs)) ∧
    ∀ c more, rest = c :: more → ¬ ['%', '\x7d'] <+: rest →
      ∃ err place, Reads engine origin source (.error err) ∧ err.kind = .syntaxKind ∧
        err.message = "expected `%\x7d` but got `" ++
          String.ofList (c :: if c = '%' then more.take 1 else []) ++ "`" ∧
        err.place = some place ∧ place.before = x.source ∧ place.marked = [c] ∧
        place.after = more ∧ place.start = Text.byteSize x.source ∧
        place.stop = place.start + c.utf8Size := by
  intro source s
  obtain ⟨scope, text, hreach, htold, hin, hend⟩ := x.reaches_inside engine origin rest
  have hclosing (after : List Char) (hr : rest = '%' :: '\x7d' :: after) :
      s.Reaches (x.passed engine origin ['%', '\x7d'] after) := by
    subst hr
    exact hreach.trans (.head (turn_closing htold) (.refl _))
  have hnothing (hr : rest = []) :
      (x.inside engine origin x.source.reverse rest scope text).turn =
        .done (x.passed engine origin [] []) := by
    subst hr
    exact turn_end hin htold
  have hother (c : Char) (more : List Char) (hr : rest = c :: more)
      (hclose : ¬ ['%', '\x7d'] <+: rest) :
      (x.inside engine origin x.source.reverse rest scope text).turn =
        .fault (.expectedEnd (String.ofList (refused rest))) ⟨x.source, [c], more⟩
          (x.inside engine origin x.source.reverse rest scope text) := by
    subst hr
    refine turn_other (hend fun hnil => ?_) (hrest c rfl) hclose
    rcases htail hnil with hr | hr
    · cases hr
    · exact hclose hr
  refine ⟨⟨?_, ?_⟩, hclosing, ?_, ?_⟩
  · rintro ⟨closing, after, -, hcomes⟩
    by_contra hno
    rw [not_or] at hno
    obtain ⟨c, more, hr⟩ := List.exists_cons_of_ne_nil hno.1
    exact not_comesTo hreach (hother c more hr hno.2) hcomes
  · rintro (hr | ⟨after, hr⟩)
    · exact ⟨[], [], hr, .inr ⟨_, hreach, hnothing hr⟩⟩
    · exact ⟨['%', '\x7d'], after, hr.symm, .inl (hclosing after hr.symm)⟩
  · intro hr
    have hreads := reads_of_turn_done hreach (hnothing hr)
    rwa [instructions, passed, List.reverse_reverse] at hreads
  · intro c more hr hclose
    refine ⟨_, _, reads_of_turn_fault hreach (hother c more hr hclose), rfl, ?_, rfl, rfl, rfl, rfl,
      rfl, ?_⟩
    · rw [hr]
      rfl
    · simp [Place.stop, Place.start]

/-- An end tag among wide blanks. -/
def spaced : UnclosedEnd where
  text := ['a', ' ']
  tag := .endIf
  dash := true
  lead := ['\u2003']
  tail := ['\u3000', '\n']
  unmarked := by decide
  apart := by decide
  lead_blank := List.forall_mem_singleton.2 (by decide)
  tail_blank := List.forall_mem_cons.2 ⟨by decide, List.forall_mem_singleton.2 (by decide)⟩

/-- A character of three bytes behind the name, a percent sign that closes nothing, and nothing at
all. -/
theorem reads_end_wide :
    (∃ err place, Reads {} none "a \x7b%-\u2003endif\u3000\n→ %\x7d" (.error err) ∧
      err.message = "expected `%\x7d` but got `→`" ∧ err.place = some place ∧
      place.start = 17 ∧ place.stop = 20) ∧
    (∃ err place, Reads {} none "a \x7b%-\u2003endif\u3000\n%→" (.error err) ∧
      err.message = "expected `%\x7d` but got `%→`" ∧ err.place = some place ∧
      place.start = 17 ∧ place.stop = 18) ∧
    Reads {} none "a \x7b%-\u2003endif\u3000\n" (.ok [.raw "a ", .trim, .finish]) := by
  have harrow : ∀ c ∈ ['→', ' ', '%', '\x7d'].head?, Text.isBlank c = false := by
    rintro c ⟨⟩
    decide
  have hpercent : ∀ c ∈ ['%', '→'].head?, Text.isBlank c = false := by
    rintro c ⟨⟩
    decide
  have hnothing : ∀ c ∈ ([] : List Char).head?, Text.isBlank c = false := by
    rintro c ⟨⟩
  refine ⟨?_, ?_, ?_⟩
  · obtain ⟨err, place, hreads, -, hmessage, hplace, -, -, -, hstart, hstop⟩ :=
      (spaced.reads_end {} none harrow (by decide)).2.2.2 '→' [' ', '%', '\x7d'] rfl (by decide)
    exact ⟨err, place, hreads, hmessage, hplace, hstart, by rw [hstop, hstart]; rfl⟩
  · obtain ⟨err, place, hreads, -, hmessage, hplace, -, -, -, hstart, hstop⟩ :=
      (spaced.reads_end {} none hpercent (by decide)).2.2.2 '%' ['→'] rfl (by decide)
    exact ⟨err, place, hreads, hmessage, hplace, hstart, by rw [hstop, hstart]; rfl⟩
  · exact (spaced.reads_end {} none hnothing (by decide)).2.2.1 rfl

end UnclosedEnd

end Stencil.Template
