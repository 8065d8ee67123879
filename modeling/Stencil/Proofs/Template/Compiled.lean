import Stencil.Procedure
import Stencil.Proofs.Template.Accepted

/-!
# Which templates compile

A template whose texts are whole compiles if its control flow is balanced.  It also compiles if one
`finish` too many is made up for by a start later: the body of the chunk ends like a construct, so
the two words pair up with the wrong partners (`compile_iff`).  Everything else is refused by the
script language, and the error has no place.
-/

namespace Stencil

open Script Template
open Text (Bytes bytesOf)

/-! ### Limits -/

/-- Whether a script is refused because of a limit: it is nested too deeply, or a function has too
many variables. -/
def Script.hitsLimit (text : Bytes) : Bool :=
  let (outcome, mentions) := readScript (lex text)
  (match outcome with
    | .error e => e.fault = .tooDeep
    | .ok _ => false) ||
  (match Scope.check mentions with
    | some (.tooManyLocals _, _) => true
    | _ => false)

theorem Script.hitsLimit_of_tooDeep {text : Bytes} {e : Refusal}
    (h : (readScript (lex text)).1 = .error e) (he : e.fault = .tooDeep) : hitsLimit text := by
  rw [hitsLimit]
  simp [h, he]

theorem Script.hitsLimit_of_tooManyLocals {text : Bytes} {line : Nat} {place : Lexeme}
    (h : Scope.check (readScript (lex text)).2 = some (.tooManyLocals line, place)) :
    hitsLimit text := by
  rw [hitsLimit]
  simp [h]

namespace Template

variable {is : List Instr}

/-- The main function after the first line. -/
def mainFrame : Scope.Frame where
  line := 0
  vararg := true
  active := ((bytesOf "__append" :: otherLocals).map fun x => ⟨x, .plain⟩).reverse

theorem mainFrame_calm : mainFrame.Calm where
  plain v hv := by
    have hv : v ∈ mainFrame.active := by simpa [mainFrame] using hv
    rw [mainFrame, List.mem_reverse, List.mem_map] at hv
    obtain ⟨x, -, rfl⟩ := hv
    rfl
  levels := List.cons_ne_nil _ _

/-- The mentions of a chunk break no rule, apart from the number of variables. -/
theorem ends_chunk {ms : List Mention} (hms : Scope.Harmless ms) :
    Scope.Ends Scope.main (preambleMentions ++ (ms ++ [.closeFunction])) [] := by
  have hopening : Scope.Ends Scope.main preambleMentions [mainFrame] := .inl rfl
  obtain ⟨f, -, hlevels, hends⟩ := hms mainFrame [] (by simpa using mainFrame_calm)
  have hclose : Scope.step [f] .closeFunction = .ok [] := by
    rw [Scope.step, Scope.Frame.openJump?, hlevels]
    rfl
  exact hopening.append (hends.append (.cons hclose (.inl rfl)))

/-- A chunk whose texts are whole is a script if and only if its control flow fits. -/
theorem parse_chunk (hwhole : ∀ i ∈ is, i.isWhole) (hlimit : ¬ hitsLimit (bytesOf (chunk is))) :
    (∃ body, Script.parse (bytesOf (chunk is)) = .ok body) ↔ Balanced is ∨ MadeUp is := by
  have hlexed : ∀ i ∈ is, i.IsLexed := fun i hi => Instr.isLexed_of_isWhole (hwhole i hi)
  have hwhole' : ∀ i ∈ is ++ [Instr.finish], i.isWhole := by
    intro i hi
    rcases List.mem_append.1 hi with hi | hi
    · exact hwhole i hi
    · rw [List.mem_singleton.1 hi]
      rfl
  generalize htext : bytesOf (chunk is) = text at hlimit
  have htokens := tokensAt_chunk hlexed
  rw [htext, tokensAt, ← lex_eq_lexAt] at htokens
  have hreads := readScript_cases (lex text) (reads_script hwhole' htokens (by simp [Reader.tokens]))
  rw [← blockRest_body]
  rcases hreads with ⟨body, hok, hrest, ms, hmentions, hms⟩ | ⟨e, herr, hunfit | hdeep⟩
  · refine ⟨fun _ => hrest, fun _ => ⟨body, parse_ok_iff.2 ⟨hok, ?_⟩⟩⟩
    have hcheck := Scope.checkFrom_eq Scope.main (readScript (lex text)).2
    rw [hmentions] at hcheck
    rcases ends_chunk hms with hends | ⟨line, hmany⟩
    · rw [hends] at hcheck
      exact Option.map_eq_none_iff.1 hcheck
    · rw [hmany] at hcheck
      obtain ⟨⟨fault, place⟩, hfault, rfl⟩ := Option.map_eq_some_iff.1 hcheck
      exact absurd (hitsLimit_of_tooManyLocals hfault) hlimit
  · refine ⟨?_, fun h => absurd h hunfit⟩
    rintro ⟨body, hbody⟩
    rw [(parse_ok_iff.1 hbody).1] at herr
    cases herr
  · exact absurd (hitsLimit_of_tooDeep herr hdeep) hlimit

/-- A script that hits no limit is not refused for its depth. -/
theorem fault_ne_tooDeep {text : Bytes} {e : Refusal} (hlimit : ¬ hitsLimit text)
    (h : Script.parse text = .error e) : e.fault ≠ .tooDeep := by
  intro hdeep
  rw [Script.parse] at h
  cases hcheck : Scope.check (readScript (lex text)).2 with
  | none =>
    simp only [hcheck] at h
    exact hlimit (hitsLimit_of_tooDeep h hdeep)
  | some fault =>
    simp only [hcheck, Except.error.injEq] at h
    rw [← h] at hdeep
    cases hdeep

/-- **Balanced templates.**  A template without statements whose texts are whole compiles if and
only if its control flow is balanced or a `finish` too many is made up for later, as long as no limit
is hit; otherwise the script language refuses it, and the error has no place. -/
theorem compile_iff {turns : Nat} {engine : Engine} {origin : Option String} {source : String}
    (hread : (Template.read turns engine origin source).outcome = .ok is)
    (hname : Procedure.checkName origin = .ok ()) (hwhole : ∀ i ∈ is, i.isWhole)
    (hlimit : ¬ hitsLimit (bytesOf (chunk is))) :
    ((∃ p, (engine.compile turns origin source).outcome = .ok p) ↔ Balanced is ∨ MadeUp is) ∧
      (¬ (Balanced is ∨ MadeUp is) →
        ∃ e, (engine.compile turns origin source).outcome = .error (.error e) ∧
          e.kind = .syntaxKind ∧ e.place = none) := by
  have hiff := parse_chunk hwhole hlimit
  cases hscript : Script.parse (bytesOf (chunk is)) with
  | ok body =>
    rw [hscript] at hiff
    have hparse : Procedure.parse origin (chunk is) = .ok body := by
      rw [Procedure.parse, hname, hscript]
      rfl
    have hfits := hiff.1 ⟨body, rfl⟩
    refine ⟨⟨fun _ => hfits, fun _ => ⟨⟨origin, chunk is⟩, ?_⟩⟩, fun h => absurd hfits h⟩
    simp only [Engine.compile, hread, hparse]
  | error r =>
    rw [hscript] at hiff
    have hparse : Procedure.parse origin (chunk is) = .error (Procedure.refusal origin r) := by
      rw [Procedure.parse, hname, hscript]
      rfl
    have hcompile : (engine.compile turns origin source).outcome =
        .error (.error (Procedure.refusal origin r)) := by
      simp only [Engine.compile, hread, hparse]
    rw [hcompile]
    refine ⟨⟨?_, fun h => ?_⟩, fun _ => ⟨_, rfl, ?_⟩⟩
    · rintro ⟨p, hp⟩
      cases hp
    · obtain ⟨body, hbody⟩ := hiff.2 h
      cases hbody
    · rw [Procedure.refusal, if_neg (fault_ne_tooDeep hlimit hscript)]
      exact ⟨rfl, rfl⟩

/-- A choice around a text. -/
theorem compile_iff_choice :
    ((∃ p, (Engine.compile 40 {} none "\x7b% if x %\x7da\x7b% endif %\x7d").outcome = .ok p) ↔
        Balanced [.start .ifTag "x", .raw "a", .finish] ∨
          MadeUp [.start .ifTag "x", .raw "a", .finish]) ∧
      (¬ (Balanced [.start .ifTag "x", .raw "a", .finish] ∨
          MadeUp [.start .ifTag "x", .raw "a", .finish]) →
        ∃ e, (Engine.compile 40 {} none "\x7b% if x %\x7da\x7b% endif %\x7d").outcome =
            .error (.error e) ∧
          e.kind = .syntaxKind ∧ e.place = none) :=
  compile_iff (by decide +kernel) (by decide +kernel) (by decide +kernel) (by
    rw [bytesOf_chunk, bytesOf_opening]
    decide +kernel)

/-- An end before a start: the template compiles, and its control flow is not balanced. -/
theorem compile_crossed :
    ∃ is, (Template.read 40 {} none "\x7b% endif %\x7d\x7b% if x %\x7d").outcome = .ok is ∧
      (∀ i ∈ is, i.isWhole) ∧ ¬ hitsLimit (bytesOf (chunk is)) ∧ ¬ Balanced is ∧
      ∃ p, (Engine.compile 40 {} none "\x7b% endif %\x7d\x7b% if x %\x7d").outcome = .ok p := by
  refine ⟨[.finish, .start .ifTag "x"], by decide +kernel, by decide +kernel, ?_,
    ?_, ⟨none, chunk [.finish, .start .ifTag "x"]⟩, by decide +kernel⟩
  · rw [bytesOf_chunk, bytesOf_opening]
    decide +kernel
  · rw [balanced_iff]
    decide

end Template

end Stencil
