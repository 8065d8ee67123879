import Stencil.Proofs.Template.Acts
import Stencil.Proofs.Template.Bare
import Stencil.Proofs.Template.Finite
import Stencil.Proofs.Template.Pasted

/-!
# The end of a template closes a tag

A tag that is open at the end of a template does there what it does at its closing mark.  The end
goes its own way: it tells a tag by its name itself, passes over tags that hold nothing, and goes on
with the text of an include.

* `Scan.toEnd` : a scan where it has read all that the template has.
* `Scan.reaches_more` : with more after it, after a blank, a template is read alike up to there.
* `Scan.reaches_closing` : a blank and a closing mark do what the end does.
* `readSame_closing` : so a template is read the same with both after it.
-/

namespace Stencil.Template

/-- The mark that closes a tag. -/
def Scope.closing : Scope → String
  | .echoed => "\x7d\x7d"
  | .statement => "$\x7d"
  | _ => "%\x7d"

/-- The first character of that mark. -/
theorem Scope.exists_closing (scope : Scope) :
    ∃ a, Scan.closer? (some scope) = some a ∧ scope.closing.toList = [a, '\x7d'] := by
  cases scope <;> exact ⟨_, rfl, by simp [closing]⟩

theorem Scope.closer?_of_named {name : List Char} {scope : Scope}
    (h : Scope.named? name = some scope) : Scan.closer? (some scope) = some '%' := by
  rw [Scope.named?.eq_def] at h
  split at h <;> cases h <;> rfl

namespace Scan

/-- The scan where it has read all that the template has, if it comes there in so many turns. -/
def toEnd : (turns : Nat) → Scan → Option Scan
  | 0, _ => none
  | turns + 1, s =>
    match s.ahead with
    | [] => some s
    | _ :: _ =>
      match s.turn with
      | .more s => toEnd turns s
      | _ => none

variable {s s₁ a : Scan} {t t' : OpenTag} {ts : List OpenTag} {rest : List Char} {turns : Nat}

theorem reaches_toEnd (h : s.toEnd turns = some s₁) : Reaches s s₁ ∧ s₁.ahead = [] := by
  induction turns generalizing s with
  | zero => cases h
  | succ turns ih =>
    rw [toEnd] at h
    split at h
    next ha =>
      obtain rfl := Option.some.inj h
      exact ⟨.refl s, ha⟩
    · split at h
      next hturn => exact ⟨.head hturn (ih h).1, (ih h).2⟩
      · cases h

theorem isPure_of_bare (hpure : s.engine.IsPure) (h : a.bare [] [] = s.bare [] rest) :
    a.engine.IsPure := by
  have hengine : a.engine.forget = s.engine.forget := congrArg Scan.engine h
  rwa [← Engine.isPure_forget, hengine, Engine.isPure_forget]

/-! ### Up to the end -/

theorem exists_more_of_bare {p : Progress} (h : p.bare [] = (Progress.more s).bare rest) :
    ∃ a, p = .more a ∧ a.bare [] [] = s.bare [] rest := by
  cases p with
  | more a => exact ⟨a, rfl, by simpa only [Progress.bare, Progress.more.injEq] using h⟩
  | done a => cases h
  | fault f place a => cases h

theorem Reaches.of_bare (h : Reaches s s₁) (hpure : a.engine.IsPure)
    (hbare : a.bare [] [] = s.bare [] []) : ∃ a₁, Reaches a a₁ ∧ a₁.bare [] [] = s₁.bare [] [] := by
  obtain ⟨n, hn⟩ := h
  induction hn generalizing a with
  | refl => exact ⟨a, .refl a, hbare⟩
  | @turn n s s₂ s₁ hturn _ ih =>
    have hsame := turn_eq_of_bare hpure hbare
    rw [hturn] at hsame
    obtain ⟨a₂, ha₂, hbare₂⟩ := exists_more_of_bare hsame
    have hpure₂ := isPure_turn hpure
    rw [ha₂] at hpure₂
    obtain ⟨a₁, hreach, hbare₁⟩ := ih hpure₂ hbare₂
    exact ⟨a₁, .head ha₂ hreach, hbare₁⟩

/-- **Reading up to the end.**  With more after it, after a blank, a template is read alike up to
its end. -/
theorem reaches_more (hpure : s.engine.IsPure) (hr : Follows rest)
    (h : s.toEnd turns = some s₁) (hbare : a.bare [] [] = s.bare [] rest) :
    ∃ a₁, Reaches a a₁ ∧ a₁.bare [] [] = s₁.bare [] rest := by
  induction turns generalizing s a with
  | zero => cases h
  | succ turns ih =>
    rw [toEnd] at h
    split at h
    next ha =>
      obtain rfl := Option.some.inj h
      exact ⟨a, .refl a, hbare⟩
    next c tail ha =>
      split at h
      next s₂ hturn =>
        have hpure₂ := isPure_turn hpure
        rw [hturn] at hpure₂
        -- the turn reads on in the same way with more ahead
        have hsame : a.turn.bare [] = (s.bare [] rest).turn.bare [] :=
          turn_eq_of_bare (isPure_of_bare hpure hbare) (by rw [bare_bare, List.append_nil, hbare])
        rw [bare_turn_more hpure hr (by simp [ha]) hturn] at hsame
        obtain ⟨a₂, ha₂, hbare₂⟩ := exists_more_of_bare hsame
        obtain ⟨a₁, hreach, hbare₁⟩ := ih hpure₂ h hbare₂
        exact ⟨a₁, .head ha₂ hreach, hbare₁⟩
      · cases h

/-! ### The closing mark -/

theorem trim_cons_blank (text : List Char) :
    Text.trim (' ' :: text).reverse = Text.trim text.reverse := by
  rw [List.reverse_cons, trim_blank]

/-- Closing a tag depends on the tag and on what is around it. -/
theorem closeTag_congr (hscope : t.scope = t'.scope) (hbefore : t.before = t'.before)
    (htrim : Text.trim t.text.reverse = Text.trim t'.text.reverse) :
    s.closeTag t ts = s.closeTag t' ts := by
  rcases t with ⟨scope, text, before⟩
  rcases t' with ⟨scope', text', before'⟩
  obtain rfl : scope = scope' := hscope
  obtain rfl : before = before' := hbefore
  simp only at htrim
  cases scope <;> simp only [closeTag, htrim] <;> rfl

/-- What is behind makes no difference, nor do the tags that were open. -/
theorem closeTag_bare_congr (hpure : s.engine.IsPure) (t : OpenTag) (ts tags : List OpenTag)
    (behind : List Char) :
    (({ s with behind := behind, tags := tags }).closeTag t ts).bare [] =
      (s.closeTag t ts).bare [] := by
  rw [← bare_closeTag hpure t ts [] [],
    ← bare_closeTag (s := { s with behind := behind, tags := tags }) hpure t ts [] []]
  rfl

/-- Closing a tag behind more text. -/
theorem turn_close_bare (hpure : s.engine.IsPure) {x : Char} (ha : a.ahead = [x, '\x7d'])
    (hta : a.tags = t' :: ts) (hne : t'.scope ≠ .tagName)
    (hx : closer? (some t'.scope) = some x) (hscope : t.scope = t'.scope)
    (hbefore : t.before = t'.before)
    (htrim : Text.trim t.text.reverse = Text.trim t'.text.reverse)
    (hsame : { a with behind := s.behind, ahead := s.ahead, tags := s.tags } = s)
    (hs : s.ahead = []) :
    a.turn.bare [] = (s.closeTag t ts).bare [] := by
  have hclosed : (a.advance 2).closeTag t' ts =
      ({ s with behind := '\x7d' :: x :: a.behind, tags := a.tags }).closeTag t' ts := by
    rw [advance_two ha, ← hsame, hs]
  rw [turn_close ha hta hne hx, hclosed, closeTag_bare_congr hpure, closeTag_congr hscope hbefore htrim]

/-- **The closing mark.**  Where a template ends in a tag, a blank and the closing mark of the tag
do what the end does. -/
theorem reaches_closing (hs : Sound s) (hpure : s.engine.IsPure) (ha : s.ahead = [])
    (ht : s.tags = [t]) (hin : t.scope.isEnding ∨ t.text ≠ []) {x : Char}
    (hx : closer? (some t.scope) = some x) :
    ∃ s₁, Reaches { s with ahead := [' ', x, '\x7d'] } s₁ ∧
      s₁.turn.bare [] = (s.endTag t [] s.behind).bare [] := by
  have hraw := hs.raw_nil ht
  set s' : Scan := { s with ahead := [' ', x, '\x7d'] } with hs'
  have hahead : s'.ahead = [' ', x, '\x7d'] := rfl
  have htags : s'.tags = [t] := ht
  have hplain : s'.turn = s'.readPlain ' ' := by
    rw [turn_cons hahead, step_plain (by decide)]
  simp only [readPlain, htags] at hplain
  by_cases hname : t.scope = .tagName
  · -- the blank tells the tag by its name
    have htext : t.text ≠ [] := hin.resolve_left (by simp [hname, Scope.isEnding])
    have hself : Text.trim t.text.reverse = t.text.reverse :=
      trim_eq_self (by simpa using (hs.head ht).name hname)
    rw [if_pos ⟨hname, by decide⟩, if_neg (by simpa [hself] using htext)] at hplain
    cases hnamed : Scope.named? (Text.trim t.text.reverse) with
    | none =>
      have huntold : t.told? = none := by simp [OpenTag.told?, hname, hnamed]
      refine ⟨s', .refl s', ?_⟩
      rw [hplain, nameTag, hnamed, endTag_untold huntold]
      rfl
    | some scope =>
      have htold : t.told? = some ⟨scope, [], t.before⟩ := by simp [OpenTag.told?, hname, hnamed]
      have hopen : ({ s' with tags := [] }).openTag scope t.before =
          { s' with tags := [⟨scope, [], t.before⟩] } := by
        rw [openTag_outside (by rfl), flushRaw_of_raw (s := { s' with tags := [] }) hraw]
      have hturn : s'.turn = .more { s with
          behind := ' ' :: s.behind
          ahead := [x, '\x7d']
          tags := [⟨scope, [], t.before⟩] } := by
        rw [hplain, nameTag, hnamed]
        simp only [hopen]
        rw [advance_one (by exact hahead)]
      have hx' : closer? (some scope) = some x := by
        rw [hname] at hx
        exact (Scope.closer?_of_named hnamed).trans hx
      refine ⟨_, .head hturn (.refl _), ?_⟩
      rw [endTag_told hraw htold]
      exact turn_close_bare hpure rfl rfl (OpenTag.told?_scope htold) hx' rfl rfl rfl rfl ha
  · rw [endTag_told hraw (OpenTag.told?_of_ne hname)]
    rw [if_neg (fun h => hname h.1)] at hplain
    by_cases hend : t.scope.isEnding
    · -- the blank is passed over
      rw [if_pos hend, if_pos (by decide), advance_one hahead] at hplain
      refine ⟨_, .head hplain (.refl _), ?_⟩
      exact turn_close_bare hpure rfl ht hname hx rfl rfl rfl rfl ha
    · -- the blank is collected, and trimmed away
      rw [if_neg hend, collect_eq_tag htags, advance_one (by exact hahead)] at hplain
      refine ⟨_, .head hplain (.refl _), ?_⟩
      exact turn_close_bare hpure rfl rfl hname hx rfl rfl (trim_cons_blank _).symm rfl ha

/-- Closing a tag leaves those around it open. -/
theorem closeTag_tags (h : s.closeTag t ts = .more s₁) : s₁.tags = ts := by
  cases hinstr : t.scope.instr? (String.ofList (Text.trim t.text.reverse)) with
  | some i =>
    rw [closeTag_eq_emit hinstr] at h
    cases h
    rfl
  | none =>
    rcases Scope.instr?_eq_none hinstr with hscope | ⟨hscope, hempty⟩ | hscope
    · rw [closeTag_include hscope, splice] at h
      split at h
      split at h <;> cases h
      rfl
    · rw [closeTag_unnamed hscope hempty] at h
      cases h
    · rw [closeTag_untold hscope] at h
      cases h
      rfl

theorem endTag_tags {upTo : List Char} (hraw : s.raw = []) (h : s.endTag t ts upTo = .more s₁) :
    s₁.tags = ts := by
  cases htold : t.told? with
  | none => rw [endTag_untold htold] at h; cases h
  | some t' =>
    rw [endTag_told hraw htold] at h
    exact closeTag_tags h

end Scan

/-! ### Reading -/

open Scan

variable {engine : Engine} {origin : Option String} {source source' : String}

/-- Two templates are read the same: as the same instructions, or with errors of the same category
and message; or neither reading ends, since more and more is included. -/
def ReadSame (engine : Engine) (origin : Option String) (source source' : String) : Prop :=
  (∃ is, Reads engine origin source (.ok is) ∧ Reads engine origin source' (.ok is)) ∨
  (∃ e e', Reads engine origin source (.error e) ∧ Reads engine origin source' (.error e') ∧
    e.kind = e'.kind ∧ e.message = e'.message) ∨
  (ReadsOn engine origin source ∧ ReadsOn engine origin source' ∧
    ∀ most, ∃ s, Reaches (.start engine origin source) s ∧ most < s.included.length)

/-- A reading that does not end includes more and more. -/
theorem ReadsOn.included (h : ReadsOn engine origin source) (most : Nat) :
    ∃ s, Reaches (.start engine origin source) s ∧ most < s.included.length := by
  by_contra hno
  push Not at hno
  obtain ⟨turns, p, hrun⟩ := run_ends _ hno
  have hread := h turns
  rw [read, hrun] at hread
  cases p with
  | more s => exact run_ne_more _ _ _ hrun
  | done s => cases hread
  | fault f place s => cases hread

/-- Two readings that come to scans whose next turns come to the same. -/
theorem readSame_of_turn {a a' : Scan} (h : Reaches (.start engine origin source) a)
    (h' : Reaches (.start engine origin source') a') (hpure : a.engine.IsPure)
    (hturn : a.turn.bare [] = a'.turn.bare []) : ReadSame engine origin source source' := by
  have hsame := run_eq_of_turn hpure hturn
  rcases a.run_cases with ⟨n, p, hp⟩ | hnone
  · have hrun := hsame n
    rw [hp, Option.map_some] at hrun
    obtain ⟨q, hq, hpq⟩ := Option.map_eq_some_iff.1 hrun.symm
    obtain ⟨m, hm⟩ := h.run_eq_some hp
    obtain ⟨m', hm'⟩ := h'.run_eq_some hq
    cases p with
    | more s => exact absurd hp (run_ne_more n a s)
    | done s =>
      cases q with
      | done s' =>
        have hbare : s'.bare [] [] = s.bare [] [] := by
          simpa only [Progress.bare, Progress.done.injEq] using hpq
        have hinstrs : s'.instrs = s.instrs := by simpa [Scan.bare] using congrArg Scan.instrs hbare
        refine .inl ⟨_, reads_done hm, ?_⟩
        rw [instructions, ← hinstrs]
        exact reads_done hm'
      | more s' => cases hpq
      | fault f place s' => cases hpq
    | fault f place s =>
      cases q with
      | fault f' place' s' =>
        obtain rfl : f' = f := by
          simpa only [Progress.bare, Progress.fault.injEq, and_true] using hpq
        exact .inr (.inl ⟨_, _, reads_fault hm, reads_fault hm', rfl, rfl⟩)
      | more s' => cases hpq
      | done s' => cases hpq
  · have hnone' (n : Nat) : a'.run n = none := by
      have hrun := hsame n
      rw [hnone n] at hrun
      exact Option.map_eq_none_iff.1 hrun.symm
    have hon := readsOn_of_reaches h hnone
    exact .inr (.inr ⟨hon, readsOn_of_reaches h' hnone', hon.included⟩)

/-- **The end of a template closes a tag.**  Where a template ends in exactly one tag, and that tag
is an end tag past its name or has collected something, the template is read the same with a blank
and the closing mark of the tag after it. -/
theorem readSame_closing (hpure : engine.IsPure) {turns : Nat} {s : Scan} {t : OpenTag}
    (hs : (Scan.start engine origin source).toEnd turns = some s) (ht : s.tags = [t])
    (hin : t.scope.isEnding ∨ t.text ≠ []) :
    ReadSame engine origin source (source ++ " " ++ t.scope.closing) := by
  obtain ⟨x, hx, hclosing⟩ := t.scope.exists_closing
  obtain ⟨hreach, ha⟩ := reaches_toEnd hs
  have hsound := sound_of_reaches hreach
  have hraw := hsound.raw_nil ht
  -- with the mark after it, the template is read alike up to the tag's end
  have hfollows : Follows [' ', x, '\x7d'] := .inr rfl
  have hstart : (Scan.start engine origin (source ++ " " ++ t.scope.closing)).bare [] [] =
      (Scan.start engine origin source).bare [] [' ', x, '\x7d'] := by
    simp [Scan.start, Scan.bare, hclosing]
  obtain ⟨a₁, hreach₁, hbare₁⟩ := reaches_more hpure hfollows hs hstart
  have hpure₁ := isPure_of_reaches (s := .start engine origin source) hpure hreach
  -- there the mark does what the end does
  obtain ⟨s₂, hreach₂, hturn₂⟩ := reaches_closing hsound hpure₁ ha ht hin hx
  have hpure_a := isPure_of_bare hpure₁ hbare₁
  obtain ⟨a₂, hreach₂', hbare₂⟩ := hreach₂.of_bare hpure_a
    (by rw [hbare₁]; simp [Scan.bare, ha])
  have hturn : a₂.turn.bare [] = (s.endTag t [] s.behind).bare [] :=
    (turn_eq_of_bare (isPure_of_reaches hpure_a hreach₂') hbare₂).trans hturn₂
  have hflush : s.turn = s.flush := by rw [turn.eq_def, ha]
  rw [flush.eq_def, ht] at hflush
  simp only at hflush
  rw [if_neg (by rcases hin with h | h <;> simp [h])] at hflush
  have hreach' := hreach₁.trans hreach₂'
  cases hend : s.endTag t [] s.behind with
  | done s₃ => exact absurd hend (endTag_ne_done _ _ _ _ _)
  | fault f place s₃ =>
    rw [hend] at hturn
    simp only [hend] at hflush
    exact readSame_of_turn hreach hreach' hpure₁ (by rw [hflush, hturn])
  | more s₃ =>
    rw [hend] at hturn
    simp only [hend] at hflush
    by_cases hnil : s₃.ahead = []
    · -- nothing is left to read after the mark
      rw [hnil] at hflush
      obtain ⟨a₃, ha₃, hbare₃⟩ := exists_more_of_bare hturn
      have hlast : s₃.turn = .done s₃ := by
        rw [turn.eq_def, hnil]
        simp only [flush, endTag_tags hraw hend]
        rw [flushRaw_of_raw (Alike.endTag_raw hraw hend)]
      have hpure₃ : a₃.engine.IsPure := by
        have := isPure_turn (isPure_of_reaches hpure_a hreach₂')
        rwa [ha₃] at this
      refine readSame_of_turn hreach (hreach'.trans (.head ha₃ (.refl a₃))) hpure₁ ?_
      rw [turn_eq_of_bare hpure₃ hbare₃, hlast, hflush]
      rfl
    · rw [if_neg (by simpa using hnil)] at hflush
      exact readSame_of_turn hreach hreach' hpure₁ (by rw [hflush, hturn])

/-- An engine that knows one text, which opens a tag and does not close it. -/
def knowsOpen : Engine :=
  ⟨.empty, [.pure fun a => if a.name = "f" then some "b\x7b\x7b c \x7d" else none], none⟩

/-- A template that ends in the path of an include, whose text ends in an open tag. -/
theorem readSame_closing_include :
    knowsOpen.IsPure ∧
    ((Scan.start knowsOpen none "a\x7b% include f").toEnd 20).map (·.tags) =
      some [⟨.includePath, ['f'], ['a']⟩] ∧
    ReadSame knowsOpen none "a\x7b% include f" ("a\x7b% include f" ++ " " ++ "%\x7d") := by
  have hpure : knowsOpen.IsPure := by
    intro r hr
    obtain rfl : r = .pure fun a => if a.name = "f" then some "b\x7b\x7b c \x7d" else none := by
      simpa [knowsOpen] using hr
    exact fun _ _ _ => rfl
  have hends : ((Scan.start knowsOpen none "a\x7b% include f").toEnd 20).map (·.tags) =
      some [⟨.includePath, ['f'], ['a']⟩] := by decide
  obtain ⟨s, hs, ht⟩ := Option.map_eq_some_iff.1 hends
  have hsame := readSame_closing hpure hs ht (.inr (List.cons_ne_nil _ _))
  exact ⟨hpure, hends, hsame⟩

end Stencil.Template
