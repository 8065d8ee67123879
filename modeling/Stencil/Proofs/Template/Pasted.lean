import Stencil.Proofs.Template.Alike
import Stencil.Proofs.Template.Moves
import Stencil.Proofs.Template.Printed

/-!
# Includes as pasted text

An include tag outside of all tags is read as if the included text had been written in its place:
`include_pasted` compares the two templates, up to how text outside of tags is cut.  What stands
before the tag is read alike in both (`Scan.reaches_prefix`), then the tag puts the included text
ahead (`Scan.reaches_include`), and from there on the two scans go on alike.

Text that ends in a percent sign needs care: if the included text starts with a brace, the pasted
template reads the two characters at once, and the other one reads them in two turns.
-/

namespace Stencil.Template

namespace Scan

variable {e : Engine} {o : Option String} {s s₁ : Scan} {t : OpenTag} {ts : List OpenTag}

/-! ### Turns that report nothing -/

/-- Only an include changes what is ahead when a tag is closed, and it is reported. -/
theorem closeTag_quiet (h : s.closeTag t ts = .more s₁) (hq : s₁.events = []) :
    s₁.ahead = s.ahead := by
  rcases t with ⟨scope, text, before⟩
  cases scope with
  | includePath =>
    simp only [closeTag, splice] at h
    split at h
    · cases h; cases hq
    · cases h
  | blockName =>
    simp only [closeTag] at h
    split at h
    · cases h
    · cases h; rfl
  | tagName => cases h; rfl
  | header _ => cases h; rfl
  | echoed => cases h; rfl
  | statement => cases h; rfl
  | ending _ => cases h; rfl

theorem endTag_quiet {upTo : List Char} (h : s.endTag t ts upTo = .more s₁)
    (hq : s₁.events = []) : s₁.ahead = s.ahead := by
  rw [endTag] at h
  split at h
  · cases hname : s.nameTag t ts upTo with
    | more s₂ =>
      obtain ⟨-, hahead, htags⟩ := nameTag_more hname
      obtain ⟨t₂, ts₂, ht₂⟩ := List.exists_cons_of_ne_nil htags
      simp only [hname, ht₂] at h
      exact (closeTag_quiet h hq).trans hahead
    | done _ => simp [hname] at h
    | fault _ _ _ => simp [hname] at h
  · exact closeTag_quiet h hq

/-- Reading on takes at least one character from what is ahead. -/
def Consumes (s s₁ : Scan) : Prop := ∃ n, 0 < n ∧ s₁.ahead = s.ahead.drop n

theorem consumes_advance {s₂ : Scan} (h : s₂.ahead = s.ahead) {n : Nat} (hn : 0 < n) :
    s.Consumes (s₂.advance n) :=
  ⟨n, hn, by rw [advance_eq, h]⟩

theorem readOpening_consumes {scope : Scope} (h : s.readOpening scope = .more s₁) :
    s.Consumes s₁ := by
  simp only [readOpening] at h
  split at h
  · cases h
    exact ⟨3, by omega, by simp only [emit, advance_eq, openTag_ahead, List.drop_drop]⟩
  · cases h
    exact consumes_advance (by rw [openTag_ahead]) (by omega)

theorem readCloser_consumes {c : Char} {closed : Scope} (h : s.readCloser c closed = .more s₁)
    (hq : s₁.events = []) : s.Consumes s₁ := by
  simp only [readCloser] at h
  split at h
  · cases h; exact consumes_advance (by simp) (by omega)
  · split at h
    · cases h
    · split at h
      · exact ⟨2, by omega, by rw [closeTag_quiet h hq, advance_eq]⟩
      · cases h; exact consumes_advance (by simp) (by omega)

theorem readPercent_consumes (h : s.readPercent = .more s₁) (hq : s₁.events = []) :
    s.Consumes s₁ := by
  simp only [readPercent] at h
  split at h
  · split at h
    · cases h; exact consumes_advance (by simp) (by omega)
    · cases h; exact consumes_advance (by simp) (by omega)
  · split at h
    · split at h
      · cases h; exact consumes_advance (by simp) (by omega)
      · exact ⟨2, by omega, by rw [endTag_quiet h hq, advance_eq]⟩
    · split at h
      · cases h
      · cases h; exact consumes_advance (by simp) (by omega)

theorem readPlain_consumes {c : Char} (h : s.readPlain c = .more s₁) : s.Consumes s₁ := by
  simp only [readPlain] at h
  split at h
  · cases h; exact consumes_advance (by simp) (by omega)
  · split at h
    · split at h
      · cases h; exact consumes_advance rfl (by omega)
      · split at h
        next hname => cases h; exact consumes_advance (nameTag_more hname).2.1 (by omega)
        next hstop => exact absurd h (hstop _)
    · split at h
      · split at h
        · cases h; exact consumes_advance rfl (by omega)
        · cases h
      · cases h; exact consumes_advance (by simp) (by omega)

/-- At the end of the text only an include leaves more to read. -/
theorem flush_quiet (ha : s.ahead = []) (h : s.flush = .more s₁) : s₁.events ≠ [] := by
  intro hq
  simp only [flush] at h
  split at h
  · cases h
  · split at h
    · cases h
    next t ts _ _ =>
      cases hend : s.endTag t ts s.behind with
      | more s₂ =>
        simp only [hend] at h
        split at h
        · cases h
        next hne =>
          cases h
          exact hne (by rw [endTag_quiet hend hq, ha]; rfl)
      | done _ => simp [hend] at h
      | fault _ _ _ => simp [hend] at h

/-- A turn that reports nothing reads some of the text ahead and nothing else. -/
theorem turn_quiet (h : s.turn = .more s₁) (hq : s₁.events = []) :
    s.ahead ≠ [] ∧ s.Consumes s₁ := by
  cases ha : s.ahead with
  | nil =>
    simp only [turn, ha] at h
    exact absurd hq (flush_quiet ha h)
  | cons c tail =>
    refine ⟨by simp, ?_⟩
    rw [turn_cons ha, step.eq_def] at h
    split at h
    · split at h
      · cases h
      · split at h
        · exact readOpening_consumes h
        · cases h; exact consumes_advance (by simp) (by omega)
    · exact readCloser_consumes h hq
    · exact readCloser_consumes h hq
    · exact readPercent_consumes h hq
    · exact readPlain_consumes h

/-! ### The text before the tag -/

/-- A turn that leaves nothing ahead and no tag open has collected the last character. -/
theorem turn_last {c : Char} (ha : s.ahead = [c]) (h : s.turn = .more s₁) (ht : s₁.tags = []) :
    s.tags = [] ∧ s₁ = (s.collect c).advance 1 := by
  have hcollect : ∀ t ts, s.tags = t :: ts → (s.collect c).tags ≠ [] := by
    intro t ts hs
    rw [collect_eq_tag hs]
    simp
  cases hs : s.tags with
  | nil =>
    have hturn := turn_collect ha (by simp [scope?, hs, collects]) (by simp) (by simp)
    rw [hturn] at h
    cases h
    exact ⟨rfl, rfl⟩
  | cons t ts =>
    -- the tag stays open, since a closing mark has two characters
    exfalso
    have hmore : ∀ {s₂ : Scan}, s₂.tags ≠ [] → Progress.more (s₂.advance 1) ≠ .more s₁ := by
      intro s₂ hne h
      cases h
      exact hne (by rwa [advance_eq] at ht)
    rw [turn_cons ha, step.eq_def] at h
    split at h
    · simp only [ha] at h
      split at h
      · cases h
      · exact hmore (hcollect t ts hs) h
    iterate 2
      · simp only [readCloser, hs, ha] at h
        split at h
        · cases h
        · simp at h
          exact hmore (hcollect t ts hs) (by rw [h])
    · simp only [readPercent, hs, ha] at h
      simp at h
      split at h
      · cases h
      · exact hmore (hcollect t ts hs) h
    · simp only [readPlain, hs] at h
      split at h
      · split at h
        · exact hmore (by simp [hs]) h
        · split at h
          next hname => exact hmore (nameTag_more hname).2.2 h
          next hstop => exact absurd h (hstop _)
      · split at h
        · split at h
          · exact hmore (by simp [hs]) h
          · cases h
        · exact hmore (hcollect t ts hs) h

/-- A tag that opens at the end of the text stays open. -/
theorem turn_opening_last {c d : Char} (ha : s.ahead = [c, d]) (hop : opens c d = true)
    (h : s.turn = .more s₁) : s₁.ahead = [] ∧ s₁.tags ≠ [] := by
  obtain ⟨rfl, -⟩ := opens_eq_true hop
  have hsome : (Scope.opening? d).isSome := by simpa [opens] using hop
  obtain ⟨scope, hscope⟩ := Option.isSome_iff_exists.1 hsome
  rw [turn_cons ha] at h
  change (if _ then _ else _) = _ at h
  split at h
  · cases h
  · simp only [ha, List.drop_one, List.tail_cons, List.head?_cons, Option.bind_some, hscope,
      readOpening, advance_eq, openTag_ahead] at h
    cases h
    exact ⟨rfl, by simp [openTag]⟩

/-- A scan that has nothing ahead goes on only by an include, so it stays as it is. -/
theorem Takes.eq_of_ahead {n : Nat} {s' : Scan} (h : Takes n s s') (ha : s.ahead = [])
    (hq : s'.events = []) : s' = s := by
  cases h with
  | refl => rfl
  | turn ht hrun => exact absurd ha (turn_quiet ht (hrun.quiet hq)).1

/-- The last character of a text that ends outside of all tags is collected, with more text after it too.
If it is a percent sign and a brace comes after it, the brace is collected with it. -/
theorem reaches_last {a : Scan} {rest : List Char} {c : Char} (hc : s.ahead = [c]) (hcne : c ≠ '\x7b')
    (hturn : s.turn = .more s₁) (ht : s₁.tags = []) (hal : Alike e o rest a s) :
    ∃ a', Reaches a a' ∧ (Alike e o rest a' s₁ ∨
      ∃ more, rest = '\x7d' :: more ∧ Alike e o more a' (s₁.collect '\x7d')) := by
  have hca : a.ahead = c :: rest := by rw [hal.ahead, hc]; rfl
  obtain ⟨hs, rfl⟩ := turn_last hc hturn ht
  have hta : a.tags = [] := by
    obtain ⟨hta, -⟩ | ⟨_, _, _, _, -, hs', -⟩ := hal.cases_tags
    · exact hta
    · rw [hs'] at hs; cases hs
  by_cases hpair : c = '%' ∧ rest.head? = some '\x7d'
  · obtain ⟨rfl, hhead⟩ := hpair
    obtain ⟨more, rfl⟩ : ∃ more, rest = '\x7d' :: more := by
      cases rest with
      | nil => cases hhead
      | cons d more => exact ⟨more, by rw [Option.some.inj hhead]⟩
    have hturn_a := turn_percent hca (by simp [scope?, hta, collects]) (by simp [scope?, hta, closer?])
    refine ⟨_, .head hturn_a (.refl _), .inr ⟨more, rfl, ?_⟩⟩
    have hboth := (hal.collect '%').collect '\x7d'
    have hplace : ((s.collect '%').advance 1).collect '\x7d' =
        { (s.collect '%').collect '\x7d' with
          behind := ((s.collect '%').ahead.take 1).reverse ++ (s.collect '%').behind
          ahead := (s.collect '%').ahead.drop 1 } := by
      rw [advance_eq, collect_place]
    rw [hplace, advance_eq]
    exact hboth.setPlace (by simp [hca, hc])
  · have hturn_a := turn_collect hca (by simp [scope?, hta, collects])
      (fun d _ => ⟨by simp [opens, hcne], by simp [scope?, hta, closer?]⟩) hpair
    exact ⟨_, .head hturn_a (.refl _), .inl ((hal.collect c).advance (by simp [hc]))⟩

/-- **The text before an include.**  A text that is read alone and without a report up to its end
is read alike with more text after it.  If it ends in a percent sign and the brace after it is read
along, the scan is one character further. -/
theorem reaches_prefix {n : Nat} {s' a : Scan} {rest : List Char} (h : Takes n s s')
    (ha : s'.ahead = []) (ht : s'.tags = []) (hq : ∀ s₁, Reaches s s₁ → s₁.events = [])
    (hlast : s.ahead.getLast? ≠ some '\x7b') (hal : Alike e o rest a s) :
    ∃ a', Reaches a a' ∧ (Alike e o rest a' s' ∨
      ∃ more, rest = '\x7d' :: more ∧ Alike e o more a' (s'.collect '\x7d')) := by
  induction h generalizing a with
  | refl s => exact ⟨a, .refl a, .inl hal⟩
  | @turn n s s₁ s' hturn hrun ih =>
    have hq₁ : ∀ s₂, Reaches s₁ s₂ → s₂.events = [] := fun s₂ h₂ => hq s₂ (.head hturn h₂)
    obtain ⟨hne, k, hk, hdrop⟩ := turn_quiet hturn (hq₁ s₁ (.refl s₁))
    obtain ⟨c, tail, hc⟩ := List.exists_cons_of_ne_nil hne
    have hca : a.ahead = c :: (tail ++ rest) := by rw [hal.ahead, hc]; rfl
    by_cases hsee : 3 ≤ s.ahead.length ∨ ∃ d, tail = [d] ∧ opens c d = false
    · -- the turn sees all that it needs to
      have hstep := hal.step hc (.inr hsee)
      rw [← turn_cons hc, hturn] at hstep
      generalize hp : a.step c = p at hstep
      cases hstep with
      | @more a₁ _ h₁ =>
        have hlast₁ : s₁.ahead.getLast? ≠ some '\x7b' := by
          rw [hdrop, List.getLast?_drop]
          split
          · simp
          · exact hlast
        obtain ⟨a', hreach, hor⟩ := ih ha ht hq₁ hlast₁ h₁
        exact ⟨a', .head ((turn_cons hca).trans hp) hreach, hor⟩
    · have hlen : tail.length ≤ 1 := by
        rw [hc, List.length_cons] at hsee
        by_contra hlt
        exact hsee (.inl (by omega))
      match tail, hlen with
      | [d], _ =>
        -- a tag that opens at the end of the text is not closed there
        exfalso
        have hop : opens c d = true := by
          by_contra hop
          exact hsee (.inr ⟨d, rfl, by simpa using hop⟩)
        obtain ⟨hend, hopened⟩ := turn_opening_last hc hop hturn
        exact hopened (hrun.eq_of_ahead hend (hq₁ _ ⟨_, hrun⟩) ▸ ht)
      | [], _ =>
        -- the last character is collected
        have hcne : c ≠ '\x7b' := by
          rintro rfl
          exact hlast (by rw [hc]; rfl)
        have hend : s₁.ahead = [] := by
          rw [hdrop, hc, List.drop_eq_nil_iff]
          exact hk
        obtain rfl := hrun.eq_of_ahead hend (hq₁ _ ⟨_, hrun⟩)
        exact reaches_last hc hcne hturn ht hal

/-! ### The tag -/

/-- **An include tag.**  Outside of all tags it puts the text that it names ahead. -/
theorem reaches_include {a s' : Scan} {p post : List Char} {text : String}
    (hal : Alike e o (tagSource '%' false (' ' :: (['i', 'n', 'c', 'l', 'u', 'd', 'e'] ++ padded p)) '%'
      ++ post) a s') (ha : s'.ahead = []) (ht : s'.tags = []) (hp : Unmarked p)
    (hp' : ¬ ['%', '\x7d'] <:+: p)
    (hfound : (e.resolve ⟨String.ofList (Text.trim p), o⟩).1 = some text) :
    ∃ a', Reaches a a' ∧ Alike e o (text.toList ++ post) a' s' := by
  have hta : a.tags = [] := by
    obtain ⟨hta, -⟩ | ⟨_, _, _, _, -, hs', -⟩ := hal.cases_tags
    · exact hta
    · rw [hs'] at ht; cases ht
  obtain ⟨behind, h₁⟩ : ∃ behind, Reaches a { a.flushRaw with
      behind := behind
      ahead := (p ++ [' ']) ++ '%' :: '\x7d' :: post
      tags := [⟨.includePath, [], a.behind⟩] } := by
    have h₁ := within_opening (hal.ahead.trans (by rw [ha]; rfl)) hta rfl
    have h₂ := h₁.trans (within_name ['i', 'n', 'c', 'l', 'u', 'd', 'e']
      ((p ++ [' ']) ++ '%' :: '\x7d' :: post) (by simp [padded]) rfl (by simp) (by decide)
      (by decide) rfl)
    exact ⟨_, h₂.reaches⟩
  have hengine : (a.flushRaw.engine.resolve ⟨String.ofList (Text.trim p), a.flushRaw.origin⟩).1 =
      some text := by
    rw [flushRaw_engine, flushRaw_origin, hal.origin.1, hal.isPure.resolve_answer, hal.engine.1,
      hfound]
  obtain ⟨s₁, h₂, hturn⟩ := turns_body (s := { a.flushRaw with
      behind := behind
      ahead := (p ++ [' ']) ++ '%' :: '\x7d' :: post
      tags := [⟨.includePath, [], a.behind⟩] }) rfl rfl (.inl rfl) (by simp) rfl
    (isChain_closing hp hp' rfl) (by simp)
  simp only [closeTag, List.reverse_reverse, trim_blank] at hturn
  have hmore := hturn.trans (splice_found _ hengine)
  refine ⟨_, h₁.trans (h₂.reaches.trans (.head hmore (.refl _))), ?_⟩
  have htags : List.Forall₂ OpenTag.Same [] s'.tags := by rw [ht]; exact .nil
  exact ⟨by simp [ha], htags, fun hne => absurd rfl hne, (joined_flushRaw a).trans hal.joined,
    ⟨(flushRaw_origin a).trans hal.origin.1, hal.origin.2⟩,
    ⟨Engine.resolve_forget.trans (by rw [flushRaw_engine]; exact hal.engine.1), hal.engine.2⟩,
    hal.pure⟩

/-! ### Runs -/

/-- Two scans that are like a third one are alike. -/
theorem Alike.join {a b : Scan} {rest : List Char} (h : Alike e o rest a s) (h' : Alike e o rest b s) :
    Alike e o [] a b := by
  have htags : List.Forall₂ OpenTag.Same a.tags b.tags := by
    have hflip : List.Forall₂ (flip OpenTag.Same) s.tags b.tags := h'.tags.flip
    have htrans : ∀ {us vs ws : List OpenTag}, List.Forall₂ OpenTag.Same us vs →
        List.Forall₂ (flip OpenTag.Same) vs ws → List.Forall₂ OpenTag.Same us ws := by
      intro us vs ws h₁ h₂
      induction h₁ generalizing ws with
      | nil => cases h₂; exact .nil
      | cons hs _ ih =>
        cases h₂ with
        | cons hs' h₂ => exact .cons ⟨hs.1.trans hs'.1.symm, hs.2.trans hs'.2.symm⟩ (ih h₂)
    exact htrans h.tags hflip
  refine ⟨by rw [h.ahead, h'.ahead, List.append_nil], htags, fun hne => ?_,
    h.joined.trans h'.joined.symm, ⟨h.origin.1, h'.origin.1⟩, ⟨h.engine.1, h'.engine.1⟩, h.pure⟩
  refine ⟨(h.raw hne).1, (h'.raw ?_).1⟩
  intro hnil
  rw [hnil] at htags
  exact hne (List.forall₂_nil_right_iff.1 htags)

theorem Reaches.run_eq_some {s' : Scan} (h : Reaches s s') {n : Nat} {p : Progress}
    (hp : s'.run n = some p) : ∃ m, s.run m = some p := by
  obtain ⟨k, hk⟩ := h
  exact ⟨k + n, (hk.run n).trans hp⟩

theorem Reaches.run_eq_none {s' : Scan} (h : Reaches s s') (hp : ∀ n, s'.run n = none) (n : Nat) :
    s.run n = none := by
  obtain ⟨k, hk⟩ := h
  by_contra hne
  obtain ⟨p, hp'⟩ := Option.ne_none_iff_exists'.1 hne
  have hmore := run_mono hp' (Nat.le_add_left n k)
  rw [hk.run, hp n] at hmore
  cases hmore

end Scan

/-! ### Reading -/

variable {engine : Engine} {origin : Option String}

/-- Reading a template has a result, which more turns do not change. -/
def Reads (engine : Engine) (origin : Option String) (source : String)
    (result : Except Error (List Instr)) : Prop :=
  ∃ n, ∀ turns, n ≤ turns → (read turns engine origin source).outcome = result.mapError .error

/-- Reading a template does not come to an end. -/
def ReadsOn (engine : Engine) (origin : Option String) (source : String) : Prop :=
  ∀ turns, (read turns engine origin source).outcome = .error .exhausted

/-- Two templates are read alike: the instructions are the same once neighbouring texts are joined,
or the errors have the same category and message, or neither reading comes to an end. -/
def ReadAlike (engine : Engine) (origin : Option String) (source source' : String) : Prop :=
  (∃ is is', Reads engine origin source (.ok is) ∧ Reads engine origin source' (.ok is') ∧
    joinRaw is = joinRaw is') ∨
  (∃ e e', Reads engine origin source (.error e) ∧ Reads engine origin source' (.error e') ∧
    e.kind = e'.kind ∧ e.message = e'.message) ∨
  (ReadsOn engine origin source ∧ ReadsOn engine origin source')

theorem reads_done {source : String} {n : Nat} {s : Scan}
    (h : (Scan.start engine origin source).run n = some (.done s)) :
    Reads engine origin source (.ok s.instructions) :=
  ⟨n, fun turns hn => by rw [read, Scan.run_mono h hn]; rfl⟩

theorem reads_fault {source : String} {n : Nat} {s : Scan} {f : TagFault} {p : Place}
    (h : (Scan.start engine origin source).run n = some (.fault f p s)) :
    Reads engine origin source (.error (.tag f p)) :=
  ⟨n, fun turns hn => by rw [read, Scan.run_mono h hn]; rfl⟩

/-- A template is read once a turn ends it. -/
theorem reads_of_turn_done {source : String} {s s₁ : Scan}
    (h : (Scan.start engine origin source).Reaches s) (hturn : s.turn = .done s₁) :
    Reads engine origin source (.ok s₁.instructions) := by
  obtain ⟨n, hn⟩ := h.run_eq_some (n := 1) (p := .done s₁) (by rw [Scan.run, hturn])
  exact reads_done hn

theorem reads_of_turn_fault {source : String} {s s₁ : Scan} {f : TagFault} {place : Place}
    (h : (Scan.start engine origin source).Reaches s) (hturn : s.turn = .fault f place s₁) :
    Reads engine origin source (.error (.tag f place)) := by
  obtain ⟨n, hn⟩ := h.run_eq_some (n := 1) (p := .fault f place s₁) (by rw [Scan.run, hturn])
  exact reads_fault hn

/-- What has been read stays read with more turns. -/
theorem reads_of_read {source : String} {turns : Nat} {is : List Instr}
    (h : (read turns engine origin source).outcome = .ok is) :
    Reads engine origin source (.ok is) := by
  rw [read] at h
  split at h
  next s hrun =>
    obtain rfl := Except.ok.inj h
    exact reads_done hrun
  all_goals cases h

/-- A template is read in one way. -/
theorem Reads.unique {source : String} {result result' : Except Error (List Instr)}
    (h : Reads engine origin source result) (h' : Reads engine origin source result') :
    result = result' := by
  obtain ⟨n, hn⟩ := h
  obtain ⟨n', hn'⟩ := h'
  have hsame := (hn (max n n') (le_max_left _ _)).symm.trans (hn' (max n n') (le_max_right _ _))
  cases result <;> cases result' <;> simp_all [Except.mapError]

/-- A run ends or it does not. -/
theorem Scan.run_cases (s : Scan) : (∃ n p, s.run n = some p) ∨ ∀ n, s.run n = none := by
  by_cases hends : ∃ n p, s.run n = some p
  · exact .inl hends
  · refine .inr fun n => ?_
    by_contra hne
    obtain ⟨p, hp⟩ := Option.ne_none_iff_exists'.1 hne
    exact hends ⟨n, p, hp⟩

theorem readsOn_of_reaches {source : String} {a : Scan}
    (h : (Scan.start engine origin source).Reaches a) (hnone : ∀ n, a.run n = none) :
    ReadsOn engine origin source := fun turns => by
  simp [read, h.run_eq_none hnone turns]

theorem readAlike_of_reaches {source source' : String} {a a' : Scan}
    (h : (Scan.start engine origin source).Reaches a)
    (h' : (Scan.start engine origin source').Reaches a') {e : Engine} {o : Option String}
    (hal : Scan.Alike e o [] a a') :
    ReadAlike engine origin source source' := by
  rcases a.run_cases with ⟨n, p, hp⟩ | hnone
  · have hrel := hal.run n
    rw [hp] at hrel
    generalize hp' : a'.run n = o at hrel
    cases hrel with
    | some hpp =>
      obtain ⟨m, hm⟩ := h.run_eq_some hp
      obtain ⟨m', hm'⟩ := h'.run_eq_some hp'
      cases hpp with
      | more _ => exact absurd hp (Scan.run_ne_more n a _)
      | done hd => exact .inl ⟨_, _, reads_done hm, reads_done hm', hd⟩
      | fault f p p' s s' =>
        exact .inr (.inl ⟨_, _, reads_fault hm, reads_fault hm', rfl, rfl⟩)
  · have hnone' (n : Nat) : a'.run n = none := by
      have hrel := hal.run n
      rw [hnone n] at hrel
      generalize a'.run n = o at hrel
      cases hrel
      rfl
    exact .inr (.inr ⟨readsOn_of_reaches h hnone, readsOn_of_reaches h' hnone'⟩)

/-- A text that holds no include tag, since none is reported, and whose reading ends outside of all
tags. -/
structure EndsOutside (engine : Engine) (origin : Option String) (source : String) : Prop where
  /-- Nothing is reported. -/
  quiet : ∀ s, (Scan.start engine origin source).Reaches s → s.events = []
  /-- The end is reached outside of all tags. -/
  ends : ∃ s, (Scan.start engine origin source).Reaches s ∧ s.ahead = [] ∧ s.tags = []

/-- Whether a scan that is quiet ends outside of all tags in so many turns. -/
def Scan.settles : Nat → Scan → Bool
  | 0, _ => false
  | n + 1, s =>
    s.events.isEmpty &&
      match s.turn with
      | .more s => settles n s
      | .done _ => s.ahead.isEmpty && s.tags.isEmpty
      | .fault _ _ _ => false

theorem Scan.of_settles {n : Nat} {s : Scan} (h : s.settles n) :
    (∀ s₁, Reaches s s₁ → s₁.events = []) ∧ ∃ s₁, Reaches s s₁ ∧ s₁.ahead = [] ∧ s₁.tags = [] := by
  induction n generalizing s with
  | zero => cases h
  | succ n ih =>
    simp only [settles, Bool.and_eq_true, List.isEmpty_iff] at h
    obtain ⟨hev, h⟩ := h
    cases hturn : s.turn with
    | more s₂ =>
      rw [hturn] at h
      obtain ⟨hquiet, s₁, hreach, hend⟩ := ih h
      refine ⟨?_, s₁, .head hturn hreach, hend⟩
      rintro s₃ ⟨k, hk⟩
      cases hk with
      | refl => exact hev
      | turn ht hk =>
        obtain rfl := Progress.more.inj (hturn.symm.trans ht)
        exact hquiet s₃ ⟨_, hk⟩
    | done s₂ =>
      rw [hturn] at h
      simp only [Bool.and_eq_true, List.isEmpty_iff] at h
      refine ⟨?_, s, .refl s, h⟩
      rintro s₃ ⟨k, hk⟩
      cases hk with
      | refl => exact hev
      | turn ht _ => rw [hturn] at ht; cases ht
    | fault _ _ _ => rw [hturn] at h; cases h

theorem EndsOutside.of_settles {source : String} {n : Nat}
    (h : (Scan.start engine origin source).settles n) : EndsOutside engine origin source :=
  ⟨(Scan.of_settles h).1, (Scan.of_settles h).2⟩

/-- **Includes are pasted.**  After a text that is complete in itself, an include tag is read as the
text that the resolvers find for it would be in its place, whatever follows. -/
theorem readAlike_include {pre p text : String} (post : String) (hpure : engine.IsPure)
    (hpre : EndsOutside engine origin pre) (hlast : pre.toList.getLast? ≠ some '\x7b')
    (hp : Unmarked p.toList) (hp' : ¬ ['%', '\x7d'] <:+: p.toList)
    (hfound : (engine.resolve ⟨String.ofList (Text.trim p.toList), origin⟩).1 = some text) :
    ReadAlike engine origin (pre ++ "\x7b% include " ++ p ++ " %\x7d" ++ post)
      (pre ++ text ++ post) := by
  obtain ⟨s, ⟨n, hs⟩, ha, ht⟩ := hpre.ends
  -- either template is read like the text before the tag
  have hstart : ∀ rest source, source.toList = pre.toList ++ rest →
      Scan.Alike engine.forget origin rest (.start engine origin source)
        (.start engine origin pre) := by
    intro rest source hsource
    exact ⟨hsource, .nil, fun hne => absurd rfl hne, rfl, ⟨rfl, rfl⟩, ⟨rfl, rfl⟩,
      Engine.isPure_forget.2 hpure⟩
  have hprefix := fun rest source hsource =>
    Scan.reaches_prefix hs ha ht hpre.quiet hlast (hstart rest source hsource)
  obtain ⟨a, hra, hor⟩ := hprefix
    (tagSource '%' false (' ' :: (['i', 'n', 'c', 'l', 'u', 'd', 'e'] ++ padded p.toList)) '%' ++
      post.toList) (pre ++ "\x7b% include " ++ p ++ " %\x7d" ++ post)
    (by simp [tagSource, padded, Scan.dashed])
  obtain ⟨b, hrb, hor'⟩ := hprefix (text.toList ++ post.toList) (pre ++ text ++ post) (by simp)
  have hal := hor.resolve_right (by simp [tagSource])
  obtain ⟨a₁, hra₁, hal₁⟩ := Scan.reaches_include hal ha ht hp hp'
    (hpure.resolve_answer.symm.trans hfound)
  rcases hor' with hal' | ⟨more, hmore, hal'⟩
  · exact readAlike_of_reaches (hra.trans hra₁) hrb (hal₁.join hal')
  · -- the brace after a percent sign is read by itself
    have ha₁ : a₁.ahead = '\x7d' :: more := by rw [hal₁.ahead, ha, ← hmore]; rfl
    have hta₁ : a₁.tags = [] := by
      obtain ⟨hta₁, -⟩ | ⟨_, _, _, _, -, hs', -⟩ := hal₁.cases_tags
      · exact hta₁
      · rw [hs'] at ht; cases ht
    have hturn := Scan.turn_collect ha₁ (by simp [Scan.scope?, hta₁, Scan.collects])
      (fun d _ => ⟨by simp [Scan.opens], by simp [Scan.scope?, hta₁, Scan.closer?]⟩) (by simp)
    have hal₂ : Scan.Alike engine.forget origin more ((a₁.collect '\x7d').advance 1)
        (s.collect '\x7d') := by
      have hcol := hal₁.collect '\x7d'
      rw [Scan.advance_eq]
      exact ⟨by simp [ha₁, ha], hcol.tags, hcol.raw, hcol.joined, hcol.origin, hcol.engine,
        hcol.pure⟩
    exact readAlike_of_reaches (hra.trans (hra₁.trans (.head hturn (.refl _)))) hrb
      (hal₂.join hal')

/-- An included text that starts with a brace, after a percent sign, and opens a tag that the
template closes. -/
theorem readAlike_include_straddling :
    ReadAlike ⟨.empty, [.pure fun a => if a.name = "f" then some "\x7d\x7b% if " else none], none⟩
      none ("x\x7b\x7b a \x7d\x7d%" ++ "\x7b% include " ++ "f " ++ " %\x7d" ++ "c %\x7d")
      ("x\x7b\x7b a \x7d\x7d%" ++ "\x7d\x7b% if " ++ "c %\x7d") :=
  readAlike_include _
    (by
      intro r hr
      obtain rfl : r = .pure fun a => if a.name = "f" then some "\x7d\x7b% if " else none := by
        simpa using hr
      exact fun _ _ _ => rfl)
    (.of_settles (n := 20) (by decide)) (by decide) (by decide) (by decide) (by decide)

end Stencil.Template
