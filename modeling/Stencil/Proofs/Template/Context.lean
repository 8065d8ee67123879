import Stencil.Proofs.Template.Finite
import Stencil.Proofs.Template.Pasted
import Stencil.Proofs.Template.Sound

/-!
# Tags in context

A tag that is complete in itself, with whatever tags are inside it, is read in the same way wherever
it stands: what is around it is not looked at, and it is left as it was.

* `Scan.inside c b rest` : the scan `c` of a text by itself, as it goes on inside the scan `b`.
* `Scan.turn_inside` : as long as a tag is open, a turn is the same in both places.
* `IsTag w is` : the text `w` is one complete tag, which stands for the instructions `is`.
* `takes_tag` : a complete tag is read alike in every place in which a tag can start.
-/

namespace Stencil.Template

/-- A tag as it is after more text. -/
def OpenTag.after (t : OpenTag) (behind : List Char) : OpenTag :=
  { t with before := t.before ++ behind }

@[simp] theorem OpenTag.after_scope (t : OpenTag) (behind : List Char) :
    (t.after behind).scope = t.scope := rfl

@[simp] theorem OpenTag.after_text (t : OpenTag) (behind : List Char) :
    (t.after behind).text = t.text := rfl

namespace Scan

/-- A scan of a text by itself, as it goes on inside another scan with `rest` after the text. -/
def inside (c b : Scan) (rest : List Char) : Scan :=
  { b with
    behind := c.behind ++ b.behind
    ahead := c.ahead ++ rest
    tags := c.tags.map (·.after b.behind) ++ b.tags
    instrs := c.instrs ++ b.instrs }

/-- A scan at the start of a tag: text outside of tags is turned into an instruction. -/
def settled (s : Scan) : Scan := if s.tags.isEmpty then s.flushRaw else s

variable {b c c₁ : Scan} {rest : List Char} {t : OpenTag} {ts : List OpenTag} {x : Char}

/-! ### The parts of a turn -/

theorem inside_tags (ht : c.tags = t :: ts) :
    (c.inside b rest).tags = t.after b.behind :: (ts.map (·.after b.behind) ++ b.tags) := by
  simp [inside, ht]

theorem inside_advance {n : Nat} (h : n ≤ c.ahead.length) :
    (c.inside b rest).advance n = (c.advance n).inside b rest := by
  simp [advance_eq, inside, List.take_append_of_le_length h, List.drop_append_of_le_length h]

theorem inside_collect (ht : c.tags = t :: ts) (x : Char) :
    (c.inside b rest).collect x = (c.collect x).inside b rest := by
  rw [collect_eq_tag ht, collect_eq_tag (inside_tags ht)]
  rfl

theorem inside_openTag (hc : c.tags = [] → c.raw = []) (hb : b.tags = [] → b.raw = [])
    (scope : Scope) (before : List Char) :
    (c.inside b rest).openTag scope (before ++ b.behind) =
      (c.openTag scope before).inside b rest := by
  cases ht : c.tags with
  | cons t ts =>
    rw [openTag_inside ht, openTag_inside (inside_tags ht)]
    simp [inside, OpenTag.after, ht]
  | nil =>
    rw [openTag_outside ht, flushRaw_of_raw (hc ht)]
    cases hbt : b.tags with
    | cons t ts =>
      have htags : (c.inside b rest).tags = t :: ts := by simp [inside, ht, hbt]
      rw [openTag_inside htags]
      simp [inside, OpenTag.after, hbt]
    | nil =>
      rw [openTag_outside (by simp [inside, ht, hbt]), flushRaw_of_raw (by exact hb hbt)]
      simp [inside, OpenTag.after, hbt]

theorem inside_nameTag (hc : c.raw = []) (hb : b.tags = [] → b.raw = []) {upTo : List Char}
    (h : c.nameTag t ts upTo = .more c₁) (upTo' : List Char) :
    (c.inside b rest).nameTag (t.after b.behind) (ts.map (·.after b.behind) ++ b.tags) upTo' =
      .more (c₁.inside b rest) := by
  have hopen (scope : Scope) :
      ({ c with tags := ts }.inside b rest).openTag scope (t.before ++ b.behind) =
        ({ c with tags := ts }.openTag scope t.before).inside b rest :=
    inside_openTag (c := { c with tags := ts }) (fun _ => hc) hb scope t.before
  simp only [nameTag] at h
  split at h
  next scope hname =>
    cases h
    rw [← hopen]
    simp only [nameTag, OpenTag.after, hname]
    rfl
  next => cases h

theorem inside_closeTag (h : c.closeTag t ts = .more c₁) (hq : c₁.events = []) :
    (c.inside b rest).closeTag (t.after b.behind) (ts.map (·.after b.behind) ++ b.tags) =
      .more (c₁.inside b rest) := by
  rcases t with ⟨scope, text, before⟩
  cases scope with
  | includePath =>
    simp only [closeTag, splice] at h
    split at h
    · cases h; cases hq
    · cases h
  | blockName =>
    simp only [closeTag] at h
    split at h
    · cases h
    next hne =>
      cases h
      have hinstr : (OpenTag.after ⟨.blockName, text, before⟩ b.behind).scope.instr?
          (String.ofList (Text.trim text.reverse)) =
            some (.openBlock (String.ofList (Text.trim text.reverse))) := if_neg hne
      exact closeTag_eq_emit hinstr
  | tagName => cases h; rfl
  | header _ => cases h; rfl
  | echoed => cases h; rfl
  | statement => cases h; rfl
  | ending _ => cases h; rfl

theorem inside_endTag (hc : c.raw = []) (hb : b.tags = [] → b.raw = []) {upTo : List Char}
    (h : c.endTag t ts upTo = .more c₁) (hq : c₁.events = []) (upTo' : List Char) :
    (c.inside b rest).endTag (t.after b.behind) (ts.map (·.after b.behind) ++ b.tags) upTo' =
      .more (c₁.inside b rest) := by
  rw [endTag] at h
  split at h
  next hscope =>
    cases hname : c.nameTag t ts upTo with
    | more c₂ =>
      obtain ⟨-, -, htags⟩ := nameTag_more hname
      obtain ⟨t₂, ts₂, ht₂⟩ := List.exists_cons_of_ne_nil htags
      simp only [hname, ht₂] at h
      rw [endTag, if_pos (by exact hscope), inside_nameTag hc hb hname upTo']
      simp only [inside_tags ht₂]
      exact inside_closeTag h hq
    | done _ => simp [hname] at h
    | fault _ _ _ => simp [hname] at h
  next hscope =>
    rw [endTag, if_neg (by exact hscope)]
    exact inside_closeTag h hq

/-! ### Turns -/

theorem inside_readOpening (ht : c.tags = t :: ts) (hlen : 3 ≤ c.ahead.length) {scope : Scope}
    (h : c.readOpening scope = .more c₁) :
    (c.inside b rest).readOpening scope = .more (c₁.inside b rest) := by
  have hopen : ((c.inside b rest).openTag scope (c.inside b rest).behind).advance 2 =
      ((c.openTag scope c.behind).advance 2).inside b rest := by
    rw [openTag_inside ht, openTag_inside (inside_tags ht), ← inside_advance (by simp; omega)]
    simp [inside, OpenTag.after, ht]
  have hahead : ((c.openTag scope c.behind).advance 2).ahead = c.ahead.drop 2 := by
    rw [advance_eq, openTag_ahead]
  have hdash : (((c.openTag scope c.behind).advance 2).inside b rest).ahead.head? =
      ((c.openTag scope c.behind).advance 2).ahead.head? := by
    rw [inside, hahead, List.head?_append_of_ne_nil _ (by simp; omega)]
  simp only [readOpening] at h
  simp only [readOpening, hopen, hdash]
  split at h
  next hd =>
    cases h
    rw [if_pos hd, inside_advance (by rw [hahead, List.length_drop]; omega)]
    rfl
  next hd => cases h; rw [if_neg hd]

/-- The next character but one is seen in both places. -/
theorem inside_next (hlen : 2 ≤ c.ahead.length) :
    ((c.inside b rest).ahead.drop 1).head? = (c.ahead.drop 1).head? := by
  rw [inside, List.head?_drop, List.head?_drop, List.getElem?_append_left (by omega)]

theorem inside_gather (ht : c.tags = t :: ts) (hlen : 1 ≤ c.ahead.length) (x : Char) :
    ((c.inside b rest).collect x).advance 1 = ((c.collect x).advance 1).inside b rest := by
  rw [inside_collect ht, inside_advance (by rw [collect_ahead]; omega)]

theorem inside_readCloser (ht : c.tags = t :: ts) (hlen : 2 ≤ c.ahead.length) {closed : Scope}
    (h : c.readCloser x closed = .more c₁) (hq : c₁.events = []) :
    (c.inside b rest).readCloser x closed = .more (c₁.inside b rest) := by
  simp only [readCloser, ht] at h
  simp only [readCloser, inside_tags ht, inside_next hlen]
  split at h
  · cases h
  next hend =>
    refine (if_neg hend).trans ?_
    split at h
    next hclose =>
      refine (if_pos hclose).trans ?_
      rw [inside_advance hlen]
      exact inside_closeTag h hq
    next hclose =>
      cases h
      rw [← inside_gather ht (by omega)]
      exact if_neg hclose

theorem inside_readPercent (hc : c.raw = []) (hb : b.tags = [] → b.raw = []) (ht : c.tags = t :: ts)
    (hlen : 2 ≤ c.ahead.length) (h : c.readPercent = .more c₁) (hq : c₁.events = []) :
    (c.inside b rest).readPercent = .more (c₁.inside b rest) := by
  simp only [readPercent, ht] at h
  simp only [readPercent, inside_tags ht, inside_next hlen]
  split at h
  next hbrace =>
    refine (if_pos hbrace).trans ?_
    split at h
    next hkeep =>
      cases h
      have hnext : (c.collect '%').tags = { t with text := '%' :: t.text } :: ts := by
        rw [collect_eq_tag ht]
      rw [← inside_advance (by simpa using hlen), ← inside_collect hnext, ← inside_collect ht]
      exact if_pos hkeep
    next hkeep =>
      refine (if_neg hkeep).trans ?_
      rw [inside_advance hlen]
      exact inside_endTag (by rw [advance_raw]; exact hc) hb h hq _
  next hbrace =>
    refine (if_neg hbrace).trans ?_
    split at h
    · cases h
    next hend =>
      cases h
      rw [← inside_gather ht (by omega)]
      exact if_neg hend

theorem inside_readPlain (hc : c.raw = []) (hb : b.tags = [] → b.raw = []) (ht : c.tags = t :: ts)
    (hlen : 1 ≤ c.ahead.length) (h : c.readPlain x = .more c₁) :
    (c.inside b rest).readPlain x = .more (c₁.inside b rest) := by
  have hpass : (c.inside b rest).advance 1 = (c.advance 1).inside b rest := inside_advance hlen
  simp only [readPlain, ht] at h
  simp only [readPlain, inside_tags ht]
  split at h
  next hblank =>
    refine (if_pos hblank).trans ?_
    split at h
    next hempty => cases h; rw [← hpass]; exact if_pos hempty
    next hempty =>
      refine (if_neg hempty).trans ?_
      split at h
      next c₂ hname =>
        cases h
        simp only [inside_nameTag hc hb hname]
        rw [inside_advance (by rw [(nameTag_more hname).2.1]; exact hlen)]
      next hstop => exact absurd h (hstop _)
  next hblank =>
    refine (if_neg hblank).trans ?_
    split at h
    next hend =>
      refine (if_pos hend).trans ?_
      split at h
      next hspace => cases h; rw [← hpass]; exact if_pos hspace
      next => cases h
    next hend =>
      cases h
      rw [← inside_gather ht hlen]
      exact if_neg hend

/-- **A turn in context.**  As long as a tag of the text is open, a turn that reports nothing is the
same wherever the text stands, if the text does not end at once. -/
theorem turn_inside (hc : c.raw = []) (hb : b.tags = [] → b.raw = []) (ht : c.tags = t :: ts)
    (hlen : 2 ≤ c.ahead.length)
    (hopens : 3 ≤ c.ahead.length ∨ ∀ d ∈ c.ahead[1]?, opens (c.ahead.headD ' ') d = false)
    (h : c.turn = .more c₁) (hq : c₁.events = []) :
    (c.inside b rest).turn = .more (c₁.inside b rest) := by
  obtain ⟨x, tail, hx⟩ : ∃ x tail, c.ahead = x :: tail := by
    cases ha : c.ahead with
    | nil => rw [ha] at hlen; cases hlen
    | cons x tail => exact ⟨x, tail, rfl⟩
  have hx' : (c.inside b rest).ahead = x :: (tail ++ rest) := by rw [inside, hx]; rfl
  have hscope : (c.inside b rest).scope? = c.scope? := by simp [scope?, inside_tags ht, ht]
  rw [turn_cons hx, step.eq_def] at h
  rw [turn_cons hx', step.eq_def]
  split at h
  next =>
    simp only [hscope, inside_next hlen]
    split at h
    · cases h
    next hend =>
      rw [if_neg hend]
      cases hmark : (c.ahead.drop 1).head?.bind Scope.opening? with
      | some scope =>
        rw [hmark] at h
        refine inside_readOpening ht (hopens.resolve_right fun hno => ?_) h
        rw [List.head?_drop, Option.bind_eq_some_iff] at hmark
        obtain ⟨d, hd, hd'⟩ := hmark
        have := hno d hd
        rw [hx, List.headD_cons, opens, hd'] at this
        cases this
      | none =>
        rw [hmark] at h
        cases h
        exact congrArg Progress.more (inside_gather ht (by omega) '{')
  next => exact inside_readCloser ht hlen h hq
  next => exact inside_readCloser ht hlen h hq
  next => exact inside_readPercent hc hb ht hlen h hq
  next => exact inside_readPlain hc hb ht (by omega) h

/-- The opening mark of a tag, in context. -/
theorem opened_eq_inside (s : Scan) {e : Engine} {o : Option String} {source : String}
    {scope : Scope} {mark : Char} {dash : Bool} {text rest : List Char} :
    s.opened scope mark dash (text ++ rest) =
      ((Scan.start e o source).opened scope mark dash text).inside s.settled rest := by
  have hfresh : (Scan.start e o source).openTag scope [] =
      { Scan.start e o source with tags := [⟨scope, [], []⟩] } := rfl
  rw [opened, opened, show (Scan.start e o source).behind = [] from rfl, hfresh]
  cases ht : s.tags with
  | nil =>
    have hflush : s.settled = s.flushRaw := by rw [settled, ht]; rfl
    rw [openTag_outside ht, hflush]
    simp [inside, start, OpenTag.after, ht]
  | cons t ts =>
    have hkeep : s.settled = s := by rw [settled, ht]; rfl
    rw [openTag_inside ht, hkeep]
    simp [inside, start, OpenTag.after, ht]

/-! ### Runs -/

/-- A run in context: up to its end the text keeps a tag open. -/
theorem takes_inside {n : Nat} {c' : Scan} (h : Takes n c c') (hahead : c'.ahead = [])
    (htags : c'.tags = []) (hq : c'.events = []) (hc : Sound c)
    (hopen : ∀ m c₁, m < n → Takes m c c₁ → c₁.tags ≠ []) (hb : b.tags = [] → b.raw = []) :
    Takes n (c.inside b rest) (c'.inside b rest) := by
  induction h with
  | refl => exact .refl _
  | @turn n c c₁ c' hturn hrun ih =>
    have hq₁ := hrun.quiet hq
    have hne := hopen 0 c (Nat.succ_pos n) (.refl c)
    obtain ⟨t, ts, ht⟩ := List.exists_cons_of_ne_nil hne
    obtain ⟨x, tail, hx⟩ := List.exists_cons_of_ne_nil (turn_quiet hturn hq₁).1
    -- a tag that is open when the text ends stays open
    have hlast : c₁.ahead = [] → c₁.tags = [] := fun hend => hrun.eq_of_ahead hend hq ▸ htags
    have hlen : 2 ≤ c.ahead.length := by
      cases tail with
      | nil =>
        obtain ⟨-, k, hk, hdrop⟩ := turn_quiet hturn hq₁
        have hend : c₁.ahead = [] := by
          rw [hdrop, hx, List.drop_eq_nil_iff]
          exact hk
        exact absurd (turn_last hx hturn (hlast hend)).1 hne
      | cons d tail => rw [hx]; simp
    have hopens : 3 ≤ c.ahead.length ∨ ∀ d ∈ c.ahead[1]?, opens (c.ahead.headD ' ') d = false := by
      by_contra hno
      rw [not_or] at hno
      obtain ⟨d, hd⟩ : ∃ d, c.ahead = [x, d] := by
        rw [hx, List.length_cons] at hno hlen
        cases tail with
        | nil => simp at hlen
        | cons d tail =>
          have hnil : tail = [] := by
            rw [List.length_cons] at hno
            exact List.length_eq_zero_iff.1 (by omega)
          exact ⟨d, by rw [hx, hnil]⟩
      have hop : opens x d = true := by simpa [hd] using hno.2
      obtain ⟨hend, hopened⟩ := turn_opening_last hd hop hturn
      exact hopened (hlast hend)
    exact .turn (turn_inside (hc.raw hne) hb ht hlen hopens hturn hq₁)
      (ih hahead htags hq (hc.turn hturn) fun m c₂ hm h₂ =>
        hopen (m + 1) c₂ (by omega) (.turn hturn h₂))

@[simp] theorem settled_behind (s : Scan) : s.settled.behind = s.behind := by
  rw [settled]; split <;> simp

theorem settled_raw (s : Scan) : s.settled.tags = [] → s.settled.raw = [] := by
  intro h
  rw [settled] at h ⊢
  split at h
  next ht => rw [if_pos ht, flushRaw_raw]
  next ht => exact absurd (List.isEmpty_iff.2 h) ht

end Scan

open Scan

/-- The text `w` is one complete tag with whatever tags are inside it, and it stands for the
instructions `is`: it starts with an opening mark, and a scan of it by itself reads all of it
without an include, keeps a tag open up to its end, and has no tag open and no text collected
there. -/
structure IsCompleteTag (w : String) (is : List Instr) : Prop where
  /-- It starts with an opening mark. -/
  opens : ∃ mark rest, w.toList = '\x7b' :: mark :: rest ∧ (Scope.opening? mark).isSome
  /-- It is read by itself up to its end, which closes its last tag. -/
  closes : ∃ (e : Engine) (o : Option String) (n : Nat) (s : Scan),
    Takes n (.start e o w) s ∧
    (∀ m s₁, 0 < m → m < n → Takes m (.start e o w) s₁ → s₁.tags ≠ []) ∧
    s.ahead = [] ∧ s.tags = [] ∧ s.raw = [] ∧ s.events = [] ∧ s.instructions = is

/-- What a whole template without includes leaves behind. -/
theorem Scan.Takes.behind_of_quiet {e : Engine} {o : Option String} {w : String} {n : Nat}
    {s : Scan} (h : Takes n (.start e o w) s) (hend : s.ahead = []) (hq : s.events = []) :
    s.behind = w.toList.reverse := by
  have hexpanded := h.expanded hq
  rw [Scan.expanded, hend, List.append_nil] at hexpanded
  rw [← List.reverse_reverse s.behind, hexpanded]
  rfl

/-- Without includes, every turn reads a character of the template. -/
theorem Scan.Takes.le_length {e : Engine} {o : Option String} {w : String} {n : Nat} {s : Scan}
    (h : Takes n (.start e o w) s) (hend : s.ahead = []) (hq : s.events = []) : n ≤ w.length := by
  have hcount := h.count
  have hnone : s.included = [] := by rw [Scan.included, hq]; rfl
  have hread := congrArg List.length (h.behind_of_quiet hend hq)
  rw [hnone] at hcount
  rw [List.length_reverse, String.length_toList] at hread
  simp only [List.length_nil, Nat.add_zero] at hcount
  omega

/-- A trim mark stands at the start of a text, or none does. -/
theorem exists_dashed (tail : List Char) : ∃ dash text, tail = dashed dash ++ text ∧
    (dash = false → text.head? ≠ some '-') := by
  cases tail with
  | nil => exact ⟨false, [], rfl, fun _ => by simp⟩
  | cons d tail =>
    by_cases hd : d = '-'
    · exact ⟨true, tail, by rw [hd]; rfl, fun h => by cases h⟩
    · exact ⟨false, d :: tail, rfl, fun _ => by simpa using hd⟩

/-- **A tag in context.**  Wherever a tag can start, a complete tag is read up to its end: its
instructions are added, after one for the text outside of tags if no tag is open there, and the tags
around it are left as they are. -/
theorem takes_tag {w : String} {is : List Instr} (h : IsCompleteTag w is) {s : Scan}
    {rest : List Char} (hahead : s.ahead = w.toList ++ rest)
    (hscope : s.scope?.any Scope.isEnding = false) :
    ∃ n ≤ w.length, Takes n s { s.settled with
      behind := w.toList.reverse ++ s.behind
      ahead := rest
      instrs := is.reverse ++ s.settled.instrs } := by
  obtain ⟨⟨mark, tail, hw, hmark⟩, e, o, n, c', htakes, hopen, hend, htags, -, hq, his⟩ := h
  obtain ⟨scope, hscope'⟩ := Option.isSome_iff_exists.1 hmark
  have hbehind := htakes.behind_of_quiet hend hq
  have hlength := htakes.le_length hend hq
  -- the opening mark with its trim mark
  obtain ⟨dash, text, rfl, hdash⟩ := exists_dashed tail
  cases htakes with
  | refl => rw [show (Scan.start e o w).ahead = w.toList from rfl, hw] at hend; cases hend
  | @turn n _ c₁ _ hturn hrun =>
    have hfresh := turn_opening (s := .start e o w) hw rfl hscope' hdash
    obtain rfl := Progress.more.inj (hturn.symm.trans hfresh)
    -- something stands after the mark, since the tag is closed there
    have hne : text ≠ [] := by
      intro hnil
      have heq := hrun.eq_of_ahead hnil hq
      rw [heq] at htags
      cases htags
    have hplace : s.turn = .more (s.opened scope mark dash (text ++ rest)) :=
      turn_opening (by rw [hahead, hw]; simp [List.append_assoc]) hscope hscope'
        (fun hd => by rw [List.head?_append_of_ne_nil _ hne]; exact hdash hd)
    have hopened : s.opened scope mark dash (text ++ rest) =
        ((Scan.start e o w).opened scope mark dash text).inside s.settled rest :=
      opened_eq_inside s
    have hinside : Takes n _ (c'.inside s.settled rest) := takes_inside hrun hend htags hq
      ((sound_start e o w).turn hturn)
      (fun m c₂ hm h₂ => hopen (m + 1) c₂ (Nat.succ_pos m) (by omega) (.turn hturn h₂))
      s.settled_raw
    rw [← hopened] at hinside
    have hend' : c'.inside s.settled rest = { s.settled with
        behind := w.toList.reverse ++ s.behind
        ahead := rest
        instrs := is.reverse ++ s.settled.instrs } := by
      rw [inside, hbehind, hend, htags, settled_behind, ← his, instructions, List.reverse_reverse]
      rfl
    rw [hend'] at hinside
    exact ⟨n + 1, hlength, .turn hplace hinside⟩

/-! ### Finding complete tags -/

/-- The scan in which the last open tag is closed. -/
def Scan.closes : Nat → Scan → Option Scan
  | 0, _ => none
  | n + 1, s =>
    match s.turn with
    | .more s₁ => if s₁.tags.isEmpty then some s₁ else closes n s₁
    | _ => none

theorem Scan.takes_of_closes {k : Nat} {s s' : Scan} (h : s.closes k = some s') :
    ∃ n, Takes n s s' ∧ s'.tags = [] ∧
      ∀ m s₁, 0 < m → m < n → Takes m s s₁ → s₁.tags ≠ [] := by
  induction k generalizing s with
  | zero => cases h
  | succ k ih =>
    rw [closes] at h
    cases hturn : s.turn with
    | done _ => simp [hturn] at h
    | fault _ _ _ => simp [hturn] at h
    | more s₂ =>
      simp only [hturn] at h
      split at h
      next htags =>
        cases h
        exact ⟨1, .turn hturn (.refl _), List.isEmpty_iff.1 htags, fun m _ _ _ => by omega⟩
      next htags =>
        obtain ⟨n, htakes, hend, hopen⟩ := ih h
        refine ⟨n + 1, .turn hturn htakes, hend, fun m s₁ hpos hm hs₁ => ?_⟩
        cases hs₁ with
        | refl => omega
        | @turn m _ s₃ _ ht hrun =>
          obtain rfl := Progress.more.inj (hturn.symm.trans ht)
          cases m with
          | zero =>
            cases hrun
            exact fun hnil => htags (List.isEmpty_iff.2 hnil)
          | succ m => exact hopen (m + 1) s₁ (Nat.succ_pos m) (by omega) hrun

/-- A text is one complete tag if its last tag is closed at its end. -/
theorem IsCompleteTag.of_closes {w : String} {is : List Instr} (k : Nat)
    (hopens : (w.toList.head? == some '\x7b' &&
      (w.toList[1]?.bind Scope.opening?).isSome) = true)
    (h : ((Scan.start {} none w).closes k).any (fun s =>
      s.ahead.isEmpty && s.raw.isEmpty && s.events.isEmpty && s.instructions == is) = true) :
    IsCompleteTag w is := by
  refine ⟨?_, ?_⟩
  · simp only [Bool.and_eq_true, beq_iff_eq] at hopens
    obtain ⟨hhead, hmark⟩ := hopens
    generalize w.toList = l at hhead hmark
    cases l with
    | nil => cases hhead
    | cons c l =>
      cases l with
      | nil => cases hmark
      | cons mark rest => exact ⟨mark, rest, by rw [Option.some.inj hhead], hmark⟩
  · obtain ⟨s, hs, hall⟩ := (Option.any_eq_true _ _).1 h
    obtain ⟨n, htakes, htags, hopen⟩ := takes_of_closes hs
    simp only [Bool.and_eq_true, List.isEmpty_iff, beq_iff_eq] at hall
    obtain ⟨⟨⟨hahead, hraw⟩, hevents⟩, his⟩ := hall
    exact ⟨{}, none, n, s, htakes, hopen, hahead, htags, hraw, hevents, his⟩

/-- A scan in the header of an `if`, before a tag with two tags inside it. -/
def inHeader : Scan where
  behind := "\x7b% if a ".toList.reverse
  ahead := "\x7b\x7b f(\x7b$ g $\x7d) \x7b% else %\x7d \x7d\x7d".toList ++ " %\x7dx".toList
  tags := [⟨.header .ifTag, "a ".toList.reverse, []⟩]
  engine := {}

/-- The header is collected on as if the tags were not there. -/
theorem takes_tag_header :
    IsCompleteTag "\x7b\x7b f(\x7b$ g $\x7d) \x7b% else %\x7d \x7d\x7d"
      [.exec "g", .otherwise, .emit "f()"] ∧
    inHeader.scope?.any Scope.isEnding = false ∧
    ∃ n ≤ "\x7b\x7b f(\x7b$ g $\x7d) \x7b% else %\x7d \x7d\x7d".length,
      Takes n inHeader { inHeader.settled with
        behind := "\x7b\x7b f(\x7b$ g $\x7d) \x7b% else %\x7d \x7d\x7d".toList.reverse ++
          inHeader.behind
        ahead := " %\x7dx".toList
        instrs := [.exec "g", .otherwise, .emit "f()"].reverse ++ inHeader.settled.instrs } := by
  have h : IsCompleteTag "\x7b\x7b f(\x7b$ g $\x7d) \x7b% else %\x7d \x7d\x7d"
      [.exec "g", .otherwise, .emit "f()"] := .of_closes 40 (by decide) (by decide)
  exact ⟨h, rfl, takes_tag h rfl rfl⟩

end Stencil.Template
