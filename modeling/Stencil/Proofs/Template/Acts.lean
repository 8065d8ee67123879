import Stencil.Proofs.Template.Sound

/-!
# What a turn can do

The arms of a turn, once and for all: each says when it is taken and what comes of it, in full.  A
property of scans is then proved by one case for each of these acts, and no proof about the whole
scan opens the functions that read a character.

* `Scan.Act s p` : the ways in which a turn of the scan `s` can lead to `p`.
* `Scan.turn_act` : every turn is one of them.
* `OpenTag.told?` : a tag as it is at its end, when one of which only the name has been read is
  told by it; `Scan.endTag_told` and `Scan.endTag_untold` say what its closing mark does.
-/

namespace Stencil.Template

/-- A tag as it is at its end: one of which only the name has been read is told by it. -/
def OpenTag.told? (t : OpenTag) : Option OpenTag :=
  if t.scope = .tagName then
    (Scope.named? (Text.trim t.text.reverse)).map fun scope => ⟨scope, [], t.before⟩
  else some t

theorem Scope.named?_ne_tagName (name : List Char) : Scope.named? name ≠ some .tagName := by
  rw [Scope.named?.eq_def]
  split <;> simp

namespace OpenTag

variable {t t' : OpenTag}

theorem told?_of_ne (h : t.scope ≠ .tagName) : t.told? = some t := if_neg h

theorem told?_scope (h : t.told? = some t') : t'.scope ≠ .tagName := by
  rw [told?] at h
  split at h
  · obtain ⟨scope, hnamed, rfl⟩ := Option.map_eq_some_iff.1 h
    rintro rfl
    exact Scope.named?_ne_tagName _ hnamed
  next hne => exact Option.some.inj h ▸ hne

/-- A tag is told by its name only while that is what is being read. -/
theorem told?_cases (h : t.told? = some t') : t.scope = .tagName ∨ t' = t := by
  by_cases hscope : t.scope = .tagName
  · exact .inl hscope
  · rw [told?_of_ne hscope] at h
    exact .inr (Option.some.inj h).symm

/-- What has been collected in a tag is still in it, or was its name. -/
theorem told?_text (h : t.told? = some t') : t' = t ∨ t'.text = [] := by
  rw [told?] at h
  split at h
  · obtain ⟨scope, -, rfl⟩ := Option.map_eq_some_iff.1 h
    exact .inr rfl
  · exact .inl (Option.some.inj h).symm

end OpenTag

namespace Scan

variable {s : Scan} {t t' : OpenTag} {ts : List OpenTag} {upTo : List Char}

/-! ### The end of a tag -/

/-- The closing mark of a tag whose name is known closes it as the tag that the name tells. -/
theorem endTag_told (hraw : s.raw = []) (h : t.told? = some t') :
    s.endTag t ts upTo = s.closeTag t' ts := by
  by_cases hscope : t.scope = .tagName
  · rw [OpenTag.told?, if_pos hscope] at h
    obtain ⟨scope, hnamed, rfl⟩ := Option.map_eq_some_iff.1 h
    have hopen : ({ s with tags := ts }).openTag scope t.before =
        { s with tags := ⟨scope, [], t.before⟩ :: ts } := by
      cases ts with
      | nil =>
        have hflush := flushRaw_of_raw (s := { s with tags := [] }) hraw
        rw [openTag_outside (by rfl), hflush]
      | cons t₁ ts => rw [openTag_inside (by rfl)]
    rw [endTag, if_pos hscope, nameTag, hnamed]
    simp only [hopen]
    rfl
  · rw [OpenTag.told?_of_ne hscope] at h
    rw [endTag, if_neg hscope, Option.some.inj h]

/-- A name that tells no tag is refused. -/
theorem endTag_untold (h : t.told? = none) :
    s.endTag t ts upTo = .fault (.unknownTag (String.ofList (Text.trim t.text.reverse)))
      (({ s with tags := ts }).nameBefore t (Text.trim t.text.reverse) upTo)
      { s with tags := ts } := by
  by_cases hscope : t.scope = .tagName
  · rw [OpenTag.told?, if_pos hscope, Option.map_eq_none_iff] at h
    rw [endTag, if_pos hscope, nameTag, h]
  · rw [OpenTag.told?_of_ne hscope] at h
    cases h

/-- A percent sign and a brace close the innermost tag as what it is told to be. -/
theorem turn_percent_told {rest : List Char} (hraw : s.raw = [])
    (ha : s.ahead = '%' :: '\x7d' :: rest) (ht : s.tags = t :: ts)
    (hcl : closer? (some t.scope) = some '%') (h : t.told? = some t') :
    s.turn = (s.advance 2).closeTag t' ts := by
  have hkeeps : t.scope.keepsPercent = false := by
    cases hscope : t.scope <;> simp_all [closer?, Scope.keepsPercent]
  have hend : s.turn = (s.advance 2).endTag t ts s.behind := by
    rw [turn_cons ha]
    show s.readPercent = _
    simp [readPercent, ht, ha, hkeeps]
  rw [hend, endTag_told (by rw [advance_raw]; exact hraw) h]

/-- At the end of a template the innermost tag is closed as what it is told to be. -/
theorem turn_nil_told (hraw : s.raw = []) (ha : s.ahead = []) (ht : s.tags = t :: ts)
    (hin : t.text ≠ [] ∨ t.scope.isEnding) (h : t.told? = some t') :
    s.turn = match s.closeTag t' ts with
      | .more s₁ => if s₁.ahead.isEmpty then .done s₁ else .more s₁
      | stopped => stopped := by
  have hholds : ¬ (t.text.isEmpty ∧ !t.scope.isEnding) := by
    rcases hin with hin | hin <;> simp [hin]
  have hflush : s.flush = match s.endTag t ts s.behind with
      | .more s₁ => if s₁.ahead.isEmpty then .done s₁ else .more s₁
      | stopped => stopped := by
    rw [flush, ht]
    exact if_neg hholds
  rw [endTag_told hraw h] at hflush
  rw [turn, ha]
  exact hflush

/-! ### Turns -/

/-- What can come of one turn of a scan. -/
inductive Act (s : Scan) : Progress → Prop
  /-- Characters are collected, in the innermost tag or outside of all tags. -/
  | read {text rest : List Char} (ha : s.ahead = text ++ rest) (hne : text ≠ [])
      (hfree : (text ++ rest.take 1).IsChain fun c d => opens c d = false)
      (hin : ∀ t ∈ s.tags.head?, t.scope.isEnding = false ∧
        (t.scope = .tagName → ∀ c ∈ text, Text.isBlank c = false) ∧
        ∀ a ∈ closer? (some t.scope), ¬ [a, '\x7d'] <+: s.ahead) :
      Act s (.more (s.readText text rest))
  /-- A blank is skipped, before the name of a tag or after that of an end tag. -/
  | skipped {c : Char} {rest : List Char} {t : OpenTag} {ts : List OpenTag}
      (ha : s.ahead = c :: rest) (hc : Text.isBlank c) (ht : s.tags = t :: ts)
      (hin : t.scope = .tagName ∧ Text.trim t.text.reverse = [] ∨ t.scope.isEnding) :
      Act s (.more (s.advance 1))
  /-- A tag is opened. -/
  | opened {scope : Scope} {mark : Char} {dash : Bool} {rest : List Char}
      (ha : s.ahead = '\x7b' :: mark :: (dashed dash ++ rest))
      (hm : Scope.opening? mark = some scope) (hend : s.scope?.any Scope.isEnding = false) :
      Act s (.more (s.opened scope mark dash rest))
  /-- A blank ends the name of a tag. -/
  | named {c : Char} {rest : List Char} {t : OpenTag} {ts : List OpenTag} {scope : Scope}
      (ha : s.ahead = c :: rest) (hc : Text.isBlank c) (ht : s.tags = t :: ts)
      (hscope : t.scope = .tagName)
      (hname : Scope.named? (Text.trim t.text.reverse) = some scope) :
      Act s (.more ((({ s with tags := ts }).openTag scope t.before).advance 1))
  /-- A blank ends a name that tells no tag. -/
  | unnamed {c : Char} {rest : List Char} {t : OpenTag} {ts : List OpenTag} {place : Place}
      (ha : s.ahead = c :: rest) (hc : Text.isBlank c) (ht : s.tags = t :: ts)
      (hscope : t.scope = .tagName)
      (hname : Scope.named? (Text.trim t.text.reverse) = none) :
      Act s (.fault (.unknownTag (String.ofList (Text.trim t.text.reverse))) place
        { s with tags := ts })
  /-- A tag is closed by its mark. -/
  | closed {a : Char} {rest : List Char} {t : OpenTag} {ts : List OpenTag} {p : Progress}
      (ha : s.ahead = a :: '\x7d' :: rest) (ht : s.tags = t :: ts)
      (hcl : closer? (some t.scope) = some a) (hp : (s.advance 2).endTag t ts s.behind = p) :
      Act s p
  /-- A character that may not stand there is refused. -/
  | refused {t : OpenTag} {ts : List OpenTag} (ht : s.tags = t :: ts) (hend : t.scope.isEnding)
      (got : List Char) : Act s (s.refuse got)
  /-- The template ends outside of all tags. -/
  | finished (ha : s.ahead = []) (ht : s.tags = []) : Act s (.done s.flushRaw)
  /-- The template ends in a tag that holds nothing. -/
  | abandoned {t : OpenTag} {ts : List OpenTag} (ha : s.ahead = []) (ht : s.tags = t :: ts)
      (htext : t.text = []) (hend : t.scope.isEnding = false) : Act s (.done s)
  /-- The template ends in a tag, and what that tag does does not lead on. -/
  | ended {t : OpenTag} {ts : List OpenTag} {s' : Scan} (ha : s.ahead = []) (ht : s.tags = t :: ts)
      (hin : t.text ≠ [] ∨ t.scope.isEnding) (hp : s.endTag t ts s.behind = .more s')
      (ha' : s'.ahead = []) : Act s (.done s')
  /-- The template ends in a tag that puts more ahead. -/
  | resumed {t : OpenTag} {ts : List OpenTag} {s' : Scan} (ha : s.ahead = [])
      (ht : s.tags = t :: ts) (hin : t.text ≠ [] ∨ t.scope.isEnding)
      (hp : s.endTag t ts s.behind = .more s') (ha' : s'.ahead ≠ []) : Act s (.more s')
  /-- The template ends in a tag that is wrong. -/
  | failed {t : OpenTag} {ts : List OpenTag} {f : TagFault} {place : Place} {s' : Scan}
      (ha : s.ahead = []) (ht : s.tags = t :: ts) (hin : t.text ≠ [] ∨ t.scope.isEnding)
      (hp : s.endTag t ts s.behind = .fault f place s') : Act s (.fault f place s')

variable {c d : Char} {rest : List Char}

theorem advance_collect_one (ha : s.ahead = c :: rest) :
    (s.collect c).advance 1 = s.readText [c] rest := by
  have hcons : s.ahead = c :: ([] ++ rest) := ha
  rw [readText_cons hcons, readText_nil]
  rw [advance_one (by rw [collect_ahead]; exact ha)]

theorem advance_collect_two (ha : s.ahead = c :: d :: rest) :
    ((s.collect c).collect d).advance 2 = s.readText [c, d] rest := by
  rw [advance_two (by rw [collect_ahead, collect_ahead]; exact ha)]
  simp [readText, collect_place]

/-- Collecting one character. -/
theorem Act.read_one (ha : s.ahead = c :: rest) (hfree : ∀ d ∈ rest.head?, opens c d = false)
    (hin : ∀ t ∈ s.tags.head?, t.scope.isEnding = false ∧
      (t.scope = .tagName → Text.isBlank c = false) ∧
      (closer? (some t.scope) = some c → rest.head? ≠ some '\x7d')) :
    Act s (.more ((s.collect c).advance 1)) := by
  rw [advance_collect_one ha]
  refine .read (by simpa using ha) (by simp) ?_ fun t ht => ?_
  · cases rest with
    | nil => exact .singleton c
    | cons d rest => simpa using hfree d rfl
  · obtain ⟨hend, hname, hclose⟩ := hin t ht
    refine ⟨hend, by simpa using hname, fun a hcl hprefix => ?_⟩
    obtain ⟨rest', hrest⟩ := hprefix
    rw [ha] at hrest
    obtain ⟨rfl, rfl⟩ := List.cons.inj hrest
    exact hclose hcl rfl

theorem opens_eq_false (h : c ≠ '\x7b') (d : Char) : opens c d = false := by
  simp [opens, h]

theorem act_readCloser {closed : Scope} (ha : s.ahead = c :: rest) (hc : c ≠ '\x7b')
    (hb : Text.isBlank c = false)
    (hcl : ∀ scope, closer? (some scope) = some c ↔ scope = closed) (hne : closed ≠ .tagName) :
    Act s (s.readCloser c closed) := by
  have hread (hin : ∀ t ∈ s.tags.head?, t.scope.isEnding = false ∧
      ¬ (t.scope = closed ∧ rest.head? = some '\x7d')) :
      Act s (.more ((s.collect c).advance 1)) :=
    .read_one ha (fun d _ => opens_eq_false hc d) fun t ht =>
      ⟨(hin t ht).1, fun _ => hb, fun hscope hnext => (hin t ht).2 ⟨(hcl _).1 hscope, hnext⟩⟩
  have hnext : (s.ahead.drop 1).head? = rest.head? := by rw [ha]; rfl
  rw [readCloser, hnext]
  cases ht : s.tags with
  | nil => exact hread (by simp [ht])
  | cons t ts =>
    simp only
    split
    next hend => exact .refused ht hend _
    next hend =>
      split
      next hclose =>
        obtain ⟨rest', hrest⟩ := List.head?_eq_some_iff.1 hclose.2
        refine .closed (by rw [ha, hrest]) ht ((hcl _).2 hclose.1) ?_
        rw [endTag, if_neg (by rw [hclose.1]; exact hne)]
      next hclose =>
        refine hread ?_
        rw [ht]
        rintro t' ⟨⟩
        exact ⟨by simpa using hend, hclose⟩

theorem act_readPercent (ha : s.ahead = '%' :: rest) : Act s s.readPercent := by
  have hnext : (s.ahead.drop 1).head? = rest.head? := by rw [ha]; rfl
  have hread (hclose : rest.head? ≠ some '\x7d')
      (hin : ∀ t ∈ s.tags.head?, t.scope.isEnding = false) :
      Act s (.more ((s.collect '%').advance 1)) :=
    .read_one ha (fun d _ => opens_eq_false (by decide) d) fun t ht =>
      ⟨hin t ht, fun _ => by decide, fun _ => hclose⟩
  have hboth (hclose : rest.head? = some '\x7d')
      (hin : ∀ t ∈ s.tags.head?, t.scope.keepsPercent) :
      Act s (.more (((s.collect '%').collect '\x7d').advance 2)) := by
    obtain ⟨rest', hrest⟩ := List.head?_eq_some_iff.1 hclose
    rw [advance_collect_two (by rw [ha, hrest])]
    refine .read (by rw [ha, hrest]; rfl) (by simp) ?_ fun t ht => ?_
    · cases rest' <;> simp [opens]
    · have hkeeps := hin t ht
      have hblank : ∀ c ∈ ['%', '\x7d'], Text.isBlank c = false :=
        List.forall_mem_cons.2 ⟨by decide, List.forall_mem_singleton.2 (by decide)⟩
      refine ⟨?_, fun _ => hblank, fun a hcl hprefix => ?_⟩
      · cases hscope : t.scope <;> simp_all [Scope.keepsPercent, Scope.isEnding]
      · obtain ⟨rest'', hrest'⟩ := hprefix
        rw [ha] at hrest'
        obtain rfl : a = '%' := (List.cons.inj hrest').1
        cases hscope : t.scope <;> simp_all [Scope.keepsPercent, closer?]
  rw [readPercent, hnext]
  cases ht : s.tags with
  | nil =>
    simp only
    split
    next hclose => exact hboth hclose (by simp [ht])
    next hclose => exact hread hclose (by simp [ht])
  | cons t ts =>
    simp only
    split
    next hclose =>
      split
      next hkeeps => exact hboth hclose (by simpa [ht] using hkeeps)
      next hkeeps =>
        obtain ⟨rest', hrest⟩ := List.head?_eq_some_iff.1 hclose
        refine .closed (by rw [ha, hrest]) ht ?_ rfl
        cases hscope : t.scope <;> simp_all [Scope.keepsPercent, closer?]
    next hclose =>
      split
      next hend => exact .refused ht hend _
      next hend => exact hread hclose (by simpa [ht] using hend)

theorem act_readPlain (ha : s.ahead = c :: rest)
    (hc : c ≠ '\x7b' ∧ c ≠ '$' ∧ c ≠ '\x7d' ∧ c ≠ '%') : Act s (s.readPlain c) := by
  have hcl (scope : Scope) : closer? (some scope) ≠ some c := by
    cases scope <;> simp [closer?, hc.2.1.symm, hc.2.2.1.symm, hc.2.2.2.symm]
  have hread (hin : ∀ t ∈ s.tags.head?, t.scope.isEnding = false ∧
      (t.scope = .tagName → Text.isBlank c = false)) : Act s (.more ((s.collect c).advance 1)) :=
    .read_one ha (fun d _ => opens_eq_false hc.1 d) fun t ht =>
      ⟨(hin t ht).1, (hin t ht).2, fun hscope => absurd hscope (hcl t.scope)⟩
  rw [readPlain]
  cases ht : s.tags with
  | nil => exact hread (by simp [ht])
  | cons t ts =>
    simp only
    split
    next hname =>
      split
      next hempty =>
        exact .skipped ha hname.2 ht (.inl ⟨hname.1, List.isEmpty_iff.1 hempty⟩)
      next =>
        rw [nameTag]
        cases hnamed : Scope.named? (Text.trim t.text.reverse) with
        | none => exact .unnamed ha hname.2 ht hname.1 hnamed
        | some scope => exact .named ha hname.2 ht hname.1 hnamed
    next hname =>
      split
      next hend =>
        split
        next hb => exact .skipped ha hb ht (.inr hend)
        next => exact .refused ht hend _
      next hend =>
        refine hread ?_
        rw [ht]
        rintro t' ⟨⟩
        exact ⟨by simpa using hend, fun hscope => by simpa using fun hb => hname ⟨hscope, hb⟩⟩

theorem act_step (ha : s.ahead = c :: rest) : Act s (s.step c) := by
  rw [step.eq_def]
  split
  · by_cases hend : s.scope?.any Scope.isEnding = true
    · rw [if_pos hend]
      cases ht : s.tags with
      | nil => simp [scope?, ht] at hend
      | cons t ts => exact .refused ht (by simpa [scope?, ht] using hend) _
    · rw [Bool.not_eq_true] at hend
      have hnext : (s.ahead.drop 1).head? = rest.head? := by rw [ha]; rfl
      rw [if_neg (by simp [hend]), hnext]
      cases hbind : rest.head?.bind Scope.opening? with
      | some scope =>
        obtain ⟨mark, hmark, hm⟩ := Option.bind_eq_some_iff.1 hbind
        obtain ⟨rest', rfl⟩ := List.head?_eq_some_iff.1 hmark
        have hopening (dash : Bool) {rest : List Char}
            (ha : s.ahead = '\x7b' :: mark :: (dashed dash ++ rest))
            (hr : dash = false → rest.head? ≠ some '-') : Act s (s.readOpening scope) := by
          have hturn := turn_opening ha hend hm hr
          rw [turn_cons ha] at hturn
          have hstep : s.step '\x7b' = s.readOpening scope := by
            show (if _ then _ else _) = _
            rw [hend, ha]
            simp [hm]
          rw [← hstep, hturn]
          exact .opened ha hm hend
        by_cases hdash : rest'.head? = some '-'
        · obtain ⟨rest'', rfl⟩ := List.head?_eq_some_iff.1 hdash
          exact hopening true ha (by simp)
        · exact hopening false ha fun _ => hdash
      | none =>
        refine .read_one ha (fun d hd => ?_) fun t ht => ⟨?_, fun _ => by decide, ?_⟩
        · rw [hd, Option.bind_some] at hbind
          simp [opens, hbind]
        · obtain ⟨ts, ht⟩ := List.head?_eq_some_iff.1 ht
          simpa [scope?, ht] using hend
        · cases t.scope <;> simp [closer?]
  · exact act_readCloser ha (by decide) (by decide)
      (fun scope => by cases scope <;> simp [closer?]) (by decide)
  · exact act_readCloser ha (by decide) (by decide)
      (fun scope => by cases scope <;> simp [closer?]) (by decide)
  · exact act_readPercent ha
  next h₁ h₂ h₃ h₄ => exact act_readPlain ha ⟨h₁, h₂, h₃, h₄⟩

theorem act_flush (ha : s.ahead = []) : Act s s.flush := by
  rw [flush.eq_def]
  cases ht : s.tags with
  | nil => exact .finished ha ht
  | cons t ts =>
    simp only
    split
    next hempty =>
      exact .abandoned ha ht (List.isEmpty_iff.1 hempty.1) (by simpa using hempty.2)
    next hempty =>
      have hin : t.text ≠ [] ∨ t.scope.isEnding := by
        by_contra hno
        simp only [not_or, ne_eq, not_not] at hno
        exact hempty ⟨by simp [hno.1], by simp [hno.2]⟩
      cases hend : s.endTag t ts s.behind with
      | more s' =>
        simp only
        split
        next hnil => exact .ended ha ht hin hend (List.isEmpty_iff.1 hnil)
        next hnil => exact .resumed ha ht hin hend fun h => hnil (by simp [h])
      | fault f place s' => exact .failed ha ht hin hend
      | done s' => exact absurd hend (endTag_ne_done s t ts s.behind s')

/-- **Turns.**  Every turn is one of these acts. -/
theorem turn_act (s : Scan) : Act s s.turn := by
  rw [turn.eq_def]
  cases ha : s.ahead with
  | nil => exact act_flush ha
  | cons c rest => exact act_step ha

end Scan

end Stencil.Template
