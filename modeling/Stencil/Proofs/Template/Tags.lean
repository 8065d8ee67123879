import Stencil.Proofs.Template.Turns

/-!
# Reading whole tags

What a scan does between the two marks of a tag: the opening mark with its trim mark
(`Scan.turn_opening`), the name of a tag (`Scan.within_name`), the text up to the closing mark
(`Scan.within_body`).  Each lemma gives the scan afterwards in full, so whatever it does not
mention has stayed as it was.
-/

namespace Stencil.Template

namespace Scan

/-- The instruction that a trim mark stands for. -/
def trimmed (dash : Bool) : List Instr := if dash then [.trim] else []

/-- The spelling of a trim mark. -/
def dashed (dash : Bool) : List Char := if dash then ['-'] else []

/-- A scan after the opening mark of a tag. -/
def opened (s : Scan) (scope : Scope) (mark : Char) (dash : Bool) (rest : List Char) : Scan :=
  { s.openTag scope s.behind with
    behind := dashed dash ++ mark :: '{' :: s.behind
    ahead := rest
    instrs := trimmed dash ++ (s.openTag scope s.behind).instrs }

theorem flushRaw_of_raw {s : Scan} (h : s.raw = []) : s.flushRaw = s := by
  simp [flushRaw, h]

@[simp] theorem flushRaw_tags (s : Scan) : s.flushRaw.tags = s.tags := by
  cases h : s.raw <;> simp [flushRaw, emit, h]

@[simp] theorem flushRaw_raw (s : Scan) : s.flushRaw.raw = [] := by
  cases h : s.raw <;> simp [flushRaw, emit, h]

@[simp] theorem flushRaw_ahead (s : Scan) : s.flushRaw.ahead = s.ahead := by
  cases h : s.raw <;> simp [flushRaw, emit, h]

@[simp] theorem flushRaw_behind (s : Scan) : s.flushRaw.behind = s.behind := by
  cases h : s.raw <;> simp [flushRaw, emit, h]

@[simp] theorem flushRaw_engine (s : Scan) : s.flushRaw.engine = s.engine := by
  cases h : s.raw <;> simp [flushRaw, emit, h]

@[simp] theorem flushRaw_origin (s : Scan) : s.flushRaw.origin = s.origin := by
  cases h : s.raw <;> simp [flushRaw, emit, h]

@[simp] theorem openTag_ahead (s : Scan) (scope : Scope) (before : List Char) :
    (s.openTag scope before).ahead = s.ahead := by
  simp only [openTag]; split <;> simp

@[simp] theorem openTag_behind (s : Scan) (scope : Scope) (before : List Char) :
    (s.openTag scope before).behind = s.behind := by
  simp only [openTag]; split <;> simp

@[simp] theorem openTag_tags (s : Scan) (scope : Scope) (before : List Char) :
    (s.openTag scope before).tags = ⟨scope, [], before⟩ :: s.tags := by
  simp only [openTag]; split <;> simp

@[simp] theorem openTag_engine (s : Scan) (scope : Scope) (before : List Char) :
    (s.openTag scope before).engine = s.engine := by
  simp only [openTag]; split <;> simp

theorem openTag_outside {s : Scan} (h : s.tags = []) (scope : Scope) (before : List Char) :
    s.openTag scope before = { s.flushRaw with tags := [⟨scope, [], before⟩] } := by
  simp [openTag, h]

theorem openTag_inside {s : Scan} {t : OpenTag} {ts : List OpenTag} (h : s.tags = t :: ts)
    (scope : Scope) (before : List Char) :
    s.openTag scope before = { s with tags := ⟨scope, [], before⟩ :: t :: ts } := by
  simp [openTag, h]

/-- While a tag is open, no text is outside of instructions. -/
theorem openTag_raw {s : Scan} (h : s.tags = [] ∨ s.raw = []) (scope : Scope)
    (before : List Char) : (s.openTag scope before).raw = [] := by
  cases ht : s.tags with
  | nil => rw [openTag_outside ht]; exact flushRaw_raw s
  | cons t ts => rw [openTag_inside ht]; exact h.resolve_left (by simp [ht])

/-- A turn reads the opening mark of a tag together with its trim mark. -/
theorem turn_opening {s : Scan} {scope : Scope} {mark : Char} {dash : Bool} {rest : List Char}
    (h : s.ahead = '{' :: mark :: (dashed dash ++ rest)) (hs : s.scope?.any Scope.isEnding = false)
    (hm : Scope.opening? mark = some scope) (hr : dash = false → rest.head? ≠ some '-') :
    s.turn = .more (s.opened scope mark dash rest) := by
  have hstep : s.turn = s.readOpening scope := by
    rw [turn_cons h]
    show (if _ then _ else _) = _
    rw [hs, h]
    simp [hm]
  rw [hstep, readOpening, advance_two (by rw [openTag_ahead]; exact h)]
  cases dash with
  | true => simp [dashed, advance, emit, opened, trimmed]
  | false => simp [dashed, hr rfl, opened, trimmed]

/-! ### Names -/

/-- A character that can stand in the name of a tag: no blank and no part of a mark. -/
def isNamePart (c : Char) : Bool :=
  !Text.isBlank c && c != '{' && c != '$' && c != '}' && c != '%'

theorem step_plain {s : Scan} {c : Char} (h : c ≠ '{' ∧ c ≠ '$' ∧ c ≠ '}' ∧ c ≠ '%') :
    s.step c = s.readPlain c := by
  rw [step.eq_def]
  split <;> simp_all

theorem dropWhile_eq_self {text : List Char} (h : ∀ c ∈ text, Text.isBlank c = false) :
    text.dropWhile Text.isBlank = text := by
  cases text with
  | nil => rfl
  | cons c text => simp [h c (List.mem_cons_self ..)]

/-- Text without blanks is not trimmed. -/
theorem trim_eq_self {text : List Char} (h : ∀ c ∈ text, Text.isBlank c = false) :
    Text.trim text = text := by
  have hrev : ∀ c ∈ text.reverse, Text.isBlank c = false := fun c hc => h c (List.mem_reverse.1 hc)
  rw [Text.trim, Text.trimStart, dropWhile_eq_self h, Text.trimEnd, dropWhile_eq_self hrev,
    List.reverse_reverse]

theorem trim_of_namePart {name : List Char} (h : name.all isNamePart) :
    Text.trim name = name := by
  refine trim_eq_self fun c hc => ?_
  have hpart := List.all_eq_true.1 h c hc
  simp only [isNamePart, Bool.and_eq_true, Bool.not_eq_true'] at hpart
  exact hpart.1.1.1.1

/-- A character of a name is collected. -/
theorem turn_namePart {s : Scan} {t : OpenTag} {ts : List OpenTag} {c : Char} {rest : List Char}
    (h : s.ahead = c :: rest) (ht : s.tags = t :: ts) (hsc : t.scope = .tagName)
    (hc : isNamePart c) : s.turn = .more (s.readText [c] rest) := by
  simp only [isNamePart, Bool.and_eq_true, Bool.not_eq_true', bne_iff_ne, ne_eq] at hc
  rw [turn_cons h, step_plain ⟨hc.1.1.1.2, hc.1.1.2, hc.1.2, hc.2⟩, readPlain]
  simp [ht, hsc, hc.1.1.1.1, Scope.isEnding, readText, collect, advance, h]

theorem within_nameText {s : Scan} {t : OpenTag} {ts : List OpenTag} (name rest : List Char)
    (h : s.ahead = name ++ rest) (ht : s.tags = t :: ts) (hsc : t.scope = .tagName)
    (hn : name.all isNamePart) : Within name.length s (s.readText name rest) := by
  induction name generalizing s t with
  | nil => rw [readText_nil (by simpa using h)]; exact .refl s
  | cons c name ih =>
    rw [List.all_cons, Bool.and_eq_true] at hn
    have hturn := Within.one (turn_namePart h ht hsc hn.1)
    have hs₁ : (s.readText [c] (name ++ rest)).tags = { t with text := c :: t.text } :: ts := by
      rw [readText, collectAll_eq_tag (by exact ht)]; simp
    have hahead : (s.readText [c] (name ++ rest)).ahead = name ++ rest := by
      rw [readText, collectAll_eq_tag (by exact ht)]
    have heq : (s.readText [c] (name ++ rest)).readText name rest = s.readText (c :: name) rest := by
      simp [readText, collect_place]
    have hrest := ih hahead hs₁ hsc hn.2
    rw [heq] at hrest
    exact (hturn.trans hrest).mono (by simp; omega)

/-- Blanks before a name are passed over. -/
theorem turn_blank {s : Scan} {t : OpenTag} {ts : List OpenTag} {c : Char} {rest : List Char}
    (h : s.ahead = c :: rest) (ht : s.tags = t :: ts) (hsc : t.scope = .tagName)
    (htext : t.text = []) (hb : Text.isBlank c) (hc : c ≠ '{' ∧ c ≠ '$' ∧ c ≠ '}' ∧ c ≠ '%') :
    s.turn = .more { s with behind := c :: s.behind, ahead := rest } := by
  rw [turn_cons h, step_plain hc, readPlain]
  simp [ht, hsc, htext, hb, advance_one h, Text.trim, Text.trimStart, Text.trimEnd]

/-- The blank after a name tells what the tag is. -/
theorem turn_named {s : Scan} {t : OpenTag} {ts : List OpenTag} {c : Char} {name rest : List Char}
    {scope : Scope} (h : s.ahead = c :: rest) (ht : s.tags = t :: ts) (hsc : t.scope = .tagName)
    (htext : t.text = name.reverse) (hn : name.all isNamePart) (hne : name ≠ [])
    (hb : Text.isBlank c) (hc : c ≠ '{' ∧ c ≠ '$' ∧ c ≠ '}' ∧ c ≠ '%')
    (hname : Scope.named? name = some scope) (hraw : s.raw = []) :
    s.turn = .more { s with
      behind := c :: s.behind, ahead := rest, tags := ⟨scope, [], t.before⟩ :: ts } := by
  rw [turn_cons h, step_plain hc, readPlain]
  have hopen : ({ s with tags := ts }).openTag scope t.before =
      { s with tags := ⟨scope, [], t.before⟩ :: ts } := by
    cases ts with
    | nil => rw [openTag_outside rfl]; simp [flushRaw, hraw]
    | cons t' ts => rw [openTag_inside rfl]
  simp only [ht, hsc, hb, htext, List.reverse_reverse, trim_of_namePart hn, true_and, if_true,
    List.isEmpty_iff, hne, if_false, nameTag, hname, hopen]
  simp [advance, h]

/-- **Reading a name.**  A blank, a name and a blank after the opening mark tell what the tag
is. -/
theorem within_name {s : Scan} {before : List Char} {ts : List OpenTag} {scope : Scope}
    (name rest : List Char) (h : s.ahead = ' ' :: (name ++ ' ' :: rest))
    (ht : s.tags = ⟨.tagName, [], before⟩ :: ts) (hraw : s.raw = []) (hn : name.all isNamePart)
    (hne : name ≠ []) (hname : Scope.named? name = some scope) :
    Within (name.length + 2) s { s with
      behind := ' ' :: (name.reverse ++ ' ' :: s.behind)
      ahead := rest
      tags := ⟨scope, [], before⟩ :: ts } := by
  have h₁ := Within.one (turn_blank h ht rfl rfl (by decide) (by decide))
  set s₁ : Scan := { s with behind := ' ' :: s.behind, ahead := name ++ ' ' :: rest } with hs₁
  have h₂ := within_nameText (s := s₁) name (' ' :: rest) rfl ht rfl hn
  have hs₂ : s₁.readText name (' ' :: rest) =
      { s with behind := name.reverse ++ ' ' :: s.behind, ahead := ' ' :: rest,
               tags := ⟨.tagName, name.reverse, before⟩ :: ts } := by
    rw [readText, collectAll_eq_tag (by exact ht)]; simp [hs₁]
  rw [hs₂] at h₂
  have h₃ := Within.one (turn_named
    (s := { s with behind := name.reverse ++ ' ' :: s.behind, ahead := ' ' :: rest,
                   tags := ⟨.tagName, name.reverse, before⟩ :: ts })
    rfl rfl rfl rfl hn hne (by decide) (by decide) hname hraw)
  exact ((h₁.trans h₂).trans h₃).mono (by omega)

/-! ### Closing marks -/

/-- The mark that closes a tag, as a scope says it. -/
theorem turn_close {s : Scan} {t : OpenTag} {ts : List OpenTag} {a : Char} {rest : List Char}
    (h : s.ahead = a :: '}' :: rest) (ht : s.tags = t :: ts) (hsc : t.scope ≠ .tagName)
    (ha : closer? (some t.scope) = some a) : s.turn = (s.advance 2).closeTag t ts := by
  rw [turn_cons h]
  rcases t with ⟨sc, text, before⟩
  cases sc <;> simp only [closer?, Option.some.injEq] at ha <;> subst ha <;>
    simp_all [step, readCloser, readPercent, Scope.isEnding, Scope.keepsPercent, endTag]

/-- What a scan does at the closing mark of a tag, after the text of the tag. -/
theorem turns_body {s : Scan} {scope : Scope} {before : List Char} {ts : List OpenTag} {a : Char}
    {text rest : List Char} (h : s.ahead = text ++ a :: '}' :: rest)
    (ht : s.tags = ⟨scope, [], before⟩ :: ts) (hc : collects (some scope) ∨ text = [])
    (hsc : scope ≠ .tagName) (ha : closer? (some scope) = some a)
    (hi : (text ++ [a]).IsChain (Inert (some scope))) (hp : text.getLast? ≠ some '%') :
    ∃ s₁, Within text.length s s₁ ∧ s₁.turn =
      ({ s with behind := '}' :: a :: (text.reverse ++ s.behind), ahead := rest,
                tags := ⟨scope, text.reverse, before⟩ :: ts }).closeTag
        ⟨scope, text.reverse, before⟩ ts := by
  have hscope : s.scope? = some scope := by simp [scope?, ht]
  set s₁ : Scan := { s with behind := text.reverse ++ s.behind, ahead := a :: '}' :: rest,
                            tags := ⟨scope, text.reverse, before⟩ :: ts } with hs₁
  have h₁ : Within text.length s s₁ := by
    have hread : s.readText text (a :: '}' :: rest) = s₁ := by
      rw [readText, collectAll_eq_tag (by exact ht)]; simp [hs₁]
    rw [← hread]
    rcases hc with hc | rfl
    · exact within_collect h (by rw [hscope]; exact hc) (by simpa [hscope] using hi) (.inl hp)
    · rw [readText_nil (by simpa using h)]; exact .refl s
  refine ⟨s₁, h₁, ?_⟩
  rw [turn_close (t := ⟨scope, text.reverse, before⟩) rfl rfl hsc ha, advance_two rfl]

end Scan

/-- The instruction that a tag with a text stands for, if it stands for one. -/
def Scope.instr? : Scope → String → Option Instr
  | .header keyword, text => some (.start keyword text)
  | .echoed, text => some (.emit text)
  | .statement, text => some (.exec text)
  | .blockName, text => if text.isEmpty then none else some (.openBlock text)
  | .ending tag, _ => some tag.instr
  | .tagName, _ => none
  | .includePath, _ => none

/-- The tags that stand for no instruction. -/
theorem Scope.instr?_eq_none {scope : Scope} {text : String} (h : scope.instr? text = none) :
    scope = .includePath ∨ scope = .blockName ∧ text.isEmpty ∨ scope = .tagName := by
  cases scope with
  | includePath => exact .inl rfl
  | blockName =>
    simp only [Scope.instr?] at h
    split at h
    next hempty => exact .inr (.inl ⟨rfl, hempty⟩)
    · cases h
  | tagName => exact .inr (.inr rfl)
  | header _ => cases h
  | echoed => cases h
  | statement => cases h
  | ending _ => cases h

namespace Scan

theorem closeTag_eq_emit {s : Scan} {t : OpenTag} {ts : List OpenTag} {i : Instr}
    (h : t.scope.instr? (String.ofList (Text.trim t.text.reverse)) = some i) :
    s.closeTag t ts = .more (({ s with tags := ts }).emit i) := by
  rcases t with ⟨sc, text, before⟩
  cases sc with
  | blockName =>
    simp only [Scope.instr?] at h
    split at h
    · cases h
    · cases h
      next hne => simp [closeTag, hne]
  | tagName => cases h
  | includePath => cases h
  | header _ => cases h; rfl
  | echoed => cases h; rfl
  | statement => cases h; rfl
  | ending _ => cases h; rfl

theorem closeTag_include {s : Scan} {t : OpenTag} {ts : List OpenTag} (h : t.scope = .includePath) :
    s.closeTag t ts =
      ({ s with tags := ts }).splice t (String.ofList (Text.trim t.text.reverse)) := by
  simp [closeTag, h]

theorem closeTag_unnamed {s : Scan} {t : OpenTag} {ts : List OpenTag} (h : t.scope = .blockName)
    (hempty : (String.ofList (Text.trim t.text.reverse)).isEmpty) :
    s.closeTag t ts =
      .fault .expectedBlockName (({ s with tags := ts }).sinceTag t) { s with tags := ts } := by
  simp [closeTag, h, hempty]

theorem closeTag_untold {s : Scan} {t : OpenTag} {ts : List OpenTag} (h : t.scope = .tagName) :
    s.closeTag t ts = .more { s with tags := ts } := by
  simp [closeTag, h]

/-- **Reading the text of a tag.**  Text that is free of marks inside a tag is collected up to the
closing mark, and the tag does what it says. -/
theorem within_body {s : Scan} {scope : Scope} {before : List Char} {ts : List OpenTag} {a : Char}
    {i : Instr} (text rest : List Char) (h : s.ahead = text ++ a :: '}' :: rest)
    (ht : s.tags = ⟨scope, [], before⟩ :: ts) (hc : collects (some scope) ∨ text = [])
    (ha : closer? (some scope) = some a)
    (hi : (text ++ [a]).IsChain (Inert (some scope))) (hp : text.getLast? ≠ some '%')
    (hinstr : scope.instr? (String.ofList (Text.trim text)) = some i) :
    Within (text.length + 1) s { s with
      behind := '}' :: a :: (text.reverse ++ s.behind)
      ahead := rest
      tags := ts
      instrs := i :: s.instrs } := by
  have hsc : scope ≠ .tagName := by rintro rfl; cases hinstr
  obtain ⟨s₁, h₁, hturn⟩ := turns_body h ht hc hsc ha hi hp
  refine h₁.trans (.one ?_)
  rw [hturn, closeTag_eq_emit (by simpa using hinstr)]
  rfl

/-- A tag that is told by its name is open at the same place. -/
theorem nameTag_more {s s₁ : Scan} {t : OpenTag} {ts : List OpenTag} {upTo : List Char}
    (h : s.nameTag t ts upTo = .more s₁) :
    s₁.behind = s.behind ∧ s₁.ahead = s.ahead ∧ s₁.tags ≠ [] := by
  simp only [nameTag] at h
  split at h
  · cases h
    exact ⟨openTag_behind _ _ _, openTag_ahead _ _ _, by simp [openTag]⟩
  · cases h

/-! ### Includes -/

theorem splice_found {s : Scan} {path text : String} (t : OpenTag)
    (h : (s.engine.resolve ⟨path, s.origin⟩).1 = some text) :
    s.splice t path = .more { s with
      ahead := text.toList ++ s.ahead
      engine := (s.engine.resolve ⟨path, s.origin⟩).2.1
      events := .splicing path s.origin text.utf8ByteSize ::
        ((s.engine.resolve ⟨path, s.origin⟩).2.2.reverse ++ s.events) } := by
  simp [splice, h]

theorem splice_missed {s : Scan} {path : String} (t : OpenTag)
    (h : (s.engine.resolve ⟨path, s.origin⟩).1 = none) :
    s.splice t path = .fault (.unresolved path) (s.sinceTag t) { s with
      engine := (s.engine.resolve ⟨path, s.origin⟩).2.1
      events := (s.engine.resolve ⟨path, s.origin⟩).2.2.reverse ++ s.events } := by
  simp [splice, h, sinceTag, between, expanded]

end Scan

end Stencil.Template
