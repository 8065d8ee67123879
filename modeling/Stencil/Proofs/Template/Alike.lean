import Mathlib.Data.List.Forall2
import Stencil.Proofs.Include.Forget
import Stencil.Proofs.Template.Tags

/-!
# Scans that go on alike

Two scans that have come to the same text by different ways go on in the same way, as long as the
tags that are open say the same and the resolvers have no memory.  They need not have cut the text
outside of tags at the same places, so their instructions are compared after `joinRaw`.

* `Scan.Alike` : the relation between the two scans; one may know less of what lies ahead.
* `Scan.Alike.step`, `Scan.Alike.turn` : a turn keeps it.
* `Scan.Alike.run` : so the results of whole scans are alike.
-/

namespace Stencil.Template

/-! ### Joined text -/

/-- Puts an instruction before others; text is joined with text. -/
def Instr.glue : Instr → List Instr → List Instr
  | .raw a, .raw b :: is => .raw (a ++ b) :: is
  | i, is => i :: is

/-- Concatenates the texts that are neighbours. -/
def joinRaw (is : List Instr) : List Instr := is.foldr Instr.glue []

@[simp] theorem joinRaw_nil : joinRaw [] = [] := rfl

@[simp] theorem joinRaw_cons (i : Instr) (is : List Instr) :
    joinRaw (i :: is) = i.glue (joinRaw is) := rfl

theorem glue_raw_glue_raw (a b : String) (is : List Instr) :
    (Instr.raw a).glue ((Instr.raw b).glue is) = (Instr.raw (a ++ b)).glue is := by
  cases is with
  | nil => rfl
  | cons i is => cases i <;> simp [Instr.glue, String.append_assoc]

theorem joinRaw_glue_append (i : Instr) (is js : List Instr) :
    joinRaw (i.glue is ++ js) = i.glue (joinRaw (is ++ js)) := by
  rw [Instr.glue.eq_def]
  split
  · simp [glue_raw_glue_raw]
  · rfl

theorem joinRaw_joinRaw_append (is js : List Instr) :
    joinRaw (joinRaw is ++ js) = joinRaw (is ++ js) := by
  induction is with
  | nil => rfl
  | cons i is ih => rw [joinRaw_cons, joinRaw_glue_append, ih, List.cons_append, joinRaw_cons]

theorem joinRaw_append_raw_raw (is : List Instr) (a b : String) :
    joinRaw (is ++ [.raw a, .raw b]) = joinRaw (is ++ [.raw (a ++ b)]) := by
  simp only [joinRaw, List.foldr_append, List.foldr_cons, List.foldr_nil, glue_raw_glue_raw]

/-- Two tags that say the same. -/
def OpenTag.Same (t t' : OpenTag) : Prop := t.scope = t'.scope ∧ t.text = t'.text

namespace Scan

/-- The instruction for a text outside of tags, given with its last character first. -/
def pending : List Char → List Instr
  | [] => []
  | raw => [.raw (String.ofList raw.reverse)]

/-- The instructions of a scan with the text that none holds yet, neighbouring texts joined. -/
def joined (s : Scan) : List Instr := joinRaw (s.instructions ++ pending s.raw)

theorem flushRaw_instructions (s : Scan) :
    s.flushRaw.instructions = s.instructions ++ pending s.raw := by
  cases h : s.raw <;> simp [flushRaw, h, emit, instructions, pending]

theorem joined_of_raw {s : Scan} (h : s.raw = []) : s.joined = joinRaw s.instructions := by
  simp [joined, h, pending]

theorem joined_flushRaw (s : Scan) : s.flushRaw.joined = s.joined := by
  rw [joined_of_raw (flushRaw_raw s), flushRaw_instructions, joined]

theorem joined_emit {s : Scan} (h : s.raw = []) (i : Instr) :
    (s.emit i).joined = joinRaw (s.joined ++ [i]) := by
  rw [joined_of_raw (by simpa [emit] using h), joined_of_raw h, joinRaw_joinRaw_append]
  simp [emit, instructions]

theorem joinRaw_pending_cons (is : List Instr) (c : Char) (raw : List Char) :
    joinRaw (is ++ pending (c :: raw)) =
      joinRaw (is ++ pending raw ++ [.raw (String.singleton c)]) := by
  cases raw with
  | nil => rw [pending, List.append_nil]; rfl
  | cons d raw =>
    have happ : String.ofList (c :: d :: raw).reverse =
        String.ofList (d :: raw).reverse ++ String.singleton c := by
      rw [List.reverse_cons, String.ofList_append, String.singleton_eq_ofList]
    rw [pending, pending, happ, List.append_assoc]
    · exact (joinRaw_append_raw_raw _ _ _).symm
    · simp
    · simp

theorem joined_collect {s : Scan} (h : s.tags = []) (c : Char) :
    (s.collect c).joined = joinRaw (s.joined ++ [.raw (String.singleton c)]) := by
  rw [collect_eq_raw h, joined, joined, joinRaw_joinRaw_append, joinRaw_pending_cons]
  rfl

/-- Two scans of a template `o` that go on alike; the first one has `rest` ahead in addition, and the
resolvers of both are those of `e`. -/
structure Alike (e : Engine) (o : Option String) (rest : List Char) (s s' : Scan) : Prop where
  /-- The same text is ahead. -/
  ahead : s.ahead = s'.ahead ++ rest
  /-- The same tags are open. -/
  tags : List.Forall₂ OpenTag.Same s.tags s'.tags
  /-- While a tag is open, each text outside of tags belongs to an instruction. -/
  raw : s.tags ≠ [] → s.raw = [] ∧ s'.raw = []
  /-- The instructions are the same, but for the places at which text is cut. -/
  joined : s.joined = s'.joined
  /-- The same template is being read. -/
  origin : s.origin = o ∧ s'.origin = o
  /-- The resolvers are the same, but for what they have been asked. -/
  engine : s.engine.forget = e ∧ s'.engine.forget = e
  /-- The resolvers have no memory. -/
  pure : e.IsPure

variable {e : Engine} {o : Option String} {rest : List Char} {s s' : Scan}

namespace Alike

/-- Either no tag is open in both scans, or the innermost tags say the same. -/
theorem cases_tags (h : Alike e o rest s s') :
    (s.tags = [] ∧ s'.tags = []) ∨
    ∃ t ts t' ts', s.tags = t :: ts ∧ s'.tags = t' :: ts' ∧ t.Same t' ∧
      List.Forall₂ OpenTag.Same ts ts' ∧ s.raw = [] ∧ s'.raw = [] := by
  cases ht : s.tags with
  | nil =>
    have htags := h.tags
    rw [ht] at htags
    exact .inl ⟨rfl, List.forall₂_nil_left_iff.1 htags⟩
  | cons t ts =>
    have htags := h.tags
    rw [ht] at htags
    obtain ⟨t', ts', hsame, hts, ht'⟩ := List.forall₂_cons_left_iff.1 htags
    exact .inr ⟨t, ts, t', ts', rfl, ht', hsame, hts, h.raw (by simp [ht])⟩

theorem isPure (h : Alike e o rest s s') : s.engine.IsPure :=
  Engine.isPure_forget.1 (by rw [h.engine.1]; exact h.pure)

theorem scope? (h : Alike e o rest s s') : s.scope? = s'.scope? := by
  obtain ⟨ht, ht'⟩ | ⟨t, ts, t', ts', ht, ht', hsame, -⟩ := h.cases_tags
  · simp [Scan.scope?, ht, ht']
  · simp [Scan.scope?, ht, ht', hsame.1]

/-- What lies behind does not matter. -/
theorem setPlace (h : Alike e o rest s s') {behind behind' ahead ahead' more : List Char}
    (ha : ahead = ahead' ++ more) :
    Alike e o more { s with behind := behind, ahead := ahead }
      { s' with behind := behind', ahead := ahead' } :=
  ⟨ha, h.tags, h.raw, h.joined, h.origin, h.engine, h.pure⟩

theorem advance (h : Alike e o rest s s') {n : Nat} (hn : n ≤ s'.ahead.length) :
    Alike e o rest (s.advance n) (s'.advance n) := by
  rw [advance_eq, advance_eq]
  refine h.setPlace ?_
  rw [h.ahead]
  exact List.drop_append_of_le_length hn

theorem collect (h : Alike e o rest s s') (c : Char) : Alike e o rest (s.collect c) (s'.collect c) := by
  obtain ⟨ht, ht'⟩ | ⟨t, ts, t', ts', ht, ht', hsame, hts, hraw, hraw'⟩ := h.cases_tags
  · have hjoined : (s.collect c).joined = (s'.collect c).joined := by
      rw [joined_collect ht, joined_collect ht', h.joined]
    rw [collect_eq_raw ht, collect_eq_raw ht'] at *
    exact ⟨h.ahead, h.tags, fun hne => absurd ht hne, hjoined, h.origin, h.engine, h.pure⟩
  · have hjoined := h.joined
    rw [joined_of_raw hraw, joined_of_raw hraw'] at hjoined
    rw [collect_eq_tag ht, collect_eq_tag ht']
    refine ⟨h.ahead, .cons ⟨hsame.1, by rw [hsame.2]⟩ hts, fun _ => ⟨hraw, hraw'⟩, ?_, h.origin,
      h.engine, h.pure⟩
    rw [joined_of_raw (by exact hraw), joined_of_raw (by exact hraw')]
    exact hjoined

/-- With no text outside of instructions, the open tags can be replaced. -/
theorem setTags (h : Alike e o rest s s') (hraw : s.raw = [] ∧ s'.raw = []) {ts ts' : List OpenTag}
    (hts : List.Forall₂ OpenTag.Same ts ts') :
    Alike e o rest { s with tags := ts } { s' with tags := ts' } := by
  refine ⟨h.ahead, hts, fun _ => hraw, ?_, h.origin, h.engine, h.pure⟩
  have hjoined := h.joined
  rw [joined_of_raw hraw.1, joined_of_raw hraw.2] at hjoined
  rw [joined_of_raw (by exact hraw.1), joined_of_raw (by exact hraw.2)]
  exact hjoined

theorem emit (h : Alike e o rest s s') (hraw : s.raw = [] ∧ s'.raw = []) (i : Instr) :
    Alike e o rest (s.emit i) (s'.emit i) := by
  refine ⟨h.ahead, h.tags, fun _ => hraw, ?_, h.origin, h.engine, h.pure⟩
  rw [joined_emit hraw.1, joined_emit hraw.2, h.joined]

theorem flushRaw (h : Alike e o rest s s') : Alike e o rest s.flushRaw s'.flushRaw := by
  refine ⟨by simpa using h.ahead, by simpa using h.tags, fun _ => by simp, ?_,
    by simpa using h.origin, by simpa using h.engine, h.pure⟩
  rw [joined_flushRaw, joined_flushRaw, h.joined]

theorem openTag (h : Alike e o rest s s') (scope : Scope) (before before' : List Char) :
    Alike e o rest (s.openTag scope before) (s'.openTag scope before') := by
  obtain ⟨ht, ht'⟩ | ⟨t, ts, t', ts', ht, ht', hsame, hts, hraw⟩ := h.cases_tags
  · rw [openTag_outside ht, openTag_outside ht']
    exact h.flushRaw.setTags (by simp) (.cons ⟨rfl, rfl⟩ .nil)
  · rw [openTag_inside ht, openTag_inside ht']
    exact h.setTags hraw (.cons ⟨rfl, rfl⟩ (.cons hsame hts))

end Alike

end Scan

/-! ### Turns -/

/-- What comes of reading on alike: the faults are the same, but for their places. -/
inductive Progress.Alike (e : Engine) (o : Option String) (rest : List Char) : Progress → Progress → Prop
  /-- There is more to read. -/
  | more {s s' : Scan} : Scan.Alike e o rest s s' → Progress.Alike e o rest (.more s) (.more s')
  /-- Both templates end. -/
  | done {s s' : Scan} : joinRaw s.instructions = joinRaw s'.instructions →
      Progress.Alike e o rest (.done s) (.done s')
  /-- Both templates are wrong. -/
  | fault (f : TagFault) (p p' : Place) (s s' : Scan) :
      Progress.Alike e o rest (.fault f p s) (.fault f p' s')

namespace Scan.Alike

variable {e : Engine} {o : Option String} {rest : List Char} {s s' : Scan} {t t' : OpenTag}
variable {ts ts' : List OpenTag}

theorem nameTag (h : Alike e o rest s s') (hraw : s.raw = [] ∧ s'.raw = []) (ht : t.Same t')
    (hts : List.Forall₂ OpenTag.Same ts ts') (upTo upTo' : List Char) :
    Progress.Alike e o rest (s.nameTag t ts upTo) (s'.nameTag t' ts' upTo') := by
  simp only [Scan.nameTag, ht.2]
  cases Scope.named? (Text.trim t'.text.reverse) with
  | none => exact .fault _ _ _ _ _
  | some scope => exact .more ((h.setTags hraw hts).openTag scope _ _)

theorem splice (h : Alike e o rest s s') (path : String) :
    Progress.Alike e o rest (s.splice t path) (s'.splice t' path) := by
  have hanswer : (s.engine.resolve ⟨path, s.origin⟩).1 =
      (s'.engine.resolve ⟨path, s'.origin⟩).1 := by
    rw [h.origin.1, h.origin.2]
    exact h.isPure.resolve_eq (h.engine.1.trans h.engine.2.symm)
  have hengine : (s.engine.resolve ⟨path, s.origin⟩).2.1.forget = e ∧
      (s'.engine.resolve ⟨path, s'.origin⟩).2.1.forget = e := by
    rw [Engine.resolve_forget, Engine.resolve_forget]
    exact h.engine
  simp only [Scan.splice]
  cases hfound : (s'.engine.resolve ⟨path, s'.origin⟩).1 with
  | none => rw [hanswer, hfound]; exact .fault _ _ _ _ _
  | some text =>
    rw [hanswer, hfound]
    exact .more ⟨by simp [h.ahead], h.tags, h.raw, h.joined, h.origin, hengine, h.pure⟩

theorem closeTag (h : Alike e o rest s s') (hraw : s.raw = [] ∧ s'.raw = []) (ht : t.Same t')
    (hts : List.Forall₂ OpenTag.Same ts ts') :
    Progress.Alike e o rest (s.closeTag t ts) (s'.closeTag t' ts') := by
  have hset := h.setTags hraw hts
  rcases t with ⟨scope, text, before⟩
  rcases t' with ⟨scope', text', before'⟩
  obtain ⟨rfl, rfl⟩ : scope = scope' ∧ text = text' := ht
  cases scope with
  | includePath => exact hset.splice _
  | blockName =>
    simp only [Scan.closeTag]
    split
    · exact .fault _ _ _ _ _
    · exact .more (hset.emit hraw _)
  | tagName => exact .more hset
  | header _ => exact .more (hset.emit hraw _)
  | echoed => exact .more (hset.emit hraw _)
  | statement => exact .more (hset.emit hraw _)
  | ending _ => exact .more (hset.emit hraw _)

/-- While a tag is open no text is outside of instructions, whatever is done with the tag. -/
theorem endTag_raw (hraw : s.raw = []) {upTo : List Char} {s₁ : Scan}
    (h : s.endTag t ts upTo = .more s₁) : s₁.raw = [] := by
  have hclose : ∀ (s : Scan) (t : OpenTag) (ts : List OpenTag) (s₁ : Scan), s.raw = [] →
      s.closeTag t ts = .more s₁ → s₁.raw = [] := by
    intro s t ts s₁ hs h
    rcases t with ⟨scope, text, before⟩
    cases scope with
    | includePath =>
      simp only [Scan.closeTag, Scan.splice] at h
      split at h
      · cases h; exact hs
      · cases h
    | blockName =>
      simp only [Scan.closeTag] at h
      split at h
      · cases h
      · cases h; exact hs
    | tagName => cases h; exact hs
    | header _ => cases h; exact hs
    | echoed => cases h; exact hs
    | statement => cases h; exact hs
    | ending _ => cases h; exact hs
  rw [endTag] at h
  split at h
  · simp only [Scan.nameTag] at h
    cases hname : Scope.named? (Text.trim t.text.reverse) with
    | none => simp [hname] at h
    | some scope =>
      simp only [hname] at h
      have hs := openTag_raw (s := { s with tags := ts }) (.inr hraw) scope t.before
      split at h
      · cases h; exact hs
      · exact hclose _ _ _ _ hs h
  · exact hclose _ _ _ _ hraw h

theorem endTag (h : Alike e o rest s s') (hraw : s.raw = [] ∧ s'.raw = []) (ht : t.Same t')
    (hts : List.Forall₂ OpenTag.Same ts ts') (upTo upTo' : List Char) :
    Progress.Alike e o rest (s.endTag t ts upTo) (s'.endTag t' ts' upTo') := by
  simp only [Scan.endTag, ht.1]
  split
  · have hname := h.nameTag hraw ht hts upTo upTo'
    generalize s.nameTag t ts upTo = p at hname
    generalize s'.nameTag t' ts' upTo' = p' at hname
    cases hname with
    | more h₁ =>
      obtain ⟨ht, ht'⟩ | ⟨t, ts, t', ts', ht, ht', hsame, hts, hraw⟩ := h₁.cases_tags
      · simp only [ht, ht']
        exact .more h₁
      · simp only [ht, ht']
        exact h₁.closeTag hraw hsame hts
    | done hd => exact .done hd
    | fault f p p' s s' => exact .fault f p p' s s'
  · exact h.closeTag hraw ht hts

/-- The next character but one is the same. -/
theorem next (h : Alike e o rest s s') (hs : rest = [] ∨ 2 ≤ s'.ahead.length) :
    (s.ahead.drop 1).head? = (s'.ahead.drop 1).head? := by
  rw [h.ahead]
  rcases hs with rfl | hs
  · simp
  · match hs' : s'.ahead, hs with
    | c :: d :: ahead, _ => rfl

theorem readOpening (h : Alike e o rest s s') (scope : Scope)
    (hs : 2 ≤ s'.ahead.length ∧ (rest = [] ∨ 3 ≤ s'.ahead.length)) :
    Progress.Alike e o rest (s.readOpening scope) (s'.readOpening scope) := by
  have hopen : Alike e o rest ((s.openTag scope s.behind).advance 2)
      ((s'.openTag scope s'.behind).advance 2) :=
    (h.openTag scope _ _).advance (by simpa using hs.1)
  have hdash : ((s.openTag scope s.behind).advance 2).ahead.head? =
      ((s'.openTag scope s'.behind).advance 2).ahead.head? := by
    rw [advance_eq, advance_eq]
    simp only [openTag_ahead, h.ahead]
    rcases hs.2 with rfl | hs
    · simp
    · match hs' : s'.ahead, hs with
      | c :: d :: e :: ahead, _ => rfl
  have hraw : (s.tags = [] ∨ s.raw = []) ∧ (s'.tags = [] ∨ s'.raw = []) := by
    obtain ⟨ht, ht'⟩ | ⟨-, -, -, -, -, -, -, -, hr, hr'⟩ := h.cases_tags
    · exact ⟨.inl ht, .inl ht'⟩
    · exact ⟨.inr hr, .inr hr'⟩
  simp only [Scan.readOpening, hdash]
  split
  next hd =>
    refine .more ((hopen.advance ?_).emit ⟨?_, ?_⟩ _)
    · cases ha : ((s'.openTag scope s'.behind).advance 2).ahead with
      | nil => rw [ha] at hd; cases hd
      | cons _ _ => simp
    · simpa using openTag_raw hraw.1 scope s.behind
    · simpa using openTag_raw hraw.2 scope s'.behind
  next => exact .more hopen

/-- A character is collected. -/
theorem gather (h : Alike e o rest s s') (hs : s'.ahead ≠ []) (c : Char) :
    Progress.Alike e o rest (.more ((s.collect c).advance 1)) (.more ((s'.collect c).advance 1)) :=
  .more ((h.collect c).advance (by rw [collect_ahead]; exact List.length_pos_of_ne_nil hs))

/-- A percent sign and a brace are collected. -/
theorem gatherPair (h : Alike e o rest s s') (hs : 2 ≤ s'.ahead.length) :
    Progress.Alike e o rest (.more (((s.collect '%').collect '\x7d').advance 2))
      (.more (((s'.collect '%').collect '\x7d').advance 2)) :=
  .more (((h.collect '%').collect '\x7d').advance (by simpa using hs))

theorem two_le_of_next {c : Char} (h : (s.ahead.drop 1).head? = some c) : 2 ≤ s.ahead.length := by
  match hs : s.ahead with
  | [] => simp [hs] at h
  | [_] => simp [hs] at h
  | _ :: _ :: _ => simp

theorem readCloser (h : Alike e o rest s s') (hs : s'.ahead ≠ [])
    (hnext : (s.ahead.drop 1).head? = (s'.ahead.drop 1).head?) (c : Char) (closed : Scope) :
    Progress.Alike e o rest (s.readCloser c closed) (s'.readCloser c closed) := by
  obtain ⟨ht, ht'⟩ | ⟨t, ts, t', ts', ht, ht', hsame, hts, hraw⟩ := h.cases_tags
  · simp only [Scan.readCloser, ht, ht']
    exact h.gather hs c
  · simp only [Scan.readCloser, ht, ht', hsame.1, hnext]
    split
    · exact .fault _ _ _ _ _
    · split
      next hcl =>
        exact (h.advance (two_le_of_next hcl.2)).closeTag (by simpa using hraw) hsame hts
      next => exact h.gather hs c

theorem readPercent (h : Alike e o rest s s') (hs : s'.ahead ≠ [])
    (hnext : (s.ahead.drop 1).head? = (s'.ahead.drop 1).head?) :
    Progress.Alike e o rest s.readPercent s'.readPercent := by
  obtain ⟨ht, ht'⟩ | ⟨t, ts, t', ts', ht, ht', hsame, hts, hraw⟩ := h.cases_tags
  · simp only [Scan.readPercent, ht, ht', hnext]
    split
    next hd => exact h.gatherPair (two_le_of_next hd)
    next => exact h.gather hs _
  · simp only [Scan.readPercent, ht, ht', hsame.1, hnext]
    split
    next hd =>
      split
      · exact h.gatherPair (two_le_of_next hd)
      · exact (h.advance (two_le_of_next hd)).endTag (by simpa using hraw) hsame hts _ _
    next =>
      split
      · exact .fault _ _ _ _ _
      · exact h.gather hs _

theorem readPlain (h : Alike e o rest s s') (hs : s'.ahead ≠ []) (c : Char) :
    Progress.Alike e o rest (s.readPlain c) (s'.readPlain c) := by
  have hpos : 1 ≤ s'.ahead.length := List.length_pos_of_ne_nil hs
  obtain ⟨ht, ht'⟩ | ⟨t, ts, t', ts', ht, ht', hsame, hts, hraw⟩ := h.cases_tags
  · simp only [Scan.readPlain, ht, ht']
    exact h.gather hs c
  · simp only [Scan.readPlain, ht, ht', hsame.1, hsame.2]
    split
    · split
      · exact .more (h.advance hpos)
      · -- a name leaves what is ahead as it is
        have hkeep : ∀ {s₁ : Scan}, s'.nameTag t' ts' s'.behind = .more s₁ →
            s₁.ahead = s'.ahead := by
          intro s₁ hname
          simp only [Scan.nameTag] at hname
          split at hname
          · cases hname; simp
          · cases hname
        have hname := h.nameTag hraw hsame hts s.behind s'.behind
        generalize s.nameTag t ts s.behind = p at hname
        generalize s'.nameTag t' ts' s'.behind = p' at hname hkeep
        cases hname with
        | more h₁ => exact .more (h₁.advance (by rw [hkeep rfl]; exact hpos))
        | done hd => exact .done hd
        | fault f p p' s s' => exact .fault f p p' s s'
    · split
      · split
        · exact .more (h.advance hpos)
        · exact .fault _ _ _ _ _
      · exact h.gather hs c

/-- **A character.**  Scans that are alike read it alike, if the one that knows less of the rest
has seen what it needs to. -/
theorem step (h : Alike e o rest s s') {c : Char} {tail : List Char} (hc : s'.ahead = c :: tail)
    (hs : rest = [] ∨ 3 ≤ s'.ahead.length ∨ ∃ d, tail = [d] ∧ opens c d = false) :
    Progress.Alike e o rest (s.step c) (s'.step c) := by
  have hne : s'.ahead ≠ [] := by simp [hc]
  have hnext : (s.ahead.drop 1).head? = (s'.ahead.drop 1).head? := by
    refine h.next ?_
    rcases hs with hs | hs | ⟨d, rfl, -⟩
    · exact .inl hs
    · exact .inr (by omega)
    · exact .inr (by simp [hc])
  rw [Scan.step.eq_def, Scan.step.eq_def]
  split
  · -- only an opening mark looks at the character after the next one
    rw [h.scope?, hnext]
    split
    · exact .fault _ _ _ _ _
    · cases hop : (s'.ahead.drop 1).head?.bind Scope.opening? with
      | none => exact h.gather hne _
      | some scope =>
        obtain ⟨d, hd, hscope⟩ := Option.bind_eq_some_iff.1 hop
        refine h.readOpening scope ⟨two_le_of_next hd, ?_⟩
        rcases hs with hs | hs | ⟨d', rfl, hop'⟩
        · exact .inl hs
        · exact .inr hs
        · obtain rfl : d' = d := by simpa [hc] using hd
          simp [opens, hscope] at hop'
  · exact h.readCloser hne hnext _ _
  · exact h.readCloser hne hnext _ _
  · exact h.readPercent hne hnext
  · exact h.readPlain hne _

/-- **A turn.**  Scans that are alike and know the same of what is ahead go on alike. -/
theorem turn (h : Alike e o [] s s') : Progress.Alike e o [] s.turn s'.turn := by
  have hahead : s.ahead = s'.ahead := by simpa using h.ahead
  cases hs' : s'.ahead with
  | cons c tail =>
    rw [turn_cons hs', turn_cons (hahead.trans hs')]
    exact h.step hs' (.inl rfl)
  | nil =>
    simp only [Scan.turn, hahead, hs', Scan.flush]
    obtain ⟨ht, ht'⟩ | ⟨t, ts, t', ts', ht, ht', hsame, hts, hraw⟩ := h.cases_tags
    · simp only [ht, ht']
      refine .done ?_
      rw [flushRaw_instructions, flushRaw_instructions]
      exact h.joined
    · have hjoined := h.joined
      rw [joined_of_raw hraw.1, joined_of_raw hraw.2] at hjoined
      simp only [ht, ht', hsame.1, hsame.2]
      split
      · exact .done hjoined
      · have hend := h.endTag hraw hsame hts s.behind s'.behind
        have hraw₁ : ∀ s₁, s.endTag t ts s.behind = .more s₁ → s₁.raw = [] :=
          fun _ => endTag_raw hraw.1
        have hraw₂ : ∀ s₁, s'.endTag t' ts' s'.behind = .more s₁ → s₁.raw = [] :=
          fun _ => endTag_raw hraw.2
        generalize s.endTag t ts s.behind = p at hend hraw₁
        generalize s'.endTag t' ts' s'.behind = p' at hend hraw₂
        cases hend with
        | more h₁ =>
          simp only [show _ = _ from h₁.ahead, List.append_nil]
          split
          · refine .done ?_
            have hj := h₁.joined
            rwa [joined_of_raw (hraw₁ _ rfl), joined_of_raw (hraw₂ _ rfl)] at hj
          · exact .more h₁
        | done hd => exact .done hd
        | fault f p p' s s' => exact .fault f p p' s s'

/-- **A run.**  Scans that are alike come to alike results after the same number of turns. -/
theorem run (h : Alike e o [] s s') (n : Nat) :
    Option.Rel (Progress.Alike e o []) (s.run n) (s'.run n) := by
  induction n generalizing s s' with
  | zero => exact .none
  | succ n ih =>
    have hturn := h.turn
    rw [Scan.run, Scan.run]
    generalize s.turn = p at hturn
    generalize s'.turn = p' at hturn
    cases hturn with
    | more h₁ => exact ih h₁
    | done hd => exact .some (.done hd)
    | fault f p p' s s' => exact .some (.fault f p p' s s')

end Scan.Alike

end Stencil.Template
