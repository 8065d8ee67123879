import Stencil.Proofs.Template.Acts
import Stencil.Proofs.Template.Finite

/-!
# What is spliced into a template

The engine is asked once for each include tag that is closed, and its answer is put right behind the
end of that tag, which is where the scan is.  So nothing that has been read is moved, and without the
texts that have been put in, the last one taken out first, a template is what it was.

* `Scan.closes?` : the include tag that the next turn closes, if it closes one.
* `Scan.turn_serves` : what a turn does about includes: it asks for that tag and for nothing else.
* `Scan.requests` : the include tags that are closed in so many turns.
* `Scan.takes_requests` : the texts that are spliced in, and the questions, in a whole run.
-/

namespace Stencil

open Include

/-- Puts some questions one after the other: the answers, and the engine as it is afterwards. -/
def Engine.askAll (e : Engine) : List Ask → List (Option String) × Engine
  | [] => ([], e)
  | a :: as =>
    let later := (e.resolve a).2.1.askAll as
    ((e.resolve a).1 :: later.1, later.2)

/-- The resolver that is asked first gets to know each question. -/
theorem Engine.added_resolve {e : Engine} {answer : List Ask → Ask → Option String}
    {asked : List Ask} {rs : List Resolver} (h : e.added = .rule answer asked :: rs) (a : Ask) :
    ∃ rs', (e.resolve a).2.1.added = .rule answer (a :: asked) :: rs' := by
  have hadded : (e.resolve a).2.1.added = (askInOrder e.disk a e.added).2.1 := by
    simp only [resolve]
    split <;> rfl
  rw [hadded, h, askInOrder]
  simp only [Resolver.ask]
  split <;> exact ⟨_, rfl⟩

theorem Engine.added_askAll {e : Engine} {answer : List Ask → Ask → Option String}
    {asked : List Ask} {rs : List Resolver} (h : e.added = .rule answer asked :: rs)
    (as : List Ask) :
    ∃ rs', (e.askAll as).2.added = .rule answer (as.reverse ++ asked) :: rs' := by
  induction as generalizing e asked rs with
  | nil => exact ⟨rs, h⟩
  | cons a as ih =>
    obtain ⟨rs', hadded⟩ := added_resolve h a
    simpa [askAll] using ih hadded

end Stencil

namespace Stencil.Template

open Include

/-! ### Taking texts out -/

/-- A text in a template, with the number of characters before it. -/
structure Splice where
  /-- The number of characters before the text. -/
  offset : Nat
  /-- The text. -/
  text : String

/-- A template without a text, if the text is there. -/
def Splice.delete (x : Splice) (source : List Char) : Option (List Char) :=
  if x.text.toList.isPrefixOf (source.drop x.offset) then
    some (source.take x.offset ++ source.drop (x.offset + x.text.toList.length))
  else none

/-- A template without some texts, the first of them taken out first. -/
def unsplice : List Splice → List Char → Option (List Char)
  | [], source => some source
  | x :: xs, source => (x.delete source).bind (unsplice xs)

theorem Splice.delete_insert (text : String) (before after : List Char) :
    (Splice.mk before.length text).delete (before ++ (text.toList ++ after)) =
      some (before ++ after) := by
  simp [delete, List.drop_append]

theorem unsplice_append (xs ys : List Splice) (source : List Char) :
    unsplice (xs ++ ys) source = (unsplice xs source).bind (unsplice ys) := by
  induction xs generalizing source with
  | nil => rfl
  | cons x xs ih =>
    simp only [List.cons_append, unsplice]
    cases x.delete source with
    | none => rfl
    | some source => exact ih source

/-! ### The tag that a turn closes -/

/-- The path that an include tag names. -/
def OpenTag.path (t : OpenTag) : String := String.ofList (Text.trim t.text.reverse)

namespace Scan

/-- The include tag that the next turn closes, at its closing mark or at the end of the template. -/
def closes? (s : Scan) : Option OpenTag :=
  match s.tags with
  | [] => none
  | t :: _ =>
    if s.ahead.take 2 = ['%', '\x7d'] ∨ s.ahead = [] ∧ t.text ≠ [] then
      t.told?.filter (·.scope = .includePath)
    else none

variable {s s₁ s₂ : Scan} {t t' : OpenTag} {ts : List OpenTag} {c : Char} {rest : List Char}

theorem closes?_eq_some :
    s.closes? = some t' ↔ ∃ t ts, s.tags = t :: ts ∧ t.told? = some t' ∧
      t'.scope = .includePath ∧
      (s.ahead.take 2 = ['%', '\x7d'] ∨ s.ahead = [] ∧ t.text ≠ []) := by
  cases ht : s.tags with
  | nil => simp [closes?, ht]
  | cons t ts =>
    simp only [closes?, ht, List.cons.injEq, Option.ite_none_right_eq_some, Option.filter_eq_some_iff,
      decide_eq_true_eq]
    constructor
    · rintro ⟨hend, htold, hscope⟩
      exact ⟨t, ts, ⟨rfl, rfl⟩, htold, hscope, hend⟩
    · rintro ⟨_, _, ⟨rfl, rfl⟩, htold, hscope, hend⟩
      exact ⟨hend, htold, hscope⟩

/-- What becomes an include tag at its end is closed by a percent sign. -/
theorem closer?_of_told (htold : t.told? = some t') (hscope : t'.scope = .includePath) :
    closer? (some t.scope) = some '%' ∧ t.scope.isEnding = false := by
  by_cases hname : t.scope = .tagName
  · rw [hname]
    exact ⟨rfl, rfl⟩
  · rw [OpenTag.told?_of_ne hname] at htold
    rw [Option.some.inj htold, hscope]
    exact ⟨rfl, rfl⟩

/-- What a turn does about includes. -/
inductive Serves (s : Scan) : Prop
  /-- It closes no include tag, asks nothing and puts nothing in. -/
  | nothing (hc : s.closes? = none) (read : List Char) (hm : Moves s read none s.turn.scan)
      (hf : ∀ path place s₁, s.turn ≠ .fault (.unresolved path) place s₁)
  /-- It closes an include tag, and puts the text of it right behind its end. -/
  | found (t : OpenTag) (hc : s.closes? = some t) (text : String)
      (hfound : (s.engine.resolve ⟨t.path, s.origin⟩).1 = some text) (s₁ : Scan)
      (hturn : s.turn = .more s₁) (hbehind : s₁.behind = (s.ahead.take 2).reverse ++ s.behind)
      (hahead : s₁.ahead = text.toList ++ s.ahead.drop 2) (htags : s₁.tags = s.tags.tail)
      (hengine : s₁.engine = (s.engine.resolve ⟨t.path, s.origin⟩).2.1)
      (horigin : s₁.origin = s.origin)
  /-- It closes an include tag, and there is no text for it. -/
  | missed (t : OpenTag) (hc : s.closes? = some t)
      (hmissed : (s.engine.resolve ⟨t.path, s.origin⟩).1 = none) (place : Place) (s₁ : Scan)
      (hturn : s.turn = .fault (.unresolved t.path) place s₁)
      (hengine : s₁.engine = (s.engine.resolve ⟨t.path, s.origin⟩).2.1)

/-- A turn at which no include tag ends closes none. -/
theorem closes?_eq_none (h : ∀ t ∈ s.tags.head?, ∀ t', t.told? = some t' → t'.scope = .includePath →
    s.ahead.take 2 ≠ ['%', '\x7d'] ∧ (s.ahead = [] → t.text = [])) : s.closes? = none := by
  rw [Option.eq_none_iff_forall_ne_some]
  intro t' hcloses
  obtain ⟨t, ts, ht, htold, hscope, hend⟩ := closes?_eq_some.1 hcloses
  obtain ⟨hmark, htext⟩ := h t (by rw [ht]; rfl) t' htold hscope
  exact hend.elim hmark fun hend => hend.2 (htext hend.1)

theorem closes?_of_head (ha : s.ahead = c :: rest) (hc : c ≠ '%') : s.closes? = none := by
  refine closes?_eq_none fun t _ t' _ _ => ⟨fun hmark => ?_, fun hnil => ?_⟩
  · rw [ha] at hmark
    exact hc (List.cons.inj hmark).1
  · rw [ha] at hnil
    cases hnil

/-- A turn closes no include tag if none is innermost. -/
theorem closes?_of_ne (ht : s.tags = t :: ts)
    (h : ∀ t', t.told? = some t' → t'.scope ≠ .includePath) : s.closes? = none := by
  refine closes?_eq_none fun t₀ ht₀ t' htold hscope => ?_
  rw [ht] at ht₀
  cases ht₀
  exact absurd hscope (h t' htold)

theorem blank_ne_percent (hc : Text.isBlank c) : c ≠ '%' := by
  rintro rfl
  exact absurd hc (by decide)

/-- A tag that is no include tag asks for nothing at its end. -/
theorem moves_closeTag_of_ne (h : t.scope ≠ .includePath) (ts : List OpenTag) :
    Moves s [] none (s.closeTag t ts).scan ∧
      ∀ path place s₁, s.closeTag t ts ≠ .fault (.unresolved path) place s₁ := by
  cases hinstr : t.scope.instr? (String.ofList (Text.trim t.text.reverse)) with
  | some i =>
    rw [closeTag_eq_emit hinstr]
    exact ⟨.still rfl rfl rfl rfl rfl, by simp⟩
  | none =>
    rcases Scope.instr?_eq_none hinstr with hscope | ⟨hscope, hempty⟩ | hscope
    · exact absurd hscope h
    · rw [closeTag_unnamed hscope hempty]
      exact ⟨.still rfl rfl rfl rfl rfl, by simp⟩
    · rw [closeTag_untold hscope]
      exact ⟨.still rfl rfl rfl rfl rfl, by simp⟩

theorem moves_endTag_of_ne (hraw : s.raw = []) (ts : List OpenTag) (upTo : List Char)
    (h : ∀ t', t.told? = some t' → t'.scope ≠ .includePath) :
    Moves s [] none (s.endTag t ts upTo).scan ∧
      ∀ path place s₁, s.endTag t ts upTo ≠ .fault (.unresolved path) place s₁ := by
  cases htold : t.told? with
  | none =>
    rw [endTag_untold htold]
    exact ⟨.still rfl rfl rfl rfl rfl, by simp⟩
  | some t' =>
    rw [endTag_told hraw htold]
    exact moves_closeTag_of_ne (h t' htold) ts

/-- What the end of an include tag comes to. -/
theorem endTag_include (hraw : s.raw = []) (htold : t.told? = some t')
    (hscope : t'.scope = .includePath) (ts : List OpenTag) (upTo : List Char) :
    s.endTag t ts upTo = ({ s with tags := ts }).splice t' t'.path := by
  rw [endTag_told hraw htold, closeTag_include hscope]
  rfl

theorem advance_at_end (ha : s.ahead = []) (n : Nat) : s.advance n = s := by
  cases n with
  | zero => rfl
  | succ n => rw [advance, ha]

/-- An include that leads on puts something ahead. -/
theorem ahead_of_splice {path : String} (h : s.splice t path = .more s₁) : s₁.ahead ≠ [] := by
  cases hanswer : (s.engine.resolve ⟨path, s.origin⟩).1 with
  | none =>
    rw [splice_missed t hanswer] at h
    cases h
  | some text =>
    rw [splice_found t hanswer] at h
    cases h
    intro hnil
    exact Engine.resolve_ne_empty hanswer
      (String.toList_eq_nil_iff.1 (List.append_eq_nil_iff.1 hnil).1)

theorem moves_readText {text : List Char} (ha : s.ahead = text ++ rest) :
    Moves s text none (s.readText text rest) := by
  cases ht : s.tags with
  | nil =>
    rw [readText, collectAll_eq_raw (by exact ht)]
    exact ⟨rfl, ⟨rest, ha, rfl⟩, rfl, rfl, rfl⟩
  | cons t ts =>
    rw [readText, collectAll_eq_tag (by exact ht)]
    exact ⟨rfl, ⟨rest, ha, rfl⟩, rfl, rfl, rfl⟩

/-- A tag whose closing mark has been read, or which the template ends in. -/
theorem serves_of_endTag (h : Sound s) (ht : s.tags = t :: ts)
    (hend : ∀ t', t.told? = some t' → t'.scope = .includePath →
      s.ahead.take 2 = ['%', '\x7d'] ∨ s.ahead = [] ∧ t.text ≠ [])
    (hturn : s.turn = (s.advance 2).endTag t ts s.behind) : Serves s := by
  have hraw : (s.advance 2).raw = [] := (advance_raw s 2).trans (h.raw_nil ht)
  have hmoves := moves_advance s 2
  by_cases hinclude : ∃ t', t.told? = some t' ∧ t'.scope = .includePath
  · obtain ⟨t', htold, hscope⟩ := hinclude
    have hcloses : s.closes? = some t' :=
      closes?_eq_some.2 ⟨t, ts, ht, htold, hscope, hend t' htold hscope⟩
    have hengine : (s.advance 2).engine = s.engine := hmoves.engine
    have horigin : (s.advance 2).origin = s.origin := hmoves.origin
    rw [endTag_include hraw htold hscope] at hturn
    cases hanswer : (s.engine.resolve ⟨t'.path, s.origin⟩).1 with
    | none =>
      rw [splice_missed t' (by rwa [hengine, horigin]), hengine, horigin] at hturn
      exact .missed t' hcloses hanswer _ _ hturn rfl
    | some text =>
      rw [splice_found t' (by rwa [hengine, horigin]), hengine, horigin, advance_eq] at hturn
      exact .found t' hcloses text hanswer _ hturn rfl rfl (by rw [ht]; rfl) rfl rfl
  · have hother : ∀ t', t.told? = some t' → t'.scope ≠ .includePath :=
      fun t' htold hscope => hinclude ⟨t', htold, hscope⟩
    obtain ⟨hquiet, hfault⟩ := moves_endTag_of_ne hraw ts s.behind hother
    refine .nothing (closes?_of_ne ht hother) (s.ahead.take 2 ++ []) ?_ (by rwa [hturn])
    rw [hturn]
    exact hmoves.trans hquiet

/-- **Includes.**  A turn that closes an include tag asks for its path and puts the text right
behind the end of the tag; no other turn asks for anything or puts anything in. -/
theorem turn_serves (h : Sound s) : Serves s := by
  have hact := turn_act s
  generalize hp : s.turn = p at hact
  have hquiet {p : Progress} (hp : s.turn = p) (read : List Char) (hm : Moves s read none p.scan)
      (hf : ∀ path place s₁, p ≠ .fault (.unresolved path) place s₁) (hc : s.closes? = none) :
      Serves s := .nothing hc read (hp ▸ hm) (hp ▸ hf)
  cases hact with
  | @read text rest ha hne hfree hin =>
    refine hquiet hp _ (moves_readText ha) (by simp)
      (closes?_eq_none fun t ht t' htold hscope => ⟨?_, ?_⟩)
    · intro hmark
      refine (hin t ht).2.2 '%' (closer?_of_told htold hscope).1 ?_
      exact hmark ▸ List.take_prefix 2 s.ahead
    · intro hnil
      rw [ha] at hnil
      exact absurd (List.append_eq_nil_iff.1 hnil).1 hne
  | skipped ha hc ht hin =>
    exact hquiet hp _ (moves_advance s 1) (by simp) (closes?_of_head ha (blank_ne_percent hc))
  | @opened scope mark dash rest ha hm hend =>
    refine hquiet hp ('\x7b' :: mark :: dashed dash) ?_ (by simp)
      (closes?_of_head ha (by decide))
    have hopen := moves_openTag s scope s.behind
    refine ⟨?_, ⟨rest, by simpa using ha, rfl⟩, hopen.engine, hopen.origin, hopen.events⟩
    cases dash <;> rfl
  | @named c rest t ts scope ha hc ht hscope hname =>
    have hstill : Moves s [] none { s with tags := ts } := .still rfl rfl rfl rfl rfl
    exact hquiet hp _ (hstill.trans ((moves_openTag _ scope t.before).trans (moves_advance _ 1)))
      (by simp) (closes?_of_head ha (blank_ne_percent hc))
  | unnamed ha hc ht hscope hname =>
    exact hquiet hp [] (.still rfl rfl rfl rfl rfl) (by simp)
      (closes?_of_head ha (blank_ne_percent hc))
  | @closed a rest t ts _ ha ht hcl hp' =>
    refine serves_of_endTag h ht (fun t' htold hscope => .inl ?_) (hp.trans hp'.symm)
    obtain rfl : a = '%' := Option.some.inj (hcl.symm.trans (closer?_of_told htold hscope).1)
    rw [ha]
    rfl
  | @refused t ts ht hend got =>
    refine hquiet hp [] (.refl s) (by simp [refuse]) (closes?_of_ne ht fun t' htold hscope => ?_)
    rw [(closer?_of_told htold hscope).2] at hend
    cases hend
  | finished ha ht =>
    refine hquiet hp [] ?_ (by simp) (closes?_eq_none (by simp [ht]))
    refine .still (flushRaw_behind s) (flushRaw_ahead s) (flushRaw_engine s) (flushRaw_origin s) ?_
    cases hr : s.raw <;> simp [Progress.scan, flushRaw, emit, hr]
  | @abandoned t ts ha ht htext hend =>
    refine hquiet hp [] (.refl s) (by simp) (closes?_eq_none ?_)
    rw [ht]
    rintro t ⟨⟩ t' htold hscope
    exact ⟨by simp [ha], fun _ => htext⟩
  | @ended t ts s' ha ht hin hp' ha' =>
    -- the text of an include would be ahead
    have hraw := h.raw_nil ht
    have hother : ∀ t', t.told? = some t' → t'.scope ≠ .includePath := by
      intro t' htold hscope
      rw [endTag_include hraw htold hscope] at hp'
      exact ahead_of_splice hp' ha'
    obtain ⟨hmoves, -⟩ := moves_endTag_of_ne hraw ts s.behind hother
    rw [hp'] at hmoves
    exact hquiet hp _ hmoves (by simp) (closes?_of_ne ht hother)
  | @resumed t ts s' ha ht hin hp' ha' =>
    refine serves_of_endTag h ht (fun t' htold hscope => .inr ⟨ha, ?_⟩) ?_
    · refine hin.resolve_right ?_
      simp [(closer?_of_told htold hscope).2]
    · rw [hp, advance_at_end ha, ← hp']
  | @failed t ts f place s' ha ht hin hp' =>
    refine serves_of_endTag h ht (fun t' htold hscope => .inr ⟨ha, ?_⟩) ?_
    · refine hin.resolve_right ?_
      simp [(closer?_of_told htold hscope).2]
    · rw [hp, advance_at_end ha, ← hp']

end Scan

/-! ### Whole runs -/

/-- An include tag that has been closed. -/
structure Request where
  /-- The tag. -/
  tag : OpenTag
  /-- The mark that has closed it; none at the end of a template. -/
  mark : List Char
  /-- What was behind the mark. -/
  before : List Char

namespace Request

/-- The question that a closed tag stands for. -/
def ask (origin : Option String) (r : Request) : Ask := ⟨r.tag.path, origin⟩

/-- What is behind the end of the tag. -/
def behind (r : Request) : List Char := r.mark.reverse ++ r.before

/-- The answer, put in right behind the end of the tag. -/
def splice (r : Request) (text : String) : Splice := ⟨r.behind.length, text⟩

end Request

namespace Scan

/-- The include tag that the next turn closes, and where. -/
def request? (s : Scan) : Option Request := s.closes?.map fun t => ⟨t, s.ahead.take 2, s.behind⟩

/-- The include tags that are closed in so many turns, in order. -/
def requests : Nat → Scan → List Request
  | 0, _ => []
  | n + 1, s =>
    s.request?.toList ++
      match s.turn with
      | .more s => requests n s
      | _ => []

variable {s s₁ s₂ : Scan} {n : Nat}

theorem requests_more (h : s.turn = .more s₁) (n : Nat) :
    s.requests (n + 1) = s.request?.toList ++ s₁.requests n := by
  rw [requests, h]

/-- What has been read stays as it is. -/
theorem turn_behind (s : Scan) : s.behind <:+ s.turn.scan.behind := by
  obtain ⟨read, asked, hmoves, -⟩ := s.turn_moves
  rw [hmoves.behind]
  exact List.suffix_append _ _

theorem Takes.behind (h : Takes n s s₁) : s.behind <:+ s₁.behind := by
  induction h with
  | refl s => exact List.suffix_refl _
  | @turn n s s₁ s₂ ht _ ih =>
    have hone := s.turn_behind
    rw [ht] at hone
    exact hone.trans ih

/-- A turn before the end of a template reads something. -/
theorem length_behind_of_more (ha : s.ahead ≠ []) (h : s.turn = .more s₁) :
    s.behind.length < s₁.behind.length := by
  obtain ⟨c, rest, hc⟩ := List.exists_cons_of_ne_nil ha
  rw [turn_cons hc] at h
  obtain ⟨read, asked, hmoves, hread⟩ := reading_step hc
  have hne := List.length_pos_iff.2 (hread s₁ h)
  rw [h] at hmoves
  rw [show s₁.behind = _ from hmoves.behind, List.length_append, List.length_reverse]
  omega

/-- What a run has put into a template and asked for: the closed include tags are `rs`, and `texts`
are the answers. -/
structure Spliced (s₀ : Scan) (rs : List Request) (texts : List String) (s : Scan) : Prop where
  /-- One question for each closed tag, in order, and nothing else; each is answered. -/
  asked : s₀.engine.askAll (rs.map (·.ask s₀.origin)) = (texts.map some, s.engine)
  /-- The tags are closed by their mark or at the end, and that is where they still stand. -/
  marks : ∀ r ∈ rs, (r.mark = ['%', '\x7d'] ∨ r.mark = []) ∧ r.behind <:+ s.behind
  /-- Each tag ends further on than those before it. -/
  ordered : rs.Pairwise (·.behind.length < ·.behind.length)
  /-- The texts are what has been put in, right behind the ends of the tags. -/
  restored : unsplice (List.zipWith Request.splice rs texts).reverse s.expanded = some s₀.expanded
  /-- The template is the same. -/
  origin : s.origin = s₀.origin

theorem Moves.expanded {read : List Char} (h : Moves s read none s₁) : s₁.expanded = s.expanded := by
  obtain ⟨rest, hahead, hahead₁⟩ := h.ahead
  simp [Scan.expanded, h.behind, hahead, hahead₁, answer]

theorem request?_mark {r : Request} (h : s.request? = some r) :
    (r.mark = ['%', '\x7d'] ∨ r.mark = []) ∧ r.mark = s.ahead.take 2 ∧ r.before = s.behind := by
  obtain ⟨t, hcloses, rfl⟩ := Option.map_eq_some_iff.1 h
  obtain ⟨_, _, -, -, -, hmark | ⟨hnil, -⟩⟩ := closes?_eq_some.1 hcloses
  · exact ⟨.inl hmark, rfl, rfl⟩
  · exact ⟨.inr (by rw [hnil]; rfl), rfl, rfl⟩

/-- A tag is closed by the first turn or by a later one. -/
theorem mem_requests {r : Request} (h : r ∈ s.requests (n + 1)) :
    s.request? = some r ∨ ∃ s₁, s.turn = .more s₁ ∧ r ∈ s₁.requests n := by
  rw [requests, List.mem_append, Option.mem_toList] at h
  refine h.imp id fun h => ?_
  cases ht : s.turn with
  | more s₁ => exact ⟨s₁, rfl, by rwa [ht] at h⟩
  | done s₁ => rw [ht] at h; cases h
  | fault f place s₁ => rw [ht] at h; cases h

/-- What has been read is behind the ends of the tags that are closed later. -/
theorem behind_of_mem_requests {r : Request} (h : r ∈ s.requests n) : s.behind <:+ r.behind := by
  induction n generalizing s with
  | zero => cases h
  | succ n ih =>
    rcases mem_requests h with hfirst | ⟨s₁, ht, hlater⟩
    · obtain ⟨-, -, hbefore⟩ := request?_mark hfirst
      rw [Request.behind, hbefore]
      exact List.suffix_append _ _
    · have hone := s.turn_behind
      rw [ht] at hone
      exact hone.trans (ih hlater)

/-- Before the end of a template, tags end further on. -/
theorem length_of_mem_requests {r : Request} (ha : s.ahead ≠ []) (h : r ∈ s.requests n) :
    s.behind.length < r.behind.length := by
  cases n with
  | zero => cases h
  | succ n =>
    rcases mem_requests h with hfirst | ⟨s₁, ht, hlater⟩
    · obtain ⟨-, hmark, hbefore⟩ := request?_mark hfirst
      have hpos := List.length_pos_iff.2 ha
      rw [Request.behind, hmark, hbefore, List.length_append, List.length_reverse, List.length_take]
      omega
    · exact Nat.lt_of_lt_of_le (length_behind_of_more ha ht) (behind_of_mem_requests hlater).length_le

/-- **Runs.**  The induction is on the turns, the first one taken off, so that its text is the last
to be taken out again. -/
theorem Takes.spliced (h : Takes n s s₁) (hs : Sound s) :
    ∃ texts, Spliced s (s.requests n) texts s₁ := by
  induction h with
  | refl s => exact ⟨[], rfl, by simp [requests], .nil, rfl, rfl⟩
  | @turn n s s₁ s₂ ht hrun ih =>
    obtain ⟨texts, hrest⟩ := ih (hs.turn ht)
    rw [requests_more ht]
    cases turn_serves hs with
    | nothing hc read hm _ =>
      have hnone : s.request? = none := by rw [request?, hc]; rfl
      rw [ht] at hm
      have hengine : s₁.engine = s.engine := hm.engine
      have horigin : s₁.origin = s.origin := hm.origin
      have hexpanded : s₁.expanded = s.expanded := hm.expanded
      rw [hnone]
      exact ⟨texts, by rw [← hengine, ← horigin]; exact hrest.asked, hrest.marks, hrest.ordered,
        by rw [← hexpanded]; exact hrest.restored, hrest.origin.trans horigin⟩
    | found t hc text hfound s' hturn hbehind hahead _ hengine horigin =>
      obtain rfl : s₁ = s' := Progress.more.inj (ht.symm.trans hturn)
      set r : Request := ⟨t, s.ahead.take 2, s.behind⟩ with hr
      have hrequest : s.request? = some r := by rw [request?, hc]; rfl
      have hne : s₁.ahead ≠ [] := by
        intro hnil
        rw [hahead] at hnil
        exact Engine.resolve_ne_empty hfound
          (String.toList_eq_nil_iff.1 (List.append_eq_nil_iff.1 hnil).1)
      have hplace : r.behind = s₁.behind := hbehind.symm
      rw [hrequest]
      refine ⟨text :: texts, ?_, ?_, ?_, ?_, hrest.origin.trans horigin⟩
      · have hlater := hrest.asked
        rw [horigin, hengine] at hlater
        simp only [Option.toList_some, List.singleton_append, List.map_cons, Engine.askAll]
        rw [show r.ask s.origin = ⟨t.path, s.origin⟩ from rfl, hlater, hfound]
      · intro r' hr'
        rcases List.mem_cons.1 hr' with rfl | hr'
        · exact ⟨(request?_mark hrequest).1, hplace ▸ hrun.behind⟩
        · exact hrest.marks r' hr'
      · refine List.pairwise_cons.2 ⟨fun r' hr' => ?_, hrest.ordered⟩
        rw [hplace]
        exact length_of_mem_requests hne hr'
      · have hinsert := Splice.delete_insert text s₁.behind.reverse (s.ahead.drop 2)
        have hexpanded : s.expanded = s₁.behind.reverse ++ s.ahead.drop 2 := by
          simp [Scan.expanded, hbehind]
        have hexpanded₁ : s₁.expanded =
            s₁.behind.reverse ++ (text.toList ++ s.ahead.drop 2) := by
          rw [Scan.expanded, hahead]
        rw [List.length_reverse, ← hexpanded₁, ← hexpanded] at hinsert
        simp only [Option.toList_some, List.singleton_append, List.zipWith_cons_cons,
          List.reverse_cons]
        rw [unsplice_append, hrest.restored, Request.splice, hplace]
        simp [unsplice, hinsert]
    | missed t hc _ place s' hturn _ => exact absurd (ht.symm.trans hturn) (by simp)

/-- **What is spliced into a template.**  After any number of turns: what has been read is never
changed by a later turn; the include tags closed so far have been asked for one by one, in the order
in which they end in the template, with their own trimmed text and the origin of the template, and
their answers stand right behind their ends; taken out again, the last one first, they leave the
template that the scan started with.  The next turn asks for the include tag that it closes, if it
closes one, and a miss ends the scan with the path of that tag. -/
theorem takes_requests {engine : Engine} {origin : Option String} {source : String}
    (h : Takes n (start engine origin source) s) :
    (∀ s₁, Reaches s s₁ → s.behind <:+ s₁.behind ∧ s.behind <:+ s₁.turn.scan.behind) ∧
    (∃ texts, Spliced (start engine origin source) ((start engine origin source).requests n)
      texts s) ∧
    (∀ answer asked rs, engine.added = .rule answer asked :: rs → ∃ rs', s.engine.added =
      .rule answer ((((start engine origin source).requests n).map (·.ask origin)).reverse ++
        asked) :: rs') ∧
    Serves s := by
  have hstart := sound_start engine origin source
  obtain ⟨texts, hspliced⟩ := h.spliced hstart
  refine ⟨?_, ⟨texts, hspliced⟩, ?_, turn_serves (hstart.takes h)⟩
  · rintro s₁ ⟨k, hk⟩
    exact ⟨hk.behind, hk.behind.trans s₁.turn_behind⟩
  · intro answer asked rs hadded
    have hengine := congrArg Prod.snd hspliced.asked
    obtain ⟨rs', hrs'⟩ := Engine.added_askAll hadded
      (((start engine origin source).requests n).map (·.ask origin))
    refine ⟨rs', ?_⟩
    rw [show s.engine = _ from hengine.symm]
    exact hrs'

/-- The scan after so many turns, if none of them ends it. -/
def after : Nat → Scan → Option Scan
  | 0, s => some s
  | n + 1, s =>
    match s.turn with
    | .more s => after n s
    | _ => none

theorem takes_of_after (h : s.after n = some s₁) : Takes n s s₁ := by
  induction n generalizing s with
  | zero =>
    cases h
    exact .refl _
  | succ n ih =>
    rw [after] at h
    cases ht : s.turn with
    | more s₂ =>
      rw [ht] at h
      exact .turn ht (ih h)
    | done s₂ => rw [ht] at h; cases h
    | fault f place s₂ => rw [ht] at h; cases h

/-- An engine that knows two texts, and one of them includes the other one. -/
def nestingEngine : Engine :=
  { added := [.ofMap [("x", "b\x7b% include y %\x7d"), ("y", "c")] 9] }

theorem takes_requests_nested :
    ∃ s, Takes 28 (start nestingEngine none "a\x7b% include x %\x7dd") s ∧
      String.ofList s.expanded = "a\x7b% include x %\x7db\x7b% include y %\x7dcd" ∧
      (requests 28 (start nestingEngine none "a\x7b% include x %\x7dd")).map (·.tag.path) =
        ["x", "y"] ∧
      ∃ texts, Spliced (start nestingEngine none "a\x7b% include x %\x7dd")
        (requests 28 (start nestingEngine none "a\x7b% include x %\x7dd")) texts s := by
  have hsome : (after 28 (start nestingEngine none "a\x7b% include x %\x7dd")).isSome := by
    decide +kernel
  have hexpanded : (after 28 (start nestingEngine none "a\x7b% include x %\x7dd")).map
      (fun s => String.ofList s.expanded) =
        some "a\x7b% include x %\x7db\x7b% include y %\x7dcd" := by decide +kernel
  obtain ⟨s, hs⟩ := Option.isSome_iff_exists.1 hsome
  rw [hs] at hexpanded
  exact ⟨s, takes_of_after hs, Option.some.inj hexpanded, by decide +kernel,
    (takes_requests (takes_of_after hs)).2.1⟩

end Scan

end Stencil.Template
