import Stencil.Proofs.Include.Forget
import Stencil.Proofs.Template.Moves

/-!
# What the course of a scan depends on

A scan keeps some of what it does for its reports only: what is behind it, where its tags started,
what it has asked and what it has told of that.  If the resolvers have no memory, a scan goes on in
the same way without all this.

* `Scan.bare b rest` : a scan without it, with `b` behind and `rest` in addition ahead.
* `Scan.bare_turn` : a turn of a bare scan comes to the bare result of the turn, if the two know the
  same of what is ahead.
* `Scan.bare_step` : it also does if the text ahead of one of them ends where the other one has a
  blank.
* `Scan.run_eq_of_turn` : so scans that are the same when bare come to the same instructions, or to
  the same fault.
-/

namespace Stencil.Template

/-- A tag without the place at which it starts. -/
def OpenTag.bare (t : OpenTag) : OpenTag := { t with before := [] }

@[simp] theorem OpenTag.bare_scope (t : OpenTag) : t.bare.scope = t.scope := rfl

@[simp] theorem OpenTag.bare_text (t : OpenTag) : t.bare.text = t.text := rfl

@[simp] theorem OpenTag.bare_before (t : OpenTag) : t.bare.before = [] := rfl

@[simp] theorem OpenTag.bare_bare (t : OpenTag) : t.bare.bare = t.bare := rfl

/-- A scan without what it keeps for its reports, with `b` behind and `rest` in addition ahead. -/
def Scan.bare (s : Scan) (b rest : List Char) : Scan :=
  { s with
    behind := b
    ahead := s.ahead ++ rest
    tags := s.tags.map OpenTag.bare
    engine := s.engine.forget
    events := [] }

/-- What comes of reading, without what a scan keeps for its reports; of a fault only what it is, and
not where it was met. -/
def Progress.bare (rest : List Char) : Progress → Progress
  | .more s => .more (s.bare [] rest)
  | .done s => .done (s.bare [] rest)
  | .fault f _ _ => .fault f ⟨[], [], []⟩ (.start {} none "")

/-- A choice that bare scans make alike. -/
theorem Progress.bare_ite {a b : Prop} [Decidable a] [Decidable b] {p p' q q' : Progress}
    {rest : List Char} (h : a ↔ b) (hpos : b → p.bare [] = q.bare rest)
    (hneg : ¬ b → p'.bare [] = q'.bare rest) :
    (if a then p else p').bare [] = (if b then q else q').bare rest := by
  by_cases hb : b
  · rw [if_pos hb, if_pos (h.2 hb)]
    exact hpos hb
  · rw [if_neg hb, if_neg (mt h.1 hb)]
    exact hneg hb

namespace Scan

variable {s : Scan} {rest tail : List Char} {c : Char}

@[simp] theorem bare_ahead (s : Scan) (b rest : List Char) :
    (s.bare b rest).ahead = s.ahead ++ rest := rfl

@[simp] theorem bare_tags (s : Scan) (b rest : List Char) :
    (s.bare b rest).tags = s.tags.map OpenTag.bare := rfl

theorem bare_bare (s : Scan) (b b' rest rest' : List Char) :
    (s.bare b rest).bare b' rest' = s.bare b' (rest ++ rest') := by
  have htags : (s.tags.map OpenTag.bare).map OpenTag.bare = s.tags.map OpenTag.bare := by simp
  simp only [bare, Engine.forget_forget, htags, List.append_assoc]

@[simp] theorem bare_scope? (s : Scan) (b rest : List Char) : (s.bare b rest).scope? = s.scope? := by
  cases ht : s.tags <;> simp [scope?, ht]

theorem bare_collect (s : Scan) (c : Char) (b rest : List Char) :
    (s.bare b rest).collect c = (s.collect c).bare b rest := by
  cases ht : s.tags <;> simp [collect, ht, bare, OpenTag.bare]

theorem bare_advance {n : Nat} (h : n ≤ s.ahead.length) (b rest : List Char) :
    (s.bare b rest).advance n = (s.advance n).bare ((s.ahead.take n).reverse ++ b) rest := by
  simp [advance_eq, bare, List.take_append_of_le_length h, List.drop_append_of_le_length h]

theorem bare_emit (s : Scan) (i : Instr) (b rest : List Char) :
    (s.bare b rest).emit i = (s.emit i).bare b rest := rfl

theorem bare_flushRaw (s : Scan) (b rest : List Char) :
    (s.bare b rest).flushRaw = s.flushRaw.bare b rest := by
  cases hr : s.raw <;> simp [flushRaw, hr, bare, emit]

theorem bare_openTag (s : Scan) (scope : Scope) (before b rest : List Char) :
    (s.bare b rest).openTag scope [] = (s.openTag scope before).bare b rest := by
  cases ht : s.tags with
  | nil =>
    rw [openTag_outside ht, openTag_outside (by simp [ht]), bare_flushRaw]
    rfl
  | cons t ts =>
    have hbare : (s.bare b rest).tags = t.bare :: ts.map OpenTag.bare := by simp [ht]
    rw [openTag_inside ht, openTag_inside hbare]
    simp [bare, ht, OpenTag.bare]

/-! ### The end of a tag -/

theorem bare_setTags (s : Scan) (ts : List OpenTag) (b rest : List Char) :
    { s.bare b rest with tags := ts.map OpenTag.bare } =
      ({ s with tags := ts }).bare b rest := rfl

theorem bare_splice (hpure : s.engine.IsPure) (t t' : OpenTag) (path : String) (b rest : List Char) :
    ((s.bare b rest).splice t path).bare [] = (s.splice t' path).bare rest := by
  have hanswer : (s.engine.forget.resolve ⟨path, s.origin⟩).1 =
      (s.engine.resolve ⟨path, s.origin⟩).1 := hpure.resolve_answer.symm
  have hengine : (s.engine.forget.resolve ⟨path, s.origin⟩).2.1.forget =
      (s.engine.resolve ⟨path, s.origin⟩).2.1.forget := by
    rw [Engine.resolve_forget, Engine.resolve_forget, Engine.forget_forget]
  have htags : (s.tags.map OpenTag.bare).map OpenTag.bare = s.tags.map OpenTag.bare := by simp
  cases hfound : (s.engine.resolve ⟨path, s.origin⟩).1 with
  | some text =>
    rw [splice_found t' hfound, splice_found (s := s.bare b rest) t (hanswer.trans hfound)]
    simp only [Progress.bare, bare, htags, hengine, List.append_assoc, List.append_nil]
  | none =>
    rw [splice_missed t' hfound, splice_missed (s := s.bare b rest) t (hanswer.trans hfound)]
    rfl

theorem bare_more (s : Scan) (b rest : List Char) :
    (Progress.more (s.bare b rest)).bare [] = (Progress.more s).bare rest := by
  simp only [Progress.bare, bare_bare, List.append_nil]

theorem bare_closeTag (hpure : s.engine.IsPure) (t : OpenTag) (ts : List OpenTag)
    (b rest : List Char) :
    ((s.bare b rest).closeTag t.bare (ts.map OpenTag.bare)).bare [] =
      (s.closeTag t ts).bare rest := by
  cases hinstr : t.scope.instr? (String.ofList (Text.trim t.text.reverse)) with
  | some i =>
    rw [closeTag_eq_emit hinstr, closeTag_eq_emit (t := t.bare) hinstr]
    exact bare_more (({ s with tags := ts }).emit i) b rest
  | none =>
    rcases Scope.instr?_eq_none hinstr with hscope | ⟨hscope, hempty⟩ | hscope
    · rw [closeTag_include hscope, closeTag_include (t := t.bare) hscope]
      exact bare_splice (s := { s with tags := ts }) hpure _ _ _ b rest
    · rw [closeTag_unnamed hscope hempty, closeTag_unnamed (t := t.bare) hscope hempty]
      rfl
    · rw [closeTag_untold hscope, closeTag_untold (t := t.bare) hscope]
      exact bare_more { s with tags := ts } b rest

theorem bare_endTag (hpure : s.engine.IsPure) (t : OpenTag) (ts : List OpenTag)
    (upTo upTo' b rest : List Char) :
    ((s.bare b rest).endTag t.bare (ts.map OpenTag.bare) upTo).bare [] =
      (s.endTag t ts upTo').bare rest := by
  refine Progress.bare_ite .rfl (fun _ => ?_) fun _ => bare_closeTag hpure t ts b rest
  simp only [nameTag, OpenTag.bare_text, OpenTag.bare_before, bare_setTags]
  cases Scope.named? (Text.trim t.text.reverse) with
  | none => rfl
  | some scope =>
    have hpure₁ : (({ s with tags := ts }).openTag scope t.before).engine.IsPure := by
      rwa [openTag_engine]
    simp only [bare_openTag _ _ t.before, bare_tags, openTag_tags, List.map_cons]
    exact bare_closeTag hpure₁ _ _ b rest

/-! ### Characters -/

/-- What can follow the text of one of two scans without its being read in another way: nothing, or
a blank. -/
def Follows (rest : List Char) : Prop := rest = [] ∨ rest.head? = some ' '

/-- The next character but one is the same, unless one of the scans has none there. -/
theorem Follows.next (h : Follows rest) (ha : s.ahead = c :: tail) :
    ((s.ahead ++ rest).drop 1).head? = (s.ahead.drop 1).head? ∨
      (s.ahead.drop 1).head? = none ∧ ((s.ahead ++ rest).drop 1).head? = some ' ' := by
  rw [ha]
  cases tail with
  | cons d tail => exact .inl rfl
  | nil =>
    rcases h with rfl | h
    · exact .inl rfl
    · exact .inr ⟨rfl, by simpa using h⟩

theorem Follows.opening? (h : Follows rest) (ha : s.ahead = c :: tail) :
    ((s.ahead ++ rest).drop 1).head?.bind Scope.opening? =
      (s.ahead.drop 1).head?.bind Scope.opening? := by
  rcases h.next ha with h | ⟨h, h'⟩
  · rw [h]
  · rw [h, h']; rfl

theorem Follows.brace (h : Follows rest) (ha : s.ahead = c :: tail) :
    ((s.ahead ++ rest).drop 1).head? = some '\x7d' ↔ (s.ahead.drop 1).head? = some '\x7d' := by
  rcases h.next ha with h | ⟨h, h'⟩
  · rw [h]
  · rw [h, h']; decide

theorem two_le_length {d : Char} (h : (s.ahead.drop 1).head? = some d) : 2 ≤ s.ahead.length := by
  match hs : s.ahead, h with
  | _ :: _ :: _, _ => simp

theorem bare_gather (ha : s.ahead = c :: tail) (rest : List Char) :
    (Progress.more (((s.bare [] rest).collect c).advance 1)).bare [] =
      (Progress.more ((s.collect c).advance 1)).bare rest := by
  rw [bare_collect, bare_advance (by simp [ha])]
  exact bare_more _ _ _

theorem bare_refuse (s : Scan) (got rest : List Char) :
    ((s.bare [] rest).refuse got).bare [] = (s.refuse got).bare rest := rfl

theorem bare_readOpening (hr : Follows rest) (h2 : 2 ≤ s.ahead.length) (scope : Scope) :
    ((s.bare [] rest).readOpening scope).bare [] = (s.readOpening scope).bare rest := by
  have hopen : ((s.bare [] rest).openTag scope (s.bare [] rest).behind).advance 2 =
      ((s.openTag scope s.behind).advance 2).bare (s.ahead.take 2).reverse rest := by
    rw [show (s.bare [] rest).behind = [] from rfl, bare_openTag _ _ s.behind,
      bare_advance (by simpa using h2)]
    simp
  set s₁ := (s.openTag scope s.behind).advance 2 with hs₁
  have hdash : (s₁.ahead ++ rest).head? = some '-' ↔ s₁.ahead.head? = some '-' := by
    cases s₁.ahead with
    | cons d tail => rfl
    | nil =>
      rcases hr with rfl | hr
      · rfl
      · simp [hr]
  simp only [readOpening, hopen, ← hs₁, bare_ahead, hdash]
  split
  next h =>
    have h1 : 1 ≤ s₁.ahead.length := by
      cases hs : s₁.ahead with
      | nil => rw [hs] at h; cases h
      | cons d tail => simp
    rw [bare_advance h1, bare_emit]
    exact bare_more _ _ _
  · exact bare_more _ _ _

theorem bare_readCloser (hpure : s.engine.IsPure) (hr : Follows rest) (ha : s.ahead = c :: tail)
    (closed : Scope) :
    ((s.bare [] rest).readCloser c closed).bare [] = (s.readCloser c closed).bare rest := by
  cases ht : s.tags with
  | nil =>
    simp only [readCloser, bare_tags, ht, List.map_nil]
    exact bare_gather ha rest
  | cons t ts =>
    simp only [readCloser, bare_tags, ht, List.map_cons]
    refine Progress.bare_ite .rfl (fun _ => bare_refuse _ _ _) fun _ => ?_
    refine Progress.bare_ite (and_congr .rfl (hr.brace ha)) (fun h => ?_) fun _ => bare_gather ha rest
    rw [bare_advance (two_le_length h.2)]
    exact bare_closeTag (by rwa [advance_eq]) _ _ _ _

/-- If only one of the scans has a character after a percent sign, that sign is not refused. -/
theorem bare_readPercent (hpure : s.engine.IsPure) (hr : Follows rest) (ha : s.ahead = '%' :: tail)
    (hmore : rest = [] ∨ ∃ s₁, s.readPercent = .more s₁) :
    ((s.bare [] rest).readPercent).bare [] = s.readPercent.bare rest := by
  have hboth (h : (s.ahead.drop 1).head? = some '\x7d') :
      (Progress.more ((((s.bare [] rest).collect '%').collect '\x7d').advance 2)).bare [] =
        (Progress.more (((s.collect '%').collect '\x7d').advance 2)).bare rest := by
    rw [bare_collect, bare_collect, bare_advance (by simpa using two_le_length h)]
    exact bare_more _ _ _
  cases ht : s.tags with
  | nil =>
    simp only [readPercent, bare_tags, ht, List.map_nil]
    exact Progress.bare_ite (hr.brace ha) hboth fun _ => bare_gather ha rest
  | cons t ts =>
    simp only [readPercent, ht] at hmore
    simp only [readPercent, bare_tags, ht, List.map_cons]
    refine Progress.bare_ite (hr.brace ha) (fun h => ?_) fun h => ?_
    · refine Progress.bare_ite .rfl (fun _ => hboth h) fun _ => ?_
      rw [bare_advance (two_le_length h)]
      exact bare_endTag (by rwa [advance_eq]) _ _ _ _ _ _
    · refine Progress.bare_ite .rfl (fun hend => ?_) fun _ => bare_gather ha rest
      rcases hmore with rfl | ⟨s₁, hmore⟩
      · rw [bare_ahead, List.append_nil]
        exact bare_refuse _ _ _
      · rw [if_neg h, if_pos hend] at hmore
        cases hmore

theorem bare_readPlain (ha : s.ahead = c :: tail) (rest : List Char) :
    ((s.bare [] rest).readPlain c).bare [] = (s.readPlain c).bare rest := by
  have hskip (s : Scan) (hs : s.ahead = c :: tail) :
      (Progress.more ((s.bare [] rest).advance 1)).bare [] =
        (Progress.more (s.advance 1)).bare rest := by
    rw [bare_advance (by simp [hs])]
    exact bare_more _ _ _
  cases ht : s.tags with
  | nil =>
    simp only [readPlain, bare_tags, ht, List.map_nil]
    exact bare_gather ha rest
  | cons t ts =>
    simp only [readPlain, bare_tags, ht, List.map_cons]
    refine Progress.bare_ite .rfl (fun _ => ?_) fun _ => ?_
    · refine Progress.bare_ite .rfl (fun _ => hskip s ha) fun _ => ?_
      simp only [nameTag, OpenTag.bare_text, OpenTag.bare_before, bare_setTags]
      cases Scope.named? (Text.trim t.text.reverse) with
      | none => rfl
      | some scope =>
        simp only [bare_openTag _ _ t.before]
        exact hskip _ (by simpa using ha)
    · refine Progress.bare_ite .rfl (fun _ => ?_) fun _ => bare_gather ha rest
      exact Progress.bare_ite .rfl (fun _ => hskip s ha) fun _ => bare_refuse _ _ _

/-! ### Turns -/

/-- **A character.**  A bare scan reads it as the scan itself does, also if more follows there, after
a blank. -/
theorem bare_step (hpure : s.engine.IsPure) (hr : Follows rest) (ha : s.ahead = c :: tail)
    (hmore : rest = [] ∨ ∃ s₁, s.step c = .more s₁) :
    ((s.bare [] rest).step c).bare [] = (s.step c).bare rest := by
  rw [step.eq_def] at hmore
  rw [step.eq_def, step.eq_def]
  split
  · rw [bare_scope?, bare_ahead, hr.opening? ha]
    refine Progress.bare_ite .rfl (fun _ => bare_refuse _ _ _) fun _ => ?_
    cases hop : (s.ahead.drop 1).head?.bind Scope.opening? with
    | none => exact bare_gather ha rest
    | some scope =>
      obtain ⟨d, hd, -⟩ := Option.bind_eq_some_iff.1 hop
      exact bare_readOpening hr (two_le_length hd) scope
  · exact bare_readCloser hpure hr ha _
  · exact bare_readCloser hpure hr ha _
  · exact bare_readPercent hpure hr ha hmore
  · exact bare_readPlain ha rest

theorem bare_flush (hpure : s.engine.IsPure) :
    (s.bare [] []).flush.bare [] = s.flush.bare [] := by
  cases ht : s.tags with
  | nil =>
    simp only [flush, bare_tags, ht, List.map_nil, bare_flushRaw]
    simp [Progress.bare, bare_bare]
  | cons t ts =>
    simp only [flush, bare_tags, ht, List.map_cons]
    refine Progress.bare_ite .rfl (fun _ => by simp [Progress.bare, bare_bare]) fun _ => ?_
    have hend := bare_endTag hpure t ts (s.bare [] []).behind s.behind [] []
    generalize (s.bare [] []).endTag t.bare (ts.map OpenTag.bare) (s.bare [] []).behind = p at hend ⊢
    generalize s.endTag t ts s.behind = q at hend ⊢
    cases p with
    | more s₁ =>
      cases q with
      | more s₂ =>
        have hsame : s₁.bare [] [] = s₂.bare [] [] := by simpa only [Progress.bare, Progress.more.injEq] using hend
        have hahead : s₁.ahead = s₂.ahead := by
          simpa [bare] using congrArg Scan.ahead hsame
        refine Progress.bare_ite (by rw [hahead]) (fun _ => ?_) fun _ => hend
        simp only [Progress.bare, hsame]
      | done s₂ => cases hend
      | fault f place s₂ => cases hend
    | done s₁ => cases q <;> first | exact hend | cases hend
    | fault f place s₁ => cases q <;> first | exact hend | cases hend

/-- **A turn.**  It comes to the same for a scan and for what is left of it when it is bare. -/
theorem bare_turn (hpure : s.engine.IsPure) : (s.bare [] []).turn.bare [] = s.turn.bare [] := by
  cases ha : s.ahead with
  | nil =>
    rw [turn.eq_def, turn.eq_def, ha, bare_ahead, ha]
    exact bare_flush hpure
  | cons c tail =>
    have hbare : (s.bare [] []).ahead = c :: tail := by simp [ha]
    rw [turn_cons ha, turn_cons hbare]
    exact bare_step hpure (.inl rfl) ha (.inl rfl)

/-- A turn that reads on reads the same if more follows, after a blank. -/
theorem bare_turn_more {s₁ : Scan} (hpure : s.engine.IsPure) (hr : Follows rest) (ha : s.ahead ≠ [])
    (hturn : s.turn = .more s₁) :
    ((s.bare [] rest).turn).bare [] = (Progress.more s₁).bare rest := by
  obtain ⟨c, tail, ha⟩ := List.exists_cons_of_ne_nil ha
  have hbare : (s.bare [] rest).ahead = c :: (tail ++ rest) := by simp [ha]
  rw [turn_cons hbare]
  rw [turn_cons ha] at hturn
  rw [bare_step hpure hr ha (.inr ⟨s₁, hturn⟩), hturn]

/-! ### Runs -/

theorem isPure_turn (hpure : s.engine.IsPure) : s.turn.scan.engine.IsPure := by
  obtain ⟨read, asked, hmoves, -⟩ := s.turn_moves
  rw [hmoves.engine]
  cases asked with
  | none => exact hpure
  | some path => exact hpure.resolve

theorem isPure_of_reaches {s₁ : Scan} (hpure : s.engine.IsPure) (h : Reaches s s₁) :
    s₁.engine.IsPure := by
  obtain ⟨n, hn⟩ := h
  induction hn with
  | refl => exact hpure
  | turn hturn _ ih =>
    have hpure₁ := isPure_turn hpure
    rw [hturn] at hpure₁
    exact ih hpure₁

theorem turn_eq_of_bare {s' : Scan} (hpure : s.engine.IsPure) (hs : s.bare [] [] = s'.bare [] []) :
    s.turn.bare [] = s'.turn.bare [] := by
  have hengine : s.engine.forget = s'.engine.forget := congrArg Scan.engine hs
  have hpure' : s'.engine.IsPure := by
    rw [← Engine.isPure_forget] at hpure ⊢
    rwa [← hengine]
  rw [← bare_turn hpure, ← bare_turn hpure', hs]

/-- **A run.**  Two scans whose next turns come to the same when bare come to the same in the end,
in the same number of turns. -/
theorem run_eq_of_turn {s' : Scan} (hpure : s.engine.IsPure)
    (hturn : s.turn.bare [] = s'.turn.bare []) (n : Nat) :
    (s.run n).map (Progress.bare []) = (s'.run n).map (Progress.bare []) := by
  induction n generalizing s s' with
  | zero => rfl
  | succ n ih =>
    have hpure₁ := isPure_turn hpure
    rw [run, run]
    generalize s.turn = p at hturn hpure₁ ⊢
    generalize s'.turn = q at hturn ⊢
    cases p with
    | more s₁ =>
      cases q with
      | more s₂ =>
        have hsame : s₁.bare [] [] = s₂.bare [] [] := by
          simpa only [Progress.bare, Progress.more.injEq] using hturn
        exact ih hpure₁ (turn_eq_of_bare hpure₁ hsame)
      | done s₂ => cases hturn
      | fault f place s₂ => cases hturn
    | done s₁ => cases q <;> first | exact congrArg some hturn | cases hturn
    | fault f place s₁ => cases q <;> first | exact congrArg some hturn | cases hturn

end Scan

end Stencil.Template
