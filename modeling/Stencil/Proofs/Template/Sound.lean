import Stencil.Proofs.Template.Tags

/-!
# What holds all along a scan

While a tag is open, all text outside of tags belongs to instructions; a tag has been opened before
the place that the scan has reached; and the name of a tag is collected without blanks.

* `Scan.Sound` : these invariants.
* `Scan.Sound.turn` : a turn keeps them.
* `Scan.sound_of_reaches` : so they hold of every scan of a template.
-/

namespace Stencil.Template

/-- A tag that was opened before a place, given by what is behind it. -/
structure OpenTag.StartsIn (t : OpenTag) (behind : List Char) : Prop where
  /-- What was behind the start of the tag is behind the place. -/
  suffix : t.before <:+ behind
  /-- There is more behind the place. -/
  length : t.before.length < behind.length
  /-- A name has no blanks. -/
  name : t.scope = .tagName → ∀ c ∈ t.text, Text.isBlank c = false

theorem OpenTag.StartsIn.mono {t : OpenTag} {behind behind' : List Char} (h : t.StartsIn behind)
    (hle : behind <:+ behind') : t.StartsIn behind' :=
  ⟨h.suffix.trans hle, Nat.lt_of_lt_of_le h.length hle.length_le, h.name⟩

namespace Scan

/-- The invariants of a scan. -/
structure Sound (s : Scan) : Prop where
  /-- While a tag is open, each text outside of tags belongs to an instruction. -/
  raw : s.tags ≠ [] → s.raw = []
  /-- The open tags start before the place that the scan has reached. -/
  tags : ∀ t ∈ s.tags, t.StartsIn s.behind

variable {s s₁ : Scan} {t : OpenTag} {ts : List OpenTag} {c : Char} {rest : List Char}

theorem sound_start (e : Engine) (o : Option String) (source : String) :
    Sound (start e o source) :=
  ⟨fun h => absurd rfl h, fun _ h => absurd h List.not_mem_nil⟩

/-! ### Only the end of a template ends a scan -/

theorem nameTag_ne_done (s : Scan) (t : OpenTag) (ts : List OpenTag) (upTo : List Char) (s₁ : Scan) :
    s.nameTag t ts upTo ≠ .done s₁ := by
  intro hdone
  simp only [Scan.nameTag] at hdone
  split at hdone <;> cases hdone

theorem closeTag_ne_done (s : Scan) (t : OpenTag) (ts : List OpenTag) (s₁ : Scan) :
    s.closeTag t ts ≠ .done s₁ := by
  intro hdone
  rcases t with ⟨scope, text, before⟩
  cases scope with
  | includePath =>
    simp only [Scan.closeTag, splice] at hdone
    split at hdone <;> cases hdone
  | blockName =>
    simp only [Scan.closeTag] at hdone
    split at hdone <;> cases hdone
  | tagName => cases hdone
  | header _ => cases hdone
  | echoed => cases hdone
  | statement => cases hdone
  | ending _ => cases hdone

theorem endTag_ne_done (s : Scan) (t : OpenTag) (ts : List OpenTag) (upTo : List Char) (s₁ : Scan) :
    s.endTag t ts upTo ≠ .done s₁ := by
  intro hdone
  rw [Scan.endTag] at hdone
  split at hdone
  · cases hname : s.nameTag t ts upTo with
    | more s₂ =>
      simp only [hname] at hdone
      split at hdone
      · cases hdone
      · exact closeTag_ne_done _ _ _ _ hdone
    | done s₂ => exact nameTag_ne_done s t ts upTo s₂ hname
    | fault _ _ _ => simp [hname] at hdone
  · exact closeTag_ne_done s t ts s₁ hdone

namespace Sound

theorem raw_nil (h : Sound s) (ht : s.tags = t :: ts) : s.raw = [] := h.raw (by simp [ht])

theorem head (h : Sound s) (ht : s.tags = t :: ts) : t.StartsIn s.behind :=
  h.tags t (by simp [ht])

/-- Reading on moves away from the starts of tags. -/
theorem behind {behind ahead : List Char} (h : Sound s) (hle : s.behind <:+ behind) :
    Sound { s with behind := behind, ahead := ahead } :=
  ⟨h.raw, fun t ht => (h.tags t ht).mono hle⟩

theorem advance (h : Sound s) (n : Nat) : Sound (s.advance n) := by
  rw [advance_eq]
  exact h.behind (List.suffix_append _ _)

/-- The innermost tag can be forgotten. -/
theorem tail (h : Sound s) (ht : s.tags = t :: ts) : Sound { s with tags := ts } :=
  ⟨fun _ => h.raw_nil ht, fun t' ht' => h.tags t' (by simp [ht, ht'])⟩

theorem emit (h : Sound s) (i : Instr) : Sound (s.emit i) := ⟨h.raw, h.tags⟩

theorem collect (h : Sound s) (hc : s.scope? = some .tagName → Text.isBlank c = false) :
    Sound (s.collect c) := by
  cases ht : s.tags with
  | nil =>
    rw [collect_eq_raw ht]
    exact ⟨fun hne => absurd ht hne, fun t hmem => h.tags t hmem⟩
  | cons t ts =>
    rw [collect_eq_tag ht]
    refine ⟨fun _ => h.raw_nil ht, fun t' ht' => ?_⟩
    have hhead := h.head ht
    rcases List.mem_cons.1 ht' with rfl | ht'
    · refine ⟨hhead.suffix, hhead.length, fun hsc d hd => ?_⟩
      rcases List.mem_cons.1 hd with rfl | hd
      · exact hc (by simpa [scope?, ht] using hsc)
      · exact hhead.name hsc d hd
    · exact h.tags t' (by simp [ht, ht'])

theorem flushRaw (h : Sound s) : Sound s.flushRaw :=
  ⟨fun _ => flushRaw_raw s, fun t ht => by
    rw [flushRaw_tags] at ht
    rw [flushRaw_behind]
    exact h.tags t ht⟩

/-- A tag is opened at a place before the one reached. -/
theorem openTag (h : Sound s) {before behind : List Char} (scope : Scope) (ahead : List Char)
    (hle : s.behind <:+ behind) (hsuffix : before <:+ behind)
    (hlength : before.length < behind.length) :
    Sound { s.openTag scope before with behind := behind, ahead := ahead } := by
  have hraw := openTag_raw (s := s) (Decidable.or_iff_not_imp_left.2 h.raw) scope before
  refine ⟨fun _ => hraw, fun t ht => ?_⟩
  have htags : (s.openTag scope before).tags = ⟨scope, [], before⟩ :: s.tags := by
    cases hs : s.tags <;> simp [Scan.openTag, hs]
  change t ∈ (s.openTag scope before).tags at ht
  rw [htags] at ht
  rcases List.mem_cons.1 ht with rfl | ht
  · exact ⟨hsuffix, hlength, fun _ c hc => absurd hc List.not_mem_nil⟩
  · exact (h.tags t ht).mono hle

/-! ### Turns -/

theorem nameTag (h : Sound s) (ht : s.tags = t :: ts) {upTo : List Char}
    (hmore : s.nameTag t ts upTo = .more s₁) : Sound s₁ := by
  simp only [Scan.nameTag] at hmore
  split at hmore
  · cases hmore
    have hopen (scope : Scope) := (h.tail ht).openTag scope s.ahead (List.suffix_refl _)
      (h.head ht).suffix (h.head ht).length
    exact ⟨(hopen _).raw, fun t' ht' => by rw [openTag_behind]; exact (hopen _).tags t' ht'⟩
  · cases hmore

theorem closeTag (h : Sound s) (ht : s.tags = t :: ts) (hmore : s.closeTag t ts = .more s₁) :
    Sound s₁ := by
  have hrest := h.tail ht
  rcases t with ⟨scope, text, before⟩
  cases scope with
  | includePath =>
    simp only [Scan.closeTag, splice] at hmore
    split at hmore
    · cases hmore; exact ⟨hrest.raw, hrest.tags⟩
    · cases hmore
  | blockName =>
    simp only [Scan.closeTag] at hmore
    split at hmore
    · cases hmore
    · cases hmore; exact hrest.emit _
  | tagName => cases hmore; exact hrest
  | header _ => cases hmore; exact hrest.emit _
  | echoed => cases hmore; exact hrest.emit _
  | statement => cases hmore; exact hrest.emit _
  | ending _ => cases hmore; exact hrest.emit _

theorem endTag (h : Sound s) (ht : s.tags = t :: ts) {upTo : List Char}
    (hmore : s.endTag t ts upTo = .more s₁) : Sound s₁ := by
  rw [Scan.endTag] at hmore
  split at hmore
  · cases hname : s.nameTag t ts upTo with
    | more s₂ =>
      have hs₂ := h.nameTag ht hname
      simp only [hname] at hmore
      split at hmore
      · cases hmore; exact hs₂
      next hts => exact hs₂.closeTag hts hmore
    | done _ => simp [hname] at hmore
    | fault _ _ _ => simp [hname] at hmore
  · exact h.closeTag ht hmore

theorem readOpening (h : Sound s) (ha : s.ahead = c :: rest) {scope : Scope}
    (hmore : s.readOpening scope = .more s₁) : Sound s₁ := by
  have hopen : Sound ((s.openTag scope s.behind).advance 2) := by
    rw [advance_eq, openTag_behind, openTag_ahead]
    refine h.openTag _ _ (List.suffix_append _ _) (List.suffix_append _ _) ?_
    rw [ha, List.length_append, List.length_reverse, List.take_succ_cons, List.length_cons]
    omega
  simp only [Scan.readOpening] at hmore
  split at hmore
  · cases hmore; exact (hopen.advance 1).emit _
  · cases hmore; exact hopen

theorem readCloser (h : Sound s) {closed : Scope} (hc : Text.isBlank c = false)
    (hmore : s.readCloser c closed = .more s₁) : Sound s₁ := by
  have hcollect := (h.collect (fun _ => hc)).advance 1
  simp only [Scan.readCloser] at hmore
  split at hmore
  · cases hmore; exact hcollect
  next t ts ht =>
    split at hmore
    · cases hmore
    · split at hmore
      · exact (h.advance 2).closeTag (by rw [advance_eq]; exact ht) hmore
      · cases hmore; exact hcollect

theorem readPercent (h : Sound s) (hmore : s.readPercent = .more s₁) : Sound s₁ := by
  have hcollect := h.collect (c := '%') (fun _ => by decide)
  have hboth := hcollect.collect (c := '\x7d') (fun _ => by decide)
  simp only [Scan.readPercent] at hmore
  split at hmore
  · split at hmore
    · cases hmore; exact hboth.advance 2
    · cases hmore; exact hcollect.advance 1
  next t ts ht =>
    split at hmore
    · split at hmore
      · cases hmore; exact hboth.advance 2
      · exact (h.advance 2).endTag (by rw [advance_eq]; exact ht) hmore
    · split at hmore
      · cases hmore
      · cases hmore; exact hcollect.advance 1

theorem readPlain (h : Sound s) (hmore : s.readPlain c = .more s₁) : Sound s₁ := by
  simp only [Scan.readPlain] at hmore
  split at hmore
  next ht =>
    cases hmore
    exact (h.collect (fun hsc => by simp [scope?, ht] at hsc)).advance 1
  next t ts ht =>
    split at hmore
    · split at hmore
      · cases hmore; exact h.advance 1
      · split at hmore
        next hname => cases hmore; exact (h.nameTag ht hname).advance 1
        next hstop => exact absurd hmore (hstop _)
    next hplain =>
      split at hmore
      · split at hmore
        · cases hmore; exact h.advance 1
        · cases hmore
      · cases hmore
        refine (h.collect fun hsc => ?_).advance 1
        have hscope : t.scope = .tagName := by simpa [scope?, ht] using hsc
        simpa using fun hb => hplain ⟨hscope, hb⟩

theorem flush (h : Sound s) (hmore : s.flush = .more s₁) : Sound s₁ := by
  simp only [Scan.flush] at hmore
  split at hmore
  · cases hmore
  next t ts ht =>
    split at hmore
    · cases hmore
    · cases hend : s.endTag t ts s.behind with
      | more s₂ =>
        simp only [hend] at hmore
        split at hmore
        · cases hmore
        · cases hmore; exact h.endTag ht hend
      | done _ => simp [hend] at hmore
      | fault _ _ _ => simp [hend] at hmore

/-- A turn keeps the invariants. -/
theorem turn (h : Sound s) (hmore : s.turn = .more s₁) : Sound s₁ := by
  cases ha : s.ahead with
  | nil =>
    simp only [Scan.turn, ha] at hmore
    exact h.flush hmore
  | cons c rest =>
    rw [turn_cons ha, step.eq_def] at hmore
    split at hmore
    · split at hmore
      · cases hmore
      · split at hmore
        · exact h.readOpening ha hmore
        · cases hmore; exact (h.collect (fun _ => by decide)).advance 1
    · exact h.readCloser (by decide) hmore
    · exact h.readCloser (by decide) hmore
    · exact h.readPercent hmore
    · exact h.readPlain hmore

theorem takes {n : Nat} (h : Sound s) (htakes : Takes n s s₁) : Sound s₁ := by
  induction htakes with
  | refl => exact h
  | turn ht _ ih => exact ih (h.turn ht)

/-! ### The end -/

/-- The invariants hold of the scan at the end of a template too. -/
theorem flush_done (h : Sound s) (hdone : s.flush = .done s₁) : Sound s₁ := by
  simp only [Scan.flush] at hdone
  split at hdone
  · cases hdone; exact h.flushRaw
  next t ts ht =>
    split at hdone
    · cases hdone; exact h
    · cases hend : s.endTag t ts s.behind with
      | more s₂ =>
        simp only [hend] at hdone
        split at hdone
        · cases hdone; exact h.endTag ht hend
        · cases hdone
      | done s₂ => exact absurd hend (endTag_ne_done s t ts s.behind s₂)
      | fault _ _ _ => simp [hend] at hdone

end Sound

/-- Every scan of a template is sound. -/
theorem sound_of_reaches {e : Engine} {o : Option String} {source : String}
    (h : Reaches (start e o source) s) : Sound s := by
  obtain ⟨n, hn⟩ := h
  exact (sound_start e o source).takes hn

end Scan

end Stencil.Template
