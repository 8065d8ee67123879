import Mathlib.Data.List.Chain
import Mathlib.Data.List.Infix
import Stencil.Template.Reading

/-!
# Turns of a scan

`Scan.run` goes on until the template ends or is at fault.  Here a run is cut into its turns, so
that what one stretch of text does to a scan can be said without the rest of the template:

* `Scan.Within n s s'` : the scan `s` becomes `s'` in at most `n` turns.
* `Scan.Reaches s s'` : it becomes `s'` in some number of turns.
* `Scan.within_collect` : text without a mark that means anything where it stands is collected
  character by character, in the innermost tag or outside of all tags.

A mark is a pair of characters, so text is free of marks if no two neighbours in it form one; the
lemmas below carry that as a chain.
-/

namespace Stencil.Template

namespace Scan

/-! ### Runs -/

/-- So many turns, none of which ends the scan, lead from one scan to another. -/
inductive Takes : Nat → Scan → Scan → Prop
  | refl (s : Scan) : Takes 0 s s
  | turn {n : Nat} {s s₁ s₂ : Scan} : s.turn = .more s₁ → Takes n s₁ s₂ → Takes (n + 1) s s₂

/-- At most so many turns lead from one scan to another. -/
def Within (n : Nat) (s s' : Scan) : Prop := ∃ k ≤ n, Takes k s s'

/-- Some number of turns leads from one scan to another. -/
def Reaches (s s' : Scan) : Prop := ∃ n, Takes n s s'

theorem Takes.trans {m n : Nat} {s s₁ s₂ : Scan} (h : Takes m s s₁) (h' : Takes n s₁ s₂) :
    Takes (m + n) s s₂ := by
  induction h with
  | refl => simpa using h'
  | @turn m _ _ _ ht _ ih =>
    have := Takes.turn ht (ih h')
    rwa [show m + 1 + n = m + n + 1 by omega]

theorem Takes.run {n : Nat} {s s' : Scan} (h : Takes n s s') (turns : Nat) :
    s.run (n + turns) = s'.run turns := by
  induction h with
  | refl => simp
  | @turn n s s₁ s₂ ht _ ih =>
    rw [show n + 1 + turns = (n + turns) + 1 by omega, Scan.run, ht]
    exact ih

theorem Within.refl (s : Scan) : Within 0 s s := ⟨0, le_rfl, .refl s⟩

theorem Within.one {s s' : Scan} (h : s.turn = .more s') : Within 1 s s' :=
  ⟨1, le_rfl, .turn h (.refl s')⟩

theorem Within.trans {m n : Nat} {s s₁ s₂ : Scan} (h : Within m s s₁) (h' : Within n s₁ s₂) :
    Within (m + n) s s₂ := by
  obtain ⟨j, hj, ht⟩ := h
  obtain ⟨k, hk, ht'⟩ := h'
  exact ⟨j + k, by omega, ht.trans ht'⟩

theorem Within.mono {m n : Nat} {s s' : Scan} (h : Within m s s') (hmn : m ≤ n) :
    Within n s s' := by
  obtain ⟨k, hk, ht⟩ := h
  exact ⟨k, hk.trans hmn, ht⟩

theorem Within.reaches {n : Nat} {s s' : Scan} (h : Within n s s') : Reaches s s' :=
  let ⟨k, _, ht⟩ := h
  ⟨k, ht⟩

/-- A scan that comes to a state in which a turn ends it has the result of that turn. -/
theorem Within.run_eq {n turns : Nat} {s s' : Scan} {p : Progress} (h : Within n s s')
    (hp : s'.turn = p) (hstop : ∀ s, p ≠ .more s) (hn : n < turns) : s.run turns = some p := by
  obtain ⟨k, hk, ht⟩ := h
  obtain ⟨d, rfl⟩ : ∃ d, turns = k + (d + 1) := ⟨turns - k - 1, by omega⟩
  rw [ht.run, Scan.run, hp]
  cases p with
  | more s => exact absurd rfl (hstop s)
  | done _ => rfl
  | fault _ _ _ => rfl

theorem Reaches.refl (s : Scan) : Reaches s s := ⟨0, .refl s⟩

theorem Reaches.trans {s s₁ s₂ : Scan} (h : Reaches s s₁) (h' : Reaches s₁ s₂) :
    Reaches s s₂ := by
  obtain ⟨m, hm⟩ := h
  obtain ⟨n, hn⟩ := h'
  exact ⟨m + n, hm.trans hn⟩

theorem Reaches.head {s s₁ s₂ : Scan} (h : s.turn = .more s₁) (h' : Reaches s₁ s₂) :
    Reaches s s₂ := by
  obtain ⟨n, hn⟩ := h'
  exact ⟨n + 1, .turn h hn⟩

/-- A run that has ended stays as it is with more turns. -/
theorem run_mono {m n : Nat} {s : Scan} {p : Progress} (h : s.run m = some p) (hmn : m ≤ n) :
    s.run n = some p := by
  induction m generalizing s n with
  | zero => cases h
  | succ m ih =>
    obtain ⟨n, rfl⟩ : ∃ k, n = k + 1 := ⟨n - 1, by omega⟩
    rw [run] at h ⊢
    cases hturn : s.turn with
    | more s₁ => rw [hturn] at h; exact ih h (by omega)
    | done _ => rw [hturn] at h; exact h
    | fault _ _ _ => rw [hturn] at h; exact h

theorem run_ne_more (n : Nat) (s s₁ : Scan) : s.run n ≠ some (.more s₁) := by
  induction n generalizing s with
  | zero => simp [run]
  | succ n ih =>
    rw [run]
    cases s.turn with
    | more s₂ => exact ih s₂
    | done _ => simp
    | fault _ _ _ => simp

/-- As long as characters are ahead, a turn reads the next one. -/
theorem turn_cons {s : Scan} {c : Char} {rest : List Char} (h : s.ahead = c :: rest) :
    s.turn = s.step c := by
  simp [turn, h]

/-! ### Collecting text -/

/-- Collects a text in the innermost tag, or as text outside of all tags. -/
def collectAll (s : Scan) (text : List Char) : Scan := text.foldl collect s

/-- Reads a text and collects it. -/
def readText (s : Scan) (text rest : List Char) : Scan :=
  { s with behind := text.reverse ++ s.behind, ahead := rest }.collectAll text

@[simp] theorem collectAll_nil (s : Scan) : s.collectAll [] = s := rfl

@[simp] theorem collectAll_cons (s : Scan) (c : Char) (text : List Char) :
    s.collectAll (c :: text) = (s.collect c).collectAll text := rfl

theorem collect_eq_raw {s : Scan} (h : s.tags = []) (c : Char) :
    s.collect c = { s with raw := c :: s.raw } := by
  simp [collect, h]

theorem collect_eq_tag {s : Scan} {t : OpenTag} {ts : List OpenTag} (h : s.tags = t :: ts)
    (c : Char) : s.collect c = { s with tags := { t with text := c :: t.text } :: ts } := by
  simp [collect, h]

theorem collectAll_eq_raw {s : Scan} (h : s.tags = []) (text : List Char) :
    s.collectAll text = { s with raw := text.reverse ++ s.raw } := by
  induction text generalizing s with
  | nil => simp
  | cons c text ih =>
    rw [collectAll_cons, collect_eq_raw h, ih (by exact h)]
    simp

theorem collectAll_eq_tag {s : Scan} {t : OpenTag} {ts : List OpenTag} (h : s.tags = t :: ts)
    (text : List Char) :
    s.collectAll text = { s with tags := { t with text := text.reverse ++ t.text } :: ts } := by
  induction text generalizing s t with
  | nil => simp [← h]
  | cons c text ih =>
    rw [collectAll_cons, collect_eq_tag h, ih rfl]
    simp

theorem collect_place (s : Scan) (c : Char) (behind ahead : List Char) :
    ({ s with behind := behind, ahead := ahead }).collect c =
      { s.collect c with behind := behind, ahead := ahead } := by
  cases h : s.tags <;> simp [collect, h]

@[simp] theorem collect_ahead (s : Scan) (c : Char) : (s.collect c).ahead = s.ahead := by
  cases h : s.tags <;> simp [collect, h]

@[simp] theorem collect_behind (s : Scan) (c : Char) : (s.collect c).behind = s.behind := by
  cases h : s.tags <;> simp [collect, h]

@[simp] theorem collect_scope? (s : Scan) (c : Char) : (s.collect c).scope? = s.scope? := by
  cases h : s.tags <;> simp [collect, scope?, h]

theorem advance_eq (s : Scan) (n : Nat) :
    s.advance n = { s with
      behind := (s.ahead.take n).reverse ++ s.behind
      ahead := s.ahead.drop n } := by
  induction n generalizing s with
  | zero => simp [advance]
  | succ n ih =>
    rw [advance.eq_def]
    cases h : s.ahead with
    | nil => cases s; simp_all
    | cons c rest => simp [ih]

@[simp] theorem advance_raw (s : Scan) (n : Nat) : (s.advance n).raw = s.raw := by
  rw [advance_eq]

theorem advance_one {s : Scan} {c : Char} {rest : List Char} (h : s.ahead = c :: rest) :
    s.advance 1 = { s with behind := c :: s.behind, ahead := rest } := by
  simp [advance, h]

theorem advance_two {s : Scan} {c d : Char} {rest : List Char} (h : s.ahead = c :: d :: rest) :
    s.advance 2 = { s with behind := d :: c :: s.behind, ahead := rest } := by
  simp [advance, h]

theorem readText_nil {s : Scan} {rest : List Char} (h : s.ahead = rest) :
    s.readText [] rest = s := by
  subst h; rfl

theorem readText_cons {s : Scan} {c : Char} {text rest : List Char}
    (h : s.ahead = c :: (text ++ rest)) :
    s.readText (c :: text) rest = ((s.collect c).advance 1).readText text rest := by
  rw [advance_one (by rw [collect_ahead]; exact h)]
  simp only [readText, List.reverse_cons, List.append_assoc, collectAll_cons, collect_place,
    collect_behind, List.cons_append, List.nil_append]

/-! ### Marks -/

/-- Whether two neighbouring characters open a tag. -/
def opens (c d : Char) : Bool := c == '{' && (Scope.opening? d).isSome

/-- The character that closes a tag together with a brace; outside of tags none does. -/
def closer? : Option Scope → Option Char
  | none => none
  | some .echoed => some '}'
  | some .statement => some '$'
  | some _ => some '%'

/-- Two neighbouring characters that mean nothing where they stand. -/
def Inert (scope? : Option Scope) (c d : Char) : Prop :=
  opens c d = false ∧ ¬ (closer? scope? = some c ∧ d = '}')

/-- The scopes in which text is collected: all but that of a name and that after the name of an
end tag. -/
def collects : Option Scope → Bool
  | none => true
  | some .tagName => false
  | some (.ending _) => false
  | some _ => true

theorem collects_ne_tagName {s : Scan} {t : OpenTag} {ts : List OpenTag} (h : s.tags = t :: ts)
    (hc : collects s.scope?) : t.scope ≠ .tagName ∧ t.scope.isEnding = false := by
  rcases t with ⟨sc, _, _⟩
  cases sc <;> simp_all [collects, scope?, Scope.isEnding]

theorem scope?_not_ending {s : Scan} (hc : collects s.scope?) :
    s.scope?.any Scope.isEnding = false := by
  generalize s.scope? = sc at hc
  rcases sc with _ | sc
  · rfl
  · cases sc <;> simp_all [collects, Scope.isEnding]

/-- A character that forms no mark with the next one is collected, unless the two are the percent
sign and the brace that are read together. -/
theorem turn_collect {s : Scan} {c : Char} {rest : List Char} (h : s.ahead = c :: rest)
    (hc : collects s.scope?) (hi : ∀ d ∈ rest.head?, Inert s.scope? c d)
    (hp : ¬ (c = '%' ∧ rest.head? = some '}')) :
    s.turn = .more ((s.collect c).advance 1) := by
  have hnext : s.ahead[1]? = rest.head? := by
    rw [h]; cases rest <;> rfl
  rw [turn_cons h, step.eq_def]
  split
  · -- an opening brace
    have hop : (rest.head?.bind Scope.opening?) = none := by
      cases hr : rest.head? with
      | none => rfl
      | some d => simpa [opens] using (hi d (by simp [hr])).1
    simp [scope?_not_ending hc, hnext, hop]
  · -- a dollar sign
    cases ht : s.tags with
    | nil => simp [readCloser, ht]
    | cons t ts =>
      have hend := collects_ne_tagName ht hc
      have hne : ¬ (t.scope = .statement ∧ rest.head? = some '}') := by
        rintro ⟨hsc, hr⟩
        exact (hi '}' (by simp [hr])).2 ⟨by simp [scope?, ht, hsc, closer?], rfl⟩
      simp [readCloser, ht, hend.2, hnext, hne]
  · -- a closing brace
    cases ht : s.tags with
    | nil => simp [readCloser, ht]
    | cons t ts =>
      have hend := collects_ne_tagName ht hc
      have hne : ¬ (t.scope = .echoed ∧ rest.head? = some '}') := by
        rintro ⟨hsc, hr⟩
        exact (hi '}' (by simp [hr])).2 ⟨by simp [scope?, ht, hsc, closer?], rfl⟩
      simp [readCloser, ht, hend.2, hnext, hne]
  · -- a percent sign
    have hne : rest.head? ≠ some '}' := fun hr => hp ⟨rfl, hr⟩
    cases ht : s.tags with
    | nil => simp [readPercent, ht, hnext, hne]
    | cons t ts =>
      have hend := collects_ne_tagName ht hc
      simp [readPercent, ht, hnext, hne, hend.2]
  · -- any other character
    cases ht : s.tags with
    | nil => simp [readPlain, ht]
    | cons t ts =>
      have hend := collects_ne_tagName ht hc
      simp [readPlain, ht, hend.1, hend.2]

/-- A percent sign and a brace that close nothing are collected together. -/
theorem turn_percent {s : Scan} {rest : List Char} (h : s.ahead = '%' :: '}' :: rest)
    (hc : collects s.scope?) (hi : closer? s.scope? ≠ some '%') :
    s.turn = .more (((s.collect '%').collect '}').advance 2) := by
  rw [turn_cons h]
  show s.readPercent = _
  cases ht : s.tags with
  | nil => simp [readPercent, ht, h]
  | cons t ts =>
    have hk : t.scope.keepsPercent = true := by
      have : s.scope? = some t.scope := by simp [scope?, ht]
      rw [this] at hi hc
      cases hsc : t.scope <;> simp_all [closer?, collects, Scope.keepsPercent]
    simp [readPercent, ht, h, hk]

/-- Text that is free of marks where it stands is collected.  Its last character must not form a
mark with the first one of what follows, nor be read together with it. -/
theorem within_collect {s : Scan} {text rest : List Char} (h : s.ahead = text ++ rest)
    (hc : collects s.scope?) (hi : (text ++ rest.take 1).IsChain (Inert s.scope?))
    (hp : text.getLast? ≠ some '%' ∨ rest.head? ≠ some '}') :
    Within text.length s (s.readText text rest) := by
  -- a turn takes one character or two, so the induction is on the length
  induction hn : text.length using Nat.strong_induction_on generalizing s text with
  | _ n ih =>
    subst hn
    match text with
    | [] => rw [readText_nil (by simpa using h)]; exact .refl s
    | c :: text =>
      have hnext : (text ++ rest).head? = (text ++ rest.take 1).head? := by
        cases text <;> cases rest <;> simp
      have hchain := List.isChain_cons.1 (by simpa using hi)
      by_cases hpair : c = '%' ∧ (text ++ rest).head? = some '}'
      · obtain ⟨rfl, hhead⟩ := hpair
        match text with
        | [] => simp [show rest.head? = some '}' by simpa using hhead] at hp
        | d :: text =>
          obtain rfl : d = '}' := by simpa using hhead
          have hne : closer? s.scope? ≠ some '%' := fun hcl =>
            (hchain.1 '}' (by simp)).2 ⟨hcl, rfl⟩
          have hturn := Within.one (turn_percent (by simpa using h) hc hne)
          set s₁ := ((s.collect '%').collect '}').advance 2 with hs₁
          have heq : s.readText ('%' :: '}' :: text) rest = s₁.readText text rest := by
            rw [hs₁, advance_two (by simpa using h)]
            simp [readText, collect_place]
          have hscope : s₁.scope? = s.scope? := by
            rw [hs₁, advance_two (by simpa using h)]
            exact (collect_scope? _ _).trans (collect_scope? _ _)
          have hrest := @ih text.length (by simp only [List.length_cons]; omega) s₁ text
            (by rw [hs₁, advance_two (by simpa using h)]) (by rw [hscope]; exact hc)
            (by rw [hscope]; exact (List.isChain_cons.1 (by simpa using hchain.2)).2)
            (by
              cases text with
              | nil => exact .inl (by simp)
              | cons e text => simpa [List.getLast?_cons_cons] using hp)
            rfl
          rw [heq]
          exact (hturn.trans hrest).mono (by simp; omega)
      · have hturn := Within.one
          (turn_collect h hc (fun d hd => hchain.1 d (hnext ▸ hd)) hpair)
        have hs₁ := advance_one (s := s.collect c) (by rw [collect_ahead]; exact h)
        have hscope : ((s.collect c).advance 1).scope? = s.scope? := by
          rw [hs₁]; exact collect_scope? s c
        have hrest := @ih text.length (by simp) ((s.collect c).advance 1) text
          (by rw [hs₁]; rfl) (by rw [hscope]; exact hc) (by rw [hscope]; exact hchain.2)
          (by
            cases text with
            | nil => exact .inl (by simp)
            | cons e text => simpa [List.getLast?_cons_cons] using hp)
          rfl
        rw [readText_cons (by simpa using h)]
        exact (hturn.trans hrest).mono (by simp; omega)

end Scan

end Stencil.Template
