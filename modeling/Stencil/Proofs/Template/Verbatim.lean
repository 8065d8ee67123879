import Stencil.Proofs.Template.Acts
import Stencil.Proofs.Template.Finite
import Stencil.Proofs.Template.Pasted
import Stencil.Proofs.Template.Printed

/-!
# Embedded texts

An opening mark opens a tag wherever text is collected, inside of tags too, so no instruction that
a template is read as holds one.

* `Scan.Clear` : nothing that has been collected holds an opening mark, nor comes to hold one with
  what is ahead.
* `Scan.Clear.act` : a turn keeps that, so it is true of all scans of a template.
* `unmarked_of_read` : no instruction holds an opening mark.
* `reads_embedded_iff` : so a text between the marks of a tag is passed through as it is exactly if
  it has no opening mark.
-/

namespace Stencil.Template

/-- The text that an instruction holds. -/
def Instr.text? : Instr → Option String
  | .raw text | .emit text | .exec text | .start _ text | .openBlock text => some text
  | .otherwise | .finish | .closeBlock | .trim => none

/-! ### Texts without opening marks -/

theorem unmarked_iff {text : List Char} :
    Unmarked text ↔ text.IsChain fun c d => Scan.opens c d = false := by
  constructor
  · intro h
    have hchain : text.IsChain (Scan.Inert none) := h.isChain (by simp [Scan.closer?])
    exact hchain.imp fun _ _ hin => hin.1
  · rintro h mark hmark ⟨before, after, rfl⟩
    have hpair := List.isChain_cons_cons.1 h.left_of_append.right_of_append
    simp only [List.mem_cons, List.not_mem_nil, or_false] at hmark
    rcases hmark with rfl | rfl | rfl <;> exact absurd hpair.1 (by decide)

namespace Unmarked

variable {text text' : List Char} {c : Char}

theorem mono (h : Unmarked text) (hin : text' <:+: text) : Unmarked text' :=
  fun mark hmark hmarked => h mark hmark (hmarked.trans hin)

/-- A text goes on without a mark if it could end in a character and that could go on so. -/
theorem append {rest : List Char} (h : Unmarked (text ++ [c])) (h' : Unmarked (c :: rest)) :
    Unmarked (text ++ c :: rest) :=
  unmarked_iff.2 (List.isChain_split.2 ⟨unmarked_iff.1 h, unmarked_iff.1 h'⟩)

/-- What an opening brace can follow, every character can. -/
theorem any (h : Unmarked (text ++ ['\x7b'])) (d : Char) : Unmarked (text ++ [d]) := by
  rw [unmarked_iff, List.isChain_append] at h ⊢
  refine ⟨h.1, .singleton d, fun c hc d' _ => ?_⟩
  have hne : c ≠ '\x7b' := by
    rintro rfl
    exact absurd (h.2.2 '\x7b' hc '\x7b' rfl) (by decide)
  exact Scan.opens_eq_false hne d'

end Unmarked

theorem isInfix_trim (text : List Char) : Text.trim text <:+: text := by
  have hend (l : List Char) : Text.trimEnd l <+: l := by
    rw [← List.reverse_suffix, Text.trimEnd, List.reverse_reverse]
    exact List.dropWhile_suffix _
  exact (hend _).isInfix.trans (List.dropWhile_suffix _).isInfix

namespace Scan

/-- What is being collected, the last character first. -/
def collected (s : Scan) : List Char :=
  match s.tags with
  | [] => s.raw
  | t :: _ => t.text

/-- A text that can be ended by every character without one of them making a mark with it. -/
def Shut (text : List Char) : Prop := ∀ c, Unmarked (text.reverse ++ [c])

/-- No opening mark has been collected, and none will be. -/
structure Clear (s : Scan) : Prop where
  /-- No instruction holds one. -/
  instrs : ∀ i ∈ s.instrs, ∀ text ∈ i.text?, Unmarked text.toList
  /-- What is being collected holds none, the next character included. -/
  collected : Unmarked (s.collected.reverse ++ s.ahead.take 1)
  /-- The tags around the innermost one can go on anyhow. -/
  outer : ∀ t ∈ s.tags.tail, Shut t.text
  /-- Nothing is collected after the name of an end tag. -/
  ending : ∀ t ∈ s.tags, t.scope.isEnding → t.text = []

variable {s s₁ : Scan} {t : OpenTag} {ts : List OpenTag} {i : Instr}

theorem collected_of_tags (ht : s.tags = t :: ts) : s.collected = t.text := by
  simp [Scan.collected, ht]

theorem unmarked_take_one (rest : List Char) : Unmarked (rest.take 1) := by
  cases rest <;> exact unmarked_iff.2 (by simp)

/-- What can be ended by every character can stand before every text. -/
theorem Shut.take {text : List Char} (h : Shut text) (rest : List Char) :
    Unmarked (text.reverse ++ rest.take 1) := by
  cases rest with
  | nil => simpa using (h ' ').mono (List.prefix_append _ _).isInfix
  | cons c rest => exact h c

theorem shut_nil : Shut [] := fun c => unmarked_iff.2 (.singleton c)

namespace Clear

theorem collected_unmarked (h : Clear s) : Unmarked s.collected.reverse :=
  h.collected.mono (List.prefix_append _ _).isInfix

/-- Text outside of tags makes an instruction without a mark. -/
theorem flushRaw_instrs (h : Clear s) (hraw : s.tags ≠ [] → s.raw = []) :
    ∀ i ∈ s.flushRaw.instrs, ∀ text ∈ i.text?, Unmarked text.toList := by
  cases ht : s.tags with
  | cons t ts => rw [flushRaw_of_raw (hraw (by simp [ht]))]; exact h.instrs
  | nil =>
    cases hr : s.raw with
    | nil => rw [flushRaw_of_raw hr]; exact h.instrs
    | cons c raw =>
      have hun : Unmarked s.raw.reverse := by
        have := h.collected_unmarked
        rwa [Scan.collected, ht] at this
      intro i hi text htext
      rw [Template.Scan.flushRaw_instrs s.raw.reverse (by simp) (by simp [hr])] at hi
      rcases List.mem_cons.1 hi with rfl | hi
      · obtain rfl := Option.some.inj htext
        simpa using hun
      · exact h.instrs i hi text htext

/-! ### Turns -/

/-- Opening a tag. -/
theorem openTag (h : Clear s) (hs : Sound s) (hall : ∀ t ∈ s.tags, Shut t.text) (scope : Scope)
    (before behind ahead : List Char) (new : List Instr) (hnew : ∀ i ∈ new, i = .trim) :
    Clear { s.openTag scope before with
      behind := behind, ahead := ahead, instrs := new ++ (s.openTag scope before).instrs } := by
  have hinstrs : ∀ i ∈ (s.openTag scope before).instrs, ∀ text ∈ i.text?,
      Unmarked text.toList := by
    cases ht : s.tags with
    | nil => rw [openTag_outside ht]; exact h.flushRaw_instrs hs.raw
    | cons t ts => rw [openTag_inside ht]; exact h.instrs
  refine ⟨fun i hi text htext => ?_, ?_, ?_, fun t ht hend => ?_⟩
  · rcases List.mem_append.1 hi with hi | hi
    · rw [hnew i hi] at htext
      cases htext
    · exact hinstrs i hi text htext
  · simpa only [Scan.collected, openTag_tags] using shut_nil.take ahead
  · simpa using hall
  · rw [openTag_tags] at ht
    rcases List.mem_cons.1 ht with rfl | ht
    · rfl
    · exact h.ending t ht hend

theorem instr_unmarked {scope : Scope} {text : List Char} (hun : Unmarked text)
    (hi : scope.instr? (String.ofList (Text.trim text)) = some i) :
    ∀ text ∈ i.text?, Unmarked text.toList := by
  have htrim : Unmarked (Text.trim text) := hun.mono (isInfix_trim text)
  intro text' htext'
  cases scope with
  | blockName =>
    simp only [Scope.instr?] at hi
    split at hi
    · cases hi
    · cases hi; cases htext'; simpa using htrim
  | tagName => cases hi
  | includePath => cases hi
  | header _ => cases hi; cases htext'; simpa using htrim
  | echoed => cases hi; cases htext'; simpa using htrim
  | statement => cases hi; cases htext'; simpa using htrim
  | ending tag => cases hi; cases tag <;> cases htext'

/-- The innermost tag can be forgotten anywhere: what is around it can go on anyhow. -/
theorem tail (h : Clear s) (hs : Sound s) (ht : s.tags = t :: ts) (behind ahead : List Char) :
    Clear { s with behind := behind, ahead := ahead, tags := ts } := by
  have houter : ∀ t' ∈ ts, Shut t'.text := fun t' ht' => h.outer t' (by rw [ht]; exact ht')
  refine ⟨h.instrs, ?_, fun t' ht' => houter t' (List.mem_of_mem_tail ht'),
    fun t' ht' => h.ending t' (by rw [ht]; exact List.mem_cons_of_mem t ht')⟩
  cases hts : ts with
  | nil => simpa only [Scan.collected, hs.raw_nil ht] using shut_nil.take ahead
  | cons t' ts' => exact (houter t' (by rw [hts]; exact List.mem_cons_self ..)).take ahead

/-- Closing a tag. -/
theorem closeTag (h : Clear s) (hs : Sound s) (ht : s.tags = t :: ts) {t' : OpenTag}
    {behind ahead : List Char} (hun : Unmarked t'.text.reverse) (hscope : t'.scope ≠ .tagName)
    (hmore : ({ s with behind := behind, ahead := ahead }).closeTag t' ts = .more s₁) :
    Clear s₁ := by
  cases hinstr : t'.scope.instr? (String.ofList (Text.trim t'.text.reverse)) with
  | some i =>
    rw [closeTag_eq_emit hinstr] at hmore
    cases hmore
    have htail := h.tail hs ht behind ahead
    refine ⟨fun j hj => ?_, htail.collected, htail.outer, htail.ending⟩
    rcases List.mem_cons.1 hj with rfl | hj
    · exact instr_unmarked hun hinstr
    · exact h.instrs j hj
  | none =>
    rcases Scope.instr?_eq_none hinstr with hpath | ⟨hname, hempty⟩ | huntold
    · rw [closeTag_include hpath, splice] at hmore
      split at hmore
      split at hmore
      · cases hmore
        have htail := h.tail hs ht behind
        exact ⟨h.instrs, (htail _).collected, (htail []).outer, (htail []).ending⟩
      · cases hmore
    · rw [closeTag_unnamed hname hempty] at hmore
      cases hmore
    · exact absurd huntold hscope

/-- The end of the innermost tag, before or behind its closing mark. -/
theorem endTag (h : Clear s) (hs : Sound s) (ht : s.tags = t :: ts) {upTo : List Char} {n : Nat}
    (hmore : (s.advance n).endTag t ts upTo = .more s₁) : Clear s₁ := by
  cases htold : t.told? with
  | none => rw [endTag_untold htold] at hmore; cases hmore
  | some t' =>
    rw [endTag_told (by rw [advance_raw]; exact hs.raw_nil ht) htold, advance_eq] at hmore
    refine h.closeTag hs ht ?_ (OpenTag.told?_scope htold) hmore
    rcases OpenTag.told?_text htold with rfl | hnil
    · rw [← collected_of_tags ht]
      exact h.collected_unmarked
    · rw [hnil]
      exact unmarked_iff.2 .nil

theorem readText (h : Clear s) {text rest : List Char} (ha : s.ahead = text ++ rest)
    (hne : text ≠ []) (hfree : Unmarked (text ++ rest.take 1))
    (hin : ∀ t ∈ s.tags.head?, t.scope.isEnding = false) : Clear (s.readText text rest) := by
  obtain ⟨c, text, rfl⟩ := List.exists_cons_of_ne_nil hne
  have hgoes : Unmarked (s.collected.reverse ++ (c :: text ++ rest.take 1)) := by
    have hc := h.collected
    rw [ha] at hc
    exact Unmarked.append hc hfree
  cases ht : s.tags with
  | nil =>
    have hread := collectAll_eq_raw (s := { s with
      behind := (c :: text).reverse ++ s.behind, ahead := rest }) ht (c :: text)
    rw [Scan.readText, hread]
    refine ⟨h.instrs, ?_, by simp [ht], by simp [ht]⟩
    simpa [Scan.collected, ht] using hgoes
  | cons t ts =>
    have hread := collectAll_eq_tag (s := { s with
      behind := (c :: text).reverse ++ s.behind, ahead := rest }) ht (c :: text)
    rw [Scan.readText, hread]
    refine ⟨h.instrs, ?_, fun u hu => h.outer u (by rw [ht]; exact hu), fun u hu hend => ?_⟩
    · simpa [Scan.collected, ht] using hgoes
    · rcases List.mem_cons.1 hu with rfl | hu
      · rw [hin t (by simp [ht])] at hend
        cases hend
      · exact h.ending u (by simp [ht, hu]) hend

/-- A turn that goes on, or that ends the template, keeps all texts clear of marks. -/
theorem act (h : Clear s) (hs : Sound s) {p : Progress} (hact : Act s p)
    (hp : p = .more s₁ ∨ p = .done s₁) : Clear s₁ := by
  cases hact with
  | @read text rest ha hne hfree hin =>
    obtain rfl := Progress.more.inj (hp.resolve_right (by simp))
    exact h.readText ha hne (unmarked_iff.2 hfree) fun t ht => (hin t ht).1
  | @skipped c rest t ts ha hc ht hin =>
    obtain rfl := Progress.more.inj (hp.resolve_right (by simp))
    -- nothing has been collected yet, or nothing is collected any more
    have hnil : t.text = [] := by
      rcases hin with ⟨hscope, htrim⟩ | hend
      · have hself : Text.trim t.text.reverse = t.text.reverse :=
          trim_eq_self (by simpa using (hs.head ht).name hscope)
        simpa using hself.symm.trans htrim
      · exact h.ending t (by simp [ht]) hend
    rw [advance_eq]
    refine ⟨h.instrs, ?_, h.outer, h.ending⟩
    simpa only [Scan.collected, ht, hnil] using shut_nil.take _
  | @opened scope mark dash rest ha hm hend =>
    obtain rfl := Progress.more.inj (hp.resolve_right (by simp))
    refine h.openTag hs (fun t ht => ?_) scope s.behind _ rest (trimmed dash) (by
      cases dash <;> simp [trimmed])
    cases hts : s.tags with
    | nil => simp [hts] at ht
    | cons t' ts' =>
      rw [hts] at ht
      rcases List.mem_cons.1 ht with rfl | ht
      · have hc := h.collected
        rw [collected_of_tags hts, ha] at hc
        exact Unmarked.any hc
      · exact h.outer t (by rw [hts]; exact ht)
  | @named c rest t ts scope ha hc ht hscope hname =>
    obtain rfl := Progress.more.inj (hp.resolve_right (by simp))
    rw [advance_eq]
    exact (h.tail hs ht s.behind s.ahead).openTag (hs.tail ht)
      (fun t' ht' => h.outer t' (by rw [ht]; exact ht')) scope t.before _ _ [] (by simp)
  | @closed a rest t ts p ha ht hcl hend =>
    rcases hp with rfl | rfl
    · exact h.endTag hs ht hend
    · exact absurd hend (endTag_ne_done _ t ts s.behind s₁)
  | finished ha ht =>
    obtain rfl := Progress.done.inj (hp.resolve_left (by simp))
    refine ⟨h.flushRaw_instrs hs.raw, ?_, by simp [ht], by simp [ht]⟩
    simp [Scan.collected, ht, ha, unmarked_iff]
  | abandoned =>
    obtain rfl := Progress.done.inj (hp.resolve_left (by simp))
    exact h
  | @ended t ts s' ha ht hin hend ha' =>
    obtain rfl := Progress.done.inj (hp.resolve_left (by simp))
    exact h.endTag (n := 0) hs ht hend
  | @resumed t ts s' ha ht hin hend ha' =>
    obtain rfl := Progress.more.inj (hp.resolve_right (by simp))
    exact h.endTag (n := 0) hs ht hend
  | unnamed => rcases hp with hp | hp <;> cases hp
  | refused got => rcases hp with hp | hp <;> cases hp
  | failed => rcases hp with hp | hp <;> cases hp

theorem takes {n : Nat} (h : Clear s) (hs : Sound s) (htakes : Takes n s s₁) : Clear s₁ := by
  induction htakes with
  | refl => exact h
  | turn ht _ ih => exact ih (h.act hs (turn_act _) (.inl ht)) (hs.turn ht)

end Clear

theorem clear_start (e : Engine) (o : Option String) (source : String) :
    Clear (start e o source) := by
  refine ⟨by simp [start], ?_, by simp [start], by simp [start]⟩
  exact unmarked_take_one source.toList

end Scan

open Scan

/-! ### Reading -/

variable {engine : Engine} {origin : Option String}

/-- **No instruction holds an opening mark.**  Whatever a template and the texts it includes are,
neither the text around its tags nor the text inside any of them has one when it is read. -/
theorem unmarked_of_read {turns : Nat} {source : String} {is : List Instr}
    (h : (read turns engine origin source).outcome = .ok is) :
    ∀ i ∈ is, ∀ text ∈ i.text?, Unmarked text.toList := by
  rw [read] at h
  split at h
  next s hrun =>
    obtain ⟨n, s', htakes, hlast, -⟩ := exists_last hrun
    have hsound := (sound_start engine origin source).takes htakes
    have hclear := (clear_start engine origin source).takes (sound_start _ _ _) htakes
    have hend := hclear.act hsound (turn_act s') (.inr hlast)
    obtain rfl := Except.ok.inj h
    intro i hi
    exact hend.instrs i (List.mem_reverse.1 hi)
  all_goals cases h

theorem Reads.unmarked {source : String} {is : List Instr}
    (h : Reads engine origin source (.ok is)) : ∀ i ∈ is, ∀ text ∈ i.text?, Unmarked text.toList := by
  obtain ⟨n, hn⟩ := h
  exact unmarked_of_read (hn n (Nat.le_refl n))

/-- A template that is one tag is read as what the tag stands for. -/
theorem reads_tag {source : String} {i : Instr} (hw : i.Writable) (hi : i.isTag)
    (hsource : source.toList = i.written .ifTag false) :
    Reads engine origin source (.ok [i]) := by
  have hprint : source = String.ofList (print (fun _ => .ifTag) false [i]) := by
    rw [← String.toList_inj, hsource]
    simp [print]
  have hprintable : Printable [i] := by
    refine ⟨by simpa using hw, .singleton i, ?_⟩
    rintro hlast
    obtain rfl : i = .trim := by simpa using hlast
    cases hi
  refine ⟨(print (fun _ => .ifTag) false [i]).length + 1, fun turns hturns => ?_⟩
  rw [hprint]
  exact read_print engine origin _ hprintable hturns

/-- **Embedded texts.**  A text that has no blanks at its ends and does not hold the mark that
closes its tag is passed through as it is, as a statement, as an expression and as the header of
control flow, exactly if it holds none of the marks that open a tag. -/
theorem reads_embedded_iff (engine : Engine) (origin : Option String) {text : String}
    (htrim : Text.trim text.toList = text.toList) :
    (¬ ['$', '\x7d'] <:+: text.toList →
      (Reads engine origin ("\x7b$ " ++ text ++ " $\x7d") (.ok [.exec text]) ↔
        Unmarked text.toList)) ∧
    (¬ ['\x7d', '\x7d'] <:+: text.toList →
      (Reads engine origin ("\x7b\x7b " ++ text ++ " \x7d\x7d") (.ok [.emit text]) ↔
        Unmarked text.toList)) ∧
    ∀ keyword : Keyword, ¬ ['%', '\x7d'] <:+: text.toList →
      (Reads engine origin
          ("\x7b% " ++ String.ofList keyword.name ++ " " ++ text ++ " %\x7d")
          (.ok [.start keyword text]) ↔ Unmarked text.toList) := by
  have hback {source : String} {i : Instr} (hi : i.text? = some text)
      (h : Reads engine origin source (.ok [i])) : Unmarked text.toList :=
    h.unmarked i (by simp) text hi
  refine ⟨fun hclose => ⟨hback rfl, fun hun => ?_⟩, fun hclose => ⟨hback rfl, fun hun => ?_⟩,
    fun keyword hclose => ⟨hback rfl, fun hun => ?_⟩⟩
  · exact reads_tag (i := .exec text) ⟨hun, hclose, htrim⟩ rfl
      (by simp [Instr.written, tagSource, padded, dashed])
  · exact reads_tag (i := .emit text) ⟨hun, hclose, htrim⟩ rfl
      (by simp [Instr.written, tagSource, padded, dashed])
  · exact reads_tag (i := .start keyword text) ⟨hun, hclose, htrim⟩ rfl
      (by simp [Instr.written, tagSource, padded, dashed])

/-- A table in a table, its inner braces apart from the outer ones. -/
theorem reads_embedded_iff_apart :
    let text := "t = \x7b \x7b1\x7d, '%\x7d' \x7d"
    Text.trim text.toList = text.toList ∧ ¬ ['$', '\x7d'] <:+: text.toList ∧
    (Reads {} none ("\x7b$ " ++ text ++ " $\x7d") (.ok [.exec text]) ↔ Unmarked text.toList) ∧
    Unmarked text.toList := by
  have htrim : Text.trim "t = \x7b \x7b1\x7d, '%\x7d' \x7d".toList =
    "t = \x7b \x7b1\x7d, '%\x7d' \x7d".toList := by decide
  exact ⟨htrim, by decide, (reads_embedded_iff {} none htrim).1 (by decide), by decide⟩

/-- A table in a table, its inner braces at the outer ones: a tag is opened in the statement. -/
theorem reads_nested_table :
    let text := "t = \x7b\x7b1\x7d,\x7b2\x7d\x7d"
    Text.trim text.toList = text.toList ∧ ¬ ['$', '\x7d'] <:+: text.toList ∧
    Reads {} none ("\x7b$ " ++ text ++ " $\x7d") (.ok [.emit "1\x7d,\x7b2", .exec "t ="]) ∧
    ¬ Reads {} none ("\x7b$ " ++ text ++ " $\x7d") (.ok [.exec text]) := by
  have hreads : Reads {} none ("\x7b$ " ++ "t = \x7b\x7b1\x7d,\x7b2\x7d\x7d" ++ " $\x7d")
      (.ok [.emit "1\x7d,\x7b2", .exec "t ="]) := by
    have hread : (read 40 {} none ("\x7b$ " ++ "t = \x7b\x7b1\x7d,\x7b2\x7d\x7d" ++ " $\x7d")).outcome =
        .ok [.emit "1\x7d,\x7b2", .exec "t ="] := by decide
    exact reads_of_read hread
  refine ⟨by decide, by decide, hreads, fun h => ?_⟩
  have hsame := Except.ok.inj (h.unique hreads)
  simp at hsame

end Stencil.Template
