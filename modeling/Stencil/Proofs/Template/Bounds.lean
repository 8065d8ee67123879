import Stencil.Proofs.Template.Cursor
import Stencil.Proofs.Template.Moves
import Stencil.Proofs.Template.Sound

/-!
# A scan stays in range

A scan by offsets goes on like a scan that keeps the text behind it and the text ahead apart: what
such a scan knows can be written down with offsets (`Scan.view`), and a turn of the one shows as a turn
of the other (`Scan.view_turn`).  So the stack is never found empty, and every offset is one at which the
template can be cut.
-/

namespace Stencil

/-- The stretch that a place marks lies in a text, and something stands at or after its start. -/
structure Place.LiesIn (p : Place) (text : List Char) : Prop where
  /-- The place is a place of the text. -/
  text : p.text = text
  /-- It does not start at the end. -/
  rest : p.marked ++ p.after ≠ []

end Stencil

namespace Stencil.Template

open Stencil.Text (byteSize cut? slice? cut?_append cut?_eq_some slice?_eq_some)

/-- An open tag on the stack. -/
def OpenTag.entry (t : OpenTag) : Entry := ⟨some t.scope, t.text, byteSize t.before⟩

theorem OpenTag.entry_scope (t : OpenTag) : t.entry.scope = some t.scope := rfl

theorem OpenTag.entry_text (t : OpenTag) : t.entry.text = t.text := rfl

theorem OpenTag.entry_start (t : OpenTag) : t.entry.start = byteSize t.before := rfl

namespace Scan

/-- What is being read, where the text outside of tags started at an offset. -/
def entries (s : Scan) (n : Nat) : List Entry := s.tags.map OpenTag.entry ++ [⟨none, s.raw, n⟩]

/-- A scan with offsets; the text outside of tags started at one of them. -/
def view (s : Scan) (n : Nat) : Cursor where
  source := s.expanded
  offset := byteSize s.behind
  stack := s.entries n
  instrs := s.instrs
  origin := s.origin
  engine := s.engine
  events := s.events

variable {s : Scan} {t : OpenTag} {ts : List OpenTag} {n : Nat} {x : Char} {rest : List Char}

/-! ### Places -/

theorem between_liesIn {before upTo : List Char} (hbefore : before <:+ upTo)
    (hupTo : upTo <:+ s.behind) (hlen : before.length < s.expanded.length) :
    (s.between before upTo).LiesIn s.expanded ∧
      (s.between before upTo).start = byteSize before ∧
        (s.between before upTo).stop = byteSize upTo := by
  obtain ⟨marked, rfl⟩ := hbefore
  obtain ⟨later, hbehind⟩ := hupTo
  have hexpanded : s.expanded = before.reverse ++ marked.reverse ++ (later.reverse ++ s.ahead) := by
    rw [expanded, ← hbehind]
    simp
  have hplace : s.between before (marked ++ before) =
      ⟨before.reverse, marked.reverse, later.reverse ++ s.ahead⟩ := by
    have hdrop : s.expanded.drop (before.length + marked.length) = later.reverse ++ s.ahead := by
      rw [hexpanded, List.drop_append_of_le_length (by simp), List.drop_of_length_le (by simp),
        List.nil_append]
    simp [between, hdrop]
  rw [hplace]
  refine ⟨⟨hexpanded.symm, fun hnil => ?_⟩, Text.byteSize_reverse before, ?_⟩
  · rw [hexpanded, List.append_assoc, List.length_append, hnil] at hlen
    simp at hlen
  · simp [Place.stop, Nat.add_comm]

theorem sinceTag_liesIn (hbefore : t.before <:+ s.behind)
    (hlen : t.before.length < s.behind.length) :
    (s.sinceTag t).LiesIn s.expanded ∧ (s.sinceTag t).start = byteSize t.before ∧
      (s.sinceTag t).stop = max (byteSize s.behind) (byteSize t.before) := by
  have hsize : byteSize t.before ≤ byteSize s.behind := by
    obtain ⟨later, hbehind⟩ := hbefore
    rw [← hbehind, Text.byteSize_append]
    omega
  rw [Nat.max_eq_left hsize]
  exact between_liesIn hbefore (List.suffix_refl _)
    (by rw [expanded, List.length_append, List.length_reverse]; omega)

theorem nextChar_liesIn (h : s.ahead = x :: rest) : s.nextChar.LiesIn s.expanded := by
  refine ⟨?_, by simp [nextChar, h]⟩
  simp [nextChar, Place.text, expanded, h]

/-! ### The parts of a turn -/

/-- What comes of a part of a scan shows as a result of the same part by offsets. -/
def Shows (r : Checked Cursor) : Progress → Prop
  | .more s => ∃ n, r = .ok (s.view n)
  | .done _ => False
  | .fault f p s => p.LiesIn s.expanded ∧ ∃ n, r = .fault f p.start p.stop (s.view n)

/-- A part of a scan goes on or is at fault; the same part by offsets does so too. -/
theorem Shows.cases {r : Checked Cursor} {p : Progress} (h : Shows r p) :
    (∃ s m, p = .more s ∧ r = .ok (s.view m)) ∨
      ∃ f place s m, p = .fault f place s ∧ place.LiesIn s.expanded ∧
        r = .fault f place.start place.stop (s.view m) := by
  cases p with
  | more s =>
    obtain ⟨m, hr⟩ := h
    exact .inl ⟨s, m, rfl, hr⟩
  | done s => exact h.elim
  | fault f place s =>
    obtain ⟨hin, m, hr⟩ := h
    exact .inr ⟨f, place, s, m, rfl, hin, hr⟩

theorem view_top_raw (ht : s.tags = []) : (s.view n).top = .ok ⟨none, s.raw, n⟩ := by
  simp [Cursor.top, view, entries, ht]

theorem view_top_tag (ht : s.tags = t :: ts) : (s.view n).top = .ok t.entry := by
  simp [Cursor.top, view, entries, ht]

/-- The text can be cut at the place that the scan has reached. -/
theorem cut?_behind (s : Scan) :
    cut? (s.behind.reverse ++ s.ahead) (byteSize s.behind) = some (s.behind.reverse, s.ahead) := by
  rw [← Text.byteSize_reverse, cut?_append]

theorem view_peek : (s.view n).peek (s.view n).offset = s.ahead.head? := by
  simp [Cursor.peek, view, expanded, cut?_behind]

/-- Going on in the text is going to a later offset. -/
theorem view_goTo {read : List Char} (h : s.ahead = read ++ rest) :
    (s.view n).goTo ((s.view n).offset + byteSize read) = (s.advance read.length).view n := by
  simp [Cursor.goTo, view, advance_eq, expanded, entries, h, Nat.add_comm]

theorem view_goTo_one (h : s.ahead = x :: rest) :
    (s.view n).goTo ((s.view n).offset + x.utf8Size) = (s.advance 1).view n := by
  have hx : s.ahead = [x] ++ rest := h
  exact view_goTo hx

theorem view_goTo_two {y : Char} (h : s.ahead = x :: y :: rest) (hx : x.utf8Size = 1)
    (hy : y.utf8Size = 1) : (s.view n).goTo ((s.view n).offset + 2) = (s.advance 2).view n := by
  have hxy : s.ahead = [x, y] ++ rest := h
  have hgo := view_goTo (n := n) hxy
  simp only [Text.byteSize_cons, Text.byteSize_nil, hx, hy] at hgo
  exact hgo

theorem view_collect : (s.view n).collect x = .ok ((s.collect x).view n) := by
  cases ht : s.tags with
  | nil => simp [Cursor.collect, view, entries, collect_eq_raw ht, expanded, ht]
  | cons t ts =>
    simp [Cursor.collect, view, entries, collect_eq_tag ht, expanded, ht, OpenTag.entry]

theorem view_take_raw (ht : s.tags = []) : (s.view n).take =
    (⟨none, s.raw, n⟩, ({ s with raw := [] } : Scan).view (byteSize s.behind)) := by
  simp [Cursor.take, Cursor.fresh, view, entries, expanded, ht]

theorem view_take_tag (ht : s.tags = t :: ts) :
    (s.view n).take = (t.entry, ({ s with tags := ts } : Scan).view n) := by
  cases ts <;> simp [Cursor.take, view, entries, expanded, ht]

theorem view_pop_raw (ht : s.tags = []) :
    (s.view n).pop = .ok (s.flushRaw.view (byteSize s.behind)) := by
  rw [Cursor.pop, view_take_raw ht]
  cases hraw : s.raw with
  | nil =>
    rw [flushRaw_of_raw hraw]
    simp [view, entries, expanded, hraw]
  | cons c raw =>
    simp [view, entries, expanded, hraw, flushRaw, emit, Cursor.emit]

/-- Text outside of tags is turned into an instruction before a tag is put on the stack. -/
theorem view_push (scope : Scope) (before : List Char) :
    ∃ m, (s.view n).push scope (byteSize before) = .ok ((s.openTag scope before).view m) := by
  cases ht : s.tags with
  | nil =>
    refine ⟨byteSize s.behind, ?_⟩
    rw [Cursor.push, view_top_raw ht, openTag_outside ht]
    simp only [Checked.ok_bind, Option.isNone_none, if_true, view_pop_raw ht]
    simp [view, entries, expanded, ht, OpenTag.entry]
  | cons t ts =>
    refine ⟨n, ?_⟩
    rw [Cursor.push, view_top_tag ht, openTag_inside ht]
    simp [view, entries, expanded, ht, OpenTag.entry]

/-- Including a template puts its text where the scan is. -/
theorem view_splice (hbefore : t.before <:+ s.behind) (hlen : t.before.length < s.behind.length)
    (path : String) : Shows ((s.view n).splice path (byteSize t.before)) (s.splice t path) := by
  cases hfound : (s.engine.resolve ⟨path, s.origin⟩).1 with
  | some text =>
    rw [splice_found t hfound]
    refine ⟨n, ?_⟩
    simp [Cursor.splice, view, hfound, cut?_behind, expanded, entries]
  | none =>
    obtain ⟨hin, hstart, hstop⟩ := sinceTag_liesIn hbefore hlen
    rw [splice_missed t hfound]
    refine ⟨hin, n, ?_⟩
    rw [hstart, hstop]
    simp [Cursor.splice, view, hfound, expanded, entries]

/-- An error about a template that is not empty is reported. -/
theorem malformed_view {f : TagFault} {p : Place} (h : p.LiesIn s.expanded) :
    Shows ((s.view n).malformed f p.start p.stop) (.fault f p s) := by
  have hsource : (s.view n).source.isEmpty = false := by
    rw [List.isEmpty_eq_false_iff]
    intro hnil
    change s.expanded = [] at hnil
    have htext := h.text
    rw [hnil, Place.text, List.append_assoc, List.append_eq_nil_iff] at htext
    exact h.rest htext.2
  rw [Cursor.malformed, hsource]
  exact ⟨h, n, rfl⟩

theorem view_pop_tag (hs : Sound s) (ht : s.tags = t :: ts) :
    Shows (s.view n).pop (s.closeTag t ts) := by
  obtain ⟨hsuffix, hlength, -⟩ := hs.head ht
  rw [Cursor.pop, view_take_tag ht]
  rcases t with ⟨scope, text, before⟩
  cases scope with
  | includePath =>
    exact view_splice (s := { s with tags := ts }) (t := ⟨.includePath, text, before⟩) hsuffix hlength _
  | blockName =>
    change Shows (if (String.ofList (Text.trim text.reverse)).isEmpty then _ else _)
      (if (String.ofList (Text.trim text.reverse)).isEmpty then _ else _)
    split
    · obtain ⟨hin, hstart, hstop⟩ := sinceTag_liesIn (s := { s with tags := ts })
        (t := ⟨.blockName, text, before⟩) hsuffix hlength
      have hshows := malformed_view (n := n) (f := .expectedBlockName) hin
      rw [hstart, hstop] at hshows
      exact hshows
    · exact ⟨n, rfl⟩
  | tagName => exact ⟨n, rfl⟩
  | header _ => exact ⟨n, rfl⟩
  | echoed => exact ⟨n, rfl⟩
  | statement => exact ⟨n, rfl⟩
  | ending _ => exact ⟨n, rfl⟩

/-- A name that ends at a place stands before it, or it does not. -/
theorem view_nameStart? {upTo : List Char} (hupTo : upTo <:+ s.behind) (name : List Char) :
    (s.view n).nameStart? name (byteSize upTo) =
      if name.reverse.isPrefixOf upTo then some (byteSize (upTo.drop name.length)) else none := by
  obtain ⟨later, hbehind⟩ := hupTo
  have hsource : (s.view n).source = upTo.reverse ++ (later.reverse ++ s.ahead) := by
    simp [view, expanded, ← hbehind]
  rw [Cursor.nameStart?, hsource]
  by_cases hname : name.reverse <+: upTo
  · obtain ⟨r, rfl⟩ := hname
    have hsize : byteSize (name.reverse ++ r) = byteSize name + byteSize r := by simp
    have hslice := Text.slice?_append r.reverse name (later.reverse ++ s.ahead)
    rw [if_pos (List.isPrefixOf_iff_prefix.2 ⟨r, rfl⟩)]
    simp only [hsize, Nat.add_sub_cancel_left, Nat.le_add_right, true_and]
    rw [if_pos]
    · simp
    · simpa [Nat.add_comm] using hslice
  · rw [if_neg fun h => hname (List.isPrefixOf_iff_prefix.1 h), if_neg]
    rintro ⟨-, hslice⟩
    obtain ⟨a, b, htext, -, hstop⟩ := slice?_eq_some.1 hslice
    have hcut : cut? (upTo.reverse ++ (later.reverse ++ s.ahead)) (byteSize upTo) =
        some (a ++ name, b) := cut?_eq_some.2 ⟨htext, hstop⟩
    rw [← Text.byteSize_reverse upTo, cut?_append, Option.some.injEq, Prod.mk.injEq] at hcut
    refine hname ⟨a.reverse, ?_⟩
    rw [← List.reverse_append, ← hcut.1, List.reverse_reverse]

/-- The name of a tag is found where it ends. -/
theorem view_dispatch (ht : s.tags = t :: ts) {upTo : List Char} (hupTo : upTo <:+ s.behind)
    (hbefore : t.before <:+ upTo) (hlen : t.before.length < s.behind.length)
    (hname : Text.trim t.text.reverse ≠ [] ∨ upTo.length < s.expanded.length) :
    Shows ((s.view n).dispatch (byteSize upTo)) (s.nameTag t ts upTo) := by
  rw [Cursor.dispatch, view_take_tag ht]
  simp only [OpenTag.entry_text, OpenTag.entry_start, nameTag]
  generalize Text.trim t.text.reverse = name at hname ⊢
  cases Scope.named? name with
  | some scope => exact view_push (s := { s with tags := ts }) scope t.before
  | none =>
    let s' : Scan := { s with tags := ts }
    have hlength : s.expanded.length = s.behind.length + s.ahead.length := by simp [expanded]
    have hsame : s'.expanded.length = s.expanded.length := rfl
    have hupTo' := hupTo.length_le
    have hstart := view_nameStart? (s := s') (n := n) hupTo name
    have hplace : (s'.nameBefore t name upTo).LiesIn s'.expanded ∧
        (s'.nameBefore t name upTo).start =
            (((s'.view n).nameStart? name (byteSize upTo)).getD (byteSize t.before)) ∧
          (s'.nameBefore t name upTo).stop = byteSize upTo := by
      rw [hstart, nameBefore]
      split
      next hprefix =>
        have hle := (List.isPrefixOf_iff_prefix.1 hprefix).length_le
        rw [List.length_reverse] at hle
        refine between_liesIn (List.drop_suffix _ _) hupTo ?_
        rw [List.length_drop]
        rcases hname with hname | hname
        · have := List.length_pos_iff.2 hname
          omega
        · omega
      next => exact between_liesIn hbefore hupTo (by omega)
    obtain ⟨hin, hstart', hstop⟩ := hplace
    have hshows := malformed_view (n := n) (f := .unknownTag (String.ofList name)) hin
    rw [hstart', hstop] at hshows
    exact hshows

/-- A tag is ended as its name and its closing mark say. -/
theorem view_endTag (hs : Sound s) (ht : s.tags = t :: ts) {upTo : List Char}
    (hupTo : upTo <:+ s.behind) (hbefore : t.before <:+ upTo)
    (hname : t.scope = .tagName →
      Text.trim t.text.reverse ≠ [] ∨ upTo.length < s.expanded.length) :
    Shows (if t.scope = .tagName then (s.view n).dispatch (byteSize upTo) >>= Cursor.pop
      else (s.view n).pop) (s.endTag t ts upTo) := by
  rw [endTag]
  split
  next hscope =>
    have hdispatch := view_dispatch (n := n) ht hupTo hbefore (hs.head ht).length (hname hscope)
    obtain ⟨s₁, m, hnamed, hr⟩ | ⟨f, p, s₁, m, hnamed, hin, hr⟩ := hdispatch.cases
    · obtain ⟨t₁, ts₁, ht₁⟩ := List.exists_cons_of_ne_nil (nameTag_more hnamed).2.2
      rw [hr, hnamed, Checked.ok_bind]
      simp only [ht₁]
      exact view_pop_tag (hs.nameTag ht hnamed) ht₁
    · rw [hr, hnamed]
      exact ⟨hin, m, rfl⟩
  next => exact view_pop_tag hs ht

/-! ### Turns -/

theorem view_scope : ∃ e, (s.view n).top = .ok e ∧ e.scope = s.scope? := by
  cases ht : s.tags with
  | nil => exact ⟨_, view_top_raw ht, by simp [scope?, ht]⟩
  | cons t ts => exact ⟨_, view_top_tag ht, by simp [scope?, ht, OpenTag.entry]⟩

theorem view_peek_next (h : s.ahead = x :: rest) :
    (s.view n).peek ((s.view n).offset + x.utf8Size) = (s.ahead.drop 1).head? := by
  have hpeek := view_peek (s := s.advance 1) (n := n)
  rw [← view_goTo_one h, advance_eq] at hpeek
  exact hpeek

theorem view_gather (h : s.ahead = x :: rest) :
    Shows ((s.view n).gather x) (.more ((s.collect x).advance 1)) := by
  have hgo := view_goTo_one (n := n) ((collect_ahead s x).trans h)
  have hoffset : ((s.collect x).view n).offset = (s.view n).offset := by simp [view]
  refine ⟨n, ?_⟩
  rw [Cursor.gather, view_collect, Checked.ok_bind, Checked.pure_eq, ← hgo, hoffset]

theorem view_refuse (h : s.ahead = x :: rest) (got : List Char) :
    Shows ((s.view n).refuse (s.view n).offset got) (s.refuse got) := by
  have hcut : cut? (s.view n).source (s.view n).offset = some (s.behind.reverse, s.ahead) :=
    cut?_behind s
  have hstart : s.nextChar.start = (s.view n).offset := Text.byteSize_reverse s.behind
  have hstop : s.nextChar.stop = (s.view n).offset + byteSize (s.ahead.take 1) := by
    simp [Place.stop, nextChar, view]
  have hshows := malformed_view (n := n) (f := .expectedEnd (String.ofList got))
    (nextChar_liesIn h)
  rw [hstart, hstop] at hshows
  rw [Cursor.refuse, hcut]
  exact hshows

theorem view_readOpening {y : Char} (h : s.ahead = '{' :: y :: rest) {scope : Scope}
    (hy : Scope.opening? y = some scope) :
    Shows ((s.view n).readOpening scope) (s.readOpening scope) := by
  have hsize : y.utf8Size = 1 := by
    rw [Scope.opening?.eq_def] at hy
    split at hy
    · rfl
    · rfl
    · rfl
    · cases hy
  have hopen : (s.advance 2).openTag scope s.behind = (s.openTag scope s.behind).advance 2 := by
    rw [advance_eq, advance_eq, openTag_ahead, openTag_behind]
    cases ht : s.tags <;> cases hraw : s.raw <;> simp [openTag, flushRaw, emit, ht, hraw]
  obtain ⟨m, hpush⟩ := view_push (s := s.advance 2) (n := n) scope s.behind
  have hoffset : (s.view n).offset = byteSize s.behind := rfl
  rw [Cursor.readOpening, view_goTo_two h (by decide) hsize, hoffset, hpush, hopen,
    Checked.ok_bind, view_peek, readOpening]
  generalize (s.openTag scope s.behind).advance 2 = s'
  by_cases hdash : s'.ahead.head? = some '-'
  · obtain ⟨rest', hrest⟩ := List.head?_eq_some_iff.1 hdash
    rw [if_pos hdash]
    simp only [if_pos hdash]
    have hgo : (s'.view m).goTo ((s'.view m).offset + 1) = (s'.advance 1).view m :=
      view_goTo_one hrest
    rw [hgo]
    exact ⟨m, rfl⟩
  · rw [if_neg hdash]
    simp only [if_neg hdash]
    exact ⟨m, rfl⟩

theorem view_readCloser (hs : Sound s) (h : s.ahead = x :: rest) (hx : x.utf8Size = 1)
    (closed : Scope) : Shows ((s.view n).readCloser x closed) (s.readCloser x closed) := by
  rw [Cursor.readCloser, readCloser, view_peek_next h]
  cases ht : s.tags with
  | nil =>
    rw [view_top_raw ht, Checked.ok_bind]
    exact view_gather h
  | cons t ts =>
    rw [view_top_tag ht, Checked.ok_bind]
    simp only [OpenTag.entry_scope, Option.any_some, Option.some.injEq]
    split
    · exact view_refuse h _
    · split
      next hclosed =>
        obtain ⟨rest', rfl⟩ : ∃ rest', rest = '\x7d' :: rest' := by
          rw [h] at hclosed
          exact List.head?_eq_some_iff.1 hclosed.2
        rw [view_goTo_two h hx (by decide)]
        exact view_pop_tag (hs.advance 2) (by rw [advance_eq]; exact ht)
      next => exact view_gather h

theorem advance_collect (s : Scan) (k : Nat) (x : Char) :
    (s.advance k).collect x = (s.collect x).advance k := by
  rw [advance_eq, advance_eq, collect_place, collect_ahead, collect_behind]

theorem view_readPercent (hs : Sound s) (h : s.ahead = '%' :: rest) :
    Shows (s.view n).readPercent s.readPercent := by
  have hnext : (s.view n).peek ((s.view n).offset + 1) = (s.ahead.drop 1).head? :=
    view_peek_next h
  rw [Cursor.readPercent, readPercent, hnext]
  by_cases hclose : (s.ahead.drop 1).head? = some '\x7d'
  · obtain ⟨rest', rfl⟩ : ∃ rest', rest = '\x7d' :: rest' := by
      rw [h] at hclose
      exact List.head?_eq_some_iff.1 hclose
    have hboth : Shows ((((s.advance 2).view n).collect '%') >>= fun c => c.collect '\x7d')
        (.more (((s.collect '%').collect '\x7d').advance 2)) := by
      refine ⟨n, ?_⟩
      rw [view_collect, Checked.ok_bind, view_collect, advance_collect, advance_collect]
    simp only [hclose, if_true, view_goTo_two h (by decide) (by decide)]
    cases ht : s.tags with
    | nil =>
      rw [view_top_raw ht, Checked.ok_bind]
      exact hboth
    | cons t ts =>
      rw [view_top_tag ht, Checked.ok_bind]
      simp only [OpenTag.entry_scope, Option.all_some, Option.some.injEq]
      have hbehind : s.behind <:+ (s.advance 2).behind := by
        rw [advance_eq]
        exact List.suffix_append _ _
      have hbefore : s.behind.length < (s.advance 2).expanded.length := by
        rw [advance_eq]
        simp [expanded, h]
      have hend := view_endTag (n := n) (hs.advance 2) (by rw [advance_eq]; exact ht) hbehind
        (hs.head ht).suffix fun _ => .inr hbefore
      by_cases hkeeps : t.scope.keepsPercent
      · rw [if_pos hkeeps, if_pos hkeeps]
        exact hboth
      · rw [if_neg hkeeps, if_neg hkeeps]
        exact hend
  · simp only [if_neg hclose]
    cases ht : s.tags with
    | nil =>
      rw [view_top_raw ht, Checked.ok_bind]
      exact view_gather h
    | cons t ts =>
      rw [view_top_tag ht, Checked.ok_bind]
      have hscope : t.entry.scope.any Scope.isEnding = t.scope.isEnding := rfl
      rw [hscope]
      by_cases hending : t.scope.isEnding
      · simp only [if_pos hending]
        exact view_refuse h _
      · simp only [if_neg hending]
        exact view_gather h

theorem view_readPlain (hs : Sound s) (h : s.ahead = x :: rest) :
    Shows ((s.view n).readPlain x) (s.readPlain x) := by
  rw [Cursor.readPlain, readPlain]
  cases ht : s.tags with
  | nil =>
    rw [view_top_raw ht, Checked.ok_bind]
    exact view_gather h
  | cons t ts =>
    rw [view_top_tag ht, Checked.ok_bind]
    simp only [OpenTag.entry_scope, OpenTag.entry_text, Option.any_some, Option.some.injEq,
      view_goTo_one h]
    by_cases hname : t.scope = .tagName ∧ Text.isBlank x
    · rw [if_pos hname, if_pos hname]
      by_cases hempty : (Text.trim t.text.reverse).isEmpty
      · rw [if_pos hempty, if_pos hempty]
        exact ⟨n, rfl⟩
      · have hlen := (hs.head ht).length
        have hdispatch := view_dispatch (n := n) ht (List.suffix_refl _) (hs.head ht).suffix hlen
          (.inl (by simpa using hempty))
        rw [if_neg hempty, if_neg hempty]
        change Shows ((s.view n).dispatch (s.view n).offset) _ at hdispatch
        obtain ⟨s₁, m, hnamed, hr⟩ | ⟨f, p, s₁, m, hnamed, hin, hr⟩ := hdispatch.cases
        · obtain ⟨hbehind, hahead, -⟩ := nameTag_more hnamed
          have hgo := view_goTo_one (n := m) (hahead.trans h)
          have hoffset : (s₁.view m).offset = (s.view n).offset := congrArg byteSize hbehind
          rw [hoffset] at hgo
          rw [hr, hnamed, Checked.ok_bind, Checked.pure_eq, hgo]
          exact ⟨m, rfl⟩
        · rw [hr, hnamed]
          exact ⟨hin, m, rfl⟩
    · rw [if_neg hname, if_neg hname]
      by_cases hending : t.scope.isEnding
      · rw [if_pos hending, if_pos hending]
        by_cases hblank : Text.isBlank x
        · rw [if_pos hblank, if_pos hblank]
          exact ⟨n, rfl⟩
        · rw [if_neg hblank, if_neg hblank]
          exact view_refuse h _
      · rw [if_neg hending, if_neg hending]
        exact view_gather h

theorem view_step (hs : Sound s) (h : s.ahead = x :: rest) :
    Shows ((s.view n).step x) (s.step x) := by
  obtain ⟨e, htop, hscope⟩ := view_scope (s := s) (n := n)
  rw [Cursor.step, htop, Checked.ok_bind, hscope, view_peek_next h]
  split
  next =>
    have hstep : s.step '{' = if s.scope?.any Scope.isEnding then s.refuse ['{']
      else ((s.ahead.drop 1).head?.bind Scope.opening?).elim
        (.more ((s.collect '{').advance 1)) s.readOpening := by
      rw [step]
      split
      · rfl
      · cases (s.ahead.drop 1).head?.bind Scope.opening? <;> rfl
    rw [hstep]
    split
    · exact view_refuse h _
    · cases hmark : (s.ahead.drop 1).head?.bind Scope.opening? with
      | none => exact view_gather h
      | some scope =>
        obtain ⟨y, hy, hopening⟩ := Option.bind_eq_some_iff.1 hmark
        rw [h] at hy
        obtain ⟨rest', hrest⟩ := List.head?_eq_some_iff.1 hy
        exact view_readOpening (h.trans (congrArg _ hrest)) hopening
  next => exact view_readCloser hs h (by decide) .statement
  next => exact view_readCloser hs h (by decide) .echoed
  next => exact view_readPercent hs h
  next hopen hdollar hclose hpercent =>
    rw [step_plain ⟨hopen, hdollar, hclose, hpercent⟩]
    exact view_readPlain hs h

/-- What comes of a turn shows as a turn by offsets. -/
def ShowsTurn (r : Checked (Bool × Cursor)) : Progress → Prop
  | .more s => ∃ n, r = .ok (true, s.view n)
  | .done s => ∃ n, r = .ok (false, s.view n)
  | .fault f p s => p.LiesIn s.expanded ∧ ∃ n, r = .fault f p.start p.stop (s.view n)

theorem view_flush_raw (h : s.tags = []) : ShowsTurn (s.view n).flush s.flush := by
  have hflush : s.flush = .done s.flushRaw := by rw [flush, h]
  rw [Cursor.flush, view_top_raw h, Checked.ok_bind, hflush]
  by_cases hraw : s.raw.isEmpty
  · rw [if_pos ⟨hraw, rfl⟩]
    exact ⟨n, by rw [flushRaw_of_raw (List.isEmpty_iff.1 hraw)]; rfl⟩
  · have hsource : (s.flushRaw.view (byteSize s.behind)).source = (s.view n).source := by
      simp [view, expanded]
    rw [if_neg fun hempty => hraw hempty.1]
    refine ⟨byteSize s.behind, ?_⟩
    simp only [reduceCtorEq, if_false, Checked.pure_eq, Checked.ok_bind, view_pop_raw h, hsource,
      Nat.lt_irrefl, decide_false]

theorem flush_tag {c : Cursor} {e : Entry} (htop : c.top = .ok e)
    (h : ¬ (e.text.isEmpty ∧ !e.scope.any Scope.isEnding)) :
    c.flush = (if e.scope = some .tagName then c.dispatch (byteSize c.source) >>= Cursor.pop
      else c.pop) >>= fun c' => pure (decide (byteSize c.source < byteSize c'.source), c') := by
  rw [Cursor.flush, htop, Checked.ok_bind, if_neg h]
  split
  · exact (Checked.bind_assoc _ _ _).symm
  · rfl

/-- The end of the template ends the innermost tag where it stands. -/
theorem view_flush_tag (hs : Sound s) (h : s.ahead = []) (ht : s.tags = t :: ts) :
    ShowsTurn (s.view n).flush s.flush := by
  have hsize : byteSize (s.view n).source = byteSize s.behind := by simp [view, expanded, h]
  rw [flush.eq_def]
  simp only [ht]
  by_cases hempty : t.text.isEmpty ∧ !t.scope.isEnding
  · have hempty' : t.entry.text.isEmpty ∧ !t.entry.scope.any Scope.isEnding := hempty
    rw [if_pos hempty, Cursor.flush, view_top_tag ht, Checked.ok_bind, if_pos hempty']
    exact ⟨n, rfl⟩
  · -- a name that is at the end is not empty, and it has no blanks
    have hname : t.scope = .tagName →
        Text.trim t.text.reverse ≠ [] ∨ s.behind.length < s.expanded.length := by
      intro hscope
      have htext : ∀ c ∈ t.text.reverse, Text.isBlank c = false := fun c hc =>
        (hs.head ht).name hscope c (List.mem_reverse.1 hc)
      rw [trim_eq_self htext]
      refine .inl fun hnil => hempty ?_
      rw [List.reverse_eq_nil_iff] at hnil
      rw [hnil, hscope]
      exact ⟨rfl, rfl⟩
    have hend := view_endTag (n := n) hs ht (List.suffix_refl _) (hs.head ht).suffix hname
    have hscope : (t.entry.scope = some .tagName) = (t.scope = .tagName) := by
      rw [OpenTag.entry_scope, Option.some.injEq]
    rw [if_neg hempty, flush_tag (view_top_tag ht) hempty, hsize]
    simp only [hscope]
    obtain ⟨asked, hmoves⟩ := moves_endTag s t ts s.behind
    obtain ⟨s₁, m, hp, hr⟩ | ⟨f, p, s₁, m, hp, hin, hr⟩ := hend.cases
    · rw [hp] at hmoves
      have hbehind : s₁.behind = s.behind := hmoves.behind
      have hgrown : byteSize (s₁.view m).source = byteSize s.behind + byteSize s₁.ahead := by
        simp [view, expanded, hbehind]
      rw [hr, hp, Checked.ok_bind, Checked.pure_eq, hgrown]
      simp only
      split
      next hnil =>
        refine ⟨m, ?_⟩
        rw [List.isEmpty_iff.1 hnil, Text.byteSize_nil, Nat.add_zero]
        simp
      next hne =>
        have hpos := Text.byteSize_pos (mt List.isEmpty_iff.2 hne)
        refine ⟨m, ?_⟩
        rw [decide_eq_true (by omega)]
    · rw [hr, hp]
      exact ⟨hin, m, rfl⟩

theorem view_flush (hs : Sound s) (h : s.ahead = []) : ShowsTurn (s.view n).flush s.flush := by
  cases ht : s.tags with
  | nil => exact view_flush_raw ht
  | cons t ts => exact view_flush_tag hs h ht

/-- **Offsets.**  A turn by offsets is a turn of the scan. -/
theorem view_turn (hs : Sound s) : ShowsTurn (s.view n).turn s.turn := by
  cases h : s.ahead with
  | nil =>
    have hturn : s.turn = s.flush := by rw [turn, h]
    have hview : (s.view n).turn = (s.view n).flush := by rw [Cursor.turn, view_peek, h]; rfl
    rw [hturn, hview]
    exact view_flush hs h
  | cons x rest =>
    have hview : (s.view n).turn = (s.view n).step x >>= fun c => pure (true, c) := by
      rw [Cursor.turn, view_peek, h]
      rfl
    rw [turn_cons h, hview]
    have hstep := view_step (n := n) hs h
    obtain ⟨s₁, m, hx, hr⟩ | ⟨f, p, s₁, m, hx, hin, hr⟩ := hstep.cases
    · rw [hr, hx]
      exact ⟨m, rfl⟩
    · rw [hr, hx]
      exact ⟨hin, m, rfl⟩

end Scan

end Stencil.Template
