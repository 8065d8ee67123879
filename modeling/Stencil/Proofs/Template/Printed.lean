import Mathlib.Data.List.TakeWhile
import Stencil.Proofs.Template.Tags

/-!
# Printing instructions as a template

`Template.print` writes instructions as the obvious template: text as it is, each tag with one
blank inside its marks, and a trim mark glued to the opening mark of the tag it stands before.  The
end of control flow has three spellings; `print` is told which to take each time.

`Printable` says which lists of instructions a template can spell in this way.  The main statement
is `read_print`: reading what has been printed gives the instructions back, whatever the resolvers
and the origin are.  Its step is `Scan.within_written`, which reads one tag.
-/

namespace Stencil.Template

/-! ### The printer -/

/-- The name of a tag that starts control flow. -/
def Keyword.name : Keyword → List Char
  | .ifTag => ['i', 'f']
  | .forTag => ['f', 'o', 'r']
  | .whileTag => ['w', 'h', 'i', 'l', 'e']

/-- A tag with what stands between its marks. -/
def tagSource (mark : Char) (dash : Bool) (body : List Char) (closer : Char) : List Char :=
  '{' :: mark :: (Scan.dashed dash ++ (body ++ [closer, '\x7d']))

/-- A text with a blank on either side. -/
def padded (text : List Char) : List Char := ' ' :: (text ++ [' '])

/-- The source of an instruction.  The end of control flow is spelled as that of `ending`; a trim
mark is left to the tag after it. -/
def Instr.written (ending : Keyword) (dash : Bool) : Instr → List Char
  | .raw text => text.toList
  | .trim => []
  | .emit expr => tagSource '\x7b' dash (padded expr.toList) '\x7d'
  | .exec stmt => tagSource '$' dash (padded stmt.toList) '$'
  | .start keyword header =>
    tagSource '%' dash (' ' :: (keyword.name ++ padded header.toList)) '%'
  | .otherwise => tagSource '%' dash (padded ['e', 'l', 's', 'e']) '%'
  | .finish => tagSource '%' dash (padded (['e', 'n', 'd'] ++ ending.name)) '%'
  | .openBlock name =>
    tagSource '%' dash (' ' :: (['b', 'l', 'o', 'c', 'k'] ++ padded name.toList)) '%'
  | .closeBlock => tagSource '%' dash (padded ['e', 'n', 'd', 'b', 'l', 'o', 'c', 'k']) '%'

/-- The source of some instructions; `endings` tells how the ends of control flow are spelled, and
`dash` whether a trim mark is due. -/
def print (endings : Nat → Keyword) (dash : Bool) : List Instr → List Char
  | [] => []
  | i :: is =>
    i.written (endings 0) dash ++ print (fun n => endings (n + 1)) (i == .trim) is

/-! ### Printable instructions -/

/-- A text in which no tag opens. -/
def Unmarked (text : List Char) : Prop := ∀ mark ∈ ['\x7b', '$', '%'], ¬ ['\x7b', mark] <:+: text

/-- A text that can stand inside a tag that `closer` closes together with a brace. -/
def Embeds (closer : Char) (text : String) : Prop :=
  Unmarked text.toList ∧ ¬ [closer, '\x7d'] <:+: text.toList ∧ Text.trim text.toList = text.toList

instance (text : List Char) : Decidable (Unmarked text) :=
  -- the marks, not all characters
  List.decidableBAll (fun mark => ¬ ['\x7b', mark] <:+: text) _

instance (closer : Char) (text : String) : Decidable (Embeds closer text) :=
  inferInstanceAs (Decidable (_ ∧ _ ∧ _))

/-- An instruction that a template can spell. -/
def Instr.Writable : Instr → Prop
  | .raw text => text ≠ "" ∧ Unmarked text.toList ∧ text.toList.getLast? ≠ some '\x7b'
  | .emit expr => Embeds '\x7d' expr
  | .exec stmt => Embeds '$' stmt
  | .start _ header => Embeds '%' header
  | .openBlock name => name ≠ "" ∧ Embeds '%' name
  | .otherwise | .finish | .closeBlock | .trim => True

instance : DecidablePred Instr.Writable
  | .raw _ => inferInstanceAs (Decidable (_ ∧ _ ∧ _))
  | .emit _ | .exec _ | .start _ _ => inferInstanceAs (Decidable (Embeds _ _))
  | .openBlock _ => inferInstanceAs (Decidable (_ ∧ _))
  | .otherwise | .finish | .closeBlock | .trim => inferInstanceAs (Decidable True)

/-- Whether an instruction is text to copy. -/
def Instr.isRaw : Instr → Bool
  | .raw _ => true
  | _ => false

/-- Whether an instruction is spelled as a tag. -/
def Instr.isTag : Instr → Bool
  | .raw _ | .trim => false
  | _ => true

/-- Instructions that a template can spell: no two texts are neighbours, and a trim mark stands
right before a tag. -/
structure Printable (is : List Instr) : Prop where
  /-- Each instruction can be spelled. -/
  writable : ∀ i ∈ is, i.Writable
  /-- What may follow what. -/
  follows : is.IsChain fun i j => (i.isRaw → ¬ j.isRaw) ∧ (i = .trim → j.isTag)
  /-- Nothing to trim for at the end. -/
  last : is.getLast? ≠ some .trim

theorem Instr.not_isRaw_of_isTag {i : Instr} (h : i.isTag) : ¬ i.isRaw := by
  cases i <;> simp_all [isTag, isRaw]

/-! ### Free of marks -/

open Scan

theorem opens_eq_true {c d : Char} (h : opens c d = true) :
    c = '\x7b' ∧ d ∈ ['\x7b', '$', '%'] := by
  simp only [opens, Bool.and_eq_true, beq_iff_eq] at h
  refine ⟨h.1, ?_⟩
  have := h.2
  rw [Scope.opening?.eq_def] at this
  split at this <;> simp_all

theorem Unmarked.isChain {text : List Char} {scope : Option Scope} (h : Unmarked text)
    (hc : ∀ a, closer? scope = some a → ¬ [a, '\x7d'] <:+: text) :
    text.IsChain (Inert scope) := by
  refine (List.isChain_isInfix text).imp fun c d hcd => ⟨?_, ?_⟩
  · by_contra hop
    obtain ⟨rfl, hd⟩ := opens_eq_true (by simpa using hop)
    exact h d hd hcd
  · rintro ⟨hcl, rfl⟩
    exact hc c hcl hcd

theorem inert_blank_left {scope : Option Scope} (d : Char) : Inert scope ' ' d := by
  refine ⟨by simp [opens], fun h => ?_⟩
  rcases scope with _ | sc
  · exact absurd h.1 (by simp [closer?])
  · cases sc <;> exact absurd h.1 (by simp [closer?])

theorem inert_blank_right {scope : Option Scope} (c : Char) : Inert scope c ' ' :=
  ⟨by simp [opens, Scope.opening?], fun h => absurd h.2 (by decide)⟩

/-- A text that can stand in a tag, with a blank after it, is free of marks up to and including the
closing one's first character. -/
theorem isChain_closing {a : Char} {text : List Char} {scope : Scope} (h : Unmarked text)
    (h' : ¬ [a, '\x7d'] <:+: text) (ha : closer? (some scope) = some a) :
    (text ++ [' '] ++ [a]).IsChain (Inert (some scope)) := by
  have htext : text.IsChain (Inert (some scope)) :=
    h.isChain fun b hb => by
      obtain rfl : a = b := Option.some.inj (ha.symm.trans hb)
      exact h'
  have hpad : (text ++ [' ']).IsChain (Inert (some scope)) :=
    htext.append (.singleton _) fun c _ d hd => by
      obtain rfl : ' ' = d := by simpa using hd
      exact inert_blank_right c
  refine hpad.append (.singleton _) fun c hc d _ => ?_
  obtain rfl : ' ' = c := by simpa using hc
  exact inert_blank_left d

theorem trimEnd_blank (text : List Char) : Text.trimEnd (text ++ [' ']) = Text.trimEnd text := by
  simp [Text.trimEnd, Text.isBlank]

theorem trim_blank (text : List Char) : Text.trim (text ++ [' ']) = Text.trim text := by
  by_cases hall : text.all Text.isBlank
  · have hall' : (text ++ [' ']).all Text.isBlank := by
      rw [List.all_append, hall]; rfl
    rw [Text.trim, Text.trim, Text.trimStart, Text.trimStart,
      List.dropWhile_eq_nil_iff.2 (List.all_eq_true.1 hall'),
      List.dropWhile_eq_nil_iff.2 (List.all_eq_true.1 hall)]
  · have hne : (text.dropWhile Text.isBlank).isEmpty = false := by
      rw [List.isEmpty_eq_false_iff, ne_eq, List.dropWhile_eq_nil_iff]
      simpa using hall
    have hdrop : (text ++ [' ']).dropWhile Text.isBlank = text.dropWhile Text.isBlank ++ [' '] := by
      rw [List.dropWhile_append, hne]
      rfl
    rw [Text.trim, Text.trimStart, hdrop, trimEnd_blank]
    rfl

theorem trim_padded (text : List Char) : Text.trim (padded text) = Text.trim text := by
  have hstart : Text.trimStart (padded text) = Text.trimStart (text ++ [' ']) := by
    simp [padded, Text.trimStart, Text.isBlank]
  rw [Text.trim, hstart]
  exact trim_blank text

/-! ### Reading one tag -/

namespace Scan

/-- A scan that has read a tag whole. -/
def passed (s : Scan) (source rest : List Char) (new : List Instr) : Scan :=
  { s.flushRaw with
    behind := source.reverse ++ s.behind
    ahead := rest
    instrs := new ++ s.flushRaw.instrs }

variable {s : Scan} {dash : Bool} {rest : List Char}

theorem opened_outside (ht : s.tags = []) (scope : Scope) (mark : Char) (dash : Bool)
    (rest : List Char) :
    s.opened scope mark dash rest =
      { s.flushRaw with
        behind := dashed dash ++ mark :: '\x7b' :: s.behind
        ahead := rest
        tags := [⟨scope, [], s.behind⟩]
        instrs := trimmed dash ++ s.flushRaw.instrs } := by
  simp [opened, openTag_outside ht]

theorem reverse_tagSource (mark : Char) (dash : Bool) (body : List Char) (a : Char) :
    (tagSource mark dash body a).reverse =
      '\x7d' :: a :: (body.reverse ++ (dashed dash ++ [mark, '\x7b'])) := by
  cases dash <;> simp [tagSource, dashed]

theorem length_tagSource (mark : Char) (dash : Bool) (body : List Char) (a : Char) :
    body.length + 4 ≤ (tagSource mark dash body a).length := by
  simp [tagSource]

/-- The opening mark of a tag outside of all tags, before a blank. -/
theorem within_opening {scope : Scope} {mark a : Char} {body : List Char}
    (h : s.ahead = tagSource mark dash (' ' :: body) a ++ rest) (ht : s.tags = [])
    (hm : Scope.opening? mark = some scope) :
    Within 1 s { s.flushRaw with
      behind := dashed dash ++ mark :: '\x7b' :: s.behind
      ahead := ' ' :: (body ++ a :: '\x7d' :: rest)
      tags := [⟨scope, [], s.behind⟩]
      instrs := trimmed dash ++ s.flushRaw.instrs } := by
  rw [← opened_outside ht]
  exact .one (turn_opening (by simpa [tagSource] using h) (by simp [scope?, ht]) hm (by simp))

/-- Reads a tag whose opening mark tells what it is. -/
theorem within_direct {scope : Scope} {mark a : Char} {text : String} {i : Instr}
    (h : s.ahead = tagSource mark dash (padded text.toList) a ++ rest) (ht : s.tags = [])
    (hm : Scope.opening? mark = some scope) (ha : closer? (some scope) = some a)
    (hc : collects (some scope)) (he : Embeds a text) (hi : scope.instr? text = some i) :
    Within (tagSource mark dash (padded text.toList) a).length s
      (s.passed (tagSource mark dash (padded text.toList) a) rest (i :: trimmed dash)) := by
  have h₁ := within_opening h ht hm
  have hchain : (padded text.toList ++ [a]).IsChain (Inert (some scope)) := by
    rw [padded, List.cons_append, List.isChain_cons]
    exact ⟨fun d _ => inert_blank_left d, isChain_closing he.1 he.2.1 ha⟩
  have h₂ := h₁.trans (within_body (a := a) (padded text.toList) rest rfl rfl
    (.inl hc) ha hchain (by simp [padded, List.getLast?_cons]) (by
      rw [trim_padded, he.2.2, String.ofList_toList]; exact hi))
  have hlen := length_tagSource mark dash (padded text.toList) a
  refine Within.mono ?_ (m := 1 + ((padded text.toList).length + 1)) (by omega)
  simpa [passed, reverse_tagSource, ht] using h₂

/-- Reads a tag that a name tells. -/
theorem within_named {name : List Char} {i : Instr} (scope : Scope) (body : List Char)
    (h : s.ahead = tagSource '%' dash (' ' :: (name ++ ' ' :: body)) '%' ++ rest)
    (ht : s.tags = []) (hn : name.all isNamePart) (hne : name ≠ [])
    (hname : Scope.named? name = some scope) (hc : collects (some scope) ∨ body = [])
    (ha : closer? (some scope) = some '%') (hchain : (body ++ ['%']).IsChain (Inert (some scope)))
    (hp : body.getLast? ≠ some '%')
    (hi : scope.instr? (String.ofList (Text.trim body)) = some i) :
    Within (tagSource '%' dash (' ' :: (name ++ ' ' :: body)) '%').length s
      (s.passed (tagSource '%' dash (' ' :: (name ++ ' ' :: body)) '%') rest
        (i :: trimmed dash)) := by
  have h₁ := within_opening h ht rfl
  have h₂ := h₁.trans (within_name name (body ++ '%' :: '\x7d' :: rest)
    (by simp) rfl (by simp) hn hne hname)
  have h₃ := h₂.trans (within_body body rest rfl rfl hc ha hchain hp hi)
  have hlen := length_tagSource '%' dash (' ' :: (name ++ ' ' :: body)) '%'
  refine Within.mono ?_ (m := 1 + (name.length + 2) + (body.length + 1))
    (by simp at hlen ⊢; omega)
  simpa [passed, reverse_tagSource, ht] using h₃

/-- **Reading a printed tag.**  Wherever it is met outside of all tags, the source of a tag gives
its instruction, after those of the text before it and of its trim mark. -/
theorem within_written {i : Instr} (k : Keyword) (hw : i.Writable) (hi : i.isTag)
    (h : s.ahead = i.written k dash ++ rest) (ht : s.tags = []) :
    Within (i.written k dash).length s
      (s.passed (i.written k dash) rest (i :: trimmed dash)) := by
  cases i with
  | raw _ => cases hi
  | trim => cases hi
  | emit expr => exact within_direct h ht rfl rfl rfl hw rfl
  | exec stmt => exact within_direct h ht rfl rfl rfl hw rfl
  | start keyword header =>
    have hname : keyword.name.all isNamePart ∧ keyword.name ≠ [] ∧
        Scope.named? keyword.name = some (.header keyword) := by
      cases keyword <;> decide
    refine within_named (.header keyword) _ h ht hname.1 hname.2.1 hname.2.2 (.inl rfl) rfl
      (isChain_closing hw.1 hw.2.1 rfl) (by simp) ?_
    rw [trim_blank, hw.2.2, String.ofList_toList]
    rfl
  | otherwise =>
    exact within_named (.ending .elseTag) [] h ht (by decide) (by decide)
      (by decide) (.inr rfl) rfl (.singleton _) (by simp) rfl
  | finish =>
    obtain ⟨tag, hall, hname, htag⟩ : ∃ tag, (['e', 'n', 'd'] ++ k.name).all isNamePart ∧
        Scope.named? (['e', 'n', 'd'] ++ k.name) = some (.ending tag) ∧ tag.instr = .finish := by
      cases k
      · exact ⟨.endIf, by decide, by decide, rfl⟩
      · exact ⟨.endFor, by decide, by decide, rfl⟩
      · exact ⟨.endWhile, by decide, by decide, rfl⟩
    exact within_named (.ending tag) [] h ht hall (by simp) hname (.inr rfl) rfl
      (.singleton _) (by simp) (congrArg some htag)
  | openBlock name =>
    refine within_named .blockName _ h ht (by decide) (by decide) (by decide) (.inl rfl)
      rfl (isChain_closing hw.2.1 hw.2.2.1 rfl) (by simp) ?_
    rw [trim_blank, hw.2.2.2, String.ofList_toList]
    simp [Scope.instr?, hw.1]
  | closeBlock =>
    exact within_named (.ending .endBlock) [] h ht (by decide) (by decide)
      (by decide) (.inr rfl) rfl (.singleton _) (by simp) rfl

/-- Text outside of tags is kept until a tag or the end of the template. -/
theorem within_raw {text : String} (hw : (Instr.raw text).Writable)
    (h : s.ahead = text.toList ++ rest) (ht : s.tags = []) (hr : rest.head? ≠ some '\x7d') :
    Within text.toList.length s { s with
      behind := text.toList.reverse ++ s.behind
      ahead := rest
      raw := text.toList.reverse ++ s.raw } := by
  have hscope : s.scope? = none := by simp [scope?, ht]
  have hread : s.readText text.toList rest = { s with
      behind := text.toList.reverse ++ s.behind
      ahead := rest
      raw := text.toList.reverse ++ s.raw } := by
    rw [readText, collectAll_eq_raw (by exact ht)]
  rw [← hread]
  refine within_collect h (by rw [hscope]; rfl) ?_ (.inr hr)
  rw [hscope]
  refine (hw.2.1.isChain (by simp [closer?])).append ?_ fun c hc d _ => ⟨?_, by simp [closer?]⟩
  · cases rest <;> simp
  · have hne : c ≠ '\x7b' := by rintro rfl; exact hw.2.2 hc
    simp [opens, hne]

theorem flushRaw_instrs (text : List Char) (hraw : s.raw = text.reverse) (hne : text ≠ []) :
    s.flushRaw.instrs = .raw (String.ofList text) :: s.instrs := by
  have hs : s.raw ≠ [] := by simpa [hraw] using hne
  have : s.flushRaw = { s.emit (.raw (String.ofList s.raw.reverse)) with raw := [] } := by
    cases h : s.raw with
    | nil => exact absurd h hs
    | cons => simp [flushRaw, h]
  simp [this, emit, hraw]

end Scan

/-! ### Reading a whole template -/

theorem Printable.tail {i : Instr} {is : List Instr} (h : Printable (i :: is)) : Printable is where
  writable j hj := h.writable j (List.mem_cons_of_mem _ hj)
  follows := (List.isChain_cons.1 h.follows).2
  last := by
    cases is with
    | nil => simp
    | cons j is => simpa [List.getLast?_cons_cons] using h.last

theorem Printable.next {i j : Instr} {is : List Instr} (h : Printable (i :: j :: is)) :
    (i.isRaw → ¬ j.isRaw) ∧ (i = .trim → j.isTag) :=
  (List.isChain_cons.1 h.follows).1 j rfl

theorem head?_written {i : Instr} (hi : i.isTag) (k : Keyword) (dash : Bool) (rest : List Char) :
    (i.written k dash ++ rest).head? = some '\x7b' := by
  cases i <;> simp_all [Instr.isTag, Instr.written, tagSource]

/-- What does not start with text starts with the mark of a tag. -/
theorem head?_print {is : List Instr} (h : Printable is) (endings : Nat → Keyword) (dash : Bool)
    (hraw : ∀ i ∈ is.head?, ¬ i.isRaw) : (print endings dash is).head? ≠ some '\x7d' := by
  match is with
  | [] => simp [print]
  | i :: is =>
    by_cases hi : i.isTag
    · rw [print, head?_written hi]; decide
    · obtain rfl : i = .trim := by
        cases i <;> first | rfl | exact absurd rfl hi | exact absurd rfl (hraw _ rfl)
      match is with
      | [] => simp [print, Instr.written]
      | j :: is =>
        have hj := h.next.2 rfl
        rw [print, print, Instr.written, List.nil_append, head?_written hj]
        decide

namespace Scan

/-- **Reading what has been printed.**  Outside of all tags the source of some instructions is read
up to its end, and the scan then holds these instructions after those it had before. -/
theorem within_print {is : List Instr} (h : Printable is) (endings : Nat → Keyword) (dash : Bool)
    {s : Scan} (ha : s.ahead = print endings dash is) (ht : s.tags = [])
    (hraw : s.raw ≠ [] → ∀ i ∈ is.head?, ¬ i.isRaw) (hdash : dash → ∃ i ∈ is.head?, i.isTag) :
    ∃ s', Within (print endings dash is).length s s' ∧ s'.ahead = [] ∧ s'.tags = [] ∧
      s'.flushRaw.instrs = is.reverse ++ (trimmed dash ++ s.flushRaw.instrs) := by
  induction is generalizing endings dash s with
  | nil =>
    have hd : dash = false := by
      cases dash with
      | false => rfl
      | true => simpa using hdash rfl
    exact ⟨s, .refl s, by simpa [print] using ha, ht, by simp [hd, trimmed]⟩
  | cons i is ih =>
    have hlen : (print endings dash (i :: is)).length = (i.written (endings 0) dash).length +
        (print (fun n => endings (n + 1)) (i == .trim) is).length := by simp [print]
    by_cases hi : i.isTag
    · -- a tag: the text before it is turned into an instruction
      have hne : (i == .trim) = false := by cases i <;> first | rfl | cases hi
      rw [print, hne] at ha
      rw [hne] at hlen
      have h₁ := within_written (endings 0) (h.writable i (by simp)) hi ha ht
      obtain ⟨s', h₂, ha', ht', hs'⟩ := ih h.tail (fun n => endings (n + 1)) false
        (s := s.passed (i.written (endings 0) dash)
          (print (fun n => endings (n + 1)) false is) (i :: trimmed dash))
        rfl (by simp [passed, ht]) (by simp [passed]) (by simp)
      refine ⟨s', (h₁.trans h₂).mono hlen.ge, ha', ht', hs'.trans ?_⟩
      rw [flushRaw_of_raw (by simp [passed])]
      simp [passed, trimmed]
    · have hd : dash = false := by
        cases dash with
        | false => rfl
        | true => exact absurd (by simpa using hdash rfl) hi
      subst hd
      cases hr : i.isRaw with
      | true =>
        -- text: no text has been kept, and what follows is no text
        obtain ⟨text, rfl⟩ : ∃ text, i = .raw text := by
          cases i <;> first | exact ⟨_, rfl⟩ | cases hr
        have hw := h.writable _ (List.mem_cons_self ..)
        have hnext : ∀ j ∈ is.head?, ¬ j.isRaw := by
          intro j hj
          cases is with
          | nil => simp at hj
          | cons j' is =>
            obtain rfl : j' = j := by simpa using hj
            exact h.next.1 rfl
        have hempty : s.raw = [] := by
          by_contra hne
          exact hraw hne _ rfl rfl
        have h₁ := within_raw hw ha ht (head?_print h.tail _ _ hnext)
        obtain ⟨s', h₂, ha', ht', hs'⟩ := ih h.tail (fun n => endings (n + 1)) false
          (s := { s with
            behind := text.toList.reverse ++ s.behind
            ahead := print (fun n => endings (n + 1)) false is
            raw := text.toList.reverse ++ s.raw })
          rfl ht (fun _ => hnext) (by simp)
        refine ⟨s', (h₁.trans h₂).mono hlen.ge, ha', ht', hs'.trans ?_⟩
        rw [flushRaw_instrs text.toList (by simp [hempty]) (by simpa using hw.1)]
        rw [flushRaw_of_raw hempty]
        simp [trimmed]
      | false =>
        -- a trim mark: it is read with the tag after it
        obtain rfl : i = .trim := by
          cases i <;> first | rfl | exact absurd rfl hi | cases hr
        have hnext : ∃ j ∈ is.head?, j.isTag := by
          cases is with
          | nil => exact absurd rfl h.last
          | cons j is => exact ⟨j, rfl, h.next.2 rfl⟩
        obtain ⟨s', h₂, ha', ht', hs'⟩ := ih h.tail (fun n => endings (n + 1)) true
          (s := s) ha ht
          (fun _ j hj hjr => by
            obtain ⟨j', hj', htag⟩ := hnext
            obtain rfl : j' = j := Option.some.inj (hj'.symm.trans hj)
            exact Instr.not_isRaw_of_isTag htag hjr)
          (fun _ => hnext)
        refine ⟨s', h₂.mono (by rw [hlen]; exact Nat.le_add_left _ _), ha', ht', hs'.trans ?_⟩
        simp [trimmed]

end Scan

/-- **Reading undoes printing.**  However the ends of control flow are spelled and whatever the
resolvers and the origin are, a printed template is read as the instructions it was printed from. -/
theorem read_print (engine : Engine) (origin : Option String) (endings : Nat → Keyword)
    {is : List Instr} (h : Printable is) {turns : Nat}
    (ht : (print endings false is).length < turns) :
    (read turns engine origin (String.ofList (print endings false is))).outcome = .ok is := by
  obtain ⟨s, hs, ha, htags, hinstrs⟩ := Scan.within_print h endings false
    (s := Scan.start engine origin (String.ofList (print endings false is)))
    (by simp [Scan.start]) rfl (by simp [Scan.start]) (by simp)
  have hturn : s.turn = .done s.flushRaw := by simp [Scan.turn, Scan.flush, ha, htags]
  have hrun := hs.run_eq hturn (by simp) ht
  have hstart : (Scan.start engine origin
      (String.ofList (print endings false is))).flushRaw.instrs = [] := rfl
  simp [read, hrun, Scan.instructions, hinstrs, hstart, Scan.trimmed]

/-- A branch in which a block is written, with text and trim marks around its tags. -/
def branch : List Instr :=
  [.raw "a \x7b\x7d%\x7d", .trim, .start .ifTag "x \x7d\x7d", .openBlock "+b", .emit "x %\x7d", .closeBlock,
    .otherwise, .exec "f()", .trim, .finish, .raw "z\x7d"]

theorem read_print_branch :
    Printable branch ∧
    (read 200 (.new Include.Disk.empty) (some "o")
      (String.ofList (print (fun _ => .ifTag) false branch))).outcome = .ok branch := by
  have h : Printable branch := ⟨by decide, by decide, by decide⟩
  exact ⟨h, read_print _ _ _ h (by decide)⟩

end Stencil.Template
