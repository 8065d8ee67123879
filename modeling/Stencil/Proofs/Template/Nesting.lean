import Mathlib.Data.List.Induction
import Stencil.Template.Instr

/-!
# Balanced instructions

Instructions are flat: which `finish` ends which control flow is a matter of counting.  `Balanced`
counts; `nestAll` goes through the instructions with the open constructs in hand, and
`balanced_iff` says that the two agree.  A reader that goes down into each construct stops at the
first instruction that belongs to what surrounds it: `blockRest` says where that is.
-/

namespace Stencil.Template

/-! ### Counting -/

/-- Whether an instruction starts control flow. -/
def Instr.isStart : Instr → Bool
  | .start _ _ => true
  | _ => false

/-- How many instructions start control flow. -/
def starts (is : List Instr) : Nat := is.countP Instr.isStart

/-- How many instructions end control flow. -/
def finishes (is : List Instr) : Nat := is.count .finish

/-- An open construct. -/
inductive Construct where
  /-- A choice that has no other branch yet. -/
  | choice
  /-- A choice with another branch, or a loop. -/
  | other
  deriving DecidableEq, Repr

/-- The construct that a keyword opens. -/
def Keyword.construct : Keyword → Construct
  | .ifTag => .choice
  | .forTag | .whileTag => .other

/-- The open constructs after one more instruction, the innermost first. -/
def openedBy (stack : List Construct) : Instr → List Construct
  | .start k _ => k.construct :: stack
  | .otherwise => .other :: stack.tail
  | .finish => stack.tail
  | _ => stack

/-- The open constructs after some instructions, the innermost first. -/
def opened (is : List Instr) : List Construct := is.foldl openedBy []

/-- Every `finish` has something to end, and every `otherwise` belongs to a choice. -/
structure Fits (is : List Instr) : Prop where
  /-- No prefix ends more than it starts. -/
  prefixes : ∀ a, a <+: is → finishes a ≤ starts a
  /-- What is open innermost before an `otherwise` is a choice that has none yet. -/
  branches : ∀ a, a ++ [.otherwise] <+: is → (opened a).head? = some .choice

/-- Instructions whose control flow is balanced. -/
structure Balanced (is : List Instr) : Prop extends Fits is where
  /-- As much is ended as is started. -/
  total : starts is = finishes is

/-! ### Stacks -/

/-- Goes on past an instruction that fits the open constructs. -/
def nest (stack : List Construct) : Instr → Option (List Construct)
  | .start k _ => some (k.construct :: stack)
  | .otherwise =>
    match stack with
    | .choice :: rest => some (.other :: rest)
    | _ => none
  | .finish =>
    match stack with
    | _ :: rest => some rest
    | [] => none
  | _ => some stack

/-- Goes on past some instructions. -/
def nestAll (stack : List Construct) (is : List Instr) : Option (List Construct) :=
  is.foldlM nest stack

@[simp]
theorem nestAll_nil (stack : List Construct) : nestAll stack [] = some stack := rfl

theorem nestAll_cons (stack : List Construct) (i : Instr) (is : List Instr) :
    nestAll stack (i :: is) = (nest stack i).bind fun stack => nestAll stack is := rfl

theorem nestAll_append (stack : List Construct) (is js : List Instr) :
    nestAll stack (is ++ js) = (nestAll stack is).bind fun stack => nestAll stack js := by
  rw [nestAll, List.foldlM_append]
  rfl

theorem opened_concat (is : List Instr) (i : Instr) :
    opened (is ++ [i]) = openedBy (opened is) i := by
  rw [opened, List.foldl_append]
  rfl

theorem starts_concat (is : List Instr) (i : Instr) :
    starts (is ++ [i]) = starts is + if i.isStart then 1 else 0 := by
  rw [starts, List.countP_append, List.countP_singleton]
  rfl

theorem finishes_concat (is : List Instr) (i : Instr) :
    finishes (is ++ [i]) = finishes is + if i = .finish then 1 else 0 := by
  rw [finishes, List.count_append, List.count_singleton]
  simp [finishes]

theorem Fits.of_prefix {is js : List Instr} (h : Fits js) (hp : is <+: js) : Fits is :=
  ⟨fun a ha => h.prefixes a (ha.trans hp), fun a ha => h.branches a (ha.trans hp)⟩

/-- Instructions that fit leave as many constructs open as they start and do not end. -/
theorem Fits.nestAll_eq {is : List Instr} (h : Fits is) :
    nestAll [] is = some (opened is) ∧ (opened is).length + finishes is = starts is := by
  induction is using List.reverseRecOn with
  | nil => exact ⟨rfl, rfl⟩
  | append_singleton is i ih =>
    obtain ⟨hnest, hlen⟩ := ih (h.of_prefix (List.prefix_append _ _))
    rw [nestAll_append, hnest, opened_concat, starts_concat, finishes_concat]
    cases i with
    | start k header => exact ⟨rfl, by simp [openedBy, Instr.isStart]; omega⟩
    | otherwise =>
      have hhead := h.branches is (List.prefix_refl _)
      match hopen : opened is, hhead with
      | .choice :: rest, _ =>
        rw [hopen, List.length_cons] at hlen
        exact ⟨rfl, by simp [openedBy, Instr.isStart]; omega⟩
    | finish =>
      have hcount := h.prefixes _ (List.prefix_refl _)
      rw [starts_concat, finishes_concat, if_pos rfl] at hcount
      match hopen : opened is with
      | [] =>
        rw [hopen] at hlen
        simp [Instr.isStart] at hlen hcount
        omega
      | _ :: rest =>
        rw [hopen, List.length_cons] at hlen
        exact ⟨rfl, by simp [openedBy, Instr.isStart]; omega⟩
    | _ => exact ⟨rfl, by simpa [openedBy, Instr.isStart] using hlen⟩

theorem Fits.of_nestAll {is : List Instr} (h : nestAll [] is ≠ none) : Fits is := by
  induction is using List.reverseRecOn with
  | nil =>
    refine ⟨fun a ha => ?_, fun a ha => ?_⟩
    · rw [List.prefix_nil.1 ha]
      exact Nat.le_refl 0
    · exact absurd (List.prefix_nil.1 ha) (by simp)
  | append_singleton is i ih =>
    rw [nestAll_append] at h
    have hne : Template.nestAll [] is ≠ none := fun hnone => h (by rw [hnone]; rfl)
    have hfits := ih hne
    obtain ⟨hnest, hlen⟩ := hfits.nestAll_eq
    rw [hnest, Option.bind_some, nestAll_cons] at h
    refine ⟨fun a ha => ?_, fun a ha => ?_⟩
    · rcases List.prefix_concat_iff.1 ha with rfl | ha
      · rw [starts_concat, finishes_concat]
        by_cases hi : i = .finish
        · -- the last `finish` ends something that is open
          subst hi
          match hopen : opened is with
          | [] =>
            rw [hopen] at h
            exact absurd rfl h
          | _ :: rest =>
            rw [hopen, List.length_cons] at hlen
            rw [if_pos rfl]
            omega
        · rw [if_neg hi]
          omega
      · exact hfits.prefixes a ha
    · rcases List.prefix_concat_iff.1 ha with heq | ha
      · obtain ⟨rfl, hi⟩ := List.append_inj' heq rfl
        rw [← List.singleton_inj.1 hi] at h
        match hopen : opened a with
        | .choice :: rest => rfl
        | .other :: rest => rw [hopen] at h; exact absurd rfl h
        | [] => rw [hopen] at h; exact absurd rfl h
      · exact hfits.branches a ha

theorem balanced_iff {is : List Instr} : Balanced is ↔ nestAll [] is = some [] := by
  constructor
  · intro h
    obtain ⟨hnest, hlen⟩ := h.toFits.nestAll_eq
    have htotal := h.total
    rw [hnest, List.length_eq_zero_iff.1 (show (opened is).length = 0 by omega)]
  · intro h
    have hfits : Fits is := Fits.of_nestAll (by rw [h]; exact Option.some_ne_none _)
    obtain ⟨hnest, hlen⟩ := hfits.nestAll_eq
    rw [h] at hnest
    rw [← Option.some.inj hnest] at hlen
    exact ⟨hfits, by simpa using hlen.symm⟩

/-! ### Blocks -/

/-- Goes down into constructs up to the first instruction that belongs to what surrounds the outer
ones, and answers what is left from there. -/
def blockRest : List Construct → List Instr → Option (List Instr)
  | [], [] => some []
  | _ :: _, [] => none
  | [], .finish :: is => some (.finish :: is)
  | [], .otherwise :: is => some (.otherwise :: is)
  | stack, i :: is => (nest stack i).bind fun stack => blockRest stack is

theorem blockRest_cons {stack : List Construct} {i : Instr}
    (h : stack ≠ [] ∨ i ≠ .finish ∧ i ≠ .otherwise) (is : List Instr) :
    blockRest stack (i :: is) = (nest stack i).bind fun stack => blockRest stack is := by
  cases stack with
  | cons => rw [blockRest] <;> simp
  | nil =>
    obtain ⟨hf, ho⟩ := h.resolve_left (by simp)
    cases i with
    | finish => exact absurd rfl hf
    | otherwise => exact absurd rfl ho
    | _ => rfl

theorem nest_append {stack : List Construct} {i : Instr}
    (h : stack ≠ [] ∨ i ≠ .finish ∧ i ≠ .otherwise) (outer : List Construct) :
    nest (stack ++ outer) i = (nest stack i).map (· ++ outer) := by
  cases stack with
  | nil =>
    obtain ⟨hf, ho⟩ := h.resolve_left (by simp)
    cases i with
    | finish => exact absurd rfl hf
    | otherwise => exact absurd rfl ho
    | _ => rfl
  | cons o stack => cases i <;> cases o <;> rfl

/-- What is balanced is passed over. -/
theorem blockRest_append {stack : List Construct} {a : List Instr} (h : nestAll stack a = some [])
    (rest : List Instr) : blockRest stack (a ++ rest) = blockRest [] rest := by
  induction a generalizing stack with
  | nil => rw [← Option.some.inj h]; rfl
  | cons i a ih =>
    rw [nestAll_cons] at h
    have hcons : stack ≠ [] ∨ i ≠ .finish ∧ i ≠ .otherwise := by
      refine Classical.byContradiction fun hne => ?_
      rw [not_or, Classical.not_not] at hne
      obtain ⟨rfl, hi⟩ := hne
      cases i with
      | finish => cases h
      | otherwise => cases h
      | _ => exact hi ⟨by simp, by simp⟩
    rw [List.cons_append, blockRest_cons hcons]
    cases hnest : nest stack i with
    | none => rw [hnest] at h; cases h
    | some stack' => rw [hnest] at h; exact ih h

/-- What has been passed over is balanced. -/
theorem blockRest_cases {stack : List Construct} {is rest : List Instr}
    (h : blockRest stack is = some rest) :
    (∃ a, is = a ++ rest ∧ nestAll stack a = some []) ∧
      (rest = [] ∨ ∃ is', rest = .finish :: is' ∨ rest = .otherwise :: is') := by
  induction is generalizing stack with
  | nil =>
    match stack, h with
    | [], h => rw [← Option.some.inj h]; exact ⟨⟨[], rfl, rfl⟩, .inl rfl⟩
  | cons i is ih =>
    by_cases hcons : stack ≠ [] ∨ i ≠ .finish ∧ i ≠ .otherwise
    · rw [blockRest_cons hcons] at h
      cases hnest : nest stack i with
      | none => rw [hnest] at h; cases h
      | some stack' =>
        rw [hnest] at h
        obtain ⟨⟨a, rfl, ha⟩, hrest⟩ := ih h
        exact ⟨⟨i :: a, rfl, by rw [nestAll_cons, hnest]; exact ha⟩, hrest⟩
    · rw [not_or, Classical.not_not] at hcons
      obtain ⟨rfl, hi⟩ := hcons
      cases i with
      | finish =>
        rw [← Option.some.inj h]
        exact ⟨⟨[], rfl, rfl⟩, .inr ⟨is, .inl rfl⟩⟩
      | otherwise =>
        rw [← Option.some.inj h]
        exact ⟨⟨[], rfl, rfl⟩, .inr ⟨is, .inr rfl⟩⟩
      | _ => exact absurd ⟨by simp, by simp⟩ hi

/-- What is left after a construct whose body stops at the first of some instructions. -/
def leave : Construct → List Instr → Option (List Instr)
  | _, .finish :: is => blockRest [] is
  | .choice, .otherwise :: is => blockRest [.other] is
  | _, _ => none

/-- Going down into a construct is passing over its body and leaving it. -/
theorem blockRest_nested (stack : List Construct) (o : Construct) (is : List Instr) :
    blockRest (stack ++ [o]) is = (blockRest stack is).bind (leave o) := by
  induction is generalizing stack with
  | nil => cases stack <;> cases o <;> rfl
  | cons i is ih =>
    by_cases hcons : stack ≠ [] ∨ i ≠ .finish ∧ i ≠ .otherwise
    · rw [blockRest_cons hcons, blockRest_cons (.inl (by simp)), nest_append hcons]
      cases nest stack i with
      | none => rfl
      | some stack' => exact ih stack'
    · rw [not_or, Classical.not_not] at hcons
      obtain ⟨rfl, hi⟩ := hcons
      cases i with
      | finish => rfl
      | otherwise => cases o <;> rfl
      | _ => exact absurd ⟨by simp, by simp⟩ hi

theorem blockRest_start (k : Keyword) (header : String) (is : List Instr) :
    blockRest [] (.start k header :: is) = (blockRest [] is).bind (leave k.construct) :=
  blockRest_nested [] k.construct is

theorem leave_other {rest : List Instr} (h : ∀ is', rest ≠ .finish :: is') :
    leave .other rest = none := by
  match rest, h with
  | [], _ => rfl
  | i :: is', h =>
    cases i with
    | finish => exact absurd rfl (h is')
    | _ => rfl

/-! ### The body of a function -/

/-- A `finish` too many comes first and a start too many comes later: the first one ends what
surrounds the instructions, and what ends that ends the other one. -/
def MadeUp (is : List Instr) : Prop :=
  ∃ a b, is = a ++ .finish :: b ∧ Balanced a ∧ Balanced (b ++ [.finish])

/-- Instructions fill the body of a function, up to the end of the function, if they are balanced
or if a `finish` too many is made up for later. -/
theorem blockRest_body {is : List Instr} :
    blockRest [.other] (is ++ [.finish]) = some [] ↔ Balanced is ∨ MadeUp is := by
  have hnested := blockRest_nested [] .other (is ++ [.finish])
  rw [List.nil_append] at hnested
  rw [hnested, Option.bind_eq_some_iff]
  constructor
  · rintro ⟨rest, hbody, hleave⟩
    obtain ⟨⟨a, ha, hbalanced⟩, -⟩ := blockRest_cases hbody
    match rest, hleave with
    | .finish :: r, hleave =>
      obtain ⟨⟨b, hb, hbalanced'⟩, -⟩ :=
        blockRest_cases (show blockRest [] r = some [] from hleave)
      rw [List.append_nil] at hb
      subst hb
      rcases List.eq_nil_or_concat r with rfl | ⟨b, i, rfl⟩
      · refine .inl (balanced_iff.2 ?_)
        rw [List.append_cancel_right ha]
        exact hbalanced
      · have ha' : is ++ [.finish] = (a ++ .finish :: b) ++ [i] := by simpa using ha
        obtain ⟨rfl, hi⟩ := List.append_inj' ha' rfl
        rw [← List.singleton_inj.1 hi, List.concat_eq_append] at hbalanced'
        exact .inr ⟨a, b, rfl, balanced_iff.2 hbalanced, balanced_iff.2 hbalanced'⟩
  · rintro (h | ⟨a, b, rfl, ha, hb⟩)
    · exact ⟨[.finish], blockRest_append (balanced_iff.1 h) [.finish], rfl⟩
    · refine ⟨.finish :: (b ++ [.finish]), ?_, ?_⟩
      · rw [List.append_assoc]
        exact blockRest_append (balanced_iff.1 ha) _
      · have hrest := blockRest_append (balanced_iff.1 hb) []
        rw [List.append_nil] at hrest
        exact hrest

end Stencil.Template
