import Stencil.Proofs.Script.Complete
import Stencil.Proofs.Template.Calls
import Stencil.Proofs.Template.Nesting

/-!
# Structured instructions

Instructions whose control flow is balanced are the same as a tree of constructs (`exists_code`).  The
tree says which statements the instructions stand for: those of each instruction, one after the other
and nested like the constructs (`Code.tree`).
-/

namespace Stencil.Template

open Script
open Stencil.Text (Bytes bytesOf)

/-- Whether an instruction stands by itself: it neither starts control flow nor belongs to one. -/
def Instr.isPlain : Instr → Bool
  | .start _ _ | .otherwise | .finish => false
  | _ => true

/-- Instructions as a tree of constructs: the first part, and what comes after it. -/
inductive Code where
  /-- Nothing. -/
  | done
  /-- An instruction that stands by itself. -/
  | plain (i : Instr) (hi : i.isPlain) (next : Code)
  /-- A choice without another branch. -/
  | choice (header : String) (body next : Code)
  /-- A choice with another branch. -/
  | branch (header : String) (body other next : Code)
  /-- A loop with a condition. -/
  | while (header : String) (body next : Code)
  /-- A loop over values. -/
  | for (header : String) (body next : Code)

namespace Code

/-- The instructions of a tree. -/
def flatten : Code → List Instr
  | .done => []
  | .plain i _ next => i :: next.flatten
  | .choice header body next =>
    .start .ifTag header :: (body.flatten ++ .finish :: next.flatten)
  | .branch header body other next =>
    .start .ifTag header ::
      (body.flatten ++ .otherwise :: (other.flatten ++ .finish :: next.flatten))
  | .while header body next =>
    .start .whileTag header :: (body.flatten ++ .finish :: next.flatten)
  | .for header body next => .start .forTag header :: (body.flatten ++ .finish :: next.flatten)

/-- The construct of a keyword without another branch. -/
def construct : Keyword → String → Code → Code → Code
  | .ifTag => .choice
  | .whileTag => .while
  | .forTag => .for

theorem flatten_construct (k : Keyword) (header : String) (body next : Code) :
    (construct k header body next).flatten =
      .start k header :: (body.flatten ++ .finish :: next.flatten) := by
  cases k <;> rfl

/-- The instructions up to the first one that belongs to what surrounds them are a tree. -/
theorem exists_of_blockRest {is rest : List Instr} (h : blockRest [] is = some rest) :
    ∃ code : Code, is = code.flatten ++ rest := by
  induction hlen : is.length using Nat.strong_induction_on generalizing is rest with
  | _ n ih =>
    match is, hlen with
    | [], _ =>
      rw [← Option.some.inj h]
      exact ⟨.done, rfl⟩
    | i :: is, hlen =>
      rw [List.length_cons] at hlen
      have hplain (hi : i.isPlain) (h : blockRest [] is = some rest) :
          ∃ code : Code, i :: is = code.flatten ++ rest := by
        obtain ⟨next, rfl⟩ := ih is.length (by omega) h rfl
        exact ⟨.plain i hi next, rfl⟩
      cases i with
      | finish =>
        rw [← Option.some.inj h]
        exact ⟨.done, rfl⟩
      | otherwise =>
        rw [← Option.some.inj h]
        exact ⟨.done, rfl⟩
      | start k header =>
        rw [blockRest_start, Option.bind_eq_some_iff] at h
        obtain ⟨rest₁, hbody, hleave⟩ := h
        obtain ⟨body, rfl⟩ := ih is.length (by omega) hbody rfl
        rw [List.length_append] at hlen
        -- A body stops at its end, or at the other branch of a choice.
        match rest₁, hleave with
        | .finish :: is', hleave =>
          rw [List.length_cons] at hlen
          have hnext : blockRest [] is' = some rest := by
            cases k <;> exact hleave
          obtain ⟨next, rfl⟩ := ih is'.length (by omega) hnext rfl
          exact ⟨construct k header body next, by rw [flatten_construct]; simp⟩
        | .otherwise :: is', hleave =>
          rw [List.length_cons] at hlen
          cases k with
          | forTag => cases hleave
          | whileTag => cases hleave
          | ifTag =>
            have hafter : blockRest [.other] is' = some rest := hleave
            rw [← List.nil_append [Construct.other], blockRest_nested, Option.bind_eq_some_iff] at hafter
            obtain ⟨rest₂, hother, hend⟩ := hafter
            obtain ⟨other, rfl⟩ := ih is'.length (by omega) hother rfl
            rw [List.length_append] at hlen
            match rest₂, hend with
            | .finish :: is'', hend =>
              rw [List.length_cons] at hlen
              have hnext : blockRest [] is'' = some rest := hend
              obtain ⟨next, rfl⟩ := ih is''.length (by omega) hnext rfl
              exact ⟨.branch header body other next, by simp [flatten]⟩
      | _ => exact hplain rfl h

end Code

/-- **Structure.**  Instructions whose control flow is balanced are a tree of constructs. -/
theorem exists_code {is : List Instr} (h : Balanced is) : ∃ code : Code, code.flatten = is := by
  have hrest := blockRest_append (balanced_iff.1 h) []
  rw [List.append_nil] at hrest
  obtain ⟨code, hcode⟩ := Code.exists_of_blockRest (hrest.trans rfl)
  exact ⟨code, by rw [hcode, List.append_nil]⟩

/-! ### Statements -/

/-- The tree of an expression by itself, without lines. -/
def ownExpr (text : String) : Expr := ((ownExpr? text).getD .nil).unlined

/-- The header of a loop by itself, without lines. -/
def ownHeader (text : String) : Header := ((ownHeader? text).getD (.generic [] [] 0)).unlined

/-- The statements of a block by itself, without lines. -/
def ownBlock (text : String) : Block := Stat.allUnlined ((ownBlock? text).getD [])

/-- The statements of an instruction by itself, without lines. -/
def Instr.statements : Instr → Block
  | .raw text => [callStat "__append" [.string (bytesOf text)]]
  | .emit expr => [callStat "__append" [ownExpr expr]]
  | .exec stmt => ownBlock stmt
  | .openBlock name => [callStat "__open" [.string (bytesOf name)]]
  | .closeBlock => [callStat "__close" []]
  | .trim => [callStat "__trim" []]
  | .start .. | .otherwise | .finish => []

/-- The statements that instructions stand for, without lines: those of each instruction, one after the
other, and nested like the constructs. -/
def Code.tree : Code → Block
  | .done => []
  | .plain i _ next => i.statements ++ next.tree
  | .choice header body next => .if (.paren (ownExpr header)) body.tree [] :: next.tree
  | .branch header body other next =>
    .if (.paren (ownExpr header)) body.tree other.tree :: next.tree
  | .while header body next => .while (.paren (ownExpr header)) body.tree :: next.tree
  | .for header body next => (ownHeader header).loop body.tree 0 :: next.tree

/-- Whether the text of an instruction is complete by itself: one expression, one header of a loop, or
a block that other statements can follow. -/
def Instr.isComplete : Instr → Bool
  | .exec stmt => (ownBlock? stmt).isSome && (bytesOf stmt).head? != some (byte '\r')
  | .emit text | .start .ifTag text | .start .whileTag text => (ownExpr? text).isSome
  | .start .forTag text => (ownHeader? text).isSome
  | _ => true

/-- Whether what comes after a statement that a template gives begins anew: with a name or a word. -/
def isApart : List Instr → Bool
  | [] => true
  | .exec _ :: is => (is.flatMap Instr.tokens).head?.all Token.begins && isApart is
  | _ :: is => isApart is

theorem isApart_append {a b : List Instr} (h : isApart (a ++ b)) : isApart a ∧ isApart b := by
  induction a with
  | nil => exact ⟨rfl, h⟩
  | cons i a ih =>
    cases i with
    | exec stmt =>
      rw [List.cons_append, isApart, Bool.and_eq_true, List.flatMap_append] at h
      obtain ⟨hhead, htail⟩ := h
      obtain ⟨ha, hb⟩ := ih htail
      refine ⟨?_, hb⟩
      rw [isApart, ha, Bool.and_true]
      cases htokens : a.flatMap Instr.tokens with
      | nil => rfl
      | cons t ts =>
        rw [htokens] at hhead
        exact hhead
    | _ => exact ih h

end Stencil.Template
