import Stencil.Proofs.Script.Alone
import Stencil.Proofs.Template.Pieces

/-!
# Instructions keep their tokens apart

A text that a template embeds in a chunk cannot reach out of its instruction: if it is complete by
itself, the tokens of the chunk are the tokens of its instructions one after the other, and each of
them has the tokens of its own text inside its own fixed ones (`lex_chunk`).  A comment at the end of a
text is no exception, because a line break follows it.
-/

namespace Stencil.Template

open Script
open Stencil.Text (Bytes bytesOf)

namespace Instr

/-- The text that an instruction embeds is complete by itself. -/
def IsAlone : Instr → Prop
  | .emit text | .exec text | .start _ text => Script.IsAlone (bytesOf text)
  | _ => True

instance : (i : Instr) → Decidable i.IsAlone
  | .emit _ | .exec _ | .start _ _ => inferInstanceAs (Decidable (Script.IsAlone _))
  | .raw _ | .otherwise | .finish | .openBlock _ | .closeBlock | .trim =>
    inferInstanceAs (Decidable True)

/-- The tokens of the text of an instruction.  A text to copy and a name are one string. -/
def own : Instr → List Token
  | .emit text | .exec text | .start _ text => ownTokens (bytesOf text)
  | .raw text | .openBlock text => [quotedToken text]
  | _ => []

/-- The fixed tokens of an instruction, around those of its text. -/
def around (text : List Token) : Instr → List Token
  | .raw _ | .emit _ => callTokens "__append" text
  | .exec _ => text
  | .start .ifTag _ => conditionTokens .if text .then
  | .start .whileTag _ => conditionTokens .while text .do
  | .start .forTag _ => .word .for :: (text ++ [.word .do])
  | .otherwise => [.word .else]
  | .finish => [.word .end]
  | .openBlock _ => callTokens "__open" text
  | .closeBlock => callTokens "__close" text
  | .trim => callTokens "__trim" text

theorem IsAlone.isLexed {i : Instr} (h : i.IsAlone) : i.IsLexed ∧ i.tokens = i.around i.own := by
  have hline {text : String} (h : Script.IsAlone (bytesOf text)) :=
    lineTokens_eq (spells_alone h [])
  match i, h with
  | .emit _, h | .exec _, h | .start .ifTag _, h | .start .whileTag _, h | .start .forTag _, h =>
    exact ⟨(hline h).1, by rw [tokens, (hline h).2]; rfl⟩
  | .raw _, _ | .otherwise, _ | .finish, _ | .openBlock _, _ | .closeBlock, _ | .trim, _ =>
    exact ⟨trivial, rfl⟩

end Instr

/-- **Tokens of chunks.**  If the texts of some instructions are complete by themselves, the tokens of
their chunk are constant ones, those of each instruction in order, and constant ones again; no text
changes the tokens of another. -/
theorem lex_chunk {is : List Instr} (h : ∀ i ∈ is, i.IsAlone) :
    (lex (bytesOf (chunk is))).map (·.token) =
      openingTokens ++
        (is.flatMap fun i => i.around i.own) ++ .word .end :: closingTokens := by
  have hlexed : ∀ i ∈ is, i.IsLexed := fun i hi => (h i hi).isLexed.1
  have htokens : is.flatMap Instr.tokens = is.flatMap fun i => i.around i.own := by
    rw [List.flatMap_def, List.flatMap_def, List.map_congr_left fun i hi => (h i hi).isLexed.2]
  rw [lex_eq_lexAt]
  refine (tokensAt_chunk hlexed).trans ?_
  rw [List.flatMap_append, htokens, List.append_assoc, List.append_assoc]
  rfl

/-- Comments, quotes and brackets stay inside their instructions. -/
theorem lex_chunk_comments :
    (∀ i ∈ [Instr.raw "]]\"--\n", .start .ifTag "x --[[ ) ]] -- note", .exec "s = '[[' --[ \"",
      .finish], i.IsAlone) ∧
    (lex (bytesOf (chunk [.raw "]]\"--\n", .start .ifTag "x --[[ ) ]] -- note",
        .exec "s = '[[' --[ \"", .finish]))).map (·.token) =
      openingTokens ++
        (callTokens "__append" [quotedToken "]]\"--\n"] ++
          (conditionTokens .if [.name (bytesOf "x")] .then ++
            [.name (bytesOf "s"), .mark .assign, .string (bytesOf "[[") (bytesOf "'[['"),
              .word .end])) ++ .word .end :: closingTokens := by
  have h : ∀ i ∈ [Instr.raw "]]\"--\n", .start .ifTag "x --[[ ) ]] -- note",
      .exec "s = '[[' --[ \"", .finish], i.IsAlone := by decide
  exact ⟨h, (lex_chunk h).trans (by decide)⟩

end Stencil.Template
