import Stencil.Proofs.Script.Whole
import Stencil.Proofs.Template.Quoting

/-!
# The tokens of a chunk

A chunk is put together from texts, and it is read as tokens.  Each instruction has tokens of its
own (`Instr.tokens`): no piece of a chunk runs into the next one, because a text that a template
gives is followed by a line break.  So the tokens of a chunk are those of its instructions between
two constant parts (`tokensAt_chunk`).
-/

namespace Stencil.Template

open Script
open Stencil.Text (Bytes bytesOf bytesOf_append encode)

/-- The tokens of a statement that calls a function. -/
def callTokens (f : String) (args : List Token) : List Token :=
  .name (bytesOf f) :: .mark .openParen :: (args ++ [.mark .closeParen, .mark .semicolon])

/-- The tokens of a condition in parentheses, after a word and before another. -/
def conditionTokens (w : Word) (ts : List Token) (w' : Word) : List Token :=
  .word w :: .mark .openParen :: (ts ++ [.mark .closeParen, .word w'])

namespace Instr

/-- The tokens of an instruction. -/
def tokens : Instr → List Token
  | .raw text => callTokens "__append" [quotedToken text]
  | .emit expr => callTokens "__append" (lineTokens (bytesOf expr))
  | .exec stmt => lineTokens (bytesOf stmt)
  | .start .ifTag header => conditionTokens .if (lineTokens (bytesOf header)) .then
  | .start .whileTag header => conditionTokens .while (lineTokens (bytesOf header)) .do
  | .start .forTag header => .word .for :: (lineTokens (bytesOf header) ++ [.word .do])
  | .otherwise => [.word .else]
  | .finish => [.word .end]
  | .openBlock name => callTokens "__open" [quotedToken name]
  | .closeBlock => callTokens "__close" []
  | .trim => callTokens "__trim" []

/-- The text that an instruction embeds can be lexed up to its end. -/
def IsLexed : Instr → Prop
  | .emit text | .exec text | .start _ text => IsLine (bytesOf text)
  | _ => True

end Instr

/-! ### Pieces -/

variable {t : Bytes}

/-- Constant text that ends with a line. -/
theorem spells_constant {s : Bytes} {ts : List Token} (hs : s.getLast? = some (byte '\n'))
    (h : tokensAt 1 s = ts ++ [.eof]) : Spells s ts t := by
  obtain ⟨u, rfl⟩ := List.getLast?_eq_some_iff.1 hs
  have hline : IsLine u := by rw [IsLine, h, List.getLast?_concat]
  have heq : lineTokens u = ts := by rw [lineTokens, h, List.dropLast_concat]
  exact heq ▸ spells_line hline

/-- The start of a call. -/
theorem spells_open {f : Bytes} (hf : IsNameLike f) :
    Spells (f ++ bytesOf "(") [nameToken f, .mark .openParen] t :=
  .append (.nameLike hf rfl) (.mark (.inl rfl))

/-- A call of a function as a line of its own. -/
theorem spells_call {f start : String} (hstart : bytesOf start = bytesOf f ++ bytesOf "(")
    (hf : IsNameLike (bytesOf f)) (hname : nameToken (bytesOf f) = .name (bytesOf f)) {a : Bytes}
    {ts : List Token} (ha : Spells a ts (bytesOf ");\n" ++ t)) :
    Spells (bytesOf start ++ (a ++ bytesOf ");\n")) (callTokens f ts) t := by
  rw [hstart, callTokens, ← hname]
  exact .append (spells_open hf) (.append ha (spells_constant (by decide) (by decide)))

/-- A condition in parentheses after a word, and the word after it. -/
theorem spells_condition {x : Bytes} {w w' : Word} (hx : IsNameLike x)
    (hword : nameToken x = .word w) {a u : Bytes} {ts : List Token} (ha : Spells a ts (u ++ t))
    (hu : u.getLast? = some (byte '\n'))
    (htokens : tokensAt 1 u = [.mark .closeParen, .word w'] ++ [.eof]) :
    Spells (x ++ (bytesOf " " ++ bytesOf "(") ++ (a ++ u)) (conditionTokens w ts w') t := by
  rw [conditionTokens, ← hword]
  exact .append (.append (.nameLike hx rfl) (.space (.mark (.inl rfl))))
    (.append ha (spells_constant hu htokens))

/-- A text before a line break, in front of more text of the chunk. -/
theorem spells_text {text : String} (h : IsLine (bytesOf text)) :
    Spells (bytesOf (text ++ "\n")) (lineTokens (bytesOf text)) t := by
  rw [bytesOf_append]
  exact spells_line h

/-- **Pieces.**  The script of an instruction stands for its tokens, whatever comes after it. -/
theorem spells_script {i : Instr} (h : i.IsLexed) : Spells (bytesOf i.script) i.tokens t := by
  match i, h with
  | .raw text, _ =>
    rw [Instr.script, bytesOf_append, bytesOf_append, List.append_assoc]
    exact spells_call (by decide) (by decide) (by decide) (spells_quote text _)
  | .emit expr, h =>
    have hbytes : bytesOf (Instr.script (.emit expr)) =
        bytesOf "__append(" ++ (bytesOf (expr ++ "\n") ++ bytesOf ");\n") := by
      simp only [Instr.script, bytesOf_append, List.append_assoc]
      rfl
    rw [hbytes]
    exact spells_call (by decide) (by decide) (by decide) (spells_text h)
  | .exec stmt, h =>
    exact spells_text h
  | .start .ifTag header, h =>
    have hbytes : bytesOf (Instr.script (.start .ifTag header)) =
        bytesOf "if" ++ (bytesOf " " ++ bytesOf "(") ++
          (bytesOf (header ++ "\n") ++ bytesOf ") then\n") := by
      simp only [Instr.script, bytesOf_append, List.append_assoc]
      rfl
    rw [hbytes]
    exact spells_condition (by decide) (by decide) (spells_text h) (by decide) (by decide)
  | .start .whileTag header, h =>
    have hbytes : bytesOf (Instr.script (.start .whileTag header)) =
        bytesOf "while" ++ (bytesOf " " ++ bytesOf "(") ++
          (bytesOf (header ++ "\n") ++ bytesOf ") do\n") := by
      simp only [Instr.script, bytesOf_append, List.append_assoc]
      rfl
    rw [hbytes]
    exact spells_condition (by decide) (by decide) (spells_text h) (by decide) (by decide)
  | .start .forTag header, h =>
    have hbytes : bytesOf (Instr.script (.start .forTag header)) =
        bytesOf "for" ++ (bytesOf " " ++ (bytesOf (header ++ "\n") ++ bytesOf "do\n")) := by
      simp only [Instr.script, bytesOf_append, List.append_assoc]
      rfl
    rw [hbytes]
    have hdo : Spells (bytesOf "do\n") [.word .do] t := spells_constant (by decide) (by decide)
    have htext : Spells (bytesOf (header ++ "\n") ++ bytesOf "do\n")
        (lineTokens (bytesOf header) ++ [.word .do]) t :=
      .append (spells_text h) hdo
    have hword : Spells (bytesOf "for") [.word .for]
        (bytesOf " " ++ (bytesOf (header ++ "\n") ++ bytesOf "do\n") ++ t) :=
      .nameLike (by decide) rfl
    exact hword.append htext.space
  | .otherwise, _ => exact spells_constant (by decide) (by decide)
  | .finish, _ => exact spells_constant (by decide) (by decide)
  | .openBlock name, _ =>
    rw [Instr.script, bytesOf_append, bytesOf_append, List.append_assoc]
    exact spells_call (by decide) (by decide) (by decide) (spells_quote name _)
  | .closeBlock, _ => exact spells_constant (by decide) (by decide)
  | .trim, _ => exact spells_constant (by decide) (by decide)

theorem spells_scripts {is : List Instr} (h : ∀ i ∈ is, i.IsLexed) :
    Spells (is.flatMap fun i => bytesOf i.script) (is.flatMap Instr.tokens) t := by
  induction is with
  | nil => exact .nil
  | cons i is ih =>
    exact .append (spells_script (h i (List.mem_cons_self ..)))
      (ih fun j hj => h j (List.mem_cons_of_mem _ hj))

/-! ### Chunks -/

/-- The tokens of the first line. -/
def preambleTokens : List Token :=
  [.word .local, .name (bytesOf "__append"), .mark .comma, .name (bytesOf "__open"), .mark .comma,
    .name (bytesOf "__close"), .mark .comma, .name (bytesOf "__trim"), .mark .comma,
    .name (bytesOf "__render"), .mark .comma, .name (bytesOf "_OPTIONS"), .mark .assign,
    .mark .dots]

/-- The tokens of the line that starts the body. -/
def functionTokens : List Token :=
  [.word .local, .word .function, .name (bytesOf "__body"), .mark .openParen, .mark .closeParen]

/-- The tokens before the instructions. -/
def openingTokens : List Token :=
  preambleTokens ++ ((Instr.openBlock "root").tokens ++ functionTokens)

/-- The tokens after the end of the body. -/
def closingTokens : List Token :=
  [.name (bytesOf "__body"), .mark .openParen, .mark .closeParen, .word .return,
    .name (bytesOf "__render"), .mark .openParen, .mark .closeParen, .eof]

theorem bytesOf_foldl (is : List Instr) (s : String) :
    bytesOf (is.foldl (fun text i => text ++ i.script) s) =
      bytesOf s ++ is.flatMap fun i => bytesOf i.script := by
  induction is generalizing s with
  | nil => exact (List.append_nil _).symm
  | cons i is ih => rw [List.foldl_cons, ih, bytesOf_append, List.append_assoc, List.flatMap_cons]

theorem bytesOf_opening :
    bytesOf opening = bytesOf preamble ++
      (bytesOf (Instr.openBlock "root").script ++ bytesOf "local function __body()\n") := by
  simp only [opening, Instr.script, bytesOf_append, List.append_assoc]

/-- The bytes of a chunk piece by piece.  Together with `bytesOf_opening` it keeps a chunk short to
evaluate, because the characters of a string are found from its first byte on. -/
theorem bytesOf_chunk (is : List Instr) :
    bytesOf (chunk is) =
      bytesOf opening ++ ((is.flatMap fun i => bytesOf i.script) ++ bytesOf closing) := by
  rw [chunk, bytesOf_append, bytesOf_append, bytesOf_foldl, List.append_assoc]
  rfl

theorem spells_opening : Spells (bytesOf opening) openingTokens t := by
  have hroot : (Instr.openBlock "root").IsLexed := trivial
  rw [bytesOf_opening, openingTokens]
  exact .append (spells_constant (by decide +kernel) (by decide +kernel))
    (.append (spells_script hroot) (spells_constant (by decide +kernel) (by decide +kernel)))

/-- **Chunks.**  The tokens of a chunk are those of its instructions, between two constant parts; the
body ends as control flow does. -/
theorem tokensAt_chunk {is : List Instr} (h : ∀ i ∈ is, i.IsLexed) :
    tokensAt 1 (bytesOf (chunk is)) =
      openingTokens ++ ((is ++ [Instr.finish]).flatMap Instr.tokens ++ closingTokens) := by
  have hbytes : bytesOf (chunk is) = bytesOf opening ++
      (((is ++ [Instr.finish]).flatMap fun i => bytesOf i.script) ++
        bytesOf "__body()\nreturn __render()\n") := by
    have hclosing : bytesOf closing =
        bytesOf (Instr.script .finish) ++ bytesOf "__body()\nreturn __render()\n" := by
      rw [← bytesOf_append]
      rfl
    rw [bytesOf_chunk, hclosing, List.flatMap_append, List.flatMap_singleton, List.append_assoc]
  have hlexed : ∀ i ∈ is ++ [Instr.finish], i.IsLexed := by
    intro i hi
    rcases List.mem_append.1 hi with hi | hi
    · exact h i hi
    · rw [List.mem_singleton.1 hi]
      trivial
  have hclosing : Spells (bytesOf "__body()\nreturn __render()\n") closingTokens.dropLast [] :=
    spells_constant (by decide +kernel) (by decide +kernel)
  have hspells := spells_opening.append ((spells_scripts hlexed).append hclosing)
  obtain ⟨line, htokens⟩ := hspells 1
  rw [List.append_nil, tokensAt_nil] at htokens
  rw [hbytes, htokens]
  simp [closingTokens]

end Stencil.Template
