import Stencil.Proofs.Script.Numerals
import Stencil.Proofs.Template.Built
import Stencil.Proofs.Template.Compiled
import Stencil.Proofs.Template.Program

/-!
# The scripts of structured programs

The instructions of a program are balanced, and each of their texts is complete by itself: a name is an
expression, and two integers are the header of a loop.  So the tree of the chunk of a program is known
(`parse_program`), unless a limit of the script language is hit.
-/

namespace Stencil.Template

-- powers as the core library has them, whatever else is imported
attribute [local instance (high)] instPowNat

open Script
open Stencil.Text (Bytes bytesOf bytesOf_append)

/-! ### Statements of programs -/

/-- An integer as an expression: a sign is an operator of its own. -/
def integerExpr (n : Int) : Expr :=
  if n < 0 then .unary .negate (.number (.int (Int64.ofInt n.natAbs))) 0
  else .number (.int (Int64.ofInt n.natAbs))

/-- The statement of an operation, without lines. -/
def Act.stat : Act → Stat
  | .raw text => callStat "__append" [.string (bytesOf text)]
  | .trim => callStat "__trim" []
  | .openBlock name => callStat "__open" [.string (bytesOf name)]
  | .closeBlock => callStat "__close" []

/-- The statements of a program, without lines. -/
def Program.tree : Program → Script.Block
  | .done => []
  | .act a rest => a.stat :: rest.tree
  | .emit x rest => callStat "__append" [.name (bytesOf x) 0] :: rest.tree
  | .choice x body rest => .if (.paren (.name (bytesOf x) 0)) body.tree [] :: rest.tree
  | .branch x body other rest =>
    .if (.paren (.name (bytesOf x) 0)) body.tree other.tree :: rest.tree
  | .loop x first last body rest =>
    .numericFor (bytesOf x) (integerExpr first) (integerExpr last) none body.tree 0 :: rest.tree

/-! ### Texts by themselves -/

section

variable {α : Type} {rule : Script.Level → Parse α} {text closer : String} {k : Token} {ts : List Token}

/-- A rule that takes the tokens of a text takes the text as a whole. -/
theorem alone_of_reads (hc : ∀ line, tokensAt line (bytesOf closer) = [k, .eof])
    (hend : ∀ line, tokensAt line (lineEnd (bytesOf closer)) = [k, .eof])
    (htext : Spells (bytesOf text) ts (lineEnd (bytesOf closer))) {P : α → Prop}
    (h : ∀ turns r, r.tokens = ts ++ [k, .eof] →
      Reads (fun _ => False) (rule (Script.Level.at turns maxDepth)) r fun a s ms =>
        s.tokens = [k, .eof] ∧ P a ∧ ∃ fs, Scope.run [Scope.bare] ms = .ok fs) :
    isWhole rule text closer ∧ ∃ a, own? rule text closer = some a ∧ P a := by
  have htokens : (lex (bytesOf text ++ lineEnd (bytesOf closer))).map (·.token) = ts ++ [k, .eof] := by
    obtain ⟨line, hline⟩ := htext 1
    rw [lex_eq_lexAt]
    exact hline.trans (by rw [hend])
  have hcloser : (lex (bytesOf closer)).map (·.token) = [k, .eof] := by
    rw [lex_eq_lexAt]
    exact hc 1
  rw [isWhole, own?]
  generalize lex (bytesOf text ++ lineEnd (bytesOf closer)) = lexemes at htokens
  have hreads := h (lexemes.length + 1) { ahead := lexemes } htokens
  rw [Reads] at hreads
  cases hrun : (rule (Level.at (lexemes.length + 1) maxDepth)).runOn { ahead := lexemes } with
  | mk outcome s =>
    rw [hrun] at hreads
    cases outcome with
    | error e => exact hreads.elim
    | ok a =>
      obtain ⟨ms, hms, hs, hP, fs, hfs⟩ := hreads
      have hcheck := Scope.checkFrom_eq [Scope.bare] s.mentions.reverse
      rw [List.map_reverse, hms, List.map_nil, List.append_nil, List.reverse_reverse, hfs,
        Option.map_eq_none_iff] at hcheck
      have hs : s.ahead.map (·.token) = [k, .eof] := hs
      simp only [hcloser, hcheck]
      exact ⟨by simpa using hs, a, by rw [if_pos hs], hP⟩

end

variable {x : String}

theorem nameToken_eq (hx : IsIdentifier x) : nameToken (bytesOf x) = .name (bytesOf x) := by
  rw [nameToken, hx.2.1]

/-- A name is an expression. -/
theorem alone_identifier (hx : IsIdentifier x) :
    isExpression x ∧ ∃ e, ownExpr? x = some e ∧ e.unlined = .name (bytesOf x) 0 := by
  have hspells (t : Bytes) : Spells (bytesOf x) [.name (bytesOf x)] (byte '\n' :: t) := by
    rw [← nameToken_eq hx]
    exact .nameLike hx.1 rfl
  refine alone_of_reads (fun _ => rfl) (fun _ => rfl) (hspells _) fun turns r hr => ?_
  · refine (reads_name (.inl rfl) hr).mono (fun _ => id) ?_
    rintro e s ms ⟨hs, ⟨line, rfl⟩, rfl⟩
    exact ⟨hs, rfl, _, rfl⟩

/-! ### Headers of loops -/

variable {r : Reader} {turns depth : Nat}

/-- An integer by itself. -/
theorem reads_integer {n : Int} (hk : k.Stops) (h : r.tokens = integerTokens n ++ k :: ts) :
    Reads (fun _ => False) (Script.Level.at turns (depth + 2)).anyExpr r fun e s ms =>
      s.tokens = k :: ts ∧ e.unlined = integerExpr n ∧ ms = [] := by
  rw [integerTokens] at h
  split at h
  next hn =>
    refine .bind (Q := fun e s ms => s.tokens = k :: ts ∧ e.unlined = integerExpr n ∧ ms = []) ?_ ?_
    · refine .peek h (.advance h rfl fun s hs => .lastLine fun line => ?_)
      have hnumber : Reads (fun _ => False) ((Script.Level.at turns depth).readExpr unaryBinding) s _ :=
        reads_numeral hk hs
      refine .bind hnumber ?_
      rintro _ s _ ⟨hs, rfl, rfl⟩
      refine .lastLine fun last => .pure ⟨hs, ?_, rfl⟩
      rw [integerExpr, if_pos hn]
      rfl
    · rintro e s _ ⟨hs, he, rfl⟩
      exact reads_operators_stop hk hs ⟨hs, he, rfl⟩
  next hn =>
    have hnumber : Reads (fun _ => False) ((Script.Level.at turns (depth + 1)).readExpr 0) r _ :=
      reads_numeral hk h
    refine hnumber.mono (fun _ => id) ?_
    rintro _ s _ ⟨hs, rfl, rfl⟩
    refine ⟨hs, ?_, rfl⟩
    rw [integerExpr, if_neg hn]
    rfl

/-- An integer that is used at once. -/
theorem reads_usedInteger {n : Int} (hk : k.Stops) (h : r.tokens = integerTokens n ++ k :: ts) :
    Reads (fun _ => False) (Script.Level.at turns (depth + 2)).usedExpr r fun e s ms =>
      s.tokens = k :: ts ∧ e.unlined = integerExpr n ∧ ms = [] := by
  refine .bind (reads_integer hk h) ?_
  rintro e s _ ⟨hs, he, rfl⟩
  exact .lastLine fun line => .pure ⟨hs, by rw [Expr.unlined_settle, he], rfl⟩

/-- An integer starts with a token that can be read. -/
theorem integerTokens_head (n : Int) (u : List Token) :
    ∃ t ts, integerTokens n ++ u = t :: ts ∧ Parse.valid t := by
  rw [integerTokens]
  split <;> exact ⟨_, _, rfl, rfl⟩

/-- The tokens of the header of a loop over integers. -/
def headerTokens (x : String) (first last : Int) : List Token :=
  .name (bytesOf x) :: .mark .assign ::
    (integerTokens first ++ .mark .comma :: integerTokens last)

/-- An equals sign before a blank. -/
theorem spells_assign {t : Bytes} : Spells (bytesOf "=") [.mark .assign] (byte ' ' :: t) :=
  .of_token (s := []) fun _ => rfl

theorem spells_loopHeader {first last : Int} (hx : IsIdentifier x) (hfirst : first.natAbs < 2 ^ (63 : Nat))
    (hlast : last.natAbs < 2 ^ (63 : Nat)) (t : Bytes) :
    Spells (bytesOf (loopHeader x first last)) (headerTokens x first last) (byte '\n' :: t) := by
  have hbytes : bytesOf (loopHeader x first last) =
      bytesOf x ++ (bytesOf " " ++ (bytesOf "=" ++ (bytesOf " " ++ (bytesOf (toString first) ++
        (bytesOf "," ++ (bytesOf " " ++ bytesOf (toString last))))))) := by
    simp only [loopHeader, bytesOf_append, List.append_assoc]
    rfl
  have hlast : Spells (bytesOf (toString last)) (integerTokens last) (byte '\n' :: t) :=
    spells_integer hlast (by rintro _ ⟨⟩; decide)
  have hcomma : Spells (bytesOf "," ++ (bytesOf " " ++ bytesOf (toString last)))
      (.mark .comma :: integerTokens last) (byte '\n' :: t) :=
    .append (.mark (m := .comma) (.inr (.inr (.inr rfl)))) hlast.space
  have hfirst : Spells (bytesOf (toString first) ++
        (bytesOf "," ++ (bytesOf " " ++ bytesOf (toString last))))
      (integerTokens first ++ .mark .comma :: integerTokens last) (byte '\n' :: t) :=
    .append (spells_integer hfirst (by rintro _ ⟨⟩; decide)) hcomma
  rw [hbytes, headerTokens, ← nameToken_eq hx]
  exact .append (.nameLike hx.1 rfl) (.space (.append spells_assign hfirst.space))

/-- Two integers are the header of a loop. -/
theorem reads_loopHeader {first last : Int} (hk : k.Stops) (hcomma : k ≠ .mark .comma)
    (h : r.tokens = headerTokens x first last ++ k :: ts) :
    Reads (fun _ => False) (Script.Level.at turns (depth + 2)).header r fun hd s ms =>
      s.tokens = k :: ts ∧
        hd.unlined = .numeric (bytesOf x) (integerExpr first) (integerExpr last) none ∧
        ms = [.declare (bytesOf "(for state)") .plain, .declare (bytesOf "(for state)") .plain,
          .declare (bytesOf "(for state)") .plain, .declare (bytesOf x) .plain] := by
  have hr : r.tokens = .name (bytesOf x) :: .mark .assign ::
      (integerTokens first ++ .mark .comma :: (integerTokens last ++ k :: ts)) := by
    rw [h, headerTokens]
    simp
  obtain ⟨t, u, hu, ht⟩ := integerTokens_head first (.mark .comma :: (integerTokens last ++ k :: ts))
  obtain ⟨t', u', hu', ht'⟩ := integerTokens_head last (k :: ts)
  refine .name hr rfl fun s hs => .peek hs ?_
  simp only [Script.Level.numericHeader, Script.Level.loopState, bind_assoc, pure_bind]
  refine .note fun s₁ hs₁ => .note fun s₂ hs₂ => .note fun s₃ hs₃ => .note fun s₄ hs₄ => ?_
  have hs₄ := hs₄.trans (hs₃.trans (hs₂.trans (hs₁.trans hs)))
  refine .expect (hs₄.trans (by rw [hu])) ht fun s hs => ?_
  refine .bind (reads_usedInteger (.inr (.inr (.inl rfl))) (hs.trans hu.symm)) ?_
  rintro start s _ ⟨hs, hstart, rfl⟩
  refine .expect (hs.trans (by rw [hu'])) ht' fun s hs => ?_
  refine .bind (reads_usedInteger hk (hs.trans hu'.symm)) ?_
  rintro stop s _ ⟨hs, hstop, rfl⟩
  refine .skip_false hs hcomma (.pure ⟨hs, ?_, rfl⟩)
  rw [Header.unlined, hstart, hstop]
  rfl

/-- Two integers are the header of a loop. -/
theorem alone_header {first last : Int} (hx : IsIdentifier x) (hfirst : first.natAbs < 2 ^ (63 : Nat))
    (hlast : last.natAbs < 2 ^ (63 : Nat)) :
    isHeader (loopHeader x first last) ∧ ∃ hd, ownHeader? (loopHeader x first last) = some hd ∧
      hd.unlined = .numeric (bytesOf x) (integerExpr first) (integerExpr last) none := by
  refine alone_of_reads (fun _ => rfl) (fun _ => rfl) (spells_loopHeader hx hfirst hlast _)
    fun turns r hr => ?_
  refine (reads_loopHeader (.inr (.inr (.inr (.inr (.inr (.inl rfl)))))) (by decide) hr).mono
    (fun _ => id) ?_
  rintro hd s ms ⟨hs, hhd, rfl⟩
  exact ⟨hs, hhd, _, rfl⟩

/-! ### Programs -/

theorem Act.isPlain_instr (a : Act) : a.instr.isPlain := by
  cases a <;> rfl

/-- A program as a tree of constructs. -/
def Program.code : Program → Code
  | .done => .done
  | .act a rest => .plain a.instr a.isPlain_instr rest.code
  | .emit x rest => .plain (.emit x) rfl rest.code
  | .choice x body rest => .choice x body.code rest.code
  | .branch x body other rest => .branch x body.code other.code rest.code
  | .loop x first last body rest => .for (loopHeader x first last) body.code rest.code

theorem Program.flatten_code (p : Program) : p.code.flatten = p.flatten := by
  induction p with
  | done => rfl
  | act a rest ih => rw [code, Code.flatten, ih, flatten]
  | emit x rest ih => exact congrArg (Instr.emit x :: ·) ih
  | choice x body rest ihbody ihrest => rw [code, Code.flatten, ihbody, ihrest, flatten]
  | branch x body other rest ihbody ihother ihrest =>
    rw [code, Code.flatten, ihbody, ihother, ihrest, flatten]
  | loop x first last body rest ihbody ihrest => rw [code, Code.flatten, ihbody, ihrest, flatten]

theorem ownExpr_identifier (hx : IsIdentifier x) : ownExpr x = .name (bytesOf x) 0 := by
  obtain ⟨e, he, hname⟩ := (alone_identifier hx).2
  rw [ownExpr, he, Option.getD_some, hname]

/-- The statements of a program are those of its instructions. -/
theorem Program.tree_code {p : Program} (hp : p.IsProper) : p.code.tree = p.tree := by
  induction p with
  | done => rfl
  | act a rest ih => rw [code, Code.tree, ih hp, tree]; cases a <;> rfl
  | emit x rest ih =>
    change (Instr.emit x).statements ++ rest.code.tree = _
    rw [ih hp.2, Instr.statements, ownExpr_identifier hp.1, tree]
    rfl
  | choice x body rest ihbody ihrest =>
    rw [code, Code.tree, ihbody hp.2.1, ihrest hp.2.2, ownExpr_identifier hp.1, tree]
  | branch x body other rest ihbody ihother ihrest =>
    rw [code, Code.tree, ihbody hp.2.1, ihother hp.2.2.1, ihrest hp.2.2.2, ownExpr_identifier hp.1, tree]
  | loop x first last body rest ihbody ihrest =>
    obtain ⟨hd, hhd, hheader⟩ := (alone_header hp.1 hp.2.1 hp.2.2.1).2
    rw [code, Code.tree, ihbody hp.2.2.2.1, ihrest hp.2.2.2.2, ownHeader, hhd, Option.getD_some,
      hheader, tree]
    rfl

/-- Every text of a program is whole by itself. -/
theorem Program.IsProper.texts {p : Program} (hp : p.IsProper) :
    ∀ i ∈ p.flatten, i.isWhole ∧ i.isComplete := by
  have hname {x : String} (hx : IsIdentifier x) : isExpression x ∧ (ownExpr? x).isSome := by
    obtain ⟨h, e, he, -⟩ := alone_identifier hx
    exact ⟨h, by rw [he]; rfl⟩
  induction p with
  | done => exact fun i hi => absurd hi List.not_mem_nil
  | act a rest ih => exact List.forall_mem_cons.2 ⟨by cases a <;> exact ⟨rfl, rfl⟩, ih hp⟩
  | emit x rest ih => exact List.forall_mem_cons.2 ⟨hname hp.1, ih hp.2⟩
  | choice x body rest ihbody ihrest =>
    exact List.forall_mem_cons.2 ⟨hname hp.1, List.forall_mem_append.2 ⟨ihbody hp.2.1,
      List.forall_mem_cons.2 ⟨⟨rfl, rfl⟩, ihrest hp.2.2⟩⟩⟩
  | branch x body other rest ihbody ihother ihrest =>
    exact List.forall_mem_cons.2 ⟨hname hp.1, List.forall_mem_append.2 ⟨ihbody hp.2.1,
      List.forall_mem_cons.2 ⟨⟨rfl, rfl⟩, List.forall_mem_append.2 ⟨ihother hp.2.2.1,
        List.forall_mem_cons.2 ⟨⟨rfl, rfl⟩, ihrest hp.2.2.2⟩⟩⟩⟩⟩
  | loop x first last body rest ihbody ihrest =>
    obtain ⟨hheader, hd, hhd, -⟩ := alone_header hp.1 hp.2.1 hp.2.2.1
    exact List.forall_mem_cons.2 ⟨⟨hheader, by rw [Instr.isComplete, hhd]; rfl⟩,
      List.forall_mem_append.2 ⟨ihbody hp.2.2.2.1,
        List.forall_mem_cons.2 ⟨⟨rfl, rfl⟩, ihrest hp.2.2.2.2⟩⟩⟩

/-- The instructions of a program are balanced. -/
theorem Program.nestAll_flatten (p : Program) (stack : List Construct) :
    nestAll stack p.flatten = some stack := by
  induction p generalizing stack with
  | done => rfl
  | act a rest ih =>
    rw [flatten, nestAll_cons, show nest stack a.instr = some stack by cases a <;> rfl]
    exact ih stack
  | emit x rest ih => exact ih stack
  | choice x body rest ihbody ihrest =>
    rw [flatten, nestAll_cons, nest, Option.bind_some, nestAll_append, ihbody, Option.bind_some,
      nestAll_cons, nest]
    exact ihrest stack
  | branch x body other rest ihbody ihother ihrest =>
    rw [flatten, nestAll_cons, nest, Option.bind_some, nestAll_append, ihbody, Option.bind_some,
      nestAll_cons]
    change (nestAll (.other :: stack) _) = _
    rw [nestAll_append, ihother, Option.bind_some, nestAll_cons, nest]
    exact ihrest stack
  | loop x first last body rest ihbody ihrest =>
    rw [flatten, nestAll_cons, nest, Option.bind_some, nestAll_append, ihbody, Option.bind_some,
      nestAll_cons, nest]
    exact ihrest stack

/-- Whole texts are no statements, so they stay apart. -/
theorem isApart_of_isWhole {is : List Instr} (h : ∀ i ∈ is, i.isWhole) : isApart is := by
  induction is with
  | nil => rfl
  | cons i is ih =>
    obtain ⟨hi, his⟩ := List.forall_mem_cons.1 h
    cases i with
    | exec stmt => cases hi
    | _ => exact ih his

/-- The chunk of a program is a script whose tree is known, unless a limit is hit. -/
theorem parse_program {p : Program} (hp : p.IsProper)
    (hlimit : ¬ hitsLimit (bytesOf (chunk p.flatten))) :
    ∃ body, Script.parse (bytesOf (chunk p.flatten)) = .ok body ∧
      Stat.allUnlined body = chunkTree p.tree := by
  have hwhole : ∀ i ∈ p.flatten, i.isWhole := fun i hi => (hp.texts i hi).1
  have hbalanced : Balanced p.flatten := balanced_iff.2 (p.nestAll_flatten [])
  obtain ⟨body, hbody⟩ := (parse_chunk hwhole hlimit).2 (.inl hbalanced)
  refine ⟨body, hbody, ?_⟩
  have hcomplete : ∀ i ∈ p.code.flatten, i.isComplete := by
    rw [p.flatten_code]
    exact fun i hi => (hp.texts i hi).2
  have htree := readScript_chunk hcomplete (by rw [p.flatten_code]; exact isApart_of_isWhole hwhole)
  rw [p.flatten_code, (parse_ok_iff.1 hbody).1, Program.tree_code hp] at htree
  rcases htree with ⟨b, hb, htree⟩ | ⟨e, he, -⟩
  · cases hb
    exact htree
  · cases he

/-! ### Programs that are nested too deeply -/

/-- Choices on a name, each inside the one before it. -/
def nested (x : String) : Nat → Program
  | 0 => .done
  | n + 1 => .choice x (nested x n) .done

/-- More choices than there are levels are refused. -/
theorem reads_nested (hx : IsIdentifier x) {n : Nat} {rest : List Token} (hn : depth < n)
    (hr : r.tokens = (nested x n).code.tokens ++ k :: rest) (hturns : r.tokens.length < turns) :
    Reads IsTooDeep (Script.Level.at turns depth).stat r fun _ _ _ => False := by
  obtain ⟨e, he, -⟩ := (alone_identifier hx).2
  induction depth generalizing n r k rest with
  | zero => exact .refuse fun _ => rfl
  | succ depth ih =>
    obtain ⟨n, rfl⟩ : ∃ m, n = m + 2 := ⟨n - 2, by omega⟩
    obtain ⟨ts, hts⟩ : ∃ ts, (nested x (n + 1)).code.tokens ++ .word .end :: k :: rest = .word .if :: ts :=
      ⟨_, rfl⟩
    have hr' : r.tokens = .word .if :: .mark .openParen ::
        (lineTokens (bytesOf x) ++ .mark .closeParen :: .word .then :: .word .if :: ts) := by
      rw [hr, ← hts]
      simp [nested, Program.code, Code.tokens, Code.flatten, Instr.tokens, conditionTokens]
    have hlength := congrArg List.length hr'
    simp only [List.length_cons, List.length_append] at hlength
    refine .nextLine fun line => .peek hr' (.bind (reads_branch (u := ts) (G := fun _ _ => True)
      (B := fun _ _ _ => False) hr' rfl (fun s hs => ?_) (show Parse.valid (.word .if) from rfl)
      fun s hs => ?_) ?_)
    · refine (reads_ownCondition he (.inr (.inr (.inr (.inr (.inl rfl))))) hs ?_).mono (fun _ => id)
        fun c s ms hc => ⟨hc.1, trivial⟩
      rw [hs]
      simp only [List.length_cons, List.length_append]
      omega
    · -- the choice inside comes first in the body
      obtain ⟨turns, rfl⟩ : ∃ m, turns = m + 1 := ⟨turns - 1, by omega⟩
      rw [Script.Level.stats, Script.Level.at_turns]
      refine reads_turn hs rfl (by decide) (ih (n := n + 1) (by omega) (hs.trans hts.symm) ?_)
        fun _ _ _ => False.elim
      rw [hs, List.length_cons]
      omega
    · rintro _ s ms ⟨_, _, _, _, -, -, hfalse, -⟩
      exact hfalse.elim

theorem isProper_nested (hx : IsIdentifier x) (n : Nat) : (nested x n).IsProper := by
  induction n with
  | zero => trivial
  | succ n ih => exact ⟨hx, ih, trivial⟩

/-- A chunk whose choices are nested too deeply is refused. -/
theorem parse_nested (hx : IsIdentifier x) {n : Nat} (hn : maxDepth ≤ n) (b : Script.Block) :
    Script.parse (bytesOf (chunk (nested x n).flatten)) ≠ .ok b := by
  have hcomplete : ∀ i ∈ (nested x n).code.flatten, i.isComplete := by
    rw [Program.flatten_code]
    exact fun i hi => ((isProper_nested hx n).texts i hi).2
  obtain ⟨n, rfl⟩ : ∃ m, n = m + 1 := ⟨n - 1, by rw [maxDepth] at hn; omega⟩
  have hbody (turns : Nat) : ReadsBody IsTooDeep turns 198 (nested x (n + 1)).code.tokens
      fun _ _ => False := by
    intro r hr hturns
    obtain ⟨turns, rfl⟩ : ∃ t, turns = t + 1 := ⟨turns - 1, by omega⟩
    rw [Script.Level.stats, Script.Level.at_turns]
    exact reads_turn hr rfl (by decide) (reads_nested hx (show 198 < n + 1 from hn) hr hturns)
      fun _ _ _ => False.elim
  have hread := readScript_of_body hcomplete hbody
  rw [Program.flatten_code] at hread
  intro hparse
  rcases hread with ⟨_, -, _, _, _, hfalse, -⟩ | ⟨e, he, -⟩
  · exact hfalse
  · rw [(parse_ok_iff.1 hparse).1] at he
    cases he

end Stencil.Template
