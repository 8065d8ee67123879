import Stencil.Proofs.Template.Calls
import Stencil.Proofs.Template.Nesting

/-!
# Which chunks are scripts

A chunk whose texts are whole is refused for one reason only, apart from the limits of the script
language: its control flow does not fit.  The grammar goes down into each construct and stops where
`blockRest` stops (`reads_stats`), and the body of a chunk ends like a construct, so a `finish` too
many ends it before its time.
-/

namespace Stencil.Template

open Script
open Stencil.Text (Bytes bytesOf)

/-- Whether the text of an instruction is one complete expression, or one complete header of a loop.
Of a statement it is not known what it opens and closes. -/
def Instr.isWhole : Instr → Bool
  | .exec _ => false
  | .emit text | .start .ifTag text | .start .whileTag text => isExpression text
  | .start .forTag text => isHeader text
  | _ => true

theorem Instr.isLexed_of_isWhole {i : Instr} (h : i.isWhole) : i.IsLexed := by
  match i, h with
  | .emit text, h | .start .ifTag text, h | .start .whileTag text, h =>
    exact (isExpression_whole h).isLine
  | .start .forTag text, h => exact (isHeader_whole h).isLine
  | .raw _, _ | .otherwise, _ | .finish, _ | .openBlock _, _ | .closeBlock, _ | .trim, _ =>
    trivial

/-! ### What is ahead -/

/-- The tokens from an instruction on. -/
def chunkTokens (is : List Instr) : List Token := is.flatMap Instr.tokens ++ closingTokens

/-- The tokens after a block that stops at the first of some instructions.  A block that stops at
no instruction takes the end of the chunk too. -/
def Left (rest : List Instr) : List Token :=
  match rest with
  | [] => [.eof]
  | i :: is => chunkTokens (i :: is)

theorem chunkTokens_cons (i : Instr) (is : List Instr) :
    chunkTokens (i :: is) = i.tokens ++ chunkTokens is := by
  rw [chunkTokens, List.flatMap_cons, List.append_assoc]
  rfl

theorem chunkTokens_append (is js : List Instr) :
    chunkTokens (is ++ js) = is.flatMap Instr.tokens ++ chunkTokens js := by
  rw [chunkTokens, List.flatMap_append, List.append_assoc]
  rfl

theorem chunkTokens_length {is js : List Instr} (h : js <:+ is) :
    (chunkTokens js).length ≤ (chunkTokens is).length := by
  obtain ⟨a, rfl⟩ := h
  rw [chunkTokens_append, List.length_append]
  exact Nat.le_add_left ..

/-- Instructions that are whole start with a token that can be read. -/
theorem chunkTokens_head {is : List Instr} (h : ∀ i ∈ is, i.isWhole) :
    ∃ t ts, chunkTokens is = t :: ts ∧ Parse.valid t := by
  match is, h with
  | [], _ => exact ⟨_, _, rfl, rfl⟩
  | i :: is, h =>
    rw [chunkTokens_cons]
    match i, h i (List.mem_cons_self ..) with
    | .start .ifTag _, _ | .start .whileTag _, _ | .start .forTag _, _ | .raw _, _ | .emit _, _
    | .otherwise, _ | .finish, _ | .openBlock _, _ | .closeBlock, _ | .trim, _ =>
      exact ⟨_, _, rfl, rfl⟩

/-! ### Blocks -/

/-- Why instructions can be refused: they do not fit, or they are nested too deeply. -/
def Misfit (is : List Instr) (e : Refusal) : Prop := blockRest [] is = none ∨ IsTooDeep e

/-- What the grammar does with a block: it stops where `blockRest` stops. -/
def Stops (is : List Instr) (ts : List Token) (ms : List Mention) : Prop :=
  ∃ rest, blockRest [] is = some rest ∧ ts = Left rest ∧ Scope.Harmless ms

/-- The statements of instructions are read up to the first one that belongs to what surrounds
them. -/
def ReadsBlock (turns : Nat) (is : List Instr) : Prop :=
  ∀ (depth n : Nat) (r : Reader) (done : List Stat), r.tokens = chunkTokens is →
    r.tokens.length < n → r.tokens.length < turns →
    Reads (Misfit is) ((Level.at turns depth).statsFrom n done) r fun _ s ms => Stops is s.tokens ms

variable {bad : Refusal → Prop} {turns depth : Nat} {is : List Instr} {r : Reader}

/-- The word that ends a construct stands where the block in it stops, or the chunk is refused. -/
theorem reads_finish {α : Type} {rest : List Instr} (hrest : blockRest [] is = some rest)
    (hwhole : ∀ i ∈ is, i.isWhole) (hr : r.tokens = Left rest)
    (hbad : (∀ is', rest ≠ .finish :: is') → ∀ e, bad e) {opening : Token} {line : Nat}
    {q : Parse α} {after : α → Reader → List Mention → Prop}
    (hq : ∀ is' s, rest = .finish :: is' → s.tokens = chunkTokens is' → Reads bad q s after) :
    Reads bad (Parse.close (.word .end) opening line >>= fun _ => q) r after := by
  obtain ⟨⟨a, rfl, -⟩, hcases⟩ := blockRest_cases hrest
  rcases hcases with rfl | ⟨is', rfl | rfl⟩
  · exact .close_fails hr (by decide) (hbad (by simp))
  · have hwhole' : ∀ i ∈ is', i.isWhole := fun i hi => hwhole i (by simp [hi])
    obtain ⟨t, ts, hts, ht⟩ := chunkTokens_head hwhole'
    have hr' : r.tokens = .word .end :: t :: ts := by rw [hr, Left, chunkTokens_cons, hts]; rfl
    exact .close hr' ht fun s hs => hq is' s rfl (hs.trans hts.symm)
  · exact .close_fails (hr.trans (chunkTokens_cons _ _)) (by decide) (hbad (by simp))

/-- What the grammar does with a construct: it goes on after its end. -/
def Passes (i : Instr) (is : List Instr) (ts : List Token) (ms : List Mention) : Prop :=
  ∃ is', is' <:+ is ∧ blockRest [] (i :: is) = blockRest [] is' ∧ ts = chunkTokens is' ∧
    Scope.Harmless ms

/-- The block inside a construct. -/
theorem reads_body (ih : ReadsBlock turns is) (hbad : ∀ e, Misfit is e → bad e)
    (hr : r.tokens = chunkTokens is) (hturns : (chunkTokens is).length < turns) :
    Reads bad (Level.at turns depth).stats r fun _ s ms => Stops is s.tokens ms := by
  rw [Level.stats, Level.at_turns]
  rw [← hr] at hturns
  exact (ih depth turns r [] hr hturns hturns).mono hbad fun _ _ _ => id

/-- The end of a choice after its first branch, with another branch or without. -/
theorem reads_ifEnd {header : String} {rest : List Instr} (hbody : blockRest [] is = some rest)
    (hwhole : ∀ i ∈ is, i.isWhole) (ih : ∀ js, js <:+ is → ReadsBlock turns js)
    (hr : r.tokens = Left rest) (hturns : (chunkTokens is).length < turns) {c : Expr} {b : Script.Block}
    {line : Nat} :
    Reads (Misfit (.start .ifTag header :: is)) (do
      let other ← (Level.at turns depth).otherwise (Level.at turns depth).turns
      Parse.close (.word .end) (.word .if) line
      return [Stat.if c b other]) r fun _ s ms => Passes (.start .ifTag header) is s.tokens ms := by
  have hrest := blockRest_start .ifTag header is
  rw [hbody, Option.bind_some] at hrest
  obtain ⟨⟨a, ha, -⟩, hcases⟩ := blockRest_cases hbody
  rcases hcases with rfl | ⟨is', rfl | rfl⟩
  · refine reads_noOtherwise hr (by decide) (by decide) ?_
    exact reads_finish hbody hwhole hr (fun _ _ => .inl hrest) (by simp)
  · refine reads_noOtherwise (hr.trans (chunkTokens_cons _ _)) (by decide) (by decide) ?_
    refine reads_finish hbody hwhole hr (fun h => absurd rfl (h is')) fun js s heq hs => .pure ?_
    rw [← List.tail_eq_of_cons_eq heq] at hs
    exact ⟨is', ⟨a ++ [.finish], by simp [ha]⟩, hrest, hs, .nil⟩
  · -- the other branch stops in its turn, and only a `finish` ends it
    have hwhole' : ∀ i ∈ is', i.isWhole := fun i hi => hwhole i (by simp [ha, hi])
    have hsuffix : is' <:+ is := ⟨a ++ [.otherwise], by simp [ha]⟩
    have hlen := chunkTokens_length hsuffix
    have hrest' : leave Keyword.ifTag.construct (.otherwise :: is') =
        (blockRest [] is').bind (leave .other) := blockRest_nested [] .other is'
    rw [hrest'] at hrest
    obtain ⟨t, ts, hts, ht⟩ := chunkTokens_head hwhole'
    have hr' : r.tokens = .word .else :: t :: ts := by
      rw [hr, Left, chunkTokens_cons, hts]
      rfl
    have hother : ∀ s : Reader, s.tokens = t :: ts →
        Reads (Misfit (.start .ifTag header :: is)) (Level.at turns depth).stats s fun _ s ms =>
          Stops is' s.tokens ms := by
      intro s hs
      refine reads_body (ih is' hsuffix) (fun e he => he.imp_left fun hnone => ?_)
        (hs.trans hts.symm) (by omega)
      rw [hrest, hnone]
      rfl
    refine .bind (reads_otherwise (by rw [Level.at_turns]; omega) hr' ht hother) ?_
    rintro b' s _ ⟨ms, rfl, rest', hother, hs, hms⟩
    rw [hother, Option.bind_some] at hrest
    refine reads_finish hother hwhole' hs (fun h _ => .inl (hrest.trans (leave_other h))) ?_
    rintro js s' rfl hs'
    obtain ⟨⟨a', ha', -⟩, -⟩ := blockRest_cases hother
    refine .pure ⟨js, ⟨a ++ .otherwise :: a' ++ [.finish], by simp [ha, ha']⟩, hrest, hs', ?_⟩
    simpa using hms.block false

/-- A choice, with another branch or without. -/
theorem reads_if {header : String} (hheader : isExpression header)
    (hwhole : ∀ i ∈ is, i.isWhole) (ih : ∀ js, js <:+ is → ReadsBlock turns js)
    (h : r.tokens = chunkTokens (.start .ifTag header :: is)) (hturns : r.tokens.length < turns) :
    Reads (Misfit (.start .ifTag header :: is)) (Level.at turns depth).stat r fun _ s ms =>
      Passes (.start .ifTag header) is s.tokens ms := by
  have hw := isExpression_whole hheader
  obtain ⟨t, ts, hts, ht⟩ := chunkTokens_head hwhole
  have hr : r.tokens = .word .if :: .mark .openParen ::
      (lineTokens (bytesOf header) ++ .mark .closeParen :: .word .then :: t :: ts) := by
    rw [h, chunkTokens_cons, hts]
    simp [Instr.tokens, conditionTokens]
  have hlength := congrArg List.length hr
  have hlength' := congrArg List.length hts
  simp only [List.length_cons, List.length_append] at hlength hlength'
  refine reads_stat (k := 0) (.of_bad fun _ => .inr) fun below _ => .nextLine fun line => .peek hr ?_
  have hcond : ∀ s : Reader, s.tokens = .mark .openParen ::
      (lineTokens (bytesOf header) ++ .mark .closeParen :: .word .then :: t :: ts) →
      Reads (Misfit (.start .ifTag header :: is)) (Level.at turns below).anyExpr s fun _ s ms =>
        s.tokens = .word .then :: t :: ts ∧ Scope.Harmless ms := by
    intro s hs
    have hlen : s.tokens.length ≤ turns := by
      rw [hs]
      simp only [List.length_cons, List.length_append]
      omega
    refine (reads_condition hw (.inr (.inr (.inr (.inr (.inl rfl))))) hs hlen).mono (fun _ => .inr) ?_
    rintro e s ms ⟨hs, e', line', -, hms⟩
    exact ⟨hs, hms⟩
  have hbody : ∀ s : Reader, s.tokens = t :: ts →
      Reads (Misfit (.start .ifTag header :: is)) (Level.at turns below).stats s fun _ s ms =>
        Stops is s.tokens ms := by
    intro s hs
    refine reads_body (ih is (List.suffix_refl is)) (fun e he => he.imp_left fun hnone => ?_)
      (hs.trans hts.symm) (by omega)
    rw [blockRest_start .ifTag header is, hnone]
    rfl
  refine .bind (reads_branch hr rfl hcond ht hbody) ?_
  rintro ⟨c, b⟩ s _ ⟨e, line', msc, msb, -, hmsc, ⟨rest, hbody, hs, hmsb⟩, rfl⟩
  refine (reads_ifEnd hbody hwhole ih hs (by omega)).mono (fun _ => id) ?_
  rintro _ s ms ⟨is', hsuffix, hrest, hs, hms⟩
  exact ⟨is', hsuffix, hrest, hs, (hmsc.append (hmsb.block false)).append hms⟩

/-- The end of a loop. -/
theorem reads_loopEnd {k : Keyword} (hk : k.construct = .other) {header : String}
    {rest : List Instr} (hbody : blockRest [] is = some rest) (hwhole : ∀ i ∈ is, i.isWhole)
    (hr : r.tokens = Left rest) {w : Token} {line : Nat} {loop : Stat} :
    Reads (Misfit (.start k header :: is)) (do
      Parse.close (.word .end) w line
      Parse.note .closeBlock
      return [loop]) r fun _ s ms =>
        ∃ is', is' <:+ is ∧ blockRest [] (.start k header :: is) = blockRest [] is' ∧
          s.tokens = chunkTokens is' ∧ ms = [.closeBlock] := by
  have hrest := blockRest_start k header is
  rw [hk, hbody, Option.bind_some] at hrest
  refine reads_finish hbody hwhole hr (fun h _ => .inl (hrest.trans (leave_other h))) ?_
  rintro is' s rfl hs
  obtain ⟨⟨a, ha, -⟩, -⟩ := blockRest_cases hbody
  exact .note fun s' hs' => .pure
    ⟨is', ⟨a ++ [.finish], by simp [ha]⟩, hrest, hs'.trans hs, rfl⟩

/-- A loop with a condition. -/
theorem reads_while {header : String} (hheader : isExpression header)
    (hwhole : ∀ i ∈ is, i.isWhole) (ih : ReadsBlock turns is)
    (h : r.tokens = chunkTokens (.start .whileTag header :: is)) (hturns : r.tokens.length < turns) :
    Reads (Misfit (.start .whileTag header :: is)) (Level.at turns depth).stat r fun _ s ms =>
      Passes (.start .whileTag header) is s.tokens ms := by
  have hw := isExpression_whole hheader
  have hrest := blockRest_start .whileTag header is
  obtain ⟨t, ts, hts, ht⟩ := chunkTokens_head hwhole
  have hr : r.tokens = .word .while :: .mark .openParen ::
      (lineTokens (bytesOf header) ++ .mark .closeParen :: .word .do :: t :: ts) := by
    rw [h, chunkTokens_cons, hts]
    simp [Instr.tokens, conditionTokens]
  have hlength := congrArg List.length hr
  have hlength' := congrArg List.length hts
  simp only [List.length_cons, List.length_append] at hlength hlength'
  refine reads_stat (k := 0) (.of_bad fun _ => .inr) fun below _ => .nextLine fun line => .peek hr ?_
  refine reads_whileStat (u := ts) (G := fun _ ms => Scope.Harmless ms)
    (B := fun _ ts ms => Stops is ts ms) hr rfl (fun s hs => ?_) ht (fun s hs => ?_) ?_
  · have hlen : s.tokens.length ≤ turns := by
      rw [hs]
      simp only [List.length_cons, List.length_append]
      omega
    refine (reads_condition hw (.inr (.inr (.inr (.inr (.inr (.inl rfl)))))) hs hlen).mono
      (fun _ => .inr) ?_
    rintro e s ms ⟨hs, e', line', -, hms⟩
    exact ⟨hs, hms⟩
  · refine reads_body ih (fun e he => he.imp_left fun hnone => ?_) (hs.trans hts.symm) (by omega)
    rw [hrest, hnone]
    rfl
  · rintro e line' b s msc msb hmsc ⟨rest, hbody, hs, hmsb⟩
    refine (reads_loopEnd rfl hbody hwhole hs).mono (fun _ => id) ?_
    rintro ss s' _ ⟨is', hsuffix, heq, hs', rfl⟩
    refine ⟨is', hsuffix, heq, hs', ?_⟩
    simpa using hmsc.append ((hmsb.block false).block true)

/-- A loop over values. -/
theorem reads_for {header : String} (hheader : isHeader header)
    (hwhole : ∀ i ∈ is, i.isWhole) (ih : ReadsBlock turns is)
    (h : r.tokens = chunkTokens (.start .forTag header :: is)) (hturns : r.tokens.length < turns) :
    Reads (Misfit (.start .forTag header :: is)) (Level.at turns depth).stat r fun _ s ms =>
      Passes (.start .forTag header) is s.tokens ms := by
  have hw := isHeader_whole hheader
  have hrest := blockRest_start .forTag header is
  obtain ⟨t, ts, hts, ht⟩ := chunkTokens_head hwhole
  obtain ⟨t', ts', hts', ht'⟩ := hw.opens
  have hr : r.tokens = .word .for ::
      (lineTokens (bytesOf header) ++ .word .do :: t :: ts) := by
    rw [h, chunkTokens_cons, hts]
    simp [Instr.tokens]
  have hr' := hr
  rw [hts', List.cons_append] at hr'
  have hlength := congrArg List.length hr
  have hlength' := congrArg List.length hts
  simp only [List.length_cons, List.length_append] at hlength hlength'
  refine reads_stat (k := 0) (.of_bad fun _ => .inr) fun below _ => .nextLine fun line => .peek hr ?_
  refine reads_forStat (u := ts) (G := fun _ ms => Scope.Harmless ms)
    (B := fun _ ts ms => Stops is ts ms) hr' ht'.1 (fun s hs => ?_) ht (fun s hs => ?_) ?_
  · have hs' : s.tokens = lineTokens (bytesOf header) ++ .word .do :: t :: ts := by
      rw [hs, hts', List.cons_append]
    have hlen : s.tokens.length ≤ turns := by
      rw [hs']
      simp only [List.length_cons, List.length_append]
      omega
    exact (hw.reads turns below s (t :: ts) hs' (by simp) hlen).mono (fun _ => .inr)
      fun _ _ _ => id
  · refine reads_body ih (fun e he => he.imp_left fun hnone => ?_) (hs.trans hts.symm) (by omega)
    rw [hrest, hnone]
    rfl
  · rintro hd b line' s msh msb hmsh ⟨rest, hbody, hs, hmsb⟩
    refine (reads_loopEnd rfl hbody hwhole hs).mono (fun _ => id) ?_
    rintro ss s' _ ⟨is', hsuffix, heq, hs', rfl⟩
    refine ⟨is', hsuffix, heq, hs', ?_⟩
    have hinside := (Scope.Harmless.activate hd.own).append (hmsb.block false)
    have hloop := hmsh.append ((Scope.Harmless.activate hd.hidden).append (hinside.block false))
    simpa using hloop.block true

/-- The call of the body and the result are read with the block that the instructions end in. -/
theorem readsBlock_nil : ReadsBlock turns [] := by
  intro depth n r done h hn hturns
  refine (reads_closing (.of_bad fun _ => .inr) h hn hturns).mono (fun _ => id) ?_
  rintro b s _ ⟨hs, -, rfl⟩
  exact ⟨[], rfl, hs, .nil⟩

/-- Instructions after one that is a call. -/
theorem readsBlock_call {i : Instr} {f : String} {args : List Token}
    {G : List Expr → List Mention → Prop} (hi : i.tokens = callTokens f args)
    (hargs : AreArguments (Misfit (i :: is)) args G) (hG : ∀ es ms, G es ms → Scope.Harmless ms)
    (hstops : blockRest [] (i :: is) = blockRest [] is) (hwhole : ∀ i ∈ is, i.isWhole)
    (ih : ReadsBlock turns is) : ReadsBlock turns (i :: is) := by
  intro depth n r done h hn hturns
  obtain ⟨t, ts, hts, ht⟩ := chunkTokens_head hwhole
  rw [chunkTokens_cons, hi, hts] at h
  have hlength := congrArg List.length h
  simp only [callTokens, List.length_cons, List.length_append] at hlength
  obtain ⟨n, rfl⟩ : ∃ m, n = m + 2 := ⟨n - 2, by omega⟩
  refine reads_callTurns (.of_bad fun _ => .inr) hargs h ht hturns fun es line line' ms s hs hes => ?_
  have hs' : s.tokens.length = ts.length + 1 := by rw [hs, List.length_cons]
  refine (ih depth n s _ (hs.trans hts.symm) (by omega) (by omega)).mono ?_ ?_
  · exact fun e he => he.imp_left fun hnone => hstops.trans hnone
  · rintro b s' ms' ⟨rest, hrest, hs', hms'⟩
    exact ⟨rest, hstops.trans hrest, hs', (hG es ms hes).append hms'⟩

/-- A call that mentions nothing. -/
theorem harmless_of_nil {P : List Expr → Prop} (es : List Expr) (ms : List Mention)
    (h : P es ∧ ms = []) : Scope.Harmless ms := h.2 ▸ .nil

/-- Instructions after the start of a construct. -/
theorem readsBlock_start {k : Keyword} {header : String}
    (hstat : ∀ (depth : Nat) (r : Reader), r.tokens = chunkTokens (.start k header :: is) →
      r.tokens.length < turns →
      Reads (Misfit (.start k header :: is)) (Level.at turns depth).stat r fun _ s ms =>
        Passes (.start k header) is s.tokens ms)
    (ih : ∀ js, js <:+ is → ReadsBlock turns js) : ReadsBlock turns (.start k header :: is) := by
  intro depth n r done h hn hturns
  obtain ⟨t, ts, hts, hends, hreturn⟩ : ∃ t ts, chunkTokens (.start k header :: is) = t :: ts ∧
      t.endsBlock = false ∧ t ≠ .word .return := by
    rw [chunkTokens_cons]
    cases k <;> exact ⟨_, _, rfl, rfl, by decide⟩
  obtain ⟨n, rfl⟩ : ∃ m, n = m + 1 := ⟨n - 1, by omega⟩
  refine reads_turn (h.trans hts) hends hreturn (hstat depth r h hturns) ?_
  rintro ss s ms ⟨is', hsuffix, heq, hs, hms⟩
  have hlen := chunkTokens_length hsuffix
  have hlength : (chunkTokens is).length < r.tokens.length := by
    rw [h, chunkTokens_cons, List.length_append]
    have hpos : 0 < (Instr.start k header).tokens.length := by
      cases k <;> exact Nat.succ_pos _
    omega
  rw [← hs] at hlen
  refine (ih is' hsuffix depth n s _ hs (by omega) (by omega)).mono ?_ ?_
  · exact fun e he => he.imp_left fun hnone => heq.trans hnone
  · rintro b s' ms' ⟨rest, hrest, hs', hms'⟩
    exact ⟨rest, heq.trans hrest, hs', hms.append hms'⟩

/-- **Blocks.**  The grammar reads instructions as `blockRest` goes through them. -/
theorem readsBlock (turns : Nat) (hwhole : ∀ i ∈ is, i.isWhole) : ReadsBlock turns is := by
  induction hlen : is.length using Nat.strong_induction_on generalizing is with
  | _ n ih =>
    match is, hlen with
    | [], _ => exact readsBlock_nil
    | i :: is, hlen =>
      have hi := hwhole i (List.mem_cons_self ..)
      have hwhole' : ∀ i ∈ is, i.isWhole := fun j hj => hwhole j (List.mem_cons_of_mem _ hj)
      have ih' : ∀ js, js <:+ is → ReadsBlock turns js := by
        intro js hjs
        have hshort := hjs.length_le
        rw [List.length_cons] at hlen
        exact ih js.length (by omega) (fun j hj => hwhole' j (hjs.mem hj)) rfl
      have ihSelf := ih' is (List.suffix_refl is)
      match i, hi with
      | .finish, _ =>
        intro depth n r done h _ _
        exact reads_blockEnd (h.trans (chunkTokens_cons _ _)) rfl ⟨_, rfl, h, .nil⟩
      | .otherwise, _ =>
        intro depth n r done h _ _
        exact reads_blockEnd (h.trans (chunkTokens_cons _ _)) rfl ⟨_, rfl, h, .nil⟩
      | .raw text, _ => exact readsBlock_call rfl (areArguments_quoted text) harmless_of_nil rfl hwhole' ihSelf
      | .emit text, hi =>
        refine readsBlock_call rfl (areArguments_whole (fun _ => .inr) (isExpression_whole hi)) ?_ rfl hwhole' ihSelf
        rintro es ms ⟨e, line, -, hms⟩
        exact hms
      | .openBlock name, _ =>
        exact readsBlock_call rfl (areArguments_quoted name) harmless_of_nil rfl hwhole' ihSelf
      | .closeBlock, _ => exact readsBlock_call rfl areArguments_nil harmless_of_nil rfl hwhole' ihSelf
      | .trim, _ => exact readsBlock_call rfl areArguments_nil harmless_of_nil rfl hwhole' ihSelf
      | .start .ifTag header, hi =>
        exact readsBlock_start (fun _ _ => reads_if hi hwhole' ih') ih'
      | .start .whileTag header, hi =>
        exact readsBlock_start (fun _ _ => reads_while hi hwhole' ihSelf) ih'
      | .start .forTag header, hi =>
        exact readsBlock_start (fun _ _ => reads_for hi hwhole' ihSelf) ih'

/-! ### Chunks -/

/-- The names of the locals for the arguments, after the first one. -/
def otherLocals : List Bytes :=
  [bytesOf "__open", bytesOf "__close", bytesOf "__trim", bytesOf "__render", bytesOf "_OPTIONS"]

/-- What the first line mentions. -/
def preambleMentions : List Mention :=
  ((bytesOf "__append" :: otherLocals).map fun x => Mention.declare x .plain) ++
    [.dots, .activate 6]

/-- The first line as a statement, without lines. -/
def preambleStat : Stat :=
  .local ((bytesOf "__append" :: otherLocals).map fun x => (x, .plain)) [.dots] 0

/-- The first line. -/
theorem reads_preamble (hroom : Room bad 2 depth) {t : Token} {ts : List Token}
    (h : r.tokens = preambleTokens ++ t :: ts) (ht : Parse.valid t) (hop : binaryOp? t = none)
    (hcomma : t ≠ .mark .comma) (hturns : r.tokens.length < turns) :
    Reads bad (Level.at turns depth).stat r fun ss s ms =>
      s.tokens = t :: ts ∧ Stat.allUnlined ss = [preambleStat] ∧ ms = preambleMentions := by
  have hlength := congrArg List.length h
  simp only [preambleTokens, List.length_append, List.length_cons, List.length_nil] at hlength
  refine reads_stat hroom fun below hbelow => .nextLine fun line => .peek h (.advance h rfl fun s hs => ?_)
  refine .skip_false hs (by decide) ?_
  have hlocals : otherLocals.length < (Level.at turns below).turns := by
    rw [Level.at_turns]
    simp only [otherLocals, List.length_cons, List.length_nil]
    omega
  refine (reads_localStat (u := ts) (G := fun e ms => e = .dots ∧ ms = [.dots]) hlocals hcomma hs rfl
    fun s hs => reads_anyExpr hbelow fun below _ => reads_dots hs ht hop).mono (fun _ => id) ?_
  rintro ss s _ ⟨hs, e, line, line', _, ⟨rfl, rfl⟩, rfl, rfl⟩
  exact ⟨hs, rfl, rfl⟩

/-- The function that holds the instructions. -/
theorem reads_function (hwhole : ∀ i ∈ is, i.isWhole)
    (h : r.tokens = functionTokens ++ chunkTokens is) (hturns : r.tokens.length < turns) :
    Reads (fun e => blockRest [.other] is = none ∨ IsTooDeep e) (Level.at turns depth).stat r
      fun _ s ms => ∃ is', is' <:+ is ∧ blockRest [.other] is = blockRest [] is' ∧
        s.tokens = chunkTokens is' ∧ Scope.Harmless ms := by
  have hrest : blockRest [.other] is = (blockRest [] is).bind (leave .other) :=
    blockRest_nested [] .other is
  obtain ⟨t, ts, hts, ht⟩ := chunkTokens_head hwhole
  have hlength := congrArg List.length h
  rw [List.length_append] at hlength
  rw [hts] at h
  refine reads_stat (k := 0) (.of_bad fun _ => .inr) fun below _ => .nextLine fun line => .peek h ?_
  refine .advance h rfl fun s hs => .skip_true hs rfl fun s hs => ?_
  refine reads_localFunction (B := fun _ ts ms => Stops is ts ms)
    (A := fun _ ts ms => ∃ is', is' <:+ is ∧ blockRest [.other] is = blockRest [] is' ∧
      ts = chunkTokens is' ∧ Scope.Harmless ms) hs ht (fun s hs => ?_) ?_
  · refine reads_body (readsBlock turns hwhole) (fun e he => he.imp_left fun hnone => ?_)
      (hs.trans hts.symm) (by omega)
    rw [hrest, hnone]
    rfl
  · rintro b line s msb ⟨rest, hbody, hs, hmsb⟩
    rw [hbody, Option.bind_some] at hrest
    refine reads_finish hbody hwhole hs (fun h _ => .inl (hrest.trans (leave_other h))) ?_
    rintro is' s rfl hs
    obtain ⟨⟨a, ha, -⟩, -⟩ := blockRest_cases hbody
    refine .note fun s' hs' => .pure
      ⟨is', ⟨a ++ [.finish], by simp [ha]⟩, hrest, hs'.trans hs, ?_⟩
    have hdeclare := (Scope.Harmless.declare (bytesOf "__body")).append (.activate 1)
    have hfunction := hdeclare.append (((Scope.Harmless.activate 0).append hmsb).function line)
    simpa using hfunction

/-- Why a chunk can be refused: what is left of its instructions when the body has been ended does not
end with the chunk, or it is nested too deeply. -/
def Unfit (is : List Instr) (e : Refusal) : Prop :=
  blockRest [.other] is ≠ some [] ∨ IsTooDeep e

/-- The statements of a chunk. -/
theorem reads_chunk (hwhole : ∀ i ∈ is, i.isWhole) (h : r.tokens = openingTokens ++ chunkTokens is)
    (hturns : r.tokens.length < turns) :
    Reads (Unfit is) (Level.at turns depth).stats r fun _ s ms =>
      ∃ rest ms', blockRest [.other] is = some rest ∧ s.tokens = Left rest ∧
        ms = preambleMentions ++ ms' ∧ Scope.Harmless ms' := by
  have hunfit (e : Refusal) (he : blockRest [.other] is = none ∨ IsTooDeep e) : Unfit is e :=
    he.imp_left fun hnone hsome => by rw [hnone] at hsome; cases hsome
  have hopening : openingTokens.length = 14 + (5 + 5) := rfl
  have hroot : (Instr.openBlock "root").tokens.length = 5 := rfl
  have hfunction : functionTokens.length = 5 := rfl
  have hlength := congrArg List.length h
  rw [List.length_append, hopening] at hlength
  rw [openingTokens, List.append_assoc, List.append_assoc] at h
  have hall (n : Nat) (hn : r.tokens.length < n) :
      Reads (Unfit is) ((Level.at turns depth).statsFrom n []) r fun _ s ms =>
        ∃ rest ms', blockRest [.other] is = some rest ∧ s.tokens = Left rest ∧
          ms = preambleMentions ++ ms' ∧ Scope.Harmless ms' := by
    obtain ⟨n, rfl⟩ : ∃ m, n = m + 1 + 2 + 1 := ⟨n - 4, by omega⟩
    refine reads_turn h rfl (by decide)
      (reads_preamble (.of_bad fun _ => .inr) h rfl rfl (by decide) hturns) ?_
    rintro ss s _ ⟨hs, -, rfl⟩
    have hs : s.tokens = (Instr.openBlock "root").tokens ++ (functionTokens ++ chunkTokens is) := hs
    have hlen := congrArg List.length hs
    rw [List.length_append, List.length_append, hroot, hfunction] at hlen
    refine reads_callTurns (.of_bad fun _ => .inr) (areArguments_quoted "root") hs rfl (by omega)
      fun es line line' ms s hs hes => ?_
    have hms : Scope.Harmless ms := hes.2 ▸ .nil
    have hs : s.tokens = functionTokens ++ chunkTokens is := hs
    have hlen := congrArg List.length hs
    rw [List.length_append, hfunction] at hlen
    refine reads_turn hs rfl (by decide)
      ((reads_function hwhole hs (by omega)).mono hunfit fun _ _ _ => id) ?_
    rintro ss s ms' ⟨is', hsuffix, heq, hs, hms'⟩
    have hlen' := chunkTokens_length hsuffix
    rw [← hs] at hlen'
    refine (readsBlock turns (fun i hi => hwhole i (hsuffix.mem hi)) depth n s _ hs (by omega)
      (by omega)).mono (fun e he => hunfit e (he.imp_left heq.trans)) ?_
    rintro b s ms'' ⟨rest, hrest, hs, hms''⟩
    exact ⟨rest, ms ++ (ms' ++ ms''), heq.trans hrest, hs, rfl, hms.append (hms'.append hms'')⟩
  rw [Level.stats, Level.at_turns]
  exact hall turns hturns

/-- A chunk from its first token to its end. -/
theorem reads_script (hwhole : ∀ i ∈ is, i.isWhole) (h : r.tokens = openingTokens ++ chunkTokens is)
    (hturns : r.tokens.length < turns) :
    Reads (Unfit is) (script (Level.at turns depth)) r fun _ _ ms =>
      blockRest [.other] is = some [] ∧
        ∃ ms', ms = preambleMentions ++ (ms' ++ [.closeFunction]) ∧ Scope.Harmless ms' := by
  refine .look h rfl (.bind (reads_chunk hwhole h hturns) ?_)
  rintro b s _ ⟨rest, ms', hrest, hs, rfl, hms'⟩
  rcases (blockRest_cases hrest).2 with rfl | ⟨is', rfl | rfl⟩
  · refine .peek hs (.note fun s' hs' => .pure ⟨hrest, ms', ?_, hms'⟩)
    rw [List.append_assoc]
  · refine .peek (hs.trans (chunkTokens_cons _ _)) (.refuse fun place => .inl ?_)
    rw [hrest]
    simp
  · refine .peek (hs.trans (chunkTokens_cons _ _)) (.refuse fun place => .inl ?_)
    rw [hrest]
    simp

end Stencil.Template
