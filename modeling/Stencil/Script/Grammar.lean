import Stencil.Script.Lexeme
import Stencil.Script.Scope

/-!
# The grammar

Reading lexemes as a syntax tree, by recursive descent.  A statement or an expression that holds
others is read one level above them, and there is a fixed number of levels (`Level.at`), so text
nested too deeply is refused.  Within a level every rule is a loop over lexemes.

A token is looked at as soon as the one before it has been taken, so a fault in a token is found
then.  What the rules on names need is noted down on the way (`Mention`).
-/

namespace Stencil.Script

open Stencil.Text (Bytes bytesOf)

/-- Why a script is refused. -/
inductive SyntaxFault where
  /-- A token cannot be read. -/
  | token (f : LexFault)
  /-- Something else should stand here. -/
  | expected (what : String)
  /-- Something that was opened on another line should be closed here. -/
  | unclosed (closing opening : String) (line : Nat)
  /-- No expression starts like this. -/
  | unexpected
  /-- An expression that is no statement. -/
  | noStatement
  /-- A word in angle brackets that says nothing about a variable. -/
  | unknownAttribute (name : Bytes)
  /-- Two variables of one declaration are to be closed. -/
  | twoToClose
  /-- The text is nested too deeply. -/
  | tooDeep
  /-- A rule on names is broken. -/
  | scope (f : ScopeFault)
  deriving DecidableEq, Repr

/-- The wording of a fault. -/
def SyntaxFault.message : SyntaxFault → Bytes
  | .token f => bytesOf f.message
  | .expected what => bytesOf (what ++ " expected")
  | .unclosed closing opening line =>
    bytesOf s!"'{closing}' expected (to close '{opening}' at line {line})"
  | .unexpected => bytesOf "unexpected symbol"
  | .noStatement => bytesOf "syntax error"
  | .unknownAttribute name => bytesOf "unknown attribute '" ++ name ++ bytesOf "'"
  | .twoToClose => bytesOf "multiple to-be-closed variables in local list"
  | .tooDeep => bytesOf "C stack overflow"
  | .scope f => f.message

/-- Whether the message of a fault goes on with the token it was found at. -/
def SyntaxFault.showsToken : SyntaxFault → Bool
  | .unknownAttribute _ | .twoToClose | .tooDeep => false
  | .scope f => f.showsToken
  | _ => true

/-- A fault and the lexeme it was found at. -/
structure Refusal where
  /-- The fault. -/
  fault : SyntaxFault
  /-- The lexeme. -/
  place : Lexeme
  deriving DecidableEq, Repr

/-- A script that has been read in part. -/
structure Reader where
  /-- What is still to be read. -/
  ahead : List Lexeme
  /-- The line of the lexeme taken last. -/
  line : Nat := 1
  /-- What has been noted down, the latest first. -/
  mentions : List (Mention × Lexeme) := []

/-- Reading a part of a script. -/
abbrev Parse := ExceptT Refusal (StateM Reader)

namespace Parse

/-- The next lexeme. -/
def next : Parse Lexeme := do
  let r ← get
  return r.ahead.headD ⟨.eof, r.line⟩

/-- The next token. -/
def peek : Parse Token := return (← next).token

/-- The line of the next token. -/
def nextLine : Parse Nat := return (← next).line

/-- The line of the token taken last. -/
def lastLine : Parse Nat := return (← get).line

/-- Refuses the script at the next token. -/
def refuse {α : Type} (fault : SyntaxFault) : Parse α := do
  throw ⟨fault, ← next⟩

/-- Refuses a next token that could not be read. -/
def look : Parse Unit := do
  match ← peek with
  | .invalid f _ => refuse (.token f)
  | _ => pure ()

/-- Takes a token; the end of the text stays. -/
def advance : Parse Unit := do
  let r ← get
  match r.ahead with
  | l :: m :: rest => set { r with ahead := m :: rest, line := l.line }
  | _ => set { r with line := (← next).line }
  look

/-- Notes something down. -/
def note (m : Mention) : Parse Unit := do
  let place ← next
  modify fun r => { r with mentions := (m, place) :: r.mentions }

/-- Takes a token if it is the next one. -/
def skip? (t : Token) : Parse Bool := do
  if (← peek) = t then
    advance
    return true
  else return false

/-- The name of a token that has no text of its own. -/
def spelling : Token → String
  | .word w => w.text
  | .mark m => m.text
  | _ => ""

/-- Takes a token that has to be the next one. -/
def expect (t : Token) : Parse Unit := do
  unless ← skip? t do
    refuse (.expected ("'" ++ spelling t ++ "'"))

/-- Takes the token that closes what was opened on a line. -/
def close (closing opening : Token) (line : Nat) : Parse Unit := do
  unless ← skip? closing do
    if (← nextLine) = line then refuse (.expected ("'" ++ spelling closing ++ "'"))
    else refuse (.unclosed (spelling closing) (spelling opening) line)

/-- Takes a name. -/
def name : Parse Bytes := do
  match ← peek with
  | .name x =>
    advance
    return x
  | _ => refuse (.expected "<name>")

end Parse

/-! ### Operators -/

/-- The operator before an operand. -/
def unaryOp? : Token → Option UnaryOp
  | .word .not => some .not
  | .mark .minus => some .negate
  | .mark .tilde => some .bitNot
  | .mark .hash => some .length
  | _ => none

/-- The operator between two operands. -/
def binaryOp? : Token → Option BinaryOp
  | .mark .plus => some (.arith .add)
  | .mark .minus => some (.arith .sub)
  | .mark .star => some (.arith .mul)
  | .mark .percent => some (.arith .mod)
  | .mark .caret => some (.arith .pow)
  | .mark .slash => some (.arith .div)
  | .mark .doubleSlash => some (.arith .floorDiv)
  | .mark .ampersand => some (.bits .and)
  | .mark .bar => some (.bits .or)
  | .mark .tilde => some (.bits .xor)
  | .mark .shiftLeft => some (.bits .shiftLeft)
  | .mark .shiftRight => some (.bits .shiftRight)
  | .mark .concat => some .concat
  | .mark .equal => some (.compare .equal)
  | .mark .notEqual => some (.compare .notEqual)
  | .mark .less => some (.compare .less)
  | .mark .lessEqual => some (.compare .lessEqual)
  | .mark .greater => some (.compare .greater)
  | .mark .greaterEqual => some (.compare .greaterEqual)
  | .word .and => some .and
  | .word .or => some .or
  | _ => none

/-- How tightly an operator binds on its left and on its right; it binds to the right if the
second number is smaller. -/
def BinaryOp.binding : BinaryOp → Nat × Nat
  | .or => (1, 1)
  | .and => (2, 2)
  | .compare _ => (3, 3)
  | .bits .or => (4, 4)
  | .bits .xor => (5, 5)
  | .bits .and => (6, 6)
  | .bits .shiftLeft | .bits .shiftRight => (7, 7)
  | .concat => (9, 8)
  | .arith .add | .arith .sub => (10, 10)
  | .arith .mul | .arith .div | .arith .floorDiv | .arith .mod => (11, 11)
  | .arith .pow => (14, 13)

/-- How tightly the operators before an operand bind. -/
def unaryBinding : Nat := 12

/-- The line of a concatenation that an expression is: a chain of them fails on the line of its
last operator. -/
def chainLine? : Expr → Option Nat
  | .binary .concat _ _ line => some line
  | .paren e => chainLine? e
  | _ => none

/-- An operation on two operands; `line` is the line of the operator, `last` that of the last token
of the right operand. -/
def joined (op : BinaryOp) (left right : Expr) (line last : Nat) : Expr :=
  match op with
  | .compare _ => .binary op left right last
  | .concat => .binary op left right ((chainLine? right).getD line)
  | _ => .binary op left right line

/-! ### Expressions -/

/-- The rules of the level below. -/
structure Level where
  /-- How many times a loop goes round at most. -/
  turns : Nat
  /-- An expression whose operators bind more tightly than a limit. -/
  expr : (limit : Nat) → Parse Expr
  /-- A statement; an empty one is no node of the tree. -/
  stat : Parse (List Stat)

namespace Level

variable (level : Level)

/-- An expression with all operators. -/
def anyExpr : Parse Expr := level.expr 0

/-- An expression that is used at once. -/
def usedExpr : Parse Expr := do
  let e ← level.anyExpr
  return e.settle (← Parse.lastLine)

/-- Settles the last expression of a list, which comes last-first. -/
def settleLast (line : Nat) : List Expr → List Expr
  | e :: rest => e.settle line :: rest
  | [] => []

/-- More expressions after commas; the expressions come last-first. -/
def moreExprs : (turns : Nat) → List Expr → Parse (List Expr)
  | 0, done => return done
  | turns + 1, done => do
    if ← Parse.skip? (.mark .comma) then
      let done := settleLast (← Parse.lastLine) done
      let e ← level.anyExpr
      moreExprs turns (e :: done)
    else return done

/-- A list of expressions, the last one first; the last one has not been used yet. -/
def exprsReversed : Parse (List Expr) := do
  let e ← level.anyExpr
  level.moreExprs level.turns [e]

/-- A list of expressions. -/
def exprs : Parse (List Expr) := do
  let done ← level.exprsReversed
  return (settleLast (← Parse.lastLine) done).reverse

/-- Whether a block ends here; `until` ends one too if `loop` says so. -/
def blockEnds (loop : Bool) : Parse Bool := do
  match ← Parse.peek with
  | .word .else | .word .elseif | .word .end | .eof => return true
  | .word .until => return loop
  | _ => return false

/-- Statements up to the end of the block; nothing can follow a `return`. -/
def statsFrom : (turns : Nat) → (done : List Stat) → Parse Block
  | 0, done => return done.reverse
  | turns + 1, done => do
    if ← blockEnds true then return done.reverse
    else if (← Parse.peek) = .word .return then
      let ss ← level.stat
      return (ss.reverse ++ done).reverse
    else
      let ss ← level.stat
      statsFrom turns (ss.reverse ++ done)

/-- The statements of a block. -/
def stats : Parse Block := level.statsFrom level.turns []

/-- A block with a scope of its own. -/
def block : Parse Block := do
  Parse.note (.openBlock false)
  let body ← level.stats
  Parse.note .closeBlock
  return body

/-- The parameters of a function up to the closing parenthesis, and whether it takes extra
arguments. -/
def params : (turns : Nat) → List Bytes → Parse (List Bytes × Bool)
  | 0, done => return (done.reverse, false)
  | turns + 1, done => do
    match ← Parse.peek with
    | .name x =>
      Parse.advance
      Parse.note (.declare x .plain)
      if ← Parse.skip? (.mark .comma) then params turns (x :: done)
      else return ((x :: done).reverse, false)
    | .mark .dots =>
      Parse.advance
      Parse.note .vararg
      return (done.reverse, true)
    | _ => refuse
where
  /-- Neither a name nor dots. -/
  refuse : Parse (List Bytes × Bool) := Parse.refuse (.expected "<name> or '...'")

/-- A function after its name; `line` is the line it starts on. -/
def function (isMethod : Bool) (line : Nat) : Parse Function := do
  Parse.note (.openFunction line)
  Parse.expect (.mark .openParen)
  let self := if isMethod then [bytesOf "self"] else []
  if isMethod then
    Parse.note (.declare (bytesOf "self") .plain)
    Parse.note (.activate 1)
  let (params, vararg) ←
    if (← Parse.peek) = .mark .closeParen then pure ([], false) else params level.turns []
  Parse.note (.activate params.length)
  Parse.expect (.mark .closeParen)
  let body ← level.stats
  Parse.close (.word .end) (.word .function) line
  Parse.note .closeFunction
  return .mk (self ++ params) vararg body

/-- An item of a new table.  An item that is a list item is used when what follows it has been
taken, so it comes unsettled. -/
def field : Parse Field := do
  let r ← get
  match r.ahead with
  | ⟨.name x, _⟩ :: after :: _ =>
    if let .invalid f _ := after.token then throw ⟨.token f, after⟩
    if after.token = .mark .assign then
      Parse.advance
      entry (.string x)
    else return .item (← level.anyExpr)
  | ⟨.mark .openBracket, _⟩ :: _ =>
    Parse.advance
    let key ← level.usedExpr
    Parse.expect (.mark .closeBracket)
    entry key
  | _ => return .item (← level.anyExpr)
where
  /-- The value of a key. -/
  entry (key : Expr) : Parse Field := do
    Parse.expect (.mark .assign)
    let value ← level.usedExpr
    return .entry key value (← Parse.lastLine)

/-- Settles a list item. -/
def settleItem (line : Nat) : Field → Field
  | .item e => .item (e.settle line)
  | f => f

/-- The items of a new table up to its closing brace, the last one first. -/
def fields : (turns : Nat) → List Field → Parse (List Field)
  | 0, done => return done
  | turns + 1, done => do
    if (← Parse.peek) = .mark .closeBrace then return done
    else
      let f ← level.field
      let more ← (do
        if ← Parse.skip? (.mark .comma) then return true
        else Parse.skip? (.mark .semicolon))
      if more then fields turns (settleItem (← Parse.lastLine) f :: done)
      else return f :: done

/-- A new table. -/
def table : Parse Expr := do
  let line ← Parse.nextLine
  Parse.expect (.mark .openBrace)
  let done ← level.fields level.turns []
  Parse.close (.mark .closeBrace) (.mark .openBrace) line
  let last ← Parse.lastLine
  return .table (done.map (settleItem last)).reverse

/-- The arguments of a call and the line of the call. -/
def arguments : Parse (List Expr × Nat) := do
  let line ← Parse.nextLine
  match ← Parse.peek with
  | .mark .openParen =>
    Parse.advance
    if ← Parse.skip? (.mark .closeParen) then return ([], line)
    else
      let done ← level.exprsReversed
      Parse.close (.mark .closeParen) (.mark .openParen) line
      return ((settleLast (← Parse.lastLine) done).reverse, line)
  | .mark .openBrace => return ([← level.table], line)
  | .string s _ =>
    Parse.advance
    return ([.string s], line)
  | _ => Parse.refuse (.expected "function arguments")

/-- A name or an expression in parentheses. -/
def primary : Parse Expr := do
  match ← Parse.peek with
  | .name x =>
    Parse.advance
    return .name x (← Parse.lastLine)
  | .mark .openParen =>
    let line ← Parse.nextLine
    Parse.advance
    let e ← level.anyExpr
    Parse.close (.mark .closeParen) (.mark .openParen) line
    return .paren (e.settle (← Parse.lastLine))
  | _ => Parse.refuse .unexpected

/-- The fields and calls that follow an expression. -/
def suffixes : (turns : Nat) → Expr → Parse Expr
  | 0, e => return e
  | turns + 1, e => do
    let used := e.settle (← Parse.lastLine)
    match ← Parse.peek with
    | .mark .dot =>
      Parse.advance
      let x ← Parse.name
      suffixes turns (.index used (.string x) (← Parse.lastLine))
    | .mark .openBracket =>
      Parse.advance
      let key ← level.usedExpr
      Parse.expect (.mark .closeBracket)
      suffixes turns (.index used key (← Parse.lastLine))
    | .mark .colon =>
      Parse.advance
      let x ← Parse.name
      let nameLine ← Parse.lastLine
      let (args, line) ← level.arguments
      suffixes turns (.method (e.settle nameLine) x args nameLine line)
    | .mark .openParen | .mark .openBrace | .string .. =>
      let (args, line) ← level.arguments
      suffixes turns (.call used args line)
    | _ => return e

/-- An expression with its fields and calls. -/
def suffixed : Parse Expr := do
  let e ← level.primary
  level.suffixes level.turns e

/-- Takes a token that is a whole expression. -/
def taken (e : Expr) : Parse Expr := do
  Parse.advance
  return e

/-- An operand. -/
def operand : Parse Expr := do
  match ← Parse.peek with
  | .number n _ => taken (.number n)
  | .string s _ => taken (.string s)
  | .word .nil => taken .nil
  | .word .true => taken .true
  | .word .false => taken .false
  | .mark .dots =>
    Parse.note .dots
    taken .dots
  | .mark .openBrace => level.table
  | .word .function =>
    Parse.advance
    let line ← Parse.nextLine
    return .function (← level.function false line)
  | _ => level.suffixed

/-- The operators after an operand, as long as they bind more tightly than `limit`. -/
def operators (limit : Nat) : (turns : Nat) → Expr → Parse Expr
  | 0, e => return e
  | turns + 1, e => do
    match binaryOp? (← Parse.peek) with
    | some op =>
      if limit < op.binding.1 then
        Parse.advance
        let line ← Parse.lastLine
        let right ← level.expr op.binding.2
        let last ← Parse.lastLine
        operators limit turns (joined op (e.settle line) (right.settle last) line last)
      else return e
    | none => return e

/-- An expression. -/
def readExpr (limit : Nat) : Parse Expr := do
  let first ← (do
    match unaryOp? (← Parse.peek) with
    | some op =>
      Parse.advance
      let line ← Parse.lastLine
      let e ← level.expr unaryBinding
      return .unary op (e.settle (← Parse.lastLine)) line
    | none => level.operand)
  level.operators limit level.turns first

/-! ### Statements -/

/-- The targets of an assignment after the first, which come last-first. -/
def moreTargets : (turns : Nat) → List Expr → Parse (List Expr)
  | 0, done => return done
  | turns + 1, done => do
    if ← Parse.skip? (.mark .comma) then
      let target ← level.suffixed
      check target
      moreTargets turns (target :: done)
    else return done
where
  /-- Refuses what cannot be assigned to. -/
  check (target : Expr) : Parse Unit := do
    unless target.isAssignable do Parse.refuse .noStatement
    if let .name x _ := target then Parse.note (.assign x)

/-- A statement that starts with an expression. -/
def exprStat : Parse (List Stat) := do
  let first ← level.suffixed
  match ← Parse.peek with
  | .mark .assign | .mark .comma =>
    moreTargets.check first
    let targets ← level.moreTargets level.turns [first]
    Parse.expect (.mark .assign)
    let values ← level.exprs
    return [.assign targets.reverse values (← Parse.lastLine)]
  | _ =>
    unless first.isCall do Parse.refuse .noStatement
    return [.call first]

/-- What a local variable is declared to be. -/
def localKind : Parse LocalKind := do
  if ← Parse.skip? (.mark .less) then
    let x ← Parse.name
    Parse.expect (.mark .greater)
    if x = bytesOf "const" then return .const
    else if x = bytesOf "close" then return .close
    else Parse.refuse (.unknownAttribute x)
  else return .plain

/-- The variables of a declaration, the last one first. -/
def localNames : (turns : Nat) → List (Bytes × LocalKind) → Parse (List (Bytes × LocalKind))
  | 0, done => return done
  | turns + 1, done => do
    let x ← Parse.name
    let kind ← localKind
    Parse.note (.declare x kind)
    if kind = .close && done.any (fun d => d.2 = .close) then Parse.refuse .twoToClose
    if ← Parse.skip? (.mark .comma) then localNames turns ((x, kind) :: done)
    else return (x, kind) :: done

/-- A declaration of variables after the word `local`. -/
def localStat : Parse (List Stat) := do
  let names := (← localNames level.turns []).reverse
  let values ← if ← Parse.skip? (.mark .assign) then level.exprs else pure []
  Parse.note (.activate names.length)
  return [.local names values (← Parse.lastLine)]

/-- A local function after the word `function`. -/
def localFunction : Parse (List Stat) := do
  let x ← Parse.name
  Parse.note (.declare x .plain)
  Parse.note (.activate 1)
  let f ← level.function false (← Parse.nextLine)
  return [.localFunction x f]

/-- The fields in the name of a function. -/
def functionPath : (turns : Nat) → Expr → Parse Expr
  | 0, e => return e
  | turns + 1, e => do
    if (← Parse.peek) = .mark .dot then
      let used := e.settle (← Parse.lastLine)
      Parse.advance
      let x ← Parse.name
      functionPath turns (.index used (.string x) (← Parse.lastLine))
    else return e

/-- A function with a name. -/
def functionStat (line : Nat) : Parse (List Stat) := do
  Parse.advance
  let x ← Parse.name
  let path ← functionPath level.turns (.name x (← Parse.lastLine))
  let isMethod := (← Parse.peek) = .mark .colon
  let target ← (do
    if isMethod then
      let used := path.settle (← Parse.lastLine)
      Parse.advance
      let x ← Parse.name
      return .index used (.string x) (← Parse.lastLine)
    else return path)
  let f ← level.function isMethod line
  if let .name x _ := target then Parse.note (.assign x)
  return [.assign [target] [.function f] line]

/-- A branch after the word that starts it: its condition and its body. -/
def branch : Parse (Expr × Block) := do
  Parse.advance
  let condition ← level.anyExpr
  Parse.expect (.word .then)
  let condition := condition.settle (← Parse.lastLine)
  return (condition, ← level.block)

/-- The branches after the first one. -/
def otherwise : (turns : Nat) → Parse Block
  | 0 => return []
  | turns + 1 => do
    match ← Parse.peek with
    | .word .elseif =>
      let (condition, body) ← level.branch
      return [.if condition body (← otherwise turns)]
    | .word .else =>
      Parse.advance
      level.block
    | _ => return []

/-- A choice. -/
def ifStat (line : Nat) : Parse (List Stat) := do
  let (condition, body) ← level.branch
  let rest ← level.otherwise level.turns
  Parse.close (.word .end) (.word .if) line
  return [.if condition body rest]

/-- A loop with a condition before its body. -/
def whileStat (line : Nat) : Parse (List Stat) := do
  Parse.advance
  let condition ← level.usedExpr
  Parse.note (.openBlock true)
  Parse.expect (.word .do)
  let body ← level.block
  Parse.close (.word .end) (.word .while) line
  Parse.note .closeBlock
  return [.while condition body]

/-- A loop with a condition after its body, which sees the variables of the body. -/
def repeatStat (line : Nat) : Parse (List Stat) := do
  Parse.note (.openBlock true)
  Parse.note (.openBlock false)
  Parse.advance
  let body ← level.stats
  Parse.close (.word .until) (.word .repeat) line
  let condition ← level.usedExpr
  Parse.note .closeBlock
  Parse.note .closeBlock
  return [.repeat body condition]

/-- The variables that a loop keeps for itself. -/
def loopState (count : Nat) : Parse Unit := do
  match count with
  | 0 => pure ()
  | n + 1 =>
    Parse.note (.declare (bytesOf "(for state)") .plain)
    loopState n

/-- The body of a loop over `count` variables, and the line of its first word. -/
def loopBody (hidden count : Nat) : Parse (Block × Nat) := do
  Parse.note (.activate hidden)
  Parse.expect (.word .do)
  let line ← Parse.lastLine
  Parse.note (.openBlock false)
  Parse.note (.activate count)
  let body ← level.block
  Parse.note .closeBlock
  return (body, line)

/-- A loop over numbers, after its variable. -/
def numericFor (x : Bytes) : Parse Stat := do
  loopState 3
  Parse.note (.declare x .plain)
  Parse.expect (.mark .assign)
  let start ← level.usedExpr
  Parse.expect (.mark .comma)
  let stop ← level.usedExpr
  let step ← (do
    if ← Parse.skip? (.mark .comma) then return some (← level.usedExpr) else return none)
  let (body, line) ← level.loopBody 3 1
  return .numericFor x start stop step body line

/-- The variables of a loop after the first one, the last one first. -/
def moreNames : (turns : Nat) → List Bytes → Parse (List Bytes)
  | 0, done => return done
  | turns + 1, done => do
    if ← Parse.skip? (.mark .comma) then
      let x ← Parse.name
      Parse.note (.declare x .plain)
      moreNames turns (x :: done)
    else return done

/-- A loop over the values of an iterator, after its first variable. -/
def genericFor (x : Bytes) : Parse Stat := do
  loopState 4
  Parse.note (.declare x .plain)
  let names := (← moreNames level.turns [x]).reverse
  Parse.expect (.word .in)
  let valuesLine ← Parse.nextLine
  let values ← level.exprs
  let (body, line) ← level.loopBody 4 names.length
  return .genericFor names values body valuesLine line

/-- A loop over numbers or over the values of an iterator. -/
def forStat (line : Nat) : Parse (List Stat) := do
  Parse.note (.openBlock true)
  Parse.advance
  let x ← Parse.name
  let loop ← (do
    match ← Parse.peek with
    | .mark .assign => level.numericFor x
    | .mark .comma | .word .in => level.genericFor x
    | _ => Parse.refuse (.expected "'=' or 'in'"))
  Parse.close (.word .end) (.word .for) line
  Parse.note .closeBlock
  return [loop]

/-- A label, after its two colons.  It is known once the empty statements after it have been
read. -/
def labelStat (line : Nat) : Parse (List Stat) := do
  let x ← Parse.name
  Parse.expect (.mark .doubleColon)
  let after ← empties level.turns []
  Parse.note (.label x line (← blockEnds false))
  return .label x :: after
where
  /-- Empty statements and other labels. -/
  empties : (turns : Nat) → List Stat → Parse (List Stat)
    | 0, done => return done
    | turns + 1, done => do
      match ← Parse.peek with
      | .mark .semicolon | .mark .doubleColon => empties turns (done ++ (← level.stat))
      | _ => return done

/-- The end of a function, after the word `return`. -/
def returnStat : Parse (List Stat) := do
  let empty ← blockEnds true
  let values ← if empty || (← Parse.peek) = .mark .semicolon then pure [] else level.exprs
  let _ ← Parse.skip? (.mark .semicolon)
  return [.return values]

/-- A statement. -/
def readStat : Parse (List Stat) := do
  let line ← Parse.nextLine
  match ← Parse.peek with
  | .mark .semicolon =>
    Parse.advance
    return []
  | .word .if => level.ifStat line
  | .word .while => level.whileStat line
  | .word .do =>
    Parse.advance
    let body ← level.block
    Parse.close (.word .end) (.word .do) line
    return [.block body]
  | .word .for => level.forStat line
  | .word .repeat => level.repeatStat line
  | .word .function => level.functionStat line
  | .word .local =>
    Parse.advance
    if ← Parse.skip? (.word .function) then level.localFunction else level.localStat
  | .mark .doubleColon =>
    Parse.advance
    level.labelStat line
  | .word .return =>
    Parse.advance
    level.returnStat
  | .word .break =>
    Parse.advance
    Parse.note (.jump none line)
    return [.break]
  | .word .goto =>
    Parse.advance
    let line ← Parse.nextLine
    let x ← Parse.name
    Parse.note (.jump (some x) line)
    return [.goto x]
  | _ => level.exprStat

/-- The rules with `depth` levels below them. -/
def «at» (turns : Nat) : (depth : Nat) → Level
  | 0 => ⟨turns, fun _ => Parse.refuse .tooDeep, Parse.refuse .tooDeep⟩
  | depth + 1 =>
    let below := Level.at turns depth
    ⟨turns, below.readExpr, below.readStat⟩

end Level

/-! ### Scripts -/

/-- How deeply expressions and statements can be nested. -/
def maxDepth : Nat := 199

/-- The statements up to the end of the text. -/
def script (level : Level) : Parse Block := do
  Parse.look
  let body ← level.stats
  unless (← Parse.peek) = .eof do
    Parse.refuse (.expected "<eof>")
  Parse.note .closeFunction
  return body

/-- Reads lexemes as a script: its tree, or why there is none, and what it mentions. -/
def readScript (lexemes : List Lexeme) : Except Refusal Block × List (Mention × Lexeme) :=
  let (outcome, r) := (script (Level.at (lexemes.length + 1) maxDepth)).run.run { ahead := lexemes }
  (outcome, r.mentions.reverse)

/-- The tree of a text, or the first fault in it: of two, the one that is met first. -/
def parse (text : Bytes) : Except Refusal Block :=
  let (outcome, mentions) := readScript (lex text)
  match Scope.check mentions with
  | some (fault, place) => .error ⟨.scope fault, place⟩
  | none => outcome

/-- The message of a refusal, without its position. -/
def Refusal.message (r : Refusal) : Bytes :=
  if r.fault.showsToken && r.place.token != .stray 0 then
    r.fault.message ++ bytesOf " near " ++ r.place.token.display
  else r.fault.message

end Stencil.Script
