import MiniJava.Parsing.Reader
import MiniJava.Tree.Operator

/-!
# Reading expressions

An expression is an operand and what follows it, as far as the operators bind tightly enough. The
parts of an expression are read by readers that take the reader of smaller parts as an argument.
`stageWithin` ties the knot: it is bounded by the number of tokens that may be left, and notes if
that does not suffice. Each part takes a token before it goes on with a smaller bound, so that
`expression`, which starts with the number of tokens ahead, never runs out: see `reading_ends`.
-/

namespace MiniJava.Parse

open Reader

/-- What an operand may start with. -/
def operandStart : List Expectation :=
  [.token (.integer 0), .token .trueKw, .token .falseKw, .token .identifier, .token .thisKw,
    .token .newKw, .token .leftParen, .token .bang]

/-- A point in the reading of an expression. -/
inductive Stage where
  /-- Before an operand. -/
  | operand
  /-- After `left`, where operators that bind at least as tightly as `floor` may follow. -/
  | after (floor : Nat) (left : Expr)

/-- A reader for each point in the reading of an expression. -/
abbrev StageReader := Stage → Reader Fault Expr

variable (read : StageReader)

/-- Read an operand and the operators after it that bind at least as tightly as `floor`. -/
def above (floor : Nat) : Reader Fault Expr := do
  let left ← read .operand
  read (.after floor left)

/-- Read an expression of one token. -/
def leaf (build : Span → Expr) : Reader Fault Expr := do
  let first ← advance
  return build (← spanFrom first.span.start)

/-- Read a negation, which takes in one operand. -/
def negation : Reader Fault Expr := do
  let first ← advance
  let operand ← read .operand
  return .not (← spanFrom first.span.start) operand

/-- Read an expression in parentheses as an operand. -/
def grouping : Reader Fault Expr := do
  let first ← advance
  let inner ← above read 0
  let _ ← expect .rightParen
  return .paren (← spanFrom first.span.start) inner

/-- Read what follows `new`, which stands at `start`. -/
def creationFrom (start : Nat) : Reader Fault Expr := do
  let t ← look
  match t.kind with
  | .intKw =>
    let _ ← advance
    let _ ← expect .leftBracket
    let size ← above read 0
    let _ ← expect .rightBracket
    return .newArray (← spanFrom start) size
  | .identifier =>
    let _ ← advance
    let _ ← expect .leftParen
    let _ ← expect .rightParen
    return .newObject (← spanFrom start) t.lexeme
  | _ => failUnexpected [.token .intKw, .token .identifier]

/-- Read the creation of an array or of an object. -/
def creation : Reader Fault Expr := do
  let first ← advance
  creationFrom read first.span.start

/-- Read an operand. -/
def operandFrom : Reader Fault Expr := do
  let first ← look
  match first.kind with
  | .integer value => leaf (.integer · value)
  | .trueKw => leaf (.boolean · true)
  | .falseKw => leaf (.boolean · false)
  | .identifier => leaf (.identifier · first.lexeme)
  | .thisKw => leaf .this
  | .bang => negation read
  | .leftParen => grouping read
  | .newKw => creation read
  | _ => failUnexpected operandStart

/-- Read items with commas between them up to, and not including, a closing parenthesis. -/
def argumentsOf (item : Reader Fault Expr) (room : Nat) : Reader Fault (List Expr) := do
  if ← isAt .rightParen then return []
  else sepByComma item room

/-- Read an operator after `left`, and what it takes in. -/
def takeOperator (room : Nat) (left : Expr) : Operator → Reader Fault Expr
  | .binary sign => do
    let _ ← advance
    let right ← above read (Operator.binary sign).rightPower
    return .binary (← spanFrom left.span.start) left sign right
  | .index => do
    let _ ← advance
    let position ← above read 0
    let _ ← expect .rightBracket
    return .index (← spanFrom left.span.start) left position
  | .length => do
    let _ ← advance
    let _ ← advance
    return .length (← spanFrom left.span.start) left
  | .call => do
    let _ ← advance
    let method ← expectName
    let _ ← expect .leftParen
    let args ← argumentsOf (above read 0) room
    let _ ← expect .rightParen
    return .call (← spanFrom left.span.start) left method args

/-- Read the operators after `left` that bind at least as tightly as `floor`. -/
def operatorsFrom (room floor : Nat) (left : Expr) : Reader Fault Expr := do
  let cursor ← here
  match Operator.at? cursor.current.kind cursor.secondKind with
  | none => return left
  | some op =>
    if op.leftPower < floor then return left
    else do
      let folded ← takeOperator read room left op
      read (.after floor folded)

/--
Read on from a point in an expression, within `room` tokens. Beyond them a bound is reached, which is
noted.
-/
def stageWithin : Nat → StageReader
  | 0, .operand => operandFrom fun _ => outOfRoom operandStart
  | 0, .after floor left => operatorsFrom (fun _ => outOfRoom operandStart) 0 floor left
  | room + 1, .operand => operandFrom (stageWithin room)
  | room + 1, .after floor left => operatorsFrom (stageWithin room) room floor left

section EndOfInput

variable {c : Cursor} (h : c.current.kind = .endOfInput)

include h

/-- At the end of the text there is no operand. -/
theorem operandFrom_of_endOfInput (read : StageReader) :
    operandFrom read c = (failUnexpected operandStart : Reader Fault Expr) c := by
  unfold operandFrom
  simp only [bind, Reader.bind, look, h]
  rfl

/-- At the end of the text there is no operator. -/
theorem operatorsFrom_of_endOfInput (read : StageReader) (room floor : Nat) (left : Expr) :
    operatorsFrom read room floor left c = (pure left : Reader Fault Expr) c := by
  unfold operatorsFrom
  simp only [bind, Reader.bind, here, h]
  rfl

theorem stageWithin_operand_of_endOfInput (room : Nat) :
    stageWithin room .operand c = (failUnexpected operandStart : Reader Fault Expr) c := by
  cases room <;> exact operandFrom_of_endOfInput h _

theorem stageWithin_after_of_endOfInput (room floor : Nat) (left : Expr) :
    stageWithin room (.after floor left) c = (pure left : Reader Fault Expr) c := by
  cases room <;> exact operatorsFrom_of_endOfInput h _ _ floor left

end EndOfInput

/-- Read an expression. -/
def expression : Reader Fault Expr := withRoom fun room => above (stageWithin room) 0

/-- Read expressions with commas between them, up to a closing parenthesis. -/
def arguments : Reader Fault (List Expr) := withRoom (argumentsOf expression)

/-- Read an expression in parentheses. -/
def parenthesized : Reader Fault Expr := do
  let _ ← expect .leftParen
  let inner ← expression
  let _ ← expect .rightParen
  return inner

end MiniJava.Parse
