import MiniJava.Parsing.Expression

/-!
# Reading statements

A statement that cannot be read is reported and skipped, and an error node stands in its place. An
`else` belongs to the nearest `if` before it that has none.
-/

namespace MiniJava

mutual

/-- The `recur` statements among a statement and those inside it, in the order of the text. -/
def Stmt.recurs : Stmt → List Recur
  | .block _ ss => Stmt.recursList ss
  | .ifElse _ _ t e => t.recurs ++ e.recurs
  | .whileLoop _ _ b => b.recurs
  | .recur r => [r]
  | .println .. | .assign .. | .assignElement .. | .error .. => []

/-- The `recur` statements among some statements and those inside them. -/
def Stmt.recursList : List Stmt → List Recur
  | [] => []
  | s :: ss => s.recurs ++ Stmt.recursList ss

end

theorem Stmt.recursList_eq (ss : List Stmt) : Stmt.recursList ss = ss.flatMap Stmt.recurs := by
  induction ss with
  | nil => rfl
  | cons s ss ih => simp [Stmt.recursList, ih]

namespace Parse

open Reader

/-! ## Statements without others inside -/

/-- Read what follows the name of the variable that an assignment is to, which stands at `start`. -/
def assignmentTo (start : Nat) (name : String) : Reader Fault Stmt := do
  match (← look).kind with
  | .assign =>
    let _ ← advance
    let value ← expression
    let _ ← expect .semicolon
    return .assign (← spanFrom start) name value
  | .leftBracket =>
    let _ ← advance
    let index ← expression
    let _ ← expect .rightBracket
    let _ ← expect .assign
    let value ← expression
    let _ ← expect .semicolon
    return .assignElement (← spanFrom start) name index value
  | _ => failUnexpected [.token .assign, .token .leftBracket]

/-- Read an assignment to a variable or to an element of an array. -/
def assignment : Reader Fault Stmt := do
  let first ← expect .identifier
  assignmentTo first.span.start first.lexeme

/-- Read a print statement. -/
def printStatement : Reader Fault Stmt := do
  let first ← expect .printlnKw
  let value ← parenthesized
  let _ ← expect .semicolon
  return .println (← spanFrom first.span.start) value

/-- Read a `recur`. -/
def recur : Reader Fault Recur := do
  let first ← expect .recurKw
  let condition ← parenthesized
  let _ ← expect .question
  let _ ← expect .leftParen
  let args ← arguments
  let _ ← expect .rightParen
  let _ ← expect .colon
  let fallback ← expression
  let _ ← expect .semicolon
  return { span := ← spanFrom first.span.start, condition, args, fallback }

/-- Read a `recur` as a statement. -/
def recurStatement : Reader Fault Stmt := do
  let r ← recur
  return .recur r

/-! ## Statements with others inside -/

/-- What a statement may start with. -/
def statementStart : List Expectation :=
  [.token .leftBrace, .token .ifKw, .token .whileKw, .token .printlnKw, .token .identifier,
    .token .recurKw]

/-- Whether no further statement can stand here. -/
def atListEnd (c : Cursor) : Bool :=
  match c.current.kind with
  | .rightBrace | .endOfInput | .classKw | .publicKw => true
  | _ => false

/-- Report the fault of a construct that began where `origin` is, and skip what cannot be read. -/
def recover {ε : Type} (region : Region) (origin : Cursor) (fault : Fault) : Reader ε Unit := do
  report fault
  resync region origin

/-- Read a statement; if it cannot be read, report that and skip it. -/
def recovering {ε : Type} (inner : Reader Fault Stmt) : Reader ε Stmt := do
  let origin ← here
  rescue inner fun fault => do
    recover .statements origin fault
    return .error (← spanFrom origin.current.span.start)

/-- Read a block, with some reader for the statements in it. -/
def blockOf (inner : Reader Fault Stmt) (room : Nat) : Reader Fault Stmt := do
  let first ← advance
  let statements ← manyUntil atListEnd (recovering inner) room
  let _ ← expect .rightBrace
  return .block (← spanFrom first.span.start) statements

/-- Report that there is no `else`, and stand in for the branch. -/
def missingElse : Reader Fault Stmt := do
  let found ← look
  report (.unexpected found [.token .elseKw] (some .bothBranches))
  return .error (Span.point found.span.start)

/-- Read the second branch of an `if`. -/
def elseBranchOf (inner : Reader Fault Stmt) : Reader Fault Stmt := do
  if ← eat .elseKw then inner else missingElse

/-- Read an `if`, with some reader for its branches. -/
def ifElseOf (inner : Reader Fault Stmt) : Reader Fault Stmt := do
  let first ← advance
  let condition ← parenthesized
  let thenBranch ← inner
  let elseBranch ← elseBranchOf inner
  return .ifElse (← spanFrom first.span.start) condition thenBranch elseBranch

/-- Read a `while`, with some reader for its body. -/
def whileLoopOf (inner : Reader Fault Stmt) : Reader Fault Stmt := do
  let first ← advance
  let condition ← parenthesized
  let body ← inner
  return .whileLoop (← spanFrom first.span.start) condition body

/-- Read a statement, with some reader for the statements inside. -/
def statementOf (inner : Reader Fault Stmt) (room : Nat) : Reader Fault Stmt := do
  match (← look).kind with
  | .leftBrace => blockOf inner room
  | .ifKw => ifElseOf inner
  | .whileKw => whileLoopOf inner
  | .printlnKw => printStatement
  | .identifier => assignment
  | .recurKw => recurStatement
  | _ => failUnexpected statementStart

/-- Read a statement, within `room` tokens. Beyond them a bound is reached, which is noted. -/
def statementWithin : Nat → Reader Fault Stmt
  | 0 => statementOf (outOfRoom statementStart) 0
  | room + 1 => statementOf (statementWithin room) room

/-- At the end of the text there is no statement. -/
theorem statementOf_of_endOfInput {c : Cursor} (h : c.current.kind = .endOfInput)
    (inner : Reader Fault Stmt) (room : Nat) :
    statementOf inner room c = (failUnexpected statementStart : Reader Fault Stmt) c := by
  unfold statementOf
  simp only [bind, Reader.bind, look, h]
  rfl

theorem statementWithin_of_endOfInput {c : Cursor} (h : c.current.kind = .endOfInput)
    (room : Nat) :
    statementWithin room c = (failUnexpected statementStart : Reader Fault Stmt) c := by
  cases room <;> exact statementOf_of_endOfInput h _ _

/-- Read a statement. -/
def statement : Reader Fault Stmt := withRoom statementWithin

/-- Read statements up to a closing brace, a declaration or the end. -/
def statements {ε : Type} : Reader ε (List Stmt) :=
  withRoom (manyUntil atListEnd (recovering statement))

/-- Report each `recur` that does not end a method. -/
def reportRecurs {ε : Type} (recurs : List Recur) : Reader ε Unit :=
  noteAll (recurs.map fun r => .fault (.misplaced .recurEndsMethod r.span))

end Parse

end MiniJava
