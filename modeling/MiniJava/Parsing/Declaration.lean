import MiniJava.Parsing.Statement

/-!
# Reading declarations

Types, variables, methods, classes, the main class and whole programs. Declarations in the wrong
order are kept and reported; a faulty member costs that member, and a faulty class that class.
-/

namespace MiniJava.Parse

open Reader

variable {ε : Type}

/-- Read the name of a type. -/
def typeName : Reader Fault TypeName := do
  let first ← look
  match first.kind with
  | .intKw =>
    let _ ← advance
    if ← eat .leftBracket then
      let _ ← expect .rightBracket
      return .intArray
    else return .int
  | .booleanKw =>
    let _ ← advance
    return .boolean
  | .identifier =>
    let _ ← advance
    return .named first.lexeme
  | _ => failUnexpected [.token .intKw, .token .booleanKw, .token .identifier]

/-- Read a type and a name. -/
def parameter : Reader Fault Variable := do
  let start := (← look).span.start
  let type ← typeName
  let name ← expectName
  return { span := ← spanFrom start, name, type }

/-- Read a type and a name with a semicolon. -/
def variableDecl : Reader Fault Variable := do
  let start := (← look).span.start
  let type ← typeName
  let name ← expectName
  let _ ← expect .semicolon
  return { span := ← spanFrom start, name, type }

/-- Read the parameters of a method, up to the closing parenthesis. -/
def parameters : Reader Fault (List Variable) := do
  if ← isAt .rightParen then return []
  else withRoom (sepByComma parameter)

/-! ## Methods -/

/-- What stands between the opening brace of a method and its result. -/
inductive BodyItem where
  | local (v : Variable)
  | statement (s : Stmt)

/-- The local variable that an item declares. -/
def BodyItem.local? : BodyItem → Option Variable
  | .local v => some v
  | .statement _ => none

/-- The statement that an item is. -/
def BodyItem.statement? : BodyItem → Option Stmt
  | .local _ => none
  | .statement s => some s

/-- Whether a local variable is declared here: `int`, `boolean`, or two names in a row. -/
def atVariableDecl (c : Cursor) : Bool :=
  match c.current.kind with
  | .intKw | .booleanKw => true
  | .identifier => c.secondKind = .identifier
  | _ => false

/-- Whether the items of a method body end here. -/
def atBodyEnd (c : Cursor) : Bool := atListEnd c || c.current.kind = .returnKw

/-- Read a local variable. One that stands after a statement is reported. -/
def localDecl (started : Bool) : Reader Fault (Option BodyItem) := do
  let v ← variableDecl
  reportIf started (.misplaced .localsFirst v.span)
  return some (.local v)

/-- Read an item of a method body. -/
def bodyItem (started : Bool) : Reader ε (Option BodyItem) := do
  let origin ← here
  if atVariableDecl origin then
    rescue (localDecl started) fun fault => do
      recover .statements origin fault
      return none
  else
    let s ← recovering statement
    return some (.statement s)

/-- Read the items of a method body. -/
def bodyItems : Reader ε (List BodyItem) :=
  withRoom fun room =>
    manyFrom atBodyEnd bodyItem (fun started item => started || item.statement?.isSome) room false

/-- Read a `return` and its value. -/
def returned : Reader Fault MethodResult := do
  let first ← expect .returnKw
  let value ← expression
  let _ ← expect .semicolon
  return .returns (← spanFrom first.span.start) value

/-- Read a `return`; if it cannot be read, report that and skip it. -/
def returnedRecovering : Reader ε MethodResult := do
  let origin ← here
  rescue returned fun fault => do
    recover .statements origin fault
    let span ← spanFrom origin.current.span.start
    return .returns span (.error span)

/-- Report that a method has no result, and stand in for it. -/
def missingResult : Reader ε MethodResult := do
  let found ← look
  report (.unexpected found [.token .returnKw, .token .recurKw] (some .methodEnds))
  let span := Span.point found.span.start
  return .returns span (.error span)

/--
The result that the last statement of a method becomes, if it is a `recur` or was to be one. Of a
statement that could not be read, the token that it starts with is looked up.
-/
def trailing? (c : Cursor) : Stmt → Option MethodResult
  | .recur r => some (.recurs r)
  | .error span =>
    if c.kindAt span.start = some .recurKw then some (.returns span (.error span)) else none
  | _ => none

/--
Read the result of a method after its statements. Without a `return`, it may be the last of them.
Gives the statements that remain, and the result.
-/
def methodResult (body : List Stmt) : Reader ε (List Stmt × MethodResult) := do
  if ← isAt .returnKw then
    let result ← returnedRecovering
    return (body, result)
  else
    match body.getLast?.bind (trailing? (← here)) with
    | some result => return (body.dropLast, result)
    | none =>
      let result ← missingResult
      return (body, result)

/-- Report and drop statements after the result of a method. -/
def afterResult : Reader ε Unit := do
  if atListEnd (← here) then return ()
  else
    let found ← look
    report (.unexpected found [.token .rightBrace] (some .resultIsLast))
    let _ ← statements
    return ()

/-- Read what follows the head of a method. Nothing makes it fail. -/
def methodBody : Reader ε (List Variable × List Stmt × MethodResult) := do
  let items ← bodyItems
  let (body, result) ← methodResult (items.filterMap BodyItem.statement?)
  afterResult
  expectOrReport .rightBrace
  reportRecurs (Stmt.recursList body)
  return (items.filterMap BodyItem.local?, body, result)

/-- Read a method. -/
def method : Reader Fault Method := do
  let first ← expect .publicKw
  let returnType ← typeName
  let name ← expectName
  let _ ← expect .leftParen
  let params ← parameters
  let _ ← expect .rightParen
  let _ ← expect .leftBrace
  let (locals, body, result) ← methodBody
  return {
    span := ← spanFrom first.span.start
    name
    returnType
    params
    locals
    body
    result }

/-! ## Classes -/

/-- What stands between the braces of a class. -/
inductive Member where
  | field (v : Variable)
  | method (m : Method)

/-- The field that a member is. -/
def Member.field? : Member → Option Variable
  | .field v => some v
  | .method _ => none

/-- The method that a member is. -/
def Member.method? : Member → Option Method
  | .field _ => none
  | .method m => some m

/-- Whether the members of a class end here. -/
def atMembersEnd (c : Cursor) : Bool :=
  match c.current.kind with
  | .rightBrace | .endOfInput | .classKw => true
  | _ => false

/-- Read a field. One that stands after a method is reported. -/
def fieldDecl (seenMethod : Bool) : Reader Fault (Option Member) := do
  let v ← variableDecl
  reportIf seenMethod (.misplaced .fieldsFirst v.span)
  return some (.field v)

/-- Read a method as a member of a class. -/
def methodDecl : Reader Fault (Option Member) := do
  let m ← method
  return some (.method m)

/-- Read a member of a class; if it cannot be read, report that and skip it. -/
def member (seenMethod : Bool) : Reader ε (Option Member) := do
  let origin ← here
  rescue (if origin.current.kind = .publicKw then methodDecl else fieldDecl seenMethod)
    fun fault => do
      recover .members origin fault
      return none

/-- Read the members of a class. -/
def members : Reader ε (List Member) :=
  withRoom fun room =>
    manyFrom atMembersEnd member (fun seen item => seen || item.method?.isSome) room false

/-- Read the name of the class from which a class inherits, if it does. -/
def superclass : Reader Fault (Option String) := do
  if ← eat .extendsKw then
    let name ← expectName
    return some name
  else return none

/-- Read a class. -/
def classDecl : Reader Fault ClassDecl := do
  let first ← expect .classKw
  let name ← expectName
  let superclass ← superclass
  let _ ← expect .leftBrace
  let items ← members
  expectOrReport .rightBrace
  return {
    span := ← spanFrom first.span.start
    name
    superclass
    fields := items.filterMap Member.field?
    methods := items.filterMap Member.method? }

/-! ## Programs -/

/-- Take the name `main`, which is no keyword. -/
def expectMain : Reader Fault Token := do
  let t ← look
  if t.kind = .identifier ∧ t.lexeme = "main" then advance
  else failUnexpected [.mainName]

/-- Read the main class up to the body of its method, and give the two names that it declares. -/
def mainHead : Reader Fault (String × String) := do
  let name ← expectName
  let _ ← expect .leftBrace
  let _ ← expect .publicKw
  let _ ← expect .staticKw
  let _ ← expect .voidKw
  let _ ← expectMain
  let _ ← expect .leftParen
  let _ ← expect .stringKw
  let _ ← expect .leftBracket
  let _ ← expect .rightBracket
  let argsName ← expectName
  let _ ← expect .rightParen
  return (name, argsName)

/-- The one statement of the main method. If there is not exactly one, a block of them all. -/
def oneStatement (span : Span) : List Stmt → Reader ε Stmt
  | [s] => return s
  | ss => do
    report (.misplaced .oneMainStatement span)
    return .block span ss

/-- Read the body of the main method, whose brace stands at `start`. Nothing makes it fail. -/
def mainBody (start : Nat) : Reader ε Stmt := do
  let ss ← statements
  expectOrReport .rightBrace
  let span ← spanFrom start
  expectOrReport .rightBrace
  let body ← oneStatement span ss
  reportRecurs body.recurs
  return body

/-- Read the main class. -/
def mainClass : Reader Fault MainClass := do
  let first ← expect .classKw
  let (name, argsName) ← mainHead
  let brace ← expect .leftBrace
  let body ← mainBody brace.span.start
  return { span := ← spanFrom first.span.start, name, argsName, body }

/-- Read the main class; if that fails, report it, skip to the next class, and stand in for it. -/
def mainClassRecovering : Reader ε MainClass := do
  let start := (← look).span.start
  rescue mainClass fun fault => do
    recover .toplevel (← here) fault
    let span ← spanFrom start
    return { span, name := "", argsName := "", body := .error span }

/-- Read one of the classes after the main class. -/
def otherClass : Reader Fault (Option ClassDecl) := do
  let c ← classDecl
  return some c

/-- Read one of the classes after the main class; what is no class is reported and skipped. -/
def topLevelItem : Reader ε (Option ClassDecl) := do
  let origin ← here
  let inner :=
    if origin.current.kind = .classKw then otherClass
    else failUnexpected [.token .classKw, .token .endOfInput]
  rescue inner fun fault => do
    recover .toplevel origin fault
    return none

/-- Whether the text ends here. -/
def atEnd (c : Cursor) : Bool := c.current.kind = .endOfInput

/-- Read a program. -/
def program : Reader ε Program := do
  let start := (← look).span.start
  let main ← mainClassRecovering
  let classes ← withRoom fun room =>
    manyFrom atEnd (fun _ : Unit => topLevelItem) (fun s _ => s) room ()
  return { span := ← spanFrom start, main, classes }

end MiniJava.Parse
