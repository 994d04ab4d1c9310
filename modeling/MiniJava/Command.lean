import MiniJava.Parsing.Analysis
import MiniJava.Printing.Spelling
import MiniJava.Report.Annotated
import MiniJava.Report.Emitter
import MiniJava.Source.FileTree
import MiniJava.Tree.Dump

/-!
# The command

`Command.parse?` reads the arguments of the command line, and `Command.run` says what the command
writes for the contents of its file. Output that goes to a pipe is coloured in annotated reports
only.
-/

namespace MiniJava

/-- What the command is to do with its file. -/
inductive Task where
  /-- List the tokens. -/
  | tokens
  /-- Print the program, or show its tree. -/
  | parse
  /-- Say whether there are errors. -/
  | check
deriving DecidableEq, Inhabited

/-- A command. -/
structure Command where
  task : Task
  file : String
  dumpTree : Bool
  colored : Bool
  compact : Bool
  verbosity : Nat
deriving DecidableEq, Inhabited

/-- What a command writes, and whether it ends with success. -/
structure Outcome where
  success : Bool
  stdout : String
  stderr : String
deriving DecidableEq, Inhabited

/-- Some text, filled up with blanks to a number of characters. -/
def padRight (width : Nat) (text : String) : String :=
  text ++ String.ofList (List.replicate (width - text.length) ' ')

/-- The line of a token in a listing: position, class, kind and text. -/
def Token.listing (t : Token) : String :=
  let lexeme := if t.kind = .endOfInput then "" else Dump.quoted t.lexeme
  let line := " ".intercalate
    [padRight 8 t.position.display, padRight 15 t.category.name, padRight 24 t.kind.display, lexeme]
  String.ofList (trimEnd line.toList)

namespace Analysis

/-- The log of the reading of a program, as verbose as asked for. -/
def log (a : Analysis Program) (verbosity : Nat) : String :=
  let summary (text : String) : List String :=
    if verbosity ≥ 1 then ["DEBUG minijava_syntax::parser: " ++ text ++ "\n"] else []
  let detail (skip : Region × Nat) : List String :=
    if verbosity ≥ 2 then
      ["TRACE minijava_syntax::parser::helpers: " ++ skip.1.logMessage ++ " skipped=" ++
        Nat.repr skip.2 ++ "\n"]
    else []
  String.join <|
    summary ("parsing compilation unit tokens=" ++ Nat.repr a.tokenCount) ++
      a.skips.flatMap detail ++
      summary ("parse finished classes=" ++ Nat.repr (a.tree.classes.length + 1) ++
        " diagnostics=" ++ Nat.repr a.diagnostics.length)

end Analysis

namespace Command

/-- The flags that may stand before the name of the task as well as after it. -/
structure Flags where
  colorless : Bool := false
  compact : Bool := false
  verbosity : Nat := 0
deriving DecidableEq, Inhabited

namespace Flags

/-- Raise the verbosity by one for each letter of `-v`, `-vv` and so on. -/
def addLetters? (f : Flags) : List Char → Option Flags
  | '-' :: 'v' :: letters =>
    if letters.all (· == 'v') then some { f with verbosity := f.verbosity + letters.length + 1 }
    else none
  | _ => none

/-- Read one more flag. Only those for the verbosity may be repeated. -/
def add? (f : Flags) (arg : String) : Option Flags :=
  match arg with
  | "--no-color" => if f.colorless then none else some { f with colorless := true }
  | "--plain" => if f.compact then none else some { f with compact := true }
  | "--verbose" => some { f with verbosity := f.verbosity + 1 }
  | _ => f.addLetters? arg.toList

/--
The flags before and after the name of the task together. A verbosity given after the name stands
in place of the one before it; the two are not added.
-/
def combine (before after : Flags) : Flags where
  colorless := before.colorless || after.colorless
  compact := before.compact || after.compact
  verbosity := if after.verbosity = 0 then before.verbosity else after.verbosity

end Flags

/-- The arguments read so far: words that are no flags, and flags. -/
structure Arguments where
  words : List String := []
  /-- Whether all further arguments are words. -/
  literal : Bool := false
  dumpTree : Bool := false
  /-- The flags before the first word, which is the name of the task. -/
  before : Flags := {}
  /-- The flags after the name of the task. -/
  after : Flags := {}
deriving DecidableEq, Inhabited

namespace Arguments

/-- Read one more word. -/
def addWord (a : Arguments) (word : String) : Arguments := { a with words := a.words ++ [word] }

/-- Read one more flag. -/
def addFlag? (a : Arguments) (arg : String) : Option Arguments :=
  if a.words.isEmpty then (a.before.add? arg).map fun before => { a with before }
  else (a.after.add? arg).map fun after => { a with after }

/-- Read one more argument. Flags may stand anywhere, up to `--` after the name of the task. -/
def add? (a : Arguments) (arg : String) : Option Arguments :=
  if a.literal then some (a.addWord arg)
  else
    match arg with
    | "--ast" => if a.words.isEmpty || a.dumpTree then none else some { a with dumpTree := true }
    | "--" => if a.words.isEmpty then none else some { a with literal := true }
    | "-" => some (a.addWord arg)
    | _ => if arg.toList.head? = some '-' then a.addFlag? arg else some (a.addWord arg)

end Arguments

/-- The task of a name. -/
def task? : String → Option Task
  | "tokens" => some .tokens
  | "parse" => some .parse
  | "check" => some .check
  | _ => none

/-- The command that the arguments ask for: a task, a file, and flags. -/
def parse? (args : List String) : Option Command := do
  let a ← args.foldlM Arguments.add? {}
  match a.words with
  | [name, file] =>
    let task ← task? name
    guard (!a.dumpTree || task = .parse)
    let flags := a.before.combine a.after
    return {
      task
      file
      dumpTree := a.dumpTree
      colored := !flags.colorless
      compact := flags.compact
      verbosity := flags.verbosity }
  | _ => none

/-- The reports of some diagnostics. -/
def reports (c : Command) (source : String) (ds : List Diagnostic) : String :=
  if c.compact then Emitter.emitAll ⟨c.colored⟩ false false ds
  else
    let page := Annotated.Page.ofText source
    StyledText.render c.colored (ds.flatMap fun d => (d.annotated? c.file page).getD [])

/-- List the tokens of a text. -/
def runTokens (c : Command) (source : String) : Outcome :=
  let t := tokenize source
  { success := t.errors.isEmpty
    stdout := String.join (t.all.map fun token => token.listing ++ "\n")
    stderr := c.reports source (t.errors.map LexicalError.toDiagnostic) }

/-- Print the program that a text holds. -/
def runParse (c : Command) (source : String) : Outcome :=
  let a := MiniJava.parse source
  { success := !a.hasErrors
    stdout := if c.dumpTree then a.tree.dump.render ++ "\n" else a.tree.print
    stderr := a.log c.verbosity ++ c.reports source a.diagnostics }

/-- Say whether a text holds a program. -/
def runCheck (c : Command) (source : String) : Outcome :=
  let a := MiniJava.parse source
  let log := a.log c.verbosity
  if a.hasErrors then
    { success := false
      stdout := ""
      stderr := log ++ c.reports source a.diagnostics ++
        "✗ " ++ Nat.repr a.diagnostics.length ++ " error(s) in " ++ c.file ++ "\n" }
  else { success := true, stdout := "✓ " ++ c.file ++ ": no errors\n", stderr := log }

/-- The text of a file. -/
def decode (contents : Except ReadError ByteArray) : Except ReadError String := do
  match String.fromUTF8? (← contents) with
  | some source => return source
  | none => throw .invalidText

/-- Run a command on the contents of its file. -/
def run (c : Command) (contents : Except ReadError ByteArray) : Outcome :=
  match decode contents with
  | .ok source =>
    match c.task with
    | .tokens => c.runTokens source
    | .parse => c.runParse source
    | .check => c.runCheck source
  | .error e =>
    { success := false
      stdout := ""
      stderr := "Error: 无法读取 " ++ c.file ++ "\n\nCaused by:\n    " ++ e.message ++ "\n" }

/-- Run the command that the arguments ask for on the files of a machine. -/
def runOn (t : FileTree) (args : List String) : Option Outcome :=
  (parse? args).map fun c => c.run (t.read c.file)

end Command

end MiniJava
