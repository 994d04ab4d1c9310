import MiniJava.Report.SyntaxError
import MiniJava.Source.Lines

/-!
# Faults of grammar

What can be wrong with the tokens of a text, as causes. `Fault.toSyntaxError` puts a cause into
words.
-/

namespace MiniJava

/-- What could have stood at a place: a kind of token, or the name `main`. -/
inductive Expectation where
  | token (kind : TokenKind)
  | mainName
deriving DecidableEq, Inhabited

/-- The expectation in words. -/
def Expectation.display : Expectation → String
  | token kind => kind.display
  | mainName => "`main`"

/-- A remark on what the grammar asks for. -/
inductive Hint where
  | bothBranches
  | methodEnds
  | resultIsLast
deriving DecidableEq, Inhabited

/-- The remark in words. -/
def Hint.text : Hint → String
  | bothBranches => "both branches of an `if` statement are required"
  | methodEnds => "a method ends with `return expr;` or a `recur` statement"
  | resultIsLast => "`return` or `recur` must be the last statement of a method"

/-- A rule on where a construct may stand, beyond what the next token decides. -/
inductive OrderRule where
  | recurEndsMethod
  | fieldsFirst
  | localsFirst
  | oneMainStatement
deriving DecidableEq, Inhabited

/-- The rule in words. -/
def OrderRule.message : OrderRule → String
  | recurEndsMethod => "`recur` may only replace a method's trailing `return`"
  | fieldsFirst => "field declarations must precede method declarations"
  | localsFirst => "local declarations must precede statements"
  | oneMainStatement => "the main method body must hold exactly one statement"

/-- A fault of grammar. -/
inductive Fault where
  /-- A token that is none of those that could stand there. -/
  | unexpected (found : Token) (expected : List Expectation) (hint : Option Hint)
  /-- A construct that breaks a rule of order. -/
  | misplaced (rule : OrderRule) (span : Span)
deriving DecidableEq, Inhabited

/-- The fault in words. -/
def Fault.toSyntaxError (source : Source) : Fault → SyntaxError
  | unexpected found expected hint =>
    { SyntaxError.unexpected found (expected.map Expectation.display) with
      note := hint.map Hint.text }
  | misplaced rule span => SyntaxError.spanning rule.message span (source.position span.start)

end MiniJava
