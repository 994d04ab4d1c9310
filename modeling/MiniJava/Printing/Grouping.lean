import MiniJava.Tree.Operator
import MiniJava.Tree.Replace

/-!
# Grouping

A tree may ask for parentheses that it does not hold, such as a sum that is multiplied.
`Expr.grouped` adds parentheses to operands that would be read otherwise without them, and no
others.
-/

namespace MiniJava

namespace Expr

/-- How tightly an expression holds together that no operator next to it can break up. -/
def atomic : Nat := 100

/-- How tightly an expression holds together. -/
def strength : Expr → Nat
  | binary _ _ op _ => op.precedence
  | index .. | length .. | call .. => Operator.postfixLevel
  | integer .. | boolean .. | identifier .. | this .. | newArray .. | newObject .. | not ..
  | paren .. | error .. => atomic

/-- The expression, in parentheses if it does not hold together tightly enough. -/
def guarded (level : Nat) (e : Expr) : Expr := if e.strength < level then paren e.span e else e

mutual

/-- The expression with the parentheses that its structure asks for. -/
def grouped : Expr → Expr
  | integer s v => integer s v
  | boolean s v => boolean s v
  | identifier s n => identifier s n
  | this s => this s
  | newArray s e => newArray s e.grouped
  | newObject s n => newObject s n
  | index s a i => index s (a.grouped.guarded Operator.postfixLevel) i.grouped
  | length s a => length s (a.grouped.guarded Operator.postfixLevel)
  | call s r m as => call s (r.grouped.guarded Operator.postfixLevel) m (groupedList as)
  | not s e => not s (e.grouped.guarded atomic)
  | binary s l op r =>
    binary s (l.grouped.guarded op.precedence) op (r.grouped.guarded (op.precedence + 1))
  | paren s e => paren s e.grouped
  | error s => error s

/-- The expressions of a list with the parentheses that their structure asks for. -/
def groupedList : List Expr → List Expr
  | [] => []
  | e :: es => e.grouped :: groupedList es

end

theorem groupedList_eq (es : List Expr) : groupedList es = es.map grouped := by
  induction es with
  | nil => rfl
  | cons e es ih => simp [groupedList, ih]

/-- Grouping changes operands only, so the expression itself holds together as before. -/
theorem strength_grouped (e : Expr) : e.grouped.strength = e.strength := by
  cases e <;> rfl

end Expr

end MiniJava
