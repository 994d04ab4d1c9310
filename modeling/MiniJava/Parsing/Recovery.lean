import MiniJava.Lexical.Token

/-!
# Recovery

After a fault, some tokens are skipped up to a place from which reading can go on. How many they
are depends on the region in which the fault came up, and on whether any token was read since the
faulty construct began: if not, one is skipped in any case, so that reading moves on.
-/

namespace MiniJava

/-- Where reading goes on after a fault. -/
inductive Region where
  | statements
  | members
  | toplevel
deriving DecidableEq, Inhabited

namespace Region

/-- The keywords before which skipping among statements ends. -/
def opensStatement : TokenKind → Bool
  | .classKw | .publicKw | .ifKw | .whileKw | .printlnKw | .returnKw | .recurKw => true
  | _ => false

/--
Among statements, skip up to and with the next semicolon, but stop before a closing brace, and
before a keyword that opens a statement or a declaration.
-/
def skipStatement (moved : Bool) : List Token → Nat
  | [] => 0
  | t :: ts =>
    if t.kind = .rightBrace then 0
    else if t.kind = .semicolon then 1
    else if moved ∧ opensStatement t.kind then 0
    else skipStatement true ts + 1

/--
Among members, skip up to and with the brace that closes the first one opened. Outside braces, skip
up to and with a semicolon, but stop before `public`, `class` and the brace of the class itself.
-/
def skipMember (moved : Bool) (depth : Nat) : List Token → Nat
  | [] => 0
  | t :: ts =>
    if t.kind = .leftBrace then skipMember true (depth + 1) ts + 1
    else if t.kind = .rightBrace then
      match depth with
      | 0 => 0
      | 1 => 1
      | depth + 2 => skipMember true (depth + 1) ts + 1
    else if depth = 0 ∧ t.kind = .semicolon then 1
    else if depth = 0 ∧ moved ∧ (t.kind = .publicKw ∨ t.kind = .classKw) then 0
    else skipMember true depth ts + 1

/-- At top level, skip up to the next `class`. -/
def skipToClass (moved : Bool) : List Token → Nat
  | [] => 0
  | t :: ts => if moved ∧ t.kind = .classKw then 0 else skipToClass true ts + 1

/-- How many tokens to skip. -/
def skip : Region → Bool → List Token → Nat
  | statements, moved, ts => skipStatement moved ts
  | members, moved, ts => skipMember moved 0 ts
  | toplevel, moved, ts => skipToClass moved ts

/-- What a log says of skipping. -/
def logMessage : Region → String
  | statements => "resynchronized"
  | members => "resynchronized in class body"
  | toplevel => "resynchronized at top level"

end Region

end MiniJava
