import MiniJava.Proofs.Printing.Indentation

/-!
# Statements printed further in

A statement at a level shows the lines that it shows at level 0, each with the blanks of the level
in front, unless a name in it breaks a line. Together with `Printable.balanced_pieces` this says all
that the level of a printer is good for.
-/

namespace MiniJava

/-! ## Blanks before lines -/

/-- Put blanks before every line of a text. A line that is `begun` has them already. -/
def indentLines (blanks : List Char) : (begun : Bool) → List Char → List Char
  | _, [] => []
  | true, c :: cs => c :: indentLines blanks (c != '\n') cs
  | false, c :: cs => blanks ++ c :: indentLines blanks (c != '\n') cs

/-- The text with as many blanks before every line. -/
def indented (width : Nat) (text : String) : String :=
  String.ofList (indentLines (List.replicate width ' ') false text.toList)

example : indented 2 "while (b)\n    x = 1;\n" = "  while (b)\n      x = 1;\n" := by decide

section IndentLines

variable {blanks cs ds : List Char}

theorem indentLines_false (h : cs ≠ []) :
    indentLines blanks false cs = blanks ++ indentLines blanks true cs := by
  cases cs with
  | nil => exact absurd rfl h
  | cons c cs => rfl

/-- What does not break the line that is begun stays as it is. -/
theorem indentLines_append (h : '\n' ∉ cs) :
    indentLines blanks true (cs ++ ds) = cs ++ indentLines blanks true ds := by
  induction cs with
  | nil => rfl
  | cons c cs ih =>
    obtain ⟨hc, hcs⟩ := not_or.1 (mt List.mem_cons.2 h)
    have hbegun : (c != '\n') = true := bne_iff_ne.2 (Ne.symm hc)
    rw [List.cons_append, indentLines, hbegun, ih hcs, List.cons_append]

end IndentLines

/-- The text has no line feed. -/
def Unbroken (text : String) : Prop := '\n' ∉ text.toList

instance (text : String) : Decidable (Unbroken text) := inferInstanceAs (Decidable (¬ _))

namespace Piece

variable {Q : String → Prop} {begun : Bool} {depth : Nat} {p : Piece} {ps : List Piece}

/-! ## The text of a line -/

theorem unbroken_spelling (kind : TokenKind) : Unbroken (kind.spelling?.getD "") := by
  cases kind with
  | integer value => exact (by decide : Unbroken "")
  | _ => decide

theorem unbroken_repr (n : Nat) : Unbroken (Nat.repr n) := by
  rw [Unbroken, Nat.toList_repr]
  intro h
  have hdigit := Nat.isDigit_of_mem_toDigits (by decide) (by decide) h
  contradiction

theorem unbroken_digits (value : Int32) : Unbroken (digits value) := by
  have hrepr := unbroken_repr value.toInt.natAbs
  unfold digits
  dsimp only
  split
  · rw [Unbroken, String.toList_append, List.mem_append, not_or]
    exact ⟨by decide, hrepr⟩
  · exact hrepr

/-- A piece within a line breaks it in a name only. -/
theorem Inline.unbroken_text (hp : p.Inline Unbroken) (level : Nat) : Unbroken (p.text level) := by
  cases p with
  | word kind => exact unbroken_spelling kind
  | ident n => exact hp
  | number value => exact unbroken_digits value
  | placeholder | space => simp [text, Unbroken]
  | newline | margin | indent | dedent => cases hp

/-- A piece within a line shows the same at each level. -/
theorem render_inline (hp : p.Inline Q) (level : Nat) (ps : List Piece) :
    render level (p :: ps) = (p.text 0).toList ++ render level ps := by
  cases p with
  | word | ident | number | placeholder | space => rfl
  | newline | margin | indent | dedent => cases hp

theorem render_margin (level : Nat) (ps : List Piece) :
    render level (margin :: ps) = List.replicate (level * indentStep) ' ' ++ render level ps := by
  rw [render, text, String.toList_ofList, levelAfter]

namespace Ruled

/-- A line that is begun is ended. -/
theorem render_ne_nil (h : Ruled Q depth true ps) (level : Nat) : render level ps ≠ [] := by
  induction ps with
  | nil => cases h
  | cons p ps ih =>
    cases h with
    | inline hp h =>
      rw [render_inline hp]
      exact List.append_ne_nil_of_right_ne_nil _ (ih h)
    | newline h =>
      rw [render_newline]
      exact List.cons_ne_nil _ _

/-- Further in, each line has more blanks in front and is the same otherwise. -/
theorem render_add (h : Ruled Unbroken depth begun ps) (level : Nat) :
    render (level + depth) ps =
      indentLines (List.replicate (level * indentStep) ' ') begun (render depth ps) := by
  induction h with
  | nil => rfl
  | @margin depth ps h ih =>
    -- at level 0 the margin is empty, and it is the rest of the line that makes it a line
    have hblanks : '\n' ∉ List.replicate (depth * indentStep) ' ' := fun hmem =>
      absurd (List.eq_of_mem_replicate hmem) (by decide)
    rw [render_margin, render_margin, indentLines_false, indentLines_append hblanks, ih,
      Nat.add_mul, ← List.replicate_append_replicate, List.append_assoc]
    exact List.append_ne_nil_of_right_ne_nil _ (h.render_ne_nil _)
  | inline hp _ ih =>
    rw [render_inline hp, render_inline hp, indentLines_append (hp.unbroken_text 0), ih]
  | newline _ ih =>
    rw [render_newline, render_newline, ih]
    rfl
  | indent _ ih => exact ih
  | dedent _ ih => exact ih

end Ruled

end Piece

/-! ## Printing -/

namespace Printer

/-- Printing a tree leaves the level as it is. -/
theorem level_visit (p : Printer) (t : Printable) : (p.visit t).level = p.level :=
  t.balanced_pieces.level_putAll rfl

/-- A tree that is printed at level 0 adds the text that it has by itself. -/
theorem text_visit_of_level_eq_zero {p : Printer} (hp : p.level = 0) (t : Printable) :
    (p.visit t).text = p.text ++ t.print := by
  rw [← String.toList_inj, String.toList_append, toList_text_visit, t.toList_print, hp]

/-- So do trees that are printed one after the other. -/
theorem text_foldl_visit {p : Printer} (hp : p.level = 0) (ts : List Printable) :
    (ts.foldl visit p).text = p.text ++ String.join (ts.map Printable.print) := by
  induction ts generalizing p with
  | nil => simp
  | cons t ts ih =>
    rw [List.foldl_cons, ih ((p.level_visit t).trans hp), text_visit_of_level_eq_zero hp,
      List.map_cons, String.join_cons, String.append_assoc]

/-- A statement at a level shows its lines with the blanks of the level in front. -/
theorem text_visit_stmt (p : Printer) {s : Stmt} (hs : ∀ n ∈ s.nodes, ∀ x ∈ n.names, Unbroken x) :
    (p.visit (.stmt s)).text =
      p.text ++ indented (p.level * Piece.indentStep) (Printable.stmt s).print := by
  rw [← String.toList_inj, String.toList_append, toList_text_visit, indented, String.toList_ofList,
    Printable.toList_print]
  exact congrArg _ ((Stmt.ruled_pieces hs).render_add p.level)

/--
Printing any tree at any level leaves the level as it is, and whenever it goes a level back it is at
a level above that one. So one printer gives the texts of some trees one after the other, and a
statement without line feeds in its names shows, at any level, the lines that it shows by itself
with four blanks for each level before every line.
-/
theorem visit_keeps_level :
    (∀ (p : Printer) (t : Printable), (p.visit t).level = p.level ∧
      ∀ before rest, t.pieces = before ++ Piece.dedent :: rest →
        p.level < (p.putAll before).level) ∧
    (∀ ts : List Printable,
      (ts.foldl visit empty).text = String.join (ts.map Printable.print)) ∧
    ∀ (p : Printer) (s : Stmt), (∀ n ∈ s.nodes, ∀ x ∈ n.names, Unbroken x) →
      (p.visit (.stmt s)).text = p.text ++ indented (4 * p.level) s.print := by
  refine ⟨fun p t => ⟨p.level_visit t, ?_⟩, fun ts => ?_, fun p s hs => ?_⟩
  · exact fun before rest hpieces => t.balanced_pieces.level_lt_of_eq_append rfl hpieces
  · rw [text_foldl_visit rfl]
    exact String.empty_append
  · rw [text_visit_stmt p hs, Nat.mul_comm]
    rfl

/-- A statement with bodies of both kinds. -/
def guardedLoop : Stmt :=
  let at0 := Span.nowhere
  let loop := Stmt.whileLoop at0 (.identifier at0 "b") (.assign at0 "x" (.integer at0 1))
  .ifElse at0 (.identifier at0 "a") (.block at0 [loop]) (.println at0 (.identifier at0 "x"))

theorem visit_keeps_level_guardedLoop :
    (∀ n ∈ guardedLoop.nodes, ∀ x ∈ n.names, Unbroken x) ∧
      ((⟨2, "\n"⟩ : Printer).visit (.stmt guardedLoop)).text =
        "\n" ++ indented 8 guardedLoop.print ∧
      ∃ before rest, (Printable.stmt guardedLoop).pieces = before ++ Piece.dedent :: rest ∧
        2 < ((⟨2, "\n"⟩ : Printer).putAll before).level := by
  have hnames : ∀ n ∈ guardedLoop.nodes, ∀ x ∈ n.names, Unbroken x := by decide
  have hpieces : (Printable.stmt guardedLoop).pieces =
      (Printable.stmt guardedLoop).pieces.take 27 ++
        Piece.dedent :: (Printable.stmt guardedLoop).pieces.drop 28 := rfl
  exact ⟨hnames, visit_keeps_level.2.2 ⟨2, "\n"⟩ guardedLoop hnames, _, _, hpieces,
    (visit_keeps_level.1 ⟨2, "\n"⟩ (.stmt guardedLoop)).2 _ _ hpieces⟩

end Printer

end MiniJava
