import MiniJava.Proofs.Lexing.Seam
import MiniJava.Proofs.Lines.Terminators

/-!
# Texts joined by a line break

What is read of two texts with a line break between them is what is read of the first and, moved by
its lines and bytes, what is read of the second. Only a comment that is open at the end of the first
text reaches over the break.
-/

namespace MiniJava

/-! ## Moving places -/

/-- The place of a position after so many lines and bytes more. -/
def Position.moved (p : Position) (lines bytes : Nat) : Position :=
  ⟨p.line + lines, p.column, p.offset + bytes⟩

/-- The place of a span after so many bytes more. -/
def Span.moved (s : Span) (bytes : Nat) : Span := ⟨s.start + bytes, s.stop + bytes⟩

/-- The token in its new place. -/
def Token.moved (t : Token) (lines bytes : Nat) : Token :=
  { t with span := t.span.moved bytes, position := t.position.moved lines bytes }

/-- The lexical error in its new place. -/
def LexicalError.moved (e : LexicalError) (lines bytes : Nat) : LexicalError :=
  { e with span := e.span.moved bytes, position := e.position.moved lines bytes }

/-- The element in its new place. -/
def Placed.moved (p : Placed) (lines bytes : Nat) : Placed :=
  { p with position := p.position.moved lines bytes }

/-- What is read of one text without the mark of its end, and then of another one, moved. -/
def Tokenization.followedBy (t u : Tokenization) (lines bytes : Nat) : Tokenization where
  tokens := t.tokens ++ u.tokens.map (·.moved lines bytes)
  final := u.final.moved lines bytes
  errors := t.errors ++ u.errors.map (·.moved lines bytes)

section

variable {lines bytes : Nat}

namespace Position

theorem pass_moved (p : Position) (c : Char) (next : Option Char) :
    (p.moved lines bytes).pass c next = (p.pass c next).moved lines bytes := by
  unfold pass
  split <;> simp only [moved, Position.mk.injEq, true_and] <;> omega

theorem passAll_moved (p : Position) (next : Option Char) (cs : List Char) :
    (p.moved lines bytes).passAll next cs = (p.passAll next cs).moved lines bytes := by
  induction cs generalizing p with
  | nil => rfl
  | cons c cs ih => rw [passAll_cons, pass_moved, ih, passAll_cons]

end Position

namespace Placed

theorem layOut_moved (pos : Position) (es : List Element) :
    layOut (pos.moved lines bytes) es = (layOut pos es).map (·.moved lines bytes) := by
  induction es generalizing pos with
  | nil => rfl
  | cons e es ih =>
    rw [layOut, Position.passAll_moved, ih, layOut, List.map_cons]
    rfl

theorem span_moved (p : Placed) : (p.moved lines bytes).span = p.span.moved bytes := by
  simp only [span, moved, Position.moved, Span.moved, Span.mk.injEq, true_and]
  omega

theorem token?_moved (p : Placed) :
    (p.moved lines bytes).token? = p.token?.map (·.moved lines bytes) := by
  rw [token?, token?, Option.map_map, span_moved]
  rfl

theorem error?_moved (p : Placed) :
    (p.moved lines bytes).error? = p.error?.map (·.moved lines bytes) := by
  rw [error?, error?, Option.map_map, span_moved]
  rfl

end Placed

end

/-! ## Elements on both sides of a blank -/

namespace Placed

section

variable {β : Type} {g : Placed → Option β} {c x : Char} {cs ds rest : List Char} {e : Element}
variable (hg : ∀ p : Placed, p.element.shape = .blank → g p = none)

include hg

/-- The first element of a text is found before a blank as well, and then what comes after it. -/
theorem filterMap_layOut_cons_append (pos : Position) (hx : Source.isBreak x)
    (hread : Element.read c cs = (e, rest)) (hopen : e.shape ≠ .unterminated) :
    (layOut pos (elements (c :: cs ++ x :: ds))).filterMap g = (g ⟨pos, e⟩).toList ++
      (layOut (pos.passAll (rest ++ x :: ds).head? e.text) (elements (rest ++ x :: ds))).filterMap
        g := by
  by_cases hc : Element.isBlank c
  · obtain ⟨hshape, hblanks⟩ := Element.blank_of_read hc hread
    have htext := Element.text_read c cs
    rw [hread] at htext
    rw [← htext, List.append_assoc, filterMap_layOut_blanks hg pos hblanks, hg ⟨pos, e⟩ hshape]
    rfl
  · rw [List.cons_append, elements,
      read_append_blank (isBlank_of_isBreak hx) (by simpa using hc) hread hopen (.inl hx), layOut,
      firstChar?_elements, List.filterMap_cons]
    cases g ⟨pos, e⟩ <;> rfl

/-- What is found in a text is found before a line break as well, and then what comes after it. -/
theorem filterMap_layOut_append (pos : Position) (hx : Source.isBreak x)
    (hopen : ∀ e ∈ elements cs, e.shape ≠ .unterminated) :
    (layOut pos (elements (cs ++ x :: ds))).filterMap g = (layOut pos (elements cs)).filterMap g ++
      (layOut (pos.passAll ds.head? (cs ++ [x])) (elements ds)).filterMap g := by
  fun_induction elements cs generalizing pos with
  | case1 => exact filterMap_layOut_blank hg pos (isBlank_of_isBreak hx)
  | case2 c cs ih =>
    rcases hread : Element.read c cs with ⟨e, rest⟩
    have htext := Element.text_read c cs
    rw [hread] at ih hopen htext
    obtain ⟨he, hopen⟩ := List.forall_mem_cons.1 hopen
    -- what comes after the last element tells nothing about the elements
    have hlast : layOut (pos.passAll (rest ++ x :: ds).head? e.text) (elements rest) =
        layOut (pos.passAll (firstChar? (elements rest)) e.text) (elements rest) := by
      cases rest with
      | nil =>
        rw [elements]
        rfl
      | cons d rest => rw [firstChar?_elements]; rfl
    have hplace : pos.passAll ds.head? (c :: cs ++ [x]) =
        (pos.passAll (rest ++ x :: ds).head? e.text).passAll ds.head? (rest ++ [x]) := by
      rw [← htext, List.append_assoc, Position.passAll_append, ← List.head?_append,
        List.append_assoc]
      rfl
    rw [filterMap_layOut_cons_append hg pos hx hread he, ih _ hopen, hlast, hplace, layOut,
      List.filterMap_cons]
    cases g ⟨pos, e⟩ <;> rfl

end

end Placed

/-! ## Texts on both sides of a line break -/

section

variable {source : String}

/-- A comment that is left open is a lexical error. -/
theorem shape_ne_unterminated
    (h : ∀ e ∈ (tokenize source).errors, e.fault ≠ .unterminatedComment) :
    ∀ e ∈ elements source.toList, e.shape ≠ .unterminated := by
  intro e he hshape
  rw [← map_element_placedElements] at he
  obtain ⟨p, hp, rfl⟩ := List.mem_map.1 he
  refine h ⟨.unterminatedComment, p.span, p.position⟩ (List.mem_filterMap.2 ⟨p, hp, ?_⟩) rfl
  simp [Placed.error?, Placed.fault?, hshape]

/-- How many lines come before what comes after a line break. -/
def linesThrough (source : String) : Nat := (Source.ofString (source ++ "\n")).lineCount - 1

/-- After a line break, a text goes on in the first column of a new line. -/
theorem passAll_lineFeed (source : String) (next : Option Char) :
    Position.origin.passAll next (source.toList ++ ['\n']) =
      Position.origin.moved (linesThrough source) (source.utf8ByteSize + 1) := by
  have hpass : ∀ next, Position.origin.passAll next (source.toList ++ ['\n']) =
      ⟨(Position.origin.passAll (some '\n') source.toList).line + 1, 1,
        source.utf8ByteSize + 1⟩ := by
    intro next
    rw [Position.passAll_append, Position.passAll, Position.pass,
      if_pos (show Position.endsLine '\n' next = true from rfl), Position.offset_passAll,
      Position.origin, utf8Length_toList, Nat.zero_add]
    rfl
  have hcount := Source.line_passAll (source ++ "\n")
  rw [String.toList_append, show "\n".toList = ['\n'] from rfl, hpass] at hcount
  rw [hpass, linesThrough, ← hcount, Position.moved, Position.origin, Nat.add_sub_cancel,
    Nat.zero_add, Nat.add_comm 1]

theorem toList_append_lineFeed (source after : String) :
    (source ++ "\n" ++ after).toList = source.toList ++ '\n' :: after.toList := by
  simp

/-- What is found in two texts with a line break between them is found in each of them. -/
theorem filterMap_placedElements_append {β : Type} {g : Placed → Option β}
    (hg : ∀ p : Placed, p.element.shape = .blank → g p = none)
    (hopen : ∀ e ∈ elements source.toList, e.shape ≠ .unterminated) (after : String) :
    (placedElements (source ++ "\n" ++ after)).filterMap g = (placedElements source).filterMap g ++
      (placedElements after).filterMap fun p =>
        g (p.moved (linesThrough source) (source.utf8ByteSize + 1)) := by
  rw [placedElements, toList_append_lineFeed, Placed.filterMap_layOut_append hg _ rfl hopen,
    passAll_lineFeed, Placed.layOut_moved, List.filterMap_map]
  rfl

theorem position_endToken (source : String) :
    (endToken source).position = Position.origin.passAll none source.toList := by
  have hposition := Source.position_eq_passAll source.toList []
  rwa [List.append_nil, utf8Length_toList] at hposition

/-- Two texts end where the second one ends. -/
theorem endToken_append (source after : String) : endToken (source ++ "\n" ++ after) =
    (endToken after).moved (linesThrough source) (source.utf8ByteSize + 1) := by
  have hposition : (endToken (source ++ "\n" ++ after)).position =
      (endToken after).position.moved (linesThrough source) (source.utf8ByteSize + 1) := by
    rw [position_endToken, position_endToken, toList_append_lineFeed, ← List.singleton_append,
      ← List.append_assoc, Position.passAll_append, passAll_lineFeed, Position.passAll_moved]
  have hsize : (source ++ "\n" ++ after).utf8ByteSize =
      after.utf8ByteSize + (source.utf8ByteSize + 1) := by
    rw [String.utf8ByteSize_append, String.utf8ByteSize_append]
    exact Nat.add_comm _ _
  simp only [endToken, Token.mk.injEq, Token.moved, Span.point, Span.moved, hsize] at hposition ⊢
  exact ⟨trivial, trivial, trivial, hposition⟩

/--
Reading is a homomorphism at line breaks: nothing reaches over a line break but a comment that is
open before it.
-/
theorem tokenize_append_lineFeed (after : String)
    (h : ∀ e ∈ (tokenize source).errors, e.fault ≠ .unterminatedComment) :
    tokenize (source ++ "\n" ++ after) = (tokenize source).followedBy (tokenize after)
      (linesThrough source) (source.utf8ByteSize + 1) := by
  have hopen := shape_ne_unterminated h
  have htokens := filterMap_placedElements_append (g := Placed.token?)
    (fun p hp => by simp [Placed.token?, Placed.kind?, hp]) hopen after
  have herrors := filterMap_placedElements_append (g := Placed.error?)
    (fun p hp => by simp [Placed.error?, Placed.fault?, hp]) hopen after
  simp only [Placed.token?_moved, Placed.error?_moved, ← List.map_filterMap] at htokens herrors
  rw [tokenize, htokens, herrors, endToken_append]
  rfl

/-- A stray letter, half an operator and a line comment before the line break, a number after it. -/
theorem tokenize_append_lineFeed_commented :
    tokenize ("\u00e9 & // x" ++ "\n" ++ "1 /") =
      (tokenize "\u00e9 & // x").followedBy (tokenize "1 /") 1 10 := by
  have herrors : ∀ e ∈ (tokenize "\u00e9 & // x").errors, e.fault ≠ .unterminatedComment := by
    decide +kernel
  have hlines : linesThrough "\u00e9 & // x" = 1 := by decide +kernel
  have hbytes : "\u00e9 & // x".utf8ByteSize + 1 = 10 := by decide +kernel
  have hjoined := tokenize_append_lineFeed "1 /" herrors
  rwa [hlines, hbytes] at hjoined

end

end MiniJava
