import MiniJava.Printing.Piece
import MiniJava.Proofs.Lexing.Scans

/-!
# Reading printed pieces

A row of pieces is printed so that each word, name and number is read back as one token. For that,
none of them may run into what comes next: see `Separates`.
-/

namespace MiniJava

/-! ## Marks and keywords -/

namespace TokenKind

/-- Whether a kind of token is written without letters. -/
def isMark (kind : TokenKind) : Bool := (andAnd :: marks).contains kind

/-- The characters that a kind of token is written with. -/
def chars (kind : TokenKind) : List Char := (kind.spelling?.getD "").toList

/-- The character that a kind of token starts with. -/
def firstChar (kind : TokenKind) : Char := kind.chars.headD ' '

theorem chars_of_mem_marks : ∀ kind ∈ marks,
    kind.chars = [kind.firstChar] ∧ ofMark? kind.firstChar = some kind := by
  decide

/-- No mark starts with a letter, and only the dot starts with a dot. -/
theorem firstChar_of_mem : ∀ kind ∈ andAnd :: marks, kind.chars.head? = some kind.firstChar ∧
    Element.isWordChar kind.firstChar = false ∧ (kind ≠ dot → kind.firstChar ≠ '.') := by
  decide

theorem chars_dot : dot.chars = ['.'] := by decide

theorem chars_leftParen : leftParen.chars = ['('] := by decide

theorem chars_lengthKw : lengthKw.chars = ['l', 'e', 'n', 'g', 't', 'h'] := by decide

/-- Every keyword but the print keyword is a word that stands for itself. -/
theorem chars_of_mem_words : ∀ kind ∈ words, IsWord kind.chars ∧
    kind.chars ≠ ['S', 'y', 's', 't', 'e', 'm'] ∧
    Element.terminal? ⟨.token (ofWord (String.ofList kind.chars)), kind.chars⟩ =
      some (.word kind) := by
  decide

theorem isSome_spelling?_of_mem : ∀ kind ∈ andAnd :: marks, kind.spelling?.isSome := by
  decide

theorem isSome_spelling?_of_isMark {kind : TokenKind} (h : kind.isMark) : kind.spelling?.isSome :=
  isSome_spelling?_of_mem kind (List.contains_iff_mem.1 h)

/-- What has a spelling is a mark, a word, or the print keyword. -/
theorem mem_of_isSome_spelling? {kind : TokenKind} (h : kind.spelling?.isSome) :
    kind = .andAnd ∨ kind ∈ marks ∨ kind = .printlnKw ∨ kind ∈ words := by
  cases kind <;> simp_all [spelling?, marks, words]

end TokenKind

/-! ## Rows of pieces -/

namespace Piece

/-- What is printed for the piece can be read. -/
def Sound : Piece → Prop
  | word kind => kind.spelling?.isSome
  | ident n => IsName n
  | number v => 0 ≤ v.toInt
  | placeholder => False
  | space | newline | margin | indent | dedent => True

/-- Whether the piece would run into letters that come next. -/
def isTight : Piece → Bool
  | word kind => !kind.isMark
  | ident _ | number _ => true
  | placeholder | space | newline | margin | indent | dedent => false

/-- What may come after a dot: `length`, or the name of a method and a parenthesis. -/
inductive AfterDot : List Piece → Prop
  | length (ps : List Piece) : AfterDot (word .lengthKw :: ps)
  | call (n : String) (ps : List Piece) : AfterDot (ident n :: word .leftParen :: ps)

/-- A word, a name or a number may stand before these pieces. -/
inductive Separates : List Piece → Prop
  | nil : Separates []
  | space (ps : List Piece) : Separates (space :: ps)
  | newline (ps : List Piece) : Separates (newline :: ps)
  | dot {ps : List Piece} (h : AfterDot ps) : Separates (word .dot :: ps)
  | mark {kind : TokenKind} (hk : kind.isMark && kind != .dot) (ps : List Piece) :
      Separates (word kind :: ps)

/-- A row of pieces of which none runs into the next. -/
def Joined : List Piece → Prop
  | [] => True
  | p :: ps => p.Sound ∧ (p.isTight → Separates ps) ∧ Joined ps

/-- The terminal that a piece is read as. -/
def terminal? : Piece → Option Terminal
  | word kind => some (.word kind)
  | ident n => some (.ident n)
  | number v => some (.number v)
  | placeholder | space | newline | margin | indent | dedent => none

/-- The terminals that pieces are read as. -/
def terminals (ps : List Piece) : List Terminal := ps.filterMap terminal?

/-- The characters that pieces are printed with, from a level on. -/
def render (level : Nat) : List Piece → List Char
  | [] => []
  | p :: ps => (p.text level).toList ++ render (p.levelAfter level) ps

/-- A piece that shows as blank space only. -/
def isLayout : Piece → Bool
  | space | newline | margin | indent | dedent => true
  | word _ | ident _ | number _ | placeholder => false

variable {level : Nat} {ps qs : List Piece} {ts : List Terminal}

/-! ## Terminals of rows -/

@[simp] theorem terminals_nil : terminals [] = [] := rfl

@[simp] theorem terminals_append (ps qs : List Piece) :
    terminals (ps ++ qs) = terminals ps ++ terminals qs :=
  List.filterMap_append

@[simp] theorem terminals_cons_word (kind : TokenKind) (ps : List Piece) :
    terminals (word kind :: ps) = .word kind :: terminals ps := rfl

@[simp] theorem terminals_cons_ident (n : String) (ps : List Piece) :
    terminals (ident n :: ps) = .ident n :: terminals ps := rfl

@[simp] theorem terminals_cons_layout {p : Piece} (hp : p.isLayout) (ps : List Piece) :
    terminals (p :: ps) = terminals ps := by
  cases p <;> first | rfl | cases hp

/-- Layout is not read. -/
theorem terminals_layout (hps : ∀ p ∈ ps, p.isLayout) : terminals ps = [] := by
  induction ps with
  | nil => rfl
  | cons p ps ih =>
    obtain ⟨hp, hps⟩ := List.forall_mem_cons.1 hps
    rw [terminals_cons_layout hp, ih hps]

/-! ## Joined rows -/

namespace Joined

theorem mark {kind : TokenKind} (hm : kind.isMark) (h : Joined ps) : Joined (word kind :: ps) :=
  ⟨TokenKind.isSome_spelling?_of_isMark hm, fun ht => by simp [isTight, hm] at ht, h⟩

theorem keyword {kind : TokenKind} (hk : kind.spelling?.isSome) (hs : Separates ps)
    (h : Joined ps) : Joined (word kind :: ps) :=
  ⟨hk, fun _ => hs, h⟩

theorem ident {n : String} (hn : IsName n) (hs : Separates ps) (h : Joined ps) :
    Joined (ident n :: ps) :=
  ⟨hn, fun _ => hs, h⟩

theorem number {v : Int32} (hv : 0 ≤ v.toInt) (hs : Separates ps) (h : Joined ps) :
    Joined (number v :: ps) :=
  ⟨hv, fun _ => hs, h⟩

theorem blank {p : Piece} (hp : p.isLayout) (h : Joined ps) : Joined (p :: ps) := by
  cases p with
  | space | newline | margin | indent | dedent => exact ⟨trivial, nofun, h⟩
  | word | ident | number | placeholder => cases hp

theorem blanks (hps : ∀ p ∈ ps, p.isLayout) (h : Joined qs) : Joined (ps ++ qs) := by
  induction ps with
  | nil => exact h
  | cons p ps ih =>
    obtain ⟨hp, hps⟩ := List.forall_mem_cons.1 hps
    exact blank hp (ih hps)

/-- Rows of which each can stand before any row. -/
theorem flatMap {α : Type} {spell : α → List Piece} {as : List α}
    (has : ∀ a ∈ as, ∀ rest, Joined rest → Joined (spell a ++ rest)) (h : Joined qs) :
    Joined (as.flatMap spell ++ qs) := by
  induction as with
  | nil => exact h
  | cons a as ih =>
    obtain ⟨ha, has⟩ := List.forall_mem_cons.1 has
    rw [List.flatMap_cons, List.append_assoc]
    exact ha _ (ih has)

end Joined

/-! ## Printing -/

theorem render_word (level : Nat) (kind : TokenKind) (ps : List Piece) :
    render level (word kind :: ps) = kind.chars ++ render level ps := rfl

theorem render_ident (level : Nat) (n : String) (ps : List Piece) :
    render level (ident n :: ps) = n.toList ++ render level ps := rfl

theorem render_space (level : Nat) (ps : List Piece) :
    render level (space :: ps) = ' ' :: render level ps := by
  rw [render, show (space.text level).toList = [' '] from (by decide : " ".toList = [' '])]
  rfl

theorem render_newline (level : Nat) (ps : List Piece) :
    render level (newline :: ps) = '\n' :: render level ps := by
  rw [render, show (newline.text level).toList = ['\n'] from
    (by decide : "\n".toList = ['\n'])]
  rfl

/-- Pieces add what they are printed with to the text. -/
theorem toList_text_putAll (p : Printer) (ps : List Piece) :
    (p.putAll ps).text.toList = p.text.toList ++ render p.level ps := by
  induction ps generalizing p with
  | nil => simp [render]
  | cons piece ps ih => simp [ih, Printer.put, render]

/-! ## What comes next -/

/-- Nothing that may stand after a word goes on with a letter or a digit. -/
theorem Separates.not_isWordChar (h : Separates ps) (level : Nat) :
    (render level ps).head?.any Element.isWordChar = false := by
  cases h with
  | nil => rfl
  | space ps => rw [render_space]; rfl
  | newline ps => rw [render_newline]; rfl
  | dot =>
    rw [render_word, TokenKind.chars_dot]
    rfl
  | mark hk ps =>
    obtain ⟨hm, -⟩ := Bool.and_eq_true_iff.1 hk
    obtain ⟨hhead, hc, -⟩ := TokenKind.firstChar_of_mem _ (List.contains_iff_mem.1 hm)
    rw [render_word, List.head?_append, hhead]
    exact hc

theorem afterPrintln?_eq_none {cs : List Char} (h : cs.head? ≠ some '.') :
    Element.afterPrintln? cs = none := by
  cases hp : Element.afterPrintln? cs with
  | none => rfl
  | some rest =>
    rw [Element.eq_append_of_afterPrintln? hp] at h
    exact absurd rfl h

/-- After a dot and a name, the tail of the print keyword would go on with another dot. -/
theorem afterPrintln?_call {n rest : List Char} (hn : ∀ c ∈ n, Element.isWordChar c) :
    Element.afterPrintln? ('.' :: (n ++ '(' :: rest)) = none := by
  cases hp : Element.afterPrintln? ('.' :: (n ++ '(' :: rest)) with
  | none => rfl
  | some after =>
    have htail := List.tail_eq_of_cons_eq (Element.eq_append_of_afterPrintln? hp)
    have hdrop := congrArg (List.dropWhile Element.isWordChar) htail
    rw [dropWhile_append_eq hn rfl] at hdrop
    cases hdrop

theorem afterPrintln?_length (rest : List Char) :
    Element.afterPrintln? ('.' :: 'l' :: rest) = none := by
  cases hp : Element.afterPrintln? ('.' :: 'l' :: rest) with
  | none => rfl
  | some after => cases Element.eq_append_of_afterPrintln? hp

theorem isWordChar_of_isWord {w : List Char} (hw : IsWord w) : ∀ c ∈ w, Element.isWordChar c := by
  cases w with
  | nil => exact hw.elim
  | cons c w =>
    refine List.forall_mem_cons.2 ⟨?_, hw.2⟩
    have hc := hw.1
    simp only [Element.isWordStart, Bool.or_eq_true] at hc
    simp only [Element.isWordChar, Char.isAlphanum, Bool.or_eq_true]
    exact hc.imp_left .inl

/-- Nothing that may stand after a word makes it a part of the print keyword. -/
theorem Separates.afterPrintln? (h : Separates ps) (hj : Joined ps) (level : Nat) :
    Element.afterPrintln? (render level ps) = none := by
  cases h with
  | nil => rfl
  | space ps => exact afterPrintln?_eq_none (by rw [render_space]; nofun)
  | newline ps => exact afterPrintln?_eq_none (by rw [render_newline]; nofun)
  | dot hdot =>
    rw [render_word, TokenKind.chars_dot]
    cases hdot with
    | length ps =>
      rw [render_word, TokenKind.chars_lengthKw]
      exact afterPrintln?_length _
    | call n ps =>
      have hn : IsName n := hj.2.2.1
      rw [render_ident, render_word, TokenKind.chars_leftParen]
      exact afterPrintln?_call (isWordChar_of_isWord ((isName_iff n).1 hn).1)
  | mark hk ps =>
    obtain ⟨hm, hd⟩ := Bool.and_eq_true_iff.1 hk
    obtain ⟨hhead, -, hdot⟩ := TokenKind.firstChar_of_mem _ (List.contains_iff_mem.1 hm)
    refine afterPrintln?_eq_none ?_
    rw [render_word, List.head?_append, hhead]
    exact fun heq => hdot (bne_iff_ne.1 hd) (Option.some.inj heq)

/-! ## Reading -/

theorem scans_mark {kind : TokenKind} (hm : kind.isMark) (h : Scans (render level ps) ts) :
    Scans (render level (word kind :: ps)) (.word kind :: ts) := by
  rw [render_word]
  rcases List.mem_cons.1 (List.contains_iff_mem.1 hm) with rfl | hm
  · exact h.andAnd
  · obtain ⟨hc, hk⟩ := TokenKind.chars_of_mem_marks kind hm
    rw [hc]
    exact h.mark hk

theorem scans_keyword {kind : TokenKind} (hk : kind = .printlnKw ∨ kind ∈ TokenKind.words)
    (hs : Separates ps) (h : Scans (render level ps) ts) :
    Scans (render level (word kind :: ps)) (.word kind :: ts) := by
  rw [render_word]
  rcases hk with rfl | hk
  · exact h.println (hs.not_isWordChar level)
  · obtain ⟨hw, hne, ht⟩ := TokenKind.chars_of_mem_words kind hk
    exact h.word hw (hs.not_isWordChar level) (fun heq => absurd heq hne) ht

theorem blank_margin (level : Nat) : ∀ c ∈ (margin.text level).toList, Element.isBlank c := by
  rw [text, String.toList_ofList]
  intro c hc
  rw [(List.mem_replicate.1 hc).2]
  rfl

/-- A joined row is read back piece by piece. -/
theorem scans_render (hj : Joined ps) (level : Nat) :
    Scans (render level ps) (terminals ps) := by
  induction ps generalizing level with
  | nil => exact .nil
  | cons p ps ih =>
    obtain ⟨hp, hsep, hj⟩ := hj
    have h := ih hj (p.levelAfter level)
    cases p with
    | word kind =>
      by_cases hm : kind.isMark
      · exact scans_mark hm h
      · refine scans_keyword ?_ (hsep (by simpa [isTight] using hm)) h
        rcases TokenKind.mem_of_isSome_spelling? hp with rfl | hk | hk
        · exact absurd rfl hm
        · exact absurd (List.contains_iff_mem.2 (List.mem_cons_of_mem _ hk)) hm
        · exact hk
    | ident n =>
      -- the name may be `System`, so what comes after the next dot counts as well
      have hs := hsep rfl
      exact h.ident hp (hs.not_isWordChar _) (hs.afterPrintln? hj _)
    | number v =>
      have hv : digits v = Nat.repr v.toInt.natAbs := if_neg (Int.not_lt.2 hp)
      rw [render, text, hv]
      exact h.number hp ((hsep rfl).not_isWordChar _)
    | placeholder => exact hp.elim
    | space =>
      rw [render_space]
      exact h.blank rfl
    | newline =>
      rw [render_newline]
      exact h.blank rfl
    | margin => exact h.blanks (blank_margin level)
    | indent => exact h
    | dedent => exact h

end Piece

end MiniJava
