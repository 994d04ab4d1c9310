import MiniJava.Proofs.Lexing.Cutting
import MiniJava.Proofs.Reading.Analysis

/-!
# Texts put together

Where a blank stands between two texts, each is read as if it stood alone: no element goes on over
the blank but a comment, and one up to the end of its line ends where the blank is a line break.
Only a comment that is open at the end of the first text takes in the second one.
-/

namespace MiniJava

/-! ## Elements that matter -/

namespace Element

/-- A blank or a comment. -/
def isSkipped (e : Element) : Bool := e.shape = .blank ∨ e.shape = .comment

theorem terminal?_of_isSkipped {e : Element} (h : e.isSkipped) : e.terminal? = none := by
  obtain ⟨shape, text⟩ := e
  rcases of_decide_eq_true h with rfl | rfl <;> rfl

theorem not_faulty_of_isSkipped {e : Element} (h : e.isSkipped) : ¬ e.Faulty := by
  obtain ⟨shape, text⟩ := e
  rcases of_decide_eq_true h with rfl | rfl <;> exact id

end Element

/-- The elements of a text but for its blanks and comments. -/
def significant (cs : List Char) : List Element := (elements cs).filter (!·.isSkipped)

section

open Element

variable {c x : Char} {cs ds w rest inside : List Char} {e : Element} {source : String}

/-- What blanks and comments do not yield, the elements that matter do. -/
theorem filterMap_significant {β : Type} {g : Element → Option β}
    (hg : ∀ e : Element, e.isSkipped → g e = none) (cs : List Char) :
    (significant cs).filterMap g = (elements cs).filterMap g := by
  rw [significant, List.filterMap_filter]
  refine congrArg (fun g => (elements cs).filterMap g) (funext fun e => ?_)
  by_cases he : e.isSkipped
  · rw [hg e he, ite_self]
  · rw [if_pos (by simp [he])]

theorem terminalsOf_eq (source : String) :
    terminalsOf source = (significant source.toList).filterMap terminal? := by
  rw [terminalsOf, terminals_tokenize, filterMap_significant fun _ => terminal?_of_isSkipped]

theorem errors_eq_nil_iff (source : String) :
    (tokenize source).errors = [] ↔ ∀ e ∈ significant source.toList, ¬ e.Faulty := by
  rw [errors_tokenize, significant]
  constructor
  · exact fun h e he => h e (List.mem_filter.1 he).1
  · intro h e he
    by_cases hskip : e.isSkipped
    · exact not_faulty_of_isSkipped hskip
    · exact h e (List.mem_filter.2 ⟨he, by simp [hskip]⟩)

theorem significant_nil : significant [] = [] := by
  rw [significant, elements]
  rfl

theorem significant_of_read (hread : Element.read c cs = (e, rest)) :
    significant (c :: cs) = (if e.isSkipped then [] else [e]) ++ significant rest := by
  rw [significant, elements, hread]
  by_cases he : e.isSkipped
  · rw [List.filter_cons_of_neg (by simp [he]), if_pos he]
    rfl
  · rw [List.filter_cons_of_pos (by simp [he]), if_neg he]
    rfl

theorem significant_dropWhile (cs : List Char) :
    significant (cs.dropWhile isBlank) = significant cs := by
  cases cs with
  | nil => rfl
  | cons c cs =>
    by_cases hc : isBlank c
    · rw [List.dropWhile_cons_of_pos hc, significant_of_read (Scans.read_blank hc cs)]
      rfl
    · rw [List.dropWhile_cons_of_neg hc]

/-- Blanks at the start of a text count for nothing. -/
theorem significant_blanks (hw : ∀ c ∈ w, isBlank c) (cs : List Char) :
    significant (w ++ cs) = significant cs := by
  rw [← significant_dropWhile, List.dropWhile_append_of_pos hw, significant_dropWhile]

/-! ## Elements before a blank -/

theorem isBlank_of_isBreak (hx : Source.isBreak x) : isBlank x := by
  rcases (isBreak_iff x).1 hx with rfl | rfl <;> rfl

theorem endsWord_of_isBlank (hx : isBlank x) : EndsWord x := by
  rw [isBlank_iff] at hx
  simp only [List.mem_cons, List.not_mem_nil, or_false] at hx
  rcases hx with rfl | rfl | rfl | rfl | rfl <;> exact ⟨rfl, by decide⟩

/-- A character that is no blank does not stand at the start of a text if it does not before one. -/
theorem head?_append_ne {d : Char} (hx : isBlank x) (hd : isBlank d = false)
    (h : cs.head? ≠ some d) : (cs ++ x :: ds).head? ≠ some d := by
  cases cs with
  | nil =>
    intro heq
    obtain rfl : x = d := Option.some.inj heq
    rw [hx] at hd
    cases hd
  | cons a cs => exact h

theorem readMark_append_blank (hx : isBlank x) (h : readMark c cs = (e, rest))
    (hopen : e.shape ≠ .unterminated) (hline : Source.isBreak x ∨ e.shape ≠ .comment) :
    readMark c (cs ++ x :: ds) = (e, rest ++ x :: ds) := by
  unfold readMark at h
  split at h
  next cs =>
    cases h
    have hbreak : (!Source.isBreak x) = false := by
      rcases hline with hline | hline
      · rw [hline]
        rfl
      · exact absurd rfl hline
    rw [List.cons_append, readMark, takeWhile_append_stop (p := (!Source.isBreak ·)) hbreak,
      dropWhile_append_stop (p := (!Source.isBreak ·)) hbreak]
  next cs =>
    split at h
    next inside rest hclose =>
      cases h
      have hlocal := closeComment?_local hclose (rest ++ x :: ds)
      rw [← List.append_assoc, ← eq_append_of_closeComment? hclose] at hlocal
      rw [List.cons_append, readMark, hlocal]
    next =>
      cases h
      exact absurd rfl hopen
  next cs =>
    cases h
    rfl
  next hslash hstar hand =>
    obtain ⟨rfl, rfl⟩ : ofSingle c = e ∧ cs = rest := by
      refine Prod.mk.inj (Eq.trans ?_ h : (ofSingle c, cs) = (e, rest))
      rw [ofSingle]
      cases TokenKind.ofMark? c <;> rfl
    have hne : ∀ d, isBlank d = false → (∀ tail, cs ≠ d :: tail) →
        (cs ++ x :: ds).head? ≠ some d := by
      intro d hd hne
      refine head?_append_ne hx hd fun hhead => ?_
      obtain ⟨tail, htail⟩ := List.head?_eq_some_iff.1 hhead
      exact hne tail htail
    exact readMark_eq_ofSingle
      (fun hc => ⟨hne '/' rfl fun tail => hslash tail hc, hne '*' rfl fun tail => hstar tail hc⟩)
      fun hc => hne '&' rfl fun tail => hand tail hc

/-- Before a blank, an element is what it is at the end of a text. -/
theorem read_append_blank (hx : isBlank x) (hc : isBlank c = false)
    (h : Element.read c cs = (e, rest))
    (hopen : e.shape ≠ .unterminated) (hline : Source.isBreak x ∨ e.shape ≠ .comment) :
    Element.read c (cs ++ x :: ds) = (e, rest ++ x :: ds) := by
  have hword := endsWord_of_isBlank hx
  have hdigit : x.isDigit = false := by
    cases hd : x.isDigit with
    | false => rfl
    | true =>
      have hnot := not_isBlank hd (by decide)
      rw [hx] at hnot
      cases hnot
  unfold Element.read at h ⊢
  rw [hc, if_neg (by simp)] at h ⊢
  split at h
  next hstart =>
    rw [if_pos hstart, takeWhile_append_stop hword.1, dropWhile_append_stop hword.1,
      readWord_append_stop hword, h]
  next hstart =>
    rw [if_neg hstart]
    split at h
    next hnumber =>
      cases h
      rw [if_pos hnumber, takeWhile_append_stop hdigit, dropWhile_append_stop hdigit]
    next hnumber =>
      rw [if_neg hnumber]
      exact readMark_append_blank hx h hopen hline

/-! ## Texts before a blank -/

/-- The first element of a text is the same before a blank, which then ends the text. -/
theorem significant_cons_append (hx : isBlank x) (h : Element.read c cs = (e, rest))
    (hopen : e.shape ≠ .unterminated) (hline : Source.isBreak x ∨ e.shape ≠ .comment) :
    significant (c :: cs ++ x :: ds) =
      (if e.isSkipped then [] else [e]) ++ significant (rest ++ x :: ds) := by
  by_cases hc : isBlank c
  · obtain ⟨hshape, hblank⟩ := blank_of_read hc h
    have htext := text_read c cs
    rw [h] at htext
    rw [← htext, List.append_assoc, significant_blanks hblank, isSkipped, hshape]
    rfl
  · exact significant_of_read (read_append_blank hx (by simpa using hc) h hopen hline)

/--
Nothing goes on over a blank between two texts, if no comment is open before it, and none before it
goes up to the end of its line unless the blank ends the line.
-/
theorem significant_append (hx : isBlank x) (hopen : ∀ e ∈ elements cs, e.shape ≠ .unterminated)
    (hline : Source.isBreak x ∨ ∀ e ∈ elements cs, e.shape ≠ .comment) :
    significant (cs ++ x :: ds) = significant cs ++ significant ds := by
  fun_induction elements cs with
  | case1 =>
    rw [significant_nil]
    exact significant_blanks (w := [x]) (List.forall_mem_singleton.2 hx) ds
  | case2 c cs ih =>
    rcases hread : Element.read c cs with ⟨e, rest⟩
    rw [hread] at ih hopen hline
    obtain ⟨he, hopen⟩ := List.forall_mem_cons.1 hopen
    have hrest := ih hopen (hline.imp_right fun h e he => h e (List.mem_cons_of_mem _ he))
    rw [significant_of_read hread, List.append_assoc, ← hrest]
    exact significant_cons_append hx hread he (hline.imp_right fun h => h e List.mem_cons_self)

/-- Without a slash no comment is closed. -/
theorem closeComment?_eq_none (h : '/' ∉ cs) : closeComment? cs = none := by
  cases hclose : closeComment? cs with
  | none => rfl
  | some p =>
    obtain ⟨inside, rest⟩ := p
    obtain ⟨body, rfl, -⟩ := first_of_closeComment? hclose
    rw [eq_append_of_closeComment? hclose] at h
    simp at h

theorem closeComment?_append_eq_none (h : closeComment? cs = none) (hds : '/' ∉ ds) :
    closeComment? (cs ++ ds) = none := by
  fun_induction closeComment? cs with
  | case1 => cases h
  | case2 c cs hstar ih =>
    have hnone : closeComment? cs = none := Option.map_eq_none_iff.1 h
    rw [List.cons_append, closeComment?_cons, ih hnone]
    · rfl
    · intro hc hhead
      cases cs with
      | nil => exact hds (List.mem_of_head? hhead)
      | cons d cs => exact hstar cs hc (by rw [Option.some.inj hhead])
  | case3 => exact closeComment?_eq_none hds

/-- Only a comment that nothing closes is left open. -/
theorem exists_of_unterminated (h : Element.read c cs = (e, rest)) (he : e.shape = .unterminated) :
    ∃ w, c = '/' ∧ cs = '*' :: w ∧ closeComment? w = none := by
  have hc : ¬ isBlank c := fun hc => by
    rw [(blank_of_read hc h).1] at he
    cases he
  have hmark := readMark_of_read hc h (by simp [he]) (by simp [he])
  unfold readMark at hmark
  split at hmark
  next =>
    cases hmark
    cases he
  next w =>
    split at hmark
    next =>
      cases hmark
      cases he
    next hclose => exact ⟨w, rfl, rfl, hclose⟩
  next =>
    cases hmark
    cases he
  next =>
    split at hmark
    all_goals
      cases hmark
      cases he

/-- A comment that is open at the end of a text stays so if what follows cannot close it. -/
theorem unterminated_append (hx : Source.isBreak x) (hds : '/' ∉ ds)
    (h : ∃ e ∈ elements cs, e.shape = .unterminated) :
    ∃ e ∈ significant (cs ++ x :: ds), e.shape = .unterminated := by
  fun_induction elements cs with
  | case1 =>
    obtain ⟨e, he, -⟩ := h
    cases he
  | case2 c cs ih =>
    rcases hread : Element.read c cs with ⟨e, rest⟩
    rw [hread] at ih h
    by_cases hopen : e.shape = .unterminated
    · obtain ⟨w, rfl, rfl, hw⟩ := exists_of_unterminated hread hopen
      have hnone : closeComment? (w ++ x :: ds) = none := by
        refine closeComment?_append_eq_none hw fun hmem => ?_
        rcases List.mem_cons.1 hmem with rfl | hmem
        · cases hx
        · exact hds hmem
      have hlater : Element.read '/' ('*' :: w ++ x :: ds) =
          (⟨.unterminated, '/' :: '*' :: (w ++ x :: ds)⟩, []) := by
        rw [List.cons_append, Element.read, if_neg (by decide), if_neg (by decide),
          if_neg (by decide), readMark, hnone]
      rw [List.cons_append, significant_of_read hlater]
      exact ⟨_, List.mem_cons_self, rfl⟩
    · obtain ⟨e', he', hshape⟩ := h
      have hmem : e' ∈ elements rest := by
        refine (List.mem_cons.1 he').resolve_left ?_
        rintro rfl
        exact hopen hshape
      obtain ⟨e'', he'', hshape''⟩ := ih ⟨e', hmem, hshape⟩
      rw [significant_cons_append (isBlank_of_isBreak hx) hread hopen (.inl hx)]
      exact ⟨e'', List.mem_append_right _ he'', hshape''⟩

end

/-! ## Texts between two others -/

/-- A text between two others, after a space and before a line break. -/
def framed (before source after : String) : String := before ++ " " ++ source ++ "\n" ++ after

/-- The text is cut into elements without comments. -/
def Uncommented (source : String) : Prop :=
  ∀ e ∈ elements source.toList, e.shape ≠ .unterminated ∧ e.shape ≠ .comment

instance (source : String) : Decidable (Uncommented source) :=
  inferInstanceAs (Decidable (∀ e ∈ _, _))

section

variable {before source after : String}

theorem toList_framed : (framed before source after).toList =
    before.toList ++ ' ' :: (source.toList ++ '\n' :: after.toList) := by
  simp [framed]

theorem significant_framed (hbefore : Uncommented before) : significant
    (framed before source after).toList =
      significant before.toList ++ significant (source.toList ++ '\n' :: after.toList) := by
  rw [toList_framed]
  exact significant_append rfl (fun e he => (hbefore e he).1) (.inr fun e he => (hbefore e he).2)

/-- Between two others, a text without lexical errors keeps its elements. -/
theorem significant_framed_of_errors (hbefore : Uncommented before)
    (h : (tokenize source).errors = []) : significant (framed before source after).toList =
      significant before.toList ++ (significant source.toList ++ significant after.toList) := by
  have hopen : ∀ e ∈ elements source.toList, e.shape ≠ .unterminated := by
    intro e he hshape
    refine (errors_tokenize source).1 h e he ?_
    rw [Element.Faulty, hshape]
    trivial
  rw [significant_framed hbefore, significant_append rfl hopen (.inl rfl)]

theorem terminalsOf_framed (hbefore : Uncommented before) (h : (tokenize source).errors = []) :
    terminalsOf (framed before source after) =
      terminalsOf before ++ (terminalsOf source ++ terminalsOf after) := by
  rw [terminalsOf_eq, significant_framed_of_errors hbefore h, List.filterMap_append,
    List.filterMap_append, ← terminalsOf_eq, ← terminalsOf_eq, ← terminalsOf_eq]

/-- A text has lexical errors between two others if it has some by itself, and only then. -/
theorem errors_framed (hbefore : Uncommented before) (herrors : (tokenize before).errors = [])
    (hafter : (tokenize after).errors = []) (hslash : '/' ∉ after.toList) :
    (tokenize (framed before source after)).errors = [] ↔ (tokenize source).errors = [] := by
  constructor
  · intro h
    rw [errors_eq_nil_iff, significant_framed hbefore] at h
    have hrest := (List.forall_mem_append.1 h).2
    by_cases hopen : ∃ e ∈ elements source.toList, e.shape = .unterminated
    · obtain ⟨e, he, hshape⟩ := unterminated_append (x := '\n') rfl hslash hopen
      refine absurd ?_ (hrest e he)
      rw [Element.Faulty, hshape]
      trivial
    · rw [significant_append rfl (fun e he hshape => hopen ⟨e, he, hshape⟩) (.inl rfl)] at hrest
      exact (errors_eq_nil_iff source).2 (List.forall_mem_append.1 hrest).1
  · intro h
    rw [errors_eq_nil_iff] at herrors hafter ⊢
    rw [significant_framed_of_errors hbefore h]
    exact List.forall_mem_append.2
      ⟨herrors, List.forall_mem_append.2 ⟨(errors_eq_nil_iff source).1 h, hafter⟩⟩

end

end MiniJava
