import MiniJava.Proofs.Recovery.Skipping

/-!
# A lost semicolon

`Cursor.Lacks` says that a text is ahead in which one semicolon is lost. It is narrowed down to the
clause that lacks the semicolon, while what stands before is read.
-/

namespace MiniJava

open Terminal

/-! ## Where a terminal stands in a row -/

section Rows

variable {α β : Type} {xs ys as bs : List α} {y : α}

/-- A member of two rows put together stands in the first or in the second. -/
theorem append_eq_append_cons (h : xs ++ ys = as ++ y :: bs) :
    (∃ bs', xs = as ++ y :: bs' ∧ bs = bs' ++ ys) ∨ ∃ as', as = xs ++ as' ∧ ys = as' ++ y :: bs := by
  rcases List.append_eq_append_iff.1 h with ⟨as', has, hys⟩ | ⟨cs, hxs, hcs⟩
  · exact .inr ⟨as', has, hys⟩
  · cases cs with
    | nil => exact .inr ⟨[], by simpa using hxs.symm, by simpa using hcs.symm⟩
    | cons c cs =>
      obtain ⟨rfl, rfl⟩ := List.cons.inj hcs
      exact .inl ⟨cs, hxs, rfl⟩

/-- A member of the rows of some items stands in the row of one of them. -/
theorem flatMap_eq_append_cons {f : β → List α} {ws : List β}
    (h : ws.flatMap f = as ++ y :: bs) :
    ∃ ws₁ w ws₂ as' bs', ws = ws₁ ++ w :: ws₂ ∧ f w = as' ++ y :: bs' ∧
      as = ws₁.flatMap f ++ as' ∧ bs = bs' ++ ws₂.flatMap f := by
  induction ws generalizing as with
  | nil =>
    rw [List.flatMap_nil] at h
    exact absurd h.symm (by simp)
  | cons w ws ih =>
    rw [List.flatMap_cons] at h
    rcases append_eq_append_cons h with ⟨bs', hw, rfl⟩ | ⟨as', rfl, hws⟩
    · exact ⟨[], w, ws, as, bs', rfl, hw, rfl, rfl⟩
    · obtain ⟨ws₁, w', ws₂, as'', bs'', rfl, hw', rfl, rfl⟩ := ih hws
      exact ⟨w :: ws₁, w', ws₂, as'', bs'', rfl, hw', by simp, rfl⟩

end Rows

/-! ## Places before a lost semicolon -/

/--
Ahead of `c` lies `front`, then what `ys` says but for one semicolon, and then `rest`. Of `ys` what
stands after the semicolon is `behind`, and `tail` are all tokens that come after it.
-/
structure Cursor.Lacks (c : Cursor) (front ys behind rest : List Terminal) (tail : List Token) :
    Prop where
  spells : ∃ as, ys = as ++ word .semicolon :: behind ∧ c.Spells (front ++ as) tail
  tail_eq : tail.map Token.terminal = behind ++ rest

namespace Cursor.Lacks

variable {ε α β : Type} {c : Cursor} {front xs ys behind rest : List Terminal} {y : Terminal}
  {tail : List Token}

theorem drop_one (h : c.Lacks (y :: front) ys behind rest tail) :
    (c.drop 1).Lacks front ys behind rest tail := by
  obtain ⟨⟨as, hys, hc⟩, htail⟩ := h
  exact ⟨⟨as, hys, hc.drop_one⟩, htail⟩

theorem exists_sees (xs : List Terminal) (h : c.Lacks (xs ++ front) ys behind rest tail) :
    ∃ zs, c.Sees (xs ++ zs) := by
  obtain ⟨⟨as, -, hc⟩, -⟩ := h
  exact ⟨front ++ (as ++ tail.map Token.terminal), by simpa using hc.sees⟩

theorem kind_current (h : c.Lacks (y :: front) ys behind rest tail) :
    c.current.kind = y.kind := by
  obtain ⟨zs, hc⟩ := exists_sees [y] h
  exact hc.kind_current

/-- What stands before the clause is read as usual. -/
theorem passes {p : Reader ε α} {A : α → Prop} {Q : Reading.Post α}
    (h : c.Lacks (xs ++ front) ys behind rest tail)
    (hp : ∀ zs, c.Sees (xs ++ (front ++ zs)) →
      (p c).Succeeds fun a d fs => fs = [] ∧ A a ∧ d.Sees (front ++ zs))
    (he : (p c).Ensures c Q) :
    (p c).Succeeds fun a d fs => fs = [] ∧ A a ∧ d.Lacks front ys behind rest tail := by
  obtain ⟨⟨as, hys, hc⟩, htail⟩ := h
  rw [List.append_assoc] at hc
  have hsees := hc.sees
  rw [List.append_assoc, List.append_assoc] at hsees
  have hread := hp _ hsees
  rw [← List.append_assoc] at hread
  apply (Reader.passes_of_succeeds hc hread he).mono
  rintro a d fs ⟨rfl, hA, hd⟩
  exact ⟨rfl, hA, ⟨as, hys, hd⟩, htail⟩

/-- The semicolon is lost from the first or from the second part. -/
theorem append (h : c.Lacks front (xs ++ ys) behind rest tail) :
    (∃ behind', behind = behind' ++ ys ∧ c.Lacks front xs behind' (ys ++ rest) tail) ∨
      c.Lacks (front ++ xs) ys behind rest tail := by
  obtain ⟨⟨as, heq, hc⟩, htail⟩ := h
  rcases append_eq_append_cons heq with ⟨behind', hxs, rfl⟩ | ⟨as', rfl, hys⟩
  · exact .inl ⟨behind', rfl, ⟨as, hxs, hc⟩, by rw [htail, List.append_assoc]⟩
  · exact .inr ⟨⟨as', hys, by rwa [List.append_assoc]⟩, htail⟩

/-- A part without semicolons is not the one that lacks a semicolon. -/
theorem append_of_notMem (hxs : word .semicolon ∉ xs)
    (h : c.Lacks front (xs ++ ys) behind rest tail) :
    c.Lacks (front ++ xs) ys behind rest tail := by
  rcases h.append with ⟨behind', -, ⟨as, hxs', -⟩, -⟩ | h
  · exact absurd (by simp [hxs']) hxs
  · exact h

/-- Of two parts of which the second has no semicolon, the first lacks it. -/
theorem of_append_of_notMem (hys : word .semicolon ∉ ys)
    (h : c.Lacks front (xs ++ ys) behind rest tail) :
    ∃ behind', behind = behind' ++ ys ∧ c.Lacks front xs behind' (ys ++ rest) tail := by
  rcases h.append with h | ⟨⟨as, hys', -⟩, -⟩
  · exact h
  · exact absurd (by simp [hys']) hys

/-- One of several items lacks the semicolon. -/
theorem flatMap {f : β → List Terminal} {ws : List β}
    (h : c.Lacks front (ws.flatMap f) behind rest tail) :
    ∃ ws₁ w ws₂ behind', ws = ws₁ ++ w :: ws₂ ∧ behind = behind' ++ ws₂.flatMap f ∧
      c.Lacks (front ++ ws₁.flatMap f) (f w) behind' (ws₂.flatMap f ++ rest) tail := by
  obtain ⟨⟨as, heq, hc⟩, htail⟩ := h
  obtain ⟨ws₁, w, ws₂, as', behind', rfl, hw, rfl, rfl⟩ := flatMap_eq_append_cons heq
  refine ⟨ws₁, w, ws₂, behind', rfl, rfl, ⟨as', hw, ?_⟩, by rw [htail, List.append_assoc]⟩
  rwa [List.append_assoc]

/-- A clause with one semicolon at its end lacks that one. -/
theorem clause (hxs : word .semicolon ∉ xs)
    (h : c.Lacks front (xs ++ [word .semicolon]) behind rest tail) :
    behind = [] ∧ c.Spells (front ++ xs) tail := by
  obtain ⟨⟨as, heq, hc⟩, -⟩ := h.append_of_notMem hxs
  cases as with
  | nil =>
    obtain ⟨-, rfl⟩ := List.cons.inj heq
    exact ⟨rfl, by rwa [List.append_nil] at hc⟩
  | cons a as =>
    have hlength := congrArg List.length heq
    simp at hlength

theorem headKind_tail (h : c.Lacks front ys [] rest tail) :
    headKind (tail.map Token.terminal) = headKind rest := by
  rw [h.tail_eq, List.nil_append]

theorem length_eq (h : c.Lacks front ys behind rest tail) :
    c.ahead.length + behind.length + 1 = front.length + ys.length + tail.length := by
  obtain ⟨⟨as, rfl, hc⟩, -⟩ := h
  have hlength := hc.sees.length_eq
  simp only [List.length_append, List.length_cons, List.length_map] at hlength ⊢
  omega

theorem length_rest_le (h : c.Lacks front ys behind rest tail) : rest.length ≤ c.ahead.length := by
  obtain ⟨⟨as, -, hc⟩, htail⟩ := h
  have hlength := hc.sees.length_eq
  rw [htail] at hlength
  simp only [List.length_append] at hlength
  omega

/-- The first token of the clause is there, unless it is the semicolon. -/
theorem exists_spells_cons (h : c.Lacks [] ys behind rest tail) (hys : headKind ys ≠ .semicolon) :
    ∃ y as, headKind ys = y.kind ∧ c.Spells (y :: as) tail := by
  obtain ⟨⟨as, rfl, hc⟩, -⟩ := h
  cases as with
  | nil => exact absurd rfl hys
  | cons y as => exact ⟨y, as, rfl, hc⟩

theorem kind_current_eq (h : c.Lacks [] ys behind rest tail) (hys : headKind ys ≠ .semicolon) :
    c.current.kind = headKind ys := by
  obtain ⟨y, as, hy, hc⟩ := h.exists_spells_cons hys
  rw [hy, hc.kind_current]

theorem ahead_ne_nil (h : c.Lacks [] ys behind rest tail) (hys : headKind ys ≠ .semicolon) :
    c.ahead ≠ [] := by
  obtain ⟨y, as, -, hc⟩ := h.exists_spells_cons hys
  rw [← List.length_pos_iff, hc.sees.length_eq]
  simp

theorem length_rest_lt (h : c.Lacks [] ys behind rest tail) (hys : headKind ys ≠ .semicolon) :
    rest.length < c.ahead.length := by
  obtain ⟨y, as, -, hc⟩ := h.exists_spells_cons hys
  rw [hc.sees.length_eq, h.tail_eq]
  simp only [List.cons_append, List.length_cons, List.length_append]
  omega

/-- Reading has moved on when the missing semicolon comes up. -/
theorem room_lt (h : c.Lacks [] ys behind rest tail) (hys : headKind ys ≠ .semicolon) {d : Cursor}
    (hd : d.Spells [] tail) : d.room < c.room := by
  obtain ⟨y, as, -, hc⟩ := h.exists_spells_cons hys
  rw [c.room_eq, d.room_eq, hc.sees.length_eq, hd.sees.length_eq]
  simp only [List.nil_append, List.cons_append, List.length_cons, List.length_append]
  omega

end Cursor.Lacks

/-! Before the clause, tokens are read as usual. -/

section Heads

open Reader

variable {β : Type} {c : Cursor} {y : Terminal} {front ys behind rest : List Terminal}
  {tail : List Token} {kind : TokenKind} {n : String} {Q : Reading.Result β}

theorem succeeds_expect_bind_of_lacks {f : Token → Reader Fault β} (hy : y.kind = kind)
    (hc : c.Lacks (y :: front) ys behind rest tail)
    (h : ∀ t d, d.Lacks front ys behind rest tail → (f t d).Succeeds Q) :
    ((expect kind >>= f) c).Succeeds Q := by
  obtain ⟨⟨as, has, hspells⟩, htail⟩ := hc
  exact succeeds_expect_bind_of_spells hy hspells fun t d hd => h t d ⟨⟨as, has, hd⟩, htail⟩

theorem succeeds_expectName_bind_of_lacks {f : String → Reader Fault β}
    (hc : c.Lacks (ident n :: front) ys behind rest tail)
    (h : ∀ d, d.Lacks front ys behind rest tail → (f n d).Succeeds Q) :
    ((expectName >>= f) c).Succeeds Q := by
  obtain ⟨⟨as, has, hspells⟩, htail⟩ := hc
  exact succeeds_expectName_bind_of_spells hspells fun d hd => h d ⟨⟨as, has, hd⟩, htail⟩

end Heads

/-! ## The missing semicolon comes up -/

/-- The kinds of tokens that come after a semicolon in a correct program. -/
def TokenKind.afterSemicolon : TokenKind → Bool
  | leftBrace | rightBrace | ifKw | elseKw | whileKw | printlnKw | identifier | recurKw | returnKw
  | intKw | booleanKw | publicKw => true
  | _ => false

theorem operator?_of_afterSemicolon {ys : List Terminal} (h : (headKind ys).afterSemicolon) :
    operator? ys = none := by
  unfold operator?
  cases hk : headKind ys <;> first | rfl | (rw [hk] at h; cases h)

section Found

variable {α β : Type} {c : Cursor} {found : Token} {later : List Token} {zs : List Terminal}
  {tail : List Token} {e : Expr}

theorem Token.ne_semicolon (h : found.kind.afterSemicolon) : found.kind ≠ .semicolon := by
  intro hk
  rw [hk] at h
  cases h

namespace Parse

open Reader Reading

/-! Parts of the clause are read as usual. -/

theorem passes_expression (he : e.Readable)
    (hzs : operator? (zs ++ tail.map Token.terminal) = none) (hc : c.Spells (e.yield ++ zs) tail) :
    (expression c).Passes (fun _ => True) zs tail := by
  have hsees := hc.sees
  rw [List.append_assoc] at hsees
  apply passes_of_succeeds hc _ (ensures_expression c)
  apply (succeeds_expression he hzs hsees).mono
  rintro _ d fs ⟨rfl, -, hd⟩
  exact ⟨rfl, trivial, hd⟩

theorem passes_parenthesized (he : e.Readable)
    (hc : c.Spells (word .leftParen :: (e.yield ++ word .rightParen :: zs)) tail) :
    (parenthesized c).Passes (fun _ => True) zs tail := by
  have hsees := hc.sees
  simp only [List.cons_append, List.append_assoc] at hsees
  apply passes_of_succeeds hc _ (ensures_parenthesized c)
  apply (succeeds_parenthesized he hsees).mono
  rintro _ d fs ⟨rfl, -, hd⟩
  exact ⟨rfl, trivial, hd⟩

theorem passes_arguments {es : List Expr} (hes : ∀ e ∈ es, e.Readable)
    (hc : c.Spells (Expr.yieldList es ++ word .rightParen :: zs) tail) :
    (arguments c).Passes (fun _ => True) (word .rightParen :: zs) tail := by
  have hsees := hc.sees
  simp only [List.cons_append, List.append_assoc] at hsees
  apply passes_of_succeeds hc _ (ensures_arguments c)
  apply (succeeds_arguments hes hsees).mono
  rintro _ d fs ⟨rfl, -, hd⟩
  exact ⟨rfl, trivial, hd⟩

/-- After an expression something else stands where a semicolon should be. -/
theorem failsAt_expression_bind {f : Expr → Token → Reader Fault β} (he : e.Readable)
    (hfound : found.kind.afterSemicolon) (hc : c.Spells e.yield (found :: later)) :
    ((expression >>= fun value => expect .semicolon >>= f value) c).FailsAt
      (.missing .semicolon found) (found :: later) := by
  have hstop : operator? ([] ++ (found :: later).map Token.terminal) = none :=
    operator?_of_afterSemicolon hfound
  rw [← List.append_nil e.yield] at hc
  apply failsAt_bind (passes_expression he hstop hc)
  intro _ d _ hd
  exact failsAt_missing_bind hd (Token.ne_semicolon hfound)

end Parse

end Found

end MiniJava
