import MiniJava.Proofs.Extents.Program
import MiniJava.Proofs.Report.Sorting

/-!
# What diagnostics say

The diagnostics of a text are sorted, lexical ones first where several start at one place. Each
shows the position at which it starts, and one that tells what was expected is about a token of the
text that is not among what was expected.
-/

namespace MiniJava

/-! ## How messages name tokens -/

/-- A text in a message that names the token: its kind, or a name as it is spelled. -/
def Token.NamedBy (t : Token) (text : String) : Prop :=
  text = t.kind.display ∨ t.kind = .identifier ∧ text = "`" ++ t.lexeme ++ "`"

namespace TokenKind

variable {kind kind' : TokenKind} {text : String}

/-- A spelling is read as the kind of token that is spelled so. -/
theorem kinds_of_spelling? (h : kind.spelling? = some text) :
    (tokenize text).tokens.map Token.kind = [kind] := by
  cases kind <;> cases h <;> decide +kernel

theorem display_of_spelling? (h : kind.spelling? = some text) :
    kind.display = "`" ++ text ++ "`" := by
  cases kind <;> cases h <;> rfl

theorem quoted_injective {text' : String} (h : "`" ++ text ++ "`" = "`" ++ text' ++ "`") :
    text = text' := by
  rw [← String.toList_inj] at h ⊢
  simpa using h

/-- What is no keyword and no mark is named in words. -/
theorem display_of_spelling?_eq_none (h : kind.spelling? = none) :
    kind.display = "identifier" ∧ kind = .identifier ∨
      kind.display = "integer literal" ∧ (∃ value, kind = .integer value) ∨
      kind.display = "end of input" ∧ (kind = .comment ∨ kind = .endOfInput) := by
  cases kind with
  | identifier => exact .inl ⟨rfl, rfl⟩
  | integer value => exact .inr (.inl ⟨rfl, value, rfl⟩)
  | comment => exact .inr (.inr ⟨rfl, .inl rfl⟩)
  | endOfInput => exact .inr (.inr ⟨rfl, .inr rfl⟩)
  | _ => cases h

theorem quoted_ne_display (h : kind.spelling? = none) (text : String) :
    "`" ++ text ++ "`" ≠ kind.display := by
  intro heq
  have hhead := congrArg (fun s => s.toList.head?) heq
  rcases display_of_spelling?_eq_none h with ⟨hd, -⟩ | ⟨hd, -⟩ | ⟨hd, -⟩ <;>
    simp [hd] at hhead

theorem eq_of_quoted_eq_display (h : kind.spelling? = some text)
    (heq : "`" ++ text ++ "`" = kind'.display) : kind = kind' := by
  cases hspelled : kind'.spelling? with
  | none => exact absurd heq (quoted_ne_display hspelled text)
  | some text' =>
    rw [display_of_spelling? hspelled] at heq
    obtain rfl := quoted_injective heq
    have hkinds := kinds_of_spelling? h
    rw [kinds_of_spelling? hspelled] at hkinds
    exact (List.singleton_inj.1 hkinds).symm

/-- A keyword is no name. -/
theorem not_isName_of_spelling? (h : kind.spelling? = some text) (hname : IsName text) : False := by
  have hkinds := congrArg (List.map Terminal.kind) hname
  rw [List.map_map, show Terminal.kind ∘ Token.terminal = Token.kind from rfl,
    kinds_of_spelling? h] at hkinds
  obtain rfl := List.singleton_inj.1 hkinds
  cases h

/-- A name in quotes is no kind of token. -/
theorem quoted_ne_display_of_isName (h : IsName text) : "`" ++ text ++ "`" ≠ kind.display := by
  cases hspelled : kind.spelling? with
  | none => exact quoted_ne_display hspelled text
  | some text' =>
    rw [display_of_spelling? hspelled]
    intro hquoted
    obtain rfl := quoted_injective hquoted
    exact not_isName_of_spelling? hspelled h

/-- The message tells all kinds apart that a token can have, but for the values of numbers. -/
theorem admits_of_display_eq {t : Token} (hcomment : t.kind ≠ .comment)
    (h : kind.display = t.kind.display) : (Expectation.token kind).Admits t := by
  cases hspelled : kind.spelling? with
  | some text =>
    rw [display_of_spelling? hspelled] at h
    exact .inl (eq_of_quoted_eq_display hspelled h).symm
  | none =>
    cases hspelled' : t.kind.spelling? with
    | some text =>
      rw [display_of_spelling? hspelled'] at h
      exact absurd h.symm (quoted_ne_display hspelled text)
    | none =>
      -- both are named in words
      rcases display_of_spelling?_eq_none hspelled with ⟨hd, rfl⟩ | ⟨hd, v, rfl⟩ |
          ⟨hd, rfl | rfl⟩ <;>
        rcases display_of_spelling?_eq_none hspelled' with ⟨hd', hk⟩ | ⟨hd', v', hk⟩ |
          ⟨hd', hk | hk⟩ <;>
        simp_all [Expectation.Admits]

end TokenKind

/-- No text yields a comment as a token. -/
theorem Placed.kind_ne_comment {p : Placed} {t : Token} (ht : p.token? = some t)
    (hp : p.element.Spelled) : t.kind ≠ .comment := by
  obtain ⟨position, e⟩ := p
  obtain ⟨kind, hkind, rfl⟩ := Option.map_eq_some_iff.1 ht
  cases hp with
  | ignored h =>
    obtain ⟨shape, text⟩ := e
    cases shape with
    | oversized =>
      cases hkind
      nofun
    | token kind => exact absurd rfl (h kind)
    | _ => cases hkind
  | @word w h =>
    cases hkind
    dsimp only
    rcases ofWord_eq_identifier_or (String.ofList w) with hk | hk
    · rw [hk]
      nofun
    · intro heq
      rw [heq] at hk
      cases hk
  | number h =>
    cases hkind
    nofun
  | mark h =>
    cases hkind
    rintro rfl
    cases h

theorem kind_ne_comment_of_mem_all {source : String} {t : Token} (h : t ∈ (tokenize source).all) :
    t.kind ≠ .comment := by
  rcases List.mem_append.1 h with h | h
  · obtain ⟨p, hp, ht, -⟩ := exists_placed_of_mem_tokens h
    exact p.kind_ne_comment ht (spelled_of_mem_elements (Placed.element_mem_of_mem_layOut hp))
  · rw [List.mem_singleton.1 h]
    nofun

/-- What was expected and did not come does not name the token that came instead. -/
theorem Expectation.not_namedBy {source : String} {t : Token} (ht : t ∈ (tokenize source).all)
    {x : Expectation} (h : ¬ x.Admits t) : ¬ t.NamedBy x.display := by
  have hname : t.kind = .identifier → IsName t.lexeme := by
    intro hk
    rcases List.mem_append.1 ht with hmem | hmem
    · exact (regular_of_mem_tokens hmem).named hk
    · rw [List.mem_singleton.1 hmem] at hk
      cases hk
  cases x with
  | mainName =>
    rintro (hdisplay | ⟨hk, hquoted⟩)
    · have hmain : IsName "main" := by decide +kernel
      exact TokenKind.quoted_ne_display_of_isName hmain hdisplay
    · have hlexeme : "main" = t.lexeme := TokenKind.quoted_injective hquoted
      exact h ⟨hk, hlexeme.symm⟩
  | token kind =>
    rintro (hdisplay | ⟨hk, hquoted⟩)
    · exact h (TokenKind.admits_of_display_eq (kind_ne_comment_of_mem_all ht) hdisplay)
    · exact TokenKind.quoted_ne_display_of_isName (hname hk) hquoted.symm

theorem Token.isEmpty_describe (t : Token) : t.describe.isEmpty = false := by
  have hquoted : ∀ text : String, 0 < (text ++ "`").utf8ByteSize := fun text => by
    rw [String.utf8ByteSize_append]
    exact Nat.lt_of_lt_of_le (by decide) (Nat.le_add_left _ _)
  have hlength : 0 < t.describe.utf8ByteSize := by
    unfold describe
    split
    · exact hquoted _
    · exact hquoted _
    · cases hspelled : t.kind.spelling? with
      | some text =>
        rw [TokenKind.display_of_spelling? hspelled]
        exact hquoted _
      | none =>
        rcases TokenKind.display_of_spelling?_eq_none hspelled with ⟨hd, -⟩ | ⟨hd, -⟩ | ⟨hd, -⟩ <;>
          rw [hd] <;> decide
  simpa [String.isEmpty] using Nat.ne_of_gt hlength

/-! ## Lexical diagnostics first -/

namespace Diagnostic

/-- One diagnostic may stand before another: it starts earlier, or a lexical one is not put off. -/
def Precedes (d e : Diagnostic) : Prop :=
  d.span.start < e.span.start ∨
    d.span.start = e.span.start ∧ (e.kind = .lexical → d.kind = .lexical)

variable {d : Diagnostic} {ds : List Diagnostic}

theorem Precedes.notAfter {d e : Diagnostic} (h : d.Precedes e) : d.NotAfter e :=
  h.elim Nat.le_of_lt fun h => Nat.le_of_eq h.1

/-- Putting in its place what is lexical, or before no lexical one, keeps lexical ones first. -/
theorem pairwise_orderedInsert (h : ds.Pairwise Precedes)
    (hd : ∀ e ∈ ds, e.kind = .lexical → d.kind = .lexical) :
    (ds.orderedInsert NotAfter d).Pairwise Precedes := by
  induction ds with
  | nil => exact List.pairwise_singleton _ _
  | cons e ds ih =>
    obtain ⟨he, hds⟩ := List.pairwise_cons.1 h
    by_cases hle : d.NotAfter e
    · rw [List.orderedInsert_cons_of_le NotAfter ds hle]
      refine .cons (fun x hx => ?_) h
      have hex : e.span.start ≤ x.span.start := by
        rcases List.mem_cons.1 hx with rfl | hx
        · exact Nat.le_refl _
        · exact (he x hx).notAfter
      rcases Nat.lt_or_eq_of_le (Nat.le_trans hle hex) with hlt | heq
      · exact .inl hlt
      · exact .inr ⟨heq, hd x hx⟩
    · rw [List.orderedInsert_of_not_le NotAfter ds hle]
      refine .cons (fun x hx => ?_) (ih hds fun x hx => hd x (List.mem_cons_of_mem e hx))
      rcases (List.mem_orderedInsert NotAfter).1 hx with rfl | hx
      · exact .inl (Nat.lt_of_not_le hle)
      · exact he x hx

/-- Sorting keeps lexical diagnostics before others that start at the same place. -/
theorem pairwise_sorted (h : ds.Pairwise fun d e => e.kind = .lexical → d.kind = .lexical) :
    (Collector.sorted ⟨ds⟩).toList.Pairwise Precedes := by
  rw [toList_sorted_eq_insertionSort]
  induction h with
  | nil => exact .nil
  | @cons d ds hd _ ih =>
    rw [List.insertionSort_cons]
    refine pairwise_orderedInsert ih fun e he => hd e ?_
    exact (List.mem_insertionSort NotAfter).1 he

end Diagnostic

theorem LexicalError.kind_toDiagnostic (e : LexicalError) : e.toDiagnostic.kind = .lexical := rfl

theorem Fault.kind_toDiagnostic (source : String) (fault : Fault) :
    (fault.toDiagnostic source).kind = .syntactic := by
  cases fault <;> rfl

/-! ## Positions -/

section

variable {source : String}

theorem position_of_mem_errors {e : LexicalError} (h : e ∈ (tokenize source).errors) :
    e.position = (Source.ofString source).position e.span.start := by
  obtain ⟨p, hp, he⟩ := List.mem_filterMap.1 h
  obtain ⟨fault, -, rfl⟩ := Option.map_eq_some_iff.1 he
  exact position_of_mem_placedElements hp

theorem position_of_mem_all {t : Token} (h : t ∈ (tokenize source).all) :
    t.position = (Source.ofString source).position t.span.start := by
  rcases List.mem_append.1 h with h | h
  · obtain ⟨p, hp, ht⟩ := List.mem_filterMap.1 h
    obtain ⟨kind, -, rfl⟩ := Option.map_eq_some_iff.1 ht
    exact position_of_mem_placedElements hp
  · rw [List.mem_singleton.1 h]
    rfl

end

/-! ## Coherence -/

/--
The diagnostics of a text are in order, lexical errors are among them as they were found, and what
each of them shows is true of the text.
-/
structure Diagnostic.Coherent (source : String) (ds : List Diagnostic) : Prop where
  sorted : ds.Pairwise Diagnostic.Precedes
  lexical : ds.filter (·.kind = .lexical) = (tokenize source).errors.map LexicalError.toDiagnostic
  position : ∀ d ∈ ds, d.position = (Source.ofString source).position d.span.start
  expected : ∀ d ∈ ds, d.expected ≠ [] → ∃ t ∈ (tokenize source).all,
    d.span = t.span ∧ d.found = some t.describe ∧ ∀ text ∈ d.expected, ¬ t.NamedBy text

variable {source : String} {fault : Fault}

theorem Fault.Holds.position (h : fault.Holds source) :
    (fault.toDiagnostic source).position =
      (Source.ofString source).position (fault.toDiagnostic source).span.start := by
  cases fault with
  | unexpected found expected hint => exact position_of_mem_all h.1
  | misplaced rule span => rfl

theorem Fault.Holds.expected (h : fault.Holds source)
    (hne : (fault.toDiagnostic source).expected ≠ []) : ∃ t ∈ (tokenize source).all,
      (fault.toDiagnostic source).span = t.span ∧
        (fault.toDiagnostic source).found = some t.describe ∧
          ∀ text ∈ (fault.toDiagnostic source).expected, ¬ t.NamedBy text := by
  cases fault with
  | unexpected found expected hint =>
    refine ⟨found, h.1, rfl, ?_, ?_⟩
    · change (if found.describe.isEmpty then none else some found.describe) = _
      rw [found.isEmpty_describe]
      rfl
    · exact List.forall_mem_map.2 fun x hx => Expectation.not_namedBy h.1 (h.2 x hx)
  | misplaced rule span => exact absurd rfl hne

/-- The lexical errors of a text are in order already. -/
theorem sorted_errors (source : String) :
    (Collector.sorted ⟨(tokenize source).errors.map LexicalError.toDiagnostic⟩).toList =
      (tokenize source).errors.map LexicalError.toDiagnostic := by
  rw [toList_sorted_eq_insertionSort]
  refine List.Pairwise.insertionSort_eq ?_
  rw [List.pairwise_map]
  exact (ordered_errors source).imp fun h => Nat.le_of_lt h.1

theorem coherent_of_holds {α : Type} {reader : Reader Empty α}
    (h : ∀ fault ∈ (reader (startOf source)).faults, fault.Holds source) :
    Diagnostic.Coherent source (analyze reader source).diagnostics := by
  have hlexical : ∀ d ∈ (tokenize source).errors.map LexicalError.toDiagnostic,
      d.kind = .lexical := List.forall_mem_map.2 fun e _ => e.kind_toDiagnostic
  have hsyntactic : ∀ d ∈ (reader (startOf source)).faults.map (Fault.toDiagnostic source),
      d.kind = .syntactic := List.forall_mem_map.2 fun fault _ => fault.kind_toDiagnostic source
  have hmem : ∀ d ∈ (analyze reader source).diagnostics,
      d ∈ (tokenize source).errors.map LexicalError.toDiagnostic ∨
        d ∈ (reader (startOf source)).faults.map (Fault.toDiagnostic source) := fun d hd =>
    List.mem_append.1 ((diagnostics_analyze_perm reader source).mem_iff.1 hd)
  have hsorted : (analyze reader source).diagnostics =
      (Collector.sorted ⟨(tokenize source).errors.map LexicalError.toDiagnostic ++
        (reader (startOf source)).faults.map (Fault.toDiagnostic source)⟩).toList := rfl
  refine ⟨?_, ?_, fun d hd => ?_, fun d hd hne => ?_⟩
  · rw [hsorted]
    refine Diagnostic.pairwise_sorted
      (List.pairwise_append.2 ⟨?_, ?_, fun d hd _ _ _ => hlexical d hd⟩)
    · exact List.pairwise_of_forall_mem_list fun d hd _ _ _ => hlexical d hd
    · refine List.pairwise_of_forall_mem_list fun _ _ e he hk => ?_
      rw [hsyntactic e he] at hk
      cases hk
  · rw [hsorted, filter_sorted, List.filter_append, List.filter_eq_self.2,
      List.filter_eq_nil_iff.2, List.append_nil, sorted_errors]
    · intro d hd
      rw [hsyntactic d hd]
      decide
    · intro d hd
      rw [hlexical d hd]
      decide
  · rcases hmem d hd with hd | hd
    · obtain ⟨e, he, rfl⟩ := List.mem_map.1 hd
      exact position_of_mem_errors he
    · obtain ⟨fault, hfault, rfl⟩ := List.mem_map.1 hd
      exact (h fault hfault).position
  · rcases hmem d hd with hd | hd
    · obtain ⟨e, he, rfl⟩ := List.mem_map.1 hd
      exact absurd rfl hne
    · obtain ⟨fault, hfault, rfl⟩ := List.mem_map.1 hd
      exact (h fault hfault).expected hne

/-- The diagnostics of a program are coherent, whatever the text. -/
theorem parse_diagnostics_coherent (source : String) :
    Diagnostic.Coherent source (parse source).diagnostics :=
  coherent_of_holds (holds_of_advances
    (Parse.advances_program (E := fun _ => True) source (startOf source)))

end MiniJava
