import MiniJava.Proofs.FirstError.Program
import MiniJava.Proofs.Layout.Independence
import MiniJava.Proofs.Report.Coherence

/-!
# The first error of a program

A text is cut before one of its tokens, or before its end. What reading comes to at the cut tells
whether the first diagnostic that names expectations is about the token there. So the tokens up to
an error decide that it is the first one, and what is said of it; and a token that is named as
expected would have been taken.
-/

namespace MiniJava

open Diagnostic (NotAfter)

variable {α : Type} {reader : Reader Empty α} {source : String} {d : Diagnostic} {k : Nat}

/-! ## Diagnostics that name expectations -/

/-- Whether the diagnostic tells what was expected. -/
def Diagnostic.expects (d : Diagnostic) : Bool := !d.expected.isEmpty

theorem Diagnostic.expects_iff : d.expects = true ↔ d.expected ≠ [] := by
  rw [expects, Bool.not_eq_true', List.isEmpty_eq_false_iff]

/-- The first diagnostic that tells what was expected. -/
def Analysis.firstExpecting? (a : Analysis α) : Option Diagnostic :=
  a.diagnostics.find? Diagnostic.expects

/-- The diagnostic is about the token of some rank; the mark of the end is the last token. -/
def Diagnostic.IsAt (d : Diagnostic) (source : String) (k : Nat) : Prop :=
  (tokenize source).all[k]?.map Token.span = some d.span

instance (d : Diagnostic) (source : String) (k : Nat) : Decidable (d.IsAt source k) :=
  inferInstanceAs (Decidable (_ = _))

/-- An objection as it is shown to a reader of the text. -/
def Objection.toDiagnostic (source : String) (o : Objection) : Diagnostic :=
  (Fault.unexpected o.found o.expected o.hint).toDiagnostic source

theorem expects_unexpected {expected : List Expectation} (h : expected ≠ []) (found : Token)
    (hint : Option Hint) :
    ((Fault.unexpected found expected hint).toDiagnostic source).expects = true :=
  Diagnostic.expects_iff.2 fun hnil => h (List.map_eq_nil_iff.1 hnil)

theorem not_expects_misplaced (rule : OrderRule) (span : Span) :
    ¬ ((Fault.misplaced rule span).toDiagnostic source).expects = true :=
  Bool.false_ne_true

theorem filter_expecting_faults {faults : List Fault}
    (h : ∀ o ∈ faults.filterMap Fault.objection?, o.expected ≠ []) :
    (faults.map (Fault.toDiagnostic source)).filter Diagnostic.expects =
      (faults.filterMap Fault.objection?).map (Objection.toDiagnostic source) := by
  induction faults with
  | nil => rfl
  | cons fault faults ih =>
    cases fault with
    | misplaced rule span =>
      rw [List.map_cons, List.filter_cons_of_neg (not_expects_misplaced rule span), ih h]
      rfl
    | unexpected found expected hint =>
      obtain ⟨hne, hrest⟩ := List.forall_mem_cons.1 h
      rw [List.map_cons, List.filter_cons_of_pos (expects_unexpected hne found hint), ih hrest]
      rfl

theorem Reading.objections_eq_noted (r : Reading Empty α) : r.objections = r.noted := by
  obtain ⟨e | a, c, journal⟩ := r
  · exact e.elim
  · exact List.append_nil _

/-- The diagnostics that name expectations are the objections in the order of their places. -/
theorem filter_expecting_analyze [reader.Onward] :
    (analyze reader source).diagnostics.filter Diagnostic.expects =
      ((reader (startOf source)).objections.map (Objection.toDiagnostic source)).insertionSort
        NotAfter := by
  have hsorted : (analyze reader source).diagnostics =
      (Collector.sorted ⟨(tokenize source).errors.map LexicalError.toDiagnostic ++
        (reader (startOf source)).faults.map (Fault.toDiagnostic source)⟩).toList := rfl
  have hlexical : ((tokenize source).errors.map LexicalError.toDiagnostic).filter
      Diagnostic.expects = [] := by
    rw [List.filter_eq_nil_iff, List.forall_mem_map]
    exact fun e _ => Bool.false_ne_true
  have hnamed : ∀ o ∈ (reader (startOf source)).noted, o.expected ≠ [] := by
    rw [← Reading.objections_eq_noted]
    exact fun o ho => ((Reader.Onward.from_start (startOf source)).objections o ho).expected
  rw [hsorted, filter_sorted, List.filter_append, hlexical, List.nil_append,
    filter_expecting_faults hnamed, toList_sorted_eq_insertionSort, Reading.objections_eq_noted]
  rfl

theorem firstExpecting?_analyze [reader.Onward] :
    (analyze reader source).firstExpecting? =
      (((reader (startOf source)).objections.map (Objection.toDiagnostic source)).insertionSort
        NotAfter).head? := by
  rw [← filter_expecting_analyze, List.head?_filter, Analysis.firstExpecting?]

/-- A diagnostic that names expectations shows an objection. -/
theorem exists_objection [reader.Onward] (hd : d ∈ (analyze reader source).diagnostics)
    (hne : d.expected ≠ []) :
    ∃ o ∈ (reader (startOf source)).objections, d = o.toDiagnostic source := by
  have hmem : d ∈ (analyze reader source).diagnostics.filter Diagnostic.expects :=
    List.mem_filter.2 ⟨hd, Diagnostic.expects_iff.2 hne⟩
  rw [filter_expecting_analyze, List.mem_insertionSort] at hmem
  obtain ⟨o, ho, heq⟩ := List.mem_map.1 hmem
  exact ⟨o, ho, heq.symm⟩

/-- What the first diagnostic that names expectations is about is a token of the text. -/
theorem exists_isAt [reader.Onward] (hd : (analyze reader source).firstExpecting? = some d) :
    ∃ k, d.IsAt source k := by
  obtain ⟨o, ho, rfl⟩ := exists_objection (List.mem_of_find?_eq_some hd)
    (Diagnostic.expects_iff.1 (List.find?_some hd))
  have hfound : o.found ∈ (tokenize source).all := by
    have hleft := ((Reader.Onward.from_start (startOf source)).objections o ho).found
    rwa [Cursor.left, Cursor.ahead_startOf, Cursor.final_startOf] at hleft
  obtain ⟨k, hk⟩ := List.mem_iff_getElem?.1 hfound
  exact ⟨k, by rw [Diagnostic.IsAt, hk]; rfl⟩

/-- No objection comes before the first one. -/
theorem firstExpecting?_le [reader.Onward] (hd : (analyze reader source).firstExpecting? = some d)
    {o : Objection} (ho : o ∈ (reader (startOf source)).objections) :
    d.span.start ≤ o.found.span.start := by
  rw [firstExpecting?_analyze] at hd
  have hmem : o.toDiagnostic source ∈ ((reader (startOf source)).objections.map
      (Objection.toDiagnostic source)).insertionSort NotAfter :=
    (List.mem_insertionSort NotAfter).2 (List.mem_map_of_mem ho)
  have htotal : Std.Total NotAfter := ⟨fun d e => Nat.le_total d.span.start e.span.start⟩
  have htrans : IsTrans Diagnostic NotAfter := ⟨fun _ _ _ => Nat.le_trans⟩
  have hpairwise := List.pairwise_insertionSort NotAfter
    ((reader (startOf source)).objections.map (Objection.toDiagnostic source))
  obtain ⟨ds, hds⟩ := List.head?_eq_some_iff.1 hd
  rw [hds] at hmem hpairwise
  rcases List.mem_cons.1 hmem with heq | hmem
  · rw [← heq]
    exact Nat.le_refl _
  · exact List.rel_of_pairwise_cons hpairwise hmem

/-! ## Cutting a text -/

/-- A text, cut before the token of some rank. -/
def cutBefore (source : String) (k : Nat) : Cut where
  before := (tokenize source).tokens.take k
  after := (tokenize source).tokens.drop k
  final := (tokenize source).final
  final_kind := rfl

namespace Cut

theorem append_final (k : Cut) : k.after ++ [k.final] = k.next :: (k.after ++ [k.final]).tail := by
  rw [next]
  cases k.after <;> rfl

theorem all_eq_append (source : String) (k : Nat) :
    (tokenize source).all = (cutBefore source k).before ++
      ((cutBefore source k).after ++ [(cutBefore source k).final]) := by
  rw [← List.append_assoc]
  exact congrArg (· ++ _) (List.take_append_drop k (tokenize source).tokens).symm

theorem size_cutBefore (hk : k ≤ (tokenize source).tokens.length) : (cutBefore source k).size = k :=
  List.length_take_of_le hk

/-- The token after the cut is the one of that rank. -/
theorem get_all (hk : k ≤ (tokenize source).tokens.length) :
    (tokenize source).all[k]? = some (cutBefore source k).next := by
  have hsize : (cutBefore source k).before.length = k := size_cutBefore hk
  rw [all_eq_append source k, List.getElem?_append_right (Nat.le_of_eq hsize), hsize, Nat.sub_self,
    append_final, List.getElem?_cons_zero]

/-- Tokens start one after the other, also around a cut. -/
theorem starts_around (source : String) (k : Nat) :
    ((cutBefore source k).before ++ ((cutBefore source k).next ::
      ((cutBefore source k).after ++ [(cutBefore source k).final]).tail)).Pairwise
        fun t u => t.span.start < u.span.start := by
  rw [← append_final, ← all_eq_append]
  exact List.pairwise_map.1 (starts_increasing source)

theorem start_lt_of_mem_before {t : Token} (ht : t ∈ (cutBefore source k).before) :
    t.span.start < (cutBefore source k).next.span.start :=
  (List.pairwise_append.1 (starts_around source k)).2.2 t ht _ List.mem_cons_self

variable {c : Cursor} {t : Token}

theorem start_le_of_mem_tokens (hc : c.In (cutBefore source k) (cutBefore source k).size)
    (ht : t ∈ c.left) : (cutBefore source k).next.span.start ≤ t.span.start := by
  have hstarts := (List.pairwise_append.1 (starts_around source k)).2.1
  rw [Cursor.left, hc.ahead_at, hc.final, append_final] at ht
  rcases List.mem_cons.1 ht with rfl | ht
  · exact Nat.le_refl _
  · exact Nat.le_of_lt (List.rel_of_pairwise_cons hstarts ht)

theorem start_lt_of_mem_drop (hc : c.In (cutBefore source k) (cutBefore source k).size)
    (hne : (cutBefore source k).after ≠ []) (ht : t ∈ (c.drop 1).left) :
    (cutBefore source k).next.span.start < t.span.start := by
  have hstarts := (List.pairwise_append.1 (starts_around source k)).2.1
  have hfinal : (c.drop 1).final = (cutBefore source k).final :=
    (c.final_drop 1).trans hc.final
  rw [Cursor.left, Cursor.ahead_drop, hc.ahead_at, hfinal, List.drop_one,
    ← List.tail_append_of_ne_nil hne] at ht
  exact List.rel_of_pairwise_cons hstarts ht

end Cut

theorem le_length_of_getElem? {t : Token} (h : (tokenize source).all[k]? = some t) :
    k ≤ (tokenize source).tokens.length := by
  obtain ⟨hlt, -⟩ := List.getElem?_eq_some_iff.1 h
  rw [Tokenization.all, List.length_append, List.length_singleton] at hlt
  exact Nat.le_of_lt_succ hlt

theorem Diagnostic.IsAt.le (h : d.IsAt source k) : k ≤ (tokenize source).tokens.length := by
  obtain ⟨t, ht, -⟩ := Option.map_eq_some_iff.1 h
  exact le_length_of_getElem? ht

theorem Diagnostic.isAt_iff (hk : k ≤ (tokenize source).tokens.length) :
    d.IsAt source k ↔ d.span = (cutBefore source k).next.span := by
  rw [IsAt, Cut.get_all hk, Option.map_some, Option.some_inj, eq_comm]

/-- Texts with the same words before their cuts start at corresponding places. -/
theorem places_cutBefore {s t : String}
    (hwords : ((tokenize s).all.take k).map Token.word = ((tokenize t).all.take k).map Token.word)
    (hs : k ≤ (tokenize s).tokens.length) (ht : k ≤ (tokenize t).tokens.length) :
    (cutBefore s k).Places (cutBefore t k) 0 (startOf s) (startOf t) := by
  rw [Tokenization.all, Tokenization.all, List.take_append_of_le_length hs,
    List.take_append_of_le_length ht] at hwords
  have hstart : ∀ source, (startOf source).In (cutBefore source k) 0 := by
    intro source
    refine ⟨?_, Cursor.final_startOf source, Nat.zero_le _⟩
    rw [List.drop_zero, Cursor.ahead_startOf]
    exact (List.take_append_drop k _).symm
  exact ⟨hwords, hstart s, hstart t⟩

/-! ## What a verdict tells of the diagnostics -/

namespace Reading.Meets

open Reader (Onward)

theorem start_lt (h : (reader (startOf source)).Meets (cutBefore source k) .early)
    [Onward reader] (hd : (analyze reader source).firstExpecting? = some d) :
    d.span.start < (cutBefore source k).next.span.start := by
  cases h with
  | early ho hmem =>
    exact Nat.lt_of_le_of_lt (firstExpecting?_le hd ho) (Cut.start_lt_of_mem_before hmem)

theorem lt_start (h : (reader (startOf source)).Meets (cutBefore source k) .passes)
    [Onward reader] (hd : d ∈ (analyze reader source).diagnostics) (hne : d.expected ≠ []) :
    (cutBefore source k).next.span.start < d.span.start := by
  obtain ⟨o, ho, rfl⟩ := exists_objection hd hne
  cases h with
  | passes hc hafter hfrom =>
    exact Cut.start_lt_of_mem_drop hc hafter (hfrom.objections o ho).found

theorem firstExpecting? {expected : List Expectation} {hint : Option Hint} [Onward reader]
    (h : (reader (startOf source)).Meets (cutBefore source k) (.objects expected hint)) :
    (analyze reader source).firstExpecting? =
      some (Objection.toDiagnostic source ⟨(cutBefore source k).next, expected, hint⟩) := by
  cases h with
  | objects later hc hfrom hfirst =>
    rw [firstExpecting?_analyze, hfirst, List.map_cons, List.insertionSort_cons,
      orderedInsert_eq_cons, List.head?_cons]
    intro d hd
    rw [List.mem_insertionSort] at hd
    obtain ⟨o, ho, rfl⟩ := List.mem_map.1 hd
    have hmem : o ∈ (reader (startOf source)).objections := hfirst ▸ List.mem_cons_of_mem _ ho
    exact Cut.start_le_of_mem_tokens hc (hfrom.objections o hmem).found

/-- The first diagnostic is about the token after the cut if the verdict is an objection to it. -/
theorem exists_isAt_iff {v : Verdict} [Onward reader] (hk : k ≤ (tokenize source).tokens.length)
    (h : (reader (startOf source)).Meets (cutBefore source k) v) :
    (∃ d, (analyze reader source).firstExpecting? = some d ∧ d.IsAt source k) ↔
      ∃ expected hint, v = .objects expected hint := by
  constructor
  · rintro ⟨d, hd, hat⟩
    have hspan := (Diagnostic.isAt_iff hk).1 hat
    cases v with
    | early =>
      have hlt := h.start_lt hd
      rw [hspan] at hlt
      exact absurd hlt (Nat.lt_irrefl _)
    | passes =>
      have hlt := h.lt_start (List.mem_of_find?_eq_some hd)
        (Diagnostic.expects_iff.1 (List.find?_some hd))
      rw [hspan] at hlt
      exact absurd hlt (Nat.lt_irrefl _)
    | objects expected hint => exact ⟨expected, hint, rfl⟩
  · rintro ⟨expected, hint, rfl⟩
    exact ⟨_, h.firstExpecting?, (Diagnostic.isAt_iff hk).2 rfl⟩

end Reading.Meets

/-! ## The first error -/

theorem firstExpecting?_of_none [reader.Onward]
    (h : (reader (startOf source)).objections = []) :
    (analyze reader source).firstExpecting? = none := by
  rw [firstExpecting?_analyze, h]
  rfl

/-- What is said of tokens with the same word is the same. -/
theorem wording_toDiagnostic_congr {o o' : Objection} (s t : String)
    (hfound : o.found.word = o'.found.word) (hexpected : o.expected = o'.expected)
    (hhint : o.hint = o'.hint) : (o.toDiagnostic s).wording = (o'.toDiagnostic t).wording := by
  obtain ⟨hkind, hlexeme⟩ := Prod.mk.inj hfound
  have hdescribe : o.found.describe = o'.found.describe := by
    rw [Token.describe, Token.describe, hkind, hlexeme]
  simp [Objection.toDiagnostic, Fault.toDiagnostic, Fault.toSyntaxError, SyntaxError.unexpected,
    SyntaxError.toDiagnostic, Diagnostic.wording, hdescribe, hexpected, hhint]

/-- Where the words up to and after the cuts agree, both texts are cut before the same word. -/
theorem word_next_eq {s t : String}
    (hwords : ((tokenize s).all.take (k + 1)).map Token.word =
      ((tokenize t).all.take (k + 1)).map Token.word)
    (hs : k ≤ (tokenize s).tokens.length) (ht : k ≤ (tokenize t).tokens.length) :
    (cutBefore s k).next.word = (cutBefore t k).next.word := by
  have hget := congrArg (·[k]?) hwords
  simpa only [List.getElem?_map, List.getElem?_take_of_lt (Nat.lt_succ_self k), Cut.get_all hs,
    Cut.get_all ht, Option.map_some, Option.some_inj] using hget

theorem length_le_of_words_eq {s t : String}
    (hwords : ((tokenize s).all.take (k + 1)).map Token.word =
      ((tokenize t).all.take (k + 1)).map Token.word)
    (hs : k ≤ (tokenize s).tokens.length) : k ≤ (tokenize t).tokens.length := by
  have hlength := congrArg List.length hwords
  simp only [Tokenization.all, List.length_map, List.length_take, List.length_append,
    List.length_singleton] at hlength
  omega

/--
Whether the first error of a text is at a token, and what is said of it, is decided by the words up
to that token: nothing that comes later can hide, move or create it.
-/
theorem parse_first_error_local {s t : String} {k : Nat}
    (hwords : ((tokenize s).all.take (k + 1)).map Token.word =
      ((tokenize t).all.take (k + 1)).map Token.word) :
    ((∃ d, (parse s).firstExpecting? = some d ∧ d.IsAt s k) ↔
      ∃ e, (parse t).firstExpecting? = some e ∧ e.IsAt t k) ∧
    ∀ d e, (parse s).firstExpecting? = some d → d.IsAt s k →
      (parse t).firstExpecting? = some e → e.IsAt t k → d.wording = e.wording := by
  by_cases hs : k ≤ (tokenize s).tokens.length
  · have ht := length_le_of_words_eq hwords hs
    have hbefore : ((tokenize s).all.take k).map Token.word =
        ((tokenize t).all.take k).map Token.word := by
      have htake := congrArg (List.take k) hwords
      rwa [← List.map_take, ← List.map_take, List.take_take, List.take_take,
        Nat.min_eq_left (Nat.le_succ k)] at htake
    have hnext := word_next_eq hwords hs ht
    have hjoint := Parse.joint_program (ε := Empty) (places_cutBefore hbefore hs ht)
    rw [parse, parse]
    cases hjoint with
    | together _ _ _ hnone hnone' =>
      rw [firstExpecting?_of_none hnone, firstExpecting?_of_none hnone']
      exact ⟨by simp, fun d e hd => by cases hd⟩
    | @both v _ hv hv' =>
      refine ⟨(hv.exists_isAt_iff hs).trans (hv'.exists_isAt_iff ht).symm, ?_⟩
      intro d e hd hat he _
      obtain ⟨expected, hint, rfl⟩ := (hv.exists_isAt_iff hs).1 ⟨d, hd, hat⟩
      obtain rfl := Option.some_inj.1 (hd.symm.trans hv.firstExpecting?)
      obtain rfl := Option.some_inj.1 (he.symm.trans hv'.firstExpecting?)
      exact wording_toDiagnostic_congr s t hnext rfl rfl
    | left hne => exact absurd hnext hne
    | right hne => exact absurd hnext hne
  · -- neither text has a token of that rank
    have ht : ¬ k ≤ (tokenize t).tokens.length := fun ht =>
      hs (length_le_of_words_eq hwords.symm ht)
    refine ⟨iff_of_false ?_ ?_, fun d e _ hat => absurd hat.le hs⟩
    · rintro ⟨d, -, hat⟩
      exact hs hat.le
    · rintro ⟨e, -, hat⟩
      exact ht hat.le

/-- What comes after the faulty literal makes no difference, not even an unclosed comment. -/
theorem parse_first_error_local_at_literal :
    let s := "class M \x7b 1"
    let t := "class M \x7b 1 public static ( /*"
    ((tokenize s).all.take 4).map Token.word = ((tokenize t).all.take 4).map Token.word ∧
      ∃ d e, (parse s).firstExpecting? = some d ∧ d.IsAt s 3 ∧
        (parse t).firstExpecting? = some e ∧ e.IsAt t 3 ∧ d.wording = e.wording := by
  intro s t
  have hwords : ((tokenize s).all.take 4).map Token.word =
      ((tokenize t).all.take 4).map Token.word := by decide +kernel
  have hfirst : ((parse s).firstExpecting?.any fun d => d.IsAt s 3) = true := by
    rw [parse, firstExpecting?_analyze]
    decide +kernel
  obtain ⟨d, hd, hat⟩ := (Option.any_eq_true _ _).1 hfirst
  obtain ⟨hiff, hwording⟩ := parse_first_error_local hwords
  obtain ⟨e, he, hat'⟩ := hiff.1 ⟨d, hd, of_decide_eq_true hat⟩
  exact ⟨hwords, d, e, hd, of_decide_eq_true hat, he, hat',
    hwording d e hd (of_decide_eq_true hat) he hat'⟩

/-! ## What is expected -/

/-- A token that is named as expected is not one that was objected to. -/
theorem not_admits_of_mem_objections {o : Objection}
    (ho : o ∈ ((Parse.program : Reader Empty Program) (startOf source)).objections) :
    ∀ x ∈ o.expected, ¬ x.Admits o.found := by
  have hholds := holds_of_advances
    (Parse.advances_program (E := fun _ : Empty => True) source (startOf source))
  rw [Reading.objections_eq_noted] at ho
  obtain ⟨fault, hfault, hobjection⟩ := List.mem_filterMap.1 ho
  cases fault with
  | misplaced rule span => cases hobjection
  | unexpected found expected hint =>
    obtain rfl := Option.some_inj.1 hobjection
    exact (hholds _ hfault).2

/-- A token that the first diagnostic names as expected is admitted where the diagnostic is. -/
theorem Reading.Meets.exists_admits {expected : List Expectation} {hint : Option Hint} {t : String}
    {x : Token} {text : String} [reader.Onward]
    (h : (reader (startOf source)).Meets (cutBefore source k) (.objects expected hint))
    (hd : (analyze reader source).firstExpecting? = some d) (htext : text ∈ d.expected)
    (hx : x ∈ (tokenize t).all) (hnamed : x.NamedBy text) : ∃ y ∈ expected, y.Admits x := by
  obtain rfl := Option.some_inj.1 (hd.symm.trans h.firstExpecting?)
  obtain ⟨y, hy, rfl⟩ := List.mem_map.1 htext
  exact ⟨y, hy, Classical.not_not.1 fun hno => Expectation.not_namedBy hx hno hnamed⟩

/--
The first diagnostic that tells what was expected is about a token of the text. Each text in which
a token that it names stands in place of this one, after the same words, gives no such diagnostic up
to that token.
-/
theorem parse_takes_expected {s : String} {d : Diagnostic}
    (hd : (parse s).firstExpecting? = some d) :
    (∃ k, d.IsAt s k) ∧ ∀ k, d.IsAt s k → ∀ text ∈ d.expected, ∀ t x,
      ((tokenize t).all.take k).map Token.word = ((tokenize s).all.take k).map Token.word →
      (tokenize t).all[k]? = some x → x.NamedBy text →
        ∀ e ∈ (parse t).diagnostics, e.expected ≠ [] → x.span.start < e.span.start := by
  refine ⟨exists_isAt hd, fun k hat text htext t x hwords hx hnamed => ?_⟩
  have hs := hat.le
  have ht := le_length_of_getElem? hx
  have hmem := List.mem_of_getElem? hx
  obtain rfl := Option.some_inj.1 (hx.symm.trans (Cut.get_all ht))
  have hjoint := Parse.joint_program (ε := Empty) (places_cutBefore hwords.symm hs ht)
  cases hjoint with
  | together _ _ _ hnone =>
    rw [parse, firstExpecting?_of_none hnone] at hd
    cases hd
  | both heq hv =>
    -- the named token would be the one that was objected to
    obtain ⟨expected, hint, rfl⟩ := (hv.exists_isAt_iff hs).1 ⟨d, hd, hat⟩
    obtain ⟨y, hy, hadmits⟩ := hv.exists_admits hd htext hmem hnamed
    cases hv with
    | objects later _ _ hfirst =>
      have hfound := hfirst ▸ List.mem_cons_self
      exact absurd ((Expectation.admits_congr heq).2 hadmits)
        (not_admits_of_mem_objections hfound y hy)
  | left _ hr =>
    rcases hr with ⟨v, hv, hexcused⟩ | ⟨-, hhalts⟩
    · obtain ⟨expected, hint, rfl⟩ := (hv.exists_isAt_iff hs).1 ⟨d, hd, hat⟩
      obtain ⟨y, hy, hadmits⟩ := hv.exists_admits hd htext hmem hnamed
      exact absurd hadmits (hexcused y hy)
    · rw [parse, firstExpecting?_of_none hhalts.objections] at hd
      cases hd
  | right _ hr =>
    intro e he hne
    rcases hr with ⟨v, hv, rfl⟩ | ⟨-, hhalts⟩
    · exact hv.lt_start he hne
    · obtain ⟨o, ho, -⟩ := exists_objection he hne
      rw [hhalts.objections] at ho
      cases ho

/-- After a name that starts a statement, an element of an array may be assigned. -/
theorem parse_takes_expected_bracket :
    let s := "class M \x7b public static void main(String[] a) \x7b x 1"
    let t := "class M \x7b public static void main(String[] a) \x7b x ["
    ∃ d, (parse s).firstExpecting? = some d ∧ d.IsAt s 15 ∧ "`[`" ∈ d.expected ∧
      ∀ e ∈ (parse t).diagnostics, e.expected ≠ [] → 50 < e.span.start := by
  intro s t
  have hfirst : ((parse s).firstExpecting?.any fun d => d.IsAt s 15 ∧ "`[`" ∈ d.expected) =
      true := by
    rw [parse, firstExpecting?_analyze]
    decide +kernel
  obtain ⟨d, hd, hat⟩ := (Option.any_eq_true _ _).1 hfirst
  obtain ⟨hat, htext⟩ := of_decide_eq_true hat
  have hwords : ((tokenize t).all.take 15).map Token.word =
      ((tokenize s).all.take 15).map Token.word := by decide +kernel
  obtain ⟨hx, hkind, hstart⟩ : (tokenize t).all[15]? = some ((tokenize t).all.getD 15 default) ∧
      ((tokenize t).all.getD 15 default).kind = .leftBracket ∧
      ((tokenize t).all.getD 15 default).span.start = 50 := by decide +kernel
  have hnamed : ((tokenize t).all.getD 15 default).NamedBy "`[`" := .inl (by rw [hkind]; rfl)
  refine ⟨d, hd, hat, htext, fun e he hne => ?_⟩
  rw [← hstart]
  exact (parse_takes_expected hd).2 15 hat _ htext t _ hwords hx hnamed e he hne

end MiniJava
