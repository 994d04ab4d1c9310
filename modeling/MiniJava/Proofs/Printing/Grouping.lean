import MiniJava.Proofs.Grammar.Nodes
import MiniJava.Tree.Spans

/-!
# What grouping does

A tree that can be printed keeps to the grammar once its operands are grouped, grouping puts
parentheses in and does nothing else, and it leaves a tree alone that is grouped already.
-/

namespace MiniJava

/-! ## Grouped expressions -/

namespace Expr

variable {e : Expr} {level : Nat}

theorem le_strength_guarded (hl : level ≤ atomic) (e : Expr) :
    level ≤ (e.guarded level).strength := by
  unfold guarded
  split
  · exact hl
  · omega

theorem guarded_eq_self (h : level ≤ e.strength) : e.guarded level = e :=
  if_neg (by omega)

theorem legal_guarded (he : e.Legal) (level : Nat) : (e.guarded level).Legal := by
  unfold guarded
  split
  · exact List.forall_mem_cons.2 ⟨⟨⟨nofun, trivial, trivial⟩, id⟩, he⟩
  · exact he

theorem precedence_lt_atomic (op : BinaryOp) : op.precedence < atomic := by
  cases op <;> decide

mutual

/-- Grouping makes an expression that can be printed keep to the grammar. -/
theorem legal_grouped : ∀ e : Expr, (∀ n ∈ e.nodes, n.Spellable) → e.grouped.Legal
  | .integer .., he | .boolean .., he | .identifier .., he | .this _, he | .newObject .., he
  | .error _, he => by
    have h := List.forall_mem_singleton.1 he
    exact List.forall_mem_singleton.2 ⟨⟨h.named, h.inRange, trivial⟩, h.noError⟩
  | .newArray _ e, he | .paren _ e, he => by
    obtain ⟨h, he⟩ := List.forall_mem_cons.1 he
    exact List.forall_mem_cons.2 ⟨⟨⟨h.named, trivial, trivial⟩, id⟩, e.legal_grouped he⟩
  | .index _ a i, he => by
    obtain ⟨h, he⟩ := List.forall_mem_cons.1 he
    obtain ⟨ha, hi⟩ := List.forall_mem_append.1 he
    refine List.forall_mem_cons.2 ⟨⟨⟨h.named, trivial, ?_⟩, id⟩, ?_⟩
    · exact le_strength_guarded (by decide) _
    · exact List.forall_mem_append.2 ⟨legal_guarded (a.legal_grouped ha) _, i.legal_grouped hi⟩
  | .length _ a, he => by
    obtain ⟨h, ha⟩ := List.forall_mem_cons.1 he
    refine List.forall_mem_cons.2 ⟨⟨⟨h.named, trivial, ?_⟩, id⟩, ?_⟩
    · exact le_strength_guarded (by decide) _
    · exact legal_guarded (a.legal_grouped ha) _
  | .call _ r _ as, he => by
    obtain ⟨h, he⟩ := List.forall_mem_cons.1 he
    obtain ⟨hr, has⟩ := List.forall_mem_append.1 he
    refine List.forall_mem_cons.2 ⟨⟨⟨h.named, trivial, ?_⟩, id⟩, ?_⟩
    · exact le_strength_guarded (by decide) _
    · refine List.forall_mem_append.2 ⟨legal_guarded (r.legal_grouped hr) _, ?_⟩
      exact legal_groupedList as has
  | .not _ e, he => by
    obtain ⟨h, he⟩ := List.forall_mem_cons.1 he
    refine List.forall_mem_cons.2 ⟨⟨⟨h.named, trivial, ?_⟩, id⟩, ?_⟩
    · exact le_strength_guarded (Nat.le_refl _) _
    · exact legal_guarded (e.legal_grouped he) _
  | .binary _ l op r, he => by
    obtain ⟨h, he⟩ := List.forall_mem_cons.1 he
    obtain ⟨hl, hr⟩ := List.forall_mem_append.1 he
    have hop := precedence_lt_atomic op
    refine List.forall_mem_cons.2 ⟨⟨⟨h.named, trivial, ?_, ?_⟩, id⟩, ?_⟩
    · exact le_strength_guarded (Nat.le_of_lt hop) _
    · exact le_strength_guarded hop _
    · refine List.forall_mem_append.2 ⟨legal_guarded (l.legal_grouped hl) _, ?_⟩
      exact legal_guarded (r.legal_grouped hr) _

theorem legal_groupedList : ∀ es : List Expr, (∀ n ∈ nodesList es, n.Spellable) →
    ∀ n ∈ nodesList (groupedList es), n.Legal
  | [], _ => nofun
  | e :: es, h => by
    obtain ⟨he, hes⟩ := List.forall_mem_append.1 h
    exact List.forall_mem_append.2 ⟨e.legal_grouped he, legal_groupedList es hes⟩

end

mutual

/-- Where each operand holds together tightly enough, no parentheses are put in. -/
theorem grouped_eq_self : ∀ e : Expr, (∀ n ∈ e.nodes, n.Grouped) → e.grouped = e
  | .integer .., _ | .boolean .., _ | .identifier .., _ | .this _, _ | .newObject .., _
  | .error _, _ => rfl
  | .newArray _ e, he | .paren _ e, he => by
    rw [grouped, e.grouped_eq_self (List.forall_mem_cons.1 he).2]
  | .index _ a i, he => by
    obtain ⟨h, he⟩ := List.forall_mem_cons.1 he
    obtain ⟨ha, hi⟩ := List.forall_mem_append.1 he
    rw [grouped, a.grouped_eq_self ha, i.grouped_eq_self hi, guarded_eq_self h]
  | .length _ a, he => by
    obtain ⟨h, ha⟩ := List.forall_mem_cons.1 he
    rw [grouped, a.grouped_eq_self ha, guarded_eq_self h]
  | .call _ r _ as, he => by
    obtain ⟨h, he⟩ := List.forall_mem_cons.1 he
    obtain ⟨hr, has⟩ := List.forall_mem_append.1 he
    rw [grouped, r.grouped_eq_self hr, groupedList_eq_self as has, guarded_eq_self h]
  | .not _ e, he => by
    obtain ⟨h, he⟩ := List.forall_mem_cons.1 he
    rw [grouped, e.grouped_eq_self he, guarded_eq_self h]
  | .binary _ l _ r, he => by
    obtain ⟨h, he⟩ := List.forall_mem_cons.1 he
    obtain ⟨hl, hr⟩ := List.forall_mem_append.1 he
    rw [grouped, l.grouped_eq_self hl, r.grouped_eq_self hr, guarded_eq_self h.1,
      guarded_eq_self (Nat.succ_le_of_lt h.2)]

theorem groupedList_eq_self : ∀ es : List Expr, (∀ n ∈ nodesList es, n.Grouped) →
    groupedList es = es
  | [], _ => rfl
  | e :: es, h => by
    obtain ⟨he, hes⟩ := List.forall_mem_append.1 h
    rw [groupedList, e.grouped_eq_self he, groupedList_eq_self es hes]

end

end Expr

/-! ## Parentheses put in -/

mutual

/-- The second expression is the first one with parentheses put in. -/
inductive Expr.Padded : Expr → Expr → Prop
  | integer (s : Span) (v : Int32) : Padded (.integer s v) (.integer s v)
  | boolean (s : Span) (v : Bool) : Padded (.boolean s v) (.boolean s v)
  | identifier (s : Span) (n : String) : Padded (.identifier s n) (.identifier s n)
  | this (s : Span) : Padded (.this s) (.this s)
  | newArray (s : Span) {e e' : Expr} (he : Padded e e') : Padded (.newArray s e) (.newArray s e')
  | newObject (s : Span) (n : String) : Padded (.newObject s n) (.newObject s n)
  | index (s : Span) {a a' i i' : Expr} (ha : Padded a a') (hi : Padded i i') :
      Padded (.index s a i) (.index s a' i')
  | length (s : Span) {a a' : Expr} (ha : Padded a a') : Padded (.length s a) (.length s a')
  | call (s : Span) (m : String) {r r' : Expr} {as as' : List Expr} (hr : Padded r r')
      (has : PaddedList as as') : Padded (.call s r m as) (.call s r' m as')
  | not (s : Span) {e e' : Expr} (he : Padded e e') : Padded (.not s e) (.not s e')
  | binary (s : Span) (op : BinaryOp) {l l' r r' : Expr} (hl : Padded l l') (hr : Padded r r') :
      Padded (.binary s l op r) (.binary s l' op r')
  | paren (s : Span) {e e' : Expr} (he : Padded e e') : Padded (.paren s e) (.paren s e')
  | error (s : Span) : Padded (.error s) (.error s)
  /-- Put parentheses around what is there. -/
  | insert (s : Span) {e e' : Expr} (he : Padded e e') : Padded e (.paren s e')

/-- The same for the expressions of a list, one by one. -/
inductive Expr.PaddedList : List Expr → List Expr → Prop
  | nil : PaddedList [] []
  | cons {e e' : Expr} {es es' : List Expr} (he : Expr.Padded e e') (hes : PaddedList es es') :
      PaddedList (e :: es) (e' :: es')

end

namespace Expr

theorem Padded.guarded {e e' : Expr} (h : e.Padded e') (level : Nat) :
    e.Padded (e'.guarded level) := by
  unfold Expr.guarded
  split
  · exact .insert _ h
  · exact h

mutual

theorem padded_grouped : ∀ e : Expr, e.Padded e.grouped
  | .integer s v => .integer s v
  | .boolean s v => .boolean s v
  | .identifier s n => .identifier s n
  | .this s => .this s
  | .newArray s e => .newArray s e.padded_grouped
  | .newObject s n => .newObject s n
  | .index s a i => .index s (a.padded_grouped.guarded _) i.padded_grouped
  | .length s a => .length s (a.padded_grouped.guarded _)
  | .call s r m as => .call s m (r.padded_grouped.guarded _) (paddedList_groupedList as)
  | .not s e => .not s (e.padded_grouped.guarded _)
  | .binary s l op r => .binary s op (l.padded_grouped.guarded _) (r.padded_grouped.guarded _)
  | .paren s e => .paren s e.padded_grouped
  | .error s => .error s

theorem paddedList_groupedList : ∀ es : List Expr, PaddedList es (groupedList es)
  | [] => .nil
  | e :: es => .cons e.padded_grouped (paddedList_groupedList es)

end

end Expr

/--
The second program is the first one with parentheses put into its expressions, wherever the parts of
the two stand.
-/
def Program.Padded (p q : Program) : Prop :=
  ∃ f : Expr → Expr, (∀ e : Expr, e.Padded (f e)) ∧ q.withoutSpans = (p.mapExprs f).withoutSpans

/-! ## Grouped programs -/

/-- The expressions of a list, grouped one by one, keep to the grammar. -/
theorem Expr.legal_map_grouped {es : List Expr} (hes : ∀ n ∈ es.flatMap Expr.nodes, n.Spellable) :
    ∀ n ∈ (es.map Expr.grouped).flatMap Expr.nodes, n.Legal := by
  rw [← Expr.nodesList_eq] at hes ⊢
  rw [← Expr.groupedList_eq]
  exact Expr.legal_groupedList es hes

theorem Recur.legal_grouped {r : Recur} (hr : ∀ n ∈ r.nodes, n.Spellable) :
    ∀ n ∈ (r.mapExprs Expr.grouped).nodes, n.Legal := by
  obtain ⟨h, hr⟩ := List.forall_mem_cons.1 hr
  obtain ⟨hc, hr⟩ := List.forall_mem_append.1 hr
  obtain ⟨has, hf⟩ := List.forall_mem_append.1 hr
  refine List.forall_mem_cons.2 ⟨⟨⟨h.named, trivial, trivial⟩, id⟩, ?_⟩
  refine List.forall_mem_append.2 ⟨r.condition.legal_grouped hc, ?_⟩
  exact List.forall_mem_append.2 ⟨Expr.legal_map_grouped has, r.fallback.legal_grouped hf⟩

mutual

theorem Stmt.legal_grouped : ∀ s : Stmt, (∀ n ∈ s.nodes, n.Spellable) →
    ∀ n ∈ (s.mapExprs Expr.grouped).nodes, n.Legal
  | .block _ ss, hs => by
    obtain ⟨h, hs⟩ := List.forall_mem_cons.1 hs
    refine List.forall_mem_cons.2 ⟨⟨⟨h.named, trivial, trivial⟩, id⟩, ?_⟩
    exact Stmt.legal_groupedList ss hs
  | .ifElse _ c t e, hs => by
    obtain ⟨h, hs⟩ := List.forall_mem_cons.1 hs
    obtain ⟨hc, hs⟩ := List.forall_mem_append.1 hs
    obtain ⟨ht, he⟩ := List.forall_mem_append.1 hs
    refine List.forall_mem_cons.2 ⟨⟨⟨h.named, trivial, trivial⟩, id⟩, ?_⟩
    refine List.forall_mem_append.2 ⟨c.legal_grouped hc, ?_⟩
    exact List.forall_mem_append.2 ⟨t.legal_grouped ht, e.legal_grouped he⟩
  | .whileLoop _ c b, hs => by
    obtain ⟨h, hs⟩ := List.forall_mem_cons.1 hs
    obtain ⟨hc, hb⟩ := List.forall_mem_append.1 hs
    refine List.forall_mem_cons.2 ⟨⟨⟨h.named, trivial, trivial⟩, id⟩, ?_⟩
    exact List.forall_mem_append.2 ⟨c.legal_grouped hc, b.legal_grouped hb⟩
  | .println _ v, hs | .assign _ _ v, hs => by
    obtain ⟨h, hv⟩ := List.forall_mem_cons.1 hs
    exact List.forall_mem_cons.2 ⟨⟨⟨h.named, trivial, trivial⟩, id⟩, v.legal_grouped hv⟩
  | .assignElement _ _ i v, hs => by
    obtain ⟨h, hs⟩ := List.forall_mem_cons.1 hs
    obtain ⟨hi, hv⟩ := List.forall_mem_append.1 hs
    refine List.forall_mem_cons.2 ⟨⟨⟨h.named, trivial, trivial⟩, id⟩, ?_⟩
    exact List.forall_mem_append.2 ⟨i.legal_grouped hi, v.legal_grouped hv⟩
  | .recur _, hs => by
    obtain ⟨h, hr⟩ := List.forall_mem_cons.1 hs
    exact List.forall_mem_cons.2 ⟨⟨⟨h.named, trivial, trivial⟩, id⟩, Recur.legal_grouped hr⟩
  | .error _, hs => ((List.forall_mem_singleton.1 hs).noError trivial).elim

theorem Stmt.legal_groupedList : ∀ ss : List Stmt, (∀ n ∈ Stmt.nodesList ss, n.Spellable) →
    ∀ n ∈ Stmt.nodesList (Stmt.mapExprsList Expr.grouped ss), n.Legal
  | [], _ => nofun
  | s :: ss, h => by
    obtain ⟨hs, hss⟩ := List.forall_mem_append.1 h
    exact List.forall_mem_append.2 ⟨s.legal_grouped hs, Stmt.legal_groupedList ss hss⟩

end

theorem MethodResult.legal_grouped {r : MethodResult} (hr : ∀ n ∈ r.nodes, n.Spellable) :
    ∀ n ∈ (r.mapExprs Expr.grouped).nodes, n.Legal := by
  cases r with
  | returns _ e => exact e.legal_grouped hr
  | recurs r => exact Recur.legal_grouped hr

/-- A variable holds no expressions. -/
theorem legal_map_of_spellable {node : Variable → Node} {vs : List Variable}
    (hnode : ∀ v, (node v).Grouped) (hvs : ∀ n ∈ vs.map node, n.Spellable) :
    ∀ n ∈ vs.map node, n.Legal := by
  refine List.forall_mem_map.2 fun v hv => ?_
  have h := hvs _ (List.mem_map_of_mem hv)
  exact ⟨⟨h.named, h.inRange, hnode v⟩, h.noError⟩

theorem Method.legal_grouped {m : Method} (hm : ∀ n ∈ m.nodes, n.Spellable) :
    ∀ n ∈ (m.mapExprs Expr.grouped).nodes, n.Legal := by
  obtain ⟨h, hm⟩ := List.forall_mem_cons.1 hm
  obtain ⟨hparams, hm⟩ := List.forall_mem_append.1 hm
  obtain ⟨hlocals, hm⟩ := List.forall_mem_append.1 hm
  obtain ⟨hbody, hresult⟩ := List.forall_mem_append.1 hm
  refine List.forall_mem_cons.2 ⟨⟨⟨h.named, trivial, trivial⟩, id⟩, ?_⟩
  refine List.forall_mem_append.2 ⟨legal_map_of_spellable (fun _ => trivial) hparams, ?_⟩
  refine List.forall_mem_append.2 ⟨legal_map_of_spellable (fun _ => trivial) hlocals, ?_⟩
  refine List.forall_mem_append.2 ⟨?_, MethodResult.legal_grouped hresult⟩
  rw [Method.mapExprs, ← Stmt.mapExprsList_eq, ← Stmt.nodesList_eq]
  exact Stmt.legal_groupedList m.body (by rwa [Stmt.nodesList_eq])

theorem ClassDecl.legal_grouped {c : ClassDecl} (hc : ∀ n ∈ c.nodes, n.Spellable) :
    ∀ n ∈ (c.mapExprs Expr.grouped).nodes, n.Legal := by
  obtain ⟨h, hc⟩ := List.forall_mem_cons.1 hc
  obtain ⟨hfields, hmethods⟩ := List.forall_mem_append.1 hc
  refine List.forall_mem_cons.2 ⟨⟨⟨h.named, trivial, trivial⟩, id⟩, ?_⟩
  refine List.forall_mem_append.2 ⟨legal_map_of_spellable (fun _ => trivial) hfields, ?_⟩
  rw [ClassDecl.mapExprs, List.flatMap_map]
  refine List.forall_mem_flatMap.2 fun m hm => ?_
  exact Method.legal_grouped (List.forall_mem_flatMap.1 hmethods m hm)

/-- Grouping makes a program that can be printed keep to the grammar. -/
theorem Program.legal_grouped {p : Program} (hp : ∀ n ∈ p.nodes, n.Spellable) :
    ∀ n ∈ (p.mapExprs Expr.grouped).nodes, n.Legal := by
  obtain ⟨h, hp⟩ := List.forall_mem_cons.1 hp
  obtain ⟨hmain, hclasses⟩ := List.forall_mem_append.1 hp
  refine List.forall_mem_cons.2 ⟨⟨⟨h.named, trivial, trivial⟩, id⟩, ?_⟩
  refine List.forall_mem_append.2 ⟨p.main.body.legal_grouped hmain, ?_⟩
  rw [Program.mapExprs, List.flatMap_map]
  refine List.forall_mem_flatMap.2 fun c hc => ?_
  exact ClassDecl.legal_grouped (List.forall_mem_flatMap.1 hclasses c hc)

/-! ## Programs that are grouped already -/

theorem Expr.map_grouped_eq_self {es : List Expr} (hes : ∀ n ∈ es.flatMap Expr.nodes, n.Grouped) :
    es.map Expr.grouped = es := by
  rw [← Expr.groupedList_eq, Expr.groupedList_eq_self es (by rwa [Expr.nodesList_eq])]

theorem Recur.grouped_eq_self {r : Recur} (hr : ∀ n ∈ r.nodes, n.Grouped) :
    r.mapExprs Expr.grouped = r := by
  obtain ⟨hc, hr⟩ := List.forall_mem_append.1 (List.forall_mem_cons.1 hr).2
  obtain ⟨has, hf⟩ := List.forall_mem_append.1 hr
  rw [Recur.mapExprs, r.condition.grouped_eq_self hc, Expr.map_grouped_eq_self has,
    r.fallback.grouped_eq_self hf]

mutual

theorem Stmt.grouped_eq_self : ∀ s : Stmt, (∀ n ∈ s.nodes, n.Grouped) →
    s.mapExprs Expr.grouped = s
  | .block _ ss, hs => by
    rw [Stmt.mapExprs, Stmt.groupedList_eq_self ss (List.forall_mem_cons.1 hs).2]
  | .ifElse _ c t e, hs => by
    obtain ⟨hc, hs⟩ := List.forall_mem_append.1 (List.forall_mem_cons.1 hs).2
    obtain ⟨ht, he⟩ := List.forall_mem_append.1 hs
    rw [Stmt.mapExprs, c.grouped_eq_self hc, t.grouped_eq_self ht, e.grouped_eq_self he]
  | .whileLoop _ c b, hs => by
    obtain ⟨hc, hb⟩ := List.forall_mem_append.1 (List.forall_mem_cons.1 hs).2
    rw [Stmt.mapExprs, c.grouped_eq_self hc, b.grouped_eq_self hb]
  | .println _ v, hs | .assign _ _ v, hs => by
    rw [Stmt.mapExprs, v.grouped_eq_self (List.forall_mem_cons.1 hs).2]
  | .assignElement _ _ i v, hs => by
    obtain ⟨hi, hv⟩ := List.forall_mem_append.1 (List.forall_mem_cons.1 hs).2
    rw [Stmt.mapExprs, i.grouped_eq_self hi, v.grouped_eq_self hv]
  | .recur _, hs => by
    rw [Stmt.mapExprs, Recur.grouped_eq_self (List.forall_mem_cons.1 hs).2]
  | .error _, _ => rfl

theorem Stmt.groupedList_eq_self : ∀ ss : List Stmt, (∀ n ∈ Stmt.nodesList ss, n.Grouped) →
    Stmt.mapExprsList Expr.grouped ss = ss
  | [], _ => rfl
  | s :: ss, h => by
    obtain ⟨hs, hss⟩ := List.forall_mem_append.1 h
    rw [Stmt.mapExprsList, s.grouped_eq_self hs, Stmt.groupedList_eq_self ss hss]

end

theorem MethodResult.grouped_eq_self {r : MethodResult} (hr : ∀ n ∈ r.nodes, n.Grouped) :
    r.mapExprs Expr.grouped = r := by
  cases r with
  | returns _ e => rw [MethodResult.mapExprs, e.grouped_eq_self hr]
  | recurs r => rw [MethodResult.mapExprs, Recur.grouped_eq_self hr]

theorem Method.grouped_eq_self {m : Method} (hm : ∀ n ∈ m.nodes, n.Grouped) :
    m.mapExprs Expr.grouped = m := by
  obtain ⟨-, hm⟩ := List.forall_mem_append.1 (List.forall_mem_cons.1 hm).2
  obtain ⟨-, hm⟩ := List.forall_mem_append.1 hm
  obtain ⟨hbody, hresult⟩ := List.forall_mem_append.1 hm
  rw [← Stmt.nodesList_eq] at hbody
  rw [Method.mapExprs, ← Stmt.mapExprsList_eq, Stmt.groupedList_eq_self m.body hbody,
    MethodResult.grouped_eq_self hresult]

theorem ClassDecl.grouped_eq_self {c : ClassDecl} (hc : ∀ n ∈ c.nodes, n.Grouped) :
    c.mapExprs Expr.grouped = c := by
  obtain ⟨-, hmethods⟩ := List.forall_mem_append.1 (List.forall_mem_cons.1 hc).2
  have hms : c.methods.map (Method.mapExprs Expr.grouped) = c.methods.map id :=
    List.map_congr_left fun m hm =>
      Method.grouped_eq_self (List.forall_mem_flatMap.1 hmethods m hm)
  rw [ClassDecl.mapExprs, hms, List.map_id]

/-- Grouping leaves a program alone in which each operand holds together tightly enough. -/
theorem Program.grouped_eq_self {p : Program} (hp : ∀ n ∈ p.nodes, n.Grouped) :
    p.mapExprs Expr.grouped = p := by
  obtain ⟨hmain, hclasses⟩ := List.forall_mem_append.1 (List.forall_mem_cons.1 hp).2
  have hcs : p.classes.map (ClassDecl.mapExprs Expr.grouped) = p.classes.map id :=
    List.map_congr_left fun c hc =>
      ClassDecl.grouped_eq_self (List.forall_mem_flatMap.1 hclasses c hc)
  rw [Program.mapExprs, MainClass.mapExprs, p.main.body.grouped_eq_self hmain, hcs, List.map_id]

end MiniJava
