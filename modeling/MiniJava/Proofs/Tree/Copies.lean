import Mathlib.Data.List.Forall2
import Mathlib.Logic.Relation
import MiniJava.Tree.Spans

/-!
# Copies of trees

A copy of a tree has a node for each of its nodes, with the same fields in it. How the spans of the
copy go with those of the tree, and the names of its identifiers with theirs, is up to two relations.
-/

namespace MiniJava

section

variable (moved : Span → Span → Prop) (named : String → String → Prop)

/-- The second expression is a copy of the first one. -/
inductive Expr.Copies : Expr → Expr → Prop
  | integer {s s' : Span} (v : Int32) (hs : moved s s') : Copies (.integer s v) (.integer s' v)
  | boolean {s s' : Span} (v : Bool) (hs : moved s s') : Copies (.boolean s v) (.boolean s' v)
  | identifier {s s' : Span} {n n' : String} (hs : moved s s') (hn : named n n') :
      Copies (.identifier s n) (.identifier s' n')
  | this {s s' : Span} (hs : moved s s') : Copies (.this s) (.this s')
  | newArray {s s' : Span} {e e' : Expr} (hs : moved s s') (he : Copies e e') :
      Copies (.newArray s e) (.newArray s' e')
  | newObject {s s' : Span} (n : String) (hs : moved s s') :
      Copies (.newObject s n) (.newObject s' n)
  | index {s s' : Span} {a a' i i' : Expr} (hs : moved s s') (ha : Copies a a')
      (hi : Copies i i') : Copies (.index s a i) (.index s' a' i')
  | length {s s' : Span} {a a' : Expr} (hs : moved s s') (ha : Copies a a') :
      Copies (.length s a) (.length s' a')
  | call {s s' : Span} {r r' : Expr} (m : String) {as as' : List Expr} (hs : moved s s')
      (hr : Copies r r') (has : List.Forall₂ Copies as as') :
      Copies (.call s r m as) (.call s' r' m as')
  | not {s s' : Span} {e e' : Expr} (hs : moved s s') (he : Copies e e') :
      Copies (.not s e) (.not s' e')
  | binary {s s' : Span} {l l' : Expr} (op : BinaryOp) {r r' : Expr} (hs : moved s s')
      (hl : Copies l l') (hr : Copies r r') : Copies (.binary s l op r) (.binary s' l' op r')
  | paren {s s' : Span} {e e' : Expr} (hs : moved s s') (he : Copies e e') :
      Copies (.paren s e) (.paren s' e')
  | error {s s' : Span} (hs : moved s s') : Copies (.error s) (.error s')

/-- The second `recur` is a copy of the first one. -/
structure Recur.Copies (r r' : Recur) : Prop where
  span : moved r.span r'.span
  condition : r.condition.Copies moved named r'.condition
  args : List.Forall₂ (Expr.Copies moved named) r.args r'.args
  fallback : r.fallback.Copies moved named r'.fallback

/-- The second statement is a copy of the first one. -/
inductive Stmt.Copies : Stmt → Stmt → Prop
  | block {s s' : Span} {ss ss' : List Stmt} (hs : moved s s') (hss : List.Forall₂ Copies ss ss') :
      Copies (.block s ss) (.block s' ss')
  | ifElse {s s' : Span} {c c' : Expr} {t t' e e' : Stmt} (hs : moved s s')
      (hc : c.Copies moved named c') (ht : Copies t t') (he : Copies e e') :
      Copies (.ifElse s c t e) (.ifElse s' c' t' e')
  | whileLoop {s s' : Span} {c c' : Expr} {b b' : Stmt} (hs : moved s s')
      (hc : c.Copies moved named c') (hb : Copies b b') :
      Copies (.whileLoop s c b) (.whileLoop s' c' b')
  | println {s s' : Span} {v v' : Expr} (hs : moved s s') (hv : v.Copies moved named v') :
      Copies (.println s v) (.println s' v')
  | assign {s s' : Span} (n : String) {v v' : Expr} (hs : moved s s')
      (hv : v.Copies moved named v') : Copies (.assign s n v) (.assign s' n v')
  | assignElement {s s' : Span} (n : String) {i i' v v' : Expr} (hs : moved s s')
      (hi : i.Copies moved named i') (hv : v.Copies moved named v') :
      Copies (.assignElement s n i v) (.assignElement s' n i' v')
  | recur {r r' : Recur} (hr : r.Copies moved named r') : Copies (.recur r) (.recur r')
  | error {s s' : Span} (hs : moved s s') : Copies (.error s) (.error s')

/-- The second variable is a copy of the first one. -/
structure Variable.Copies (v v' : Variable) : Prop where
  span : moved v.span v'.span
  name : v.name = v'.name
  type : v.type = v'.type

/-- The second result is a copy of the first one. -/
inductive MethodResult.Copies : MethodResult → MethodResult → Prop
  | returns {s s' : Span} {e e' : Expr} (hs : moved s s') (he : e.Copies moved named e') :
      Copies (.returns s e) (.returns s' e')
  | recurs {r r' : Recur} (hr : r.Copies moved named r') : Copies (.recurs r) (.recurs r')

/-- The second method is a copy of the first one. -/
structure Method.Copies (m m' : Method) : Prop where
  span : moved m.span m'.span
  name : m.name = m'.name
  returnType : m.returnType = m'.returnType
  params : List.Forall₂ (Variable.Copies moved) m.params m'.params
  locals : List.Forall₂ (Variable.Copies moved) m.locals m'.locals
  body : List.Forall₂ (Stmt.Copies moved named) m.body m'.body
  result : m.result.Copies moved named m'.result

/-- The second class is a copy of the first one. -/
structure ClassDecl.Copies (c c' : ClassDecl) : Prop where
  span : moved c.span c'.span
  name : c.name = c'.name
  superclass : c.superclass = c'.superclass
  fields : List.Forall₂ (Variable.Copies moved) c.fields c'.fields
  methods : List.Forall₂ (Method.Copies moved named) c.methods c'.methods

/-- The second main class is a copy of the first one. -/
structure MainClass.Copies (m m' : MainClass) : Prop where
  span : moved m.span m'.span
  name : m.name = m'.name
  argsName : m.argsName = m'.argsName
  body : m.body.Copies moved named m'.body

/-- The second program is a copy of the first one. -/
structure Program.Copies (p p' : Program) : Prop where
  span : moved p.span p'.span
  main : p.main.Copies moved named p'.main
  classes : List.Forall₂ (ClassDecl.Copies moved named) p.classes p'.classes

end

/-! ## Lists -/

section

variable {α : Type} {R S : α → α → Prop} {as bs : List α}

theorem forall₂_map {f : α → α} (h : ∀ a, R a (f a)) (as : List α) :
    List.Forall₂ R as (as.map f) :=
  List.forall₂_map_right_iff.2 (List.forall₂_same.2 fun a _ => h a)

/-- What a walk does to one after the other, without doing anything else. -/
theorem forall₂_mapM {f : α → Id α} (h : ∀ a, R a (f a).run) (as : List α) :
    List.Forall₂ R as (as.mapM f).run := by
  rw [List.idRun_mapM]
  exact forall₂_map h as

theorem forall₂_symm (h : ∀ a b, R a b → S b a) (hall : List.Forall₂ R as bs) :
    List.Forall₂ S bs as :=
  (hall.imp h).flip

theorem eq_of_forall₂ (h : ∀ a b, R a b → a = b) (hall : List.Forall₂ R as bs) : as = bs := by
  rw [← List.forall₂_eq_eq_eq]
  exact hall.imp h

end

theorem forall₂_comp {α β γ : Type} {R : α → β → Prop} {S : β → γ → Prop} {T : α → γ → Prop}
    (h : ∀ a b c, R a b → S b c → T a c) : ∀ {as : List α} {bs : List β} {cs : List γ},
      List.Forall₂ R as bs → List.Forall₂ S bs cs → List.Forall₂ T as cs
  | _, _, _, .nil, .nil => .nil
  | _, _, _, .cons ha has, .cons hb hbs => .cons (h _ _ _ ha hb) (forall₂_comp h has hbs)

/-! ## Copies of copies -/

open Relation (Comp)

section

variable {moved moved' : Span → Span → Prop} {named named' : String → String → Prop}

mutual

theorem Expr.Copies.comp : ∀ {e f g : Expr}, e.Copies moved named f → f.Copies moved' named' g →
    e.Copies (Comp moved moved') (Comp named named') g
  | .integer .., _, _, .integer v hs, .integer _ hs' => .integer v ⟨_, hs, hs'⟩
  | .boolean .., _, _, .boolean v hs, .boolean _ hs' => .boolean v ⟨_, hs, hs'⟩
  | .identifier .., _, _, .identifier hs hn, .identifier hs' hn' =>
    .identifier ⟨_, hs, hs'⟩ ⟨_, hn, hn'⟩
  | .this _, _, _, .this hs, .this hs' => .this ⟨_, hs, hs'⟩
  | .newArray .., _, _, .newArray hs he, .newArray hs' he' => .newArray ⟨_, hs, hs'⟩ (he.comp he')
  | .newObject .., _, _, .newObject n hs, .newObject _ hs' => .newObject n ⟨_, hs, hs'⟩
  | .index .., _, _, .index hs ha hi, .index hs' ha' hi' =>
    .index ⟨_, hs, hs'⟩ (ha.comp ha') (hi.comp hi')
  | .length .., _, _, .length hs ha, .length hs' ha' => .length ⟨_, hs, hs'⟩ (ha.comp ha')
  | .call .., _, _, .call m hs hr has, .call _ hs' hr' has' =>
    .call m ⟨_, hs, hs'⟩ (hr.comp hr') (copiesList_comp has has')
  | .not .., _, _, .not hs he, .not hs' he' => .not ⟨_, hs, hs'⟩ (he.comp he')
  | .binary .., _, _, .binary op hs hl hr, .binary _ hs' hl' hr' =>
    .binary op ⟨_, hs, hs'⟩ (hl.comp hl') (hr.comp hr')
  | .paren .., _, _, .paren hs he, .paren hs' he' => .paren ⟨_, hs, hs'⟩ (he.comp he')
  | .error _, _, _, .error hs, .error hs' => .error ⟨_, hs, hs'⟩

theorem Expr.copiesList_comp : ∀ {es fs gs : List Expr},
    List.Forall₂ (Expr.Copies moved named) es fs → List.Forall₂ (Expr.Copies moved' named') fs gs →
      List.Forall₂ (Expr.Copies (Comp moved moved') (Comp named named')) es gs
  | [], _, _, .nil, .nil => .nil
  | _ :: _, _, _, .cons he hes, .cons he' hes' => .cons (he.comp he') (copiesList_comp hes hes')

end

theorem Recur.Copies.comp {q r s : Recur} (h : q.Copies moved named r)
    (h' : r.Copies moved' named' s) : q.Copies (Comp moved moved') (Comp named named') s :=
  ⟨⟨_, h.span, h'.span⟩, h.condition.comp h'.condition, Expr.copiesList_comp h.args h'.args,
    h.fallback.comp h'.fallback⟩

mutual

theorem Stmt.Copies.comp : ∀ {s t u : Stmt}, s.Copies moved named t → t.Copies moved' named' u →
    s.Copies (Comp moved moved') (Comp named named') u
  | .block .., _, _, .block hs hss, .block hs' hss' =>
    .block ⟨_, hs, hs'⟩ (copiesList_comp hss hss')
  | .ifElse .., _, _, .ifElse hs hc ht he, .ifElse hs' hc' ht' he' =>
    .ifElse ⟨_, hs, hs'⟩ (hc.comp hc') (ht.comp ht') (he.comp he')
  | .whileLoop .., _, _, .whileLoop hs hc hb, .whileLoop hs' hc' hb' =>
    .whileLoop ⟨_, hs, hs'⟩ (hc.comp hc') (hb.comp hb')
  | .println .., _, _, .println hs hv, .println hs' hv' => .println ⟨_, hs, hs'⟩ (hv.comp hv')
  | .assign .., _, _, .assign n hs hv, .assign _ hs' hv' => .assign n ⟨_, hs, hs'⟩ (hv.comp hv')
  | .assignElement .., _, _, .assignElement n hs hi hv, .assignElement _ hs' hi' hv' =>
    .assignElement n ⟨_, hs, hs'⟩ (hi.comp hi') (hv.comp hv')
  | .recur _, _, _, .recur hr, .recur hr' => .recur (hr.comp hr')
  | .error _, _, _, .error hs, .error hs' => .error ⟨_, hs, hs'⟩

theorem Stmt.copiesList_comp : ∀ {ss ts us : List Stmt},
    List.Forall₂ (Stmt.Copies moved named) ss ts → List.Forall₂ (Stmt.Copies moved' named') ts us →
      List.Forall₂ (Stmt.Copies (Comp moved moved') (Comp named named')) ss us
  | [], _, _, .nil, .nil => .nil
  | _ :: _, _, _, .cons hs hss, .cons hs' hss' => .cons (hs.comp hs') (copiesList_comp hss hss')

end

theorem Variable.Copies.comp {v w x : Variable} (h : v.Copies moved w) (h' : w.Copies moved' x) :
    v.Copies (Comp moved moved') x :=
  ⟨⟨_, h.span, h'.span⟩, h.name.trans h'.name, h.type.trans h'.type⟩

theorem MethodResult.Copies.comp : ∀ {q r s : MethodResult}, q.Copies moved named r →
    r.Copies moved' named' s → q.Copies (Comp moved moved') (Comp named named') s
  | _, _, _, .returns hs he, .returns hs' he' => .returns ⟨_, hs, hs'⟩ (he.comp he')
  | _, _, _, .recurs hr, .recurs hr' => .recurs (hr.comp hr')

theorem Method.Copies.comp {l m n : Method} (h : l.Copies moved named m)
    (h' : m.Copies moved' named' n) : l.Copies (Comp moved moved') (Comp named named') n where
  span := ⟨_, h.span, h'.span⟩
  name := h.name.trans h'.name
  returnType := h.returnType.trans h'.returnType
  params := forall₂_comp (fun _ _ _ h h' => h.comp h') h.params h'.params
  locals := forall₂_comp (fun _ _ _ h h' => h.comp h') h.locals h'.locals
  body := Stmt.copiesList_comp h.body h'.body
  result := h.result.comp h'.result

theorem ClassDecl.Copies.comp {b c d : ClassDecl} (h : b.Copies moved named c)
    (h' : c.Copies moved' named' d) : b.Copies (Comp moved moved') (Comp named named') d where
  span := ⟨_, h.span, h'.span⟩
  name := h.name.trans h'.name
  superclass := h.superclass.trans h'.superclass
  fields := forall₂_comp (fun _ _ _ h h' => h.comp h') h.fields h'.fields
  methods := forall₂_comp (fun _ _ _ h h' => h.comp h') h.methods h'.methods

theorem MainClass.Copies.comp {l m n : MainClass} (h : l.Copies moved named m)
    (h' : m.Copies moved' named' n) : l.Copies (Comp moved moved') (Comp named named') n :=
  ⟨⟨_, h.span, h'.span⟩, h.name.trans h'.name, h.argsName.trans h'.argsName, h.body.comp h'.body⟩

/-- A copy of a copy is a copy. -/
theorem Program.Copies.comp {p q r : Program} (h : p.Copies moved named q)
    (h' : q.Copies moved' named' r) : p.Copies (Comp moved moved') (Comp named named') r :=
  ⟨⟨_, h.span, h'.span⟩, h.main.comp h'.main,
    forall₂_comp (fun _ _ _ h h' => h.comp h') h.classes h'.classes⟩

end

/-! ## What a tree is a copy of -/

section

variable {moved : Span → Span → Prop} {named : String → String → Prop}

mutual

theorem Expr.Copies.symm : ∀ {e f : Expr}, e.Copies moved named f →
    f.Copies (flip moved) (flip named) e
  | .integer .., _, .integer v hs => .integer v hs
  | .boolean .., _, .boolean v hs => .boolean v hs
  | .identifier .., _, .identifier hs hn => .identifier hs hn
  | .this _, _, .this hs => .this hs
  | .newArray .., _, .newArray hs he => .newArray hs he.symm
  | .newObject .., _, .newObject n hs => .newObject n hs
  | .index .., _, .index hs ha hi => .index hs ha.symm hi.symm
  | .length .., _, .length hs ha => .length hs ha.symm
  | .call .., _, .call m hs hr has => .call m hs hr.symm (copiesList_symm has)
  | .not .., _, .not hs he => .not hs he.symm
  | .binary .., _, .binary op hs hl hr => .binary op hs hl.symm hr.symm
  | .paren .., _, .paren hs he => .paren hs he.symm
  | .error _, _, .error hs => .error hs

theorem Expr.copiesList_symm : ∀ {es fs : List Expr},
    List.Forall₂ (Expr.Copies moved named) es fs →
      List.Forall₂ (Expr.Copies (flip moved) (flip named)) fs es
  | [], _, .nil => .nil
  | _ :: _, _, .cons he hes => .cons he.symm (copiesList_symm hes)

end

theorem Recur.Copies.symm {q r : Recur} (h : q.Copies moved named r) :
    r.Copies (flip moved) (flip named) q :=
  ⟨h.span, h.condition.symm, Expr.copiesList_symm h.args, h.fallback.symm⟩

mutual

theorem Stmt.Copies.symm : ∀ {s t : Stmt}, s.Copies moved named t →
    t.Copies (flip moved) (flip named) s
  | .block .., _, .block hs hss => .block hs (copiesList_symm hss)
  | .ifElse .., _, .ifElse hs hc ht he => .ifElse hs hc.symm ht.symm he.symm
  | .whileLoop .., _, .whileLoop hs hc hb => .whileLoop hs hc.symm hb.symm
  | .println .., _, .println hs hv => .println hs hv.symm
  | .assign .., _, .assign n hs hv => .assign n hs hv.symm
  | .assignElement .., _, .assignElement n hs hi hv => .assignElement n hs hi.symm hv.symm
  | .recur _, _, .recur hr => .recur hr.symm
  | .error _, _, .error hs => .error hs

theorem Stmt.copiesList_symm : ∀ {ss ts : List Stmt},
    List.Forall₂ (Stmt.Copies moved named) ss ts →
      List.Forall₂ (Stmt.Copies (flip moved) (flip named)) ts ss
  | [], _, .nil => .nil
  | _ :: _, _, .cons hs hss => .cons hs.symm (copiesList_symm hss)

end

theorem Variable.Copies.symm {v w : Variable} (h : v.Copies moved w) : w.Copies (flip moved) v :=
  ⟨h.span, h.name.symm, h.type.symm⟩

theorem MethodResult.Copies.symm : ∀ {q r : MethodResult}, q.Copies moved named r →
    r.Copies (flip moved) (flip named) q
  | _, _, .returns hs he => .returns hs he.symm
  | _, _, .recurs hr => .recurs hr.symm

theorem Method.Copies.symm {l m : Method} (h : l.Copies moved named m) :
    m.Copies (flip moved) (flip named) l where
  span := h.span
  name := h.name.symm
  returnType := h.returnType.symm
  params := forall₂_symm (fun _ _ h => h.symm) h.params
  locals := forall₂_symm (fun _ _ h => h.symm) h.locals
  body := Stmt.copiesList_symm h.body
  result := h.result.symm

theorem ClassDecl.Copies.symm {b c : ClassDecl} (h : b.Copies moved named c) :
    c.Copies (flip moved) (flip named) b where
  span := h.span
  name := h.name.symm
  superclass := h.superclass.symm
  fields := forall₂_symm (fun _ _ h => h.symm) h.fields
  methods := forall₂_symm (fun _ _ h => h.symm) h.methods

theorem MainClass.Copies.symm {l m : MainClass} (h : l.Copies moved named m) :
    m.Copies (flip moved) (flip named) l :=
  ⟨h.span, h.name.symm, h.argsName.symm, h.body.symm⟩

/-- A tree is a copy of its copies. -/
theorem Program.Copies.symm {p q : Program} (h : p.Copies moved named q) :
    q.Copies (flip moved) (flip named) p :=
  ⟨h.span, h.main.symm, forall₂_symm (fun _ _ h => h.symm) h.classes⟩

end

/-! ## Copies with nothing changed -/

attribute [ext] Recur Variable Method ClassDecl MainClass Program

section

variable {moved : Span → Span → Prop} {named : String → String → Prop}

mutual

theorem Expr.Copies.eq (hm : moved ≤ Eq) (hn : named ≤ Eq) :
    ∀ {e f : Expr}, e.Copies moved named f → e = f
  | .integer .., _, .integer v hs => congrArg (Expr.integer · v) (hm _ _ hs)
  | .boolean .., _, .boolean v hs => congrArg (Expr.boolean · v) (hm _ _ hs)
  | .identifier .., _, .identifier hs hname => congrArg₂ _ (hm _ _ hs) (hn _ _ hname)
  | .this _, _, .this hs => congrArg _ (hm _ _ hs)
  | .newArray .., _, .newArray hs he => congrArg₂ _ (hm _ _ hs) (he.eq hm hn)
  | .newObject .., _, .newObject n hs => congrArg (Expr.newObject · n) (hm _ _ hs)
  | .index .., _, .index hs ha hi => by rw [hm _ _ hs, ha.eq hm hn, hi.eq hm hn]
  | .length .., _, .length hs ha => congrArg₂ _ (hm _ _ hs) (ha.eq hm hn)
  | .call .., _, .call _ hs hr has => by
    rw [hm _ _ hs, hr.eq hm hn, eq_of_copiesList hm hn has]
  | .not .., _, .not hs he => congrArg₂ _ (hm _ _ hs) (he.eq hm hn)
  | .binary .., _, .binary _ hs hl hr => by rw [hm _ _ hs, hl.eq hm hn, hr.eq hm hn]
  | .paren .., _, .paren hs he => congrArg₂ _ (hm _ _ hs) (he.eq hm hn)
  | .error _, _, .error hs => congrArg _ (hm _ _ hs)

theorem Expr.eq_of_copiesList (hm : moved ≤ Eq) (hn : named ≤ Eq) :
    ∀ {es fs : List Expr}, List.Forall₂ (Expr.Copies moved named) es fs → es = fs
  | [], _, .nil => rfl
  | _ :: _, _, .cons he hes => congrArg₂ _ (he.eq hm hn) (eq_of_copiesList hm hn hes)

end

theorem Recur.Copies.eq (hm : moved ≤ Eq) (hn : named ≤ Eq) {q r : Recur}
    (h : q.Copies moved named r) : q = r :=
  Recur.ext (hm _ _ h.span) (h.condition.eq hm hn) (Expr.eq_of_copiesList hm hn h.args)
    (h.fallback.eq hm hn)

mutual

theorem Stmt.Copies.eq (hm : moved ≤ Eq) (hn : named ≤ Eq) :
    ∀ {s t : Stmt}, s.Copies moved named t → s = t
  | .block .., _, .block hs hss => congrArg₂ _ (hm _ _ hs) (eq_of_copiesList hm hn hss)
  | .ifElse .., _, .ifElse hs hc ht he => by
    rw [hm _ _ hs, hc.eq hm hn, ht.eq hm hn, he.eq hm hn]
  | .whileLoop .., _, .whileLoop hs hc hb => by rw [hm _ _ hs, hc.eq hm hn, hb.eq hm hn]
  | .println .., _, .println hs hv => congrArg₂ _ (hm _ _ hs) (hv.eq hm hn)
  | .assign .., _, .assign n hs hv =>
    congrArg₂ (Stmt.assign · n ·) (hm _ _ hs) (hv.eq hm hn)
  | .assignElement .., _, .assignElement _ hs hi hv => by
    rw [hm _ _ hs, hi.eq hm hn, hv.eq hm hn]
  | .recur _, _, .recur hr => congrArg _ (hr.eq hm hn)
  | .error _, _, .error hs => congrArg _ (hm _ _ hs)

theorem Stmt.eq_of_copiesList (hm : moved ≤ Eq) (hn : named ≤ Eq) :
    ∀ {ss ts : List Stmt}, List.Forall₂ (Stmt.Copies moved named) ss ts → ss = ts
  | [], _, .nil => rfl
  | _ :: _, _, .cons hs hss => congrArg₂ _ (hs.eq hm hn) (eq_of_copiesList hm hn hss)

end

theorem Variable.Copies.eq (hm : moved ≤ Eq) {v w : Variable} (h : v.Copies moved w) : v = w :=
  Variable.ext (hm _ _ h.span) h.name h.type

theorem MethodResult.Copies.eq (hm : moved ≤ Eq) (hn : named ≤ Eq) :
    ∀ {q r : MethodResult}, q.Copies moved named r → q = r
  | _, _, .returns hs he => congrArg₂ _ (hm _ _ hs) (he.eq hm hn)
  | _, _, .recurs hr => congrArg _ (hr.eq hm hn)

theorem Method.Copies.eq (hm : moved ≤ Eq) (hn : named ≤ Eq) {l m : Method}
    (h : l.Copies moved named m) : l = m :=
  Method.ext (hm _ _ h.span) h.name h.returnType (eq_of_forall₂ (fun _ _ h => h.eq hm) h.params)
    (eq_of_forall₂ (fun _ _ h => h.eq hm) h.locals) (Stmt.eq_of_copiesList hm hn h.body)
    (h.result.eq hm hn)

theorem ClassDecl.Copies.eq (hm : moved ≤ Eq) (hn : named ≤ Eq) {b c : ClassDecl}
    (h : b.Copies moved named c) : b = c :=
  ClassDecl.ext (hm _ _ h.span) h.name h.superclass
    (eq_of_forall₂ (fun _ _ h => h.eq hm) h.fields)
    (eq_of_forall₂ (fun _ _ h => h.eq hm hn) h.methods)

theorem MainClass.Copies.eq (hm : moved ≤ Eq) (hn : named ≤ Eq) {l m : MainClass}
    (h : l.Copies moved named m) : l = m :=
  MainClass.ext (hm _ _ h.span) h.name h.argsName (h.body.eq hm hn)

/-- A copy is the tree itself if nothing in it can change. -/
theorem Program.Copies.eq (hm : moved ≤ Eq) (hn : named ≤ Eq) {p q : Program}
    (h : p.Copies moved named q) : p = q :=
  Program.ext (hm _ _ h.span) (h.main.eq hm hn)
    (eq_of_forall₂ (fun _ _ h => h.eq hm hn) h.classes)

/-- A program has one copy at most if the spans and the names of its nodes say what those are. -/
theorem Program.Copies.unique (hm : Relator.RightUnique moved) (hn : Relator.RightUnique named)
    {p q r : Program} (hq : p.Copies moved named q) (hr : p.Copies moved named r) : q = r :=
  (hq.symm.comp hr).eq (fun _ _ ⟨_, hs, ht⟩ => hm hs ht) (fun _ _ ⟨_, hk, hl⟩ => hn hk hl)

end

end MiniJava
