import MiniJava.Proofs.Tree.Editing

/-!
# Renaming identifiers

A walk that gives new names to the identifiers among the expressions leaves a copy of the program
in which these names are replaced, all of them at once, and nothing else is.
-/

open Relation (Comp)

namespace MiniJava

/-! ## Names for names -/

/-- Names, each with the name that stands in for it. The first entry for a name counts. -/
abbrev NameMap := List (String × String)

namespace NameMap

/-- What stands in for a name: the name itself if nothing else does. -/
def image (r : NameMap) (n : String) : String := (r.lookup n).getD n

/-- What stands in for a name if first `r` and then `s` is applied. -/
def andThen (r s : NameMap) : NameMap := r.map (fun entry => (entry.1, s.image entry.2)) ++ s

theorem lookup_map_snd (f : String → String) (n : String) : ∀ r : NameMap,
    (r.map fun entry => (entry.1, f entry.2)).lookup n = (r.lookup n).map f
  | [] => rfl
  | (m, k) :: r => by
    simp only [List.map_cons, List.lookup_cons, lookup_map_snd f n r]
    cases n == m <;> rfl

theorem image_andThen (r s : NameMap) (n : String) :
    (r.andThen s).image n = s.image (r.image n) := by
  unfold andThen
  rw [image, List.lookup_append, lookup_map_snd]
  cases h : r.lookup n with
  | none => simp [image, h]
  | some k => simp [image, h]

/-- Two names change places, and then one of them is replaced. -/
example : (andThen [("x", "y"), ("y", "x")] [("x", "z")]).image "y" = "z" := by decide

end NameMap

/-! ## What the walk leaves -/

theorem Expr.withSpan_span (e : Expr) : e.withSpan e.span = e := by
  cases e <;> rfl

theorem Stmt.withSpan_span (s : Stmt) : s.withSpan s.span = s := by
  cases s <;> rfl

theorem MethodResult.withSpan_span (r : MethodResult) : r.withSpan r.span = r := by
  cases r <;> rfl

theorem Visits.renaming_eq (f : String → String) : Visits.renaming f = editing id f := by
  simp only [Visits.renaming, editing, id, Expr.withSpan_span, Stmt.withSpan_span,
    MethodResult.withSpan_span]
  rfl

variable (f : String → String)

/-- The program with other names for the identifiers among its expressions. -/
def Program.renamed (p : Program) : Program := Id.run (p.visit (Visits.renaming f))

/-- A visitor that goes below every node and only renames makes the same walk. -/
theorem Program.walk_renaming (p : Program) :
    Id.run (p.walk { enter := fun _ => pure true, rename := f }) = p.renamed f :=
  rfl

theorem Program.copies_renamed (p : Program) : p.Copies Eq (f · = ·) (p.renamed f) := by
  have hcopies := p.copies_visit_editing id f
  rw [← Visits.renaming_eq] at hcopies
  exact hcopies

variable {f}

/-- A copy in which nothing but the names is changed is the only one with these names. -/
theorem Program.eq_renamed {p q : Program} (h : p.Copies Eq (f · = ·) q) : q = p.renamed f :=
  h.unique (fun _ _ _ hs ht => hs.symm.trans ht) (fun _ _ _ hm hn => hm.symm.trans hn)
    (p.copies_renamed f)

theorem Program.renamed_renamed (f g : String → String) (p : Program) :
    (p.renamed f).renamed g = p.renamed (g ∘ f) := by
  have hcopies := (p.copies_renamed f).comp ((p.renamed f).copies_renamed g)
  have hnames : Comp (f · = ·) (g · = ·) = ((g ∘ f) · = ·) := by
    ext m n
    exact ⟨fun ⟨_, hm, hn⟩ => (congrArg g hm).trans hn, fun h => ⟨f m, rfl, h⟩⟩
  rw [Relation.comp_eq, hnames] at hcopies
  exact eq_renamed hcopies

/--
Renaming by a map replaces each identifier among the expressions by what stands in for it, and
leaves everything else as it is; so does a visitor that goes below every node. Renaming by two maps
in a row is renaming by one.
-/
theorem Program.renaming_exact (r s : NameMap) (p : Program) :
    (∀ q, p.Copies Eq (r.image · = ·) q ↔ q = p.renamed r.image) ∧
      Id.run (p.walk { enter := fun _ => pure true, rename := r.image }) = p.renamed r.image ∧
      (p.renamed r.image).renamed s.image = p.renamed (r.andThen s).image ∧
      ∀ n, (r.andThen s).image n = s.image (r.image n) := by
  refine ⟨fun q => ⟨eq_renamed, ?_⟩, p.walk_renaming r.image, ?_, NameMap.image_andThen r s⟩
  · rintro rfl
    exact p.copies_renamed r.image
  · rw [p.renamed_renamed]
    exact congrArg p.renamed (funext fun n => (NameMap.image_andThen r s n).symm)

end MiniJava
