import FormulaSql.Formula.Recursion

/-!
# When two formulas are the same

Formulas are compared node by node. The position of a node in its text does not count, its level
tag does, and floats are compared by value. All searching and replacing in formulas goes by this
comparison, which is the `==` of formulas.
-/

namespace FormulaSql

/-- What a node is apart from its children: its kind with empty gaps. -/
def Kind.shape {α : Type} : Kind α → Kind Unit
  | .literal v => .literal v.canonical
  | k => k.map fun _ => ()

namespace Formula

/-- The tests hold of the formulas, one by one. -/
def allHold : List (Formula → Bool) → List Formula → Bool
  | [], [] => true
  | p :: ps, f :: fs => p f && allHold ps fs
  | _, _ => false

/-- The two formulas are the same up to positions and the spelling of floats. -/
def same (f : Formula) : Formula → Bool :=
  f.recur fun f k g =>
    f.kind.shape == g.kind.shape && f.level == g.level && allHold k.children g.children

instance : BEq Formula := ⟨same⟩

theorem same_eq (f g : Formula) :
    f.same g = (f.kind.shape == g.kind.shape && f.level == g.level &&
      allHold (f.children.map same) g.children) := by
  rw [same, recur_eq, Kind.children_map]
  rfl

theorem allHold_self {fs : List Formula} (h : ∀ f ∈ fs, f.same f = true) :
    allHold (fs.map same) fs = true := by
  induction fs with
  | nil => rfl
  | cons f fs ih =>
    simp [allHold, h f, ih fun g hg => h g (List.mem_cons_of_mem f hg)]

theorem same_refl (f : Formula) : f.same f = true := by
  induction f using induction_children with
  | step f ih => simp [same_eq, allHold_self ih]

instance : ReflBEq Formula := ⟨same_refl _⟩

end Formula

/-- The same specifier with the same dimensions. -/
instance : BEq (Lod Formula) :=
  ⟨fun a b => a.map (fun _ => ()) == b.map (fun _ => ()) && a.dims == b.dims⟩

/-- The same kind of condition on the same expressions. -/
instance : BEq (JoinCondition Formula) := ⟨fun a b => a.parts == b.parts⟩

end FormulaSql
