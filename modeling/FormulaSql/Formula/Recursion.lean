import FormulaSql.Formula.Basic

/-!
# Recursion over formulas

Every function on whole formulas is given by one step: what to do at a node once its children are
done. `Formula.recur` runs such a step over a tree, and `recur_eq` is the equation that all
reasoning about it starts from. The companion functions only spell out the fields in which
children stand.
-/

namespace FormulaSql.Formula

variable {β : Type}

mutual

/-- Runs `step` from the leaves up. The step sees the node itself and its kind with the results of
the children in their places. -/
def recur (step : Formula → Kind β → β) : Formula → β
  | .mk k n => step (.mk k n) (recurKind step k)

def recurKind (step : Formula → Kind β → β) : Kind Formula → Kind β
  | .field n => .field n
  | .literal v => .literal v
  | .paren e => .paren (recur step e)
  | .call c => .call (recurCall step c)
  | .window w => .window (recurWindow step w)
  | .binary op l r => .binary op (recur step l) (recur step r)
  | .unary op e => .unary op (recur step e)
  | .ternary op a b c => .ternary op (recur step a) (recur step b) (recur step c)
  | .ifBlock bs e => .ifBlock (recurBranches step bs) (recur step e)
  | .caseBlock s bs e => .caseBlock (recur step s) (recurBranches step bs) (recur step e)
  | .ordered e d => .ordered (recur step e) d
  | .fork q => .fork (recurFork step q)
  | .error m c => .error m c

def recurCall (step : Formula → Kind β → β) : Call Formula → Call β
  | ⟨name, args, lod, ignored, bfb⟩ =>
    ⟨name, recurAll step args, recurLod step lod, recurAll step ignored, bfb⟩

def recurWindow (step : Formula → Kind β → β) : WindowCall Formula → WindowCall β
  | ⟨name, args, grouping, ordering, bfb⟩ =>
    ⟨name, recurAll step args, recurGrouping step grouping, recurAll step ordering, bfb⟩

def recurFork (step : Formula → Kind β → β) : Fork Formula → Fork β
  | ⟨joinType, result, joining, lod, bfb, shifts⟩ =>
    ⟨joinType, recur step result, recurJoins step joining, recurLod step lod, bfb,
      recurShifts step shifts⟩

def recurLod (step : Formula → Kind β → β) : Lod Formula → Lod β
  | .inherited => .inherited
  | .defaultAggregation => .defaultAggregation
  | .fixed ds => .fixed (recurAll step ds)
  | .including ds => .including (recurAll step ds)
  | .excluding ds => .excluding (recurAll step ds)

def recurGrouping (step : Formula → Kind β → β) : Grouping Formula → Grouping β
  | .total => .total
  | .within ds => .within (recurAll step ds)
  | .among ds => .among (recurAll step ds)

def recurAll (step : Formula → Kind β → β) : List Formula → List β
  | [] => []
  | f :: fs => recur step f :: recurAll step fs

def recurBranch (step : Formula → Kind β → β) : Branch Formula → Branch β
  | ⟨test, value⟩ => ⟨recur step test, recur step value⟩

def recurBranches (step : Formula → Kind β → β) : List (Branch Formula) → List (Branch β)
  | [] => []
  | b :: bs => recurBranch step b :: recurBranches step bs

def recurJoin (step : Formula → Kind β → β) : JoinCondition Formula → JoinCondition β
  | .same e => .same (recur step e)
  | .pair e e' => .pair (recur step e) (recur step e')

def recurJoins (step : Formula → Kind β → β) : List (JoinCondition Formula) → List (JoinCondition β)
  | [] => []
  | j :: js => recurJoin step j :: recurJoins step js

def recurShift (step : Formula → Kind β → β) : FilterShift Formula → FilterShift β
  | ⟨source, target⟩ => ⟨recur step source, recur step target⟩

def recurShifts (step : Formula → Kind β → β) : List (FilterShift Formula) → List (FilterShift β)
  | [] => []
  | s :: ss => recurShift step s :: recurShifts step ss

end

/-! ## The recursion equation -/

section Equation

variable (step : Formula → Kind β → β)

theorem recurAll_eq (fs : List Formula) : recurAll step fs = fs.map (recur step) := by
  induction fs with
  | nil => rfl
  | cons f fs ih => simp [recurAll, ih]

theorem recurBranches_eq (bs : List (Branch Formula)) :
    recurBranches step bs = bs.map (·.map (recur step)) := by
  induction bs with
  | nil => rfl
  | cons b bs ih => cases b; simp [recurBranches, recurBranch, Branch.map, ih]

theorem recurJoins_eq (js : List (JoinCondition Formula)) :
    recurJoins step js = js.map (·.map (recur step)) := by
  induction js with
  | nil => rfl
  | cons j js ih => cases j <;> simp [recurJoins, recurJoin, JoinCondition.map, ih]

theorem recurShifts_eq (ss : List (FilterShift Formula)) :
    recurShifts step ss = ss.map (·.map (recur step)) := by
  induction ss with
  | nil => rfl
  | cons s ss ih => cases s; simp [recurShifts, recurShift, FilterShift.map, ih]

theorem recurLod_eq (l : Lod Formula) : recurLod step l = l.map (recur step) := by
  cases l <;> simp [recurLod, Lod.map, Lod.withDims, Lod.dims, recurAll_eq]

theorem recurGrouping_eq (g : Grouping Formula) :
    recurGrouping step g = g.map (recur step) := by
  cases g <;> simp [recurGrouping, Grouping.map, Grouping.withDims, Grouping.dims, recurAll_eq]

theorem recurKind_eq (k : Kind Formula) : recurKind step k = k.map (recur step) := by
  cases k with
  | call c =>
    cases c; simp [recurKind, recurCall, Kind.map, recurAll_eq, recurLod_eq]
  | window w =>
    cases w; simp [recurKind, recurWindow, Kind.map, recurAll_eq, recurGrouping_eq]
  | fork q =>
    cases q; simp [recurKind, recurFork, Kind.map, recurJoins_eq, recurLod_eq, recurShifts_eq]
  | ifBlock | caseBlock => simp [recurKind, Kind.map, recurBranches_eq]
  | _ => rfl

/-- At every node the step is applied to the node and the results of its children. -/
theorem recur_eq (f : Formula) : recur step f = step f (f.kind.map (recur step)) := by
  cases f with
  | mk k n => rw [recur, recurKind_eq]; rfl

end Equation

/-! ## Induction on children -/

/-- The number of nodes. -/
def size (f : Formula) : Nat := f.recur fun _ k => k.children.foldr Nat.add 1

theorem size_eq (f : Formula) : f.size = (f.children.map size).foldr Nat.add 1 := by
  rw [size, recur_eq, Kind.children_map]
  rfl

theorem foldr_add_pos (ns : List Nat) : 0 < ns.foldr Nat.add 1 := by
  induction ns with
  | nil => exact Nat.one_pos
  | cons m ms ih => exact Nat.lt_of_lt_of_le ih (Nat.le_add_left _ m)

theorem lt_foldr_add_of_mem {n : Nat} {ns : List Nat} (h : n ∈ ns) : n < ns.foldr Nat.add 1 := by
  induction ns with
  | nil => cases h
  | cons m ms ih =>
    rcases List.mem_cons.mp h with rfl | h
    · exact Nat.lt_add_of_pos_right (foldr_add_pos ms)
    · exact Nat.lt_of_lt_of_le (ih h) (Nat.le_add_left _ m)

theorem size_lt_of_mem_children {c f : Formula} (h : c ∈ f.children) : c.size < f.size := by
  rw [size_eq f]
  exact lt_foldr_add_of_mem (List.mem_map_of_mem h)

/-- A property holds of every formula if it holds of a node whenever it holds of the children. -/
theorem induction_children {P : Formula → Prop}
    (step : ∀ f, (∀ c ∈ f.children, P c) → P f) (f : Formula) : P f :=
  step f fun c hc =>
    have : c.size < f.size := size_lt_of_mem_children hc
    induction_children step c
termination_by f.size

/-! ## The nodes of a formula -/

/-- Every node of the tree, a node before its children. -/
def nodes (f : Formula) : List Formula := f.recur fun f k => f :: k.children.flatten

theorem nodes_eq (f : Formula) : f.nodes = f :: f.children.flatMap nodes := by
  rw [nodes, recur_eq, Kind.children_map, List.flatMap_def]
  rfl

/-- Some node of the tree satisfies `p`. -/
def any (f : Formula) (p : Formula → Bool) : Bool := f.nodes.any p

end FormulaSql.Formula
