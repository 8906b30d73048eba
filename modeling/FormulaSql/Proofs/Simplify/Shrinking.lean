import FormulaSql.Proofs.Query.Contexts
import FormulaSql.Proofs.Simplify.Pruning
import FormulaSql.Simplify.Optimize
import Mathlib.Algebra.GroupWithZero.Nat

/-!
# Simplifying only takes nodes away

Every rule of simplification puts fewer nodes in the place of those it finds. So what comes out of a
rule, a round or all of them is the formula itself or a smaller one, and no two formulas on the way
equal each other: that nothing has changed can be told by the number of nodes.

* `Simplify.shrinks_rules` is the case analysis of the rules
* `Rule.Shrinks.renews`: what a rule offers never equals what stood there before
* `Formula.shrunk_settle`: rounds of such rules leave a formula alone or make it smaller
-/

namespace FormulaSql

namespace Formula

variable {f g h r c : Formula}

/-! ## Sizes -/

theorem size_eq_sum (f : Formula) : f.size = (f.children.map size).sum + 1 := by
  have hfoldr (ns : List Nat) : ns.foldr Nat.add 1 = ns.sum + 1 := by
    induction ns with
    | nil => rfl
    | cons n ns ih => rw [List.foldr_cons, ih, List.sum_cons, Nat.add_assoc]; rfl
  rw [size_eq, hfoldr]

theorem size_pos (f : Formula) : 0 < f.size := by
  rw [size_eq_sum]
  exact Nat.succ_pos _

theorem one_lt_size_of_child (hc : c ∈ f.children) : 1 < f.size :=
  Nat.lt_of_le_of_lt (size_pos c) (size_lt_of_mem_children hc)

/-- Every formula that is left out counts for one node at least. -/
theorem sum_size_of_sublist {xs ys : List Formula} (h : xs.Sublist ys) :
    (xs.map size).sum + ys.length ≤ (ys.map size).sum + xs.length := by
  induction h with
  | slnil => exact Nat.le_refl _
  | cons y _ ih =>
      have hy := size_pos y
      rw [List.map_cons, List.sum_cons, List.length_cons]
      omega
  | cons_cons y _ ih =>
      simp only [List.map_cons, List.sum_cons, List.length_cons]
      omega

theorem size_lt_of_sublist (h : r.children.Sublist f.children)
    (hlength : r.children.length < f.children.length) : r.size < f.size := by
  have hsum := sum_size_of_sublist h
  rw [size_eq_sum, size_eq_sum f]
  omega

/-! ## The same or smaller -/

/-- Nothing has happened, or nodes have been taken away. -/
def Shrunk (f g : Formula) : Prop := g = f ∨ g.size < f.size

theorem Shrunk.refl (f : Formula) : Shrunk f f := Or.inl rfl

theorem Shrunk.size_le (h : Shrunk f g) : g.size ≤ f.size := by
  rcases h with rfl | h
  · exact Nat.le_refl _
  · exact Nat.le_of_lt h

theorem Shrunk.trans (hg : Shrunk f g) (hh : Shrunk g h) : Shrunk f h := by
  rcases hh with rfl | hh
  · exact hg
  · exact Or.inr (Nat.lt_of_lt_of_le hh hg.size_le)

/-- What equals the formula it has come out of is that formula. -/
theorem Shrunk.beq_iff (h : Shrunk f g) : (g == f) = true ↔ g = f := by
  constructor
  · intro hsame
    exact h.resolve_right (Nat.not_lt_of_le (Nat.le_of_eq (size_eq_of_same hsame).symm))
  · rintro rfl
    exact BEq.rfl

theorem shrunk_children {xs ys : List Formula} (h : List.Forall₂ Shrunk xs ys) :
    ys = xs ∨ (ys.map size).sum < (xs.map size).sum := by
  induction h with
  | nil => exact Or.inl rfl
  | cons hxy _ ih =>
      have hle := hxy.size_le
      simp only [List.map_cons, List.sum_cons]
      rcases hxy with rfl | hlt
      · rcases ih with rfl | ih
        · exact Or.inl rfl
        · exact Or.inr (Nat.add_lt_add_left ih _)
      · rcases ih with rfl | ih
        · exact Or.inr (Nat.add_lt_add_right hlt _)
        · exact Or.inr (Nat.add_lt_add hlt ih)

theorem shrunk_withChildren {cs : List Formula} (h : List.Forall₂ Shrunk f.children cs) :
    Shrunk f (f.withChildren cs) := by
  rcases shrunk_children h with rfl | hlt
  · exact Or.inl (withChildren_children f)
  · right
    rw [size_eq_sum, size_eq_sum f, children_withChildren f cs h.length_eq.symm]
    exact Nat.succ_lt_succ hlt

end Formula

/-! ## Rules that shrink what they look at -/

/-- The rule puts fewer nodes in the place of those it finds. -/
def Rule.Shrinks (rule : Rule) : Prop :=
  ∀ above f r, rule above f = some r → r.size < f.size

namespace Formula

variable {rule : Rule} {rules : List Rule}

theorem shrunk_transformBelow (hrule : rule.Shrinks) (f : Formula) (above : List Formula) :
    Shrunk f (f.transformBelow rule above) := by
  refine transformBelow_rel (Q := fun _ => True) (fun _ _ _ _ => trivial) (fun f _ => .refl f)
    (fun f cs _ hcs => shrunk_withChildren hcs) ?_ trivial fun _ _ => trivial
  exact fun above f g r _ _ hg hr => hg.trans (Or.inr (hrule above g r hr))

end Formula

/-- What is offered is smaller than what stood there before, so it does not equal it. -/
theorem Rule.Shrinks.renews {rule : Rule} (hrule : rule.Shrinks) : rule.Renews := by
  intro above f r hr
  rw [← Bool.not_eq_true]
  intro hsame
  have hle := (Formula.shrunk_transformBelow hrule f above).size_le
  have hlt := Nat.lt_of_lt_of_le (hrule above _ r hr) hle
  exact absurd (Formula.size_eq_of_same hsame) (Nat.ne_of_lt hlt)

namespace Formula

variable {rule : Rule} {rules : List Rule}

theorem shrunk_transform (hrule : rule.Shrinks) (f : Formula) : Shrunk f (f.transform rule) := by
  rw [transform_eq_offered hrule.renews, offered]
  have hbelow := shrunk_transformBelow hrule f []
  cases hr : rule [] (f.transformBelow rule []) with
  | none => exact hbelow
  | some r => exact hbelow.trans (Or.inr (hrule [] _ r hr))

theorem shrunk_transformAll (hrules : ∀ rule ∈ rules, rule.Shrinks) (f : Formula) :
    Shrunk f (f.transformAll rules) :=
  transformAll_rel .refl (fun _ _ _ => .trans)
    (fun rule hrule => shrunk_transform (hrules rule hrule)) f

theorem shrunk_settle (hrules : ∀ rule ∈ rules, rule.Shrinks) (rounds : Nat) (f : Formula) :
    Shrunk f (settle rules rounds f) :=
  settle_rel .refl (fun _ _ _ => .trans)
    (fun rule hrule => shrunk_transform (hrules rule hrule)) rounds f

end Formula

/-! ## The rules of simplification -/

namespace Simplify

open Formula

variable {above : List Formula} {f r : Formula}

/-- A literal in the place of a node with children. -/
theorem size_folded_lt {c : Formula} (v : Literal) (hc : c ∈ f.children) :
    (folded f v).size < f.size :=
  one_lt_size_of_child hc

theorem mem_children_of_binary {op : String} {x y c : Formula} (hk : f.kind = .binary op x y)
    (hc : c ∈ [x, y]) : c ∈ f.children := by
  rw [children, hk]
  exact hc

theorem mem_children_of_arg {c : Call Formula} {x : Formula} (hc : f.call? = some c)
    (hx : x ∈ c.args) : x ∈ f.children := by
  rw [children, kind_of_call? hc]
  exact List.mem_append_left _ (List.mem_append_left _ hx)

/-- The rule puts a constant in the place of a node with children. -/
def Folds (rule : Rule) : Prop :=
  ∀ above f r, rule above f = some r → (∃ v, r = folded f v) ∧ ∃ c, c ∈ f.children

theorem Folds.shrinks {rule : Rule} (h : Folds rule) : rule.Shrinks := by
  intro above f r hr
  obtain ⟨⟨v, rfl⟩, c, hc⟩ := h above f r hr
  exact size_folded_lt v hc

theorem folds_arithmetic : Folds arithmetic := by
  intro above f r hr
  unfold arithmetic at hr
  split at hr
  next op x y hk =>
    obtain ⟨_, -, hr⟩ := Option.bind_eq_some_iff.mp hr
    obtain ⟨_, -, hr⟩ := Option.bind_eq_some_iff.mp hr
    obtain ⟨v, -, hr⟩ := Option.bind_eq_some_iff.mp hr
    exact ⟨⟨v, (Option.some.inj hr).symm⟩, x, mem_children_of_binary hk List.mem_cons_self⟩
  next => exact absurd hr (by simp)

theorem folds_comparison : Folds comparison := by
  intro above f r hr
  unfold comparison at hr
  split at hr
  next op x y hk =>
    obtain ⟨⟨_, _⟩, -, hr⟩ := Option.bind_eq_some_iff.mp hr
    obtain ⟨_, -, hr⟩ := Option.bind_eq_some_iff.mp hr
    obtain ⟨_, -, hr⟩ := Option.bind_eq_some_iff.mp hr
    obtain ⟨_, -, hr⟩ := Option.bind_eq_some_iff.mp hr
    exact ⟨⟨_, (Option.some.inj hr).symm⟩, x, mem_children_of_binary hk List.mem_cons_self⟩
  next => exact absurd hr (by simp)

theorem folds_test (dialect : Dialects) : Folds (test dialect) := by
  intro above f r hr
  obtain ⟨c, hc, hr⟩ := Option.bind_eq_some_iff.mp hr
  split at hr
  next x hargs =>
    obtain ⟨_, -, hr⟩ := Option.bind_eq_some_iff.mp hr
    obtain ⟨_, -, hr⟩ := Option.bind_eq_some_iff.mp hr
    have hx : x ∈ c.args := hargs ▸ List.mem_singleton_self x
    exact ⟨⟨_, (Option.some.inj hr).symm⟩, x, mem_children_of_arg hc hx⟩
  next => exact absurd hr (by simp)

/-- What is left of a connective is its other operand or a constant. -/
theorem connective_child_or_folded (hr : connective above f = some r) :
    r ∈ f.children ∨ (∃ v, r = folded f v) ∧ ∃ c, c ∈ f.children := by
  obtain ⟨op, x, y, v, other, hk, hoperands, hdecided⟩ := connective_cases hr
  have hother : other ∈ f.children := by
    refine mem_children_of_binary hk ?_
    rcases hoperands with ⟨-, rfl⟩ | ⟨-, rfl⟩ <;> simp
  rcases hdecided with ⟨-, rfl⟩ | ⟨-, rfl⟩ <;> split
  · exact Or.inl hother
  · exact Or.inr ⟨⟨_, rfl⟩, other, hother⟩
  · exact Or.inr ⟨⟨_, rfl⟩, other, hother⟩
  · exact Or.inl hother

theorem shrinks_connective : Rule.Shrinks connective := by
  intro above f r hr
  rcases connective_child_or_folded hr with hchild | ⟨⟨v, rfl⟩, c, hc⟩
  · exact size_lt_of_mem_children hchild
  · exact size_folded_lt v hc

/-- What is left of two aggregations is the inner one. -/
theorem child_of_doubleAggregation (hr : doubleAggregation above f = some r) :
    r ∈ f.children := by
  obtain ⟨outer, houter, hr⟩ := Option.bind_eq_some_iff.mp hr
  split at hr
  next x hargs =>
    obtain ⟨inner, -, hr⟩ := Option.bind_eq_some_iff.mp hr
    split at hr
    · have hx : x ∈ outer.args := hargs ▸ List.mem_singleton_self x
      exact Option.some.inj hr ▸ mem_children_of_arg houter hx
    · exact absurd hr (by simp)
  next => exact absurd hr (by simp)

theorem shrinks_doubleAggregation : Rule.Shrinks doubleAggregation :=
  fun _ _ _ hr => size_lt_of_mem_children (child_of_doubleAggregation hr)

/-! ### Conditionals -/

/-- What is left of a conditional is one of its parts, or it is built again with fewer parts. -/
theorem child_or_sublist_of_rebuilt {bs : List (Branch Formula)} {e : Formula} {p : Pruned}
    {build : List (Branch Formula) → Formula → Formula} (front : List Formula)
    {dims dims' : List Formula}
    (hparts : (p.branches.flatMap Branch.parts ++ [p.otherwise]).Sublist
      (bs.flatMap Branch.parts ++ [e]))
    (hdims : dims'.Sublist dims)
    (hchildren : f.children = front ++ (bs.flatMap Branch.parts ++ [e] ++ dims))
    (hbuild : ∀ ds d,
      (build ds d).children = front ++ (ds.flatMap Branch.parts ++ [d] ++ dims'))
    (hr : rebuilt bs p build = some r) :
    r ∈ f.children ∨ r = build p.branches p.otherwise ∧ r.children.Sublist f.children ∧
      r.children.length < f.children.length := by
  obtain ⟨hne, ⟨-, rfl⟩ | ⟨-, rfl⟩⟩ := rebuilt_eq_some hr
  · left
    rw [hchildren]
    refine List.mem_append_right _ (List.mem_append_left _ (hparts.subset ?_))
    exact List.mem_append_right _ (List.mem_singleton_self _)
  · have hle := hparts.length_le
    have hdimsle := hdims.length_le
    refine Or.inr ⟨rfl, ?_, ?_⟩ <;> rw [hbuild, hchildren]
    · exact (List.Sublist.refl front).append (hparts.append hdims)
    · simp only [List.length_append, length_flatMap_parts, List.length_singleton] at hle ⊢
      omega

/-- Pruning a conditional drops a branch, or it leaves a part only. -/
theorem conditional_child_or_sublist (hr : conditional above f = some r) :
    r ∈ f.children ∨
      ((∃ bs e, f.reading = .conditional bs e ∧
          r = withBranches f (pruneBy isTrue? e bs).branches (pruneBy isTrue? e bs).otherwise) ∨
        ∃ subject v bs e, f.reading = .choice subject bs e ∧
          r = withBranches f (pruneBy (isSubject? v) e bs).branches
            (pruneBy (isSubject? v) e bs).otherwise) ∧
      r.children.Sublist f.children ∧ r.children.length < f.children.length := by
  rcases conditional_cases hr with ⟨bs, e, hf, hr⟩ | ⟨subject, v, bs, e, hf, -, hr⟩
  · obtain ⟨dims, dims', hdims, hchildren, hbuild⟩ := children_withBranches_conditional hf
    refine (child_or_sublist_of_rebuilt [] (sublist_pruneBy _ e bs) hdims hchildren hbuild
      hr).imp_right fun ⟨heq, hsub⟩ => ⟨Or.inl ⟨bs, e, hf, heq⟩, hsub⟩
  · obtain ⟨dims, dims', hdims, hchildren, hbuild⟩ := children_withBranches_choice hf
    refine (child_or_sublist_of_rebuilt [subject] (sublist_pruneBy _ e bs) hdims hchildren hbuild
      hr).imp_right fun ⟨heq, hsub⟩ => ⟨Or.inr ⟨subject, v, bs, e, hf, heq⟩, hsub⟩

theorem shrinks_conditional : Rule.Shrinks conditional := by
  intro above f r hr
  rcases conditional_child_or_sublist hr with hchild | ⟨-, hsub, hlength⟩
  · exact size_lt_of_mem_children hchild
  · exact size_lt_of_sublist hsub hlength

/-! ### Comparisons of truth values -/

/-- The inverse of an operation is an operation of the same operands, or the operation below NOT. -/
theorem inverted_cases (f : Formula) :
    (∃ op op' x y, f.kind = .binary op x y ∧ inversions.lookup op = some op' ∧
      inverted f = .binary op' x y) ∨ inverted f = .unary "not" f := by
  unfold inverted
  split
  next op x y hk =>
    split
    next op' hop => exact Or.inl ⟨op, op', x, y, hk, hop, rfl⟩
    next => exact Or.inr rfl
  next => exact Or.inr rfl

theorem size_inverted_le (f : Formula) : (inverted f).size ≤ f.size + 1 := by
  rcases inverted_cases f with ⟨op, op', x, y, hk, -, hinverted⟩ | hinverted
  · have hchildren : (Formula.binary op' x y).children = f.children := by
      rw [children, children, hk]
      rfl
    rw [hinverted, size_eq_sum, hchildren, ← size_eq_sum]
    exact Nat.le_succ _
  · rw [hinverted, size_eq_sum]
    exact Nat.le_refl _

theorem shrinks_zeroOne : Rule.Shrinks zeroOne := by
  intro above f r hr
  obtain ⟨op, x, y, negated, hk, -, hchosen⟩ := zeroOne_cases hr
  have hsize : f.size = x.size + y.size + 1 := by
    rw [size_eq_sum, children, hk]
    simp [Kind.children]
  have hx := size_pos x
  have hy := size_pos y
  rcases hchosen with ⟨-, b, -, rfl⟩ | ⟨-, b, -, rfl⟩
  · have hinverted := size_inverted_le x
    split <;> omega
  · have hinverted := size_inverted_le y
    split <;> omega

theorem shrinks_filterRules (dialect : Dialects) : ∀ rule ∈ filterRules dialect, rule.Shrinks := by
  simp only [filterRules, rules, List.forall_mem_cons]
  exact ⟨shrinks_zeroOne, folds_arithmetic.shrinks, shrinks_doubleAggregation,
    folds_comparison.shrinks, shrinks_connective, (folds_test dialect).shrinks, shrinks_conditional,
    fun _ h => absurd h List.not_mem_nil⟩

theorem shrinks_rules (dialect : Dialects) : ∀ rule ∈ rules dialect, rule.Shrinks :=
  fun rule hrule => shrinks_filterRules dialect rule (List.mem_cons_of_mem _ hrule)

end Simplify

end FormulaSql
