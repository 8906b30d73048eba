import FormulaSql.Proofs.Query.Keeping

/-!
# What simplification looks at

The rules that simplify look at a node and take a glance at its children: whether one is a literal,
an operation with a truth value, or an aggregation and of which kind. So they still have nothing to
offer for a node after its children have been replaced by others that look the same.

* `Formula.Sees` says that a rule looks at nothing else
-/

namespace FormulaSql

namespace Formula

/-- What can be seen of an operand. -/
def operandView (f : Formula) : Option Literal × Bool := (f.literal?, Simplify.isBooleanOperation f)

/-- What can be seen of an aggregation: whether it has a level of detail, and its filters. -/
def aggregationView (f : Formula) : Option (Bool × NameSet) :=
  match f.call? with
  | some c => if Function.isAggregate c.name then some (c.lod.isInherited, c.beforeFilterBy) else none
  | none => none

/-- The rule still offers nothing after the children have been replaced by others that look the
same. -/
def Sees {β : Type} (V : Formula → β) (rule : Rule) : Prop :=
  ∀ f cs, List.Forall₂ (fun c d => V d = V c) f.children cs → rule [] f = none →
    rule [] (f.withChildren cs) = none

/-- The rule is about operators only. -/
def OnOperators (rule : Rule) : Prop :=
  ∀ above f, (∀ op l r, f.kind ≠ .binary op l r) → rule above f = none

/-! ## Operators -/

section Operators

variable {R : Formula → Formula → Prop} {f : Formula} {cs : List Formula}

theorem exists_binary_withChildren {op : String} {l r : Formula}
    (h : List.Forall₂ R f.children cs) (hk : f.kind = .binary op l r) :
    ∃ l' r', (f.withChildren cs).kind = .binary op l' r' ∧ R l l' ∧ R r r' := by
  rw [children, hk] at h
  obtain ⟨l', rs, hl, hrs, rfl⟩ := List.forall₂_cons_left_iff.mp h
  obtain ⟨r', nothing, hr, hnothing, rfl⟩ := List.forall₂_cons_left_iff.mp hrs
  obtain rfl := List.forall₂_nil_left_iff.mp hnothing
  refine ⟨l', r', ?_, hl, hr⟩
  rw [withChildren, kind, hk]
  rfl

theorem onOperators : ∀ rule ∈ [Simplify.arithmetic, Simplify.comparison, Simplify.connective,
    Simplify.zeroOne], OnOperators rule := by
  simp only [List.forall_mem_cons, List.not_mem_nil, false_imp_iff, implies_true, and_true]
  refine ⟨?_, ?_, ?_, ?_⟩ <;> intro above f hne
  · unfold Simplify.arithmetic
    split
    next op l r hk => exact absurd hk (hne op l r)
    next => rfl
  · unfold Simplify.comparison
    split
    next op l r hk => exact absurd hk (hne op l r)
    next => rfl
  · unfold Simplify.connective
    split
    next op l r hk => exact absurd hk (hne op l r)
    next => rfl
  · unfold Simplify.zeroOne
    split
    next op l r hk => exact absurd hk (hne op l r)
    next => rfl

/-- A rule for operators looks at their operands. -/
theorem sees_of_binary {rule : Rule} (hrule : OnOperators rule)
    (binary : ∀ (f g : Formula) op l r l' r', f.kind = .binary op l r → g.kind = .binary op l' r' →
      l'.operandView = l.operandView → r'.operandView = r.operandView → rule [] f = none →
      rule [] g = none) : Sees operandView rule := by
  intro f cs hcs h
  cases hk : f.kind with
  | binary op l r =>
      obtain ⟨l', r', hk', hl, hr⟩ := exists_binary_withChildren hcs hk
      exact binary f _ op l r l' r' hk hk' hl hr h
  | _ =>
      apply hrule
      intro op l r hk'
      have houtline := outline_withChildren f cs
      rw [hk, hk'] at houtline
      exact absurd houtline (by simp [Kind.outline, Kind.map])

theorem sees_arithmetic : Sees operandView Simplify.arithmetic := by
  apply sees_of_binary (onOperators _ (by simp))
  intro f g op l r l' r' hk hk' hl hr h
  obtain ⟨hl, -⟩ := Prod.mk.inj hl
  obtain ⟨hr, -⟩ := Prod.mk.inj hr
  unfold Simplify.arithmetic at h ⊢
  rw [hk] at h
  rw [hk']
  simp only [Option.bind_eq_bind, Option.bind_eq_none_iff, reduceCtorEq] at h ⊢
  rwa [hl, hr]

theorem sees_comparison : Sees operandView Simplify.comparison := by
  apply sees_of_binary (onOperators _ (by simp))
  intro f g op l r l' r' hk hk' hl hr h
  obtain ⟨hl, -⟩ := Prod.mk.inj hl
  obtain ⟨hr, -⟩ := Prod.mk.inj hr
  unfold Simplify.comparison at h ⊢
  rw [hk] at h
  rw [hk']
  simp only [Option.bind_eq_bind, Option.bind_eq_none_iff, reduceCtorEq] at h ⊢
  rwa [hl, hr]

/-- A connective is folded if an operand is a literal. -/
theorem connective_eq_none {above : List Formula} {op : String} {l r : Formula}
    (hk : f.kind = .binary op l r) :
    Simplify.connective above f = none ↔
      (l.literal? = none ∧ r.literal? = none) ∨ (op ≠ "and" ∧ op ≠ "or") := by
  unfold Simplify.connective
  rw [hk]
  dsimp only
  cases l.literal? with
  | none =>
      cases r.literal? with
      | none => simp
      | some v =>
          simp only [Option.bind_eq_bind, Option.bind_some, reduceCtorEq, and_false, false_or]
          split
          next => split <;> simp
          next => split <;> simp
          next hand hor => exact ⟨fun _ => ⟨hand, hor⟩, fun _ => rfl⟩
  | some v =>
      simp only [Option.bind_eq_bind, Option.bind_some, reduceCtorEq, false_and, false_or]
      split
      next => split <;> simp
      next => split <;> simp
      next hand hor => exact ⟨fun _ => ⟨hand, hor⟩, fun _ => rfl⟩

theorem sees_connective : Sees operandView Simplify.connective := by
  apply sees_of_binary (onOperators _ (by simp))
  intro f g op l r l' r' hk hk' hl hr h
  rw [connective_eq_none hk] at h
  rw [connective_eq_none hk', (Prod.mk.inj hl).1, (Prod.mk.inj hr).1]
  exact h

/-- A comparison with zero or one is folded if the other side is an operation with a truth
value. -/
theorem zeroOne_eq_none {above : List Formula} {op : String} {l r : Formula}
    (hk : f.kind = .binary op l r) :
    Simplify.zeroOne above f = none ↔ (op ≠ "==" ∧ op ≠ "!=") ∨
      if Simplify.isBooleanOperation l then Simplify.zeroOne? r = none
      else Simplify.isBooleanOperation r = true → Simplify.zeroOne? l = none := by
  have hchosen (negated : Bool) (operation : Formula) (value : Option Bool) :
      ((value.map (operation, ·)).bind fun x => if (x.2 != negated) = true then some x.1
        else some (Simplify.inverted x.1)) = none ↔ value = none := by
    cases value with
    | none => simp
    | some v =>
        rw [Option.map_some, Option.bind_some]
        split <;> simp
  have hcompared (negated : Bool) :
      (if Simplify.isBooleanOperation l = true then
        ((Simplify.zeroOne? r).map (l, ·)).bind fun x => if (x.2 != negated) = true then some x.1
          else some (Simplify.inverted x.1)
      else if Simplify.isBooleanOperation r = true then
        ((Simplify.zeroOne? l).map (r, ·)).bind fun x => if (x.2 != negated) = true then some x.1
          else some (Simplify.inverted x.1)
      else none) = none ↔
        if Simplify.isBooleanOperation l then Simplify.zeroOne? r = none
        else Simplify.isBooleanOperation r = true → Simplify.zeroOne? l = none := by
    split
    next => exact hchosen negated l _
    next =>
      split
      next hr => exact (hchosen negated r _).trans ⟨fun h _ => h, fun h => h hr⟩
      next hr => exact ⟨fun _ h => absurd h hr, fun _ => rfl⟩
  unfold Simplify.zeroOne
  rw [hk]
  dsimp only
  split
  next => exact (hcompared false).trans (by simp)
  next => exact (hcompared true).trans (by simp)
  next heq hne => exact ⟨fun _ => Or.inl ⟨heq, hne⟩, fun _ => rfl⟩

theorem zeroOne?_eq {l l' : Formula} (h : l'.literal? = l.literal?) :
    Simplify.zeroOne? l' = Simplify.zeroOne? l := by
  rw [Simplify.zeroOne?, Simplify.zeroOne?, h]

theorem sees_zeroOne : Sees operandView Simplify.zeroOne := by
  apply sees_of_binary (onOperators _ (by simp))
  intro f g op l r l' r' hk hk' hl hr h
  obtain ⟨hl, hl'⟩ := Prod.mk.inj hl
  obtain ⟨hr, hr'⟩ := Prod.mk.inj hr
  rw [zeroOne_eq_none hk] at h
  rwa [zeroOne_eq_none hk', hl', hr', zeroOne?_eq hl, zeroOne?_eq hr]

end Operators

/-! ## Calls and conditionals -/

section Calls

variable {R : Formula → Formula → Prop} {f : Formula} {cs above : List Formula}

theorem test_eq_none {dialect : Dialects} {c : Call Formula} (hk : f.kind = .call c) :
    Simplify.test dialect above f = none ↔
      ∀ x v, c.args = [x] → x.literal? = some v → Simplify.constantTest? dialect c.name = none := by
  unfold Simplify.test
  rw [call?, hk]
  simp only [Option.bind_eq_bind, Option.bind_some]
  split
  next x hargs =>
    simp only [Option.bind_eq_none_iff, reduceCtorEq, hargs]
    constructor
    · rintro h y v hy hv
      obtain rfl := (List.cons.inj hy).1
      exact Option.eq_none_iff_forall_ne_some.mpr fun t ht => h v hv t ht
    · intro h v hv t ht
      exact absurd ((h x v rfl hv).symm.trans ht) (by simp)
  next hargs => exact ⟨fun _ x v hx => absurd hx (hargs x), fun _ => rfl⟩

theorem rebuilt_eq_none {before : List (Branch Formula)} {p : Simplify.Pruned}
    {build : List (Branch Formula) → Formula → Formula} :
    Simplify.rebuilt before p build = none ↔ p.branches.length = before.length := by
  unfold Simplify.rebuilt
  split
  next h => exact ⟨fun _ => beq_iff_eq.mp h, fun _ => rfl⟩
  next h =>
    rw [beq_iff_eq] at h
    split <;> simp [h]

/-- Arguments are taken as branches in the same way if there are as many. -/
theorem exists_branchArgs {args args' : List Formula} (h : List.Forall₂ R args args')
    {bs' : List (Branch Formula)} {otherwise' : Formula}
    (h' : Simplify.branchArgs args' = some (bs', otherwise')) :
    ∃ bs otherwise, Simplify.branchArgs args = some (bs, otherwise) ∧
      List.Forall₂ (Branch.Rel R) bs bs' ∧ R otherwise otherwise' := by
  induction args' using Simplify.branchArgs.induct generalizing args bs' otherwise' with
  | case1 => exact absurd h' (by simp [Simplify.branchArgs])
  | case2 o' =>
      obtain ⟨o, os, ho, hos, rfl⟩ := List.forall₂_cons_right_iff.mp h
      obtain rfl := List.forall₂_nil_right_iff.mp hos
      obtain ⟨rfl, rfl⟩ := Prod.mk.inj (Option.some.inj h')
      exact ⟨[], o, rfl, .nil, ho⟩
  | case3 test' value' rest' ih =>
      obtain ⟨test, vs, htest, hvs, rfl⟩ := List.forall₂_cons_right_iff.mp h
      obtain ⟨value, rest, hvalue, hrest, rfl⟩ := List.forall₂_cons_right_iff.mp hvs
      obtain ⟨⟨ts', o'⟩, hts', heq⟩ := Option.bind_eq_some_iff.mp h'
      obtain ⟨rfl, rfl⟩ := Prod.mk.inj (Option.some.inj heq)
      obtain ⟨ts, o, hts, hpairs, ho⟩ := ih hrest hts'
      refine ⟨⟨test, value⟩ :: ts, o, ?_, .cons ⟨htest, hvalue⟩ hpairs, ho⟩
      rw [Simplify.branchArgs, hts]
      rfl

/-- Branches whose parts are related are related. -/
theorem forall₂_branches {bs bs' : List (Branch Formula)} (hlength : bs.length = bs'.length)
    (h : List.Forall₂ R (bs.flatMap Branch.parts) (bs'.flatMap Branch.parts)) :
    List.Forall₂ (Branch.Rel R) bs bs' := by
  induction bs generalizing bs' with
  | nil =>
      obtain rfl := List.length_eq_zero_iff.mp hlength.symm
      exact .nil
  | cons b bs ih =>
      cases bs' with
      | nil => exact absurd hlength (by simp)
      | cons b' bs' =>
          simp only [List.flatMap_cons, Branch.parts, List.cons_append, List.nil_append,
            List.forall₂_cons] at h
          exact .cons ⟨h.1, h.2.1⟩ (ih (Nat.succ.inj hlength) h.2.2)

theorem length_flatMap_parts {α : Type} (bs : List (Branch α)) :
    (bs.flatMap Branch.parts).length = 2 * bs.length := by
  induction bs with
  | nil => rfl
  | cons b bs ih => simp only [List.flatMap_cons, List.length_append, ih, Branch.parts,
      List.length_cons, List.length_nil]; omega

theorem exists_ifBlock_withChildren {bs : List (Branch Formula)} {otherwise : Formula}
    (h : List.Forall₂ R f.children cs) (hk : f.kind = .ifBlock bs otherwise) :
    ∃ bs' otherwise', (f.withChildren cs).kind = .ifBlock bs' otherwise' ∧
      List.Forall₂ (Branch.Rel R) bs bs' ∧ R otherwise otherwise' := by
  have houtline := outline_withChildren f cs
  have hpairs := forall₂_withChildren h
  rw [hk] at houtline hpairs
  cases hk' : (f.withChildren cs).kind with
  | ifBlock bs' otherwise' =>
      rw [hk'] at houtline hpairs
      simp only [Kind.outline, Kind.map, Kind.ifBlock.injEq] at houtline
      have hlength : bs.length = bs'.length := by simpa using (congrArg List.length houtline.1).symm
      obtain ⟨hbranches, hotherwise⟩ := (forall₂_append_iff (by
        rw [length_flatMap_parts, length_flatMap_parts, hlength])).mp hpairs
      exact ⟨bs', otherwise', rfl, forall₂_branches hlength hbranches,
        (List.forall₂_cons.mp hotherwise).1⟩
  | _ => simp [hk', Kind.outline, Kind.map] at houtline

theorem exists_caseBlock_withChildren {subject : Formula} {bs : List (Branch Formula)}
    {otherwise : Formula} (h : List.Forall₂ R f.children cs)
    (hk : f.kind = .caseBlock subject bs otherwise) :
    ∃ subject' bs' otherwise', (f.withChildren cs).kind = .caseBlock subject' bs' otherwise' ∧
      R subject subject' ∧ List.Forall₂ (Branch.Rel R) bs bs' ∧ R otherwise otherwise' := by
  have houtline := outline_withChildren f cs
  have hpairs := forall₂_withChildren h
  rw [hk] at houtline hpairs
  cases hk' : (f.withChildren cs).kind with
  | caseBlock subject' bs' otherwise' =>
      rw [hk'] at houtline hpairs
      simp only [Kind.outline, Kind.map, Kind.caseBlock.injEq] at houtline
      have hlength : bs.length = bs'.length := by
        simpa using (congrArg List.length houtline.2.1).symm
      simp only [Kind.children, List.cons_append, List.forall₂_cons] at hpairs
      obtain ⟨hbranches, hotherwise⟩ := (forall₂_append_iff (by
        rw [length_flatMap_parts, length_flatMap_parts, hlength])).mp hpairs.2
      exact ⟨subject', bs', otherwise', rfl, hpairs.1, forall₂_branches hlength hbranches,
        (List.forall₂_cons.mp hotherwise).1⟩
  | _ => simp [hk', Kind.outline, Kind.map] at houtline

/-- What makes a conditional of the arguments of a call. -/
theorem conditional_call_eq_none {c : Call Formula} (hk : f.kind = .call c) :
    Simplify.conditional above f = none ↔
      (c.name.toLower = "if" → ∀ bs otherwise, Simplify.branchArgs c.args = some (bs, otherwise) →
        ∀ b ∈ bs, b.test.literal? = none) ∧
      (c.name.toLower = "case" → ∀ subject rest v bs otherwise, c.args = subject :: rest →
        subject.literal? = some v → Simplify.branchArgs rest = some (bs, otherwise) →
        ∀ b ∈ bs, b.test.literal? = none) := by
  unfold Simplify.conditional
  rw [hk]
  dsimp only
  split
  next hname =>
    simp only [Option.bind_eq_bind, Option.bind_eq_none_iff, rebuilt_eq_none, Simplify.pruneIf_eq,
      Simplify.length_pruneBy_eq, Simplify.isTrue?_eq_none, hname, Prod.forall]
    simp
  next hname =>
    simp only [hname]
    split
    next subject rest hargs =>
      simp only [Option.bind_eq_bind, Option.bind_eq_none_iff, rebuilt_eq_none,
        Simplify.pruneCase_eq, Simplify.length_pruneBy_eq, Simplify.isSubject?_eq_none, Prod.forall,
        hargs]
      constructor
      · intro h
        refine ⟨fun hne => absurd hne (by decide), fun _ s r v bs otherwise heq => ?_⟩
        obtain ⟨rfl, rfl⟩ := List.cons.inj heq
        exact fun hv hbs => h v hv bs otherwise hbs
      · intro h v hv bs otherwise hbs
        exact h.2 trivial subject rest v bs otherwise rfl hv hbs
    next hargs => simp [hargs]
  next hif hcase => exact ⟨fun _ => ⟨fun h => absurd h hif, fun h => absurd h hcase⟩, fun _ => rfl⟩

/-- Conditions that look the same are literals if the ones before are. -/
theorem forall_test_of_views {bs bs' : List (Branch Formula)}
    (h : List.Forall₂ (Branch.Rel fun c d => d.operandView = c.operandView) bs bs')
    (hbs : ∀ b ∈ bs, b.test.literal? = none) : ∀ b ∈ bs', b.test.literal? = none := by
  intro b' hb'
  obtain ⟨b, hb, hview, -⟩ := forall₂_exists_left h hb'
  exact (Prod.mk.inj hview).1.trans (hbs b hb)

theorem sees_test (dialect : Dialects) : Sees operandView (Simplify.test dialect) := by
  intro f cs hcs h
  cases hk : f.kind with
  | call c =>
      obtain ⟨c', hk', hname, -, hargs, -⟩ := exists_call_withChildren hcs hk
      rw [test_eq_none hk] at h
      rw [test_eq_none hk', hname]
      intro x' v hx' hv
      rw [hx'] at hargs
      obtain ⟨x, xs, hx, hxs, heq⟩ := List.forall₂_cons_right_iff.mp hargs
      obtain rfl := List.forall₂_nil_right_iff.mp hxs
      exact h x v heq ((Prod.mk.inj hx).1.symm.trans hv)
  | _ =>
      have hcall : f.call? = none := by rw [call?, hk]
      rw [Simplify.test, call?_withChildren_of_none hcall]
      rfl

theorem sees_conditional : Sees operandView Simplify.conditional := by
  intro f cs hcs h
  cases hk : f.kind with
  | call c =>
      obtain ⟨c', hk', hname, -, hargs, -⟩ := exists_call_withChildren hcs hk
      rw [conditional_call_eq_none hk] at h
      rw [conditional_call_eq_none hk', hname]
      constructor
      · intro hif bs' otherwise' hbs'
        obtain ⟨bs, otherwise, hbs, hviews, -⟩ := exists_branchArgs hargs hbs'
        exact forall_test_of_views hviews (h.1 hif bs otherwise hbs)
      · intro hcase subject' rest' v bs' otherwise' hargs' hv hbs'
        rw [hargs'] at hargs
        obtain ⟨subject, rest, hsubject, hrest, heq⟩ := List.forall₂_cons_right_iff.mp hargs
        obtain ⟨bs, otherwise, hbs, hviews, -⟩ := exists_branchArgs hrest hbs'
        exact forall_test_of_views hviews (h.2 hcase subject rest v bs otherwise heq
          ((Prod.mk.inj hsubject).1.symm.trans hv) hbs)
  | ifBlock bs otherwise =>
      obtain ⟨bs', otherwise', hk', hviews, -⟩ := exists_ifBlock_withChildren hcs hk
      unfold Simplify.conditional at h ⊢
      rw [hk] at h
      rw [hk']
      dsimp only at h ⊢
      simp only [rebuilt_eq_none, Simplify.pruneIf_eq, Simplify.length_pruneBy_eq,
        Simplify.isTrue?_eq_none] at h ⊢
      exact forall_test_of_views hviews h
  | caseBlock subject bs otherwise =>
      obtain ⟨subject', bs', otherwise', hk', hsubject, hviews, -⟩ :=
        exists_caseBlock_withChildren hcs hk
      unfold Simplify.conditional at h ⊢
      rw [hk] at h
      rw [hk']
      simp only [Option.bind_eq_bind, Option.bind_eq_none_iff, rebuilt_eq_none,
        Simplify.pruneCase_eq, Simplify.length_pruneBy_eq, Simplify.isSubject?_eq_none] at h ⊢
      intro v hv
      exact forall_test_of_views hviews (h v ((Prod.mk.inj hsubject).1.symm.trans hv))
  | _ =>
      have houtline := outline_withChildren f cs
      rw [hk] at houtline
      unfold Simplify.conditional
      cases hk' : (f.withChildren cs).kind with
      | call | ifBlock | caseBlock => simp [hk', Kind.outline, Kind.map] at houtline
      | _ => rfl

/-- An aggregation is folded if its argument is another one at the same level. -/
theorem doubleAggregation_eq_none {c : Call Formula} (hk : f.kind = .call c) :
    Simplify.doubleAggregation above f = none ↔ ∀ x, c.args = [x] →
      (x.aggregationView.any fun v =>
        Simplify.collapsible.contains c.name.toLower && c.lod.isInherited && c.ignored.isEmpty &&
          v.1 && (c.beforeFilterBy.isEmpty || c.beforeFilterBy == v.2)) = false := by
  unfold Simplify.doubleAggregation
  rw [call?, hk]
  simp only [Option.bind_eq_bind, Option.bind_some]
  split
  next x hargs =>
    rw [hargs]
    have hone (p : Formula → Prop) : (∀ y, [x] = [y] → p y) ↔ p x :=
      ⟨fun h => h x rfl, fun h y hy => (List.cons.inj hy).1 ▸ h⟩
    rw [hone, aggregationView, isAggregateCall]
    cases x.call? with
    | none => simp
    | some inner =>
        simp only [Option.bind_some]
        by_cases hname : Function.isAggregate inner.name = true
        · simp only [hname, Bool.and_true, if_true, Option.any_some, ite_eq_right_iff, reduceCtorEq,
            imp_false, Bool.not_eq_true]
        · rw [if_neg hname]
          simp [hname]
  next hargs => exact ⟨fun _ x hx => absurd hx (hargs x), fun _ => rfl⟩

theorem sees_doubleAggregation : Sees aggregationView Simplify.doubleAggregation := by
  intro f cs hcs h
  cases hk : f.kind with
  | call c =>
      obtain ⟨c', hk', -, -, hargs, -⟩ := exists_call_withChildren hcs hk
      have houtline := outline_withChildren f cs
      rw [hk, hk'] at houtline
      simp only [Kind.outline, Kind.map, Kind.call.injEq, Call.mk.injEq] at houtline
      obtain ⟨hname, -, hlod, hignored, hfilters⟩ := houtline
      have hempty (ds : List Formula) : (ds.map fun _ => ()).isEmpty = ds.isEmpty := by
        cases ds <;> rfl
      rw [doubleAggregation_eq_none hk] at h
      rw [doubleAggregation_eq_none hk', hname, ← Kind.isInherited_outline, hlod,
        Kind.isInherited_outline, ← hempty, hignored, hempty, hfilters]
      intro x' hx'
      rw [hx'] at hargs
      obtain ⟨x, xs, hx, hxs, heq⟩ := List.forall₂_cons_right_iff.mp hargs
      obtain rfl := List.forall₂_nil_right_iff.mp hxs
      rw [hx]
      exact h x heq
  | _ =>
      have hcall : f.call? = none := by rw [call?, hk]
      rw [Simplify.doubleAggregation, call?_withChildren_of_none hcall]
      rfl

end Calls

/-! ## All rules -/

section Rules

variable {levels : Prop} {f g : Formula}

theorem literal?_eq_of_outline (h : f.kind.outline = g.kind.outline) :
    f.literal? = g.literal? := by
  refine eq_of_outline literal? (fun x => ?_) h
  rw [literal?, literal?]
  cases x.kind <;> rfl

theorem isBooleanOperation_eq_of_outline (h : f.kind.outline = g.kind.outline) :
    Simplify.isBooleanOperation f = Simplify.isBooleanOperation g := by
  refine eq_of_outline Simplify.isBooleanOperation (fun x => ?_) h
  rw [Simplify.isBooleanOperation, Simplify.isBooleanOperation]
  cases x.kind <;> rfl

/-- The node is neither a literal nor an operation. -/
def isPlace (f : Formula) : Bool :=
  match f.kind with
  | .call _ | .window _ | .fork _ | .paren _ | .error _ _ => true
  | _ => false

theorem operandView_of_isPlace (h : f.isPlace = true) : f.operandView = (none, false) := by
  rw [isPlace] at h
  rw [operandView, literal?, Simplify.isBooleanOperation]
  cases hk : f.kind with
  | literal | binary => rw [hk] at h; exact absurd h (by simp)
  | _ => rfl

theorem isPlace_of_isWindowCall (h : f.isWindowCall = true) : f.isPlace = true := by
  obtain ⟨w, hw⟩ := Option.isSome_iff_exists.mp h
  rw [isPlace, kind_of_window? hw]

/-- What is offered for a node is no more of an operand than the node itself. -/
theorem Offer.isPlace {P : Formula → Prop} (h : Offer P levels g f) :
    g.isPlace = true ∧ f.isPlace = true := by
  cases h with
  | error herror hk =>
      obtain ⟨message, code, hk'⟩ := kind_of_isError herror
      exact ⟨by rw [Formula.isPlace, hk], by rw [Formula.isPlace, hk']⟩
  | window hwindow => exact ⟨isPlace_of_isWindowCall hwindow, rfl⟩
  | lookup hk => exact ⟨by rw [Formula.isPlace, hk], rfl⟩
  | level _ hk => exact ⟨by rw [Formula.isPlace, hk], rfl⟩
  | windowFilters hk => exact ⟨by rw [Formula.isPlace, hk], rfl⟩
  | forkFilters hk => exact ⟨by rw [Formula.isPlace, hk], rfl⟩
  | tag hwindow => exact ⟨isPlace_of_isWindowCall hwindow, rfl⟩

theorem shown_operandView : Shown operandView levels where
  outline f g h := by
    rw [operandView, operandView, literal?_eq_of_outline h, isBooleanOperation_eq_of_outline h]
  offer P g r h := by
    rw [operandView_of_isPlace h.isPlace.1, operandView_of_isPlace h.isPlace.2]

theorem aggregationView_eq_of_outline (h : f.kind.outline = g.kind.outline) :
    f.aggregationView = g.aggregationView := by
  refine eq_of_outline aggregationView (fun x => ?_) h
  rw [aggregationView, aggregationView, call?, call?]
  cases x.kind with
  | call c => cases hlod : c.lod <;> simp [filled, Kind.outline, Kind.map, hlod] <;> rfl
  | _ => rfl

theorem aggregationView_eq_none (h : f.isAggregateCall = false) : f.aggregationView = none := by
  rw [aggregationView]
  rw [isAggregateCall] at h
  split
  next c hc =>
    rw [hc] at h
    simp [show Function.isAggregate c.name = false from h]
  next => rfl

theorem not_isAggregateCall_of_call? (h : f.call? = none) : f.isAggregateCall = false := by
  rw [isAggregateCall, h]

/-- Without a rule for levels of detail, aggregations are left alone. -/
theorem Offer.not_isAggregateCall {P : Formula → Prop} (h : Offer P False g f) :
    g.isAggregateCall = false ∧ f.isAggregateCall = false := by
  cases h with
  | error herror hk hname =>
      obtain ⟨message, code, hk'⟩ := kind_of_isError herror
      refine ⟨(isAggregateCall_of_kind hk).trans (Bool.not_eq_true _ ▸ hname), ?_⟩
      exact not_isAggregateCall_of_call? (by rw [call?, hk'])
  | window hwindow => exact ⟨not_isAggregateCall_of_isWindowCall hwindow, rfl⟩
  | lookup hk hname => exact ⟨(isAggregateCall_of_kind hk).trans hname, rfl⟩
  | level h => exact h.elim
  | windowFilters hk => exact ⟨not_isAggregateCall_of_call? (by rw [call?, hk]), rfl⟩
  | forkFilters hk => exact ⟨not_isAggregateCall_of_call? (by rw [call?, hk]), rfl⟩
  | tag hwindow => exact ⟨not_isAggregateCall_of_isWindowCall hwindow, rfl⟩

theorem shown_aggregationView : Shown aggregationView False where
  outline _ _ := aggregationView_eq_of_outline
  offer P g r h := by
    obtain ⟨hg, hr⟩ := h.not_isAggregateCall
    rw [aggregationView_eq_none hg, aggregationView_eq_none hr]

/-! Rules for operations have nothing to say about forks and the like. -/

theorem lenient_of_onOperators {rule : Rule} (h : OnOperators rule) :
    Lenient (fun g => rule [] g = none) levels where
  error f hf := by
    obtain ⟨message, code, hk⟩ := kind_of_isError hf
    exact h [] f (by simp [hk])
  fork _ _ := h [] _ (by simp [kind])
  paren _ _ := h [] _ (by simp [kind])
  shift _ _ _ := h [] _ (by simp [call, callWith, of, kind])
  filters _ _ _ _ := h [] _ (by simp [kind])
  level _ _ _ _ := h [] _ (by simp [kind])

theorem constantTest?_eq_none {dialect : Dialects} {name : String} (h : name.toLower ≠ "isnull") :
    Simplify.constantTest? dialect name = none := by
  have hname : ("isnull" == name.toLower) = false := by simp [Ne.symm h]
  simp [Simplify.constantTest?, Simplify.constantTests, hname]

theorem lenient_test (dialect : Dialects) :
    Lenient (fun g => Simplify.test dialect [] g = none) levels where
  error f hf := by
    obtain ⟨message, code, hk⟩ := kind_of_isError hf
    rw [Simplify.test, call?, hk]
    rfl
  fork _ _ := rfl
  paren _ _ := rfl
  shift name hname args := by
    have hlower : ∀ n ∈ ["dateadd", "day"], n.toLower ≠ "isnull" := by decide +kernel
    exact (test_eq_none rfl).mpr fun _ _ _ _ => constantTest?_eq_none (hlower name hname)
  filters _ _ _ _ := rfl
  level _ c notes h := by
    rw [test_eq_none rfl] at h ⊢
    exact h

theorem lenient_conditional : Lenient (fun g => Simplify.conditional [] g = none) levels where
  error f hf := by
    obtain ⟨message, code, hk⟩ := kind_of_isError hf
    rw [Simplify.conditional, hk]
  fork _ _ := rfl
  paren _ _ := rfl
  shift name hname args := by
    have hlower : ∀ n ∈ ["dateadd", "day"], n.toLower ≠ "if" ∧ n.toLower ≠ "case" := by
      decide +kernel
    obtain ⟨hif, hcase⟩ := hlower name hname
    exact (conditional_call_eq_none rfl).mpr ⟨fun h => absurd h hif, fun h => absurd h hcase⟩
  filters _ _ _ _ := rfl
  level _ c notes h := by
    rw [conditional_call_eq_none rfl] at h ⊢
    exact h

theorem lenient_doubleAggregation :
    Lenient (fun g => Simplify.doubleAggregation [] g = none) False where
  error f hf := by
    obtain ⟨message, code, hk⟩ := kind_of_isError hf
    rw [Simplify.doubleAggregation, call?, hk]
    rfl
  fork _ _ := rfl
  paren _ _ := rfl
  shift name hname args := by
    have hlower : ∀ n ∈ ["dateadd", "day"],
        Simplify.collapsible.contains n.toLower = false := by decide +kernel
    refine (doubleAggregation_eq_none rfl).mpr fun x _ => ?_
    dsimp only
    rw [hlower name hname]
    cases x.aggregationView <;> rfl
  filters _ _ _ _ := rfl
  level h := h.elim

/-- The rules that look at operands. -/
def operandRules (dialect : Dialects) : List Rule :=
  [Simplify.arithmetic, Simplify.comparison, Simplify.connective, Simplify.test dialect,
   Simplify.conditional]

theorem mem_rules_iff {dialect : Dialects} {rule : Rule} :
    rule ∈ Simplify.rules dialect ↔
      rule = Simplify.doubleAggregation ∨ rule ∈ operandRules dialect := by
  simp only [Simplify.rules, operandRules, List.mem_cons, List.not_mem_nil, or_false]
  tauto

theorem sees_operandRules (dialect : Dialects) :
    ∀ rule ∈ Simplify.zeroOne :: operandRules dialect, Sees operandView rule := by
  simp only [operandRules, List.forall_mem_cons]
  exact ⟨sees_zeroOne, sees_arithmetic, sees_comparison, sees_connective, sees_test dialect,
    sees_conditional, fun _ h => absurd h List.not_mem_nil⟩

theorem lenient_operandRules (dialect : Dialects) :
    ∀ rule ∈ Simplify.zeroOne :: operandRules dialect,
      Lenient (fun g => rule [] g = none) levels := by
  have hoperators : ∀ rule ∈ [Simplify.arithmetic, Simplify.comparison, Simplify.connective,
      Simplify.zeroOne], Lenient (fun g => rule [] g = none) levels :=
    fun rule hrule => lenient_of_onOperators (onOperators rule hrule)
  simp only [operandRules, List.forall_mem_cons] at hoperators ⊢
  obtain ⟨harithmetic, hcomparison, hconnective, hzeroOne, -⟩ := hoperators
  exact ⟨hzeroOne, harithmetic, hcomparison, hconnective, lenient_test dialect,
    lenient_conditional, fun _ h => absurd h List.not_mem_nil⟩

/-- The nodes above make no difference to a rule that simplifies. -/
theorem filterRules_eq (dialect : Dialects) :
    ∀ rule ∈ Simplify.filterRules dialect, ∀ above f, rule above f = rule [] f := by
  simp only [Simplify.filterRules, Simplify.rules, List.forall_mem_cons]
  exact ⟨fun _ _ => rfl, fun _ _ => rfl, fun _ _ => rfl, fun _ _ => rfl, fun _ _ => rfl,
    fun _ _ => rfl, fun _ _ => rfl, fun _ h => absurd h List.not_mem_nil⟩

end Rules

end Formula

end FormulaSql
