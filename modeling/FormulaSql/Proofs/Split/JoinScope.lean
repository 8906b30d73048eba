import FormulaSql.Proofs.Split.Columns
import FormulaSql.Proofs.Split.Counting
import FormulaSql.Proofs.Split.Extras
import FormulaSql.Proofs.Split.References
import Mathlib.Data.List.Infix

/-!
# What join conditions mention

A fork says what it is joined on in terms of the query around it. Its sub-query puts columns for all
that it selects, the largest expressions first, so that no column breaks up an expression that is
still to come. If the dimensions of the fork cover all fields of a condition, nothing else is left.
On the other side of the join the same columns are those of the base.
-/

namespace FormulaSql

namespace Formula

/-! ## Sizes -/

theorem size_le_of_mem_nodes {f g : Formula} (h : g ∈ f.nodes) : g.size ≤ f.size := by
  induction f using induction_children with
  | step f ih =>
      rcases mem_nodes_iff.mp h with rfl | ⟨c, hc, hg⟩
      · exact Nat.le_refl _
      · exact Nat.le_of_lt (Nat.lt_of_le_of_lt (ih c hc hg) (size_lt_of_mem_children hc))

/-- What is held below a formula is smaller. -/
theorem exists_smaller_of_holdsBelow {f : Formula} {dim : Formula → Prop} (h : f.HoldsBelow dim) :
    ∃ g, dim g ∧ g.size < f.size := by
  obtain ⟨c, hc, g, hg, hdim⟩ := h
  exact ⟨g, hdim, Nat.lt_of_le_of_lt (size_le_of_mem_nodes hg) (size_lt_of_mem_children hc)⟩

/-! ## Covered fields -/

/-- Every field of the formula stands inside a node with the property. -/
def Covered (dim : Formula → Prop) (f : Formula) : Prop :=
  ∀ p n, f.fieldAt? p = some n → ∃ a g, a <+: p ∧ f.at? a = some g ∧ dim g

section Covered

variable {dim dim' : Formula → Prop} {f g : Formula}

theorem covered_iff :
    f.Covered dim ↔ dim f ∨ (f.field? = none ∧ ∀ c ∈ f.children, c.Covered dim) := by
  constructor
  · intro h
    by_cases hself : dim f
    · exact Or.inl hself
    · refine Or.inr ⟨?_, fun c hc p n hp => ?_⟩
      · rw [Option.eq_none_iff_forall_ne_some]
        intro n hn
        obtain ⟨a, g, ha, hg, hdim⟩ := h [] n hn
        obtain rfl := List.prefix_nil.mp ha
        exact hself (Option.some.inj hg ▸ hdim)
      · obtain ⟨i, hi⟩ := List.mem_iff_getElem?.mp hc
        obtain ⟨a, g, ha, hg, hdim⟩ := h (i :: p) n (fieldAt?_cons.mpr ⟨c, hi, hp⟩)
        cases a with
        | nil => exact absurd (Option.some.inj hg ▸ hdim) hself
        | cons j a =>
            obtain ⟨rfl, hpre⟩ := List.cons_prefix_cons.mp ha
            exact ⟨a, g, hpre, (at?_cons_of_child a hi).symm.trans hg, hdim⟩
  · rintro (hself | ⟨hfield, hchildren⟩) p n hp
    · exact ⟨[], f, List.nil_prefix, rfl, hself⟩
    · cases p with
      | nil =>
          rw [show f.fieldAt? [] = f.field? from rfl, hfield] at hp
          cases hp
      | cons i p =>
          obtain ⟨c, hc, hp⟩ := fieldAt?_cons.mp hp
          obtain ⟨a, g, ha, hg, hdim⟩ := hchildren c (List.mem_of_getElem? hc) p n hp
          exact ⟨i :: a, g, List.cons_prefix_cons.mpr ⟨rfl, ha⟩,
            (at?_cons_of_child a hc).trans hg, hdim⟩

theorem Covered.imp (h : f.Covered dim) (himp : ∀ g, dim g → dim' g) : f.Covered dim' := by
  intro p n hp
  obtain ⟨a, g, ha, hg, hdim⟩ := h p n hp
  exact ⟨a, g, ha, hg, himp g hdim⟩

theorem Covered.of_same (hdim : ∀ f g : Formula, f.same g = true → dim f → dim g)
    (hfg : f.same g = true) (h : f.Covered dim) : g.Covered dim := by
  induction f using induction_children generalizing g with
  | step f ih =>
      rcases covered_iff.mp h with hself | ⟨hfield, hchildren⟩
      · exact covered_iff.mpr (Or.inl (hdim f g hfg hself))
      · refine covered_iff.mpr (Or.inr ⟨(field?_eq_of_same hfg).symm.trans hfield, ?_⟩)
        intro d hd
        obtain ⟨c, hc, hcd⟩ := forall₂_exists_left (same_iff.mp hfg).2.2 hd
        exact ih c hc hcd (hchildren c hc)

/-- A formula that is covered by columns mentions nothing else. -/
theorem Covered.within {S : String → Prop} (h : f.Covered fun g => ∃ n, S n ∧ g.field? = some n) :
    f.Within S := by
  induction f using induction_children with
  | step f ih =>
      intro n hn
      rcases covered_iff.mp h with ⟨m, hm, hfield⟩ | ⟨hfield, hchildren⟩
      · rcases mentions_iff.mp hn with hfield' | ⟨c, hc, -⟩
        · exact Option.some.inj (hfield'.symm.trans hfield) ▸ hm
        · rw [children_of_field? hfield] at hc
          exact absurd hc List.not_mem_nil
      · rcases mentions_iff.mp hn with hfield' | ⟨c, hc, hn⟩
        · rw [hfield] at hfield'
          cases hfield'
        · exact ih c hc (hchildren c hc) n hn

instance (dim : Formula → Prop) [DecidablePred dim] (f : Formula) : Decidable (f.Covered dim) :=
  decidable_of_iff (∀ p ∈ f.paths, (f.fieldAt? p).isSome = true →
      ∃ a ∈ p.inits, ∃ g ∈ f.at? a, dim g) <| by
    constructor
    · intro h p n hp
      obtain ⟨x, hx, -⟩ := Option.bind_eq_some_iff.mp hp
      obtain ⟨a, ha, g, hg, hdim⟩ := h p (mem_paths_iff.mpr (by rw [hx]; rfl)) (by rw [hp]; rfl)
      exact ⟨a, g, (List.mem_inits a p).mp ha, hg, hdim⟩
    · intro h p _ hp
      obtain ⟨n, hn⟩ := Option.isSome_iff_exists.mp hp
      obtain ⟨a, g, ha, hg, hdim⟩ := h p n hn
      exact ⟨a, (List.mem_inits a p).mpr ha, g, hg, hdim⟩

end Covered

/-! ## Transformed formulas -/

section Transform

variable {rule : Rule} {above : List Formula} {dim : Formula → Prop} {f : Formula}
  (hdim : ∀ f g : Formula, f.same g = true → dim f → dim g)

include hdim

theorem covered_transformChild
    (h : ((rule above (f.transformBelow rule above)).getD (f.transformBelow rule above)).Covered
      dim) : (transformChild rule above f).Covered dim := by
  rw [transformChild]
  split
  next hsame => exact h.of_same hdim hsame
  next => exact h

theorem covered_transform (h : (transformChild rule [] f).Covered dim) :
    (f.transform rule).Covered dim := by
  have hoffer : ((rule [] (f.transformBelow rule [])).getD (f.transformBelow rule [])).Covered
      dim := by
    rw [transformChild] at h
    split at h
    next hsame => exact h.of_same hdim (same_symm hsame)
    next => exact h
  rw [transform]
  split
  next r hr =>
    rw [hr, Option.getD_some] at hoffer
    split
    next hsame => exact hoffer.of_same hdim hsame
    next => exact hoffer
  next hr =>
    rw [hr, Option.getD_none] at hoffer
    exact hoffer

theorem covered_transformBelow (hfield : f.field? = none)
    (h : ∀ c ∈ f.children, (transformChild rule (above ++ [f]) c).Covered dim) :
    (f.transformBelow rule above).Covered dim := by
  rw [transformBelow_eq]
  dsimp only
  split
  next hsame =>
    refine covered_iff.mpr (Or.inr ⟨hfield, fun c hc => ?_⟩)
    obtain ⟨d, hd, hdc⟩ := forall₂_exists_left (forall₂_of_beq hsame) hc
    obtain ⟨c', hc', rfl⟩ := List.mem_map.mp hd
    exact (h c' hc').of_same hdim hdc
  next =>
    refine covered_iff.mpr (Or.inr ⟨(field?_withChildren f _).trans hfield, fun d hd => ?_⟩)
    rw [children_withChildren f _ (List.length_map _)] at hd
    obtain ⟨c, hc, rfl⟩ := List.mem_map.mp hd
    exact h c hc

end Transform

theorem field?_transformBelow (rule : Rule) (above : List Formula) (f : Formula) :
    (f.transformBelow rule above).field? = f.field? := by
  rw [transformBelow_eq]
  dsimp only
  split
  · rfl
  · exact field?_withChildren f _

end Formula

namespace Split

/-! ## Columns for extras -/

section InColumns

/-- The node is an extra that is still to come, or the column of one that is done. -/
def Pending (todo done : List Extra) (g : Formula) : Prop :=
  (∃ x ∈ todo, (g == x.expr) = true) ∨ ∃ x ∈ done, g.field? = some x.aliasName

theorem Pending.of_same {todo done : List Extra} {f g : Formula} (hfg : f.same g = true)
    (h : Pending todo done f) : Pending todo done g := by
  rcases h with ⟨x, hx, hsame⟩ | ⟨x, hx, hfield⟩
  · exact Or.inl ⟨x, hx, BEq.trans (BEq.symm hfg) hsame⟩
  · exact Or.inr ⟨x, hx, (Formula.field?_eq_of_same hfg).symm.trans hfield⟩

/-- Columns for one expression. -/
def columnFor (x : Extra) (g : Formula) : Option String :=
  if g == x.expr then some x.aliasName else none

variable {x : Extra} {todo done : List Extra} {f : Formula}

theorem columnFor_eq_some {n : String} :
    columnFor x f = some n ↔ (f == x.expr) = true ∧ x.aliasName = n := by
  rw [columnFor, Option.ite_none_right_eq_some, Option.some.injEq]

/-- An expression that is no larger than the extra holds it nowhere below. -/
theorem not_holdsBelow_of_size (h : f.size ≤ x.expr.size) :
    ¬ f.HoldsBelow (HasColumn (columnFor x)) := by
  intro hbelow
  obtain ⟨g, ⟨n, hn⟩, hlt⟩ := Formula.exists_smaller_of_holdsBelow hbelow
  have hsize := Formula.size_eq_of_same (columnFor_eq_some.mp hn).1
  omega

/-- One step of putting columns: the extra is done, and what is still to come is left whole because
it is no larger. -/
theorem covered_columnFor (hsize : ∀ y ∈ todo, y.expr.size ≤ x.expr.size)
    (hf : f.Covered (Pending (x :: todo) done)) (above : List Formula) :
    (Formula.transformChild (columnRule (columnFor x)) above f).Covered
      (Pending todo (x :: done)) := by
  induction f using Formula.induction_children generalizing above with
  | step f ih =>
      refine Formula.covered_transformChild (fun _ _ => Pending.of_same) ?_
      by_cases hcolumn : HasColumn (columnFor x)
          (f.transformBelow (columnRule (columnFor x)) above)
      · obtain ⟨n, hn⟩ := hcolumn
        rw [columnRule, hn]
        obtain ⟨-, rfl⟩ := columnFor_eq_some.mp hn
        exact Formula.covered_iff.mpr (Or.inl (Or.inr ⟨x, List.mem_cons_self, rfl⟩))
      · rw [columnRule, alias?_eq_none hcolumn, Option.map_none, Option.getD_none]
        have hstays : ¬ f.HoldsBelow (HasColumn (columnFor x)) →
            f.transformBelow (columnRule (columnFor x)) above = f ∧ ¬ (f == x.expr) = true := by
          intro hbelow
          have heq := transformBelow_eq_self hbelow above
          rw [heq] at hcolumn
          exact ⟨heq, fun hsame => hcolumn ⟨_, columnFor_eq_some.mpr ⟨hsame, rfl⟩⟩⟩
        rcases Formula.covered_iff.mp hf with (⟨y, hy, hsame⟩ | ⟨y, hy, hfield⟩) | ⟨hfield, hcs⟩
        · have hle : f.size ≤ x.expr.size := by
            rw [Formula.size_eq_of_same hsame]
            rcases List.mem_cons.mp hy with rfl | hy
            · exact Nat.le_refl _
            · exact hsize y hy
          obtain ⟨heq, hnot⟩ := hstays (not_holdsBelow_of_size hle)
          rcases List.mem_cons.mp hy with rfl | hy
          · exact absurd hsame hnot
          · rw [heq]
            exact Formula.covered_iff.mpr (Or.inl (Or.inl ⟨y, hy, hsame⟩))
        · have hleaf : ¬ f.HoldsBelow (HasColumn (columnFor x)) := by
            rintro ⟨c, hc, -⟩
            rw [Formula.children_of_field? hfield] at hc
            exact absurd hc List.not_mem_nil
          rw [(hstays hleaf).1]
          exact Formula.covered_iff.mpr (Or.inl (Or.inr ⟨y, List.mem_cons_of_mem x hy, hfield⟩))
        · exact Formula.covered_transformBelow (fun _ _ => Pending.of_same) hfield
            fun c hc => ih c hc (hcs c hc) _

/-- With the largest first, all extras get their columns. -/
theorem covered_foldl_withColumn (hsorted : todo.Pairwise fun x y => y.expr.size ≤ x.expr.size)
    (hf : f.Covered (Pending todo done)) :
    (todo.foldl (fun f x => withColumn f x.expr x.aliasName) f).Covered
      (Pending [] (todo.reverse ++ done)) := by
  induction todo generalizing f done with
  | nil => exact hf
  | cons x todo ih =>
      rw [List.pairwise_cons] at hsorted
      have hstep : (withColumn f x.expr x.aliasName).Covered (Pending todo (x :: done)) :=
        Formula.covered_transform (fun _ _ => Pending.of_same) (covered_columnFor hsorted.1 hf [])
      rw [List.foldl_cons, List.reverse_cons, List.append_assoc]
      exact ih hsorted.2 hstep

/-- If extras cover all fields of an expression, only their columns are left. -/
theorem within_inColumns {extras : List Extra}
    (hf : f.Covered fun g => ∃ x ∈ extras, (g == x.expr) = true) :
    (inColumns extras f).Within fun n => ∃ x ∈ extras, x.aliasName = n := by
  let sorted := extras.mergeSort fun a b => b.expr.size ≤ a.expr.size
  have hsorted : sorted.Pairwise fun x y => y.expr.size ≤ x.expr.size := by
    have hpairs : sorted.Pairwise fun x y => decide (y.expr.size ≤ x.expr.size) = true :=
      List.pairwise_mergeSort (fun a b c hab hbc => by simp only [decide_eq_true_eq] at *; omega)
        (fun a b => by simp only [Bool.or_eq_true, decide_eq_true_eq]; omega) extras
    exact hpairs.imp of_decide_eq_true
  have hstart : f.Covered (Pending sorted []) :=
    hf.imp fun g ⟨x, hx, hsame⟩ => Or.inl ⟨x, List.mem_mergeSort.mpr hx, hsame⟩
  refine Formula.Covered.within ((covered_foldl_withColumn hsorted hstart).imp fun g hg => ?_)
  rcases hg with ⟨x, hx, -⟩ | ⟨x, hx, hfield⟩
  · exact absurd hx List.not_mem_nil
  · rw [List.append_nil, List.mem_reverse, List.mem_mergeSort] at hx
    exact ⟨x.aliasName, ⟨x, hx, rfl⟩, hfield⟩

end InColumns

/-! ## Columns of the base -/

/-- Renaming fields renames each on its own. -/
theorem mentions_renamed {rename : String → Option String} {f : Formula} {n : String}
    (h : (withColumns (fun g => g.field?.bind rename) f).Mentions n) :
    ∃ m, f.Mentions m ∧ (rename m).getD m = n := by
  have hbelow : ∀ above : List Formula,
      (Formula.transformChild (columnRule fun g => g.field?.bind rename) above f).Mentions n →
        ∃ m, f.Mentions m ∧ (rename m).getD m = n := by
    clear h
    induction f using Formula.induction_children with
    | step f ih =>
        intro above h
        rw [Formula.mentions_transformChild_iff, columnRule,
          Formula.field?_transformBelow] at h
        cases hfield : f.field? with
        | some m =>
            refine ⟨m, Formula.mentions_iff.mpr (Or.inl hfield), ?_⟩
            rw [hfield, Option.bind_some] at h
            cases hname : rename m with
            | some k =>
                rw [hname] at h
                exact (Formula.mentions_field_iff.mp h).symm
            | none =>
                rw [hname, Option.map_none, Option.getD_none,
                  Formula.mentions_transformBelow_iff] at h
                rcases h with hn | ⟨c, hc, -⟩
                · exact Option.some.inj (hfield.symm.trans hn)
                · rw [Formula.children_of_field? hfield] at hc
                  exact absurd hc List.not_mem_nil
        | none =>
            rw [hfield, Option.bind_none, Option.map_none, Option.getD_none,
              Formula.mentions_transformBelow_iff] at h
            rcases h with hn | ⟨c, hc, hn⟩
            · rw [hfield] at hn
              cases hn
            · obtain ⟨m, hm, hname⟩ := ih c hc (above ++ [f]) hn
              exact ⟨m, Formula.mentions_iff.mpr (Or.inr ⟨c, hc, hm⟩), hname⟩
  exact hbelow [] ((Formula.mentions_transform_iff _).mp h)

/-- Where the base selects all that another sub-query does, its columns can stand for the others. -/
theorem within_inBaseColumns {base m : Mask} {f : Formula}
    (hbase : ∀ x ∈ m.extras, (aliasIn base.extras x.expr).isSome = true)
    (hf : f.Within fun n => ∃ x ∈ m.extras, x.aliasName = n) :
    (inBaseColumns base m f).Within fun n => ∃ x ∈ base.extras, x.aliasName = n := by
  intro n hn
  obtain ⟨k, hk, hname⟩ := mentions_renamed hn
  obtain ⟨x, hx, hxk⟩ := hf k hk
  obtain ⟨y, hy⟩ := Option.isSome_iff_exists.mp
    (List.find?_isSome.mpr ⟨x, hx, beq_iff_eq.mpr hxk⟩ :
      (m.extras.find? fun x => x.aliasName == k).isSome = true)
  obtain ⟨c, hc⟩ := Option.isSome_iff_exists.mp (hbase y (List.mem_of_find?_eq_some hy))
  have hcolumn : baseColumn base m k = some c := by rw [baseColumn, hy, Option.bind_some, hc]
  rw [hcolumn, Option.getD_some] at hname
  obtain ⟨z, hz, hzc, -⟩ := exists_of_aliasIn hc
  exact ⟨z, hz, hzc.trans hname⟩

/-! ## Join conditions -/

/-- The two sides of a join condition. -/
def joinSides (base other : Mask) : JoinCondition Formula → Formula × Formula
  | .same e => (inBaseColumns base other e, e)
  | .pair e e' => (inBaseColumns base other e, e')

/-- The comparison of two sides. -/
def comparison (sides : Formula × Formula) : Formula := .binary joinEquality sides.1 sides.2

theorem joinFormula_eq (base other : Mask) (c : JoinCondition Formula) :
    joinFormula base other c = comparison (joinSides base other c) := by
  cases c <;> rfl

theorem joinFor?_eq_some {base m : Mask} {j : Entry} (h : joinFor? base m = some j) :
    (∃ t, j.join = some ⟨base.queryId, m.queryId, t⟩) ∧
      conjunction ((m.joining.map (joinSides base m)).map comparison) = some j.formula := by
  refine ⟨join_of_joinFor? h, ?_⟩
  rw [joinFor?] at h
  obtain ⟨f, hf, h⟩ := Option.bind_eq_some_iff.mp h
  obtain ⟨t, -, h⟩ := Option.bind_eq_some_iff.mp h
  obtain rfl := Option.some.inj h
  have hmap : (m.joining.map (joinSides base m)).map comparison =
      m.joining.map (joinFormula base m) := by
    rw [List.map_map]
    exact List.map_congr_left fun c _ => (joinFormula_eq base m c).symm
  rw [hmap]
  exact hf

section Scope

variable {q : Query} {a b : Names} {p : Plan} {s : Site}

/-- The dimensions of the fork cover all fields that it is joined on, aggregations apart. -/
def JoinsCovered (q : Query) (s : Site) : Prop :=
  ∀ c ∈ s.fork.joining, ∀ e ∈ c.parts, e.isAggregateExpression = true ∨
    e.Covered fun g => (forkDims q s.fork.lod).contains g = true

instance (q : Query) (s : Site) : Decidable (JoinsCovered q s) :=
  inferInstanceAs (Decidable (∀ c ∈ s.fork.joining, ∀ e ∈ c.parts,
    e.isAggregateExpression = true ∨
      e.Covered fun g => (forkDims q s.fork.lod).contains g = true))

/-- What a sub-query selects covers what it is joined on. -/
theorem JoinsCovered.selected (h : JoinsCovered q s) {extras : List Extra}
    (hextras : selection extras = (signatureOf q s).selection) {c : JoinCondition Formula}
    (hc : c ∈ (signatureOf q s).joining) {e : Formula} (he : e ∈ c.parts) :
    e.Covered fun g => ∃ x ∈ extras, (g == x.expr) = true := by
  have hselected : ∀ f isGroupBy, (f, isGroupBy) ∈ (signatureOf q s).selection →
      ∃ x ∈ extras, x.expr = f := by
    intro f isGroupBy hf
    obtain ⟨x, hx, heq⟩ := List.mem_map.mp (hextras ▸ hf)
    exact ⟨x, hx, congrArg Prod.fst heq⟩
  by_cases hdims : forkDims q s.fork.lod = []
  · rw [joining_signatureOf_nil hdims] at hc
    obtain rfl := List.mem_singleton.mp hc
    obtain rfl := List.mem_singleton.mp he
    exact Formula.covered_iff.mpr (Or.inr ⟨rfl, fun c hc => absurd hc List.not_mem_nil⟩)
  · have hfork : c ∈ s.fork.joining := joining_signatureOf hdims ▸ hc
    rcases h c hfork e he with haggregate | hcovered
    · have hmem : e ∈ (signatureOf q s).joinedAggregates :=
        List.mem_filter.mpr ⟨List.mem_flatMap.mpr ⟨c, hc, he⟩, haggregate⟩
      obtain ⟨x, hx, rfl⟩ := hselected e false
        (List.mem_append_right _ (List.mem_map_of_mem hmem))
      exact Formula.covered_iff.mpr (Or.inl ⟨x, hx, BEq.rfl⟩)
    · refine hcovered.imp fun g hg => ?_
      obtain ⟨d, hd, hgd⟩ := List.contains_iff_exists_mem_beq.mp hg
      have hmem : d ∈ (signatureOf q s).dims := by simpa [signatureOf, hdims] using hd
      obtain ⟨x, hx, rfl⟩ := hselected d _ (List.mem_append_left _ (List.mem_map_of_mem hmem))
      exact ⟨x, hx, hgd⟩

/-- Both sides of a condition of a sub-query are in columns, those of the base and its own. -/
theorem within_joinSides {base m : Mask} (hm : m ∈ (forkMasks q a).1)
    (hbase : ∀ x ∈ m.extras, (aliasIn base.extras x.expr).isSome = true)
    (hjoining : ∀ s ∈ taken q, JoinsCovered q s) {c : JoinCondition Formula}
    (hc : c ∈ m.joining) :
    (joinSides base m c).1.Within (· ∈ base.columns) ∧
      (joinSides base m c).2.Within (· ∈ m.columns) := by
  obtain ⟨s, hs, hextras, hconditions⟩ := forkMask_signature hm
  obtain ⟨c₀, hc₀, rfl⟩ := List.mem_map.mp (hconditions ▸ hc)
  have hpart : ∀ e ∈ c₀.parts,
      (inColumns m.extras e).Within fun n => ∃ x ∈ m.extras, x.aliasName = n :=
    fun e he => within_inColumns ((hjoining s hs).selected hextras hc₀ he)
  have hleft : ∀ e ∈ c₀.parts,
      (inBaseColumns base m (inColumns m.extras e)).Within (· ∈ base.columns) :=
    fun e he n hn => mem_columns_iff.mpr (Or.inr (within_inBaseColumns hbase (hpart e he) n hn))
  have hright : ∀ e ∈ c₀.parts, (inColumns m.extras e).Within (· ∈ m.columns) :=
    fun e he n hn => mem_columns_iff.mpr (Or.inr (hpart e he n hn))
  cases c₀ with
  | same e =>
      exact ⟨hleft e (by simp [JoinCondition.parts]), hright e (by simp [JoinCondition.parts])⟩
  | pair e e' =>
      exact ⟨hleft e (by simp [JoinCondition.parts]), hright e' (by simp [JoinCondition.parts])⟩

end Scope

end Split

/-- The query selects something under the name. -/
def Query.Selects (q : Query) (n : String) : Prop := ∃ e ∈ q.select, e.aliasName = some n

namespace Split

theorem SubqueryOf.selects {q x : Query} {m : Mask} (h : SubqueryOf q m x) {f : Formula}
    (hf : f.Within (· ∈ m.columns)) : f.Within x.Selects :=
  fun n hn => h.column (hf n hn)

/-- Every join of the cropped query compares columns of the base, which is the first sub-query, with
columns of the sub-query that is joined. -/
theorem joins_scoped {q : Query} {a b : Names} {p : Plan} {qs : List Query}
    (hplan : plan q a = (some p, b)) (hqs : p.queries q = .ok qs)
    (hjoining : ∀ s ∈ taken q, JoinsCovered q s) :
    ∃ subs c, qs = subs ++ [c] ∧ ∀ j ∈ c.joinOn, ∃ base joined,
      subs.head? = some base ∧ joined ∈ subs ∧
      (∃ t, j.join = some ⟨base.id, joined.id, t⟩) ∧
      ∃ sides : List (Formula × Formula),
        conjunction (sides.map comparison) = some j.formula ∧
        ∀ s ∈ sides, s.1.Within base.Selects ∧ s.2.Within joined.Selects := by
  obtain ⟨base, others, hmasks, -, hothers, -⟩ := plan_shape hplan
  obtain ⟨subs, c, rfl, hround⟩ := queries_spec hqs
  obtain ⟨base', others', hmasks', -, -, hjoinOn⟩ := hround.cropped
  obtain ⟨rfl, rfl⟩ := List.cons.inj (hmasks.symm.trans hmasks')
  have hsubs := hround.subqueries
  rw [hmasks] at hsubs
  obtain ⟨x, xs, hx, hxs, rfl⟩ := List.forall₂_cons_left_iff.mp hsubs
  refine ⟨x :: xs, c, rfl, fun j hj => ?_⟩
  rw [hjoinOn] at hj
  split at hj
  next =>
    obtain ⟨m, hm, hfor⟩ := List.mem_filterMap.mp hj
    obtain ⟨y, hy, hsub⟩ := forall₂_exists_right hxs hm
    obtain ⟨⟨t, hjoin⟩, hformula⟩ := joinFor?_eq_some hfor
    refine ⟨x, y, rfl, List.mem_cons_of_mem x hy, ⟨t, ?_⟩, _, hformula, fun s hs => ?_⟩
    · rw [hjoin, hx.id, hsub.id]
    · obtain ⟨condition, hcondition, rfl⟩ := List.mem_map.mp hs
      obtain ⟨hleft, hright⟩ := within_joinSides (hothers m hm)
        (plan_base_selects hplan hmasks m hm) hjoining hcondition
      exact ⟨hx.selects hleft, hsub.selects hright⟩
  next => exact absurd hj List.not_mem_nil

/-- The sales of the day before are joined on a shifted date. -/
theorem joins_scoped_dayBefore :
    ∃ q p b subs c, (dayBefore sumOfSales).compile orders .default = .ok q ∧
      plan q .start = (some p, b) ∧ p.queries q = .ok (subs ++ [c]) ∧
      (∀ s ∈ taken q, JoinsCovered q s) ∧
      ∃ j ∈ c.joinOn, ∃ base joined, ∃ sides : List (Formula × Formula),
        subs.head? = some base ∧ joined ∈ subs ∧
        conjunction (sides.map comparison) = some j.formula ∧
        ∀ s ∈ sides, s.1.Within base.Selects ∧ s.2.Within joined.Selects := by
  have hok : (((dayBefore sumOfSales).compile orders .default).toOption.any fun q =>
      decide (∀ s ∈ taken q, JoinsCovered q s) && (plan q .start).1.any fun p =>
        (p.queries q).toOption.any fun qs => qs.getLast?.any fun c =>
          !c.joinOn.isEmpty) = true := by decide +kernel
  obtain ⟨q, hq, htest⟩ := exists_eq_ok hok
  rw [Bool.and_eq_true, decide_eq_true_eq, Option.any_eq_true] at htest
  obtain ⟨hcovered, p, hp, htest⟩ := htest
  obtain ⟨qs, hqs, htest⟩ := exists_eq_ok htest
  have hplan : plan q .start = (some p, (plan q .start).2) := Prod.ext hp rfl
  obtain ⟨subs, c, rfl, hall⟩ := joins_scoped hplan hqs hcovered
  simp only [List.getLast?_append, List.getLast?_singleton, Option.some_or, Option.any_some,
    Bool.not_eq_true', List.isEmpty_eq_false_iff] at htest
  obtain ⟨j, hj⟩ := List.exists_mem_of_ne_nil _ htest
  obtain ⟨base, joined, hbase, hjoined, -, sides, hsides, hwithin⟩ := hall j hj
  exact ⟨q, p, _, subs, c, hq, hplan, hqs, hcovered, j, hj, base, joined, sides, hbase, hjoined,
    hsides, hwithin⟩

end Split

end FormulaSql
