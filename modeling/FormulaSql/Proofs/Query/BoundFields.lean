import FormulaSql.Proofs.Query.Compile
import FormulaSql.Proofs.Query.Stages
import FormulaSql.Proofs.Split.Rounds

/-!
# Bound fields

The formulas of a description are checked before a query is prepared, and the tables they need are
collected then. The default ordering is not among them. It is brought in later, by window calls that
depend on the order of rows, and with it fields that nobody has looked up.

* `QuerySpec.compile_bound`: every other field of a compiled query is a column of a table it reads
-/

namespace FormulaSql

/-! ## Window calls that take the default ordering -/

namespace Formula

variable {f : Formula} {ordering : List Formula}

/-- The node is a window call that the default ordering is added to. -/
def takesOrdering (f : Formula) : Bool :=
  f.window?.any fun w => Function.usesDefaultOrdering w.name

theorem defaultOrdering_eq_none_of_takesOrdering (h : f.takesOrdering = false) :
    Normalize.defaultOrdering ordering [] f = none := by
  rw [Normalize.defaultOrdering]
  cases hw : f.window? with
  | none => rfl
  | some w =>
      have huses : Function.usesDefaultOrdering w.name = false := by
        rwa [takesOrdering, hw] at h
      simp [huses]

theorem rests_defaultOrdering (h : f.any takesOrdering = false) :
    f.Rests (Normalize.defaultOrdering ordering) [] := by
  refine rests_of_all (fun _ _ => rfl) fun g hg => ?_
  refine defaultOrdering_eq_none_of_takesOrdering ?_
  exact Bool.eq_false_iff.mpr (List.any_eq_false.mp h g hg)

theorem transformAll_defaultOrdering (h : f.any takesOrdering = false) (rules : List Rule) :
    f.transformAll (Normalize.defaultOrdering ordering :: rules) = f.transformAll rules := by
  rw [transformAll, List.foldl_cons, transform_eq_self (rests_defaultOrdering h)]
  rfl

end Formula

section Ordering

variable {q : Query} {ordering : List Formula}

theorem Query.mapFormulas_congr {F G : Part → Formula → Formula}
    (h : ∀ part, ∀ e ∈ q.part part, F part e.formula = G part e.formula) :
    q.mapFormulas F = q.mapFormulas G := by
  have hpart (part : Part) :
      (q.part part).map (Query.mapEntry (F part)) = (q.part part).map (Query.mapEntry (G part)) :=
    List.map_congr_left fun e he => by rw [Query.mapEntry, Query.mapEntry, h part e he]
  have hselect := hpart .select
  have hgroupBy := hpart .groupBy
  have hfilters := hpart .filters
  have horderBy := hpart .orderBy
  have hjoinOn := hpart .joinOn
  simp only [Query.part] at hselect hgroupBy hfilters horderBy hjoinOn
  rw [Query.mapFormulas, Query.mapFormulas, hselect, hgroupBy, hfilters, horderBy, hjoinOn]

/-- Where no window call takes it, the default ordering makes no difference. -/
theorem Query.process_eq_unordered {s : Settings}
    (h : ∀ part, ∀ e ∈ q.part part, e.formula.any Formula.takesOrdering = false) :
    q.process s ordering = q.process s [] := by
  have hprepare : Pipeline.prepare ordering q = Pipeline.prepare [] q := by
    refine congrArg Except.ok (Query.mapFormulas_congr fun part e he => ?_)
    rw [Formula.transformAll_defaultOrdering (h part e he),
      Formula.transformAll_defaultOrdering (h part e he)]
  rw [Query.process, Query.process, Pipeline.stages, Pipeline.stages, List.foldlM_cons,
    List.foldlM_cons, hprepare]

end Ordering

/-! ## The formulas of a description -/

/-- All formulas of the description, the default ordering apart. -/
def QuerySpec.formulas (spec : QuerySpec) : List Formula :=
  (spec.select ++ spec.groupBy ++ spec.filters ++ spec.orderBy).map SpecItem.formula ++
    spec.joinOn.map SpecJoin.formula

/-- Some window call in the description takes the default ordering. -/
def QuerySpec.takesOrdering (spec : QuerySpec) : Bool :=
  spec.formulas.any fun f => f.any Formula.takesOrdering

namespace Compile

variable {r : Registry} {spec : QuerySpec}

/-- An ordering is looked at without its direction. -/
theorem orderItem_mem_nodes (item : SpecItem) :
    (orderItem item).1.formula ∈ item.formula.nodes := by
  unfold orderItem
  split
  next e d hk => exact Formula.mem_nodes_of_kind hk List.mem_cons_self
  next => exact Formula.self_mem_nodes item.formula

/-- The formula of an entry is one of the description, or what one orders by. -/
theorem exists_formula_of_build {p : Part} {e : Entry} (he : e ∈ (build r spec).part p) :
    ∃ f ∈ spec.formulas, e.formula ∈ f.nodes := by
  have hitems {items : List SpecItem} (hsub : items ⊆ spec.select ++ spec.groupBy ++
      spec.filters ++ spec.orderBy) {es : List Entry}
      (hes : es.map Entry.formula = (items.map (entryFor r)).map Entry.formula) (he : e ∈ es) :
      ∃ f ∈ spec.formulas, e.formula ∈ f.nodes := by
    have hmem := List.mem_map_of_mem (f := Entry.formula) he
    rw [hes, List.map_map] at hmem
    obtain ⟨item, hitem, hformula⟩ := List.mem_map.mp hmem
    refine ⟨item.formula, List.mem_append_left _ (List.mem_map_of_mem (hsub hitem)), ?_⟩
    exact hformula ▸ Formula.self_mem_nodes item.formula
  cases p with
  | select => exact hitems (fun _ h => by simp [h]) (assignAliases_formulas _ _ _) he
  | groupBy => exact hitems (fun _ h => by simp [h]) (assignAliases_formulas _ _ _) he
  | filters => exact hitems (fun _ h => by simp [h]) rfl he
  | orderBy =>
      obtain ⟨item, hitem, rfl⟩ := List.mem_map.mp he
      exact ⟨item.formula, List.mem_append_left _ (List.mem_map_of_mem (by simp [hitem])),
        orderItem_mem_nodes item⟩
  | joinOn =>
      obtain ⟨j, hj, rfl⟩ := List.mem_map.mp he
      exact ⟨j.formula, List.mem_append_right _ (List.mem_map_of_mem hj),
        Formula.self_mem_nodes j.formula⟩

theorem takesOrdering_of_build (h : spec.takesOrdering = false) {p : Part} {e : Entry}
    (he : e ∈ (build r spec).part p) : e.formula.any Formula.takesOrdering = false := by
  obtain ⟨f, hf, hnode⟩ := exists_formula_of_build he
  have hnone := List.any_eq_false.mp h f hf
  refine List.any_eq_false.mpr fun g hg htakes => hnone (List.any_eq_true.mpr ⟨g, ?_, htakes⟩)
  exact Formula.mem_nodes_trans hnode hg

end Compile

/-! ## Compiled queries -/

namespace QuerySpec

/-- Every field of a compiled query is a column of a table that it reads, or it comes from the
default ordering, which some window call then takes. -/
theorem compile_bound {spec : QuerySpec} {r : Registry} {s : Settings} {q : Query}
    (h : spec.compile r s = .ok q) :
    q.FieldsIn fun n => q.ReadsColumn r n ∨
      spec.takesOrdering = true ∧ ∃ o ∈ spec.defaultOrdering, o.Mentions n := by
  obtain ⟨herrors, sources, hsources, hprocess⟩ := compile_eq_ok h
  have hbuilt := Compile.build_reads herrors hsources
  have hreads {n : String} (hsame : q.sources = sources)
      (hn : Query.ReadsColumn r { Compile.build r spec with sources } n) : q.ReadsColumn r n := by
    obtain ⟨c, hc, aliasName, table, hmem⟩ := hn
    exact ⟨c, hc, aliasName, table, hsame ▸ hmem⟩
  by_cases htakes : spec.takesOrdering = true
  · obtain ⟨hfields, hsame⟩ := process_keeps
      (S := fun n => Query.ReadsColumn r { Compile.build r spec with sources } n ∨
        ∃ o ∈ spec.defaultOrdering, o.Mentions n)
      (fun o ho n hn => Or.inr ⟨o, ho, hn⟩)
      (fun p e he n hn => Or.inl (hbuilt p e he n hn)) hprocess
    intro p e he n hn
    exact (hfields p e he n hn).imp (hreads hsame) fun hordering => ⟨htakes, hordering⟩
  · rw [Bool.not_eq_true] at htakes
    rw [Query.process_eq_unordered fun part e he => Compile.takesOrdering_of_build (r := r) htakes
      (p := part) (by cases part <;> exact he)] at hprocess
    obtain ⟨hfields, hsame⟩ := process_keeps
      (fun o ho => absurd ho List.not_mem_nil) hbuilt hprocess
    exact fun p e he n hn => Or.inl (hreads hsame (hfields p e he n hn))

/-- The running total of sales, ordered by a field. -/
def runningSales (ordering : String) : QuerySpec :=
  { Split.figureBy "city" (.window "rsum" [Split.sumOfSales] .total [] NameSet.empty) with
    defaultOrdering := [.field ordering] }

theorem compile_bound_runningSales :
    ∃ q, (runningSales "city").compile Split.orders .default = .ok q ∧
      q.FieldsIn (fun n => q.ReadsColumn Split.orders n ∨ (runningSales "city").takesOrdering = true ∧
        ∃ o ∈ (runningSales "city").defaultOrdering, o.Mentions n) ∧
      (runningSales "city").takesOrdering = true ∧ q.select.length = 2 := by
  have hok : (((runningSales "city").compile Split.orders .default).toOption.any
      fun q => q.select.length == 2) = true := by decide +kernel
  obtain ⟨q, hq, hlength⟩ := exists_eq_ok hok
  exact ⟨q, hq, compile_bound hq, by decide +kernel, beq_iff_eq.mp hlength⟩

/-- A field of the default ordering gets into the query though there is no such column. -/
theorem compile_unbound :
    ∃ q, (runningSales "nowhere").compile Split.orders .default = .ok q ∧
      ∃ e ∈ q.select, e.formula.Mentions "nowhere" ∧ Split.orders.column? "nowhere" = none := by
  have hok : (((runningSales "nowhere").compile Split.orders .default).toOption.any
      fun q => q.select.any fun e => e.formula.nodes.any fun g => g.field? == some "nowhere") =
      true := by decide +kernel
  obtain ⟨q, hq, hany⟩ := exists_eq_ok hok
  obtain ⟨e, he, hnodes⟩ := List.any_eq_true.mp hany
  obtain ⟨g, hg, hfield⟩ := List.any_eq_true.mp hnodes
  exact ⟨q, hq, e, he, ⟨g, hg, beq_iff_eq.mp hfield⟩, by decide +kernel⟩

end QuerySpec

end FormulaSql
