import FormulaSql.Proofs.Query.NumberedAliases
import FormulaSql.Proofs.Query.Positions

/-!
# The aliases of dimensions

Orderings take the alias of a dimension that is the same, if they have none, and filters only have
the aliases that they are given. So if the aliases that are given are distinct and do not look like
numbered ones, the alias of a dimension stands for one formula. Preparing a query treats selected
formulas, dimensions and orderings alike and leaves their aliases alone.

* `Compile.build_same` says so of the query that is built
* `QuerySpec.compile_namesDimensions` says so of the compiled query
-/

namespace FormulaSql

/-! ## Given aliases -/

namespace QuerySpec

/-- The aliases that a description gives. -/
def givenAliases (spec : QuerySpec) : List String :=
  (spec.select ++ spec.groupBy ++ (spec.filters ++ spec.orderBy)).filterMap SpecItem.aliasName

/-- The aliases that are given are distinct, and none begins like the numbered ones. -/
structure GivesAliases (spec : QuerySpec) : Prop where
  nodup : spec.givenAliases.Nodup
  stem : ∀ n ∈ spec.givenAliases, ¬ Compile.aliasStem.toList <+: n.toList

section GivesAliases

variable {spec : QuerySpec} {item item' : SpecItem} {n : String}

theorem GivesAliases.not_mem_names (h : spec.GivesAliases)
    (hitem : item ∈ spec.select ++ spec.groupBy ++ (spec.filters ++ spec.orderBy))
    (hn : item.aliasName = some n) {supply : NameSupply} (hstem : supply.stem = Compile.aliasStem)
    (k : Nat) : n ∉ supply.names k := by
  intro hmem
  obtain ⟨l, -, -, rfl⟩ := NameSupply.mem_names.mp hmem
  refine h.stem _ (List.mem_filterMap.mpr ⟨item, hitem, hn⟩) ?_
  rw [hstem, String.toList_append]
  exact List.prefix_append _ _

/-- So the aliases of selected formulas and dimensions do not clash. -/
theorem GivesAliases.columns (h : spec.GivesAliases) : spec.AliasesApart := by
  refine ⟨?_, ?_, ?_⟩
  · exact h.nodup.sublist ((List.sublist_append_left _ _).filterMap _)
  all_goals
    intro n hn
    obtain ⟨item, hitem, hname⟩ := List.mem_filterMap.mp hn
    exact h.not_mem_names (List.mem_append_left _ hitem) hname rfl _

theorem GivesAliases.apart (h : spec.GivesAliases) (hitem : item ∈ spec.select ++ spec.groupBy)
    (hitem' : item' ∈ spec.filters ++ spec.orderBy) (hn : item.aliasName = some n) :
    item'.aliasName ≠ some n := by
  intro hn'
  have hnodup := h.nodup
  rw [givenAliases, List.filterMap_append] at hnodup
  exact (List.nodup_append.mp hnodup).2.2 n (List.mem_filterMap.mpr ⟨item, hitem, hn⟩) n
    (List.mem_filterMap.mpr ⟨item', hitem', hn'⟩) rfl

end GivesAliases

end QuerySpec

namespace Compile

/-! ## The query that is built -/

section Build

variable {r : Registry} {spec : QuerySpec} {x y d e : Entry} {n : String}

theorem orderBy_cases (he : e ∈ (build r spec).orderBy) (hn : e.aliasName = some n) :
    ∃ item ∈ spec.orderBy, e.formula = (orderItem item).1.formula ∧ (item.aliasName = some n ∨
      ∃ d ∈ (build r spec).groupBy, (d.formula == e.formula) = true ∧ d.aliasName = some n) := by
  obtain ⟨item, hitem, rfl⟩ := List.mem_map.mp he
  refine ⟨item, hitem, rfl, ?_⟩
  rcases Option.or_eq_some_iff.mp hn with hgiven | ⟨-, hknown⟩
  · have hkeeps : (orderItem item).1.aliasName = item.aliasName := by
      unfold orderItem
      split <;> rfl
    exact Or.inl (hkeeps.symm.trans hgiven)
  · exact Or.inr (aliasOf_eq_some hknown)

variable (h : spec.GivesAliases)
include h

/-- An alias that is given to a filter or an ordering is not one of a dimension. -/
theorem not_alias_of_groupBy {item : SpecItem} (hitem : item ∈ spec.filters ++ spec.orderBy)
    (hn : item.aliasName = some n) (hd : d ∈ (build r spec).groupBy) : d.aliasName ≠ some n := by
  intro hdn
  have hnumbered {supply : NameSupply} (hstem : supply.stem = aliasStem) (k : Nat) :=
    h.not_mem_names (List.mem_append_right _ hitem) hn hstem k
  obtain ⟨item', hitem', -, hgiven' | ⟨y, hy, hsame, hyn⟩ | hnumber⟩ := groupBy_cases hd hdn
  · exact h.apart (List.mem_append_right _ hitem') hitem hgiven' hn
  · obtain ⟨item', hitem', -, hgiven' | hnumber⟩ := select_cases hy hyn
    · exact h.apart (List.mem_append_left _ hitem') hitem hgiven' hn
    · exact hnumbered rfl _ hnumber
  · exact hnumbered rfl _ hnumber

theorem same_of_orderBy (he : e ∈ (build r spec).orderBy) (hd : d ∈ (build r spec).groupBy)
    (hen : e.aliasName = some n) (hdn : d.aliasName = some n) :
    (e.formula == d.formula) = true := by
  obtain ⟨item, hitem, -, hgiven | ⟨d', hd', hsame, hdn'⟩⟩ := orderBy_cases he hen
  · exact absurd hdn (not_alias_of_groupBy h (List.mem_append_right _ hitem) hgiven hd)
  · exact BEq.trans (BEq.symm hsame) (same_of_groupBy h.columns hd' hd hdn' hdn)

/-- Whatever has the alias of a dimension is this dimension, and no filter has one. -/
theorem build_same {p : Part} (hp : p ≠ .joinOn) (he : e ∈ (build r spec).part p)
    (hd : d ∈ (build r spec).groupBy) (hen : e.aliasName = some n) (hdn : d.aliasName = some n) :
    p ≠ .filters ∧ (e.formula == d.formula) = true := by
  cases p with
  | select => exact ⟨by simp, same_of_select_groupBy h.columns he hd hen hdn⟩
  | groupBy => exact ⟨by simp, same_of_groupBy h.columns he hd hen hdn⟩
  | orderBy => exact ⟨by simp, same_of_orderBy h he hd hen hdn⟩
  | joinOn => exact absurd rfl hp
  | filters =>
      obtain ⟨item, hitem, rfl⟩ := List.mem_map.mp he
      exact absurd hdn (not_alias_of_groupBy h (List.mem_append_left _ hitem) hen hd)

end Build

end Compile

/-! ## The compiled query -/

/-- The alias of a dimension stands for this dimension, wherever it is used. -/
def Query.NamesDimensions (q : Query) : Prop :=
  ∀ part ∈ Part.all, part ≠ .joinOn → ∀ e ∈ q.part part, ∀ d ∈ q.groupBy, ∀ n,
    e.aliasName = some n → d.aliasName = some n → (d.formula == e.formula) = true

namespace QuerySpec

variable {spec : QuerySpec} {r : Registry} {s : Settings} {q : Query}

/-- The formulas that can share an alias. -/
def sharingFormulas (spec : QuerySpec) : List Formula :=
  (spec.select ++ spec.groupBy ++ spec.orderBy.map fun item => (Compile.orderItem item).1).map
    SpecItem.formula

/-- Formulas that are the same and can share an alias are written alike: they differ in positions
only, not in the spelling of floats. -/
def WritesAlike (spec : QuerySpec) : Prop :=
  ∀ f ∈ spec.sharingFormulas, ∀ g ∈ spec.sharingFormulas, (f == g) = true → f.bare = g.bare

theorem mem_sharingFormulas {p : Part} (hfilters : p ≠ .filters) (hjoin : p ≠ .joinOn) {e : Entry}
    {n : String} (he : e ∈ (Compile.build r spec).part p) (hn : e.aliasName = some n) :
    e.formula ∈ spec.sharingFormulas := by
  have hmem {item : SpecItem} (hitem : item ∈ spec.select ++ spec.groupBy ++
      spec.orderBy.map fun item => (Compile.orderItem item).1)
      (hformula : e.formula = item.formula) : e.formula ∈ spec.sharingFormulas :=
    List.mem_map.mpr ⟨item, hitem, hformula.symm⟩
  cases p with
  | select =>
      obtain ⟨item, hitem, hformula, -⟩ := Compile.select_cases he hn
      exact hmem (List.mem_append_left _ (List.mem_append_left _ hitem)) hformula
  | groupBy =>
      obtain ⟨item, hitem, hformula, -⟩ := Compile.groupBy_cases he hn
      exact hmem (List.mem_append_left _ (List.mem_append_right _ hitem)) hformula
  | orderBy =>
      obtain ⟨item, hitem, hformula, -⟩ := Compile.orderBy_cases he hn
      exact hmem (List.mem_append_right _ (List.mem_map_of_mem hitem)) hformula
  | filters => exact absurd rfl hfilters
  | joinOn => exact absurd rfl hjoin

/-- The query that is compiled is the one that was built, with its formulas changed. -/
theorem compile_changes (h : spec.compile r s = .ok q) : (Compile.build r spec).ChangesInto q := by
  obtain ⟨-, sources, -, hprocess⟩ := compile_eq_ok h
  have hbuilt : (Compile.build r spec).ChangesInto { Compile.build r spec with sources } :=
    Pipeline.changesInto_of_subset fun p => by cases p <;> exact List.Subset.refl _
  exact Pipeline.changesInto_trans hbuilt (Query.process_changes hprocess)

/-- In a compiled query the alias of a dimension stands for this dimension. -/
theorem compile_namesDimensions (haliases : spec.GivesAliases) (hwritten : spec.WritesAlike)
    (h : spec.compile r s = .ok q) : q.NamesDimensions := by
  obtain ⟨⟨g, hg, hformulas⟩, hfilters⟩ := compile_changes h
  intro p _ hjoin e' he' d' hd' n hen hdn
  obtain ⟨d, hd, hdname, hdformula⟩ := hformulas .groupBy (by simp) d' hd'
  rw [hdname] at hdn
  by_cases hp : p = .filters
  · subst hp
    obtain ⟨e, he, hename⟩ := hfilters e' he'
    exact absurd rfl (Compile.build_same haliases hjoin he hd (hename ▸ hen) hdn).1
  · obtain ⟨e, he, hename, heformula⟩ := hformulas p hp e' he'
    rw [hename] at hen
    have hsame := (Compile.build_same haliases hjoin he hd hen hdn).2
    have halike : e.formula.bare = d.formula.bare :=
      hwritten _ (mem_sharingFormulas hp hjoin he hen) _
        (mem_sharingFormulas (p := .groupBy) (by simp) (by simp) hd hdn) hsame
    have halike' : d'.formula.bare = e'.formula.bare := by
      rw [hdformula, heformula, hg _ _ halike]
    rw [← Formula.beq_bare_left, halike']
    exact Formula.bare_same _

/-- The aliases of filters are those that are given. -/
theorem compile_filterAlias (h : spec.compile r s = .ok q) {e : Entry} (he : e ∈ q.filters) :
    ∃ item ∈ spec.filters, e.aliasName = item.aliasName := by
  obtain ⟨e₀, he₀, hname⟩ := (compile_changes h).filters e he
  obtain ⟨item, hitem, rfl⟩ := List.mem_map.mp he₀
  exact ⟨item, hitem, hname⟩

end QuerySpec

end FormulaSql
