import FormulaSql.Proofs.Query.Acceptance
import FormulaSql.Proofs.Split.Connection
import FormulaSql.Proofs.Split.Regrouping

/-!
# Aggregation in the queries of a splitting

A sub-query computes parts of formulas wherever they stand, at the dimensions of its forks or of the
query that is cut. It passes the check of aggregation exactly if these parts do so at these
dimensions. They do not if a field is left over below an aggregation, beside a fork.

A graded query is cut into graded sub-queries and a query that reads from them, which has no forks
and is never cut again. It passes the check of aggregation, with one exception: next to window calls
over columns of sub-queries, no groups are needed.

* `Split.SubqueryOf.accepted_iff` and `Split.accepted_cropped_iff` are about the queries of a round
* `QuerySpec.compileMulti_consistent` is the statement about whole splittings
-/

namespace FormulaSql

/-- Window calls are computed for the rows of sub-queries, and nothing is aggregated or grouped. -/
structure Query.TakesRows (q : Query) : Prop where
  groupBy : q.groupBy = []
  sources : ∀ source ∈ q.sources, source.queryId?.isSome = true
  item : ∀ e ∈ q.select ++ q.orderBy,
    e.formula.isForked = false ∧ e.formula.containsAggregate = false
  window : ∃ e ∈ q.select ++ q.orderBy, e.formula.containsWindow = true
  filter : ∀ e ∈ q.filters, ∃ s, e.formula.groupState [] true = .ok s

namespace Split

open Formula

/-! ## Sub-queries -/

/-- The node that the sub-query computes for a cut. -/
def cutNode (q : Query) (c : Cut) : Option Formula :=
  ((q.part c.part)[c.index]?).bind fun e => e.formula.at? c.inner

/-- What a sub-query selects and does not group by. -/
def Mask.computes (m : Mask) (q : Query) : List Formula :=
  m.cuts.filterMap (cutNode q) ++ (m.extras.filter fun x => !x.isGroupBy).map Extra.expr

/-- What the sub-query computes and its filters go together with its dimensions. -/
structure Mask.Fits (m : Mask) (q : Query) : Prop where
  computes : (∀ f ∈ m.computes q, f.PerGroup m.groupByExprs) ∨
    m.groupByExprs = [] ∧ ∀ f ∈ m.computes q, f.PerRow []
  filters : ∀ e ∈ maskFilters q m,
    e.formula.PerGroup m.groupByExprs ∨ e.formula.PerRow m.groupByExprs

section Subqueries

variable {q x : Query} {m : Mask} {dims : List Formula} {f : Formula}

theorem perGroup_plainAggregate_iff : (plainAggregate f).PerGroup dims ↔ f.PerGroup dims := by
  rcases plainAggregate_eq f with heq | ⟨hcall, hcall', -⟩
  · rw [heq]
  · exact iff_of_true (.aggregate hcall') (.aggregate hcall)

theorem perRow_plainAggregate_iff : (plainAggregate f).PerRow [] ↔ f.PerRow [] := by
  have hnot {g : Formula} (hg : g.isAggregateCall = true) : ¬ g.PerRow [] := fun hrow =>
    absurd (containsAggregate_iff.mpr (Or.inl hg)) (by simp [not_containsAggregate_of_perRow hrow])
  rcases plainAggregate_eq f with heq | ⟨hcall, hcall', -⟩
  · rw [heq]
  · exact iff_of_false (hnot hcall') (hnot hcall)

/-- What holds of the selected entries holds of the nodes at the cuts. -/
theorem SelectedFrom.forall_iff {P : Formula → Prop} {cuts : List Cut} {es : List Entry}
    (h : SelectedFrom q cuts es) (hsame : ∀ f g, (f == g) = true → P f → P g)
    (hplain : ∀ f, P (plainAggregate f) ↔ P f) :
    (∀ e ∈ es, P e.formula) ↔ ∀ f ∈ cuts.filterMap (cutNode q), P f := by
  have hnode {c : Cut} {e : Entry} (he : cutEntry q c = .ok e) :
      ∃ f, cutNode q c = some f ∧ e.formula = plainAggregate f := by
    obtain ⟨e₀, f, he₀, hf, hformula, -⟩ := cutEntry_eq_ok he
    exact ⟨f, by rw [cutNode, he₀]; exact hf, hformula⟩
  constructor
  · intro hall f hf
    obtain ⟨c, hc, hcf⟩ := List.mem_filterMap.mp hf
    obtain ⟨e, he, s, hs, -, hse⟩ := h.column c hc
    obtain ⟨f', hf', hformula⟩ := hnode he
    obtain rfl := Option.some.inj (hf'.symm.trans hcf)
    exact (hplain f').mp (hformula ▸ hsame _ _ hse (hall s hs))
  · intro hall e he
    obtain ⟨c, hc, hce⟩ := h.entry e he
    obtain ⟨f, hf, hformula⟩ := hnode hce
    exact hformula ▸ (hplain f).mpr (hall f (List.mem_filterMap.mpr ⟨c, hc, hf⟩))

theorem SubqueryOf.dimensions_eq (h : SubqueryOf q m x) : x.dimensions = m.groupByExprs := by
  rw [Query.dimensions, h.groupBy, List.map_map]
  rfl

/-- What holds of the dimensions of a sub-query holds of all that it selects if it holds of what it
computes. -/
theorem SubqueryOf.forall_select_iff {P : Formula → Prop} (h : SubqueryOf q m x)
    (hsame : ∀ f g, (f == g) = true → P f → P g) (hplain : ∀ f, P (plainAggregate f) ↔ P f)
    (hdims : ∀ d ∈ m.groupByExprs, P d) :
    (∀ e ∈ x.select ++ x.orderBy, P e.formula) ↔ ∀ f ∈ m.computes q, P f := by
  obtain ⟨es, hes, hselect⟩ := h.select
  have hextras : (∀ e ∈ m.extras.map extraEntry, P e.formula) ↔
      ∀ f ∈ (m.extras.filter fun x => !x.isGroupBy).map Extra.expr, P f := by
    rw [List.forall_mem_map, List.forall_mem_map]
    constructor
    · exact fun hall y hy => hall y (List.mem_filter.mp hy).1
    · intro hall y hy
      cases hgroup : y.isGroupBy with
      | true => exact hdims y.expr (List.mem_map_of_mem (List.mem_filter.mpr ⟨hy, hgroup⟩))
      | false => exact hall y (List.mem_filter.mpr ⟨hy, by simp [hgroup]⟩)
  rw [hselect, h.orderBy, List.append_nil, List.forall_mem_append, Mask.computes,
    List.forall_mem_append, hes.forall_iff hsame hplain, hextras]

/-- A sub-query passes the check exactly if what it computes goes with its dimensions. -/
theorem SubqueryOf.accepted_iff (h : SubqueryOf q m x) : x.Accepted ↔ m.Fits q := by
  have hgroups := h.forall_select_iff (P := fun f => f.PerGroup m.groupByExprs)
    (fun _ _ hsame hf => hf.of_same hsame) (fun _ => perGroup_plainAggregate_iff)
    fun d hd => .dimension (contains_eq_true.mpr ⟨d, hd, BEq.rfl⟩)
  have hrows (hnone : m.groupByExprs = []) := h.forall_select_iff (P := fun f => f.PerRow [])
    (fun _ _ hsame hf => hf.of_same hsame) (fun _ => perRow_plainAggregate_iff)
    fun d hd => absurd (hnone ▸ hd) List.not_mem_nil
  rw [Query.accepted_iff, h.dimensions_eq, h.filters, hgroups]
  constructor
  · rintro ⟨hitems, hfilters⟩
    exact ⟨hitems.imp_right fun ⟨hnone, hall⟩ => ⟨hnone, (hrows hnone).mp hall⟩, hfilters⟩
  · rintro ⟨hitems, hfilters⟩
    exact ⟨hitems.imp_right fun ⟨hnone, hall⟩ => ⟨hnone, (hrows hnone).mpr hall⟩, hfilters⟩

end Subqueries

/-! ## Cropped queries -/

/-- The items of a cropped query that have the aliases of dimensions of the query that is cut. -/
def keys (q x : Query) : List Formula :=
  ((x.select ++ x.orderBy).filter fun e =>
    hasAliasIn (dimensionAliases q) e && !e.formula.isConstantExpression).map Entry.formula

/-- The other items, which are computed from columns. -/
def figures (q x : Query) : List Formula :=
  ((x.select ++ x.orderBy).filter fun e =>
    !hasAliasIn (dimensionAliases q) e && !e.formula.isConstantExpression).map Entry.formula

/-- All that is computed from columns is aggregated beside the dimensions that are grouped by, or
nothing is and there are no groups. -/
structure Regroups (q x : Query) : Prop where
  items : (∀ f ∈ figures q x, f.PerGroup x.dimensions) ∧
      (∀ k ∈ keys q x, x.dimensions.contains k = true) ∨
    x.dimensions = [] ∧ ∀ f ∈ figures q x, f.isAggregateExpression = false
  filters : ∀ e ∈ x.filters, e.formula.PerGroup x.dimensions ∨ e.formula.PerRow x.dimensions

section Cropped

variable {q x : Query} {masks : List Mask} {compatible : Bool}

theorem forall_items_iff {P : Formula → Prop}
    (hconst : ∀ f : Formula, f.isConstantExpression = true → P f) :
    (∀ e ∈ x.select ++ x.orderBy, P e.formula) ↔
      (∀ f ∈ figures q x, P f) ∧ ∀ k ∈ keys q x, P k := by
  rw [figures, keys, List.forall_mem_map, List.forall_mem_map]
  constructor
  · intro hall
    exact ⟨fun e he => hall e (List.mem_filter.mp he).1,
      fun e he => hall e (List.mem_filter.mp he).1⟩
  · rintro ⟨hfigures, hkeys⟩ e he
    cases hvarying : e.formula.isConstantExpression with
    | true => exact hconst _ hvarying
    | false =>
        cases hnamed : hasAliasIn (dimensionAliases q) e with
        | true => exact hkeys e (List.mem_filter.mpr ⟨he, by simp [hnamed, hvarying]⟩)
        | false => exact hfigures e (List.mem_filter.mpr ⟨he, by simp [hnamed, hvarying]⟩)

/-- An item with the alias of a dimension is a column. -/
theorem CroppedOf.field_of_keys {base : Mask} (h : CroppedOf q masks base compatible x)
    {k : Formula} (hk : k ∈ keys q x) : ∃ n, k.field? = some n := by
  obtain ⟨e', he', rfl⟩ := List.mem_map.mp hk
  obtain ⟨hmem, htest⟩ := List.mem_filter.mp he'
  rw [Bool.and_eq_true, Bool.not_eq_true'] at htest
  obtain ⟨hnamed, hvarying⟩ := htest
  obtain ⟨part, hpart, hmem⟩ : ∃ part, part ≠ .joinOn ∧ e' ∈ x.part part := by
    rcases List.mem_append.mp hmem with hmem | hmem
    · exact ⟨.select, by simp, hmem⟩
    · exact ⟨.orderBy, by simp, hmem⟩
  obtain ⟨e, i, he, -, hcrop⟩ := h.origin hpart hmem
  obtain ⟨hcropped, hname, -⟩ := cropEntry_some hcrop
  have hnamed : hasAliasIn (dimensionAliases q) e = true := by
    rw [← hnamed, hasAliasIn, hasAliasIn, hname]
  generalize e'.formula = f at hcropped hvarying ⊢
  cases hcropped with
  | constant hconst => exact absurd (hvarying.symm.trans hconst) (by simp)
  | dimension => exact ⟨_, rfl⟩
  | incompatible _ hnot | cut _ hnot => exact absurd (hnot.symm.trans hnamed) (by simp)

/-- A cropped query passes the check exactly if its items are regrouped. -/
theorem accepted_cropped_iff (h : cropped q masks compatible = .ok x) :
    x.Accepted ↔ Regroups q x := by
  obtain ⟨base, -, -, -, hc, -⟩ := cropped_spec h
  have hkeys : (∀ k ∈ keys q x, k.PerGroup x.dimensions) ↔
      ∀ k ∈ keys q x, x.dimensions.contains k = true := by
    refine forall₂_congr fun k hk => ?_
    obtain ⟨n, hn⟩ := hc.field_of_keys hk
    exact ⟨contains_of_field? hn, .dimension⟩
  have hrows : (∀ k ∈ keys q x, k.PerRow []) := fun k hk => by
    obtain ⟨n, hn⟩ := hc.field_of_keys hk
    exact perRow_of_field? hn
  rw [Query.accepted_iff, forall_items_iff (q := q) fun _ => perGroup_of_constant,
    forall_items_iff (q := q) fun _ => perRow_of_constant, hkeys, and_iff_left hrows]
  simp only [perRow_nil_iff]
  exact ⟨fun ⟨hitems, hfilters⟩ => ⟨hitems, hfilters⟩, fun h => ⟨h.items, h.filters⟩⟩

end Cropped

/-! ## Graded queries -/

variable {q c : Query} {a b : Names} {p : Plan}

/-- A query that rounds leave alone, with aggregation in order. -/
structure Finished (q : Query) : Prop where
  sites : sites q = []
  consistent : q.Accepted ∨ q.TakesRows

theorem sites_eq_nil_of_unforked
    (h : ∀ part ∈ Part.splittable, ∀ e ∈ q.part part, e.formula.isForked = false) :
    sites q = [] := by
  rw [List.eq_nil_iff_forall_not_mem]
  intro s hs
  obtain ⟨hpart, e, he, hmem, -⟩ := mem_sites_iff.mp hs
  have hplain := h s.part hpart e (List.mem_of_getElem? he)
  exact absurd (hplain.symm.trans (isForked_of_mem_outermostForks hmem)) (by simp)

/-- Without groups, aggregations and forks, only window calls keep a query from being accepted. -/
theorem accepted_or_takesRows (hgroupBy : q.groupBy = [])
    (hsources : ∀ source ∈ q.sources, source.queryId?.isSome = true)
    (hitems : ∀ e ∈ q.select ++ q.orderBy,
      e.formula.isForked = false ∧ e.formula.containsAggregate = false)
    (hfilters : ∀ e ∈ q.filters, e.formula.PerGroup [] ∨ e.formula.PerRow []) :
    q.Accepted ∨ q.TakesRows := by
  by_cases hwindow : ∃ e ∈ q.select ++ q.orderBy, e.formula.containsWindow = true
  · refine Or.inr ⟨hgroupBy, hsources, hitems, hwindow, fun e he => ?_⟩
    exact exists_groupState_iff.mpr (hfilters e he)
  · have hdims : q.dimensions = [] := by rw [Query.dimensions, hgroupBy]; rfl
    refine Or.inl (Query.accepted_iff.mpr ⟨Or.inr ⟨hdims, fun e he => ?_⟩, fun e he => ?_⟩)
    · obtain ⟨hforked, haggregate⟩ := hitems e he
      refine perRow_of_plain hforked haggregate ?_
      rw [← Bool.not_eq_true]
      exact fun h => hwindow ⟨e, he, h⟩
    · rw [hdims]
      exact hfilters e he

/-- The query that reads from the sub-queries of a graded one is finished. -/
theorem finished_cropped (hq : q.Graded) (hplan : plan q a = (some p, b))
    (h : cropped q p.masks p.compatible = .ok c) : Finished c := by
  obtain ⟨base, others, groupBy, known, hmasks, hc, hgroupBy, hknown, hgroup⟩ := cropped_grouping h
  have hitems := hc.regrouped hplan hq hgroupBy hknown hgroup
  have hfilter {e : Entry} (he : e ∈ c.filters) := hc.filter_value hplan hmasks hq he
  refine ⟨sites_eq_nil_of_unforked fun part hpart e he => ?_, ?_⟩
  · simp only [Part.splittable, List.mem_cons, List.not_mem_nil, or_false] at hpart
    rcases hpart with rfl | rfl | rfl
    · exact (hitems.select e he).not_isForked
    · exact (hitems.orderBy e he).not_isForked
    · exact (hfilter he).1
  · rcases hitems.items_cases hq with hgrouped | ⟨hnone, hcalm⟩
    · refine Or.inl (Query.accepted_iff.mpr ⟨Or.inl hgrouped, fun e he => ?_⟩)
      exact (hfilter he).2.imp (PerGroup.mono .nil) (PerRow.mono .nil)
    · refine accepted_or_takesRows hnone ?_ (fun e he => ⟨?_, hcalm e he⟩)
        fun e he => (hfilter he).2
      · rw [hc.sources]
        exact List.forall_mem_map.mpr fun _ _ => rfl
      · rcases List.mem_append.mp he with he | he
        · exact (hitems.select e he).not_isForked
        · exact (hitems.orderBy e he).not_isForked

/-- What a round makes of a graded query is graded again or finished. -/
theorem graded_or_finished_of_queries {new : List Query} (hq : q.Graded)
    (hplan : plan q a = (some p, b)) (h : p.queries q = .ok new) :
    ∀ x ∈ new, x.Graded ∨ Finished x := by
  intro x hx
  rcases mem_queries h hx with ⟨m, hm, hsub⟩ | hc
  · exact Or.inl ((subquery_spec hsub).graded hplan hm hq)
  · exact Or.inr (finished_cropped hq hplan hc)

/-- All queries that come up in a run from a graded query are graded or finished. -/
theorem Run.graded_or_finished {qs out : List Query} {done : List Round} (h : Run a qs done out)
    (hqs : ∀ x ∈ qs, x.Graded ∨ Finished x) :
    ∀ x ∈ qs ++ done.flatMap Round.queries, x.Graded ∨ Finished x := by
  refine h.all_made hqs fun d hd hquery => ?_
  obtain ⟨a, b, hplan, hqueries⟩ := h.carried d hd
  rcases hquery with hgraded | hfinished
  · exact graded_or_finished_of_queries hgraded hplan hqueries
  · have hnone : (plan d.query a).1 = none := plan_eq_none_iff.mpr hfinished.sites
    rw [hplan] at hnone
    exact absurd hnone (by simp)

/-- A query that comes out of a run is the one at the start, if nothing was cut, or it was made by
a round. -/
theorem Run.origin {a : Names} {out : List Query} {done : List Round} {x : Query}
    (h : Run a [q] done out) (hx : x ∈ out) :
    done = [] ∧ x = q ∨ ∃ d ∈ done, x ∈ d.queries := by
  generalize hqs : [q] = qs at h
  cases h with
  | whole | stuck => exact Or.inl ⟨rfl, List.mem_singleton.mp (hqs ▸ hx)⟩
  | @cut _ _ before after new _ q' p rest _ _ _ _ hrest =>
      obtain ⟨rfl, -, rfl⟩ : before = [] ∧ q' = q ∧ after = [] := by
        rw [eq_comm, List.append_eq_singleton_iff] at hqs
        simpa using hqs
      rw [List.nil_append, List.append_nil] at hrest
      refine Or.inr ?_
      rcases List.mem_append.mp (hrest.mem_made hx) with hnew | hmade
      · exact ⟨_, List.mem_cons_self, hnew⟩
      · obtain ⟨d, hd, hxd⟩ := List.mem_flatMap.mp hmade
        exact ⟨d, List.mem_cons_of_mem _ hd, hxd⟩

/-- Whether the queries of a round pass the check can be told from what the round cuts. -/
theorem Run.accepted_iff {a : Names} {qs out : List Query} {done : List Round}
    (h : Run a qs done out) {d : Round} (hd : d ∈ done) {x : Query} (hx : x ∈ d.queries) :
    (∃ k ∈ d.plan.masks, SubqueryOf d.query k x ∧ (x.Accepted ↔ k.Fits d.query)) ∨
      cropped d.query d.plan.masks d.plan.compatible = .ok x ∧
        (x.Accepted ↔ Regroups d.query x) := by
  obtain ⟨a, b, -, hqueries⟩ := h.carried d hd
  rcases mem_queries hqueries hx with ⟨k, hk, hsub⟩ | hc
  · have hsub := subquery_spec hsub
    exact Or.inl ⟨k, hk, hsub, hsub.accepted_iff⟩
  · exact Or.inr ⟨hc, accepted_cropped_iff hc⟩

end Split

open Split in
/-- Every query of a splitting is the compiled one, or it was made by a round: a sub-query passes
the check of aggregation exactly if what it computes goes with its dimensions, and a cropped query
exactly if its items are regrouped. The compiled query passes it too if what is asked for is grouped
by elementary formulas and looks nothing up. And once it passes, and the closer look as well if it
has forks to cut, all queries do, apart from those that compute window calls over the rows of
sub-queries without any groups. -/
theorem QuerySpec.compileMulti_consistent {spec : QuerySpec} {r : Registry} {s : Settings}
    {m : MultiQuery} (h : spec.compileMulti r s = .ok m) :
    ∃ q done, spec.compile r s = .ok q ∧ Run .start [q] done m.queries ∧
      (∀ x ∈ m.queries, done = [] ∧ x = q ∨ ∃ d ∈ done,
        (∃ k ∈ d.plan.masks, SubqueryOf d.query k x ∧ (x.Accepted ↔ k.Fits d.query)) ∨
          cropped d.query d.plan.masks d.plan.compatible = .ok x ∧
            (x.Accepted ↔ Regroups d.query x)) ∧
      (spec.type ≠ .totals → spec.IsDirect → q.Accepted) ∧
      (q.Accepted → (sites q ≠ [] → q.Graded) → ∀ x ∈ m.queries, x.Accepted ∨ x.TakesRows) := by
  obtain ⟨q, hq, hsplit⟩ := bind_eq_ok.mp h
  obtain ⟨⟨done, hrun⟩, -⟩ := split_run hsplit
  refine ⟨q, done, hq, hrun, fun x hx => ?_, QuerySpec.accepted_of_compile hq,
    fun haccepted hgraded x hx => ?_⟩
  · refine (hrun.origin hx).imp_right fun ⟨d, hd, hxd⟩ => ⟨d, hd, hrun.accepted_iff hd hxd⟩
  · have hstart : ∀ x ∈ [q], x.Graded ∨ Finished x := by
      intro x hx
      rw [List.mem_singleton.mp hx]
      by_cases hsites : sites q = []
      · exact Or.inr ⟨hsites, Or.inl haccepted⟩
      · exact Or.inl (hgraded hsites)
    rcases hrun.graded_or_finished hstart x (hrun.mem_made hx) with hgraded | hfinished
    · exact Or.inl hgraded.accepted
    · exact hfinished.consistent

/-- The last city in the alphabet, with its sales. -/
def lastCity : QuerySpec :=
  { QuerySpec.empty with
    select := [⟨.call "max" [.call "concat" [.field "city",
      .call "str" [.callWith "sum" [.field "sales"] (.including [.field "city"])
        NameSet.empty]]], none, none⟩] }

open Split in
/-- The name of the city is left over beside the fork, below the aggregation. It is a dimension of
its sub-query, and so it goes with the groups. -/
theorem QuerySpec.compileMulti_consistent_lastCity :
    ∃ m q done x, ∃ d ∈ done, ∃ k ∈ d.plan.masks,
      lastCity.compileMulti orders .default = .ok m ∧
      lastCity.compile orders .default = .ok q ∧ q.Accepted ∧ Run .start [q] done m.queries ∧
      m.queries.length = 4 ∧ (∀ x ∈ m.queries, x.Accepted) ∧ x ∈ m.queries ∧
      x.groupBy.map Entry.formula == [.field "city"] ∧
      x.select.map Entry.formula == [.field "city", .field "city"] ∧
      SubqueryOf d.query k x ∧ k.Fits d.query := by
  have hcompile : ((lastCity.compile orders .default).toOption.any fun q =>
      q.groupBy.isEmpty) = true := by decide +kernel
  have hok : ((lastCity.compileMulti orders .default).toOption.any fun m =>
      m.queries.length == 4 && m.queries.all (fun x => decide x.Accepted) &&
        m.queries.any fun x => x.groupBy.map Entry.formula == [.field "city"] &&
          x.select.map Entry.formula == [.field "city", .field "city"] &&
          x.sources.all fun source => source.queryId?.isNone) = true := by decide +kernel
  obtain ⟨m, hm, htest⟩ := exists_eq_ok hok
  simp only [Bool.and_eq_true, List.any_eq_true] at htest
  obtain ⟨⟨hlength, hall⟩, x, hx, ⟨hgroups, hselect⟩, htables⟩ := htest
  have haccepted : ∀ x ∈ m.queries, x.Accepted := fun x hx =>
    of_decide_eq_true (List.all_eq_true.mp hall x hx)
  obtain ⟨q, done, hq, hrun, horigin, hdirect, -⟩ := QuerySpec.compileMulti_consistent hm
  have hq' : q.Accepted := hdirect (by decide) (by decide +kernel)
  obtain ⟨-, rfl⟩ | ⟨d, hd, ⟨k, hk, hsub, hiff⟩ | ⟨hc, -⟩⟩ := horigin x hx
  · obtain ⟨q', hq', hnone⟩ := exists_eq_ok hcompile
    obtain rfl := Except.ok.inj (hq.symm.trans hq')
    rw [List.isEmpty_iff.mp hnone] at hgroups
    exact absurd hgroups (by decide)
  · exact ⟨m, q, done, x, d, hd, k, hk, hm, hq, hq', hrun, beq_iff_eq.mp hlength, haccepted, hx,
      hgroups, hselect, hsub, hiff.mp (haccepted x hx)⟩
  · obtain ⟨base, others, hmasks, -, hcropped, -⟩ := cropped_spec hc
    have hsource := List.all_eq_true.mp htables
      (.subquery base.queryId base.queryId base.queryId base.columns)
      (by rw [hcropped.sources, hmasks]; exact List.mem_cons_self)
    exact absurd hsource (by simp [Source.queryId?])

/-- Whether some order has the most sales of its city. -/
def hasBestOrder : QuerySpec :=
  Split.figureBy "city" (.call "max" [.binary "==" (.field "sales")
    (.callWith "max" [.field "sales"] (.including [.field "city"]) NameSet.empty)])

/-- The sales are left over beside the fork, below an aggregation. Their sub-query takes them row by
row and is grouped by the city all the same. -/
theorem QuerySpec.compileMulti_ungrouped :
    hasBestOrder.type = .normal ∧
      ∃ q m, hasBestOrder.compile Split.orders .default = .ok q ∧ q.Accepted ∧
        hasBestOrder.compileMulti Split.orders .default = .ok m ∧
        ∃ x ∈ m.queries, x.groupBy.map Entry.formula == [.field "city"] ∧
          x.select.map Entry.formula == [.field "sales", .field "city"] ∧ ¬ x.Accepted := by
  have hcompile : ((hasBestOrder.compile Split.orders .default).toOption.any fun q =>
      decide q.Accepted) = true := by decide +kernel
  have hok : ((hasBestOrder.compileMulti Split.orders .default).toOption.any fun m =>
      m.queries.any fun x => x.groupBy.map Entry.formula == [.field "city"] &&
        x.select.map Entry.formula == [.field "sales", .field "city"] &&
        !decide x.Accepted) = true := by decide +kernel
  obtain ⟨q, hq, haccepted⟩ := exists_eq_ok hcompile
  obtain ⟨m, hm, hany⟩ := exists_eq_ok hok
  obtain ⟨x, hx, htest⟩ := List.any_eq_true.mp hany
  simp only [Bool.and_eq_true, Bool.not_eq_true', decide_eq_false_iff_not] at htest
  obtain ⟨⟨hgroups, hselect⟩, hnot⟩ := htest
  exact ⟨rfl, q, m, hq, of_decide_eq_true haccepted, hm, x, hx, hgroups, hselect, hnot⟩

end FormulaSql
