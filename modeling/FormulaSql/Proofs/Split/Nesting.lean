import FormulaSql.Proofs.Split.Failure

/-!
# Aggregations over forks

Splitting fails where some formulas of a query aggregate forks and others do not. There are two
kinds of queries that never come to this. If nothing is aggregated above a fork, the sub-queries
aggregate none either. If every fork computes an aggregation, those that share a sub-query all have
forks below them or none has, because they agree in the levels of detail below.

* `Split.not_comesToMix_of_unstacked` and `Split.not_comesToMix_of_leveled` are about these kinds
* `QuerySpec.compileMulti_split_error` says when a description cannot be split
-/

namespace FormulaSql

namespace Formula

variable {f : Formula}

/-- The children of an aggregation, and the parts of shifts. -/
def stackable (f : Formula) : List Formula :=
  if f.isAggregateCall then f.children else if f.isFork then f.concealed else []

theorem positional_stackable : Positional stackable where
  child f c hc := by
    rw [stackable] at hc
    split at hc
    · exact hc
    · split at hc
      · exact mem_children_of_concealed hc
      · exact absurd hc List.not_mem_nil
  withChildren R f cs h := by
    have haggregate : (f.withChildren cs).isAggregateCall = f.isAggregateCall :=
      isAggregateCall_eq_of_outline (Kind.outline_withChildren f.kind cs)
    rw [stackable, stackable, haggregate, isFork_withChildren,
      children_withChildren f cs h.length_eq.symm]
    split
    · exact h
    · split
      · exact forall₂_concealed h
      · exact .nil
  plain f := by
    rcases Split.plainAggregate_cases f with heq | ⟨name, args, hargs, -, hchildren⟩
    · rw [heq]
      exact List.Subset.refl _
    · rcases Split.plainAggregate_eq f with heq | ⟨haggregate, haggregate', -⟩
      · rw [heq]
        exact List.Subset.refl _
      · rw [stackable, stackable, if_pos haggregate, if_pos haggregate', hchildren]
        exact hargs
  shift f q hq s hs := by
    have hfork := isFork_of_fork? hq
    rw [stackable, Split.isAggregateCall_of_fork? hq, if_neg (by simp), if_pos hfork]
    exact positional_concealed.shift f q hq s hs

theorem containsFork_of_isForked (h : f.isForked = true) : f.containsFork = true := by
  obtain ⟨g, hg, hfork⟩ := List.any_eq_true.mp h
  exact containsFork_of_node (mem_nodes_of_surface hg) (containsFork_iff.mpr (Or.inl hfork))

/-- Where aggregations have no forks below them, none stands over one. -/
theorem not_standsOver_of_clearIn (hf : f.ClearIn stackable) :
    f.standsOver isAggregateCall = false := by
  refine List.any_eq_false.mpr fun g hg htest => ?_
  obtain ⟨haggregate, hforked⟩ := Bool.and_eq_true_iff.mp htest
  rcases isForked_iff.mp hforked with hfork | ⟨c, hc, hforked⟩
  · rw [isFork, Option.isSome_iff_exists] at hfork
    obtain ⟨k, hk⟩ := hfork
    exact absurd haggregate (by simp [Split.isAggregateCall_of_fork? hk])
  · have hstackable : c ∈ g.stackable := by
      rw [stackable, if_pos haggregate]
      exact mem_children_of_autonomous hc
    have hnone := hf g (mem_nodes_of_surface hg) c hstackable
    exact absurd (containsFork_of_isForked hforked) (by simp [hnone])

/-- An aggregation on the way to a fork stands over it. -/
theorem standsOver_of_aggregatesOn {path : Path} {k : Fork Formula}
    (hk : (path, k) ∈ f.outermostForks) (h : f.aggregatesOn path = true) :
    f.standsOver isAggregateCall = true := by
  rw [← Bool.not_eq_false]
  intro hnot
  induction path generalizing f with
  | nil =>
      obtain ⟨x, hx, hfork⟩ := at?_of_mem_outermostForks hk
      obtain rfl : f = x := Option.some.inj hx
      exact absurd h (by simp [aggregatesOn, Split.isAggregateCall_of_fork? hfork])
  | cons i path ih =>
      obtain ⟨hown, hbelow⟩ := not_standsOver_iff.mp hnot
      rcases mem_outermostForks_iff.mp hk with ⟨hnil, -⟩ | ⟨hnone, j, c, t, hc, heq, hmem⟩
      · exact absurd hnil (by simp)
      · obtain ⟨rfl, rfl⟩ := List.cons.inj heq
        have hplain : f.isAggregateCall = false := by
          rw [← Bool.not_eq_true]
          exact fun haggregate =>
            absurd (Split.isForked_of_mem_outermostForks hk) (by simp [hown haggregate])
        have hfork := not_isFork_of_fork? hnone
        rw [aggregatesOn, hplain, (autonomous_getElem?.mp hc).2] at h
        exact ih hmem h (hbelow hfork c (List.mem_of_getElem? hc))

end Formula

/-- Nothing in the query is aggregated above a fork. -/
def Query.Unstacked (q : Query) : Prop := q.ClearIn Formula.stackable

instance (q : Query) : Decidable q.Unstacked := inferInstanceAs (Decidable (q.ClearIn _))

namespace Split

open Formula

variable {q : Query} {a b : Names} {p : Plan}

/-- A query in which nothing that is selected stands over forks mixes nothing. -/
theorem not_mixesAggregates_of_not_standsOver
    (h : ∀ i e, IsDecisive q i e → e.formula.standsOver isAggregateCall = false) :
    ¬ MixesAggregates q p := by
  rintro ⟨-, ⟨i, e, he, haggregates⟩, -⟩
  obtain ⟨path, hpath, hon⟩ := List.any_eq_true.mp haggregates
  obtain ⟨-, k, hk⟩ := outermostForks_of_mem_forkPaths hpath he.entry
  exact absurd (standsOver_of_aggregatesOn hk hon) (by simp [h i e he])

theorem not_comesToMix_of_unstacked (hq : q.Unstacked) : ¬ q.ComesToMix := by
  rintro ⟨n, -, a, x, p, b, hreaches, -, hmixes⟩
  have hx : x.Unstacked := hreaches.of_round
    (fun _ _ _ _ _ _ hplan hround hq =>
      hround.clearIn positional_stackable (plan_spec hplan).2.masks hq) (by simpa using hq)
  refine not_mixesAggregates_of_not_standsOver (fun i e he => ?_) hmixes
  exact not_standsOver_of_clearIn
    (hx .select (Part.mem_all _) (by simp) e (List.mem_of_getElem? he.entry))

end Split

/-! ## Levels of detail below each other -/

/-- The fork computes an aggregation. It is joined on values that are not aggregated, and it moves
no filters. -/
def Fork.isLevel (k : Fork Formula) : Bool :=
  k.result.isAggregateCall && k.shifts.isEmpty &&
    (k.joining.flatMap JoinCondition.parts).all fun g => !g.isAggregateExpression

namespace Formula

variable {f g : Formula}

/-- All forks in the formula compute aggregations. -/
def isLeveled (f : Formula) : Bool := f.nodes.all fun g => g.fork?.all Fork.isLevel

theorem isLeveled_iff :
    f.isLeveled = true ↔ ∀ g ∈ f.nodes, ∀ k, g.fork? = some k → k.isLevel = true := by
  simp only [isLeveled, List.all_eq_true, Option.all_eq_true]

theorem isLeveled_of_node (hf : f.isLeveled = true) (hg : g ∈ f.nodes) : g.isLeveled = true :=
  isLeveled_iff.mpr fun x hx => isLeveled_iff.mp hf x (mem_nodes_trans hg hx)

theorem isLeveled_plainAggregate (hf : f.isLeveled = true) :
    (Split.plainAggregate f).isLeveled = true := by
  rcases Split.plainAggregate_cases f with heq | ⟨name, args, hargs, hkind, hchildren⟩
  · rwa [heq]
  · refine isLeveled_iff.mpr fun g hg k hk => ?_
    rcases mem_nodes_iff.mp hg with rfl | ⟨c, hc, hg⟩
    · exact absurd hk (by simp [fork?, hkind])
    · exact isLeveled_iff.mp hf g (mem_nodes_of_child (hargs (hchildren ▸ hc)) hg) k hk

end Formula

/-- All forks of the query compute aggregations, and nothing that is selected aggregates one. -/
structure Query.Leveled (q : Query) : Prop where
  formula : ∀ part ∈ Part.all, part ≠ .joinOn → ∀ e ∈ q.part part, e.formula.isLeveled = true
  select : ∀ e ∈ q.select, e.formula.standsOver Formula.isAggregateCall = false

instance (q : Query) : Decidable q.Leveled :=
  decidable_of_iff
    ((∀ part ∈ Part.all, part ≠ .joinOn → ∀ e ∈ q.part part, e.formula.isLeveled = true) ∧
      ∀ e ∈ q.select, e.formula.standsOver Formula.isAggregateCall = false)
    ⟨fun h => ⟨h.1, h.2⟩, fun h => ⟨h.formula, h.select⟩⟩

namespace Split

open Formula

variable {q s c : Query} {a b : Names} {p : Plan} {m : Mask}

/-- All forks of the query compute aggregations, and what is selected aggregates forks as a whole or
not at all. -/
structure Nested (q : Query) : Prop where
  formula : ∀ part, part ≠ .joinOn → ∀ e ∈ q.part part, e.formula.isLeveled = true
  select : (∀ e ∈ decisive q, e.formula.standsOver isAggregateCall = false) ∨
    ∀ e ∈ decisive q, e.formula.isAggregateCall = true ∧ e.formula.isForked = true

section Sites

variable (hq : ∀ part, part ≠ .joinOn → ∀ e ∈ q.part part, e.formula.isLeveled = true)
include hq

theorem isLeveled_of_hasNode {f : Formula} (hf : q.HasNode f) : f.isLeveled = true := by
  obtain ⟨part, hpart, e, he, hf⟩ := hf
  exact isLeveled_of_node (hq part hpart e he) hf

theorem isLevel_of_site {s : Site} (hs : s ∈ sites q) : s.fork.isLevel = true := by
  obtain ⟨hp, e, he, hmem, -⟩ := mem_sites_iff.mp hs
  obtain ⟨f, hf, hfork⟩ := at?_of_mem_outermostForks hmem
  exact isLeveled_iff.mp (hq s.part (Part.ne_joinOn_of_splittable hp) e (List.mem_of_getElem? he)) f
    (mem_nodes_of_at? hf) s.fork hfork

/-- No fork is there for a window call, so all are taken. -/
theorem prioritized_of_leveled : prioritized (sites q) = (false, sites q) := by
  have hwindow : (sites q).filter Site.isWindow = [] := by
    refine List.filter_eq_nil_iff.mpr fun s hs => ?_
    have hlevel := isLevel_of_site hq hs
    simp only [Fork.isLevel, Bool.and_eq_true] at hlevel
    have hcall := hlevel.1.1
    have hkind : ∀ e, s.fork.result.kind ≠ .paren e := by
      intro e hkind
      simp [isAggregateCall, call?, hkind] at hcall
    rw [Site.isWindow, unwrapped_of_not_paren hkind]
    intro hwindow
    rw [isWindowCall, window?] at hwindow
    rw [isAggregateCall, call?] at hcall
    split at hwindow
    next hkind => simp [hkind] at hcall
    next => simp at hwindow
  rw [prioritized, hwindow]
  rfl

theorem isLeveled_of_derived {f : Formula} (h : Derived q f) : f.isLeveled = true := by
  cases h with
  | drawn hf =>
      rcases hf with rfl | hf
      · rfl
      · exact isLeveled_of_hasNode hq hf
  | plain hf => exact isLeveled_plainAggregate (isLeveled_of_hasNode hq hf)
  | @shifted e t he ht =>
      have hlevel := isLevel_of_site hq ht
      simp only [Fork.isLevel, Bool.and_eq_true, List.isEmpty_iff] at hlevel
      rw [hlevel.1.2]
      exact hq .filters (by simp) e he

/-- What sub-queries select beside their cuts is grouped by or constant. -/
theorem extras_of_leveled (hplan : plan q a = (some p, b)) :
    ∀ m ∈ p.masks, ∀ x ∈ m.extras, x.isGroupBy = true ∨ x.expr.isConstantExpression = true := by
  have hdimension (d : Formula) :
      (asDimension d).2 = true ∨ (asDimension d).1.isConstantExpression = true := by
    cases hconst : d.isConstantExpression <;> simp [asDimension, hconst]
  intro m hm x hx
  refine plan_selection (P := fun x => x.2 = true ∨ x.1.isConstantExpression = true) hplan
    (fun d _ => hdimension d) (fun s hs x hx => ?_) m hm (x.expr, x.isGroupBy)
    (List.mem_map_of_mem hx)
  rcases List.mem_append.mp hx with hx | hx
  · obtain ⟨d, -, rfl⟩ := List.mem_map.mp hx
    exact hdimension d
  · obtain ⟨f, hf, -⟩ := List.mem_map.mp hx
    obtain ⟨hf, haggregate⟩ := List.mem_filter.mp hf
    have hlevel := isLevel_of_site hq (mem_sites_of_taken hs)
    simp only [Fork.isLevel, Bool.and_eq_true, List.all_eq_true, Bool.not_eq_true'] at hlevel
    simp only [signatureOf] at hf
    split at hf
    · obtain rfl : f = .int 1 := by simpa [JoinCondition.parts] using hf
      exact absurd haggregate (by decide)
    · exact absurd haggregate (by simp [hlevel.2 f hf])

end Sites

/-! ### Sub-queries -/

/-- Unless window calls are taken alone, a mask cuts the forks of a group or what these leave
over. -/
theorem mask_cuts_cases (hplan : plan q a = (some p, b))
    (hwindows : (prioritized (sites q)).1 = false) (hm : m ∈ p.masks) :
    (∃ g ∈ (forkGroups q (taken q) a).1, m.cuts = g.cuts) ∨
      ∀ c ∈ m.cuts, c.inner = c.outer ∧
        IsUncut q ((forkMasks q a).1.flatMap Mask.cuts) c.part c.index c.outer := by
  have hgroup {m : Mask} (hm : m ∈ (forkMasks q a).1) :
      ∃ g ∈ (forkGroups q (taken q) a).1, m.cuts = g.cuts := by
    obtain ⟨g, hg⟩ := groupMask_of_mem hm
    exact ⟨g, hg.group, hg.cuts⟩
  have hplain {m : Mask} (hm : m ∈ (forkMasks q a).1) : m.isWindow = false :=
    (forkMask_isWindow hm).trans hwindows
  obtain ⟨based, rfl, rfl, -⟩ := plan_eq_some hplan
  obtain ⟨m', hm', hcuts, -⟩ := completeBase_mem hm
  rw [hcuts]
  rcases withBase_cases q (forkMasks q a).1 (forkMasks q a).2 with
    ⟨i, base, -, -, hbase, heq⟩ | ⟨own, hown, heq⟩
  · have hmem := List.mem_of_getElem? hbase
    have hothers : ∀ m ∈ (forkMasks q a).1.eraseIdx i, m ∈ (forkMasks q a).1 :=
      fun m hm => List.mem_of_mem_eraseIdx hm
    rw [heq] at hm'
    rcases mergeWindows_eq { base with isBase := true } ((forkMasks q a).1.eraseIdx i) with
      hkept | ⟨other, hother, hwindow, -⟩
    · rcases List.mem_cons.mp (hkept ▸ hm') with rfl | hm'
      · obtain ⟨g, hg, hcuts⟩ := hgroup hmem
        exact Or.inl ⟨g, hg, hcuts⟩
      · exact Or.inl (hgroup (hothers m' hm'))
    · have hmother := hothers other (hother ▸ List.mem_singleton.mpr rfl)
      exact absurd hwindow (by simp [hplain hmem, hplain hmother])
  · have hown' : own.1.cuts = (uncutCuts q ((forkMasks q a).1.flatMap Mask.cuts)
        (forkMasks q a).2).1 := by rw [hown]; rfl
    have hownplain : own.1.isWindow = false := by rw [hown]; rfl
    rw [heq] at hm'
    rcases mergeWindows_eq own.1 (forkMasks q a).1 with hkept | ⟨other, hother, hwindow, -⟩
    · rcases List.mem_cons.mp (hkept ▸ hm') with rfl | hm'
      · obtain ⟨-, huncut, -⟩ := uncutCuts_ensures q ((forkMasks q a).1.flatMap Mask.cuts)
          (forkMasks q a).2
        exact Or.inr fun c hc => (huncut c (hown' ▸ hc)).2
      · exact Or.inl (hgroup hm')
    · exact absurd hwindow (by simp [hownplain, hplain (hother ▸ List.mem_singleton.mpr rfl)])

/-- A fork below a node that is visited on the way to forks is one of the formula. -/
theorem Visited.mem_outermostForks {f x : Formula} {forks : List Path} {path t : Path}
    {k : Fork Formula} (hforks : ∀ path ∈ forks, ∃ k, (path, k) ∈ f.outermostForks)
    (h : Visited f forks path x) (hk : (t, k) ∈ x.outermostForks) :
    (path ++ t, k) ∈ f.outermostForks := by
  induction h generalizing t with
  | top => exact hk
  | @child path' _ x c i hx hnot hpath hpre hc ih =>
      obtain ⟨hfork, -⟩ := hx.above hforks hnot hpath hpre
      have hnone : x.fork? = none := by simpa [isFork] using hfork
      rw [List.append_assoc]
      exact ih (mem_outermostForks_iff.mpr (Or.inr ⟨hnone, i, c, t, hc, rfl, hk⟩))

/-- What is left over has no forks, if all are taken. -/
theorem not_isForked_of_isUncut (hall : taken q = sites q) {part : Part} {i : Nat} {path : Path}
    (h : IsUncut q ((forkMasks q a).1.flatMap Mask.cuts) part i path) :
    ∃ e f, (q.part part)[i]? = some e ∧ e.formula.at? path = some f ∧ f.isForked = false := by
  obtain ⟨hpart, e, he, hpath⟩ := h
  rw [uncutEntry] at hpath
  split at hpath
  next => exact absurd hpath List.not_mem_nil
  next =>
    obtain ⟨-, -, hcuts, hsites⟩ := forkMasks_spec q a
    generalize hforks : (((forkMasks q a).1.flatMap Mask.cuts).filter fun c =>
      c.part == part && c.index == i).map Cut.outer = forks at hpath
    have hmem : ∀ path, path ∈ forks ↔ ∃ k, (path, k) ∈ e.formula.outermostForks := by
      intro path
      rw [← hforks]
      simp only [List.mem_map, List.mem_filter, Bool.and_eq_true, beq_iff_eq]
      constructor
      · rintro ⟨c, ⟨hc, rfl, rfl⟩, rfl⟩
        obtain ⟨s, hs, heq⟩ := hcuts c hc
        obtain ⟨-, e', he', hk, -⟩ := mem_sites_iff.mp (mem_sites_of_taken hs)
        rw [heq] at he ⊢
        obtain rfl := Option.some.inj (he.symm.trans he')
        exact ⟨s.fork, hk⟩
      · rintro ⟨k, hk⟩
        have hsite : ⟨part, i, path, k, k.beforeFilterBy.filter q.filterIds.contains⟩ ∈ sites q :=
          mem_sites_iff.mpr ⟨hpart, e, he, hk, rfl⟩
        obtain ⟨n, hn⟩ := hsites _ (hall ▸ hsite)
        exact ⟨_, ⟨hn, rfl, rfl⟩, rfl⟩
    obtain ⟨x, hx⟩ := exists_visited hpath
    refine ⟨e, x, he, hx.at?, not_isForked_iff_outermostForks.mpr ?_⟩
    refine List.eq_nil_iff_forall_not_mem.mpr ?_
    rintro ⟨t, k⟩ hk
    have hbelow := hx.mem_outermostForks (fun path hpath => (hmem path).mp hpath) hk
    obtain ⟨-, -, -, hnone⟩ := of_mem_uncutSearch hpath
    exact hnone _ ((hmem _).mpr ⟨k, hbelow⟩) (List.prefix_append _ _)

theorem isForked_plainAggregate (f : Formula) : (plainAggregate f).isForked = f.isForked := by
  rcases plainAggregate_eq f with heq | ⟨-, -, hfork, hfork', hautonomous⟩
  · rw [heq]
  · rw [Bool.eq_iff_iff, isForked_iff, isForked_iff, hfork, hfork', hautonomous]

theorem not_isForked_iff_childLods {f : Formula} : f.isForked = false ↔ childLods f = [] := by
  have hnil (ls : List (Lod Formula)) : ls.eraseDups = [] ↔ ls = [] := by
    cases ls <;> simp [List.eraseDups_cons]
  rw [not_isForked_iff_outermostForks, childLods, hnil, List.map_eq_nil_iff]

/-- The forks of a group all have forks below them, or none has. -/
theorem childLods_eq_nil_iff {sig : Signature} {s : Site}
    (h : sig.agrees (signatureOf q s) = true) :
    sig.childLods = [] ↔ s.fork.result.isForked = false := by
  obtain ⟨-, hlods, -⟩ := Signature.agrees_iff.mp h
  obtain ⟨hthere, hback⟩ := sameMembers_iff.mp hlods
  rw [not_isForked_iff_childLods]
  change _ ↔ (signatureOf q s).childLods = []
  simp only [List.eq_nil_iff_forall_not_mem]
  constructor
  · intro hnone l hl
    obtain ⟨l', hl', -⟩ := hback l hl
    exact hnone l' hl'
  · intro hnone l hl
    obtain ⟨l', hl', -⟩ := hthere l hl
    exact hnone l' hl'

/-- The entry for a fork computes its result. -/
theorem cutEntry_of_site {s : Site} {n : String} {e : Entry} (hs : s ∈ sites q)
    (h : cutEntry q (s.cut n) = .ok e) : e.formula = plainAggregate s.fork.result := by
  obtain ⟨e₀, f, he₀, hf, hformula, -⟩ := cutEntry_eq_ok h
  obtain ⟨-, e', he', hmem, -⟩ := mem_sites_iff.mp hs
  obtain rfl := Option.some.inj (he₀.symm.trans he')
  obtain ⟨g, hg, hfork⟩ := at?_of_mem_outermostForks hmem
  have hresult : g.at? [0] = some s.fork.result := by
    rw [Formula.at?, Formula.children, kind_of_fork? hfork]
    rfl
  have hat : e₀.formula.at? (s.path ++ [0]) = some s.fork.result := by
    rw [at?_append, hg]
    exact hresult
  rw [hformula, Option.some.inj (hf.symm.trans hat)]

/-- A sub-query of a query with levels only aggregates forks as a whole or not at all. -/
theorem SubqueryOf.nested (hs : SubqueryOf q m s) (hplan : plan q a = (some p, b))
    (hm : m ∈ p.masks)
    (hq : ∀ part, part ≠ .joinOn → ∀ e ∈ q.part part, e.formula.isLeveled = true) :
    Nested s := by
  have hprioritized := prioritized_of_leveled hq
  have hall : taken q = sites q := congrArg Prod.snd hprioritized
  obtain ⟨-, hplanned⟩ := plan_spec hplan
  have hcut : ∀ e ∈ decisive s, ∃ c ∈ m.cuts, cutEntry q c = .ok e := by
    intro e he
    obtain ⟨he, hunnamed, hvarying⟩ := mem_decisive.mp he
    refine (hs.select_cases he).resolve_right ?_
    rintro ⟨x, hx, rfl⟩
    rcases extras_of_leveled hq hplan m hm x hx with hgroup | hconst
    · have hdimension : extraEntry x ∈ s.groupBy :=
        hs.groupBy ▸ List.mem_map_of_mem (List.mem_filter.mpr ⟨hx, hgroup⟩)
      have hnamed : hasAliasIn (dimensionAliases s) (extraEntry x) = true :=
        hasAliasIn_iff.mpr ⟨x.aliasName, List.mem_filterMap.mpr ⟨_, hdimension, rfl⟩, rfl⟩
      exact absurd (hnamed.symm.trans hunnamed) (by simp)
    · exact absurd (hconst.symm.trans hvarying) (by simp)
  refine ⟨fun part hpart e he =>
    isLeveled_of_derived hq (hs.derived (hplanned.masks.mask m hm) hpart he), ?_⟩
  rcases mask_cuts_cases hplan (congrArg Prod.fst hprioritized) hm with ⟨g, hg, hcuts⟩ | huncut
  · have hresult : ∀ e ∈ decisive s, e.formula.isAggregateCall = true ∧
        (g.signature.childLods = [] ↔ e.formula.isForked = false) := by
      intro e he
      obtain ⟨c, hc, hentry⟩ := hcut e he
      obtain ⟨-, t, ht, hagrees, heq⟩ :=
        ((forkGroups_spec q (taken q) a).2.1 g hg).cut c (hcuts ▸ hc)
      have hsite := mem_sites_of_taken ht
      have hlevel := isLevel_of_site hq hsite
      simp only [Fork.isLevel, Bool.and_eq_true] at hlevel
      rw [cutEntry_of_site hsite (heq ▸ hentry), isForked_plainAggregate]
      refine ⟨?_, childLods_eq_nil_iff hagrees⟩
      rcases plainAggregate_eq t.fork.result with hsame | ⟨-, haggregate, -⟩
      · rw [hsame]
        exact hlevel.1.1
      · exact haggregate
    by_cases hnone : g.signature.childLods = []
    · refine Or.inl fun e he => ?_
      exact not_standsOver_of_not_isForked ((hresult e he).2.mp hnone)
    · refine Or.inr fun e he => ⟨(hresult e he).1, ?_⟩
      simpa using mt (hresult e he).2.mpr hnone
  · refine Or.inl fun e he => ?_
    obtain ⟨c, hc, hentry⟩ := hcut e he
    obtain ⟨hinner, hleft⟩ := huncut c hc
    obtain ⟨e₀, f, he₀, hf, hplain⟩ := not_isForked_of_isUncut hall hleft
    obtain ⟨e₁, f', he₁, hf', hformula, -⟩ := cutEntry_eq_ok hentry
    obtain rfl := Option.some.inj (he₀.symm.trans he₁)
    obtain rfl := Option.some.inj (hf.symm.trans (hinner ▸ hf'))
    refine not_standsOver_of_not_isForked ?_
    rw [hformula, isForked_plainAggregate, hplain]

/-! ### The cropped query -/

/-- The cropped query has no forks that could be taken, if all are taken in the round. -/
theorem CroppedOf.forksConcealed {base : Mask} (hc : CroppedOf q p.masks base p.compatible c)
    (hplan : plan q a = (some p, b)) (hall : taken q = sites q) : c.ForksConcealed := by
  intro part hpart e' he'
  obtain ⟨e, i, he, -, hcrop⟩ := hc.origin (Part.ne_joinOn_of_splittable hpart) he'
  refine not_isForked_iff_outermostForks.mp ?_
  have hf := (cropEntry_some hcrop).1
  generalize e'.formula = f at hf
  cases hf with
  | constant hconst => exact not_isForked_of_perRow (perRow_of_constant hconst)
  | @dimension n => exact not_isForked_of_perRow (perRow_of_field? (n := n) rfl)
  | incompatible => exact not_isForked_of_perRow (incompatible_value []).2
  | @cut g hvarying hunnamed _ hg =>
      have hplain : g.isForked = false := by
        obtain ⟨-, hplanned⟩ := plan_spec hplan
        obtain ⟨forks, hcuts⟩ := hplanned.cuts
        by_cases hnone : part = .filters ∧ forkPaths q part i = []
        · obtain ⟨rfl, hnone⟩ := hnone
          rw [hcuts.cutsAt_eq_nil hnone] at hg
          obtain rfl := Except.ok.inj hg
          refine not_isForked_iff_outermostForks.mpr ?_
          refine List.eq_nil_iff_forall_not_mem.mpr fun ⟨path, k⟩ hk => ?_
          have hsite : ⟨.filters, i, path, k, k.beforeFilterBy.filter q.filterIds.contains⟩ ∈
              taken q := hall ▸ mem_sites_iff.mpr ⟨hpart, e, he, hk, rfl⟩
          exact absurd (hnone ▸ mem_forkPaths_iff.mpr ⟨_, hsite, rfl, rfl, rfl⟩) List.not_mem_nil
        · exact (cutDown_of_replaceCuts (hcuts.cutAlong hpart he hvarying hunnamed
            fun hfilters hpaths => hnone ⟨hfilters, hpaths⟩) hg).not_isForked
      split
      · refine not_isForked_transform (fun above x r hr => ?_) hplain
        obtain ⟨n, -, rfl⟩ := Option.map_eq_some_iff.mp hr
        exact not_isForked_of_perRow (perRow_of_field? (n := n) rfl)
      · exact hplain

/-! ### The run -/

/-- A query that aggregates forks as a whole or not at all mixes nothing. -/
theorem Nested.not_mixesAggregates (hq : Nested q) : ¬ MixesAggregates q p := by
  rcases hq.select with hnone | hevery
  · refine not_mixesAggregates_of_not_standsOver fun i e he => ?_
    exact hnone e (mem_decisive.mpr ⟨List.mem_of_getElem? he.entry, he.unnamed, he.varying⟩)
  · rintro ⟨-, -, i, e, he, haggregates, -⟩
    obtain ⟨haggregate, hforked⟩ :=
      hevery e (mem_decisive.mpr ⟨List.mem_of_getElem? he.entry, he.unnamed, he.varying⟩)
    have hne : e.formula.outermostForks ≠ [] := fun hnil =>
      absurd (not_isForked_iff_outermostForks.mpr hnil) (by simp [hforked])
    obtain ⟨⟨path, k⟩, hk⟩ := List.exists_mem_of_ne_nil _ hne
    have hsite : ⟨.select, i, path, k, k.beforeFilterBy.filter q.filterIds.contains⟩ ∈ sites q :=
      mem_sites_iff.mpr ⟨by simp [Part.splittable], e, he.entry, hk, rfl⟩
    have htaken : taken q = sites q := congrArg Prod.snd (prioritized_of_leveled hq.formula)
    have hpath : path ∈ forkPaths q .select i :=
      mem_forkPaths_iff.mpr ⟨_, htaken ▸ hsite, rfl, rfl, rfl⟩
    have hover : aggregatesForks q i e = true :=
      List.any_eq_true.mpr ⟨path, hpath, aggregatesOn_of_isAggregateCall haggregate path⟩
    exact absurd (hover.symm.trans haggregates) (by simp)

theorem not_comesToMix_of_leveled (hq : q.Leveled) : ¬ q.ComesToMix := by
  rintro ⟨n, -, a, x, p, b, hreaches, hplan, hmixes⟩
  have hstart : Nested q :=
    ⟨fun part => hq.formula part (Part.mem_all part),
      Or.inl fun e he => hq.select e (mem_decisive.mp he).1⟩
  have hcut {a b : Names} {x : Query} {p : Plan} (hplan : plan x a = (some p, b)) :
      ¬ x.ForksConcealed := by
    intro hconcealed
    have hnone : (plan x a).1 = none := plan_eq_none_iff.mpr (sites_eq_nil_iff.mpr hconcealed)
    rw [hplan] at hnone
    exact absurd hnone (by simp)
  have hx : x.ForksConcealed ∨ Nested x := by
    refine hreaches.of_round (P := fun x => x.ForksConcealed ∨ Nested x) ?_ (by simp [hstart])
    intro a b x p subs c hplan hround hx y hy
    have hnested := hx.resolve_left (hcut hplan)
    rcases List.mem_append.mp hy with hy | hy
    · obtain ⟨m, hm, hsub⟩ := forall₂_exists_left hround.subqueries hy
      exact Or.inr (hsub.nested hplan hm hnested.formula)
    · obtain rfl := List.mem_singleton.mp hy
      obtain ⟨base, others, -, -, hcropped, -⟩ := hround.cropped
      exact Or.inl (hcropped.forksConcealed hplan
        (congrArg Prod.snd (prioritized_of_leveled hnested.formula)))
  exact (hx.resolve_left (hcut hplan)).not_mixesAggregates hmixes

end Split

/-- Let the aliases that are given be distinct, none like a numbered one and none of a filter like a
column, and let formulas that are the same be written alike. Then a description cannot be split
exactly if the rounds over the compiled query come to one that mixes aggregations. That never
happens if nothing is aggregated above a fork, or if all forks compute aggregations. -/
theorem QuerySpec.compileMulti_split_error {spec : QuerySpec} {r : Registry} {s : Settings}
    (haliases : spec.GivesAliases) (hwritten : spec.WritesAlike)
    (hfilters : ∀ item ∈ spec.filters, ∀ k : Nat, item.aliasName ≠ some ("_cp" ++ toString k)) :
    ((∃ id message, spec.compileMulti r s = .error (.split id message)) ↔
      ∃ q, spec.compile r s = .ok q ∧ q.ComesToMix) ∧
    ∀ q, spec.compile r s = .ok q → q.Unstacked ∨ q.Leveled →
      ∀ id message, spec.compileMulti r s ≠ .error (.split id message) := by
  have hiff := QuerySpec.split_error_iff (r := r) (s := s) haliases hwritten hfilters
  refine ⟨hiff, fun q hq hsafe id message h => ?_⟩
  obtain ⟨q', hq', hmix⟩ := hiff.mp ⟨id, message, h⟩
  obtain rfl := Except.ok.inj (hq.symm.trans hq')
  rcases hsafe with hunstacked | hleveled
  · exact Split.not_comesToMix_of_unstacked hunstacked hmix
  · exact Split.not_comesToMix_of_leveled hleveled hmix

/-- For each city the sales of its best day. -/
def bestDay : QuerySpec :=
  { QuerySpec.empty with
    select :=
      [⟨.field "city", none, some "city"⟩,
       ⟨.call "max" [.callWith "sum" [.field "sales"] (.including [.field "date"]) NameSet.empty],
        none, some "best day"⟩]
    groupBy := [⟨.field "city", none, none⟩] }

/-- The sum of all sales, and the last place that a single one has. -/
def sumAndLastPlace : QuerySpec :=
  { QuerySpec.empty with
    select :=
      [⟨Split.sumOfSales, none, some "sum"⟩,
       ⟨.call "max" [.window "rank" [.field "sales"] .total [] NameSet.empty], none,
        some "last place"⟩] }

/-- The maximum stands over a fork, but the forks compute aggregations. -/
theorem QuerySpec.compileMulti_split_error_bestDay :
    ∃ q, bestDay.compile Split.orders .default = .ok q ∧ q.Leveled ∧ ¬ q.Unstacked ∧
      ∀ id message, bestDay.compileMulti Split.orders .default ≠ .error (.split id message) := by
  have hok : ((bestDay.compile Split.orders .default).toOption.any fun q =>
      decide q.Leveled && !decide q.Unstacked) = true := by decide +kernel
  obtain ⟨q, hq, htest⟩ := exists_eq_ok hok
  simp only [Bool.and_eq_true, Bool.not_eq_true', decide_eq_true_eq, decide_eq_false_iff_not]
    at htest
  have haliases : bestDay.GivesAliases := ⟨by decide, by decide⟩
  have hwritten : bestDay.WritesAlike := by
    have hapart : (Formula.field "city" == .call "max" [.callWith "sum" [.field "sales"]
        (.including [.field "date"]) NameSet.empty]) = false := by decide
    have hapart' := BEq.comm.trans hapart
    simp [QuerySpec.WritesAlike, QuerySpec.sharingFormulas, bestDay, QuerySpec.empty, hapart,
      hapart']
  exact ⟨q, hq, htest.1, htest.2, (QuerySpec.compileMulti_split_error haliases hwritten
    (fun _ h => absurd h List.not_mem_nil)).2 q hq (Or.inr htest.1)⟩

/-- The sum is a column of the sub-query that computes the places. The maximum is taken of another
column, so it is still aggregated. -/
theorem QuerySpec.compileMulti_inconsistent :
    sumAndLastPlace.GivesAliases ∧ ∃ id message,
      sumAndLastPlace.compileMulti Split.orders .default = .error (.split id message) := by
  have hfails : error? (sumAndLastPlace.compileMulti Split.orders .default) =
      some (.split "qq" "inconsistent aggregation of select item MAX([_cp2])") := by
    decide +kernel
  exact ⟨⟨by decide, by decide⟩, _, _, eq_error_of_error? hfails⟩

end FormulaSql
