import FormulaSql.Proofs.Query.Apart
import FormulaSql.Proofs.Query.Stages

/-!
# Preparing a query twice

A query that has been prepared is prepared once more. Nothing changes if simplifying had come to an
end the first time and there is no window call inside an aggregation. Where there is one, the fork
that is made for it comes to stand below the aggregation, and this is seen only the second time.

* `Query.process_stable` says when a prepared query stays as it is
-/

namespace FormulaSql

/-! ## Queries at rest -/

/-- The stages before forks are made have nothing to offer for any node of the query, and there is
no window call inside an aggregation. -/
structure Query.AtRest (s : Settings) (ordering : List Formula) (q : Query) : Prop where
  simple : ∀ part ∈ Part.all, ∀ e ∈ q.part part, ∀ g ∈ e.formula.nodes,
    ∀ rule ∈ Pipeline.partRules s part, rule [] g = none
  /-- Dimensions are put into forks, and so into filters. -/
  dimension : ∀ d ∈ q.dimensions, ∀ g ∈ d.nodes, ∀ rule ∈ Pipeline.partRules s .filters,
    rule [] g = none
  ordered : ∀ part ∈ Part.all, ∀ e ∈ q.part part, ∀ g ∈ e.formula.nodes,
    Normalize.defaultOrdering ordering [] g = none
  within : ∀ part ∈ Part.all, ∀ e ∈ q.part part, ∀ g ∈ e.formula.nodes,
    Normalize.dropExtraWithin q.dimensions [] g = none
  outside : ∀ part ∈ Part.all, ∀ e ∈ q.part part, ∀ g ∈ e.formula.nodes,
    g.isAggregateCall = true → g.containsWindow = false

instance (s : Settings) (ordering : List Formula) (q : Query) :
    Decidable (q.AtRest s ordering) :=
  decidable_of_iff
    ((∀ part ∈ Part.all, ∀ e ∈ q.part part, ∀ g ∈ e.formula.nodes,
        ∀ rule ∈ Pipeline.partRules s part, rule [] g = none) ∧
      (∀ d ∈ q.dimensions, ∀ g ∈ d.nodes, ∀ rule ∈ Pipeline.partRules s .filters,
        rule [] g = none) ∧
      (∀ part ∈ Part.all, ∀ e ∈ q.part part, ∀ g ∈ e.formula.nodes,
        Normalize.defaultOrdering ordering [] g = none) ∧
      (∀ part ∈ Part.all, ∀ e ∈ q.part part, ∀ g ∈ e.formula.nodes,
        Normalize.dropExtraWithin q.dimensions [] g = none) ∧
      ∀ part ∈ Part.all, ∀ e ∈ q.part part, ∀ g ∈ e.formula.nodes,
        g.isAggregateCall = true → g.containsWindow = false)
    ⟨fun h => ⟨h.1, h.2.1, h.2.2.1, h.2.2.2.1, h.2.2.2.2⟩,
      fun h => ⟨h.simple, h.dimension, h.ordered, h.within, h.outside⟩⟩

/-! ## Formulas through the making of forks -/

namespace Formula

/-- What a formula at rest becomes while forks are made, filters moved and window calls tagged. The
flag says that aggregations have been put into forks. -/
structure Prepared (rules : List Rule) (ordering dims : List Formula) (levels : Bool)
    (f g : Formula) : Prop where
  stays : Stays rules ordering dims f g
  apart : levels = true → g.Throughout Apart []
  single : levels = false → (f.All fun x => Simplify.doubleAggregation [] x = none) →
    g.All fun x => Simplify.doubleAggregation [] x = none
  top : f.TopLevel dims → g.TopLevel dims

section Prepared

variable {rules : List Rule} {ordering dims : List Formula} {levels : Bool} {rule : Rule}
  {f g : Formula}

theorem Prepared.regular (h : Prepared rules ordering dims levels f g) : g.Regular :=
  h.stays.atRest.regular

theorem Prepared.outside (h : Prepared rules ordering dims levels f g) :
    g.All fun x => x.isAggregateCall = true → x.Calls Head.NoWindow :=
  fun x hx => (h.stays.atRest.quiet x hx).outside

/-- Of two equal formulas the one from before may be kept. -/
theorem Prepared.of_same (hf : f.AtRest rules ordering dims)
    (h : Prepared rules ordering dims levels f g) (hsame : (g == f) = true) :
    Prepared rules ordering dims levels f f where
  stays := .refl hf
  apart hlevels := by
    have hrests : g.Rests (Normalize.levelOfDetail dims) [] :=
      (h.apart hlevels).imp fun _ _ hapart => hapart.rests
    exact apart_of_rests hf.regular (rests_levelOfDetail_of_same hsame hrests)
  single _ := id
  top := id

variable
  (hrules : ∀ rule ∈ rules, Sees operandView rule ∧ Lenient (fun g => rule [] g = none) True)
  (hordering : ∀ o ∈ ordering, (Normalize.orderKey o).Ordinary)
  (hdims : ∀ d ∈ dims, d.Flat ∧ d.All fun g => ∀ rule ∈ rules, rule [] g = none)

include hrules hordering hdims

theorem Prepared.lookups (allowEmpty : Bool) (h : f.AtRest rules ordering dims) :
    Prepared rules ordering dims false f (f.transform (Normalize.lookups dims allowEmpty)) := by
  have hflat : ∀ d ∈ dims, d.Flat := fun d hd => (hdims d hd).1
  have hrule := forks_lookups allowEmpty hflat
  refine ⟨h.transform hrules hordering hdims hrule, fun hlevels => absurd hlevels (by simp), ?_, ?_⟩
  · exact fun _ hf => (doubleAggregation_transform hrule hflat h.regular hf).2
  · exact topLevel_transform hrule.keepsFlat (keepsTop_lookups allowEmpty) h.regular

theorem Prepared.levelOfDetail (h : Prepared rules ordering dims false f g) :
    Prepared rules ordering dims true f (g.transform (Normalize.levelOfDetail dims)) := by
  have hflat : ∀ d ∈ dims, d.Flat := fun d hd => (hdims d hd).1
  refine ⟨h.stays.trans (h.stays.atRest.levelOfDetail hrules hordering hdims), fun _ => ?_,
    fun hlevels => absurd hlevels (by simp), fun hf => ?_⟩
  · exact throughout_apart (fun d hd => (hflat d hd).unaggregated) h.regular.plainlyNamed
  · exact topLevel_levelOfDetail hflat h.regular (h.top hf)

theorem Prepared.transform (hrule : rule.SparesCalls dims) (htop : rule.KeepsTop dims)
    (h : Prepared rules ordering dims levels f g) :
    Prepared rules ordering dims levels f (g.transform rule) := by
  have hflat : ∀ d ∈ dims, d.Flat := fun d hd => (hdims d hd).1
  refine ⟨h.stays.trans (h.stays.atRest.transform hrules hordering hdims hrule.toForks), ?_, ?_, ?_⟩
  · exact fun hlevels => apart_transform hrule hflat h.regular h.outside (h.apart hlevels)
  · exact fun hlevels hf =>
      (doubleAggregation_transform hrule.toForks hflat h.regular (h.single hlevels hf)).2
  · exact fun hf => topLevel_transform hrule.keepsFlat htop h.regular (h.top hf)

/-- The rules that make forks, each where there is something to do for it. -/
theorem Prepared.transformAll (allowEmpty looks : Bool) {windows : Bool}
    (hwindows : windows = true → levels = true) (h : f.AtRest rules ordering dims) :
    Prepared rules ordering dims levels f (f.transformAll
      ((if looks then [Normalize.lookups dims allowEmpty] else []) ++
        (if levels then [Normalize.levelOfDetail dims] else []) ++
        if windows then [Normalize.windowForks dims] else [])) := by
  have hflat : ∀ d ∈ dims, d.Flat := fun d hd => (hdims d hd).1
  have hlooks : Prepared rules ordering dims false f
      (f.transformAll (if looks then [Normalize.lookups dims allowEmpty] else [])) := by
    cases looks with
    | true => exact .lookups hrules hordering hdims allowEmpty h
    | false => exact ⟨.refl h, fun hlevels => absurd hlevels (by simp), fun _ => id, id⟩
  rw [Formula.transformAll, List.foldl_append, List.foldl_append]
  cases levels with
  | false =>
      have hnone : windows = false := by
        rw [← Bool.not_eq_true]
        exact fun hw => absurd (hwindows hw) (by simp)
      rw [hnone]
      exact hlooks
  | true =>
      have hlevels := hlooks.levelOfDetail hrules hordering hdims
      cases windows with
      | false => exact hlevels
      | true =>
          exact hlevels.transform hrules hordering hdims (sparesCalls_windowForks hflat)
            keepsTop_windowForks

end Prepared

end Formula

/-! ## Queries through the making of forks -/

/-- The rules that simplify the formulas of a part, but for the one that folds aggregations. -/
def Pipeline.operandRules (s : Settings) (part : Part) : List Rule :=
  if s.disableOptimizations then []
  else if part == .filters then Simplify.zeroOne :: Formula.operandRules s.dialect
  else Formula.operandRules s.dialect

section Rules

variable {s : Settings} {part : Part} {rule : Rule}

theorem mem_partRules_iff : rule ∈ Pipeline.partRules s part ↔
    (s.disableOptimizations = false ∧ rule = Simplify.doubleAggregation) ∨
      rule ∈ Pipeline.operandRules s part := by
  rw [Pipeline.partRules, Pipeline.operandRules]
  cases s.disableOptimizations with
  | true => simp
  | false =>
      cases part == .filters with
      | true =>
          simp only [Simplify.filterRules, Bool.false_eq_true, if_false, if_true, List.mem_cons,
            Formula.mem_rules_iff, true_and]
          tauto
      | false => simp [Formula.mem_rules_iff]

theorem mem_operandRules (h : rule ∈ Pipeline.operandRules s part) :
    s.disableOptimizations = false ∧ rule ∈ Simplify.zeroOne :: Formula.operandRules s.dialect := by
  rw [Pipeline.operandRules] at h
  split at h
  next => exact absurd h List.not_mem_nil
  next hoptimize =>
    refine ⟨Bool.not_eq_true _ ▸ hoptimize, ?_⟩
    split at h
    next => exact h
    next => exact List.mem_cons_of_mem _ h

theorem operandRules_subset_filters (h : rule ∈ Pipeline.operandRules s part) :
    rule ∈ Pipeline.partRules s .filters := by
  obtain ⟨hoptimize, hmem⟩ := mem_operandRules h
  refine mem_partRules_iff.mpr (Or.inr ?_)
  rw [Pipeline.operandRules, hoptimize]
  exact hmem

end Rules

/-- Every formula of the second query has come from one of the first, which is at rest. -/
def Query.Prepared (s : Settings) (ordering : List Formula) (q₀ q : Query) : Prop :=
  ∀ part, ∀ e' ∈ q.part part, ∃ e ∈ q₀.part part,
    Formula.Prepared (Pipeline.operandRules s part) ordering q₀.dimensions q₀.seeksLevels
      e.formula e'.formula

section Prepared

variable {q₀ q q' : Query} {s : Settings} {ordering : List Formula} {part : Part}

theorem rules_operandRules (s : Settings) (part : Part) :
    ∀ rule ∈ Pipeline.operandRules s part, Formula.Sees Formula.operandView rule ∧
      Formula.Lenient (fun g => rule [] g = none) True := by
  intro rule hrule
  have hmem := (mem_operandRules hrule).2
  exact ⟨Formula.sees_operandRules s.dialect rule hmem,
    Formula.lenient_operandRules s.dialect rule hmem⟩

theorem Query.AtRest.dimensions (hq : q₀.Regular) (h : q₀.AtRest s ordering) (part : Part) :
    ∀ d ∈ q₀.dimensions, d.Flat ∧
      d.All fun g => ∀ rule ∈ Pipeline.operandRules s part, rule [] g = none :=
  fun d hd => ⟨hq.flat d hd, fun g hg rule hrule =>
    h.dimension d hd g hg rule (operandRules_subset_filters hrule)⟩

theorem Query.AtRest.formula {e : Entry} (hq : q₀.Regular) (h : q₀.AtRest s ordering)
    (he : e ∈ q₀.part part) :
    e.formula.AtRest (Pipeline.operandRules s part) ordering q₀.dimensions where
  regular := (hq.formula part (Part.mem_all part) e he).1
  quiet g hg := by
    refine ⟨fun rule hrule => ?_, h.within part (Part.mem_all part) e he g hg, fun haggregate => ?_⟩
    · exact h.simple part (Part.mem_all part) e he g hg rule (mem_partRules_iff.mpr (Or.inr hrule))
    · exact Formula.calls_noWindow_iff.mpr
        (h.outside part (Part.mem_all part) e he g hg haggregate)
  ordered := h.ordered part (Part.mem_all part) e he

theorem dimensions_applyRules {rules : List Rule} (hdims : ∀ d ∈ q.dimensions, d.Flat)
    (hrules : ∀ rule ∈ rules, rule.KeepsFlat) :
    (Pipeline.applyRules q rules).dimensions = q.dimensions := by
  refine congrArg (List.map Entry.formula) (Query.groupBy_mapFormulas fun d hd => ?_)
  rw [Formula.transformAll]
  induction rules with
  | nil => rfl
  | cons rule rules ih =>
      rw [List.forall_mem_cons] at hrules
      rw [List.foldl_cons, (Formula.passes_transform hrules.1 (hdims d hd).regular).flat (hdims d hd)]
      exact ih hrules.2

theorem dimensions_makeForks (hq : q₀.Regular) (h : Pipeline.makeForks s q₀ = .ok q) :
    q.dimensions = q₀.dimensions := by
  rw [makeForks_rules h]
  refine dimensions_applyRules hq.flat fun rule hrule => ?_
  simp only [List.mem_append] at hrule
  rcases hrule with (hrule | hrule) | hrule <;> rw [mem_of_mem_ite hrule]
  · exact Formula.keepsFlat_lookups hq.flat
  · exact Formula.keepsFlat_levelOfDetail hq.flat
  · exact Formula.keepsFlat_windowForks hq.flat

variable (hq : q₀.Regular) (hrest : q₀.AtRest s ordering)
  (hordering : ∀ o ∈ ordering, (Normalize.orderKey o).Ordinary)

include hq hrest hordering

theorem prepared_makeForks (h : Pipeline.makeForks s q₀ = .ok q) : q₀.Prepared s ordering q := by
  rw [makeForks_rules h]
  intro part e' he'
  rw [Pipeline.applyRules, Query.part_mapFormulas] at he'
  obtain ⟨e, he, rfl⟩ := List.mem_map.mp he'
  have hformula := hrest.formula hq he
  have hwindows : q₀.anyFormula Formula.containsWindow = true → q₀.seeksLevels = true := by
    intro hw
    rw [Query.seeksLevels, hw, Bool.or_true]
  have hprepared := Formula.Prepared.transformAll (rules_operandRules s part) hordering
    (hrest.dimensions hq part) s.allowEmptyDimensions (q₀.anyFormula Formula.containsLookup)
    hwindows hformula
  obtain ⟨hsame, heq | heq⟩ := mapEntry_formula (fun f => f.transformAll _) e
  · exact ⟨e, he, heq ▸ hprepared⟩
  · rw [heq] at hsame ⊢
    exact ⟨e, he, hprepared.of_same hformula hsame⟩

theorem Query.Prepared.applyRule {rule : Rule} (hrule : rule.SparesCalls q₀.dimensions)
    (htop : rule.KeepsTop q₀.dimensions) (h : q₀.Prepared s ordering q) :
    q₀.Prepared s ordering (Pipeline.applyRules q [rule]) := by
  intro part e' he'
  rw [Pipeline.applyRules, Query.part_mapFormulas] at he'
  obtain ⟨e₁, he₁, rfl⟩ := List.mem_map.mp he'
  obtain ⟨e, he, hprepared⟩ := h part e₁ he₁
  obtain ⟨-, heq | heq⟩ := mapEntry_formula (fun f => f.transformAll [rule]) e₁
  · refine ⟨e, he, heq ▸ ?_⟩
    exact hprepared.transform (rules_operandRules s part) hordering (hrest.dimensions hq part)
      hrule htop
  · exact ⟨e, he, heq ▸ hprepared⟩

/-- What is known of a query after the stages that make forks, move filters and tag. -/
theorem prepared_tagLevels {q₁ q₂ : Query} (h₁ : Pipeline.makeForks s q₀ = .ok q₁)
    (h₂ : Pipeline.normalizeFilters q₁ = .ok q₂) (h₃ : Pipeline.tagLevels q₂ = .ok q) :
    q₀.Prepared s ordering q ∧ q.dimensions = q₀.dimensions := by
  have hdims₁ := dimensions_makeForks hq h₁
  have hprepared₁ := prepared_makeForks hq hrest hordering h₁
  obtain rfl := Except.ok.inj h₂
  obtain rfl := Except.ok.inj h₃
  have hprepared₂ := hprepared₁.applyRule hq hrest hordering
    (Formula.sparesCalls_laterFilters q₁.filterIds) (Formula.keepsTop_laterFilters q₁.filterIds)
  have hdims₂ : (Pipeline.applyRules q₁ [Normalize.laterFilters q₁.filterIds]).dimensions =
      q₀.dimensions := by
    refine (dimensions_applyRules (hdims₁ ▸ hq.flat) fun rule hrule => ?_).trans hdims₁
    rw [List.mem_singleton.mp hrule]
    exact Formula.keepsFlat_laterFilters q₁.filterIds
  refine ⟨hprepared₂.applyRule hq hrest hordering Formula.sparesCalls_levelTags
    Formula.keepsTop_levelTags, ?_⟩
  refine (dimensions_applyRules (hdims₂ ▸ hq.flat) fun rule hrule => ?_).trans hdims₂
  rw [List.mem_singleton.mp hrule]
  exact Formula.keepsFlat_levelTags

end Prepared

/-! ## What comes out -/

section Outcome

variable {q₀ q₁ q₂ q : Query} {s : Settings} {ordering : List Formula}

theorem Formula.Flat.calls_noLookup {f : Formula} (h : f.Flat) : f.Calls Head.NoLookup :=
  calls_noLookup_of_containsLookup h.not_containsLookup

theorem Formula.Flat.calls_noAmong {f : Formula} (h : f.Flat) : f.Calls Head.NoAmong := by
  intro g hg
  have hrow : g.kind.isRowwise = true := h g hg
  show Head.NoAmong g.kind.head
  cases hk : g.kind with
  | window w => rw [hk] at hrow; exact absurd hrow (by simp [Kind.isRowwise])
  | _ => exact trivial

theorem mem_named_of_levelDims {f d : Formula} (h : d ∈ f.kind.levelDims) : d ∈ f.kind.named := by
  cases hk : f.kind with
  | call c =>
      rw [hk] at h
      exact List.mem_append_left _ h
  | fork q =>
      rw [hk] at h
      have hmem : d ∈ q.lod.dims := h
      simp [Kind.named, Kind.children, hmem]
  | _ =>
      rw [hk] at h
      exact absurd h List.not_mem_nil

theorem Query.Regular.levelsCall (hq : q₀.Regular) : q₀.LevelsCall Head.NoLookup where
  dimension d hd := (hq.flat d hd).calls_noLookup
  level part hpart e he g hg d hd := by
    have hsides := (hq.formula part hpart e he).1 g hg d
    exact (hsides (Formula.mem_sides_of_named (mem_named_of_levelDims hd))).calls_noLookup

theorem anyFormula_of_forall {p : Formula → Bool}
    (h : ∀ part, ∀ e ∈ q.part part, p e.formula = false) : q.anyFormula p = false := by
  rw [Query.anyFormula, List.any_eq_false]
  intro x hx
  obtain ⟨part, -, hx⟩ := List.mem_flatMap.mp hx
  obtain ⟨e, he, rfl⟩ := List.mem_map.mp hx
  rw [Bool.not_eq_true]
  exact h part e he

/-- There are no forks to be made of what means something in a row of totals. -/
theorem eq_of_totals (hq : q₀.Regular)
    (hbeyond : ∀ part, ∀ e ∈ q₀.part part,
      Pipeline.isBeyondTotals q₀.dimensions e.formula = false)
    (h₁ : Pipeline.makeForks s q₀ = .ok q₁) (h₂ : Pipeline.normalizeFilters q₁ = .ok q₂)
    (h₃ : Pipeline.tagLevels q₂ = .ok q) : q = q₀ := by
  simp only [Pipeline.isBeyondTotals, Bool.or_eq_false_iff] at hbeyond
  have hwindow : ∀ part, ∀ e ∈ q₀.part part, e.formula.containsWindow = false :=
    fun part e he => (hbeyond part e he).2
  have hrests {rule : Rule} (hrule : rule.SparesCalls q₀.dimensions) :
      Pipeline.applyRules q₀ [rule] = q₀ := by
    refine applyRules_eq_self fun part e he r hr => ?_
    rw [List.mem_singleton.mp hr]
    obtain ⟨hregular, hforkless⟩ := hq.formula part (Part.mem_all part) e he
    refine Formula.rests_of_sparesCalls hrule hq.flat (fun _ ha => absurd ha List.not_mem_nil)
      hregular (Formula.calls_noWindow_iff.mpr (hwindow part e he)) ?_
    rw [Formula.containsFork, Formula.any, List.any_eq_false]
    exact fun g hg => by simp [hforkless g hg]
  have hforks : q₁ = q₀ := by
    rw [makeForks_rules h₁, Query.seeksLevels, anyFormula_of_forall hwindow,
      anyFormula_of_forall fun part e he => (hbeyond part e he).1.1.1,
      anyFormula_of_forall fun part e he => (hbeyond part e he).1.1.2]
    exact applyRules_eq_self fun _ _ _ _ hrule => absurd hrule List.not_mem_nil
  subst hforks
  obtain rfl : q₁ = q₂ := (hrests (Formula.sparesCalls_laterFilters q₁.filterIds)).symm.trans
    (Except.ok.inj h₂)
  exact (Except.ok.inj h₃).symm.trans (hrests Formula.sparesCalls_levelTags)

end Outcome

/-! ## Preparing twice -/

namespace Query

variable {q q₀ q' : Query} {s : Settings} {ordering : List Formula}

/-- The rules that simplify rest on a query that has been prepared. -/
theorem Prepared.simple (hrest : q₀.AtRest s ordering) (h : q₀.Prepared s ordering q) :
    ∀ part, ∀ e ∈ q.part part, e.formula.All fun g =>
      ∀ rule ∈ Pipeline.partRules s part, rule [] g = none := by
  intro part e' he' g hg rule hrule
  obtain ⟨e, he, hprepared⟩ := h part e' he'
  rcases mem_partRules_iff.mp hrule with ⟨hoptimize, rfl⟩ | hoperand
  · cases hlevels : q₀.seeksLevels with
    | true => exact Formula.doubleAggregation_of_apart (hprepared.apart hlevels) g hg
    | false =>
        refine hprepared.single hlevels (fun x hx => ?_) g hg
        exact hrest.simple part (Part.mem_all part) e he x hx _ hrule
  · exact (hprepared.stays.atRest.quiet g hg).simple rule hoperand

/-- No aggregation is found to be extended that was not before. -/
theorem Prepared.anyExtended (h : q₀.Prepared s ordering q)
    (hextended : (q.anyFormula fun f => f.containsExtended true) = true) :
    (q₀.anyFormula fun f => f.containsExtended true) = true := by
  obtain ⟨⟨part, e'⟩, hmem, hsearch⟩ := List.any_eq_true.mp hextended
  obtain ⟨p, -, hmem⟩ := List.mem_flatMap.mp hmem
  obtain ⟨x, hx, heq⟩ := List.mem_map.mp hmem
  obtain ⟨rfl, rfl⟩ := Prod.mk.inj heq
  obtain ⟨e, he, hprepared⟩ := h p x hx
  exact List.any_eq_true.mpr ⟨(p, e), mem_entries he, hprepared.stays.search false hsearch⟩

/-- Nor is there a window call if there was none. -/
theorem seeksLevels_of_prepared {q₁ q₂ : Query} (h : q₀.Prepared s ordering q)
    (h₁ : Pipeline.makeForks s q₀ = .ok q₁) (h₂ : Pipeline.normalizeFilters q₁ = .ok q₂)
    (h₃ : Pipeline.tagLevels q₂ = .ok q) (hseeks : q.seeksLevels = true) :
    q₀.seeksLevels = true := by
  rw [seeksLevels, Bool.or_eq_true] at hseeks ⊢
  rcases hseeks with hextended | hwindow
  · exact Or.inl (h.anyExtended hextended)
  · right
    by_contra hnone
    rw [Bool.not_eq_true] at hnone
    have hcalls : q₀.Calls Head.NoWindow := fun part e he =>
      Formula.calls_noWindow_iff.mpr (anyFormula_eq_false hnone part he)
    have hafter := (hcalls.makeForks Head.mild_noWindow h₁).tagLevels Head.mild_noWindow h₂ h₃
    have hfalse : q.anyFormula Formula.containsWindow = false :=
      anyFormula_of_forall fun part e he => Formula.calls_noWindow_iff.mp (hafter part e he)
    exact absurd hwindow (by simp [hfalse])

theorem process_eq_self (h : ∀ stage ∈ Pipeline.stages s ordering, stage q = .ok q) :
    q.process s ordering = .ok q := by
  have hfold (stages : List Pipeline.Stage) (h : ∀ stage ∈ stages, stage q = .ok q) :
      stages.foldlM (fun q stage => stage q) q = .ok q := by
    induction stages with
    | nil => rfl
    | cons stage stages ih =>
        rw [List.forall_mem_cons] at h
        rw [List.foldlM_cons, h.1]
        exact ih h.2
  exact hfold _ h

/-- A prepared query stays as it is if simplifying it had come to an end and there was no window call
inside an aggregation. -/
theorem process_stable (hq : q.Regular)
    (hordering : ∀ o ∈ ordering, (o.Regular ∧ o.Forkless) ∧ (Normalize.orderKey o).Ordinary)
    (hq₀ : q.simplified s ordering = .ok q₀) (hrest : q₀.AtRest s ordering)
    (h : q.process s ordering = .ok q') : q'.process s ordering = .ok q' := by
  have hgiven : ∀ o ∈ ordering, o.Regular ∧ o.Forkless := fun o ho => (hordering o ho).1
  have hregular : q₀.Regular := hq.simplified hgiven hq₀
  rw [process_eq] at h
  obtain ⟨p, hp, h⟩ := bind_eq_ok.mp h
  obtain rfl := Except.ok.inj (hq₀.symm.trans hp)
  obtain ⟨q₁, h₁, h⟩ := bind_eq_ok.mp h
  obtain ⟨q₂, h₂, h₃⟩ := bind_eq_ok.mp h
  obtain ⟨hprepared, hdims⟩ :=
    prepared_tagLevels hregular hrest (fun o ho => (hordering o ho).2) h₁ h₂ h₃
  have hplace := inPlace_tagLevels (windowForked_makeForks h₁) h₂ h₃
  have hlookup := (hregular.levelsCall.makeForks h₁).tagLevels Head.mild_noLookup h₂ h₃
  have hamong : q'.Calls Head.NoAmong := by
    obtain ⟨q₃, hq₃, hsimplified⟩ := asCalls_simplified Head.mild_noAmong hq₀
    have hcalls := hsimplified.calls (calls_prepare (fun d hd => (hq.flat d hd).calls_noAmong) hq₃)
    exact (hcalls.makeForks Head.mild_noAmong h₁).tagLevels Head.mild_noAmong h₂ h₃
  obtain ⟨p, hpregular, hptrue, hpnull⟩ := exists_nullifyTotals hq hgiven hq₀
  apply process_eq_self
  simp only [Pipeline.stages, List.forall_mem_cons]
  refine ⟨?_, ?_, dropConstantGroups_eq_self s.dialect, ?_, ?_, ?_, ?_, ?_,
    fun _ h => absurd h List.not_mem_nil⟩
  · refine prepare_eq_self (fun part e' he' => ?_) (fun part e' he' g hg => ?_) hlookup hamong
    · obtain ⟨e, he, hformula⟩ := hprepared part e' he'
      exact hformula.stays.atRest.ordered
    · obtain ⟨e, he, hformula⟩ := hprepared part e' he'
      rw [hdims]
      exact (hformula.stays.atRest.quiet g hg).within
  · exact optimize_eq_self (hprepared.simple hrest)
  · refine dropTrueFilters_eq_self fun e' he' => ?_
    obtain ⟨e, he, hformula⟩ := hprepared .filters e' he'
    rw [Simplify.isTrue, hformula.stays.literal]
    exact not_isTrue_of_nullifyTotals hpnull hptrue e he
  · refine nullifyTotals_eq_self fun htype => ?_
    have htype₀ : q₀.type = .totals := by
      rw [← htype, ← Except.ok.inj h₃, ← Except.ok.inj h₂, makeForks_rules h₁]
      rfl
    have hbeyond := not_isBeyondTotals_of_nullifyTotals hpregular hpnull htype₀
    obtain rfl := eq_of_totals hregular hbeyond h₁ h₂ h₃
    exact hbeyond
  · refine makeForks_eq_self hlookup (fun hseeks part e' he' => ?_)
      (fun part e he => (hplace part e he).imp fun _ _ h => h.1) fun hextended hallow part e' he' => ?_
    · obtain ⟨e, he, hformula⟩ := hprepared part e' he'
      have hapart := hformula.apart (seeksLevels_of_prepared hprepared h₁ h₂ h₃ hseeks)
      exact hapart.imp fun _ _ h => h.rests
    · obtain ⟨e, he, hformula⟩ := hprepared part e' he'
      rw [hdims]
      exact hformula.top (topLevel_of_makeForks h₁ (hprepared.anyExtended hextended) hallow
        part e he)
  · exact normalizeFilters_eq_self fun part e he => (hplace part e he).imp fun _ _ h => h.2.1
  · exact tagLevels_eq_self fun part e he => (hplace part e he).imp fun _ _ h => h.2.2

/-- The rank of each city among the cities of a date, the running sum of its share of the sales of
all cities, and its sales at the date before, where the sales are high enough. -/
def runningShare : Query :=
  let city := Formula.field "city"
  let date := Formula.field "date"
  let sales := Formula.call "sum" [.field "sales"]
  let all := Formula.callWith "sum" [.field "sales"] (.excluding [city]) NameSet.empty
  let rank := Formula.of (.window ⟨"rank", [sales], .among [city], [], NameSet.empty⟩)
  let share := Formula.of (.window
    ⟨"rsum", [.binary "/" sales all], .total, [], NameSet.empty⟩)
  { Query.empty "q" with
    select := [Entry.of city, Entry.of date, Entry.of rank, Entry.of share,
      Entry.of (.call "ago" [sales, date])]
    groupBy := [Entry.of city, Entry.of date]
    filters := [Entry.of (.binary ">" sales (.binary "+" (.int 1) (.int 2)))]
    sources := [.table "t" "t" "orders"] }

/-- There are forks of a lookup, of window calls and of an aggregation in one of them, and the second
time they are all left alone. -/
theorem process_stable_runningShare :
    let ordering := [Formula.of (.ordered (.field "date") .asc)]
    ∃ q₀ q', runningShare.simplified .default ordering = .ok q₀ ∧ q₀.AtRest .default ordering ∧
      runningShare.process .default ordering = .ok q' ∧ q'.process .default ordering = .ok q' ∧
      (q'.select.drop 2).all (fun e => e.formula.isFork) = true := by
  have hsimplified : (runningShare.simplified .default
      [Formula.of (.ordered (.field "date") .asc)]).toOption.any (fun q₀ =>
        decide (q₀.AtRest .default [Formula.of (.ordered (.field "date") .asc)])) = true := by
    decide +kernel
  have hprocess : (runningShare.process .default
      [Formula.of (.ordered (.field "date") .asc)]).toOption.any (fun q' =>
        (q'.select.drop 2).all fun e => e.formula.isFork) = true := by
    decide +kernel
  obtain ⟨q₀, hq₀, hrest⟩ := exists_eq_ok hsimplified
  obtain ⟨q', hq', hforks⟩ := exists_eq_ok hprocess
  have hrest := of_decide_eq_true hrest
  exact ⟨q₀, q', hq₀, hrest, hq',
    process_stable (by decide +kernel) (by decide +kernel) hq₀ hrest hq', hforks⟩

/-- The best rank of a sale. -/
def bestRank : Query :=
  let rank := Formula.of (.window ⟨"rank", [.field "sales"], .total, [], NameSet.empty⟩)
  { Query.empty "q" with
    select := [Entry.of (.call "max" [rank])]
    sources := [.table "t" "t" "orders"] }

/-- The window call becomes a fork below the aggregation, and only the second time the aggregation
becomes one, too. -/
theorem process_stable_bestRank :
    ∃ q', bestRank.process .default [] = .ok q' ∧ q'.process .default [] ≠ .ok q' := by
  have hok : (bestRank.process .default []).toOption.any (fun q' =>
      (q'.select.all fun e => e.formula.isAggregateCall) &&
        (q'.process .default []).toOption.all fun q'' =>
          q''.select.any fun e => e.formula.isFork) = true := by
    decide +kernel
  obtain ⟨q', hq', htest⟩ := exists_eq_ok hok
  rw [Bool.and_eq_true] at htest
  refine ⟨q', hq', fun hstable => ?_⟩
  rw [hstable] at htest
  obtain ⟨e, he, hfork⟩ := List.any_eq_true.mp htest.2
  have haggregate := List.all_eq_true.mp htest.1 e he
  obtain ⟨c, hk, -⟩ := Formula.exists_call_of_isAggregateCall haggregate
  rw [Formula.isFork, Formula.fork?, hk] at hfork
  exact absurd hfork (by simp)

end Query

end FormulaSql
