import FormulaSql.Proofs.Query.ForkDimensions
import FormulaSql.Proofs.Split.Extras

/-!
# Dimensions that go together

The sub-queries of a round can be joined if one of them, or the query itself, has the dimensions of
all. In the first round over a prepared query this is always so: the forks that are taken are at
dimensions of the query, so the query has the dimensions of all sub-queries.

* `Split.dimensionsCompatible_of_contains` says that the dimensions of the query are enough
* `Query.process_compatible` is about prepared queries
-/

namespace FormulaSql

/-! ## Equal dimensions -/

namespace Formula

variable {f g : Formula}

theorem not_isConstantExpression_of_same (h : (f == g) = true)
    (hf : f.isConstantExpression = false) : g.isConstantExpression = false := by
  rw [isConstantExpression, Bool.not_eq_false', any, List.any_eq_true] at hf ⊢
  obtain ⟨x, hx, hkind⟩ := hf
  obtain ⟨y, hy, hxy⟩ := exists_node_of_same h hx
  refine ⟨y, hy, ?_⟩
  simp only [Bool.or_eq_true] at hkind ⊢
  rw [← field?_eq_of_same hxy, ← isWindowCall_eq_of_same hxy, ← isFork_eq_of_same hxy,
    ← isAggregateCall_eq_of_same hxy]
  exact hkind.imp_left (Or.imp_right (isError_of_same hxy))

/-- Outermost forks are on the surface. -/
theorem exists_mem_surface_of_outermostForks {p : Path} {k : Fork Formula}
    (h : (p, k) ∈ f.outermostForks) : ∃ g ∈ f.surface, g.fork? = some k := by
  induction f using induction_children generalizing p with
  | step f ih =>
      rcases mem_outermostForks_iff.mp h with ⟨-, hfork⟩ | ⟨hfork, i, c, p', hc, -, hmem⟩
      · exact ⟨f, self_mem_surface f, hfork⟩
      · have hauto := List.mem_of_getElem? hc
        obtain ⟨g, hg, hk⟩ := ih c (mem_children_of_autonomous hauto) hmem
        exact ⟨g, mem_surface_of_autonomous (not_isFork_of_fork? hfork) hauto hg, hk⟩

end Formula

namespace Split

variable {q : Query} {s : Site}

theorem contains_realDimensions {d : Formula} (h : q.dimensions.contains d = true)
    (hd : d.isConstantExpression = false) : (realDimensions q).contains d = true := by
  obtain ⟨x, hx, hsame⟩ := Formula.contains_eq_true.mp h
  refine Formula.contains_eq_true.mpr ⟨x, List.mem_filter.mpr ⟨hx, ?_⟩, hsame⟩
  rw [Formula.not_isConstantExpression_of_same hsame hd]
  rfl

/-! ## The dimensions of forks -/

theorem inside_of_mem_sites (hq : q.ForksInside) (hs : s ∈ sites q) :
    s.fork.lod.Inside q.dimensions := by
  obtain ⟨-, e, he, hmem, -⟩ := mem_sites_iff.mp hs
  obtain ⟨g, hg, hk⟩ := Formula.exists_mem_surface_of_outermostForks hmem
  exact hq.formula s.part e (List.mem_of_getElem? he) g hg s.fork hk

/-- A fork at fixed dimensions has them as they are written, repetitions included. -/
theorem contains_forkDims {l : Lod Formula} (h : l.Inside q.dimensions) :
    ∀ d ∈ forkDims q l, q.dimensions.contains d = true := by
  intro d hd
  unfold forkDims at hd
  split at hd
  next own =>
    have hcontains : (own.foldl pushUnique []).contains d = true :=
      Formula.contains_foldl_pushUnique (Or.inr hd)
    obtain ⟨x, hx, hsame⟩ := Formula.contains_eq_true.mp hcontains
    obtain ⟨y, hy, hsame'⟩ := Formula.contains_eq_true.mp (h x hx)
    exact Formula.contains_eq_true.mpr ⟨y, hy, BEq.trans hsame hsame'⟩
  next => exact h d hd

/-- What the sub-query of a fork groups by is a dimension of the query. -/
theorem contains_selection (hq : q.ForksInside) (hs : s ∈ taken q) :
    ∀ x ∈ (signatureOf q s).selection, x.2 = true → (realDimensions q).contains x.1 = true := by
  intro x hx hgrouped
  rcases List.mem_append.mp hx with hx | hx
  · obtain ⟨d, hd, rfl⟩ := List.mem_map.mp hx
    have hreal : d.isConstantExpression = false := by simpa [asDimension] using hgrouped
    simp only [signatureOf] at hd
    split at hd
    next =>
      obtain rfl := List.mem_singleton.mp hd
      exact absurd hreal (by decide)
    next =>
      have hinside := inside_of_mem_sites hq (mem_sites_of_taken hs)
      exact contains_realDimensions (contains_forkDims hinside d hd) hreal
  · obtain ⟨d, -, rfl⟩ := List.mem_map.mp hx
    exact absurd hgrouped (by simp)

theorem forall_groupByExprs {P : Formula → Prop} {m : Mask} :
    (∀ d ∈ m.groupByExprs, P d) ↔ ∀ x ∈ selection m.extras, x.2 = true → P x.1 := by
  constructor
  · intro h x hx hgrouped
    obtain ⟨e, he, rfl⟩ := List.mem_map.mp hx
    exact h e.expr (List.mem_map_of_mem (List.mem_filter.mpr ⟨he, hgrouped⟩))
  · intro h d hd
    obtain ⟨e, he, rfl⟩ := List.mem_map.mp hd
    obtain ⟨he, hgrouped⟩ := List.mem_filter.mp he
    exact h (e.expr, e.isGroupBy) (List.mem_map_of_mem he) hgrouped

/-- If all sub-queries group by dimensions of the query, it has the dimensions of all. -/
theorem dimensionsCompatible_of_contains {masks : List Mask}
    (h : ∀ m ∈ masks, ∀ d ∈ m.groupByExprs, (realDimensions q).contains d = true) :
    dimensionsCompatible q masks = true := by
  rw [dimensionsCompatible, List.any_eq_true]
  refine ⟨realDimensions q, by simp, ?_⟩
  rw [sameMembers, Bool.and_eq_true, List.all_eq_true, List.all_eq_true]
  constructor
  · intro d hd
    have hmem : d ∈ (masks.map Mask.groupByExprs ++ [realDimensions q]).flatten := by simp [hd]
    obtain ⟨x, hx, hsame⟩ := exists_beq_eraseDups hmem
    exact Formula.contains_eq_true.mpr ⟨x, hx, hsame⟩
  · intro d hd
    have hmem := mem_of_mem_eraseDups hd
    rw [List.flatten_append, List.mem_append] at hmem
    rcases hmem with hmem | hmem
    · obtain ⟨set, hset, hd⟩ := List.mem_flatten.mp hmem
      obtain ⟨m, hm, rfl⟩ := List.mem_map.mp hset
      exact h m hm d hd
    · exact Formula.contains_of_mem (by simpa using hmem)

/-- A round over a query all forks of which are at its dimensions. -/
theorem plan_contains (hq : q.ForksInside) {a b : Names} {p : Plan}
    (hplan : plan q a = (some p, b)) :
    p.compatible = true ∧
      ∀ m ∈ p.masks, ∀ d ∈ m.groupByExprs, (realDimensions q).contains d = true := by
  constructor
  · obtain ⟨based, -, rfl, -⟩ := plan_eq_some hplan
    dsimp only
    refine dimensionsCompatible_of_contains fun m hm => ?_
    obtain ⟨s, hs, hselection, -⟩ := forkMask_signature hm
    exact forall_groupByExprs.mpr (hselection ▸ contains_selection hq hs)
  · intro m hm
    refine forall_groupByExprs.mpr (plan_selection
      (P := fun x => x.2 = true → (realDimensions q).contains x.1 = true) hplan ?_
      (fun s hs => contains_selection hq hs) m hm)
    intro d hd hgrouped
    have hreal : d.isConstantExpression = false := by simpa [asDimension] using hgrouped
    exact contains_realDimensions (Formula.contains_of_mem hd) hreal

end Split

/-! ## Prepared queries -/

/-- In the first round over a prepared query, every sub-query groups by dimensions of the query that
are not constant, so the dimensions go together. The dimensions are those before, simplified. -/
theorem Query.process_compatible {q q' : Query} {s : Settings} {ordering : List Formula}
    (htype : q.type = .normal) (hforks : ∀ part, ∀ e ∈ q.part part, e.formula.Forkless)
    (hdims : ∀ d ∈ q.dimensions,
      d.Unaggregated ∧ d.containsLookup = false ∧ d.containsWindow = false)
    (hallow : s.allowAnyTopLevelDimensions = false) (h : q.process s ordering = .ok q')
    {a b : Split.Names} {p : Split.Plan} (hplan : Split.plan q' a = (some p, b)) :
    p.compatible = true ∧
      (∀ m ∈ p.masks, ∀ d ∈ m.groupByExprs, (Split.realDimensions q').contains d = true) ∧
      List.Forall₂ (fun d d' => (s.simplify d == d') = true) q.dimensions q'.dimensions := by
  have hunforked : q.Unforked := by
    refine ⟨fun d hd => ?_, fun part e he => (hforks part e he).unforked⟩
    obtain ⟨haggregate, hlookup, hwindow⟩ := hdims d hd
    obtain ⟨e, he, rfl⟩ := List.mem_map.mp hd
    exact Formula.inert_of_plain haggregate hlookup hwindow (hforks .groupBy e he)
  obtain ⟨hinside, hsimplified⟩ := Query.process_forksInside hunforked htype hallow h
  obtain ⟨hcompatible, hcontains⟩ := Split.plan_contains hinside hplan
  exact ⟨hcompatible, hcontains, hsimplified⟩

namespace Query

/-- The sales of each date beside those of all dates and of the date before, the rank of the date
before it is filtered, and the best sales of a city. -/
def salesOfDate : Query :=
  let date := Formula.field "date"
  let sales (lod : Lod Formula) : Formula :=
    .callWith "sum" [.field "sales"] lod NameSet.empty
  let rank := Formula.of (.window
    ⟨"rank", [sales .inherited], .total, [], NameSet.ofList ["date"]⟩)
  { Query.empty "q" with
    select := [Entry.of date, Entry.of (sales .inherited), Entry.of (sales (.excluding [date])),
      Entry.of (.call "max" [sales (.including [.field "city"])]),
      Entry.of (.call "ago" [sales .inherited, date]), Entry.of rank]
    groupBy := [Entry.of date]
    filters := [{ Entry.of (.binary "==" date (.date 2024 1 8)) with fieldId := some "date" }]
    sources := [.table "t" "t" "orders"] }

/-- All forks are taken in the first round, and there are several sub-queries. -/
theorem process_compatible_salesOfDate :
    (∀ part ∈ Part.all, ∀ e ∈ salesOfDate.part part, e.formula.Forkless) ∧
    (∀ d ∈ salesOfDate.dimensions,
      d.Unaggregated ∧ d.containsLookup = false ∧ d.containsWindow = false) ∧
    ∃ q' p b, salesOfDate.process .default [] = .ok q' ∧
      Split.plan q' .start = (some p, b) ∧ 4 ≤ p.masks.length ∧ p.compatible = true ∧
      ∀ m ∈ p.masks, ∀ d ∈ m.groupByExprs, (Split.realDimensions q').contains d = true := by
  have hok : ((salesOfDate.process .default []).toOption.any fun q' =>
      (Split.plan q' .start).1.any fun p => decide (4 ≤ p.masks.length)) = true := by
    decide +kernel
  have hforkless : ∀ part ∈ Part.all, ∀ e ∈ salesOfDate.part part, e.formula.Forkless := by
    decide +kernel
  have hdims : ∀ d ∈ salesOfDate.dimensions,
      d.Unaggregated ∧ d.containsLookup = false ∧ d.containsWindow = false := by
    decide +kernel
  obtain ⟨q', hq', hany⟩ := exists_eq_ok hok
  obtain ⟨p, hp, hlength⟩ := (Option.any_eq_true _ _).mp hany
  have hplan : Split.plan q' .start = (some p, (Split.plan q' .start).2) := Prod.ext hp rfl
  obtain ⟨hcompatible, hcontains, -⟩ := process_compatible rfl
    (fun part e he => hforkless part (by cases part <;> decide) e he) hdims rfl hq' hplan
  exact ⟨hforkless, hdims, q', p, _, hq', hplan, of_decide_eq_true hlength, hcompatible, hcontains⟩

end Query

end FormulaSql
