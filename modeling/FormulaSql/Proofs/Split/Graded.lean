import FormulaSql.Proofs.Split.Aliases
import FormulaSql.Proofs.Split.CutDown
import FormulaSql.Proofs.Split.Hosting

/-!
# Graded queries

The check of a query takes a fork for a value of each group. A graded query passes a closer look:
all of its formulas are graded, selected dimensions are those that the query groups by, and filters
can be applied by every sub-query that takes them over. What passes the closer look passes the
check, and so do the sub-queries of a round, since they are graded again.

* `Query.Graded.accepted` ties the closer look to the check
* `Split.SubqueryOf.graded` says that sub-queries of a graded query are graded
-/

namespace FormulaSql

/-- The fork is there for a window call. -/
def Fork.isWindow (k : Fork Formula) : Bool := k.result.unwrapped.isWindowCall

namespace Formula

variable {f g : Formula}

/-- A window call on the surface waits for no other filters than these. -/
def hasWindowBefore (later : NameSet) (f : Formula) : Bool :=
  f.surface.any fun g => g.fork?.any fun k => k.isWindow && k.beforeFilterBy.subset later

theorem exists_outermostFork_of_surface {k : Fork Formula} (hg : g ∈ f.surface)
    (hk : g.fork? = some k) : ∃ p, (p, k) ∈ f.outermostForks := by
  induction f using induction_children with
  | step f ih =>
      rcases mem_surface_iff.mp hg with rfl | ⟨hfork, c, hc, hg⟩
      · exact ⟨[], mem_outermostForks_iff.mpr (Or.inl ⟨rfl, hk⟩)⟩
      · obtain ⟨i, hi⟩ := List.mem_iff_getElem?.mp hc
        obtain ⟨p, hmem⟩ := ih c (mem_children_of_autonomous hc) hg
        have hnone : f.fork? = none := by simpa [isFork] using hfork
        exact ⟨i :: p, mem_outermostForks_iff.mpr (Or.inr ⟨hnone, i, c, p, hi, rfl, hmem⟩)⟩

theorem isForked_of_surface (hg : g ∈ f.surface) (h : g.isFork = true) : f.isForked = true :=
  List.any_eq_true.mpr ⟨g, hg, h⟩

theorem not_isForked_iff_outermostForks : f.isForked = false ↔ f.outermostForks = [] := by
  constructor
  · intro h
    refine List.eq_nil_iff_forall_not_mem.mpr fun ⟨path, k⟩ hk => ?_
    exact absurd (Split.isForked_of_mem_outermostForks hk) (by simp [h])
  · intro h
    refine List.any_eq_false.mpr fun g hg hfork => ?_
    rw [isFork, Option.isSome_iff_exists] at hfork
    obtain ⟨k, hk⟩ := hfork
    obtain ⟨path, hmem⟩ := exists_outermostFork_of_surface hg hk
    exact absurd (h ▸ hmem) List.not_mem_nil

/-- A rule that offers no forks brings none. -/
theorem not_isForked_transform {rule : Rule}
    (hrule : ∀ above g r, rule above g = some r → r.isForked = false)
    (hf : f.isForked = false) : (f.transform rule).isForked = false := by
  refine transform_rel (Q := fun _ => True)
    (R := fun f g => f.isForked = false → g.isForked = false)
    (fun _ _ _ _ => trivial) (fun _ _ => id) ?_ ?_ trivial hf
  · intro f cs _ hcs hplain
    obtain ⟨hfork, hbelow⟩ := not_isForked_iff.mp hplain
    refine not_isForked_iff.mpr ⟨isFork_withChildren f cs ▸ hfork, fun d hd => ?_⟩
    obtain ⟨c, hc, hcd⟩ := exists_autonomous_of_withChildren hcs hd
    exact hcd (hbelow c hc)
  · exact fun above f g r _ _ _ hr _ => hrule above g r hr

theorem ReplacesRows.not_isForked {rule : Rule} (hrule : ReplacesRows rule) (above : List Formula)
    (g r : Formula) (hr : rule above g = some r) : r.isForked = false :=
  not_isForked_of_perRow (hrule above g r hr).1

end Formula

/-! ## The closer look -/

namespace Query

open Split

/-- All forks that are found in the end. -/
def reachableForks (q : Query) : List (Fork Formula) :=
  Part.splittable.flatMap fun p => (q.part p).flatMap fun e => e.formula.reachableForks

/-- The closer look at a filter, which sub-queries may take over. -/
structure GradesFilter (q : Query) (e : Entry) : Prop where
  /-- Without forks it goes to sub-queries at any dimensions. -/
  plain : e.formula.isForked = false → e.formula.PerGroup [] ∨ e.formula.PerRow []
  /-- With forks it is computed from columns in the end. -/
  forked : e.formula.isForked = true → e.formula.isGraded q.dimensions = true ∧
    e.formula.standsOver Formula.isAggregateCall = false ∧
    e.formula.standsOver Formula.isWindowCall = false
  /-- Window calls are taken alone, and meanwhile its forks go to their sub-queries, unless it has
  to wait for the window calls. It has one of its own then that is taken with them. -/
  window : e.formula.isForked = true → ∀ k ∈ q.reachableForks, k.isWindow = true →
    e.formula.isGraded k.lod.least = true ∧
      (isAfter k.beforeFilterBy e = true → e.formula.hasWindowBefore k.beforeFilterBy = true)
  /-- Lookups shift values of rows. -/
  shift : ∀ k ∈ q.reachableForks, isAfter k.beforeFilterBy e = true → ∀ s ∈ k.shifts,
    s.source.IsRowValue ∧ s.target.PerRow [] ∧
      (e.formula.isForked = true → e.formula.containsNode s.source = false)

instance (q : Query) (e : Entry) : Decidable (q.GradesFilter e) :=
  decidable_of_iff (_ ∧ _ ∧ _ ∧ _)
    ⟨fun ⟨h₁, h₂, h₃, h₄⟩ => ⟨h₁, h₂, h₃, h₄⟩, fun h => ⟨h.plain, h.forked, h.window, h.shift⟩⟩

/-- The closer look at a query. -/
structure Graded (q : Query) : Prop where
  dimension : ∀ d ∈ q.dimensions, d.IsKey
  /-- The alias of a dimension stands for this dimension. -/
  named : ∀ e ∈ q.select ++ q.orderBy, hasAliasIn (dimensionAliases q) e = true →
    ∃ d ∈ q.groupBy, d.aliasName = e.aliasName ∧ (d.formula == e.formula) = true
  item : ∀ e ∈ q.select ++ q.orderBy,
    e.formula.isGraded q.dimensions = true ∧ e.formula.isShaped = true
  /-- Whether the query that reads from the sub-queries is grouped is decided by what it selects.
  Orderings go along with this if they are by dimensions or if nothing is left to aggregate. -/
  ordering :
    (∀ e ∈ q.orderBy, hasAliasIn (dimensionAliases q) e = true ∨
      e.formula.isConstantExpression = true) ∨
    (∀ e ∈ q.select ++ q.orderBy, e.formula.standsOver Formula.isAggregateCall = false) ∧
      (q.groupBy = [] ∨ ∃ e ∈ q.select, q.dimensions.contains e.formula = false ∧
        e.formula.isConstantExpression = false)
  filter : ∀ e ∈ q.filters, q.GradesFilter e

instance (q : Query) : Decidable q.Graded :=
  have : Decidable (q.groupBy = []) := decidable_of_iff _ List.isEmpty_iff
  decidable_of_iff (_ ∧ _ ∧ _ ∧ _ ∧ _)
    ⟨fun ⟨h₁, h₂, h₃, h₄, h₅⟩ => ⟨h₁, h₂, h₃, h₄, h₅⟩,
      fun h => ⟨h.dimension, h.named, h.item, h.ordering, h.filter⟩⟩

variable {q : Query}

/-- What passes the closer look passes the check. -/
theorem Graded.accepted (h : q.Graded) : q.Accepted := by
  refine accepted_iff.mpr ⟨Or.inl fun e he => ?_, fun e he => ?_⟩
  · exact Formula.perGroup_of_isGraded (h.item e he).1
  · have hfilter := h.filter e he
    cases hforked : e.formula.isForked with
    | true => exact Or.inl (Formula.perGroup_of_isGraded (hfilter.forked hforked).1)
    | false =>
        exact (hfilter.plain hforked).imp (Formula.PerGroup.mono .nil) (Formula.PerRow.mono .nil)

theorem mem_reachableForks {p : Part} {e : Entry} {k : Fork Formula} (hp : p ∈ Part.splittable)
    (he : e ∈ q.part p) (hk : k ∈ e.formula.reachableForks) : k ∈ q.reachableForks :=
  List.mem_flatMap.mpr ⟨p, hp, List.mem_flatMap.mpr ⟨e, he, hk⟩⟩

/-- Every formula that is cut is graded. -/
theorem Graded.isGraded (h : q.Graded) {p : Part} {e : Entry} (hp : p ∈ Part.splittable)
    (he : e ∈ q.part p) (hforked : p = .filters → e.formula.isForked = true) :
    e.formula.isGraded q.dimensions = true ∧ e.formula.isShaped = true := by
  simp only [Part.splittable, List.mem_cons, List.not_mem_nil, or_false] at hp
  rcases hp with rfl | rfl | rfl
  · exact h.item e (List.mem_append_left _ he)
  · exact h.item e (List.mem_append_right _ he)
  · obtain ⟨hgraded, hcalm, -⟩ := (h.filter e he).forked (hforked rfl)
    exact ⟨hgraded, Formula.isShaped_of_not_standsOver hcalm⟩

end Query

namespace Split

open Formula

variable {q : Query} {a b : Names} {p : Plan} {m : Mask} {s : Site}

theorem forkDims_eq (q : Query) (l : Lod Formula) : forkDims q l = l.dimsIn q.dimensions := by
  cases l <;> rfl

/-- A fork of a graded query is graded. -/
theorem exists_graded_fork (hq : q.Graded) (hs : s ∈ sites q) :
    ∃ g : Formula, g.fork? = some s.fork ∧ g.isGraded q.dimensions = true ∧
      ∀ k ∈ g.reachableForks, k ∈ q.reachableForks := by
  obtain ⟨hp, e, he, hmem, -⟩ := mem_sites_iff.mp hs
  obtain ⟨g, hg, hk⟩ := exists_mem_surface_of_outermostForks hmem
  have hfork := isFork_of_fork? hk
  have hgraded := (hq.isGraded hp (List.mem_of_getElem? he)
    fun _ => isForked_of_surface hg hfork).1
  refine ⟨g, hk, isGraded_of_surface hg hfork hgraded, fun k hk => ?_⟩
  exact Query.mem_reachableForks hp (List.mem_of_getElem? he) (reachableForks_of_surface hg k hk)

theorem mem_reachableForks_of_site (hq : q.Graded) (hs : s ∈ sites q) :
    s.fork ∈ q.reachableForks := by
  obtain ⟨g, hk, -, hreach⟩ := exists_graded_fork hq hs
  refine hreach s.fork ?_
  rw [reachableForks_fork hk]
  exact List.mem_cons_self

theorem keyedAt_of_graded (hq : q.Graded) : KeyedAt q := by
  refine ⟨hq.dimension, fun s hs => ?_⟩
  obtain ⟨g, hk, hgraded, -⟩ := exists_graded_fork hq (mem_sites_of_taken hs)
  exact ((isGraded_fork hk).mp hgraded).1

/-! ## What sub-queries select -/

/-- A formula that can be selected at the dimensions, with forks that were there before. -/
structure Selectable (q : Query) (dims : List Formula) (f : Formula) : Prop where
  graded : f.isGraded dims = true
  shaped : f.isShaped = true
  reachable : ∀ k ∈ f.reachableForks, k ∈ q.reachableForks

/-- An aggregation keeps its arguments when it loses its level of detail. -/
theorem plainAggregate_eq (f : Formula) :
    plainAggregate f = f ∨ f.isAggregateCall = true ∧ (plainAggregate f).isAggregateCall = true ∧
      f.isFork = false ∧ (plainAggregate f).isFork = false ∧
      (plainAggregate f).autonomous = f.autonomous := by
  obtain ⟨k, notes⟩ := f
  cases k with
  | call c =>
      by_cases haggregate : (Formula.mk (.call c) notes).isAggregateCall = true
      · refine Or.inr ⟨haggregate, ?_⟩
        have heq : plainAggregate (.mk (.call c) notes) =
            .mk (.call ⟨c.name, c.args, .inherited, [], NameSet.empty⟩) notes := if_pos haggregate
        rw [heq]
        refine ⟨haggregate, rfl, rfl, ?_⟩
        simp [autonomous, Kind.autonomous, Kind.autonomousCount, Kind.children, kind]
      · exact Or.inl (if_neg haggregate)
  | _ => exact Or.inl rfl

theorem Selectable.plainAggregate {dims : List Formula} {f : Formula}
    (h : Selectable q dims f) : Selectable q dims (plainAggregate f) := by
  rcases plainAggregate_eq f with heq | ⟨hcall, hcall', hfork, hfork', hargs⟩
  · rwa [heq]
  · have hforked : (Split.plainAggregate f).isForked = f.isForked := by
      rw [Bool.eq_iff_iff, isForked_iff, isForked_iff, hfork, hfork', hargs]
    refine ⟨?_, ?_, ?_⟩
    · cases hsome : f.isForked with
      | true =>
          rw [isGraded_node hfork' (hforked.trans hsome), hargs]
          exact (isGraded_node hfork hsome).mp h.graded
      | false => exact (isGraded_plain (hforked.trans hsome)).mpr (.aggregate hcall')
    · have := h.shaped
      rw [isShaped, hfork] at this
      rw [isShaped, hfork', hargs]
      exact this
    · rw [reachableForks_node hfork', hargs, ← reachableForks_node hfork]
      exact h.reachable

/-- What a fork computes can be selected wherever its dimensions are. -/
theorem selectable_of_fork {dims : List Formula} (hq : q.Graded) (hs : s ∈ taken q)
    (hcovered : CoveredBy (forkDims q s.fork.lod) dims) :
    Selectable q dims s.fork.result ∧ ∀ g ∈ s.fork.joining.flatMap JoinCondition.parts,
      g.isAggregateExpression = true → Selectable q dims g := by
  obtain ⟨g, hk, hgraded, hreach⟩ := exists_graded_fork hq (mem_sites_of_taken hs)
  obtain ⟨-, ⟨hshaped, hresult⟩, hparts⟩ := (isGraded_fork hk).mp hgraded
  rw [forkDims_eq] at hcovered
  rw [reachableForks_fork hk] at hreach
  refine ⟨⟨isGraded_mono hcovered hresult, hshaped, fun k hk' => ?_⟩, fun g hg haggregate => ?_⟩
  · exact hreach k (List.mem_cons_of_mem _ (List.mem_append_left _ hk'))
  · obtain ⟨hshaped', hpart⟩ := hparts g hg haggregate
    refine ⟨isGraded_mono hcovered hpart, hshaped', fun k hk' => hreach k ?_⟩
    exact List.mem_cons_of_mem _ (List.mem_append_right _ (List.mem_flatMap.mpr ⟨g, hg, hk'⟩))

theorem at?_result (hs : s ∈ sites q) {e : Entry} (he : (q.part s.part)[s.index]? = some e) :
    e.formula.at? (s.path ++ [0]) = some s.fork.result := by
  obtain ⟨e', g, he', hg, hk⟩ := forkAt_of_mem_sites hs
  obtain rfl := Option.some.inj (he.symm.trans he')
  have hchild : g.children[0]? = some s.fork.result := by
    rw [Formula.children, kind_of_fork? hk]
    rfl
  rw [at?_append, hg, Option.bind_some]
  exact at?_cons_of_child [] hchild

/-- Cuts of forks in an entry are at its outermost forks. -/
theorem exists_outermostFork_of_cuts {forks : List Cut} {part : Part} {i : Nat} {e : Entry}
    (hforks : ∀ d ∈ forks, ∃ s ∈ taken q, d = s.cut d.aliasName)
    (he : (q.part part)[i]? = some e) :
    ∀ path ∈ (forks.filter fun d => d.part == part && d.index == i).map Cut.outer,
      ∃ k, (path, k) ∈ e.formula.outermostForks := by
  intro path hpath
  obtain ⟨d, hd, rfl⟩ := List.mem_map.mp hpath
  obtain ⟨hd, hplace⟩ := List.mem_filter.mp hd
  simp only [Bool.and_eq_true, beq_iff_eq] at hplace
  obtain ⟨s, hs, heq⟩ := hforks d hd
  obtain ⟨-, e', he', hmem, -⟩ := mem_sites_iff.mp (mem_sites_of_taken hs)
  have hpart : s.part = part := (congrArg Cut.part heq).symm.trans hplace.1
  have hindex : s.index = i := (congrArg Cut.index heq).symm.trans hplace.2
  rw [hpart, hindex, he] at he'
  obtain rfl := Option.some.inj he'
  exact ⟨s.fork, (congrArg Cut.outer heq).symm ▸ hmem⟩

/-- What is left over beside forks can be selected wherever the dimensions of the query are. -/
theorem selectable_of_uncut {dims : List Formula} {forks : List Cut} {part : Part} {i : Nat}
    {path : Path} {e : Entry} {f : Formula} (hq : q.Graded)
    (hforks : ∀ d ∈ forks, ∃ s ∈ taken q, d = s.cut d.aliasName)
    (huncut : IsUncut q forks part i path) (he : (q.part part)[i]? = some e)
    (hf : e.formula.at? path = some f) (hcovered : CoveredBy q.dimensions dims) :
    Selectable q dims f := by
  obtain ⟨hpart, e', he', hpath⟩ := huncut
  obtain rfl := Option.some.inj (he.symm.trans he')
  rw [uncutEntry] at hpath
  split at hpath
  next => exact absurd hpath List.not_mem_nil
  next hnot =>
    simp only [Bool.or_eq_true, not_or, Bool.and_eq_true, not_and] at hnot
    have hpaths := exists_outermostFork_of_cuts hforks he
    have hentry := hq.isGraded hpart (List.mem_of_getElem? he) fun hfilters => by
      have hsome := hnot.2 (by simpa using hfilters)
      rw [Bool.not_eq_true, List.isEmpty_eq_false_iff_exists_mem] at hsome
      obtain ⟨path, hpath⟩ := hsome
      obtain ⟨k, hk⟩ := hpaths path hpath
      exact isForked_of_mem_outermostForks hk
    obtain ⟨x, hx, hat, hgraded, hshaped⟩ := isGraded_of_uncut hpaths hpath hentry.1 hentry.2
    obtain rfl := Option.some.inj (hf.symm.trans hat)
    refine ⟨isGraded_mono hcovered hgraded, hshaped, fun k hk => ?_⟩
    exact Query.mem_reachableForks hpart (List.mem_of_getElem? he)
      (reachableForks_of_surface hx k hk)

theorem HostsCut.selectable {dims : List Formula} {c : Cut} {e : Entry} (hq : q.Graded)
    (h : HostsCut q dims c) (he : cutEntry q c = .ok e) : Selectable q dims e.formula := by
  obtain ⟨e₀, f, he₀, hf, heq, -⟩ := cutEntry_eq_ok he
  rw [heq]
  refine Selectable.plainAggregate ?_
  cases h with
  | fork hs hc hcovered =>
      rw [hc] at he₀ hf
      obtain rfl := Option.some.inj (hf.symm.trans (at?_result (mem_sites_of_taken hs) he₀))
      exact (selectable_of_fork hq hs hcovered).1
  | leftover hforks hinner huncut hcovered =>
      exact selectable_of_uncut hq hforks huncut he₀ (hinner ▸ hf) hcovered

theorem Hosting.selectable (hq : q.Graded) (h : Hosting q m) {x : Extra} (hx : x ∈ m.extras) :
    Selectable q m.groupByExprs x.expr := by
  have hmem : (x.expr, x.isGroupBy) ∈ selection m.extras := List.mem_map_of_mem hx
  cases h.extra _ hmem with
  | key hkey =>
      have hplain := not_isForked_of_perRow hkey.perRow
      refine ⟨(isGraded_plain hplain).mpr ?_, isShaped_of_not_isForked hplain, ?_⟩
      · rcases hkey with hconst | hrow
        · exact perGroup_of_constant hconst
        · refine .dimension (contains_groupByExprs.mpr ⟨_, hmem, ?_, BEq.rfl⟩)
          exact (h.flag _ hmem).mpr hrow
      · rw [reachableForks_of_not_isForked hplain]
        exact fun k hk => absurd hk List.not_mem_nil
  | joined hs hf haggregate hcovered =>
      exact (selectable_of_fork hq hs hcovered).2 _ hf haggregate

/-! ## Filters that sub-queries take over -/

/-- The filter of a sub-query is one that is not cut, as it is, or a later one that is shifted. -/
inductive TakenOver (q : Query) (e' : Entry) : Prop where
  | whole {i : Nat} : q.filters[i]? = some e' → isCut q i = false → TakenOver q e'
  | shifted {e : Entry} {t : Site} {s : FilterShift Formula} : e ∈ q.filters → t ∈ taken q →
      isAfter t.laterFilters e = true → s ∈ t.fork.shifts →
      e.formula.containsNode s.source = true →
      e' = { e with formula := shiftFormula t.fork.shifts e.formula } → TakenOver q e'

theorem GroupMask.takenOver {g : ForkGroup} (h : GroupMask q a g m) :
    ∀ e' ∈ maskFilters q m, TakenOver q e' := by
  obtain ⟨t, ht, -, hlater, hshifts, -⟩ := h.leader
  intro e' he'
  rw [h.filters, hlater, hshifts] at he'
  rcases List.mem_append.mp he' with he' | he'
  · obtain ⟨⟨e, i⟩, hmem, rfl⟩ := List.mem_map.mp he'
    obtain ⟨hmem, hnot⟩ := List.mem_filter.mp hmem
    simp only [Bool.and_eq_true, Bool.not_eq_true'] at hnot
    exact .whole (List.mem_zipIdx_iff_getElem?.mp hmem) hnot.2
  · obtain ⟨e, hmem, heq⟩ := List.mem_map.mp he'
    obtain ⟨hmem, hafter⟩ := List.mem_filter.mp hmem
    rw [Bool.and_eq_true] at hafter
    obtain ⟨s, hs, hsource⟩ := List.any_eq_true.mp hafter.2
    exact .shifted hmem ht hafter.1 hs hsource heq.symm

theorem plan_takenOver (hplan : plan q a = (some p, b)) (hm : m ∈ p.masks) :
    ∀ e' ∈ maskFilters q m, TakenOver q e' := by
  have hgroup : ∀ m ∈ (forkMasks q a).1, ∀ e' ∈ maskFilters q m, TakenOver q e' := by
    intro m hm
    obtain ⟨g, hg⟩ := groupMask_of_mem hm
    exact hg.takenOver
  obtain ⟨based, rfl, rfl, -⟩ := plan_eq_some hplan
  obtain ⟨m', hm', -, hsame⟩ := completeBase_mem hm
  rw [hsame.maskFilters_eq]
  obtain ⟨base, others, heq, hbase, hothers⟩ : ∃ base others,
      (withBase q (forkMasks q a).1 (forkMasks q a).2).1 = base :: others ∧
        (∀ e' ∈ maskFilters q base, TakenOver q e') ∧ ∀ m ∈ others, m ∈ (forkMasks q a).1 := by
    rcases withBase_cases q (forkMasks q a).1 (forkMasks q a).2 with
      ⟨i, m, -, -, hm, heq⟩ | ⟨own, hown, heq⟩
    · exact ⟨_, _, congrArg Prod.fst heq, hgroup m (List.mem_of_getElem? hm),
        fun m hm => List.mem_of_mem_eraseIdx hm⟩
    · have hadd : own.1.addFilters = [] := by rw [hown]; rfl
      have hindices : own.1.filterIndices = uncutFilters q (forkMasks q a).1 := by rw [hown]; rfl
      refine ⟨_, _, congrArg Prod.fst heq, fun e' he' => ?_, fun m hm => hm⟩
      rw [maskFilters, hadd, List.append_nil] at he'
      obtain ⟨⟨e, i⟩, hmem, rfl⟩ := List.mem_map.mp he'
      obtain ⟨hmem, hin⟩ := List.mem_filter.mp hmem
      rw [hindices] at hin
      exact .whole (List.mem_zipIdx_iff_getElem?.mp hmem)
        (mem_uncutFilters.mp (List.contains_iff_mem.mp hin)).2
  rw [heq] at hm'
  rcases mergeWindows_eq base others with hkept | ⟨other, rfl, -, hmerged⟩
  · rcases List.mem_cons.mp (hkept ▸ hm') with rfl | hm'
    · exact hbase
    · exact hgroup m' (hothers m' hm')
  · obtain rfl := List.mem_singleton.mp (hmerged ▸ hm')
    exact hgroup other (hothers other (List.mem_singleton.mpr rfl))

/-- A filter with forks that is not cut is left by a round for window calls. -/
theorem windows_of_uncut {e : Entry} {i : Nat} (he : q.filters[i]? = some e)
    (hforked : e.formula.isForked = true) (hcut : isCut q i = false) :
    (prioritized (sites q)).1 = true := by
  obtain ⟨g, hg, hfork⟩ := List.any_eq_true.mp hforked
  obtain ⟨k, hk⟩ := Option.isSome_iff_exists.mp hfork
  obtain ⟨path, hmem⟩ := exists_outermostFork_of_surface hg hk
  rcases prioritized_cases (sites q) with heq | ⟨least, heq, -⟩
  · have hsite :
        ⟨.filters, i, path, k, k.beforeFilterBy.filter q.filterIds.contains⟩ ∈ taken q := by
      rw [taken, heq]
      exact mem_sites_iff.mpr ⟨by simp [Part.splittable], e, he, hmem, rfl⟩
    exact absurd (hcut.symm.trans (isCut_iff.mpr ⟨_, hsite, rfl, rfl⟩)) (by simp)
  · rw [heq]

theorem isWindow_of_taken (hwindows : (prioritized (sites q)).1 = true) (hs : s ∈ taken q) :
    s.fork.isWindow = true := by
  rw [taken] at hs
  rcases prioritized_cases (sites q) with heq | ⟨least, heq, -⟩
  · rw [heq] at hwindows
    exact absurd hwindows (by simp)
  · rw [heq] at hs
    have hboth := (List.mem_filter.mp hs).2
    rw [Bool.and_eq_true] at hboth
    exact hboth.1

theorem isAfter_beforeFilterBy {e : Entry} (hs : s ∈ sites q)
    (h : isAfter s.laterFilters e = true) : isAfter s.fork.beforeFilterBy e = true := by
  obtain ⟨-, -, -, -, hlater⟩ := mem_sites_iff.mp hs
  rw [isAfter] at h ⊢
  split at h
  next id _ =>
    rw [hlater, NameSet.contains_iff] at h
    exact NameSet.contains_iff.mpr (List.mem_filter.mp h).1
  next => exact absurd h (by simp)

/-- Shifting values of rows keeps whether a formula has a value for each row or group. -/
theorem shiftFormula_keeps {shifts : List (FilterShift Formula)}
    (h : ∀ s ∈ shifts, s.source.IsRowValue ∧ s.target.PerRow []) (f : Formula) :
    (f.PerRow [] → (shiftFormula shifts f).PerRow []) ∧
      (f.PerGroup [] → (shiftFormula shifts f).PerGroup []) ∧
      (f.isForked = false → (shiftFormula shifts f).isForked = false) := by
  induction shifts generalizing f with
  | nil => exact ⟨id, id, id⟩
  | cons s shifts ih =>
      obtain ⟨hsource, htarget⟩ := h s List.mem_cons_self
      have hrule : ∀ above g r, replaceRule s.source s.target above g = some r →
          r = s.target ∧ (g == s.source) = true := by
        intro above g r hr
        rw [replaceRule] at hr
        split at hr
        next hsame => exact ⟨(Option.some.inj hr).symm, hsame⟩
        next => exact absurd hr (by simp)
      have hrows : ReplacesRows (replaceRule s.source s.target) := by
        intro above g r hr
        obtain ⟨rfl, hsame⟩ := hrule above g r hr
        exact ⟨htarget, fun hg => hsource.2 (hg.of_same hsame)⟩
      obtain ⟨hrow, hgroup⟩ := transform_replacesRows hrows f
      obtain ⟨hrow', hgroup', hplain'⟩ :=
        ih (fun s hs => h s (List.mem_cons_of_mem _ hs)) (f.replaceAll s.source s.target)
      exact ⟨fun hf => hrow' (hrow hf), fun hf => hgroup' (hgroup hf),
        fun hf => hplain' (not_isForked_transform hrows.not_isForked hf)⟩

/-- A shifted filter has no forks. -/
theorem shifted_plain (hq : q.Graded) {e : Entry} {t : Site} {s : FilterShift Formula}
    (he : e ∈ q.filters) (ht : t ∈ taken q) (hafter : isAfter t.laterFilters e = true)
    (hs : s ∈ t.fork.shifts) (hsource : e.formula.containsNode s.source = true) :
    (shiftFormula t.fork.shifts e.formula).isForked = false ∧
      ((shiftFormula t.fork.shifts e.formula).PerGroup [] ∨
        (shiftFormula t.fork.shifts e.formula).PerRow []) := by
  have hsite := mem_sites_of_taken ht
  have hshift := (hq.filter e he).shift t.fork (mem_reachableForks_of_site hq hsite)
    (isAfter_beforeFilterBy hsite hafter)
  have hplain : e.formula.isForked = false := by
    rw [← Bool.not_eq_true]
    intro hforked
    exact absurd ((hshift s hs).2.2 hforked) (by simp [hsource])
  obtain ⟨hrow, hgroup, hunforked⟩ := shiftFormula_keeps
    (fun s hs => ⟨(hshift s hs).1, (hshift s hs).2.1⟩) e.formula
  exact ⟨hunforked hplain, ((hq.filter e he).plain hplain).imp hgroup hrow⟩

theorem TakenOver.reachable (hq : q.Graded) {e' : Entry} (h : TakenOver q e') :
    ∀ k ∈ e'.formula.reachableForks, k ∈ q.reachableForks := by
  cases h with
  | whole he _ =>
      intro k hk
      have hpart : Part.filters ∈ Part.splittable := by simp [Part.splittable]
      exact Query.mem_reachableForks hpart (List.mem_of_getElem? he) hk
  | shifted he ht hafter hs hsource heq =>
      rw [heq, reachableForks_of_not_isForked (shifted_plain hq he ht hafter hs hsource).1]
      exact fun k hk => absurd hk List.not_mem_nil

/-- A filter passes the closer look again in a sub-query that takes it over. -/
theorem TakenOver.gradesFilter (hq : q.Graded) {e' : Entry} (h : TakenOver q e') {x : Query}
    (hfork : ∃ s ∈ taken q, CoveredBy (forkDims q s.fork.lod) x.dimensions)
    (hreach : ∀ k ∈ x.reachableForks, k ∈ q.reachableForks) : x.GradesFilter e' := by
  cases h with
  | whole he hcut =>
      have hfilter := hq.filter e' (List.mem_of_getElem? he)
      refine ⟨hfilter.plain, fun hforked => ?_, fun hforked k hk => ?_, fun k hk => ?_⟩
      · have hwindows := windows_of_uncut he hforked hcut
        obtain ⟨s, hs, hcovered⟩ := hfork
        obtain ⟨hgraded, -⟩ := hfilter.window hforked s.fork
          (mem_reachableForks_of_site hq (mem_sites_of_taken hs)) (isWindow_of_taken hwindows hs)
        rw [forkDims_eq] at hcovered
        refine ⟨isGraded_mono ((CoveredBy.least _ _).trans hcovered) hgraded, ?_⟩
        exact (hfilter.forked hforked).2
      · exact hfilter.window hforked k (hreach k hk)
      · exact hfilter.shift k (hreach k hk)
  | @shifted e t s he ht hafter hs hsource heq =>
      obtain ⟨hplain, hvalue⟩ := shifted_plain hq he ht hafter hs hsource
      have hnot : ¬ e'.formula.isForked = true := by simp [heq, hplain]
      refine ⟨fun _ => heq ▸ hvalue, fun hforked => absurd hforked hnot,
        fun hforked => absurd hforked hnot, fun k hk hafter' s hs => ?_⟩
      have hfield : e'.fieldId = e.fieldId := by rw [heq]
      have hsame : isAfter k.beforeFilterBy e' = isAfter k.beforeFilterBy e := by
        rw [isAfter, isAfter, hfield]
      obtain ⟨hrow, htarget, -⟩ := (hq.filter e he).shift k (hreach k hk) (hsame ▸ hafter') s hs
      exact ⟨hrow, htarget, fun hforked => absurd hforked hnot⟩

/-! ## Sub-queries -/

section Subquery

variable {x : Query}

theorem SubqueryOf.dimensions (hx : SubqueryOf q m x) : x.dimensions = m.groupByExprs := by
  rw [Query.dimensions, hx.groupBy, List.map_map]
  rfl

theorem SubqueryOf.select_cases (hx : SubqueryOf q m x) {e : Entry} (he : e ∈ x.select) :
    (∃ c ∈ m.cuts, cutEntry q c = .ok e) ∨ ∃ y ∈ m.extras, e = extraEntry y := by
  obtain ⟨es, hes, hselect⟩ := hx.select
  rcases List.mem_append.mp (hselect ▸ he) with he | he
  · exact Or.inl (hes.entry e he)
  · obtain ⟨y, hy, rfl⟩ := List.mem_map.mp he
    exact Or.inr ⟨y, hy, rfl⟩

/-- In a sub-query the alias of a dimension stands for this dimension. -/
theorem SubqueryOf.named (hx : SubqueryOf q m x) (hapart : AliasesApart m.cuts m.extras)
    {e : Entry} (he : e ∈ x.select) (halias : hasAliasIn (dimensionAliases x) e = true) :
    ∃ d ∈ x.groupBy, d.aliasName = e.aliasName ∧ (d.formula == e.formula) = true := by
  obtain ⟨y, hy, hname⟩ :
      ∃ y ∈ m.extras.filter Extra.isGroupBy, e.aliasName = some y.aliasName := by
    rw [hasAliasIn] at halias
    split at halias
    next n hn =>
      rw [dimensionAliases, hx.groupBy, List.contains_iff_mem, List.mem_filterMap] at halias
      obtain ⟨d, hd, hdn⟩ := halias
      obtain ⟨y, hy, rfl⟩ := List.mem_map.mp hd
      exact ⟨y, hy, hn.trans hdn.symm⟩
    next => exact absurd halias (by simp)
  refine ⟨extraEntry y, hx.groupBy ▸ List.mem_map_of_mem hy, hname.symm, ?_⟩
  have hmem := (List.mem_filter.mp hy).1
  rcases hx.select_cases he with ⟨c, hc, hentry⟩ | ⟨z, hz, rfl⟩
  · obtain ⟨-, -, -, -, -, hcut⟩ := cutEntry_eq_ok hentry
    exact absurd (Option.some.inj (hcut.symm.trans hname)) (hapart.cut c hc y hmem)
  · obtain rfl := List.inj_on_of_nodup_map hapart.extra hz hmem (Option.some.inj hname)
    exact BEq.rfl

theorem SubqueryOf.graded (hx : SubqueryOf q m x) (hplan : plan q a = (some p, b))
    (hm : m ∈ p.masks) (hq : q.Graded) : x.Graded := by
  obtain ⟨hhosting, s, hs, hcovered⟩ := plan_hosting hplan (keyedAt_of_graded hq) m hm
  have hselect : ∀ e ∈ x.select, Selectable q x.dimensions e.formula := by
    intro e he
    rw [hx.dimensions]
    rcases hx.select_cases he with ⟨c, hc, hentry⟩ | ⟨y, hy, rfl⟩
    · exact (hhosting.cut c hc).selectable hq hentry
    · exact hhosting.selectable hq hy
  have htaken : ∀ e ∈ x.filters, TakenOver q e := fun e he =>
    plan_takenOver hplan hm e (hx.filters ▸ he)
  have hitems : x.select ++ x.orderBy = x.select := by rw [hx.orderBy, List.append_nil]
  have hreach : ∀ k ∈ x.reachableForks, k ∈ q.reachableForks := by
    intro k hk
    obtain ⟨part, hpart, hmem⟩ := List.mem_flatMap.mp hk
    obtain ⟨e, he, hfork⟩ := List.mem_flatMap.mp hmem
    simp only [Part.splittable, List.mem_cons, List.not_mem_nil, or_false] at hpart
    rcases hpart with rfl | rfl | rfl
    · exact (hselect e he).reachable k hfork
    · exact absurd (hx.orderBy ▸ he : e ∈ []) List.not_mem_nil
    · exact (htaken e he).reachable hq k hfork
  refine ⟨fun d hd => ?_, ?_, ?_, Or.inl ?_, fun e he => ?_⟩
  · rw [hx.dimensions] at hd
    obtain ⟨y, hy, rfl⟩ := List.mem_map.mp hd
    obtain ⟨hy, hflag⟩ := List.mem_filter.mp hy
    exact Or.inr ((hhosting.flag _ (List.mem_map_of_mem hy)).mp hflag)
  · rw [hitems]
    exact fun e he halias => hx.named (plan_aliasesApart hplan m hm) he halias
  · rw [hitems]
    exact fun e he => ⟨(hselect e he).graded, (hselect e he).shaped⟩
  · rw [hx.orderBy]
    exact fun e he => absurd he List.not_mem_nil
  · refine (htaken e he).gradesFilter hq ⟨s, hs, ?_⟩ hreach
    rw [hx.dimensions]
    exact hcovered

end Subquery

end Split

end FormulaSql
