import FormulaSql.Proofs.Split.Compatibility
import FormulaSql.Proofs.Split.Grades
import FormulaSql.Proofs.Split.Handing
import FormulaSql.Proofs.Split.Stranded

/-!
# The dimensions of sub-queries

A sub-query groups by the dimensions of the forks it computes. When a mask takes over columns and
further expressions of others, it takes over their dimensions as well, so that everything a
sub-query selects is computed at dimensions that the sub-query has.

* `Split.Hosting` is what a mask keeps from hand to hand
* `Split.plan_hosting` says so of every mask of a plan
-/

namespace FormulaSql

namespace Formula

variable {f g : Formula} {dims dims' dims'' : List Formula}

theorem CoveredBy.trans (h : CoveredBy dims dims') (h' : CoveredBy dims' dims'') :
    CoveredBy dims dims'' :=
  fun f hf => (h f hf).elim Or.inl (h' f)

theorem CoveredBy.refl (dims : List Formula) : CoveredBy dims dims := fun _ hf => Or.inr hf

theorem IsRowValue.of_same (h : (f == g) = true) (hf : f.IsRowValue) : g.IsRowValue :=
  ⟨hf.1.of_same h, fun hg => hf.2 (hg.of_same (BEq.symm h))⟩

theorem IsRowValue.not_constant (h : f.IsRowValue) : f.isConstantExpression = false := by
  rw [← Bool.not_eq_true]
  exact fun hconst => h.2 (perGroup_of_constant hconst)

theorem constant_of_same (h : (f == g) = true) (hf : f.isConstantExpression = true) :
    g.isConstantExpression = true := by
  by_contra hg
  have := not_isConstantExpression_of_same (BEq.symm h) (by simpa using hg)
  exact absurd (hf.symm.trans this) (by simp)

end Formula

namespace Split

open Formula

variable {q : Query} {a b : Names} {m m' : Mask} {dims dims' : List Formula}

/-! ## What is computed where -/

/-- The column of the cut can be computed at the dimensions. -/
inductive HostsCut (q : Query) (dims : List Formula) (c : Cut) : Prop where
  | fork {s : Site} : s ∈ taken q → c = s.cut c.aliasName →
      CoveredBy (forkDims q s.fork.lod) dims → HostsCut q dims c
  | leftover {forks : List Cut} : (∀ d ∈ forks, ∃ s ∈ taken q, d = s.cut d.aliasName) →
      c.inner = c.outer → IsUncut q forks c.part c.index c.outer →
      CoveredBy q.dimensions dims → HostsCut q dims c

/-- The further expression can be computed at the dimensions: it can be grouped by, or it is an
aggregation in a join condition. -/
inductive HostsExpr (q : Query) (dims : List Formula) (f : Formula) : Prop where
  | key : f.IsKey → HostsExpr q dims f
  | joined {s : Site} : s ∈ taken q → f ∈ s.fork.joining.flatMap JoinCondition.parts →
      f.isAggregateExpression = true → CoveredBy (forkDims q s.fork.lod) dims → HostsExpr q dims f

theorem HostsCut.mono {c : Cut} (hdims : CoveredBy dims dims') (h : HostsCut q dims c) :
    HostsCut q dims' c := by
  cases h with
  | fork hs hc hcovered => exact .fork hs hc (hcovered.trans hdims)
  | leftover hforks hinner huncut hcovered =>
      exact .leftover hforks hinner huncut (hcovered.trans hdims)

theorem HostsExpr.mono {f : Formula} (hdims : CoveredBy dims dims') (h : HostsExpr q dims f) :
    HostsExpr q dims' f := by
  cases h with
  | key hkey => exact .key hkey
  | joined hs hf haggregate hcovered => exact .joined hs hf haggregate (hcovered.trans hdims)

/-- Everything that the mask selects can be computed at the dimensions it groups by, and it groups
by the expressions that have different values in the rows of a group. -/
structure Hosting (q : Query) (m : Mask) : Prop where
  flag : ∀ x ∈ selection m.extras, (x.2 = true ↔ x.1.IsRowValue)
  extra : ∀ x ∈ selection m.extras, HostsExpr q m.groupByExprs x.1
  cut : ∀ c ∈ m.cuts, HostsCut q m.groupByExprs c

/-- The mask has the dimensions of a fork that is taken. -/
def HostsFork (q : Query) (m : Mask) : Prop :=
  ∃ s ∈ taken q, CoveredBy (forkDims q s.fork.lod) m.groupByExprs

theorem contains_groupByExprs {f : Formula} :
    m.groupByExprs.contains f = true ↔
      ∃ x ∈ selection m.extras, x.2 = true ∧ (f == x.1) = true := by
  simp only [Mask.groupByExprs, selection, contains_eq_true, List.mem_map, List.mem_filter]
  constructor
  · rintro ⟨_, ⟨x, ⟨hx, hflag⟩, rfl⟩, hsame⟩
    exact ⟨_, ⟨x, hx, rfl⟩, hflag, hsame⟩
  · rintro ⟨_, ⟨x, hx, rfl⟩, hflag, hsame⟩
    exact ⟨_, ⟨x, ⟨hx, hflag⟩, rfl⟩, hsame⟩

/-- A mask that selects everything that another one does has the dimensions of the other. -/
theorem coveredBy_of_selects (hm : ∀ x ∈ selection m.extras, (x.2 = true ↔ x.1.IsRowValue))
    (hm' : ∀ x ∈ selection m'.extras, (x.2 = true ↔ x.1.IsRowValue))
    (h : ∀ x ∈ m.extras, (aliasIn m'.extras x.expr).isSome = true) :
    CoveredBy m.groupByExprs m'.groupByExprs := by
  intro f hf
  obtain ⟨_, hx, hflag, hsame⟩ := contains_groupByExprs.mp hf
  obtain ⟨x, hx', rfl⟩ := List.mem_map.mp hx
  obtain ⟨y, hy, hyx⟩ := aliasIn_isSome_iff.mp (h x hx')
  have hmem := List.mem_map_of_mem (f := fun x : Extra => (x.expr, x.isGroupBy)) hy
  refine Or.inr (contains_groupByExprs.mpr ⟨_, hmem, ?_, BEq.trans hsame (BEq.symm hyx)⟩)
  exact (hm' _ hmem).mpr (((hm _ hx).mp hflag).of_same (BEq.symm hyx))

/-- A mask made of others that selects everything they do. -/
theorem Hosting.union (m' : Mask) {parts : List Mask} (hparts : ∀ m ∈ parts, Hosting q m)
    (hcuts : ∀ c ∈ m'.cuts, ∃ m ∈ parts, c ∈ m.cuts)
    (hextras : ∀ x ∈ selection m'.extras, ∃ m ∈ parts, x ∈ selection m.extras)
    (hselects : ∀ m ∈ parts, ∀ x ∈ m.extras, (aliasIn m'.extras x.expr).isSome = true) :
    Hosting q m' ∧ ∀ m ∈ parts, HostsFork q m → HostsFork q m' := by
  have hflag : ∀ x ∈ selection m'.extras, (x.2 = true ↔ x.1.IsRowValue) := by
    intro x hx
    obtain ⟨m, hm, hx⟩ := hextras x hx
    exact (hparts m hm).flag x hx
  have hcovered : ∀ m ∈ parts, CoveredBy m.groupByExprs m'.groupByExprs := fun m hm =>
    coveredBy_of_selects (hparts m hm).flag hflag (hselects m hm)
  refine ⟨⟨hflag, fun x hx => ?_, fun c hc => ?_⟩, fun m hm => ?_⟩
  · obtain ⟨m, hm, hx⟩ := hextras x hx
    exact ((hparts m hm).extra x hx).mono (hcovered m hm)
  · obtain ⟨m, hm, hc⟩ := hcuts c hc
    exact ((hparts m hm).cut c hc).mono (hcovered m hm)
  · rintro ⟨s, hs, hdims⟩
    exact ⟨s, hs, hdims.trans (hcovered m hm)⟩

/-! ## Masks of groups -/

/-- All that sub-queries can be grouped by has one value for each row. -/
structure KeyedAt (q : Query) : Prop where
  dimension : ∀ d ∈ q.dimensions, d.IsKey
  fork : ∀ s ∈ taken q, ∀ d ∈ s.fork.lod.dims, d.IsKey

theorem asDimension_flag {d : Formula} (h : d.IsKey) :
    (asDimension d).2 = true ↔ d.IsRowValue := by
  show (!d.isConstantExpression) = true ↔ _
  rw [Bool.not_eq_true']
  exact ⟨fun hconst => h.resolve_left (by simp [hconst]), IsRowValue.not_constant⟩

theorem KeyedAt.forkDims (hq : KeyedAt q) {s : Site} (hs : s ∈ taken q) :
    ∀ d ∈ (signatureOf q s).dims, d.IsKey := by
  intro d hd
  simp only [signatureOf] at hd
  split at hd
  · exact Or.inl (List.mem_singleton.mp hd ▸ rfl)
  · exact (mem_forkDims hd).elim (hq.dimension d) (hq.fork s hs d)

/-- Dimensions that are selected as such are grouped by. -/
theorem coveredBy_of_selection {ds : List Formula}
    (h : ∀ d ∈ ds, asDimension d ∈ selection m.extras) : CoveredBy ds m.groupByExprs := by
  intro f hf
  obtain ⟨d, hd, hsame⟩ := contains_eq_true.mp hf
  by_cases hconst : d.isConstantExpression = true
  · exact Or.inl (constant_of_same (BEq.symm hsame) hconst)
  · refine Or.inr (contains_groupByExprs.mpr ⟨_, h d hd, ?_, hsame⟩)
    simpa [asDimension] using hconst

theorem coveredBy_of_sameMembers (h : ∀ d ∈ dims, ∃ d' ∈ dims', (d == d') = true) :
    CoveredBy dims dims' := by
  intro f hf
  obtain ⟨d, hd, hsame⟩ := contains_eq_true.mp hf
  obtain ⟨d', hd', hsame'⟩ := h d hd
  exact Or.inr (contains_eq_true.mpr ⟨d', hd', BEq.trans hsame hsame'⟩)

theorem coveredBy_signatureOf (q : Query) (s : Site) :
    CoveredBy (forkDims q s.fork.lod) (signatureOf q s).dims := by
  simp only [signatureOf]
  split
  next hempty =>
    rw [List.isEmpty_iff.mp hempty]
    exact .nil
  next => exact .refl _

/-- The mask of a group has the dimensions of all forks that agree with the group. -/
theorem forkMask_hosting (hq : KeyedAt q) (hm : m ∈ (forkMasks q a).1) :
    Hosting q m ∧ HostsFork q m := by
  obtain ⟨g, hg, heq⟩ := exists_group_of_mask hm
  have hformed := (forkGroups_grouped q (taken q) a).formed g hg
  obtain ⟨t, ht, hsignature, -⟩ := hformed.leader
  have htaken := List.mem_of_find?_eq_some ht
  have hselects : selection m.extras = g.signature.selection := by
    rw [heq]
    exact selectsOwn_forkGroups q (taken q) a g hg
  have hown : CoveredBy g.signature.dims m.groupByExprs := by
    refine coveredBy_of_selection fun d hd => ?_
    rw [hselects]
    exact List.mem_append_left _ (List.mem_map_of_mem hd)
  have hagreeing {s : Site} (hs : g.signature.agrees (signatureOf q s) = true) :
      CoveredBy (forkDims q s.fork.lod) m.groupByExprs :=
    ((coveredBy_signatureOf q s).trans (coveredBy_of_sameMembers
      (sameMembers_iff.mp (Signature.agrees_iff.mp hs).1).2)).trans hown
  have hleader : CoveredBy (forkDims q t.fork.lod) m.groupByExprs := by
    refine hagreeing ?_
    rw [hsignature]
    exact Signature.agrees_refl _
  have hextra : ∀ x ∈ selection m.extras,
      (x.2 = true ↔ x.1.IsRowValue) ∧ HostsExpr q m.groupByExprs x.1 := by
    intro x hx
    rw [hselects, hsignature] at hx
    rcases List.mem_append.mp hx with hx | hx
    · obtain ⟨d, hd, rfl⟩ := List.mem_map.mp hx
      have hkey := hq.forkDims htaken d hd
      exact ⟨asDimension_flag hkey, .key hkey⟩
    · obtain ⟨f, hf, rfl⟩ := List.mem_map.mp hx
      obtain ⟨hf, haggregate⟩ := List.mem_filter.mp hf
      refine ⟨iff_of_false (by simp) fun hrow => ?_, .joined htaken ?_ haggregate hleader⟩
      · exact absurd (perRow_nil_iff.mp hrow.1) (by simp [haggregate])
      · simp only [signatureOf] at hf
        split at hf
        · obtain rfl : f = .int 1 := by simpa [JoinCondition.parts] using hf
          exact absurd haggregate (by decide)
        · exact hf
  refine ⟨⟨fun x hx => (hextra x hx).1, fun x hx => (hextra x hx).2, fun c hc => ?_⟩,
    t, htaken, hleader⟩
  rw [heq] at hc
  obtain ⟨s, hs, hplace, hagrees, -⟩ := hformed.cut c hc
  exact .fork hs hplace (hagreeing hagrees)

theorem ownBase_hosting (hq : KeyedAt q) (a : Names) :
    Hosting q (ownBase q (uncutCuts q ((forkMasks q a).1.flatMap Mask.cuts) b).1
      (uncutFilters q (forkMasks q a).1)
      (uncutCuts q ((forkMasks q a).1.flatMap Mask.cuts) b).2).1 := by
  obtain ⟨-, huncut, -⟩ := uncutCuts_ensures q ((forkMasks q a).1.flatMap Mask.cuts) b
  obtain ⟨-, -, hforks, -⟩ := forkMasks_spec q a
  have hselects := selection_ownBase q
    (uncutCuts q ((forkMasks q a).1.flatMap Mask.cuts) b).1 (uncutFilters q (forkMasks q a).1)
    (uncutCuts q ((forkMasks q a).1.flatMap Mask.cuts) b).2
  refine ⟨fun x hx => ?_, fun x hx => ?_, fun c hc => ?_⟩
  · obtain ⟨d, hd, rfl⟩ := List.mem_map.mp (hselects ▸ hx)
    exact asDimension_flag (hq.dimension d hd)
  · obtain ⟨d, hd, rfl⟩ := List.mem_map.mp (hselects ▸ hx)
    exact .key (hq.dimension d hd)
  · obtain ⟨-, hinner, hplace⟩ := huncut c hc
    refine .leftover hforks hinner hplace (coveredBy_of_selection fun d hd => ?_)
    rw [hselects]
    exact List.mem_map_of_mem hd

/-! ## The base -/

theorem selects_addExtras (extras new : List Extra) :
    (∀ x ∈ extras, x ∈ addExtras extras new) ∧
      ∀ x ∈ new, (aliasIn (addExtras extras new) x.expr).isSome = true := by
  induction new generalizing extras with
  | nil => exact ⟨fun x hx => hx, fun x hx => absurd hx List.not_mem_nil⟩
  | cons y ys ih =>
      rw [addExtras, List.foldl_cons, ← addExtras]
      split
      next hknown =>
        obtain ⟨hkeeps, hselects⟩ := ih extras
        refine ⟨hkeeps, List.forall_mem_cons.mpr ⟨?_, hselects⟩⟩
        obtain ⟨x, hx, hsame⟩ := aliasIn_isSome_iff.mp hknown
        exact aliasIn_isSome_iff.mpr ⟨x, hkeeps x hx, hsame⟩
      next =>
        obtain ⟨hkeeps, hselects⟩ := ih (extras ++ [y])
        refine ⟨fun x hx => hkeeps x (List.mem_append_left _ hx),
          List.forall_mem_cons.mpr ⟨?_, hselects⟩⟩
        exact aliasIn_isSome_iff.mpr ⟨y, hkeeps y (by simp), BEq.rfl⟩

theorem aliasIn_isSome_of_mem {xs : List Extra} {x : Extra} (h : x ∈ xs) :
    (aliasIn xs x.expr).isSome = true := aliasIn_isSome_iff.mpr ⟨x, h, BEq.rfl⟩

/-- A mask that two masks are merged into. -/
theorem Hosting.merge (merged : Mask) {base other : Mask} (hbase : Hosting q base)
    (hother : Hosting q other) (hcuts : merged.cuts = base.cuts ++ other.cuts)
    (hextras : merged.extras = addExtras base.extras other.extras) :
    Hosting q merged ∧ (HostsFork q other → HostsFork q merged) := by
  obtain ⟨hkeeps, hselects⟩ := selects_addExtras base.extras other.extras
  have hparts : ∀ m ∈ [base, other], Hosting q m := by simp [hbase, hother]
  obtain ⟨hmerged, hforks⟩ := Hosting.union merged hparts
    (fun c hc => by simpa [hcuts] using hc)
    (fun x hx => by
      obtain ⟨y, hy, rfl⟩ := List.mem_map.mp (hextras ▸ hx)
      rcases mem_addExtras hy with hy | hy
      · exact ⟨base, by simp, List.mem_map_of_mem hy⟩
      · exact ⟨other, by simp, List.mem_map_of_mem hy⟩)
    (fun m hm x hx => by
      rw [hextras]
      rcases List.mem_pair.mp hm with rfl | rfl
      · exact aliasIn_isSome_of_mem (hkeeps x hx)
      · exact hselects x hx)
  exact ⟨hmerged, hforks other (by simp)⟩

/-- The base takes over what the others select. -/
theorem Hosting.complete (a : Names) {base : Mask} {others : List Mask}
    (h : ∀ m ∈ base :: others, Hosting q m)
    (hforks : ∀ m ∈ others, HostsFork q m) (hbase : others = [] → HostsFork q base) :
    ∀ m ∈ (completeBase (base :: others) a).1, Hosting q m ∧ HostsFork q m := by
  intro m hm
  rcases List.mem_cons.mp hm with rfl | hm
  · obtain ⟨hkeeps, hselects⟩ := foldlM_addFresh (others.flatMap Mask.extras) base.extras a
    obtain ⟨hcomplete, hhosts⟩ := Hosting.union
      { base with extras := ((others.flatMap Mask.extras).foldlM addFresh base.extras a).1 } h
      (fun c hc => ⟨base, List.mem_cons_self, hc⟩)
      (forall_selection_addFresh a
        (fun x hx => by
          obtain ⟨y, hy, rfl⟩ := List.mem_map.mp hx
          obtain ⟨m, hm, hy⟩ := List.mem_flatMap.mp hy
          exact ⟨m, List.mem_cons_of_mem base hm, List.mem_map_of_mem hy⟩)
        fun x hx => ⟨base, List.mem_cons_self, hx⟩)
      (fun m hm x hx => by
        rcases List.mem_cons.mp hm with rfl | hm
        · exact aliasIn_isSome_of_mem (hkeeps x hx)
        · exact hselects x (List.mem_flatMap.mpr ⟨m, hm, hx⟩))
    refine ⟨hcomplete, ?_⟩
    cases others with
    | nil => exact hhosts base List.mem_cons_self (hbase rfl)
    | cons m ms => exact hhosts m (by simp) (hforks m List.mem_cons_self)
  · exact ⟨h m (List.mem_cons_of_mem base hm), hforks m hm⟩

theorem plan_hosting {p : Plan} (hplan : plan q a = (some p, b)) (hq : KeyedAt q) :
    ∀ m ∈ p.masks, Hosting q m ∧ HostsFork q m := by
  have hgroups : ∀ m ∈ (forkMasks q a).1, Hosting q m ∧ HostsFork q m :=
    fun m hm => forkMask_hosting hq hm
  have hsome := forkMasks_ne_nil hplan
  obtain ⟨based, rfl, rfl, -⟩ := plan_eq_some hplan
  obtain ⟨base, others, heq, hbase, hfork, hothers⟩ : ∃ base others,
      (withBase q (forkMasks q a).1 (forkMasks q a).2).1 = base :: others ∧ Hosting q base ∧
        (others = [] → HostsFork q base) ∧ ∀ m ∈ others, m ∈ (forkMasks q a).1 := by
    rcases withBase_cases q (forkMasks q a).1 (forkMasks q a).2 with
      ⟨i, m, -, -, hm, heq⟩ | ⟨own, hown, heq⟩
    · obtain ⟨hhosting, hforks⟩ := hgroups m (List.mem_of_getElem? hm)
      exact ⟨_, _, congrArg Prod.fst heq, ⟨hhosting.flag, hhosting.extra, hhosting.cut⟩,
        fun _ => hforks, fun m hm => List.mem_of_mem_eraseIdx hm⟩
    · refine ⟨_, _, congrArg Prod.fst heq, ?_, fun hnil => absurd hnil hsome, fun m hm => hm⟩
      rw [hown]
      exact ownBase_hosting hq a
  rw [heq]
  rcases mergeWindows_eq base others with hkept | ⟨other, rfl, -, hmerged⟩
  · rw [hkept]
    refine Hosting.complete _ (List.forall_mem_cons.mpr ⟨hbase, fun m hm => ?_⟩)
      (fun m hm => ?_) hfork
    · exact (hgroups m (hothers m hm)).1
    · exact (hgroups m (hothers m hm)).2
  · obtain ⟨hhosting, hforks⟩ := hgroups other (hothers other (List.mem_singleton.mpr rfl))
    obtain ⟨hall, hall'⟩ := Hosting.merge
      { base with
        extras := addExtras base.extras other.extras
        cuts := base.cuts ++ other.cuts
        filterIndices := other.filterIndices
        addFilters := other.addFilters } hbase hhosting rfl rfl
    rw [hmerged]
    exact Hosting.complete (withBase q (forkMasks q a).1 (forkMasks q a).2).2
      (List.forall_mem_singleton.mpr hall) (fun m hm => absurd hm List.not_mem_nil)
      fun _ => hall' hforks

end Split

end FormulaSql
