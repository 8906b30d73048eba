import FormulaSql.Proofs.Split.Graded

/-!
# The grouping of the query that reads from sub-queries

Whether the cropped query of a round is grouped is decided by what it selects. If the query of the
round is graded, all that is selected and ordered by has a value for each group then, or nothing is
aggregated and there are no groups. Filters are left with values for each row or for any groups.

* `Split.Regrouped.items_cases` is about what is selected and ordered by
* `Split.CroppedOf.filter_value` is about filters
-/

namespace FormulaSql

theorem NameSet.eq_of_subset {s t : NameSet} (hst : s.subset t = true)
    (hts : t.subset s = true) : s = t := by
  obtain ⟨xs, hxs⟩ := s
  obtain ⟨ys, hys⟩ := t
  have hmem : ∀ n, n ∈ xs ↔ n ∈ ys := fun n =>
    ⟨fun hn => contains_iff.mp (List.all_eq_true.mp hst n hn),
      fun hn => contains_iff.mp (List.all_eq_true.mp hts n hn)⟩
  have hnodup {zs : List String} (h : zs.Pairwise (· < ·)) : zs.Nodup := by
    refine List.Pairwise.imp ?_ h
    rintro m _ hlt rfl
    exact String.lt_irrefl m hlt
  have hperm := (List.perm_ext_iff_of_nodup (hnodup hxs) (hnodup hys)).mpr hmem
  have heq : xs = ys := hperm.eq_of_pairwise
    (fun _ _ _ _ hlt hgt => absurd (String.lt_trans hlt hgt) (String.lt_irrefl _)) hxs hys
  subst heq
  rfl

namespace Formula

variable {f g : Formula}

theorem isForked_of_same (h : (f == g) = true) (hf : f.isForked = true) : g.isForked = true := by
  induction f using induction_children generalizing g with
  | step f ih =>
      rcases isForked_iff.mp hf with hfork | ⟨c, hc, hforked⟩
      · exact isForked_of_isFork (isFork_eq_of_same h ▸ hfork)
      · obtain ⟨d, hd, hcd⟩ := forall₂_exists_right (forall₂_autonomous h) hc
        exact isForked_iff.mpr
          (Or.inr ⟨d, hd, ih c (mem_children_of_autonomous hc) hcd hforked⟩)

/-- A field with a value for each group is a dimension. -/
theorem contains_of_field? {dims : List Formula} {n : String} (hf : f.field? = some n)
    (h : f.PerGroup dims) : dims.contains f = true := by
  by_contra hnot
  obtain ⟨hnone, -⟩ := (perGroup_iff_node (by simpa using hnot) (gathers_of_field? hf)).mp h
  exact absurd hnone (by simp [hf])

/-- Without forks, aggregations and window calls there is a value for each row. -/
theorem perRow_of_plain (hfork : f.isForked = false) (haggregate : f.containsAggregate = false)
    (hwindow : f.containsWindow = false) : f.PerRow [] := by
  induction f using induction_children with
  | step f ih =>
      obtain ⟨hfork, hforks⟩ := not_isForked_iff.mp hfork
      obtain ⟨haggregate, haggregates⟩ := not_containsAggregate_iff.mp haggregate
      have hwindows : ∀ g ∈ f.nodes, g.isWindowCall = false := by
        simpa [containsWindow, any] using hwindow
      refine .node ?_ fun c hc => ?_
      · rw [gathers, hfork, haggregate, hwindows f (self_mem_nodes f)]
        rfl
      · have hchild := mem_children_of_autonomous hc
        refine ih c hchild (hforks c hc) (haggregates c hc) ?_
        rw [← Bool.not_eq_true, containsWindow, any_iff]
        rintro ⟨g, hg, hwindow⟩
        exact absurd (hwindows g (mem_nodes_of_child hchild hg)) (by simp [hwindow])

end Formula

namespace Split

open Formula

variable {q c : Query} {a b : Names} {p : Plan} {base : Mask} {others : List Mask}

/-! ## Columns of the base -/

theorem columnAt_same {f g : Formula} (h : (f == g) = true) (n : String) :
    (columnAt f n == columnAt g n) = true := by
  refine same_iff.mpr ⟨rfl, ?_, .nil⟩
  exact (same_iff.mp h).2.1

theorem dimensionColumn_congr {f g : Formula} (h : (f == g) = true) :
    dimensionColumn base f = dimensionColumn base g := by
  have heq : (fun x : Extra => x.expr == f) = fun x => x.expr == g := funext fun x =>
    Bool.eq_iff_iff.mpr ⟨fun hf => BEq.trans hf h, fun hg => BEq.trans hg (BEq.symm h)⟩
  rw [dimensionColumn, dimensionColumn, aliasIn, aliasIn, heq]

/-- Columns of the base stand for values of rows. -/
theorem replacesRows_dimensionColumn (hbase : Hosting q base) :
    ReplacesRows (columnRule (dimensionColumn base)) := by
  intro above f r hr
  obtain ⟨n, hn, rfl⟩ := Option.map_eq_some_iff.mp hr
  obtain ⟨x, hx, hflag, hsame, -⟩ := dimensionColumn_eq_some hn
  have hrow := (hbase.flag _ (List.mem_map_of_mem hx)).mp hflag
  exact ⟨perRow_of_field? (n := n) rfl, fun hgroup => hrow.2 (hgroup.of_same (BEq.symm hsame))⟩

/-! ## Filters -/

/-- Window forks that are taken alone have the least set of later filters. -/
theorem prioritized_least {found : List Site} (h : (prioritized found).1 = true) :
    ∃ least, (∀ s ∈ found, least.subset s.laterFilters = true) ∧
      (prioritized found).2 = found.filter fun s => s.isWindow && s.laterFilters == least := by
  unfold prioritized at h ⊢
  split at h
  next => exact absurd h (by simp)
  next least _ =>
    split at h
    next hall =>
      rw [if_pos hall]
      exact ⟨least, List.all_eq_true.mp hall, rfl⟩
    next => exact absurd h (by simp)

/-- A filter that is neither cut nor applied by the base waits for a fork that is taken. -/
theorem exists_later_of_uncut (hplan : plan q a = (some p, b)) (hmasks : p.masks = base :: others)
    {i : Nat} {e : Entry} (he : q.filters[i]? = some e) (hi : i ∉ base.filterIndices)
    (hcut : isCut q i = false) : ∃ t ∈ taken q, isAfter t.laterFilters e = true := by
  have hgroup {m : Mask} (hm : m ∈ (forkMasks q a).1) (hsame : SameFilters base m) :
      ∃ t ∈ taken q, isAfter t.laterFilters e = true := by
    obtain ⟨g, hg⟩ := groupMask_of_mem hm
    obtain ⟨t, ht, -, hlater, -⟩ := hg.leader
    refine ⟨t, ht, ?_⟩
    by_contra hnot
    rw [Bool.not_eq_true, ← hlater] at hnot
    exact hi (hsame.1 ▸ (hg.filterIndices i).mpr ⟨e, he, hnot, hcut⟩)
  obtain ⟨base', others', hmasks', hbase⟩ := plan_baseOf hplan
  obtain ⟨rfl, rfl⟩ := List.cons.inj (hmasks.symm.trans hmasks')
  cases hbase with
  | own _ hindices =>
      obtain ⟨hlt, -⟩ := List.getElem?_eq_some_iff.mp he
      exact absurd (hindices ▸ mem_uncutFilters.mpr ⟨hlt, hcut⟩) hi
  | chosen hm _ _ hsame => exact hgroup (List.mem_of_getElem? hm) hsame
  | merged _ honly _ hsame => exact hgroup (honly ▸ List.mem_singleton.mpr rfl) hsame
  | absorbing _ _ hrest _ _ hsame =>
      exact hgroup (List.mem_of_mem_eraseIdx (hrest ▸ List.mem_singleton.mpr rfl)) hsame

/-- A window call that waits for no more filters than one that is taken is taken too. -/
theorem mem_taken_of_subset {s t : Site} (hwindows : (prioritized (sites q)).1 = true)
    (ht : t ∈ taken q) (hs : s ∈ sites q) (hwindow : s.fork.isWindow = true)
    (hsubset : s.laterFilters.subset t.laterFilters = true) : s ∈ taken q := by
  obtain ⟨least, hleast, htaken⟩ := prioritized_least hwindows
  rw [taken, htaken] at ht ⊢
  obtain ⟨-, hboth⟩ := List.mem_filter.mp ht
  rw [Bool.and_eq_true, beq_iff_eq] at hboth
  have hsame : s.laterFilters = least :=
    NameSet.eq_of_subset (hboth.2 ▸ hsubset) (hleast s hs)
  refine List.mem_filter.mpr ⟨hs, ?_⟩
  rw [Bool.and_eq_true, beq_iff_eq]
  exact ⟨hwindow, hsame⟩

theorem subset_laterFilters {s t : Site} (hs : s ∈ sites q) (ht : t ∈ sites q)
    (h : s.fork.beforeFilterBy.subset t.fork.beforeFilterBy = true) :
    s.laterFilters.subset t.laterFilters = true := by
  obtain ⟨-, -, -, -, hlater⟩ := mem_sites_iff.mp hs
  obtain ⟨-, -, -, -, hlater'⟩ := mem_sites_iff.mp ht
  rw [hlater, hlater']
  refine List.all_eq_true.mpr fun n hn => NameSet.contains_iff.mpr ?_
  obtain ⟨hn, hid⟩ := List.mem_filter.mp hn
  exact List.mem_filter.mpr ⟨NameSet.contains_iff.mp (List.all_eq_true.mp h n hn), hid⟩

/-- A filter that is neither cut nor applied by the base has no forks. -/
theorem not_isForked_of_uncut (hq : q.Graded) (hplan : plan q a = (some p, b))
    (hmasks : p.masks = base :: others) {i : Nat} {e : Entry} (he : q.filters[i]? = some e)
    (hi : i ∉ base.filterIndices) (hcut : isCut q i = false) : e.formula.isForked = false := by
  rw [← Bool.not_eq_true]
  intro hforked
  have hwindows := windows_of_uncut he hforked hcut
  obtain ⟨t, ht, hafter⟩ := exists_later_of_uncut hplan hmasks he hi hcut
  have hsite := mem_sites_of_taken ht
  obtain ⟨-, hbefore⟩ := (hq.filter e (List.mem_of_getElem? he)).window hforked t.fork
    (mem_reachableForks_of_site hq hsite) (isWindow_of_taken hwindows ht)
  obtain ⟨g, hg, hwindow⟩ := List.any_eq_true.mp (hbefore (isAfter_beforeFilterBy hsite hafter))
  obtain ⟨k, hk, hwindow⟩ := (Option.any_eq_true _ _).mp hwindow
  rw [Bool.and_eq_true] at hwindow
  obtain ⟨path, hmem⟩ := exists_outermostFork_of_surface hg hk
  let s : Site := ⟨.filters, i, path, k, k.beforeFilterBy.filter q.filterIds.contains⟩
  have hs : s ∈ sites q := mem_sites_iff.mpr ⟨by simp [s, Part.splittable], e, he, hmem, rfl⟩
  have hs' : s ∈ taken q := mem_taken_of_subset hwindows ht hs hwindow.1
    (subset_laterFilters hs hsite hwindow.2)
  exact absurd (hcut.symm.trans (isCut_iff.mpr ⟨s, hs', rfl, rfl⟩)) (by simp)

/-- The error that stands for formulas goes with rows and groups. -/
theorem incompatible_value (dims : List Formula) :
    incompatible.PerGroup dims ∧ incompatible.PerRow dims :=
  ⟨.node rfl rfl fun _ hc => absurd hc List.not_mem_nil,
    .node rfl fun _ hc => absurd hc List.not_mem_nil⟩

/-- A filter that is cut is computed from columns. -/
theorem perRow_of_isCut (hq : q.Graded) (hplan : plan q a = (some p, b)) {i : Nat} {e : Entry}
    {g : Formula} (he : q.filters[i]? = some e) (hconst : e.formula.isConstantExpression = false)
    (halias : hasAliasIn (dimensionAliases q) e = false) (hcut : isCut q i = true)
    (hg : replaceCuts q (cutsAt p.masks .filters i) e.formula = .ok g) : g.PerRow [] := by
  obtain ⟨-, hplanned⟩ := plan_spec hplan
  obtain ⟨forks, hcuts⟩ := hplanned.cuts
  have hpaths : forkPaths q .filters i ≠ [] := fun hnil => by
    simp [isCut, hnil] at hcut
  have hdown := cutDown_of_replaceCuts
    (hcuts.cutAlong (by simp [Part.splittable]) he hconst halias fun _ => hpaths) hg
  obtain ⟨path, hpath⟩ := List.exists_mem_of_ne_nil _ hpaths
  obtain ⟨-, k, hk⟩ := outermostForks_of_mem_forkPaths hpath he
  obtain ⟨-, haggregate, hwindow⟩ := (hq.filter e (List.mem_of_getElem? he)).forked
    (isForked_of_mem_outermostForks hk)
  exact hdown.perRow haggregate hwindow

/-- A filter of the cropped query has a value for each row or for any groups, and no forks. -/
theorem CroppedOf.filter_value (hc : CroppedOf q p.masks base p.compatible c)
    (hplan : plan q a = (some p, b)) (hmasks : p.masks = base :: others) (hq : q.Graded)
    {e' : Entry} (he' : e' ∈ c.filters) :
    e'.formula.isForked = false ∧ (e'.formula.PerGroup [] ∨ e'.formula.PerRow []) := by
  have hhosting := (plan_hosting hplan (keyedAt_of_graded hq) base (by simp [hmasks])).1
  have hrows := replacesRows_dimensionColumn hhosting
  have hrow {f : Formula} (hf : f.PerRow []) :
      f.isForked = false ∧ (f.PerGroup [] ∨ f.PerRow []) :=
    ⟨not_isForked_of_perRow hf, Or.inr hf⟩
  obtain ⟨e, i, he, hi, hcrop⟩ := hc.origin (p := .filters) (by simp) he'
  obtain ⟨hcropped, -⟩ := cropEntry_some hcrop
  generalize e'.formula = f at hcropped
  cases hcropped with
  | constant hconst => exact hrow (perRow_of_constant hconst)
  | @dimension n => exact hrow (perRow_of_field? (n := n) rfl)
  | incompatible => exact hrow (incompatible_value []).2
  | @cut g hconst halias _ hg =>
      show (withColumns (dimensionColumn base) g).isForked = false ∧ _
      rw [withColumns_eq_transform]
      obtain ⟨hkeepsRow, hkeepsGroup⟩ := transform_replacesRows hrows g
      cases hcut : isCut q i with
      | true => exact hrow (hkeepsRow (perRow_of_isCut hq hplan he hconst halias hcut hg))
      | false =>
          obtain ⟨-, hplanned⟩ := plan_spec hplan
          obtain ⟨forks, hcuts⟩ := hplanned.cuts
          rw [hcuts.cutsAt_eq_nil (isCut_eq_false_iff.mp hcut)] at hg
          obtain rfl : e.formula = g := Except.ok.inj hg
          have hplain := not_isForked_of_uncut hq hplan hmasks he (hi rfl) hcut
          refine ⟨not_isForked_transform hrows.not_isForked hplain, ?_⟩
          exact ((hq.filter e (List.mem_of_getElem? he)).plain hplain).imp hkeepsGroup hkeepsRow

/-! ## Selected formulas and orderings -/

/-- The selected entries that decide about the grouping. -/
def decisive (q : Query) : List Entry :=
  q.select.filter fun e =>
    !hasAliasIn (dimensionAliases q) e && !e.formula.isConstantExpression

theorem mem_decisive {e : Entry} : e ∈ decisive q ↔ e ∈ q.select ∧
    hasAliasIn (dimensionAliases q) e = false ∧ e.formula.isConstantExpression = false := by
  rw [decisive, List.mem_filter, Bool.and_eq_true, Bool.not_eq_true', Bool.not_eq_true']

/-- All of them contain aggregations or none does. -/
theorem selectsAggregates_spec {known : Option Bool} (h : selectsAggregates q = .ok known) :
    (known = none ↔ decisive q = []) ∧
      ∀ e ∈ decisive q, known = some e.formula.containsAggregate := by
  let I (done : List Entry) (known : Option Bool) : Prop :=
    (known = none ↔ done = []) ∧ ∀ e ∈ done, known = some e.formula.containsAggregate
  refine foldlM_invariant (I := I) ?_ [] ⟨by simp, by simp⟩ h
  rintro done e - known known' ⟨-, hdone⟩ hstep
  dsimp only at hstep
  split at hstep
  next hsame =>
    obtain rfl := Except.ok.inj hstep
    refine ⟨by simp, fun e' he' => ?_⟩
    rcases List.mem_append.mp he' with he' | he'
    · have hknown := hdone e' he'
      rw [hknown] at hsame
      have heq : e'.formula.containsAggregate = e.formula.containsAggregate := by simpa using hsame
      rw [heq]
    · rw [List.mem_singleton.mp he']
  next => cases hstep

/-- How the grouping of the cropped query comes about. -/
theorem cropped_grouping {masks : List Mask} {compatible : Bool}
    (h : cropped q masks compatible = .ok c) :
    ∃ base others groupBy known, masks = base :: others ∧
      CroppedOf q masks base compatible c ∧
      PartCropped q masks base compatible .groupBy [] groupBy ∧
      selectsAggregates { c with groupBy } = .ok known ∧
      c.groupBy = if known = some false then [] else groupBy := by
  obtain ⟨base, others, hmasks, -, hc, -⟩ := cropped_spec h
  subst hmasks
  unfold cropped at h
  split at h
  next base' others' heq =>
    obtain ⟨rfl, rfl⟩ := List.cons.inj heq
    split at h
    next =>
      obtain ⟨select, -, h⟩ := bind_eq_ok.mp h
      obtain ⟨groupBy, hgroupBy, h⟩ := bind_eq_ok.mp h
      obtain ⟨orderBy, -, h⟩ := bind_eq_ok.mp h
      obtain ⟨filters, -, h⟩ := bind_eq_ok.mp h
      rw [dropNeedlessGrouping] at h
      obtain ⟨known, hknown, h⟩ := bind_eq_ok.mp h
      refine ⟨base, others, groupBy, known, rfl, hc, cropPart_spec hgroupBy, ?_⟩
      split at h
      next =>
        obtain rfl := Except.ok.inj h
        exact ⟨hknown, rfl⟩
      next hnot =>
        obtain rfl := Except.ok.inj h
        exact ⟨hknown, (if_neg hnot).symm⟩
    next => cases h
  next heq => cases heq

/-- An item that is cut down, neither constant nor a dimension, if the cropped query groups by the
entries. -/
structure CutItem (q : Query) (groupBy : List Entry) (part : Part) (e e' : Entry) : Prop where
  mem : e ∈ q.part part
  unnamed : hasAliasIn (dimensionAliases q) e = false
  varying : e.formula.isConstantExpression = false
  down : CutDown e.formula e'.formula
  /-- It is not taken for a dimension afterwards. -/
  free : hasAliasIn (groupBy.filterMap Entry.aliasName) e' = false

/-- What becomes of a formula that is selected or ordered by. -/
inductive ItemOf (q : Query) (groupBy : List Entry) (compatible : Bool) (part : Part) (e' : Entry) :
    Prop where
  | constant : e'.formula.isConstantExpression = true → ItemOf q groupBy compatible part e'
  /-- A dimension is a column that the query groups by. -/
  | dimension {n : String} : e'.formula.field? = some n →
      (groupBy.map Entry.formula).contains e'.formula = true → ItemOf q groupBy compatible part e'
  | incompatible : compatible = false → e'.formula = incompatible →
      ItemOf q groupBy compatible part e'
  | cut {e : Entry} : compatible = true → CutItem q groupBy part e e' →
      ItemOf q groupBy compatible part e'

section Items

variable {groupBy : List Entry} {masks : List Mask} {compatible : Bool} {part : Part} {e' : Entry}

theorem hasAliasIn_iff {aliases : List String} {e : Entry} :
    hasAliasIn aliases e = true ↔ ∃ n ∈ aliases, e.aliasName = some n := by
  rw [hasAliasIn]
  cases e.aliasName with
  | none => simp
  | some n => simp

/-- Entries that the cropped query groups by have aliases of dimensions. -/
theorem PartCropped.hasAliasIn (h : PartCropped q masks base compatible .groupBy [] groupBy)
    {e e' : Entry} (hsame : e'.aliasName = e.aliasName)
    (he' : Split.hasAliasIn (groupBy.filterMap Entry.aliasName) e' = true) :
    Split.hasAliasIn (dimensionAliases q) e = true := by
  obtain ⟨n, hn, hname⟩ := hasAliasIn_iff.mp he'
  obtain ⟨d', hd', hdn⟩ := List.mem_filterMap.mp hn
  obtain ⟨d, i, hd, -, hcrop⟩ := h.origin hd'
  obtain ⟨-, halias, -⟩ := cropEntry_some hcrop
  refine hasAliasIn_iff.mpr ⟨n, List.mem_filterMap.mpr ⟨d, List.mem_of_getElem? hd, ?_⟩, ?_⟩
  · exact halias.symm.trans hdn
  · exact hsame.symm.trans hname

/-- An item with the alias of a dimension is a column that is grouped by as well. -/
theorem PartCropped.contains_dimension
    (h : PartCropped q masks base compatible .groupBy [] groupBy) (hq : q.Graded) {e e' : Entry}
    {n : String} (he : e ∈ q.select ++ q.orderBy)
    (hconst : e.formula.isConstantExpression = false)
    (halias : Split.hasAliasIn (dimensionAliases q) e = true)
    (hn : dimensionColumn base e.formula = some n) (he' : e'.formula = columnAt e.formula n)
    (hnew : (e'.formula == e.formula) = false) :
    (groupBy.map Entry.formula).contains e'.formula = true := by
  obtain ⟨d, hd, hname, hformula⟩ := hq.named e he halias
  have hdconst := not_isConstantExpression_of_same (BEq.symm hformula) hconst
  have hdalias : Split.hasAliasIn (dimensionAliases q) d = true := by
    rw [← halias, Split.hasAliasIn, Split.hasAliasIn, hname]
  have hcolumn {f : Formula} {cuts : List Cut}
      (hf : Cropped q base cuts compatible .groupBy d f) : f = columnAt d.formula n := by
    cases hf with
    | constant hconst' => exact absurd (hdconst.symm.trans hconst') (by simp)
    | dimension _ _ hn' =>
        rw [dimensionColumn_congr hformula, hn] at hn'
        rw [Option.some.inj hn']
    | incompatible _ hnot => exact absurd (hnot.symm.trans hdalias) (by simp)
    | cut _ hnot => exact absurd (hnot.symm.trans hdalias) (by simp)
  obtain ⟨i, hi⟩ := List.mem_iff_getElem?.mp hd
  rcases h.outcome hi (by simp) with hnone | ⟨d', hd', hsome⟩
  · obtain ⟨f, hf, hsame', -⟩ := cropEntry_none hnone
    rw [hcolumn hf, columnAt_same_iff, field?_eq_of_same hformula] at hsame'
    rw [he', columnAt_same_iff.mpr hsame'] at hnew
    exact absurd hnew (by simp)
  · obtain ⟨hf, -⟩ := cropEntry_some hsome
    refine contains_eq_true.mpr ⟨d'.formula, List.mem_map_of_mem hd', ?_⟩
    rw [he', hcolumn hf]
    exact columnAt_same (BEq.symm hformula) n

theorem CroppedOf.itemOf (hc : CroppedOf q p.masks base p.compatible c)
    (hplan : plan q a = (some p, b)) (hq : q.Graded)
    (hgroupBy : PartCropped q p.masks base p.compatible .groupBy [] groupBy) {part : Part}
    (hpart : part = .select ∨ part = .orderBy) {e' : Entry} (he' : e' ∈ c.part part) :
    ItemOf q groupBy p.compatible part e' := by
  have hjoin : part ≠ .joinOn := by rcases hpart with rfl | rfl <;> simp
  have hfilters : part ≠ .filters := by rcases hpart with rfl | rfl <;> simp
  have hsplittable : part ∈ Part.splittable := by
    rcases hpart with rfl | rfl <;> simp [Part.splittable]
  obtain ⟨e, i, he, -, hcrop⟩ := hc.origin hjoin he'
  obtain ⟨hcropped, hname, -, hnew⟩ := cropEntry_some hcrop
  generalize hf : e'.formula = f at hcropped
  cases hcropped with
  | constant hconst => exact .constant (hf ▸ hconst)
  | @dimension n hconst halias hn =>
      have hmem : e ∈ q.select ++ q.orderBy := by
        rcases hpart with rfl | rfl
        · exact List.mem_append_left _ (List.mem_of_getElem? he)
        · exact List.mem_append_right _ (List.mem_of_getElem? he)
      refine .dimension (hf ▸ rfl : e'.formula.field? = some n) ?_
      exact hgroupBy.contains_dimension hq hmem hconst halias hn hf
        (hnew.resolve_left (by simp [hconst]))
  | incompatible _ _ hcompatible => exact .incompatible hcompatible hf
  | @cut g hconst halias hcompatible hg =>
      obtain ⟨-, hplanned⟩ := plan_spec hplan
      obtain ⟨forks, hcuts⟩ := hplanned.cuts
      have hdown := cutDown_of_replaceCuts
        (hcuts.cutAlong hsplittable he hconst halias fun h => absurd h hfilters) hg
      rw [if_neg (by simpa using hfilters)] at hf
      refine .cut hcompatible ⟨List.mem_of_getElem? he, halias, hconst, hf ▸ hdown, ?_⟩
      rw [← Bool.not_eq_true]
      intro hin
      exact absurd (hgroupBy.hasAliasIn hname hin) (by simp [halias])

theorem ItemOf.perRow_or_cut (h : ItemOf q groupBy compatible part e') :
    e'.formula.PerRow [] ∨ ∃ e, CutItem q groupBy part e e' := by
  cases h with
  | constant hconst => exact Or.inl (perRow_of_constant hconst)
  | dimension hfield => exact Or.inl (perRow_of_field? hfield)
  | incompatible _ hformula => exact Or.inl (hformula ▸ (incompatible_value []).2)
  | cut _ hcut => exact Or.inr ⟨_, hcut⟩

/-- No fork is left. -/
theorem ItemOf.not_isForked (h : ItemOf q groupBy compatible part e') :
    e'.formula.isForked = false := by
  rcases h.perRow_or_cut with hrow | ⟨e, hcut⟩
  · exact not_isForked_of_perRow hrow
  · exact hcut.down.not_isForked

/-- Nothing is aggregated in the end, if this holds of formulas that are cut. -/
theorem ItemOf.not_containsAggregate (h : ItemOf q groupBy compatible part e')
    (hcut : ∀ e, CutItem q groupBy part e e' → e'.formula.containsAggregate = false) :
    e'.formula.containsAggregate = false := by
  rcases h.perRow_or_cut with hrow | ⟨e, he⟩
  · exact not_containsAggregate_of_perRow hrow
  · exact hcut e he

/-- There is a value for each group in the end, if this holds of formulas that are cut. -/
theorem ItemOf.perGroup (h : ItemOf q groupBy compatible part e')
    (hcut : ∀ e, CutItem q groupBy part e e' → compatible = true →
      e'.formula.PerGroup (groupBy.map Entry.formula)) :
    e'.formula.PerGroup (groupBy.map Entry.formula) := by
  cases h with
  | constant hconst => exact perGroup_of_constant hconst
  | dimension _ hcontains => exact .dimension hcontains
  | incompatible _ hformula => exact hformula ▸ (incompatible_value _).1
  | cut hcompatible he => exact hcut _ he hcompatible

/-- A graded formula that is no dimension becomes another one, with columns in it. -/
theorem CutDown.changes {dims : List Formula} {f g : Formula} (h : CutDown f g)
    (hgraded : f.isGraded dims = true) (hdims : dims.contains f = false)
    (hconst : f.isConstantExpression = false) :
    (g == f) = false ∧ g.isConstantExpression = false := by
  rw [← Bool.not_eq_true, ← Bool.not_eq_true]
  cases h with
  | @column _ _ n hg =>
      constructor
      · intro hsame
        have hfield : f.field? = some n := (field?_eq_of_same hsame).symm.trans hg
        have hplain : f.isForked = false := not_isForked_of_perRow (perRow_of_field? hfield)
        have hcontains := contains_of_field? hfield ((isGraded_plain hplain).mp hgraded)
        exact absurd (hdims.symm.trans hcontains) (by simp)
      · intro hconst'
        exact absurd (constant_iff.mp hconst' g (self_mem_nodes g)).2.1 (by simp [hg])
  | constant hconst' => exact absurd (hconst.symm.trans hconst') (by simp)
  | node hfork hforked houtline hbelow =>
      have hdown : CutDown f g := .node hfork hforked houtline hbelow
      constructor
      · intro hsame
        have := isForked_of_same (BEq.symm hsame) hforked
        exact absurd (hdown.not_isForked.symm.trans this) (by simp)
      · simp [hdown.not_constant hforked]

/-- A selected formula that is neither a dimension nor constant decides about the grouping. -/
theorem CroppedOf.exists_decisive (hc : CroppedOf q p.masks base p.compatible c)
    (hplan : plan q a = (some p, b)) (hq : q.Graded)
    (hgroupBy : PartCropped q p.masks base p.compatible .groupBy [] groupBy)
    (hcompatible : p.compatible = true) {e : Entry} (he : e ∈ q.select)
    (hdims : q.dimensions.contains e.formula = false)
    (hconst : e.formula.isConstantExpression = false) : decisive { c with groupBy } ≠ [] := by
  have hgraded := (hq.item e (List.mem_append_left _ he)).1
  have halias : Split.hasAliasIn (dimensionAliases q) e = false := by
    rw [← Bool.not_eq_true]
    intro halias
    obtain ⟨d, hd, -, hsame⟩ := hq.named e (List.mem_append_left _ he) halias
    have hcontains : q.dimensions.contains e.formula = true :=
      contains_eq_true.mpr ⟨d.formula, List.mem_map_of_mem hd, BEq.symm hsame⟩
    exact absurd (hdims.symm.trans hcontains) (by simp)
  obtain ⟨i, hi⟩ := List.mem_iff_getElem?.mp he
  obtain ⟨-, hplanned⟩ := plan_spec hplan
  obtain ⟨forks, hcuts⟩ := hplanned.cuts
  have hchanges {f : Formula}
      (hf : Cropped q base (cutsAt p.masks .select i) p.compatible .select e f) :
      (f == e.formula) = false ∧ f.isConstantExpression = false := by
    cases hf with
    | constant hconst' => exact absurd (hconst.symm.trans hconst') (by simp)
    | dimension _ halias' => exact absurd (halias.symm.trans halias') (by simp)
    | incompatible _ _ hnot => exact absurd (hnot.symm.trans hcompatible) (by simp)
    | @cut g _ _ _ hg =>
        have hdown := cutDown_of_replaceCuts
          (hcuts.cutAlong (p := .select) (by simp [Part.splittable]) hi hconst halias (by simp)) hg
        exact hdown.changes hgraded hdims hconst
  rcases hc.outcome (p := .select) (by simp [Part.splittable]) hi (by simp) with
    hnone | ⟨e', he', hsome⟩
  · obtain ⟨f, hf, hsame, -⟩ := cropEntry_none hnone
    exact absurd ((hchanges hf).1.symm.trans hsame) (by simp)
  · obtain ⟨hf, hname, -⟩ := cropEntry_some hsome
    refine List.ne_nil_of_mem (mem_decisive.mpr ⟨he', ?_, (hchanges hf).2⟩)
    rw [← Bool.not_eq_true]
    intro hin
    exact absurd (hgroupBy.hasAliasIn hname hin) (by simp [halias])

/-! ## Groups or rows -/

/-- The items of the cropped query, the entries it groups by if it is grouped, and what is known of
the aggregations that it selects. -/
structure Regrouped (q : Query) (compatible : Bool) (groupBy : List Entry) (known : Option Bool)
    (c : Query) : Prop where
  select : ∀ e ∈ c.select, ItemOf q groupBy compatible .select e
  orderBy : ∀ e ∈ c.orderBy, ItemOf q groupBy compatible .orderBy e
  grouping : c.groupBy = if known = some false then [] else groupBy
  none_of_none : q.groupBy = [] → groupBy = []
  /-- A selected formula that is cut decides, unless it has become constant. -/
  decides : ∀ e ∈ c.select, hasAliasIn (groupBy.filterMap Entry.aliasName) e = false →
    e.formula.isConstantExpression = true ∨ known = some e.formula.containsAggregate
  decided : ∀ aggregates, known = some aggregates →
    ∃ e ∈ c.select, e.formula.containsAggregate = aggregates
  /-- What is neither a dimension nor constant decides, if it is not lost. -/
  undecided : known = none → compatible = true → ∀ e ∈ q.select,
    q.dimensions.contains e.formula = true ∨ e.formula.isConstantExpression = true

theorem CroppedOf.regrouped {known : Option Bool} (hc : CroppedOf q p.masks base p.compatible c)
    (hplan : plan q a = (some p, b)) (hq : q.Graded)
    (hgroupBy : PartCropped q p.masks base p.compatible .groupBy [] groupBy)
    (hknown : selectsAggregates { c with groupBy } = .ok known)
    (hgroup : c.groupBy = if known = some false then [] else groupBy) :
    Regrouped q p.compatible groupBy known c := by
  obtain ⟨hnone, hsome⟩ := selectsAggregates_spec hknown
  refine ⟨fun e he => hc.itemOf hplan hq hgroupBy (Or.inl rfl) he,
    fun e he => hc.itemOf hplan hq hgroupBy (Or.inr rfl) he, hgroup, ?_, ?_, ?_, ?_⟩
  · intro hnil
    rw [List.eq_nil_iff_forall_not_mem]
    intro d' hd'
    obtain ⟨d, i, hd, -⟩ := hgroupBy.origin hd'
    exact absurd (hnil ▸ List.mem_of_getElem? hd : d ∈ []) List.not_mem_nil
  · intro e he hfree
    cases hconst : e.formula.isConstantExpression with
    | true => exact Or.inl rfl
    | false => exact Or.inr (hsome e (mem_decisive.mpr ⟨he, hfree, hconst⟩))
  · rintro aggregates rfl
    obtain ⟨e, he⟩ := List.exists_mem_of_ne_nil _ fun h => by simpa using hnone.mpr h
    exact ⟨e, (mem_decisive.mp he).1, (Option.some.inj (hsome e he)).symm⟩
  · rintro rfl hcompatible e he
    by_contra hnot
    simp only [not_or, Bool.not_eq_true] at hnot
    exact hc.exists_decisive hplan hq hgroupBy hcompatible he hnot.1 hnot.2 (hnone.mp rfl)

/-- With orderings by other things than dimensions, nothing is left to aggregate. -/
theorem CutItem.calm {e : Entry} (h : CutItem q groupBy .orderBy e e') (hq : q.Graded) :
    (∀ e ∈ q.select ++ q.orderBy, e.formula.standsOver isAggregateCall = false) ∧
      (q.groupBy = [] ∨ ∃ e ∈ q.select, q.dimensions.contains e.formula = false ∧
        e.formula.isConstantExpression = false) := by
  refine hq.ordering.resolve_left fun hdims => ?_
  rcases hdims e h.mem with hnamed | hconst
  · exact absurd (h.unnamed.symm.trans hnamed) (by simp)
  · exact absurd (h.varying.symm.trans hconst) (by simp)

namespace Regrouped

variable {known : Option Bool}

theorem orderBy_calm (h : Regrouped q compatible groupBy known c) (hq : q.Graded) :
    ∀ e ∈ c.orderBy, e.formula.containsAggregate = false := by
  intro e' he'
  refine (h.orderBy e' he').not_containsAggregate fun e hcut => ?_
  exact hcut.down.not_containsAggregate ((hcut.calm hq).1 e (List.mem_append_right _ hcut.mem))

/-- There are no groups if no selected formula contains an aggregation. -/
theorem rows (h : Regrouped q compatible groupBy (some false) c) (hq : q.Graded) :
    c.groupBy = [] ∧ ∀ e ∈ c.select ++ c.orderBy, e.formula.containsAggregate = false := by
  refine ⟨h.grouping.trans (if_pos rfl), fun e' he' => ?_⟩
  rcases List.mem_append.mp he' with he' | he'
  · refine (h.select e' he').not_containsAggregate fun e hcut => ?_
    rcases h.decides e' he' hcut.free with hconst | hknown
    · exact not_containsAggregate_of_perRow (perRow_of_constant hconst)
    · exact (Option.some.inj hknown).symm
  · exact h.orderBy_calm hq e' he'

/-- There are groups if selected formulas contain aggregations, which stand at the top then. -/
theorem groups (h : Regrouped q compatible groupBy (some true) c) (hq : q.Graded) :
    ∀ e ∈ c.select ++ c.orderBy, e.formula.PerGroup c.dimensions := by
  intro e' he'
  rw [Query.dimensions, h.grouping, if_neg (by simp)]
  rcases List.mem_append.mp he' with he' | he'
  · refine (h.select e' he').perGroup fun e hcut _ => ?_
    rcases h.decides e' he' hcut.free with hconst | hknown
    · exact perGroup_of_constant hconst
    · have hshaped := (hq.item e (List.mem_append_left _ hcut.mem)).2
      exact .aggregate (hcut.down.isAggregateCall_of_contains hshaped (Option.some.inj hknown).symm)
  · refine (h.orderBy e' he').perGroup fun e hcut _ => ?_
    obtain ⟨hcalm, -⟩ := hcut.calm hq
    obtain ⟨e₀, he₀, haggregate⟩ := h.decided true rfl
    have hnot := (h.select e₀ he₀).not_containsAggregate fun e hcut =>
      hcut.down.not_containsAggregate (hcalm e (List.mem_append_left _ hcut.mem))
    exact absurd (hnot.symm.trans haggregate) (by simp)

/-- If no selected formula decides, all of them are dimensions or constant. -/
theorem undecided_cases (h : Regrouped q compatible groupBy none c) (hq : q.Graded) :
    (∀ e ∈ c.select ++ c.orderBy, e.formula.PerGroup c.dimensions) ∨
      c.groupBy = [] ∧ ∀ e ∈ c.select ++ c.orderBy, e.formula.containsAggregate = false := by
  have hgrouping : c.groupBy = groupBy := h.grouping
  have hconst {e e' : Entry} (he' : e' ∈ c.select) (hcut : CutItem q groupBy .select e e') :
      e'.formula.isConstantExpression = true :=
    (h.decides e' he' hcut.free).resolve_right (by simp)
  by_cases horder : ∃ e' ∈ c.orderBy, ∃ e, CutItem q groupBy .orderBy e e' ∧ compatible = true
  · obtain ⟨e₀, -, e, hcut₀, hcompatible⟩ := horder
    rcases (hcut₀.calm hq).2 with hnil | ⟨e, he, hdims, hvarying⟩
    · refine Or.inr ⟨hgrouping.trans (h.none_of_none hnil), fun e' he' => ?_⟩
      rcases List.mem_append.mp he' with he' | he'
      · refine (h.select e' he').not_containsAggregate fun e hcut => ?_
        exact not_containsAggregate_of_perRow (perRow_of_constant (hconst he' hcut))
      · exact h.orderBy_calm hq e' he'
    · rcases h.undecided rfl hcompatible e he with h | h
      · exact absurd (hdims.symm.trans h) (by simp)
      · exact absurd (hvarying.symm.trans h) (by simp)
  · refine Or.inl fun e' he' => ?_
    rw [Query.dimensions, hgrouping]
    rcases List.mem_append.mp he' with he' | he'
    · exact (h.select e' he').perGroup fun e hcut _ => perGroup_of_constant (hconst he' hcut)
    · refine (h.orderBy e' he').perGroup fun e hcut hcompatible => ?_
      exact absurd ⟨e', he', e, hcut, hcompatible⟩ horder

/-- All that is selected and ordered by has a value for each group, or nothing is aggregated and
there are no groups. -/
theorem items_cases (h : Regrouped q compatible groupBy known c) (hq : q.Graded) :
    (∀ e ∈ c.select ++ c.orderBy, e.formula.PerGroup c.dimensions) ∨
      c.groupBy = [] ∧ ∀ e ∈ c.select ++ c.orderBy, e.formula.containsAggregate = false := by
  cases known with
  | none => exact h.undecided_cases hq
  | some aggregates =>
      cases aggregates with
      | false => exact Or.inr (h.rows hq)
      | true => exact Or.inl (h.groups hq)

end Regrouped

end Items

end Split

end FormulaSql
