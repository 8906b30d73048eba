import FormulaSql.Proofs.Split.Leftover
import FormulaSql.Proofs.Split.Sharing

/-!
# The filters of a fork

A fork can ask that some filters come after it. Its sub-query applies all others as they are, and of
the later ones only those that its group shifts, in their shifted form. This holds through all hands
that a plan goes through, with one exception: when two groups of window calls are merged, both get
the filters of the one that is not the base.
-/

namespace FormulaSql.Split

/-! ## Filters of a group -/

/-- The filter is one of those that come later. -/
def isAfter (later : NameSet) (e : Entry) : Bool :=
  match e.fieldId with
  | some id => later.contains id
  | none => false

/-- A fork is cut out of the filter in the next round. -/
def isCut (q : Query) (i : Nat) : Bool := !(forkPaths q .filters i).isEmpty

/-- The filters that a sub-query applies as they are: those that are neither later nor cut. -/
def filtersBefore (q : Query) (later : NameSet) : List Entry :=
  (q.filters.zipIdx.filter fun (e, i) => !isAfter later e && !isCut q i).map (·.1)

/-- The later filters that are shifted, in their shifted form. -/
def filtersShifted (q : Query) (later : NameSet) (shifts : List (FilterShift Formula)) :
    List Entry :=
  (q.filters.filter fun e =>
      isAfter later e && shifts.any fun s => e.formula.containsNode s.source).map
    fun e => { e with formula := shiftFormula shifts e.formula }

theorem isCut_iff {q : Query} {i : Nat} :
    isCut q i = true ↔ ∃ s ∈ taken q, s.part = .filters ∧ s.index = i := by
  rw [isCut, Bool.not_eq_true', List.isEmpty_eq_false_iff_exists_mem]
  constructor
  · rintro ⟨path, hpath⟩
    obtain ⟨s, hs, hpart, hindex, -⟩ := mem_forkPaths_iff.mp hpath
    exact ⟨s, hs, hpart, hindex⟩
  · rintro ⟨s, hs, hpart, hindex⟩
    exact ⟨s.path, mem_forkPaths_iff.mpr ⟨s, hs, hpart, hindex, rfl⟩⟩

theorem isCut_eq_false_iff {q : Query} {i : Nat} :
    isCut q i = false ↔ forkPaths q .filters i = [] := by
  rw [isCut, Bool.not_eq_false', List.isEmpty_iff]

theorem contains_cutFilters (q : Query) (a : Names) (i : Nat) :
    (cutFilters ((forkGroups q (taken q) a).1.flatMap ForkGroup.cuts)).contains i = isCut q i := by
  obtain ⟨-, hgroups, hsites⟩ := forkGroups_spec q (taken q) a
  rw [Bool.eq_iff_iff, isCut_iff, List.contains_iff_mem, cutFilters]
  simp only [List.mem_map, List.mem_filter, beq_iff_eq]
  constructor
  · rintro ⟨c, ⟨hc, hpart⟩, rfl⟩
    obtain ⟨g, hg, hcg⟩ := List.mem_flatMap.mp hc
    obtain ⟨-, s, hs, -, heq⟩ := (hgroups g hg).cut c hcg
    rw [heq] at hpart ⊢
    exact ⟨s, hs, hpart, rfl⟩
  · rintro ⟨s, hs, hpart, rfl⟩
    obtain ⟨n, hn⟩ := hsites s hs
    exact ⟨s.cut n, ⟨hn, hpart⟩, rfl⟩

/-- The mask of a group in a round. -/
structure GroupMask (q : Query) (a : Names) (g : ForkGroup) (m : Mask) : Prop where
  group : g ∈ (forkGroups q (taken q) a).1
  cuts : m.cuts = g.cuts
  filterIndices : ∀ i, i ∈ m.filterIndices ↔
    ∃ e, q.filters[i]? = some e ∧ isAfter g.signature.laterFilters e = false ∧ isCut q i = false
  filters : maskFilters q m = filtersBefore q g.signature.laterFilters ++
    filtersShifted q g.signature.laterFilters g.shifts

theorem mem_plainFilters {q : Query} {cut : List Nat} {g : ForkGroup} {i : Nat} :
    i ∈ plainFilters q cut g ↔ ∃ e, q.filters[i]? = some e ∧
      isAfter g.signature.laterFilters e = false ∧ cut.contains i = false := by
  simp only [plainFilters, List.mem_map, List.mem_filter, Bool.and_eq_true, Bool.not_eq_true']
  constructor
  · rintro ⟨⟨e, j⟩, ⟨he, hlater, hcut⟩, rfl⟩
    exact ⟨e, List.mem_zipIdx_iff_getElem?.mp he, hlater, hcut⟩
  · rintro ⟨e, he, hlater, hcut⟩
    exact ⟨(e, i), ⟨List.mem_zipIdx_iff_getElem?.mpr he, hlater, hcut⟩, rfl⟩

theorem groupMask_of_mem {q : Query} {a : Names} {m : Mask} (hm : m ∈ (forkMasks q a).1) :
    ∃ g, GroupMask q a g m := by
  obtain ⟨g, hg, heq⟩ := exists_group_of_mask hm
  have hindices : ∀ i, i ∈ m.filterIndices ↔ ∃ e, q.filters[i]? = some e ∧
      isAfter g.signature.laterFilters e = false ∧ isCut q i = false := by
    intro i
    rw [heq, ← contains_cutFilters q a]
    exact mem_plainFilters
  refine ⟨g, hg, by rw [heq]; rfl, hindices, ?_⟩
  rw [maskFilters]
  refine congrArg₂ (· ++ ·) ?_ (by rw [heq]; rfl)
  rw [filtersBefore]
  refine congrArg (List.map Prod.fst) (List.filter_congr fun ei hei => ?_)
  obtain ⟨e, i⟩ := ei
  have he := List.mem_zipIdx_iff_getElem?.mp hei
  rw [Bool.eq_iff_iff, List.contains_iff_mem, hindices, Bool.and_eq_true, Bool.not_eq_true',
    Bool.not_eq_true']
  constructor
  · rintro ⟨e', he', hlater, hcut⟩
    obtain rfl := Option.some.inj (he.symm.trans he')
    exact ⟨hlater, hcut⟩
  · rintro ⟨hlater, hcut⟩
    exact ⟨e, he, hlater, hcut⟩

/-! ## The base -/

/-- Both masks apply the same filters. -/
def SameFilters (m m' : Mask) : Prop :=
  m.filterIndices = m'.filterIndices ∧ m.addFilters = m'.addFilters

theorem SameFilters.maskFilters_eq {q : Query} {m m' : Mask} (h : SameFilters m m') :
    maskFilters q m = maskFilters q m' := by
  rw [maskFilters, maskFilters, h.1, h.2]

/-- The mask can be the base as far as filters are concerned. -/
def AppliesUncut (q : Query) (a : Names) (m : Mask) : Prop :=
  m.filterIndices = uncutFilters q (forkMasks q a).1 ∨ realDimensions q = []

/-- How the base of a plan comes about, and the masks that are left beside it. -/
inductive BaseOf (q : Query) (a : Names) (base : Mask) : List Mask → Prop where
  /-- A base of its own only computes what no fork covers. -/
  | own : (∀ c ∈ base.cuts, c.inner = c.outer) →
      base.filterIndices = uncutFilters q (forkMasks q a).1 → BaseOf q a base (forkMasks q a).1
  /-- Nothing is left over, and one of the masks is the base. -/
  | chosen {i : Nat} {m : Mask} : (forkMasks q a).1[i]? = some m → AppliesUncut q a m →
      base.cuts = m.cuts → SameFilters base m → BaseOf q a base ((forkMasks q a).1.eraseIdx i)
  /-- The only mask, for window calls, is merged into a base of its own. -/
  | merged {m : Mask} : (prioritized (sites q)).1 = true → (forkMasks q a).1 = [m] →
      (∀ c ∈ base.cuts, c ∈ m.cuts ∨ c.inner = c.outer) → SameFilters base m → BaseOf q a base []
  /-- Of two masks for window calls, one is the base and the other is merged into it. -/
  | absorbing {i : Nat} {m m' : Mask} : (prioritized (sites q)).1 = true →
      (forkMasks q a).1[i]? = some m → (forkMasks q a).1.eraseIdx i = [m'] → AppliesUncut q a m →
      base.cuts = m.cuts ++ m'.cuts → SameFilters base m' → BaseOf q a base []

theorem plan_baseOf {q : Query} {a b : Names} {p : Plan} (h : plan q a = (some p, b)) :
    ∃ base others, p.masks = base :: others ∧ BaseOf q a base others := by
  obtain ⟨based, rfl, rfl, -⟩ := plan_eq_some h
  have hflag : ∀ m ∈ (forkMasks q a).1, m.isWindow = (prioritized (sites q)).1 :=
    fun m hm => forkMask_isWindow hm
  rcases withBase_cases q (forkMasks q a).1 (forkMasks q a).2 with
    ⟨i, m, -, hcandidate, hm, heq⟩ | ⟨own, hown, heq⟩
  · have hgood : AppliesUncut q a m :=
      (of_baseCandidate hcandidate hm).2.imp_left fun h => h.2.1
    rw [heq]
    rcases mergeWindows_eq { m with isBase := true } ((forkMasks q a).1.eraseIdx i) with
      hsame | ⟨other, hother, hwindow, hmerged⟩
    · rw [hsame, completeBase_cons]
      exact ⟨_, _, rfl, .chosen hm hgood rfl ⟨rfl, rfl⟩⟩
    · rw [hmerged, completeBase_cons]
      have hmem : other ∈ (forkMasks q a).1 :=
        List.mem_of_mem_eraseIdx (hother ▸ List.mem_singleton.mpr rfl)
      refine ⟨_, _, rfl, .absorbing ?_ hm hother hgood rfl ⟨rfl, rfl⟩⟩
      rcases Bool.or_eq_true_iff.mp hwindow with hwindow | hwindow
      · exact (hflag m (List.mem_of_getElem? hm)).symm.trans hwindow
      · exact (hflag other hmem).symm.trans hwindow
  · have hinner : ∀ c ∈ own.1.cuts, c.inner = c.outer := by
      obtain ⟨-, huncut, -⟩ := uncutCuts_ensures q ((forkMasks q a).1.flatMap Mask.cuts)
        (forkMasks q a).2
      rw [hown]
      exact fun c hc => (huncut c hc).2.1
    have hplain : own.1.isWindow = false := by rw [hown]; rfl
    have hfilters : own.1.filterIndices = uncutFilters q (forkMasks q a).1 := by rw [hown]; rfl
    rw [heq]
    rcases mergeWindows_eq own.1 (forkMasks q a).1 with hsame | ⟨other, hother, hwindow, hmerged⟩
    · rw [hsame, completeBase_cons]
      exact ⟨_, _, rfl, .own hinner hfilters⟩
    · rw [hmerged, completeBase_cons]
      rw [hplain, Bool.false_or, hflag other (by simp [hother])] at hwindow
      refine ⟨_, _, rfl, .merged hwindow hother (fun c hc => ?_) ⟨rfl, rfl⟩⟩
      exact (List.mem_append.mp hc).symm.imp_right (hinner c)

theorem mem_uncutFilters {q : Query} {a : Names} {i : Nat} :
    i ∈ uncutFilters q (forkMasks q a).1 ↔ i < q.filters.length ∧ isCut q i = false := by
  rw [uncutFilters, cuts_forkMasks, List.mem_filter, List.mem_range, contains_cutFilters,
    Bool.not_eq_true']

/-! ## Filters of a fork -/

section Fork

variable {q : Query} {a b : Names} {p : Plan} {s t : Site}

/-- Forks that are taken for window calls alone have the same later filters. -/
theorem laterFilters_eq_of_windows (hwindows : (prioritized (sites q)).1 = true) (hs : s ∈ taken q)
    (ht : t ∈ taken q) : s.laterFilters = t.laterFilters := by
  rw [taken] at hs ht
  rcases prioritized_cases (sites q) with heq | ⟨least, heq, -⟩
  · rw [heq] at hwindows
    exact absurd hwindows (by simp)
  · rw [heq] at hs ht
    have hleast : ∀ {u : Site},
        u ∈ (sites q).filter (fun u => u.isWindow && u.laterFilters == least) →
          u.laterFilters = least := by
      intro u hu
      have := (List.mem_filter.mp hu).2
      simp only [Bool.and_eq_true, beq_iff_eq] at this
      exact this.2
    exact (hleast hs).trans (hleast ht).symm

/-- Signatures that agree have the same leader. -/
theorem leader?_congr {found : List Site} {sig sig' : Signature} (h : sig.agrees sig' = true) :
    leader? q found sig = leader? q found sig' := by
  rw [leader?, leader?]
  refine congrArg (fun f => found.find? f)
    (funext fun u => Bool.eq_iff_iff.mpr ⟨fun hu => ?_, fun hu => ?_⟩)
  · exact Signature.agrees_trans hu h
  · exact Signature.agrees_trans hu (Signature.agrees_symm h)

/-- A group has the later filters and the shifts of its leader. -/
theorem GroupMask.leader {g : ForkGroup} {m : Mask} (h : GroupMask q a g m) :
    ∃ t ∈ taken q, leader? q (taken q) g.signature = some t ∧
      g.signature.laterFilters = t.laterFilters ∧ g.shifts = t.fork.shifts ∧
      g.signature.agrees (signatureOf q t) = true := by
  obtain ⟨t, ht, hsig, hshifts⟩ := ((forkGroups_grouped q (taken q) a).formed g h.group).leader
  refine ⟨t, List.mem_of_find?_eq_some ht, ht, congrArg Signature.laterFilters hsig, hshifts, ?_⟩
  rw [hsig]
  exact Signature.agrees_refl _

theorem GroupMask.agrees {g : ForkGroup} {m : Mask} {n : String} (h : GroupMask q a g m)
    (hs : s ∈ taken q) (hcut : s.cut n ∈ m.cuts) : g.signature.agrees (signatureOf q s) = true := by
  rw [h.cuts] at hcut
  obtain ⟨u, hu, hplace, hagrees, -⟩ :=
    ((forkGroups_grouped q (taken q) a).formed g h.group).cut _ hcut
  obtain rfl := eq_of_cut_eq (mem_sites_of_taken hs) (mem_sites_of_taken hu) hplace
  exact hagrees

/-- The sub-query of a fork has the filters of some group. It is that of the fork, unless the group
of the fork is the base and another one was merged into it. -/
theorem exists_group_of_fork (hplan : plan q a = (some p, b)) (hs : s ∈ taken q) {m : Mask}
    (hm : m ∈ p.masks) {n : String} (hcut : s.cut n ∈ m.cuts) :
    ∃ g m₀, GroupMask q a g m₀ ∧ maskFilters q m = maskFilters q m₀ ∧
      (g.signature.agrees (signatureOf q s) = true ∨
        ((prioritized (sites q)).1 = true ∧ p.masks = [m] ∧ ∃ h m₁, GroupMask q a h m₁ ∧
          h.signature.agrees (signatureOf q s) = true ∧ AppliesUncut q a m₁)) := by
  have hforkCut : ¬ (s.cut n).inner = (s.cut n).outer := by simp [Site.cut]
  have hplain : m ∈ (forkMasks q a).1 → ∃ g m₀, GroupMask q a g m₀ ∧
      maskFilters q m = maskFilters q m₀ ∧ g.signature.agrees (signatureOf q s) = true := by
    intro hmem
    obtain ⟨g, hg⟩ := groupMask_of_mem hmem
    exact ⟨g, m, hg, rfl, hg.agrees hs hcut⟩
  obtain ⟨base, others, hmasks, hbase⟩ := plan_baseOf hplan
  rcases List.mem_cons.mp (hmasks ▸ hm) with rfl | hother
  · cases hbase with
    | own hinner _ => exact absurd (hinner _ hcut) hforkCut
    | @chosen i m₀ hm₀ _ hcuts hsame =>
        obtain ⟨g, hg⟩ := groupMask_of_mem (List.mem_of_getElem? hm₀)
        exact ⟨g, m₀, hg, hsame.maskFilters_eq, Or.inl (hg.agrees hs (hcuts ▸ hcut))⟩
    | @merged m₀ _ honly hcuts hsame =>
        obtain ⟨g, hg⟩ := groupMask_of_mem (honly ▸ List.mem_singleton.mpr rfl : m₀ ∈ _)
        have hcut := (hcuts _ hcut).resolve_right hforkCut
        exact ⟨g, m₀, hg, hsame.maskFilters_eq, Or.inl (hg.agrees hs hcut)⟩
    | @absorbing i m₁ m₀ hwindows hm₁ hrest hgood hcuts hsame =>
        have hm₀ : m₀ ∈ (forkMasks q a).1 :=
          List.mem_of_mem_eraseIdx (hrest ▸ List.mem_singleton.mpr rfl)
        obtain ⟨g, hg⟩ := groupMask_of_mem hm₀
        refine ⟨g, m₀, hg, hsame.maskFilters_eq, ?_⟩
        rw [hcuts] at hcut
        rcases List.mem_append.mp hcut with hcut | hcut
        · obtain ⟨h, hh⟩ := groupMask_of_mem (List.mem_of_getElem? hm₁)
          exact Or.inr ⟨hwindows, hmasks, h, m₁, hh, hh.agrees hs hcut, hgood⟩
        · exact Or.inl (hg.agrees hs hcut)
  · have hmem : m ∈ (forkMasks q a).1 := by
      cases hbase with
      | own => exact hother
      | chosen => exact List.mem_of_mem_eraseIdx hother
      | merged | absorbing => exact absurd hother List.not_mem_nil
    obtain ⟨g, m₀, hg, hfilters, hagrees⟩ := hplain hmem
    exact ⟨g, m₀, hg, hfilters, Or.inl hagrees⟩

/-- A mask that can be the base of a query with dimensions leaves out no filter but those cut. -/
theorem GroupMask.later_cut {g : ForkGroup} {m : Mask} (h : GroupMask q a g m)
    (hgood : AppliesUncut q a m) (hreal : realDimensions q ≠ []) {i : Nat} {e : Entry}
    (he : q.filters[i]? = some e) (hlater : isAfter g.signature.laterFilters e = true) :
    isCut q i = true := by
  by_contra hcut
  rw [Bool.not_eq_true] at hcut
  have hmem : i ∈ m.filterIndices := by
    rw [hgood.resolve_right hreal, mem_uncutFilters]
    exact ⟨(List.getElem?_eq_some_iff.mp he).1, hcut⟩
  obtain ⟨e', he', hbefore, -⟩ := (h.filterIndices i).mp hmem
  obtain rfl := Option.some.inj (he.symm.trans he')
  exact absurd (hbefore.symm.trans hlater) (by simp)

/-- The sub-query that computes a fork applies every filter that is neither cut nor later, as it is,
and of the later filters those that are shifted, in their shifted form. The shifts are those of the
leader of the fork. They belong to a fork of another group only if the round merges two groups of
window calls, and then the query has no dimensions or all later filters are cut. -/
theorem fork_filters {qs : List Query} (hplan : plan q a = (some p, b))
    (hqs : p.queries q = .ok qs) (hs : s ∈ taken q) :
    (∃ m ∈ p.masks, ∃ n, s.cut n ∈ m.cuts) ∧
      ∀ m ∈ p.masks, ∀ n, s.cut n ∈ m.cuts →
        ∃ sub ∈ qs, sub.id = m.queryId ∧ (∃ e ∈ sub.select, e.aliasName = some n) ∧
          ∃ t ∈ taken q,
            sub.filters = filtersBefore q s.laterFilters ++
              filtersShifted q s.laterFilters t.fork.shifts ∧
            (leader? q (taken q) (signatureOf q s) = some t ∨
              ((prioritized (sites q)).1 = true ∧ p.masks = [m] ∧
                (signatureOf q t).agrees (signatureOf q s) = false ∧
                (realDimensions q = [] ∨ ∀ i e, q.filters[i]? = some e →
                  isAfter s.laterFilters e = true → isCut q i = true))) := by
  obtain ⟨-, hplanned⟩ := plan_spec hplan
  obtain ⟨forks, hcuts⟩ := hplanned.cuts
  obtain ⟨subs, c, rfl, hround⟩ := queries_spec hqs
  refine ⟨?_, fun m hm n hcut => ?_⟩
  · obtain ⟨n, hn⟩ := hcuts.site s hs
    obtain ⟨m, hm, hcut⟩ := List.mem_flatMap.mp (hcuts.fork_mem _ hn)
    exact ⟨m, hm, n, hcut⟩
  obtain ⟨sub, hsub, hof⟩ := forall₂_exists_right hround.subqueries hm
  obtain ⟨es, hselected, hselect⟩ := hof.select
  obtain ⟨-, -, e, he, halias, -⟩ := hselected.column _ hcut
  refine ⟨sub, List.mem_append_left _ hsub, hof.id,
    ⟨e, hselect ▸ List.mem_append_left _ he, halias⟩, ?_⟩
  obtain ⟨g, m₀, hg, hfilters, hcause⟩ := exists_group_of_fork hplan hs hm hcut
  obtain ⟨t, ht, hleader, hlater, hshifts, hagrees⟩ := hg.leader
  have hsame : g.signature.laterFilters = s.laterFilters := by
    rcases hcause with hgs | ⟨hwindows, -⟩
    · exact (Signature.agrees_iff.mp hgs).2.2.2.1
    · exact hlater.trans (laterFilters_eq_of_windows hwindows ht hs)
  refine ⟨t, ht, ?_, ?_⟩
  · rw [hof.filters, hfilters, hg.filters, hsame, hshifts]
  · by_cases hgs : g.signature.agrees (signatureOf q s) = true
    · exact Or.inl ((leader?_congr hgs).symm.trans hleader)
    · obtain ⟨hwindows, hone, h, m₁, hh, hhs, hgood⟩ := hcause.resolve_left hgs
      refine Or.inr ⟨hwindows, hone, ?_, ?_⟩
      · rw [← Bool.not_eq_true]
        exact fun hts => hgs (Signature.agrees_trans hagrees hts)
      · refine or_iff_not_imp_left.mpr fun hreal i e he hafter => ?_
        refine hh.later_cut hgood hreal he ?_
        rw [(Signature.agrees_iff.mp hhs).2.2.2.1]
        exact hafter

end Fork

/-! ## Examples -/

/-- The sales of the day before, for a single date. -/
def dayBeforeDate : QuerySpec :=
  { dayBefore sumOfSales with
    filters := [⟨.binary "==" (.field "date") (.date 2024 1 8), some "date", none⟩] }

/-- The filter on the date is applied to the date that is looked up. -/
theorem fork_filters_dayBeforeDate :
    ∃ q p b qs sub, dayBeforeDate.compile orders .default = .ok q ∧
      plan q .start = (some p, b) ∧ p.queries q = .ok qs ∧ sub ∈ qs ∧
      (sub.filters.map Entry.formula ==
        [.binary "==" (.call "dateadd" [.field "date"]) (.date 2024 1 8)]) = true := by
  have hok : ((dayBeforeDate.compile orders .default).toOption.any fun q =>
      (plan q .start).1.any fun p => (p.queries q).toOption.isSome &&
        !(prioritized (sites q)).1 && (taken q).any fun s =>
          (leader? q (taken q) (signatureOf q s)).any fun t =>
            (filtersBefore q s.laterFilters ++
              filtersShifted q s.laterFilters t.fork.shifts).map Entry.formula ==
                [.binary "==" (.call "dateadd" [.field "date"]) (.date 2024 1 8)]) = true := by
    decide +kernel
  obtain ⟨q, hq, htest⟩ := exists_eq_ok hok
  rw [Option.any_eq_true] at htest
  obtain ⟨p, hp, htest⟩ := htest
  simp only [Bool.and_eq_true, Bool.not_eq_true', List.any_eq_true, Option.any_eq_true] at htest
  obtain ⟨⟨hsome, hwindows⟩, s, hs, t, ht, hfilters⟩ := htest
  obtain ⟨qs, hqs, -⟩ := exists_eq_ok (p := fun _ => true)
    (show (p.queries q).toOption.any (fun _ => true) = true by simpa [Option.any_true] using hsome)
  have hplan : plan q .start = (some p, (plan q .start).2) := Prod.ext hp rfl
  obtain ⟨⟨m, hm, n, hcut⟩, hall⟩ := fork_filters hplan hqs hs
  obtain ⟨sub, hsub, -, -, t', -, heq, hcause⟩ := hall m hm n hcut
  refine ⟨q, p, _, qs, sub, hq, hplan, hqs, hsub, ?_⟩
  rcases hcause with hleader | ⟨hflag, -⟩
  · obtain rfl := Option.some.inj (ht.symm.trans hleader)
    rw [heq]
    exact hfilters
  · exact absurd (hwindows.symm.trans hflag) (by simp)

/-- For a single date, the sum of two ranks over all rows: that of the day before among cities, and
that of all sales before the filter. Only the first one shifts the filter. -/
def twoRanks : Query :=
  let later := NameSet.ofList ["date"]
  let dayBefore := Formula.call "dateadd" [.field "date"]
  let sum (dims : List Formula) :=
    Formula.of (.fork ⟨.left, sumOfSales, [], .fixed dims, later, []⟩)
  let rank (f : Formula) := Formula.window "rank" [f] .total [] later
  let ofCities := Formula.of (.fork
    ⟨.left, rank (sum [.field "city"]), [], .inherited, later, [⟨.field "date", dayBefore⟩]⟩)
  let ofAll := Formula.of (.fork ⟨.left, rank (sum []), [], .fixed [], later, []⟩)
  { Query.empty "q" with
    select := [Entry.of (.binary "+" ofCities ofAll)]
    filters := [{ Entry.of (.binary "==" (.field "date") (.date 2024 1 8)) with
      fieldId := some "date" }]
    sources := [.table "t" "t" "orders"] }

/-- The round computes a fork under one of its later filters although the group of the fork shifts
nothing. -/
def appliesLater (q : Query) (a : Names) : Bool :=
  (plan q a).1.any fun p => (p.queries q).toOption.any fun qs => (taken q).any fun s =>
    (leader? q (taken q) (signatureOf q s)).any fun t => t.fork.shifts.isEmpty &&
      qs.any fun sub => (sub.filters.any fun e => isAfter s.laterFilters e) &&
        (p.masks.flatMap Mask.cuts).any fun c => c == s.cut c.aliasName &&
          sub.select.any fun e => e.aliasName == some c.aliasName

/-- The rank of all sales is computed under the shifted filter of the rank among cities. -/
theorem fork_filters_twoRanks :
    ∃ p b qs s t sub n, plan twoRanks .start = (some p, b) ∧ p.queries twoRanks = .ok qs ∧
      s ∈ taken twoRanks ∧ leader? twoRanks (taken twoRanks) (signatureOf twoRanks s) = some t ∧
      t.fork.shifts = [] ∧ sub ∈ qs ∧ p.Gives s n ∧ (∃ e ∈ sub.select, e.aliasName = some n) ∧
      ∃ e ∈ sub.filters, isAfter s.laterFilters e = true := by
  have h : appliesLater twoRanks .start = true := by decide +kernel
  rw [appliesLater, Option.any_eq_true] at h
  obtain ⟨p, hp, h⟩ := h
  obtain ⟨qs, hqs, h⟩ := exists_eq_ok h
  simp only [List.any_eq_true, Option.any_eq_true, Bool.and_eq_true, List.isEmpty_iff,
    beq_iff_eq] at h
  obtain ⟨s, hs, t, ht, hshifts, sub, hsub, hfilter, c, hc, hsc, hselect⟩ := h
  exact ⟨p, (plan twoRanks .start).2, qs, s, t, sub, c.aliasName, Prod.ext hp rfl, hqs, hs, ht,
    hshifts, hsub, hsc ▸ hc, hselect, hfilter⟩

end FormulaSql.Split
