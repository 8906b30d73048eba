import FormulaSql.Proofs.Split.Disjoint
import FormulaSql.Proofs.Split.Extras
import FormulaSql.Proofs.Split.Filters

/-!
# What masks hand on

A sub-query gets what is inside of the forks it computes and the filters of its mask. The mask cuts
none of these filters, with one exception: a fork can ask for a filter that it stands in itself to
come later. If the filter is shifted too, the sub-query of the fork gets the filter and with it the
fork.

* `Split.plan_hands` says where the filters of a mask come from
* `Split.plan_extras` says that whatever else is selected has no forks
-/

namespace FormulaSql

/-- All forks of a formula. -/
def Formula.forks (f : Formula) : List (Fork Formula) := f.nodes.filterMap fork?

namespace Query

/-- No fork is in a dimension, and a fork inside of another one is in its result. -/
structure ForksNested (q : Query) : Prop where
  groupBy : ∀ e ∈ q.groupBy, e.formula.containsFork = false
  fork : ∀ p ∈ Part.splittable, ∀ e ∈ q.part p, e.formula.ForksInResults

instance (q : Query) : Decidable q.ForksNested :=
  decidable_of_iff ((∀ e ∈ q.groupBy, e.formula.containsFork = false) ∧
      ∀ p ∈ Part.splittable, ∀ e ∈ q.part p, e.formula.ForksInResults)
    ⟨fun h => ⟨h.1, h.2⟩, fun h => ⟨h.groupBy, h.fork⟩⟩

/-- All shifts of filters that forks of the query ask for. -/
def shifts (q : Query) : List (FilterShift Formula) :=
  Part.splittable.flatMap fun p => (q.part p).flatMap fun e => e.formula.forks.flatMap Fork.shifts

end Query

namespace Split

/-- The filter is to come after a fork that stands in it. -/
def awaitsItself (e : Entry) : Bool := e.formula.forks.any fun x => isAfter x.beforeFilterBy e

/-- Some fork of the query shifts the filter. -/
def isShifted (q : Query) (e : Entry) : Bool :=
  q.shifts.any fun s => e.formula.containsNode s.source

/-! ## Forks after rewriting -/

theorem forksFrom_plainAggregate (f : Formula) : f.ForksFrom (plainAggregate f) := by
  unfold plainAggregate
  split
  next c hc =>
    split
    next =>
      intro p y hy hfork
      cases p with
      | nil =>
          obtain rfl := Option.some.inj hy
          exact absurd hfork (by simp [Formula.isFork, Formula.fork?, Formula.kind])
      | cons i p =>
          refine ⟨y, ?_, rfl⟩
          rw [Formula.at?] at hy ⊢
          split at hy
          next d hd =>
            have hchild : f.children[i]? = some d := by
              simp only [Formula.children, Formula.kind, Kind.children, Lod.dims,
                List.append_nil] at hd
              rw [Formula.children, hc, Kind.children, List.append_assoc]
              exact List.getElem?_append_left (List.getElem?_eq_some_iff.mp hd).1 ▸ hd
            rw [hchild]
            exact hy
          next => exact absurd hy (by simp)
    next => exact .refl f
  next => exact .refl f

theorem forksFrom_withColumns (alias? : Formula → Option String) (f : Formula) :
    f.ForksFrom (withColumns alias? f) := by
  refine Formula.forksFrom_transform f fun above g r hr => ?_
  obtain ⟨n, -, rfl⟩ := Option.map_eq_some_iff.mp hr
  exact not_containsFork_columnAt g n

theorem forksFrom_replaceCuts {q : Query} {cuts : List Cut} {f g : Formula}
    (h : replaceCuts q cuts f = .ok g) : f.ForksFrom g := by
  induction cuts generalizing f with
  | nil => exact Except.ok.inj h ▸ .refl f
  | cons c cs ih =>
      obtain ⟨f', hf', h⟩ := replaceCuts_cons h
      exact (Formula.forksFrom_replaceAt? (not_containsFork_field _) hf').trans (ih h)

theorem forksFrom_shiftFormula {shifts : List (FilterShift Formula)} (f : Formula)
    (h : ∀ s ∈ shifts, s.target.containsFork = false) : f.ForksFrom (shiftFormula shifts f) := by
  rw [shiftFormula]
  induction shifts generalizing f with
  | nil => exact .refl f
  | cons s ss ih =>
      refine .trans ?_ (ih _ fun t ht => h t (List.mem_cons_of_mem s ht))
      refine Formula.forksFrom_transform f fun above g r hr => ?_
      rw [Formula.replaceRule] at hr
      split at hr
      · exact Option.some.inj hr ▸ h s List.mem_cons_self
      · exact absurd hr (by simp)

theorem Cropped.forksFrom {q : Query} {base : Mask} {cuts : List Cut} {compatible : Bool}
    {p : Part} {e : Entry} {f : Formula} (h : Cropped q base cuts compatible p e f) :
    e.formula.ForksFrom f := by
  cases h with
  | constant => exact .refl _
  | dimension => exact Formula.forksFrom_of_not_containsFork _ (not_containsFork_columnAt _ _)
  | incompatible => exact Formula.forksFrom_of_not_containsFork _ rfl
  | cut _ _ _ hg =>
      have hcut := forksFrom_replaceCuts hg
      split
      · exact hcut.trans (forksFrom_withColumns _ _)
      · exact hcut

/-! ## Forks that are taken -/

section Taken

variable {q : Query} {s : Site}

theorem forkAt_of_mem_sites (hs : s ∈ sites q) :
    ∃ e f, (q.part s.part)[s.index]? = some e ∧ e.formula.at? s.path = some f ∧
      f.fork? = some s.fork := by
  obtain ⟨-, e, he, hmem, -⟩ := mem_sites_iff.mp hs
  obtain ⟨f, hf, hfork⟩ := Formula.at?_of_mem_outermostForks hmem
  exact ⟨e, f, he, hf, hfork⟩

theorem mem_forkPlaces_of_taken (hs : s ∈ taken q) : s.place ∈ q.forkPlaces := by
  obtain ⟨e, f, he, hf, hfork⟩ := forkAt_of_mem_sites (mem_sites_of_taken hs)
  have hpart := (mem_sites_iff.mp (mem_sites_of_taken hs)).1
  exact Query.mem_forkPlaces hpart (Query.nodeAt?_eq_some.mpr ⟨e, he, hf⟩)
    (Formula.isFork_of_fork? hfork)

/-- Beside its result a fork has no other fork in it. -/
theorem not_containsFork_beside (hq : q.ForksNested) (hs : s ∈ sites q) {d : Formula}
    (hd : d ∈ (Kind.fork s.fork).children.tail) : d.containsFork = false := by
  obtain ⟨e, f, he, hf, hfork⟩ := forkAt_of_mem_sites hs
  have hpart := (mem_sites_iff.mp hs).1
  refine hq.fork s.part hpart e (List.mem_of_getElem? he) f (Formula.mem_nodes_of_at? hf) ?_ d ?_
  · exact Formula.isFork_of_fork? hfork
  · rw [Formula.children, Formula.kind_of_fork? hfork]
    exact hd

theorem mem_shifts_of_taken (hs : s ∈ sites q) {t : FilterShift Formula}
    (ht : t ∈ s.fork.shifts) : t ∈ q.shifts := by
  obtain ⟨e, f, he, hf, hfork⟩ := forkAt_of_mem_sites hs
  have hpart := (mem_sites_iff.mp hs).1
  refine List.mem_flatMap.mpr ⟨s.part, hpart, List.mem_flatMap.mpr
    ⟨e, List.mem_of_getElem? he, List.mem_flatMap.mpr ⟨s.fork, ?_, ht⟩⟩⟩
  exact List.mem_filterMap.mpr ⟨f, Formula.mem_nodes_of_at? hf, hfork⟩

/-- A filter that comes after a fork that stands in it awaits itself. -/
theorem awaitsItself_of_isAfter {e : Entry} (hs : s ∈ sites q) (hpart : s.part = .filters)
    (he : q.filters[s.index]? = some e) (h : isAfter s.laterFilters e = true) :
    awaitsItself e = true := by
  obtain ⟨e', f, he', hf, hfork⟩ := forkAt_of_mem_sites hs
  rw [hpart] at he'
  obtain rfl := Option.some.inj (he.symm.trans he')
  obtain ⟨-, -, -, -, hlater⟩ := mem_sites_iff.mp hs
  refine List.any_eq_true.mpr ⟨s.fork, List.mem_filterMap.mpr
    ⟨f, Formula.mem_nodes_of_at? hf, hfork⟩, ?_⟩
  rw [isAfter] at h ⊢
  split at h
  next id _ =>
    rw [hlater] at h
    have hmem : id ∈ s.fork.beforeFilterBy.toList.filter q.filterIds.contains :=
      List.contains_iff_mem.mp h
    exact List.contains_iff_mem.mpr (List.mem_filter.mp hmem).1
  next => exact absurd h (by simp)

end Taken

/-! ## What a mask hands on -/

/-- The entry is made of the filter at the position. -/
def HandedOn (q : Query) (i : Nat) (e' : Entry) : Prop :=
  ∃ e, q.filters[i]? = some e ∧ e.formula.ForksFrom e'.formula ∧ e'.fieldId = e.fieldId

/-- The positions are those of the filters that a mask takes over. -/
structure Takes (q : Query) (m : Mask) (is : List Nat) : Prop where
  nodup : is.Nodup
  handed : List.Forall₂ (HandedOn q) is (maskFilters q m)

/-- The mask cuts none of the filters it takes over, and there is a fork that stands in none of
these. -/
def Hands (q : Query) (m : Mask) : Prop :=
  ∃ is, Takes q m is ∧ (∀ c ∈ m.cuts, c.part = .filters → c.index ∉ is) ∧
    ∃ s ∈ taken q, s.part = .filters → s.index ∉ is

section Hands

variable {q : Query} {a b : Names} {p : Plan} {g : ForkGroup} {m m' : Mask}

theorem Takes.congr {is : List Nat} (h : Takes q m is) (hsame : SameFilters m' m) :
    Takes q m' is := ⟨h.nodup, hsame.maskFilters_eq ▸ h.handed⟩

theorem Hands.congr (h : Hands q m) (hcuts : m'.cuts = m.cuts) (hsame : SameFilters m' m) :
    Hands q m' := by
  obtain ⟨is, htakes, hnot, hleft⟩ := h
  exact ⟨is, htakes.congr hsame, hcuts ▸ hnot, hleft⟩

/-- Filters that are picked from those of the query. -/
theorem forall₂_handedOn {xs : List (Entry × Nat)} (h : xs.Sublist q.filters.zipIdx)
    {f : Entry → Entry}
    (hf : ∀ ei ∈ xs, ei.1.formula.ForksFrom (f ei.1).formula ∧ (f ei.1).fieldId = ei.1.fieldId) :
    List.Forall₂ (HandedOn q) (xs.map Prod.snd) (xs.map fun ei => f ei.1) := by
  rw [List.forall₂_map_left_iff, List.forall₂_map_right_iff]
  refine List.forall₂_same.mpr fun ei hei => ?_
  exact ⟨ei.1, List.mem_zipIdx_iff_getElem?.mp (h.subset hei), hf ei hei⟩

theorem nodup_map_snd {xs : List (Entry × Nat)} (h : xs.Sublist q.filters.zipIdx) :
    (xs.map Prod.snd).Nodup :=
  List.pairwise_map.mpr ((pairwise_zipIdx q.filters).sublist h)

/-- A mask that takes filters over as they are. -/
theorem takes_of_plain (hadd : m.addFilters = []) :
    ∃ is, Takes q m is ∧ ∀ i ∈ is, i ∈ m.filterIndices := by
  have hsub : (q.filters.zipIdx.filter fun ei => m.filterIndices.contains ei.2).Sublist
      q.filters.zipIdx := List.filter_sublist
  refine ⟨_, ⟨nodup_map_snd hsub, ?_⟩, fun i hi => ?_⟩
  · rw [maskFilters, hadd, List.append_nil]
    exact forall₂_handedOn hsub (f := id) fun ei _ => ⟨.refl _, rfl⟩
  · obtain ⟨ei, hei, rfl⟩ := List.mem_map.mp hi
    exact List.contains_iff_mem.mp (List.mem_filter.mp hei).2

/-- A group takes over filters as they are or shifted. A fork with the same later filters stands in
none of them. -/
theorem GroupMask.takes (h : GroupMask q a g m) (hq : q.ForksNested)
    (hfilters : ∀ e ∈ q.filters, awaitsItself e = true → isShifted q e = false) :
    ∃ is, Takes q m is ∧ ∀ t ∈ taken q, t.part = .filters →
      t.laterFilters = g.signature.laterFilters → t.index ∉ is := by
  obtain ⟨leader, hleader, -, hlater, hshifts, -⟩ := h.leader
  let before := q.filters.zipIdx.filter fun ei =>
    !isAfter g.signature.laterFilters ei.1 && !isCut q ei.2
  let shifted := q.filters.zipIdx.filter fun ei => isAfter g.signature.laterFilters ei.1 &&
    g.shifts.any fun s => ei.1.formula.containsNode s.source
  have hbefore : before.Sublist q.filters.zipIdx := List.filter_sublist
  have hshifted : shifted.Sublist q.filters.zipIdx := List.filter_sublist
  have htarget : ∀ s ∈ g.shifts, s.target.containsFork = false := by
    intro s hs
    rw [hshifts] at hs
    refine not_containsFork_beside hq (mem_sites_of_taken hleader) ?_
    simp only [Kind.children, List.cons_append, List.tail_cons, List.mem_append, List.mem_flatMap]
    exact Or.inr ⟨s, hs, by simp [FilterShift.parts]⟩
  refine ⟨before.map Prod.snd ++ shifted.map Prod.snd, ⟨?_, ?_⟩, ?_⟩
  · refine List.nodup_append.mpr ⟨nodup_map_snd hbefore, nodup_map_snd hshifted, ?_⟩
    intro i hi j hj hij
    obtain ⟨⟨e, i⟩, he, rfl⟩ := List.mem_map.mp hi
    obtain ⟨⟨e', j⟩, he', rfl⟩ := List.mem_map.mp hj
    obtain ⟨hmem, hnot⟩ := List.mem_filter.mp he
    obtain ⟨hmem', hafter⟩ := List.mem_filter.mp he'
    obtain rfl : i = j := hij
    obtain rfl : e = e' := Option.some.inj ((List.mem_zipIdx_iff_getElem?.mp hmem).symm.trans
      (List.mem_zipIdx_iff_getElem?.mp hmem'))
    simp only [Bool.and_eq_true, Bool.not_eq_true'] at hnot hafter
    exact absurd (hnot.1.symm.trans hafter.1) (by simp)
  · rw [h.filters]
    refine List.rel_append (forall₂_handedOn hbefore (f := id) fun ei _ => ⟨.refl _, rfl⟩) ?_
    have hmap : filtersShifted q g.signature.laterFilters g.shifts =
        shifted.map fun ei => { ei.1 with formula := shiftFormula g.shifts ei.1.formula } := by
      rw [filtersShifted, ← List.zipIdx_map_fst 0 q.filters, List.filter_map, List.map_map]
      rfl
    rw [hmap]
    exact forall₂_handedOn hshifted
      (f := fun e => { e with formula := shiftFormula g.shifts e.formula })
      fun ei _ => ⟨forksFrom_shiftFormula _ htarget, rfl⟩
  · intro t ht hpart hsame hmem
    rcases List.mem_append.mp hmem with hmem | hmem
    · obtain ⟨⟨e, i⟩, he, hi⟩ := List.mem_map.mp hmem
      have hcut : isCut q i = true := isCut_iff.mpr ⟨t, ht, hpart, hi.symm⟩
      simp [before, hcut] at he
    · obtain ⟨⟨e, i⟩, he, rfl⟩ := List.mem_map.mp hmem
      obtain ⟨hmem, hafter⟩ := List.mem_filter.mp he
      rw [Bool.and_eq_true, ← hsame] at hafter
      have hentry := List.mem_zipIdx_iff_getElem?.mp hmem
      have hself := awaitsItself_of_isAfter (mem_sites_of_taken ht) hpart hentry hafter.1
      have hnot := hfilters e (List.mem_of_getElem? hentry) hself
      obtain ⟨s, hs, hsource⟩ := List.any_eq_true.mp hafter.2
      rw [hshifts] at hs
      have hmem := mem_shifts_of_taken (mem_sites_of_taken hleader) hs
      exact absurd (hnot.symm.trans (List.any_eq_true.mpr ⟨s, hmem, hsource⟩)) (by simp)

theorem mem_forkDims {lod : Lod Formula} {d : Formula} (h : d ∈ forkDims q lod) :
    d ∈ q.dimensions ∨ d ∈ lod.dims := by
  unfold forkDims at h
  split at h
  next dims => exact Or.inr h
  next => exact Lod.mem_resolve h

/-- What the sub-query of a fork selects beside its cuts has no forks. -/
theorem not_containsFork_selection {s : Site} (hq : q.ForksNested) (hs : s ∈ taken q) :
    ∀ x ∈ (signatureOf q s).selection, x.1.containsFork = false := by
  have hbeside : ∀ {d : Formula}, d ∈ (Kind.fork s.fork).children.tail → d.containsFork = false :=
    not_containsFork_beside hq (mem_sites_of_taken hs)
  intro x hx
  rcases List.mem_append.mp hx with hx | hx
  · obtain ⟨d, hd, rfl⟩ := List.mem_map.mp hx
    simp only [signatureOf] at hd
    split at hd
    next => exact List.mem_singleton.mp hd ▸ rfl
    next =>
      rcases mem_forkDims hd with hdim | hdim
      · obtain ⟨e, he, hformula⟩ := List.mem_map.mp hdim
        exact hformula ▸ hq.groupBy e he
      · refine hbeside ?_
        simp only [Kind.children, List.cons_append, List.tail_cons, List.append_assoc,
          List.mem_append]
        exact Or.inr (Or.inl hdim)
  · obtain ⟨d, hd, rfl⟩ := List.mem_map.mp hx
    obtain ⟨c, hc, hpart⟩ := List.mem_flatMap.mp (List.mem_filter.mp hd).1
    simp only [signatureOf] at hc
    split at hc
    next =>
      obtain rfl := List.mem_singleton.mp hc
      exact List.mem_singleton.mp hpart ▸ rfl
    next =>
      refine hbeside ?_
      simp only [Kind.children, List.cons_append, List.tail_cons, List.append_assoc,
        List.mem_append, List.mem_flatMap]
      exact Or.inl ⟨c, hc, hpart⟩

/-- A cut in a filter is there for a fork in it. -/
theorem isCut_of_cut {forks all : List Cut} {c : Cut} (hcuts : CutsOf q forks all) (hc : c ∈ all)
    (hpart : c.part = .filters) : isCut q c.index = true := by
  have hfork : ∀ d ∈ forks, d.part = .filters → isCut q d.index = true := by
    intro d hd hpart
    obtain ⟨s, hs, heq⟩ := hcuts.fork d hd
    rw [heq] at hpart ⊢
    exact isCut_iff.mpr ⟨s, hs, hpart, rfl⟩
  rcases hcuts.other c hc with hmem | ⟨-, -, e, -, hpath⟩
  · exact hfork c hmem hpart
  · rw [uncutEntry, hpart] at hpath
    split at hpath
    next => exact absurd hpath List.not_mem_nil
    next hnot =>
      simp only [beq_self_eq_true, Bool.true_and, Bool.or_eq_true, not_or,
        Bool.not_eq_true, List.isEmpty_eq_false_iff_exists_mem] at hnot
      obtain ⟨-, path, hpath⟩ := hnot
      obtain ⟨d, hd, -⟩ := List.mem_map.mp hpath
      obtain ⟨hd, hplace⟩ := List.mem_filter.mp hd
      simp only [Bool.and_eq_true, beq_iff_eq] at hplace
      exact hplace.2 ▸ hfork d hd hplace.1

/-- Forks of a round for window calls have the later filters of every group. -/
theorem GroupMask.laterFilters_eq (h : GroupMask q a g m)
    (hwindows : (prioritized (sites q)).1 = true) {t : Site} (ht : t ∈ taken q) :
    t.laterFilters = g.signature.laterFilters := by
  obtain ⟨leader, hleader, -, hlater, -⟩ := h.leader
  exact (laterFilters_eq_of_windows hwindows ht hleader).trans hlater.symm

theorem GroupMask.hands (h : GroupMask q a g m) (hq : q.ForksNested)
    (hfilters : ∀ e ∈ q.filters, awaitsItself e = true → isShifted q e = false) : Hands q m := by
  obtain ⟨is, htakes, hnot⟩ := h.takes hq hfilters
  obtain ⟨leader, hleader, -, hlater, -⟩ := h.leader
  refine ⟨is, htakes, fun c hc hpart => ?_, leader, hleader, fun hpart => ?_⟩
  · rw [h.cuts] at hc
    obtain ⟨s, hs, heq, hagrees, -⟩ :=
      ((forkGroups_grouped q (taken q) a).formed g h.group).cut c hc
    have hsame : s.laterFilters = g.signature.laterFilters :=
      (Signature.agrees_iff.mp hagrees).2.2.2.1.symm
    rw [heq] at hpart ⊢
    exact hnot s hs hpart hsame
  · exact hnot leader hleader hpart hlater.symm

/-- Masks that take over uncut filters only. -/
theorem hands_of_uncut {forks all : List Cut} (hcuts : CutsOf q forks all) (htaken : taken q ≠ [])
    (hm : ∀ c ∈ m.cuts, c ∈ all) {is : List Nat} (htakes : Takes q m is)
    (huncut : ∀ i ∈ is, isCut q i = false) : Hands q m := by
  have hnot : ∀ {i : Nat}, isCut q i = true → i ∉ is :=
    fun hcut hi => absurd ((huncut _ hi).symm.trans hcut) (by simp)
  obtain ⟨s, hs⟩ := List.exists_mem_of_ne_nil _ htaken
  refine ⟨is, htakes, fun c hc hpart => ?_, s, hs, fun hpart => ?_⟩
  · exact hnot (isCut_of_cut hcuts (hm c hc) hpart)
  · exact hnot (isCut_iff.mpr ⟨s, hs, hpart, rfl⟩)

/-- A mask for window calls into which the base is merged. -/
theorem GroupMask.hands_merged (h : GroupMask q a g m) (hq : q.ForksNested)
    (hfilters : ∀ e ∈ q.filters, awaitsItself e = true → isShifted q e = false)
    (hwindows : (prioritized (sites q)).1 = true) {forks all : List Cut}
    (hcuts : CutsOf q forks all) (htaken : taken q ≠ []) (hm : ∀ c ∈ m'.cuts, c ∈ all)
    (hsame : SameFilters m' m) : Hands q m' := by
  obtain ⟨is, htakes, hnot⟩ := h.takes hq hfilters
  refine hands_of_uncut hcuts htaken hm (htakes.congr hsame) fun i hi => ?_
  rw [← Bool.not_eq_true, isCut_iff]
  rintro ⟨t, ht, hpart, rfl⟩
  exact hnot t ht hpart (h.laterFilters_eq hwindows ht) hi

theorem completeBase_mem {masks : List Mask} (hm : m ∈ (completeBase masks b).1) :
    ∃ m' ∈ masks, m.cuts = m'.cuts ∧ SameFilters m m' := by
  cases masks with
  | nil => exact absurd hm List.not_mem_nil
  | cons base others =>
      rcases List.mem_cons.mp hm with rfl | hm
      · exact ⟨base, List.mem_cons_self, rfl, rfl, rfl⟩
      · exact ⟨m, List.mem_cons_of_mem base hm, rfl, rfl, rfl⟩

/-- The base hands on what it should, before window calls are merged into it. -/
theorem withBase_hands (hq : q.ForksNested)
    (hfilters : ∀ e ∈ q.filters, awaitsItself e = true → isShifted q e = false)
    (htaken : taken q ≠ []) {forks : List Cut}
    (hcuts : CutsOf q forks
      ((withBase q (forkMasks q a).1 (forkMasks q a).2).1.flatMap Mask.cuts)) :
    ∃ base others, (withBase q (forkMasks q a).1 (forkMasks q a).2).1 = base :: others ∧
      Hands q base ∧ (base.isWindow = true → (prioritized (sites q)).1 = true) ∧
      ∀ m ∈ others, m ∈ (forkMasks q a).1 := by
  rcases withBase_cases q (forkMasks q a).1 (forkMasks q a).2 with
    ⟨i, m, -, -, hm, heq⟩ | ⟨own, hown, heq⟩
  · have hmem := List.mem_of_getElem? hm
    obtain ⟨g, hg⟩ := groupMask_of_mem hmem
    refine ⟨_, _, congrArg Prod.fst heq, (hg.hands hq hfilters).congr rfl ⟨rfl, rfl⟩,
      fun h => (forkMask_isWindow hmem).symm.trans h, fun m hm => List.mem_of_mem_eraseIdx hm⟩
  · have hplain : own.1.isWindow = false := by rw [hown]; rfl
    have hindices : own.1.filterIndices = uncutFilters q (forkMasks q a).1 := by rw [hown]; rfl
    have hadd : own.1.addFilters = [] := by rw [hown]; rfl
    refine ⟨_, _, congrArg Prod.fst heq, ?_, fun h => absurd (hplain.symm.trans h) (by simp),
      fun m hm => hm⟩
    obtain ⟨is, htakes, his⟩ := takes_of_plain (q := q) hadd
    refine hands_of_uncut hcuts htaken (fun c hc => ?_) htakes fun i hi => ?_
    · rw [heq]
      exact List.mem_flatMap.mpr ⟨_, List.mem_cons_self, hc⟩
    · exact (mem_uncutFilters.mp (hindices ▸ his i hi)).2

theorem taken_ne_nil (hplan : plan q a = (some p, b)) : taken q ≠ [] := by
  intro hnil
  have hnone : (plan q a).1 = none := plan_eq_none_iff.mpr (prioritized_eq_nil_iff.mp hnil)
  rw [hplan] at hnone
  exact absurd hnone (by simp)

theorem plan_hands (hplan : plan q a = (some p, b)) (hq : q.ForksNested)
    (hfilters : ∀ e ∈ q.filters, awaitsItself e = true → isShifted q e = false) :
    ∀ m ∈ p.masks, Hands q m := by
  have htaken := taken_ne_nil hplan
  obtain ⟨-, hplanned⟩ := plan_spec hplan
  obtain ⟨forks, hcuts⟩ := hplanned.cuts
  obtain ⟨based, rfl, rfl, -⟩ := plan_eq_some hplan
  rw [completeBase_cuts, mergeWindows_cuts] at hcuts
  obtain ⟨base, others, heq, hbase, hflag, hothers⟩ := withBase_hands hq hfilters htaken hcuts
  intro m hm
  obtain ⟨m', hm', hsamecuts, hsame⟩ := completeBase_mem hm
  refine Hands.congr ?_ hsamecuts hsame
  rw [heq] at hm' hcuts
  rcases mergeWindows_eq base others with hkept | ⟨other, rfl, hwindow, hmerged⟩
  · rcases List.mem_cons.mp (hkept ▸ hm') with rfl | hm'
    · exact hbase
    · obtain ⟨g, hg⟩ := groupMask_of_mem (hothers m' hm')
      exact hg.hands hq hfilters
  · have hother := hothers other (List.mem_singleton.mpr rfl)
    have hwindows : (prioritized (sites q)).1 = true := by
      rcases Bool.or_eq_true_iff.mp hwindow with h | h
      · exact hflag h
      · exact (forkMask_isWindow hother).symm.trans h
    obtain ⟨g, hg⟩ := groupMask_of_mem hother
    obtain rfl := List.mem_singleton.mp (hmerged ▸ hm')
    refine hg.hands_merged hq hfilters hwindows hcuts htaken (fun c hc => ?_) ⟨rfl, rfl⟩
    simpa using hc

/-- What sub-queries select beside their cuts has no forks. -/
theorem plan_extras (hplan : plan q a = (some p, b)) (hq : q.ForksNested) :
    ∀ m ∈ p.masks, ∀ x ∈ m.extras, x.expr.containsFork = false := by
  intro m hm x hx
  refine plan_selection (P := fun x => x.1.containsFork = false) hplan (fun d hd => ?_)
    (fun s hs => not_containsFork_selection hq hs) m hm (x.expr, x.isGroupBy)
    (List.mem_map_of_mem hx)
  obtain ⟨e, he, rfl⟩ := List.mem_map.mp hd
  exact hq.groupBy e he

end Hands

end Split

end FormulaSql
