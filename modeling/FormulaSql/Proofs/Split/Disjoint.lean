import FormulaSql.Proofs.Split.Counting
import FormulaSql.Proofs.Split.Sharing

/-!
# Cuts do not overlap

The searches for forks and for what no fork covers give every place once and stop there, so no place
that a plan cuts is inside of another. The columns of all sub-queries of a round are computed from
places beside each other.

* `Split.plan_sources` says so of the nodes that columns are computed from
* `Split.plan_source_not_above` says that none of them contains a fork that is taken
-/

namespace FormulaSql

namespace Formula

/-! ## The paths that a search gives -/

/-- Neither path leads to the other. -/
def PathsApart (p p' : Path) : Prop := ¬ p <+: p' ∧ ¬ p' <+: p

/-- Paths below different children are apart. -/
theorem pairwise_below {α : Type} (path : Path) {xs : List α} {L : α × Nat → List Path}
    (hbelow : ∀ xi ∈ xs.zipIdx, ∀ p ∈ L xi, path ++ [xi.2] <+: p)
    (h : ∀ xi ∈ xs.zipIdx, (L xi).Pairwise PathsApart) :
    (xs.zipIdx.flatMap L).Pairwise PathsApart := by
  have hne {i j : Nat} {p p' : Path} (hij : i ≠ j) (hp : path ++ [i] <+: p)
      (hp' : path ++ [j] <+: p') : ¬ p <+: p' := by
    intro hpre
    have hsame := List.prefix_of_prefix_length_le (hp.trans hpre) hp' (by simp)
    have heq := hsame.eq_of_length (by simp)
    exact hij (List.singleton_inj.mp (List.append_cancel_left heq))
  refine List.pairwise_flatMap.mpr ⟨h, (pairwise_zipIdx xs).imp_of_mem ?_⟩
  intro a b ha hb hab p hp p' hp'
  have hap := hbelow a ha p hp
  have hbp := hbelow b hb p' hp'
  exact ⟨hne hab hap hbp, hne hab.symm hbp hap⟩

theorem pairwise_forkSearch (f : Formula) (path : Path) :
    ((f.forkSearch path).map Prod.fst).Pairwise PathsApart := by
  induction f using induction_children generalizing path with
  | step f ih =>
      rw [forkSearch_eq]
      cases f.fork? with
      | some q => exact List.pairwise_singleton _ _
      | none =>
          dsimp only
          rw [List.map_flatMap]
          refine pairwise_below path (fun ci hci p hp => ?_) fun ci hci => ?_
          · obtain ⟨s, hs, rfl⟩ := List.mem_map.mp hp
            rw [forkSearch_eq_map] at hs
            obtain ⟨t, -, rfl⟩ := List.mem_map.mp hs
            exact List.prefix_append _ _
          · exact ih ci.1 (mem_children_of_autonomous (List.fst_mem_of_mem_zipIdx hci)) _

theorem pairwise_uncutSearch (cuts : List Path) (f : Formula) (path : Path) :
    (f.uncutSearch cuts path).Pairwise PathsApart := by
  induction f using induction_children generalizing path with
  | step f ih =>
      rw [uncutSearch_eq]
      split
      next => exact List.Pairwise.nil
      next =>
        split
        next =>
          refine pairwise_below path (fun ci hci p hp => ?_) fun ci hci => ?_
          · obtain ⟨t, rfl, -⟩ := of_mem_uncutSearch hp
            exact List.prefix_append _ _
          · exact ih ci.1 (mem_children_of_autonomous (List.fst_mem_of_mem_zipIdx hci)) _
        next =>
          split
          · exact List.Pairwise.nil
          · exact List.pairwise_singleton _ _

/-- What the search gives is in no cut. -/
theorem not_prefix_of_mem_uncutSearch {cuts : List Path} {f : Formula} {path u : Path}
    (hpath : ∀ c ∈ cuts, c <+: path → c = path) (hu : u ∈ f.uncutSearch cuts path) :
    ∀ c ∈ cuts, ¬ c <+: u := by
  induction f using induction_children generalizing path with
  | step f ih =>
      rw [uncutSearch_eq] at hu
      split at hu
      next => exact absurd hu List.not_mem_nil
      next hcut =>
        have hnot : ∀ c ∈ cuts, ¬ c <+: path := by
          intro c hc hpre
          exact hcut (by simpa [hpath c hc hpre] using hc)
        split at hu
        next =>
          obtain ⟨ci, hci, hu⟩ := List.mem_flatMap.mp hu
          refine ih ci.1 (mem_children_of_autonomous (List.fst_mem_of_mem_zipIdx hci)) ?_ hu
          intro c hc hpre
          exact (List.prefix_concat_iff.mp hpre).resolve_right (hnot c hc)
        next =>
          split at hu
          · exact absurd hu List.not_mem_nil
          · rw [List.mem_singleton.mp hu]
            exact hnot

end Formula

namespace Place

theorem Above.trans {r s t : Place} (hrs : r.Above s) (hst : s.Above t) : r.Above t :=
  ⟨hrs.1.trans hst.1, hrs.2.1.trans hst.2.1, hrs.2.2.trans hst.2.2⟩

/-- What is inside of places beside each other is beside each other. -/
theorem Beside.of_above {r r' s s' : Place} (h : r.Beside s) (hr : r.Above r') (hs : s.Above s') :
    r'.Beside s' :=
  ⟨fun hrs => h.not_above (hr.trans hrs) hs, fun hsr => h.not_above hr (hs.trans hsr)⟩

instance : Std.Symm Beside := ⟨fun _ _ => Beside.symm⟩

end Place

namespace Split

/-! ## The places of a round -/

def Site.place (s : Site) : Place := ⟨s.part, s.index, s.path⟩

/-- The place that becomes a column. -/
def Cut.place (c : Cut) : Place := ⟨c.part, c.index, c.outer⟩

/-- The place that the column is computed from. -/
def Cut.source (c : Cut) : Place := ⟨c.part, c.index, c.inner⟩

section Places

variable {q : Query}

/-- Paths that are apart in each formula make for places beside each other. -/
theorem pairwise_places {L : Part → Entry → Nat → List Path}
    (h : ∀ p e i, (L p e i).Pairwise Formula.PathsApart) :
    (Part.splittable.flatMap fun p => (q.part p).zipIdx.flatMap fun ei =>
      (L p ei.1 ei.2).map (Place.mk p ei.2)).Pairwise Place.Beside := by
  have hsplittable : Part.splittable.Pairwise (· ≠ ·) := by decide
  refine List.pairwise_flatMap.mpr ⟨fun p _ => List.pairwise_flatMap.mpr ⟨fun ei _ => ?_, ?_⟩, ?_⟩
  · rw [List.pairwise_map]
    exact (h p ei.1 ei.2).imp fun hp => ⟨fun ha => hp.1 ha.2.2, fun ha => hp.2 ha.2.2⟩
  · refine (pairwise_zipIdx (q.part p)).imp fun hne r hr s hs => ?_
    obtain ⟨t, -, rfl⟩ := List.mem_map.mp hr
    obtain ⟨t', -, rfl⟩ := List.mem_map.mp hs
    exact ⟨fun ha => hne ha.2.1, fun ha => hne ha.2.1.symm⟩
  · refine hsplittable.imp fun hne r hr s hs => ?_
    obtain ⟨ei, -, hr⟩ := List.mem_flatMap.mp hr
    obtain ⟨ej, -, hs⟩ := List.mem_flatMap.mp hs
    obtain ⟨t, -, rfl⟩ := List.mem_map.mp hr
    obtain ⟨t', -, rfl⟩ := List.mem_map.mp hs
    exact ⟨fun ha => hne ha.1, fun ha => hne ha.1.symm⟩

theorem pairwise_taken (q : Query) : ((taken q).map Site.place).Pairwise Place.Beside := by
  have hsites : (sites q).map Site.place =
      Part.splittable.flatMap fun p => (q.part p).zipIdx.flatMap fun ei =>
        (ei.1.formula.outermostForks.map Prod.fst).map (Place.mk p ei.2) := by
    simp only [sites, List.map_flatMap, List.map_map]
    rfl
  have hsub : (taken q).Sublist (sites q) := by
    rw [taken]
    rcases prioritized_cases (sites q) with heq | ⟨least, heq, -⟩
    · rw [heq]
    · rw [heq]
      exact List.filter_sublist
  refine List.Pairwise.sublist (hsub.map Site.place) ?_
  rw [hsites]
  exact pairwise_places fun p e i => Formula.pairwise_forkSearch e.formula []

theorem pairwise_uncutEntry (cuts : List Cut) (p : Part) (e : Entry) (i : Nat) :
    (uncutEntry q cuts p e i).Pairwise Formula.PathsApart := by
  rw [uncutEntry]
  split
  · exact List.Pairwise.nil
  · exact Formula.pairwise_uncutSearch _ e.formula []

theorem pairwise_uncutCuts (q : Query) (cuts : List Cut) (a : Names) :
    ((uncutCuts q cuts a).1.map Cut.place).Pairwise Place.Beside := by
  have hone : ∀ place ∈ uncutPlaces q cuts, Naming.Ensures
      (do return (⟨place.1, place.2.1, place.2.2, place.2.2, ← freshColumn⟩ : Cut)) fun _ _ c =>
        c.place = ⟨place.1, place.2.1, place.2.2⟩ :=
    fun place _ a => ⟨(freshColumn_ensures a).1, rfl⟩
  have hall := (Naming.ensures_mapM (fun _ _ _ _ _ _ _ _ h => h) hone a).2
  have hmap : (uncutCuts q cuts a).1.map Cut.place =
      Part.splittable.flatMap fun p => (q.part p).zipIdx.flatMap fun ei =>
        (uncutEntry q cuts p ei.1 ei.2).map (Place.mk p ei.2) := by
    have hplaces : (uncutCuts q cuts a).1.map Cut.place =
        (uncutPlaces q cuts).map fun place => ⟨place.1, place.2.1, place.2.2⟩ := by
      rw [← List.forall₂_eq_eq_eq, List.forall₂_map_left_iff, List.forall₂_map_right_iff]
      exact List.Forall₂.flip hall
    rw [hplaces, uncutPlaces]
    simp only [List.map_flatMap, List.map_map]
    rfl
  rw [hmap]
  exact pairwise_places fun p e i => pairwise_uncutEntry cuts p e i

/-- What no fork covers is beside all forks. -/
theorem beside_of_isUncut {cuts : List Cut} {c : Cut} {r : Place} (hc : c ∈ cuts)
    (hr : IsUncut q cuts r.part r.index r.path) : r.Beside c.place := by
  obtain ⟨-, e, -, hpath⟩ := hr
  rw [uncutEntry] at hpath
  split at hpath
  · exact absurd hpath List.not_mem_nil
  · have hmem : r.part = c.part → r.index = c.index → c.outer ∈
        (cuts.filter fun d => d.part == r.part && d.index == r.index).map Cut.outer := by
      intro hpart hindex
      exact List.mem_map_of_mem (List.mem_filter.mpr ⟨hc, by simp [hpart, hindex]⟩)
    obtain ⟨-, -, -, hbelow⟩ := Formula.of_mem_uncutSearch hpath
    have hinside := Formula.not_prefix_of_mem_uncutSearch
      (fun d _ hd => List.prefix_nil.mp hd) hpath
    exact ⟨fun ha => hbelow _ (hmem ha.1 ha.2.1) ha.2.2,
      fun ha => hinside _ (hmem ha.1.symm ha.2.1.symm) ha.2.2⟩

end Places

/-! ## The cuts of a plan -/

/-- Adding a fork to its group adds its cut. -/
theorem addFork_cuts (g : ForkGroup) (s : Site) (b : Names) :
    ∃ n, (addFork g s b).1.cuts = g.cuts ++ [s.cut n] := by
  rcases addFork_cases g s b with ⟨known, -, -, heq⟩ | ⟨-, heq⟩
  · exact ⟨known.2, by rw [heq]⟩
  · exact ⟨(freshColumn b).1, by rw [heq]⟩

theorem placeFork_places (q : Query) (s : Site) (sig : Signature) (gs : List ForkGroup)
    (b : Names) :
    (((placeFork q s sig gs b).1.flatMap ForkGroup.cuts).map Cut.place).Perm
      ((gs.flatMap ForkGroup.cuts).map Cut.place ++ [s.place]) := by
  rcases placeFork_cases q s sig gs b with ⟨before, g, after, rfl, -, heq⟩ | ⟨-, heq⟩
  · obtain ⟨n, hn⟩ := addFork_cuts g s b
    rw [heq]
    simp only [List.flatMap_append, List.flatMap_cons, hn, List.map_append, List.map_cons,
      List.map_nil, List.append_assoc]
    exact ((List.perm_append_comm).append_left _).append_left _
  · obtain ⟨n, hn⟩ := addFork_cuts (newGroup q s sig b).1 s (newGroup q s sig b).2
    have hnil : (newGroup q s sig b).1.cuts = [] := rfl
    rw [heq]
    simp only [List.flatMap_append, List.flatMap_cons, List.flatMap_nil, List.append_nil, hn, hnil,
      List.map_append]
    exact List.Perm.refl _

/-- Every fork is cut once. -/
theorem forkGroups_places (q : Query) (found : List Site) (a : Names) :
    (((forkGroups q found a).1.flatMap ForkGroup.cuts).map Cut.place).Perm
      (found.map Site.place) := by
  have hfold (gs : List ForkGroup) (b : Names) :
      (((found.foldlM (fun gs s => placeFork q s (signatureOf q s) gs) gs b).1.flatMap
        ForkGroup.cuts).map Cut.place).Perm
      ((gs.flatMap ForkGroup.cuts).map Cut.place ++ found.map Site.place) := by
    induction found generalizing gs b with
    | nil => exact List.append_nil _ ▸ List.Perm.refl _
    | cons s found ih =>
        rw [Naming.foldlM_cons_apply, List.map_cons, List.append_cons]
        exact (ih _ _).trans ((placeFork_places q s (signatureOf q s) gs b).append_right _)
  exact hfold [] a

section Plan

variable {q : Query} {a b : Names} {p : Plan}

/-- The cuts of a plan: those of the forks, and those of what they leave over. -/
theorem plan_cuts_perm (hplan : plan q a = (some p, b)) :
    ∃ uncut, (p.masks.flatMap Mask.cuts).Perm ((forkMasks q a).1.flatMap Mask.cuts ++ uncut) ∧
      (uncut.map Cut.place).Pairwise Place.Beside ∧
      ∀ c ∈ uncut, c.inner = c.outer ∧
        IsUncut q ((forkMasks q a).1.flatMap Mask.cuts) c.part c.index c.outer := by
  obtain ⟨based, rfl, rfl, -⟩ := plan_eq_some hplan
  obtain ⟨-, huncut, -⟩ := uncutCuts_ensures q ((forkMasks q a).1.flatMap Mask.cuts)
    (forkMasks q a).2
  refine ⟨(uncutCuts q ((forkMasks q a).1.flatMap Mask.cuts) (forkMasks q a).2).1, ?_,
    pairwise_uncutCuts q _ _, fun c hc => (huncut c hc).2⟩
  rw [completeBase_cuts, mergeWindows_cuts]
  rcases withBase_cases q (forkMasks q a).1 (forkMasks q a).2 with
    ⟨i, m, hnil, -, hm, heq⟩ | ⟨base, hbase, heq⟩
  · rw [heq, hnil, List.append_nil]
    exact (perm_eraseIdx hm).flatMap_right Mask.cuts
  · obtain ⟨-, -, hcuts, -⟩ := ownBase_ensures q
      (uncutCuts q ((forkMasks q a).1.flatMap Mask.cuts) (forkMasks q a).2).1
      (uncutFilters q (forkMasks q a).1)
      (uncutCuts q ((forkMasks q a).1.flatMap Mask.cuts) (forkMasks q a).2).2
    rw [heq, hbase, List.flatMap_cons, hcuts]
    exact List.perm_append_comm

/-- No place that a plan cuts is inside of another. -/
theorem plan_places (hplan : plan q a = (some p, b)) :
    ((p.masks.flatMap Mask.cuts).map Cut.place).Pairwise Place.Beside := by
  obtain ⟨uncut, hperm, huncut, hplace⟩ := plan_cuts_perm hplan
  rw [(hperm.map Cut.place).pairwise_iff Place.Beside.symm, List.map_append,
    List.pairwise_append]
  refine ⟨?_, huncut, fun r hr s hs => ?_⟩
  · rw [cuts_forkMasks, (forkGroups_places q (taken q) a).pairwise_iff Place.Beside.symm]
    exact pairwise_taken q
  · obtain ⟨c, hc, rfl⟩ := List.mem_map.mp hr
    obtain ⟨d, hd, rfl⟩ := List.mem_map.mp hs
    exact (beside_of_isUncut (r := d.place) hc (hplace d hd).2).symm

theorem plan_place_above (hplan : plan q a = (some p, b)) :
    ∀ c ∈ p.masks.flatMap Mask.cuts, c.place.Above c.source := by
  obtain ⟨-, hplanned⟩ := plan_spec hplan
  obtain ⟨forks, hcuts⟩ := hplanned.cuts
  intro c hc
  refine ⟨rfl, rfl, ?_⟩
  rcases hcuts.other c hc with hfork | ⟨hinner, -⟩
  · obtain ⟨s, -, heq⟩ := hcuts.fork c hfork
    rw [Cut.place, Cut.source, heq]
    exact List.prefix_append _ _
  · show c.outer <+: c.inner
    exact hinner.symm ▸ List.prefix_rfl

/-- Columns are computed from places beside each other. -/
theorem plan_sources (hplan : plan q a = (some p, b)) :
    ((p.masks.flatMap Mask.cuts).map Cut.source).Pairwise Place.Beside := by
  have hplaces := plan_places hplan
  have habove := plan_place_above hplan
  rw [List.pairwise_map] at hplaces ⊢
  exact hplaces.imp_of_mem fun hc hd hcd => hcd.of_above (habove _ hc) (habove _ hd)

theorem path_eq_of_above {s t : Site} (ht : t ∈ taken q) (hs : s ∈ taken q)
    (h : t.place.Above s.place) : t.path = s.path := by
  obtain ⟨-, e, he, hmem, -⟩ := mem_sites_iff.mp (mem_sites_of_taken ht)
  obtain ⟨-, e', he', hmem', -⟩ := mem_sites_iff.mp (mem_sites_of_taken hs)
  obtain ⟨hpart, hindex, hpre⟩ := h
  rw [show t.part = s.part from hpart, show t.index = s.index from hindex] at he
  obtain rfl := Option.some.inj (he.symm.trans he')
  exact Formula.eq_of_outermostFork_above hmem hmem' hpre

/-- A fork that is taken is in no place that a column is computed from. -/
theorem plan_source_not_above (hplan : plan q a = (some p, b)) {s : Site} (hs : s ∈ taken q) :
    ∀ c ∈ p.masks.flatMap Mask.cuts, ¬ c.source.Above s.place := by
  obtain ⟨-, hplanned⟩ := plan_spec hplan
  obtain ⟨forks, hcuts⟩ := hplanned.cuts
  obtain ⟨n, hn⟩ := hcuts.site s hs
  intro c hc habove
  have hplace : c.place.Above s.place := (plan_place_above hplan c hc).trans habove
  rcases hcuts.other c hc with hfork | ⟨-, huncut⟩
  · obtain ⟨t, ht, heq⟩ := hcuts.fork c hfork
    rw [heq] at hplace habove
    have hpath := path_eq_of_above ht hs hplace
    have hlength := habove.2.2.length_le
    simp only [Cut.source, Site.cut, Site.place, List.length_append, List.length_singleton,
      hpath] at hlength
    omega
  · exact (beside_of_isUncut (r := c.place) hn huncut).1 hplace

end Plan

end Split

end FormulaSql
