import FormulaSql.Proofs.Split.Handing
import FormulaSql.Proofs.Split.Stranded
import Mathlib.Algebra.Order.BigOperators.Group.List
import Mathlib.Algebra.Order.Group.Nat
import Mathlib.Data.Multiset.DershowitzManna

/-!
# Rounds make progress

Every query that a round makes has fewer forks than the one it cuts, unless a filter is handed on
together with a fork that it comes after. So rounds come to an end by themselves: each puts finitely
many queries with fewer forks into the place of one.

* `Query.split_progress` says so for one round and for the whole run
-/

namespace FormulaSql

namespace Split

/-! ## The queries of a round -/

section Subquery

variable {q s : Query} {a b : Names} {p : Plan} {m : Mask}

/-- The selected entries of a sub-query are those of some of its cuts. -/
theorem subquery_selected (h : subquery q m = .ok s) :
    ∃ cs es, cs.Sublist m.cuts ∧ List.Forall₂ (fun c e => cutEntry q c = .ok e) cs es ∧
      s.select = es ++ m.extras.map extraEntry := by
  rw [subquery] at h
  obtain ⟨es, hes, h⟩ := bind_eq_ok.mp h
  obtain rfl := Except.ok.inj h
  let I (done : List Cut) (es : List Entry) : Prop :=
    ∃ cs, cs.Sublist done ∧ List.Forall₂ (fun c e => cutEntry q c = .ok e) cs es
  have hstep : ∀ done, ∀ c ∈ m.cuts, ∀ es es', I done es → addSelected q c es = .ok es' →
      I (done ++ [c]) es' := by
    rintro done c - es es' ⟨cs, hsub, hcs⟩ hadd
    obtain ⟨e, he, ⟨rfl, -⟩ | rfl⟩ := addSelected_eq_ok hadd
    · exact ⟨cs, hsub.trans (List.sublist_append_left _ _), hcs⟩
    · exact ⟨cs ++ [c], hsub.append_right _, List.rel_append hcs (.cons he .nil)⟩
  have hstart : I [] [] := ⟨[], List.Sublist.slnil, .nil⟩
  obtain ⟨cs, hsub, hcs⟩ := foldlM_invariant hstep [] hstart hes
  exact ⟨cs, es, hsub, hcs, rfl⟩

theorem forksFrom_cutEntry {c : Cut} {e : Entry} (h : cutEntry q c = .ok e) :
    ∃ f, q.nodeAt? c.source = some f ∧ f.ForksFrom e.formula := by
  obtain ⟨e₀, f, he₀, hf, hformula, -⟩ := cutEntry_eq_ok h
  refine ⟨f, Query.nodeAt?_eq_some.mpr ⟨e₀, he₀, hf⟩, ?_⟩
  rw [hformula]
  exact forksFrom_plainAggregate f

/-- A sub-query has fewer forks: its entries come from places beside each other, and some fork is in
none of these. -/
theorem forkCount_subquery_lt (hplan : plan q a = (some p, b)) (hq : q.ForksNested)
    (hfilters : ∀ e ∈ q.filters, awaitsItself e = true → isShifted q e = false)
    (hm : m ∈ p.masks) (h : subquery q m = .ok s) : s.forkCount < q.forkCount := by
  have hsub := subquery_spec h
  obtain ⟨cs, es, hcs, hes, hselect⟩ := subquery_selected h
  obtain ⟨is, htakes, hcut, t, ht, htfilter⟩ := plan_hands hplan hq hfilters m hm
  have hextras := plan_extras hplan hq m hm
  have hmcuts : m.cuts.Sublist (p.masks.flatMap Mask.cuts) := by
    rw [List.flatMap_def]
    exact List.sublist_flatten_of_mem (List.mem_map_of_mem hm)
  have hsplittable : ∀ c ∈ m.cuts, c.part ∈ Part.splittable :=
    fun c hc => (((plan_spec hplan).2.masks.mask m hm).cut c hc).2
  have hzero : ((m.extras.map extraEntry).map fun e => e.formula.forkCount).sum = 0 := by
    refine List.sum_eq_zero fun n hn => ?_
    obtain ⟨e, he, rfl⟩ := List.mem_map.mp hn
    obtain ⟨x, hx, rfl⟩ := List.mem_map.mp he
    exact Formula.forkCount_eq_zero (hextras x hx)
  have hcount : s.forkCount =
      ((es ++ maskFilters q m).map fun e => e.formula.forkCount).sum := by
    simp only [Query.forkCount, Part.splittable, List.map_cons, List.map_nil, Query.part, hselect,
      hsub.orderBy, hsub.filters, List.sum_cons, List.sum_nil, List.map_append, List.sum_append]
    omega
  let filter (i : Nat) : Place := ⟨.filters, i, []⟩
  have hentries : List.Forall₂ (fun r e => ∃ f, q.nodeAt? r = some f ∧ f.ForksFrom e.formula)
      (cs.map Cut.source ++ is.map filter) (es ++ maskFilters q m) := by
    refine List.rel_append ?_ ?_
    · rw [List.forall₂_map_left_iff]
      exact hes.imp fun c e he => forksFrom_cutEntry he
    · rw [List.forall₂_map_left_iff]
      refine htakes.handed.imp fun i e he => ?_
      obtain ⟨e₀, he₀, hforks, -⟩ := he
      exact ⟨e₀.formula, Query.nodeAt?_eq_some.mpr ⟨e₀, he₀, rfl⟩, hforks⟩
  rw [hcount]
  refine Query.sum_forkCount_lt hentries ?_ ?_ (mem_forkPlaces_of_taken ht) ?_
  · intro r hr
    rcases List.mem_append.mp hr with hr | hr
    · obtain ⟨c, hc, rfl⟩ := List.mem_map.mp hr
      exact hsplittable c (hcs.subset hc)
    · obtain ⟨i, -, rfl⟩ := List.mem_map.mp hr
      simp [filter, Part.splittable]
  · refine List.pairwise_append.mpr ⟨?_, ?_, ?_⟩
    · exact (plan_sources hplan).sublist ((hcs.trans hmcuts).map Cut.source)
    · rw [List.pairwise_map]
      exact htakes.nodup.imp fun hne => ⟨fun h => hne h.2.1, fun h => hne h.2.1.symm⟩
    · intro r hr r' hr'
      obtain ⟨c, hc, rfl⟩ := List.mem_map.mp hr
      obtain ⟨i, hi, rfl⟩ := List.mem_map.mp hr'
      have hnot : c.part = .filters → c.index ≠ i :=
        fun hpart heq => hcut c (hcs.subset hc) hpart (heq ▸ hi)
      exact ⟨fun h => hnot h.1 h.2.1, fun h => hnot h.1.symm h.2.1.symm⟩
  · intro r hr habove
    rcases List.mem_append.mp hr with hr | hr
    · obtain ⟨c, hc, rfl⟩ := List.mem_map.mp hr
      exact plan_source_not_above hplan ht c (hmcuts.subset (hcs.subset hc)) habove
    · obtain ⟨i, hi, rfl⟩ := List.mem_map.mp hr
      have hindex : i = t.index := habove.2.1
      exact htfilter habove.1.symm (hindex ▸ hi)

end Subquery

section Crop

variable {q c : Query} {a b : Names} {pl : Plan} {masks : List Mask} {base : Mask}
  {compatible : Bool} {p : Part} {e e' : Entry}

theorem not_containsFork_of_constant {f : Formula} (h : f.isConstantExpression = true) :
    f.containsFork = false := by
  rw [Formula.isConstantExpression, Bool.not_eq_true', Formula.any, List.any_eq_false] at h
  rw [Formula.containsFork, Formula.any, List.any_eq_false]
  intro x hx hfork
  exact h x hx (by simp [hfork])

/-- The fork is gone where the round takes one. -/
theorem forkAt_cropped {forks : List Cut} (hcuts : CutsOf q forks (masks.flatMap Mask.cuts))
    {s : Site} (hs : s ∈ taken q) (he : (q.part s.part)[s.index]? = some e) {f : Formula}
    (h : Cropped q base (cutsAt masks s.part s.index) compatible s.part e f) :
    e.formula.forkAt s.path = true ∧ f.forkAt s.path = false := by
  obtain ⟨e₀, x, he₀, hx, hfork⟩ := forkAt_of_mem_sites (mem_sites_of_taken hs)
  obtain rfl := Option.some.inj (he.symm.trans he₀)
  have hat : e.formula.forkAt s.path = true :=
    Formula.forkAt_iff.mpr ⟨x, hx, Formula.isFork_of_fork? hfork⟩
  have hnone : ∀ {g : Formula}, g.containsFork = false → g.forkAt s.path = false := by
    intro g hg
    rw [← Bool.not_eq_true] at hg ⊢
    exact fun hp => hg (Formula.containsFork_iff_forkAt.mpr ⟨_, hp⟩)
  refine ⟨hat, ?_⟩
  cases h with
  | constant hconst =>
      exact hnone (not_containsFork_of_constant hconst)
  | dimension => exact hnone (not_containsFork_columnAt _ _)
  | incompatible => exact hnone rfl
  | @cut g _ _ _ hg =>
      obtain ⟨n, hn⟩ := hcuts.site s hs
      have hmem : s.cut n ∈ cutsAt masks s.part s.index :=
        mem_cutsAt.mpr ⟨hcuts.fork_mem _ hn, rfl, rfl⟩
      have hfield : g.forkAt s.path = false := by
        rw [← Bool.not_eq_true, Formula.forkAt_iff]
        rintro ⟨y, hy, hyfork⟩
        obtain ⟨d, -, -, hd⟩ := field?_replaceCuts hg ⟨_, hmem, List.prefix_rfl⟩ hy
        have hkind := Formula.isFork_of_field? hd
        exact absurd (hkind.symm.trans hyfork) (by simp)
      split
      · rw [← Bool.not_eq_true] at hfield ⊢
        exact fun hp => hfield ((forksFrom_withColumns _ g).forkAt hp)
      · exact hfield

/-- Sums over lists whose members go together. -/
theorem sum_of_forall₂ {α β : Type} {R : α → β → Prop} {v : α → Nat} {w : β → Nat} {xs : List α}
    {ys : List β} (h : List.Forall₂ R xs ys) (hle : ∀ x ∈ xs, ∀ y, R x y → w y ≤ v x) :
    (ys.map w).sum ≤ (xs.map v).sum ∧
      ∀ x ∈ xs, (∀ y, R x y → w y < v x) → (ys.map w).sum < (xs.map v).sum := by
  induction h with
  | nil => exact ⟨Nat.le_refl 0, fun x hx => absurd hx List.not_mem_nil⟩
  | cons hxy _ ih =>
      rw [List.forall_mem_cons] at hle
      obtain ⟨hrest, hstrict⟩ := ih hle.2
      have hhead := hle.1 _ hxy
      simp only [List.map_cons, List.sum_cons]
      refine ⟨Nat.add_le_add hhead hrest, fun z hz hlt => ?_⟩
      rcases List.mem_cons.mp hz with rfl | hz
      · exact Nat.add_lt_add_of_lt_of_le (hlt _ hxy) hrest
      · exact Nat.add_lt_add_of_le_of_lt hhead (hstrict z hz hlt)

/-- The forks of what becomes of an entry. -/
def forksLeft (o : Option Entry) : Nat := o.elim 0 fun e => e.formula.forkCount

theorem sum_filterMap_id (os : List (Option Entry)) :
    ((os.filterMap id).map fun e => e.formula.forkCount).sum = (os.map forksLeft).sum := by
  induction os with
  | nil => rfl
  | cons o os ih =>
      rw [List.map_cons, List.sum_cons, ← ih]
      cases o with
      | none => exact (Nat.zero_add _).symm
      | some e => rfl

theorem PartCropped.forkCount {without : List Nat} {es : List Entry}
    (h : PartCropped q masks base compatible p without es) :
    (es.map fun e => e.formula.forkCount).sum ≤
        ((q.part p).map fun e => e.formula.forkCount).sum ∧
      ∀ i e, (q.part p)[i]? = some e → i ∉ without →
        (∀ o, cropEntry q masks base compatible p e i = .ok o → forksLeft o < e.formula.forkCount) →
        (es.map fun e => e.formula.forkCount).sum <
          ((q.part p).map fun e => e.formula.forkCount).sum := by
  obtain ⟨os, hos, rfl⟩ := h
  have hle : ∀ ei ∈ (q.part p).zipIdx.filter fun ei => !without.contains ei.2, ∀ o,
      cropEntry q masks base compatible p ei.1 ei.2 = .ok o →
        forksLeft o ≤ ei.1.formula.forkCount := by
    intro ei _ o ho
    cases o with
    | none => exact Nat.zero_le _
    | some e' => exact (cropEntry_some ho).1.forksFrom.forkCount_le
  have hall : (((q.part p).zipIdx.filter fun ei => !without.contains ei.2).map
      fun ei => ei.1.formula.forkCount).sum ≤
        ((q.part p).map fun e => e.formula.forkCount).sum := by
    conv_rhs => rw [← List.zipIdx_map_fst 0 (q.part p), List.map_map]
    exact List.Sublist.sum_le_sum (List.filter_sublist.map _) fun n _ => Nat.zero_le n
  obtain ⟨hsum, hstrict⟩ := sum_of_forall₂ hos hle
  rw [sum_filterMap_id]
  refine ⟨hsum.trans hall, fun i e he hi hlt => ?_⟩
  have hmem : (e, i) ∈ (q.part p).zipIdx.filter fun ei => !without.contains ei.2 :=
    List.mem_filter.mpr ⟨List.mem_zipIdx_iff_getElem?.mpr he, by simpa using hi⟩
  exact (hstrict (e, i) hmem hlt).trans_le hall

/-- The base applies no filter that is cut. -/
theorem BaseOf.isCut_eq_false {others : List Mask} (h : BaseOf q a base others) {i : Nat}
    (hi : i ∈ base.filterIndices) : isCut q i = false := by
  have hgroup : ∀ m ∈ (forkMasks q a).1, i ∈ m.filterIndices → isCut q i = false := by
    intro m hm hi
    obtain ⟨g, hg⟩ := groupMask_of_mem hm
    obtain ⟨-, -, -, hcut⟩ := (hg.filterIndices i).mp hi
    exact hcut
  cases h with
  | own _ hfilters => exact (mem_uncutFilters.mp (hfilters ▸ hi)).2
  | chosen hm _ _ hsame => exact hgroup _ (List.mem_of_getElem? hm) (hsame.1 ▸ hi)
  | merged _ honly _ hsame => exact hgroup _ (by simp [honly]) (hsame.1 ▸ hi)
  | absorbing _ _ hrest _ _ hsame =>
      exact hgroup _ (List.mem_of_mem_eraseIdx (hrest ▸ List.mem_singleton.mpr rfl)) (hsame.1 ▸ hi)

theorem BaseOf.not_mem_filterIndices {others : List Mask} (h : BaseOf q a base others) {s : Site}
    (hs : s ∈ taken q) (hpart : s.part = .filters) : s.index ∉ base.filterIndices := by
  intro hmem
  have hcut : isCut q s.index = true := isCut_iff.mpr ⟨s, hs, hpart, rfl⟩
  exact absurd ((h.isCut_eq_false hmem).symm.trans hcut) (by simp)

/-- The cropped query has fewer forks, since it has none where the round takes one. -/
theorem forkCount_cropped_lt (hplan : plan q a = (some pl, b))
    (h : cropped q pl.masks pl.compatible = .ok c) : c.forkCount < q.forkCount := by
  obtain ⟨-, hplanned⟩ := plan_spec hplan
  obtain ⟨forks, hcuts⟩ := hplanned.cuts
  obtain ⟨base, others, hmasks, -, hcropped, -⟩ := cropped_spec h
  obtain ⟨base', others', hmasks', hbase⟩ := plan_baseOf hplan
  obtain ⟨rfl, rfl⟩ := List.cons.inj (hmasks.symm.trans hmasks')
  obtain ⟨s, hs⟩ := List.exists_mem_of_ne_nil _ (taken_ne_nil hplan)
  obtain ⟨hpart, e, he, -⟩ := mem_sites_iff.mp (mem_sites_of_taken hs)
  have hlt : ∀ o, cropEntry q pl.masks base pl.compatible s.part e s.index = .ok o →
      forksLeft o < e.formula.forkCount := by
    intro o ho
    cases o with
    | none =>
        obtain ⟨f, hf, -⟩ := cropEntry_none ho
        obtain ⟨hat, hgone⟩ := forkAt_cropped hcuts hs he hf
        exact (Nat.zero_le _).trans_lt (hf.forksFrom.forkCount_lt hat hgone)
    | some e' =>
        have hf := (cropEntry_some ho).1
        obtain ⟨hat, hgone⟩ := forkAt_cropped hcuts hs he hf
        exact hf.forksFrom.forkCount_lt hat hgone
  have hnot := hbase.not_mem_filterIndices hs
  obtain ⟨hselect, hselect'⟩ := hcropped.select.forkCount
  obtain ⟨horderBy, horderBy'⟩ := hcropped.orderBy.forkCount
  obtain ⟨hfilters, hfilters'⟩ := hcropped.filters.forkCount
  simp only [Query.forkCount, Part.splittable, List.map_cons, List.map_nil, List.sum_cons,
    List.sum_nil, Query.part] at hselect hselect' horderBy horderBy' hfilters hfilters' ⊢
  simp only [Part.splittable, List.mem_cons, List.not_mem_nil, or_false] at hpart
  rcases hpart with hpart | hpart | hpart
  · rw [hpart] at he hlt
    have := hselect' _ e he List.not_mem_nil hlt
    omega
  · rw [hpart] at he hlt
    have := horderBy' _ e he List.not_mem_nil hlt
    omega
  · have hi := hnot hpart
    rw [hpart] at he hlt
    have := hfilters' _ e he hi hlt
    omega

end Crop

/-! ## What rounds keep -/

section Keep

variable {q s c : Query} {a b : Names} {p : Plan} {m : Mask}

/-- A filter whose forks stand where another filter of the same field has them. -/
theorem awaitsItself_of_forksFrom {e e' : Entry} (h : e.formula.ForksFrom e'.formula)
    (hid : e'.fieldId = e.fieldId) (he : awaitsItself e = false) : awaitsItself e' = false := by
  rw [awaitsItself, List.any_eq_false] at he ⊢
  intro x hx hafter
  obtain ⟨y, hy, hfork⟩ := List.mem_filterMap.mp hx
  obtain ⟨path, hpath⟩ := Formula.exists_at?_of_mem_nodes hy
  have hkind := Formula.kind_of_fork? hfork
  obtain ⟨y₀, hy₀, houtline⟩ := h path y hpath (Formula.isFork_of_fork? hfork)
  rw [hkind] at houtline
  cases hk : y₀.kind with
  | fork x₀ =>
      rw [hk] at houtline
      have hbefore : x₀.beforeFilterBy = x.beforeFilterBy := by
        simp only [Kind.outline, Kind.map, Kind.fork.injEq, Fork.mk.injEq] at houtline
        exact houtline.2.2.2.2.1
      have hmem : x₀ ∈ e.formula.forks :=
        List.mem_filterMap.mpr ⟨y₀, Formula.mem_nodes_of_at? hy₀, by rw [Formula.fork?, hk]⟩
      have hsame : isAfter x₀.beforeFilterBy e = isAfter x.beforeFilterBy e' := by
        rw [isAfter, isAfter, hbefore, hid]
      exact he x₀ hmem (hsame.trans hafter)
  | _ => exact absurd houtline (by simp [hk, Kind.outline, Kind.map])

theorem forksInResults_of_not_containsFork {f : Formula} (h : f.containsFork = false) :
    f.ForksInResults := by
  intro x hx hfork
  rw [Formula.containsFork, Formula.any, List.any_eq_false] at h
  exact absurd hfork (h x hx)

theorem subquery_keeps (hplan : plan q a = (some p, b)) (hq : q.ForksNested)
    (hfilters : ∀ e ∈ q.filters, awaitsItself e = false) (hm : m ∈ p.masks)
    (h : subquery q m = .ok s) :
    s.ForksNested ∧ ∀ e ∈ s.filters, awaitsItself e = false := by
  have hsub := subquery_spec h
  obtain ⟨cs, es, hcs, hes, hselect⟩ := subquery_selected h
  obtain ⟨is, htakes, -⟩ := plan_hands hplan hq
    (fun e he hself => absurd ((hfilters e he).symm.trans hself) (by simp)) m hm
  have hextras := plan_extras hplan hq m hm
  have hnode : ∀ {r : Place} {f : Formula}, r.part ∈ Part.splittable → q.nodeAt? r = some f →
      f.ForksInResults := by
    intro r f hpart hf
    obtain ⟨e, he, hat⟩ := Query.nodeAt?_eq_some.mp hf
    exact (hq.fork r.part hpart e (List.mem_of_getElem? he)).of_node (Formula.mem_nodes_of_at? hat)
  refine ⟨⟨fun e he => ?_, fun part hpart e he => ?_⟩, fun e he => ?_⟩
  · rw [hsub.groupBy] at he
    obtain ⟨x, hx, rfl⟩ := List.mem_map.mp he
    exact hextras x (List.mem_filter.mp hx).1
  · cases part with
    | groupBy | joinOn => simp [Part.splittable] at hpart
    | orderBy =>
        rw [Query.part, hsub.orderBy] at he
        exact absurd he List.not_mem_nil
    | select =>
        rw [Query.part, hselect] at he
        rcases List.mem_append.mp he with he | he
        · obtain ⟨c, hc, hcut⟩ := forall₂_exists_left hes he
          obtain ⟨f, hf, hforks⟩ := forksFrom_cutEntry hcut
          have hsplittable := (((plan_spec hplan).2.masks.mask m hm).cut c (hcs.subset hc)).2
          exact hforks.forksInResults (hnode hsplittable hf)
        · obtain ⟨x, hx, rfl⟩ := List.mem_map.mp he
          exact forksInResults_of_not_containsFork (hextras x hx)
    | filters =>
        rw [Query.part, hsub.filters] at he
        obtain ⟨i, -, e₀, he₀, hforks, -⟩ := forall₂_exists_left htakes.handed he
        exact hforks.forksInResults (hq.fork .filters hpart e₀ (List.mem_of_getElem? he₀))
  · rw [hsub.filters] at he
    obtain ⟨i, -, e₀, he₀, hforks, hid⟩ := forall₂_exists_left htakes.handed he
    exact awaitsItself_of_forksFrom hforks hid (hfilters e₀ (List.mem_of_getElem? he₀))

theorem cropEntry_fieldId {masks : List Mask} {base : Mask} {compatible : Bool} {part : Part}
    {e e' : Entry} {i : Nat} (h : cropEntry q masks base compatible part e i = .ok (some e')) :
    e'.fieldId = e.fieldId := by
  rw [cropEntry] at h
  obtain ⟨f, -, h⟩ := bind_eq_ok.mp h
  split at h
  · exact Option.some.inj (Except.ok.inj h) ▸ rfl
  · split at h
    · exact Option.some.inj (Except.ok.inj h) ▸ rfl
    · exact absurd (Except.ok.inj h) (by simp)

theorem cropped_keeps (hq : q.ForksNested) (hfilters : ∀ e ∈ q.filters, awaitsItself e = false)
    {masks : List Mask} {compatible : Bool} (h : cropped q masks compatible = .ok c) :
    c.ForksNested ∧ ∀ e ∈ c.filters, awaitsItself e = false := by
  obtain ⟨base, others, -, -, hcropped, -⟩ := cropped_spec h
  have horigin : ∀ (part : Part) {e' : Entry}, part ≠ .joinOn → e' ∈ c.part part →
      ∃ e ∈ q.part part, e.formula.ForksFrom e'.formula ∧ e'.fieldId = e.fieldId := by
    intro part e' hpart he'
    obtain ⟨e, i, he, -, hcrop⟩ := hcropped.origin hpart he'
    exact ⟨e, List.mem_of_getElem? he, (cropEntry_some hcrop).1.forksFrom, cropEntry_fieldId hcrop⟩
  refine ⟨⟨fun e' he' => ?_, fun part hpart e' he' => ?_⟩, fun e' he' => ?_⟩
  · obtain ⟨e, he, hforks, -⟩ := horigin .groupBy (by simp) he'
    exact hforks.not_containsFork (hq.groupBy e he)
  · obtain ⟨e, he, hforks, -⟩ := horigin part (Part.ne_joinOn_of_splittable hpart) he'
    exact hforks.forksInResults (hq.fork part hpart e he)
  · obtain ⟨e, he, hforks, hid⟩ := horigin .filters (by simp) he'
    exact awaitsItself_of_forksFrom hforks hid (hfilters e he)

/-- The queries of a round: the sub-queries of its masks and the cropped query. -/
theorem round_queries {qs : List Query} (h : round q a = (.ok (some qs), b)) (hs : s ∈ qs) :
    ∃ p, plan q a = (some p, b) ∧
      ((∃ m ∈ p.masks, subquery q m = .ok s) ∨ cropped q p.masks p.compatible = .ok s) := by
  obtain ⟨hnone, -⟩ | ⟨p, new, hnew, hplan, hqueries⟩ := round_eq_ok h
  · cases hnone
  · obtain rfl := Option.some.inj hnew
    exact ⟨p, hplan, mem_queries hqueries hs⟩

/-- Every query of a round has fewer forks. -/
theorem round_progress {qs : List Query} (hq : q.ForksNested)
    (hfilters : ∀ e ∈ q.filters, awaitsItself e = true → isShifted q e = false)
    (h : round q a = (.ok (some qs), b)) : ∀ s ∈ qs, s.forkCount < q.forkCount := by
  intro s hs
  obtain ⟨p, hplan, ⟨m, hm, hsub⟩ | hcropped⟩ := round_queries h hs
  · exact forkCount_subquery_lt hplan hq hfilters hm hsub
  · exact forkCount_cropped_lt hplan hcropped

theorem round_keeps {qs : List Query} (hq : q.ForksNested)
    (hfilters : ∀ e ∈ q.filters, awaitsItself e = false) (h : round q a = (.ok (some qs), b)) :
    ∀ s ∈ qs, s.ForksNested ∧ ∀ e ∈ s.filters, awaitsItself e = false := by
  intro s hs
  obtain ⟨p, hplan, ⟨m, hm, hsub⟩ | hcropped⟩ := round_queries h hs
  · exact subquery_keeps hplan hq hfilters hm hsub
  · exact cropped_keeps hq hfilters hcropped

end Keep

/-! ## How rounds fail -/

/-- If the computation fails, it is because a query cannot be cut. -/
def FailsToSplit {α : Type} (x : Except QueryError α) : Prop :=
  ∀ e, x = .error e → ∃ id message, e = .split id message

section Fail

variable {α β : Type} {q : Query}

theorem failsToSplit_ok (a : α) : FailsToSplit (.ok a) := fun e h => absurd h (by simp)

theorem failsToSplit_split (id message : String) :
    FailsToSplit (.error (.split id message) : Except QueryError α) :=
  fun _ h => ⟨id, message, (Except.error.inj h).symm⟩

theorem FailsToSplit.bind {x : Except QueryError α} {f : α → Except QueryError β}
    (hx : FailsToSplit x) (hf : ∀ a, FailsToSplit (f a)) : FailsToSplit (x >>= f) := by
  cases x with
  | error e =>
      intro e' h
      obtain rfl : e = e' := Except.error.inj h
      exact hx e rfl
  | ok a => exact hf a

theorem failsToSplit_mapM {f : α → Except QueryError β} (h : ∀ x, FailsToSplit (f x))
    (xs : List α) : FailsToSplit (xs.mapM f) := by
  induction xs with
  | nil => exact failsToSplit_ok _
  | cons x xs ih =>
      rw [List.mapM_cons]
      exact (h x).bind fun y => ih.bind fun ys => failsToSplit_ok _

theorem failsToSplit_foldlM {f : β → α → Except QueryError β} (h : ∀ y x, FailsToSplit (f y x))
    (xs : List α) (y : β) : FailsToSplit (xs.foldlM f y) := by
  induction xs generalizing y with
  | nil => exact failsToSplit_ok _
  | cons x xs ih =>
      rw [List.foldlM_cons]
      exact (h y x).bind fun z => ih z

theorem failsToSplit_subquery (q : Query) (m : Mask) : FailsToSplit (subquery q m) := by
  have hcut (c : Cut) : FailsToSplit (cutEntry q c) := by
    rw [cutEntry]
    split
    · exact failsToSplit_split _ _
    · split
      · exact failsToSplit_split _ _
      · exact failsToSplit_ok _
  refine (failsToSplit_foldlM (fun es c => ?_) _ _).bind fun _ => failsToSplit_ok _
  refine (hcut c).bind fun e => ?_
  split
  · split
    · exact failsToSplit_ok _
    · exact failsToSplit_split _ _
  · exact failsToSplit_ok _

theorem failsToSplit_cropEntry (q : Query) (masks : List Mask) (base : Mask) (compatible : Bool)
    (p : Part) (e : Entry) (i : Nat) :
    FailsToSplit (cropEntry q masks base compatible p e i) := by
  have hcuts (cuts : List Cut) (f : Formula) : FailsToSplit (replaceCuts q cuts f) := by
    refine failsToSplit_foldlM (fun f c => ?_) cuts f
    split
    · exact failsToSplit_ok _
    · exact failsToSplit_split _ _
  have hformula (cuts : List Cut) : FailsToSplit (cropFormula q base cuts compatible p e) := by
    rw [cropFormula]
    split
    · exact failsToSplit_ok _
    · split
      · split
        · exact failsToSplit_ok _
        · exact failsToSplit_split _ _
      · split
        · exact failsToSplit_ok _
        · refine (hcuts cuts e.formula).bind fun f => ?_
          split <;> exact failsToSplit_ok _
  refine (hformula _).bind fun f => ?_
  split
  · exact failsToSplit_ok _
  · split <;> exact failsToSplit_ok _

theorem failsToSplit_cropped (q : Query) (masks : List Mask) (compatible : Bool) :
    FailsToSplit (cropped q masks compatible) := by
  have hpart (base : Mask) (p : Part) (without : List Nat) :
      FailsToSplit (cropPart q masks base compatible p without) := by
    refine (failsToSplit_mapM (fun ei => ?_) _).bind fun _ => failsToSplit_ok _
    exact failsToSplit_cropEntry q masks base compatible p ei.1 ei.2
  have hdrop (c : Query) : FailsToSplit (dropNeedlessGrouping c) := by
    refine (failsToSplit_foldlM (fun known e => ?_) _ _).bind fun known => ?_
    · dsimp only
      split
      · exact failsToSplit_ok _
      · exact failsToSplit_split _ _
    · split <;> exact failsToSplit_ok _
  unfold cropped
  split
  · split
    · exact (hpart _ _ _).bind fun _ => (hpart _ _ _).bind fun _ => (hpart _ _ _).bind fun _ =>
        (hpart _ _ _).bind fun _ => hdrop _
    · exact failsToSplit_split _ _
  · exact failsToSplit_split _ _

theorem failsToSplit_round (q : Query) (a : Names) : FailsToSplit (round q a).1 := by
  rw [round]
  generalize plan q a = planned
  obtain ⟨p, b⟩ := planned
  cases p with
  | none => exact failsToSplit_ok _
  | some p =>
    have hqueries : FailsToSplit (p.queries q) :=
      (failsToSplit_mapM (failsToSplit_subquery q) _).bind fun _ =>
        (failsToSplit_cropped q _ _).bind fun _ => failsToSplit_ok _
    intro e he
    dsimp only at he
    cases hq : p.queries q with
    | ok qs =>
        rw [hq] at he
        exact absurd he (by simp [Except.map])
    | error e' =>
        rw [hq] at he
        exact Except.error.inj he ▸ hqueries e' hq

end Fail

/-! ## The end of rounds -/

/-- The numbers of forks of queries, in no order. -/
def forkCounts (qs : List Query) : Multiset Nat := Multiset.ofList (qs.map Query.forkCount)

/-- Queries with fewer forks in the place of one. -/
theorem forkCounts_lt {before after new : List Query} {q : Query}
    (h : ∀ s ∈ new, s.forkCount < q.forkCount) :
    Multiset.IsDershowitzMannaLT (forkCounts (before ++ new ++ after))
      (forkCounts (before ++ q :: after)) := by
  refine ⟨forkCounts (before ++ after), forkCounts new, {q.forkCount}, by simp, ?_, ?_, ?_⟩
  · simp only [forkCounts, List.map_append, Multiset.coe_add]
    refine Multiset.coe_eq_coe.mpr ?_
    rw [List.append_assoc, List.append_assoc]
    exact List.perm_append_comm.append_left _
  · simp only [forkCounts, List.map_append, List.map_cons, ← Multiset.coe_singleton,
      Multiset.coe_add]
    refine Multiset.coe_eq_coe.mpr ?_
    rw [List.append_assoc]
    exact (List.perm_append_singleton _ _).symm.append_left _
  · intro n hn
    obtain ⟨s, hs, rfl⟩ := List.mem_map.mp (Multiset.mem_coe.mp hn)
    exact ⟨q.forkCount, Multiset.mem_singleton_self _, h s hs⟩

theorem rounds_succ {n : Nat} {a : Names} {qs after : List Query} {q : Query}
    (h : qs.drop (qs.takeWhile fun q => !q.containsFork).length = q :: after) :
    rounds (n + 1) a qs =
      match round q a with
      | (.error e, _) => .error e
      | (.ok none, _) => .ok qs
      | (.ok (some new), b) =>
        rounds n b ((qs.takeWhile fun q => !q.containsFork) ++ new ++ after) := by
  conv_lhs => unfold rounds
  rcases hround : round q a with ⟨e | (_ | new), b⟩ <;> simp only [h, hround]

/-- Rounds come to an end by themselves. -/
theorem rounds_end (a : Names) (qs : List Query)
    (hqs : ∀ q ∈ qs, q.ForksNested ∧ ∀ e ∈ q.filters, awaitsItself e = false) :
    ∃ n, rounds n a qs ≠ .error (.splitLimitExceeded maxRounds) := by
  have hwf : WellFounded (Multiset.IsDershowitzMannaLT : Multiset Nat → Multiset Nat → Prop) :=
    Multiset.wellFounded_isDershowitzMannaLT
  induction hcounts : forkCounts qs using hwf.induction generalizing a qs with
  | h counts ih =>
      rcases first_fork qs with ⟨hrest, -⟩ | ⟨q, after, hrest, -, hsplit, -⟩
      · refine ⟨0, ?_⟩
        unfold rounds
        dsimp only
        rw [hrest]
        simp
      · have hq := hqs q (by rw [hsplit]; simp)
        rcases hround : round q a with ⟨e | (_ | new), b⟩
        · refine ⟨1, ?_⟩
          obtain ⟨id, message, rfl⟩ := failsToSplit_round q a e (by rw [hround])
          rw [rounds_succ hrest, hround]
          simp
        · refine ⟨1, ?_⟩
          rw [rounds_succ hrest, hround]
          simp
        · have hnew := round_keeps hq.1 hq.2 hround
          have hfewer := round_progress hq.1
            (fun e he hself => absurd ((hq.2 e he).symm.trans hself) (by simp)) hround
          have hlt : Multiset.IsDershowitzMannaLT
              (forkCounts ((qs.takeWhile fun q => !q.containsFork) ++ new ++ after)) counts := by
            rw [← hcounts]
            conv_rhs => rw [hsplit]
            exact forkCounts_lt hfewer
          have hkept : ∀ s ∈ (qs.takeWhile fun q => !q.containsFork) ++ new ++ after,
              s.ForksNested ∧ ∀ e ∈ s.filters, awaitsItself e = false := by
            intro s hs
            rcases List.mem_append.mp hs with hs | hs
            · rcases List.mem_append.mp hs with hs | hs
              · exact hqs s ((List.takeWhile_sublist _).subset hs)
              · exact hnew s hs
            · refine hqs s ?_
              rw [hsplit]
              exact List.mem_append_right _ (List.mem_cons_of_mem q hs)
          obtain ⟨n, hn⟩ := ih _ hlt b _ hkept rfl
          refine ⟨n + 1, ?_⟩
          rw [rounds_succ hrest, hround]
          exact hn

end Split

/-- Every query that a round makes has fewer forks than the one it cuts, unless some fork shifts a
filter that comes after a fork in it. Where no filter comes after a fork in it, a run of rounds ends
without a limit. -/
theorem Query.split_progress {q : Query} (hq : q.ForksNested) :
    ((∀ e ∈ q.filters, Split.awaitsItself e = true → Split.isShifted q e = false) →
      ∀ a qs b, Split.round q a = (.ok (some qs), b) → ∀ s ∈ qs, s.forkCount < q.forkCount) ∧
    ((∀ e ∈ q.filters, Split.awaitsItself e = false) →
      ∀ a, ∃ n, Split.rounds n a [q] ≠ .error (.splitLimitExceeded Split.maxRounds)) := by
  refine ⟨fun hfilters a qs b hround => Split.round_progress hq hfilters hround,
    fun hfilters a => Split.rounds_end a [q] fun q' hq' => ?_⟩
  obtain rfl := List.mem_singleton.mp hq'
  exact ⟨hq, hfilters⟩

/-! ## Examples -/

namespace Query

open Split

theorem exists_round {q : Query} {p : List Query → Bool}
    (h : (round q .start).1.toOption.any (fun new => new.any p) = true) :
    ∃ qs b, round q .start = (.ok (some qs), b) ∧ p qs = true := by
  obtain ⟨new, hnew, htest⟩ := exists_eq_ok h
  obtain ⟨qs, rfl, hqs⟩ := (Option.any_eq_true _ _).mp htest
  exact ⟨qs, _, Prod.ext hnew rfl, hqs⟩

/-- The sub-query for the sales of the day before gets the filter on the date in its shifted form,
and no fork. -/
theorem split_progress_dayBeforeDate :
    ∃ q, dayBeforeDate.compile orders .default = .ok q ∧ q.shifts.length = 1 ∧
      (∃ qs b, round q .start = (.ok (some qs), b) ∧ ∀ s ∈ qs, s.forkCount < q.forkCount) ∧
      ∃ n, rounds n .start [q] ≠ .error (.splitLimitExceeded maxRounds) := by
  have hok : ((dayBeforeDate.compile orders .default).toOption.any fun q =>
      q.shifts.length == 1 && decide q.ForksNested && q.filters.all (!awaitsItself ·) &&
        (round q .start).1.toOption.any fun new => new.any fun _ => true) = true := by
    decide +kernel
  obtain ⟨q, hq, htest⟩ := exists_eq_ok hok
  simp only [Bool.and_eq_true, beq_iff_eq, decide_eq_true_eq, List.all_eq_true,
    Bool.not_eq_true'] at htest
  obtain ⟨⟨⟨hshifts, hnested⟩, hfilters⟩, hround⟩ := htest
  obtain ⟨hfewer, hend⟩ := split_progress hnested
  obtain ⟨qs, b, hqs, -⟩ := exists_round hround
  refine ⟨q, hq, hshifts, ⟨qs, b, hqs, hfewer (fun e he hself => ?_) _ qs b hqs⟩, hend hfilters _⟩
  exact absurd ((hfilters e he).symm.trans hself) (by simp)

/-- The dates of which the day before had sales, as a filter on the date. -/
def afterSales : QuerySpec :=
  { QuerySpec.empty with
    select := [⟨.field "date", none, none⟩]
    groupBy := [⟨.field "date", none, none⟩]
    filters := [⟨.binary ">" (.call "ago" [sumOfSales, .field "date"]) (.int 0), some "date",
      none⟩] }

/-- The filter comes after the fork in it and is shifted by it, so that the sub-query of the fork
has the fork again. -/
theorem split_progress_afterSales :
    ∃ q qs b, afterSales.compile orders .default = .ok q ∧ q.ForksNested ∧
      round q .start = (.ok (some qs), b) ∧ ∃ s ∈ qs, ¬ s.forkCount < q.forkCount := by
  have hok : ((afterSales.compile orders .default).toOption.any fun q =>
      decide q.ForksNested && (round q .start).1.toOption.any fun new =>
        new.any fun qs => qs.any fun s => decide (¬ s.forkCount < q.forkCount)) = true := by
    decide +kernel
  obtain ⟨q, hq, htest⟩ := exists_eq_ok hok
  rw [Bool.and_eq_true, decide_eq_true_eq] at htest
  obtain ⟨qs, b, hqs, hkept⟩ := exists_round htest.2
  obtain ⟨s, hs, hnot⟩ := List.any_eq_true.mp hkept
  exact ⟨q, qs, b, hq, htest.1, hqs, s, hs, of_decide_eq_true hnot⟩

end Query

end FormulaSql
