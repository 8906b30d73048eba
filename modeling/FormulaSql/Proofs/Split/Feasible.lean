import FormulaSql.Proofs.Query.DimensionNames
import FormulaSql.Proofs.Split.Regrouping

/-!
# Plans that can be carried out

The sub-queries of a plan can always be made: each cut leads to a node, and cuts that share a column
compute the same. Columns can be put at all cuts of a formula, because no cut is inside of another.
The base groups by every dimension of the query, so it has a column for whatever is one.

* `Split.exists_subquery` gives the sub-query of each mask
* `Split.exists_cropPart` gives the parts of the cropped query, if the alias of a dimension stands
  for this dimension
-/

namespace FormulaSql

/-! ## Steps that never fail -/

namespace Formula

theorem Walks.exists_at? {f : Formula} {p : Path} (h : f.Walks p) : ∃ x, f.at? p = some x := by
  induction p generalizing f with
  | nil => exact ⟨f, rfl⟩
  | cons i p ih =>
      obtain ⟨c, hc, h⟩ := h
      obtain ⟨x, hx⟩ := ih h
      exact ⟨x, (at?_cons_of_child p (autonomous_getElem?.mp hc).2).trans hx⟩

end Formula

namespace Split

open Formula

variable {q : Query} {a b : Names} {p : Plan}

/-! ## Columns at cuts -/

theorem exists_replaceCuts {cuts : List Cut} {f : Formula}
    (hat : ∀ c ∈ cuts, ∃ x, f.at? c.outer = some x)
    (hapart : cuts.Pairwise fun c d => PathsApart c.outer d.outer) :
    ∃ g, replaceCuts q cuts f = .ok g := by
  let P (cs : List Cut) (f : Formula) : Prop :=
    (∀ c ∈ cs, ∃ x, f.at? c.outer = some x) ∧ cs.Pairwise fun c d => PathsApart c.outer d.outer
  refine exists_foldlM (P := P) ?_ ⟨hat, hapart⟩
  rintro c cs f ⟨hat, hapart⟩
  obtain ⟨x, hx⟩ := hat c List.mem_cons_self
  obtain ⟨g, hg⟩ := exists_replaceAt? hx (.field c.aliasName)
  rw [List.pairwise_cons] at hapart
  refine ⟨g, by rw [hg], fun d hd => ?_, hapart.2⟩
  obtain ⟨y, hy⟩ := hat d (List.mem_cons_of_mem c hd)
  obtain ⟨hcd, hdc⟩ := hapart.1 d hd
  exact ⟨y, (at?_replaceAt? hg hcd hdc).trans hy⟩

theorem cutsAt_apart (hplan : plan q a = (some p, b)) (part : Part) (i : Nat) :
    (cutsAt p.masks part i).Pairwise fun c d => PathsApart c.outer d.outer := by
  have hplaces := plan_places hplan
  rw [List.pairwise_map] at hplaces
  refine (hplaces.filter _).imp_of_mem fun {c d} hc hd hbeside => ?_
  obtain ⟨-, hcpart, hcindex⟩ := mem_cutsAt.mp hc
  obtain ⟨-, hdpart, hdindex⟩ := mem_cutsAt.mp hd
  have hpart : c.part = d.part := hcpart.trans hdpart.symm
  have hindex : c.index = d.index := hcindex.trans hdindex.symm
  constructor
  · exact fun hpre => hbeside.1 ⟨hpart, hindex, hpre⟩
  · exact fun hpre => hbeside.2 ⟨hpart.symm, hindex.symm, hpre⟩

/-- All cuts of a formula can be made. -/
theorem exists_replaceCuts_cutsAt (hplan : plan q a = (some p, b)) {part : Part} {i : Nat}
    {e : Entry} (he : (q.part part)[i]? = some e) :
    ∃ g, replaceCuts q (cutsAt p.masks part i) e.formula = .ok g := by
  obtain ⟨-, hplanned⟩ := plan_spec hplan
  obtain ⟨forks, hcuts⟩ := hplanned.cuts
  refine exists_replaceCuts (fun c hc => ?_) (cutsAt_apart hplan part i)
  exact (hcuts.walks hc he).exists_at?

/-! ## Entries of cuts -/

theorem exists_cutEntry (hplan : plan q a = (some p, b)) {c : Cut}
    (hc : c ∈ p.masks.flatMap Mask.cuts) : ∃ e, cutEntry q c = .ok e := by
  obtain ⟨-, hplanned⟩ := plan_spec hplan
  obtain ⟨forks, hcuts⟩ := hplanned.cuts
  obtain ⟨e, x, he, hx⟩ : ∃ e x, (q.part c.part)[c.index]? = some e ∧
      e.formula.at? c.inner = some x := by
    rcases hcuts.other c hc with hfork | ⟨hinner, -, e, he, -⟩
    · obtain ⟨s, hs, heq⟩ := hcuts.fork c hfork
      have hsite := mem_sites_of_taken hs
      obtain ⟨-, e, he, -⟩ := mem_sites_iff.mp hsite
      rw [heq]
      exact ⟨e, s.fork.result, he, at?_result hsite he⟩
    · rw [hinner]
      obtain ⟨x, hx⟩ := (hcuts.walks (mem_cutsAt.mpr ⟨hc, rfl, rfl⟩) he).exists_at?
      exact ⟨e, x, he, hx⟩
  rw [cutEntry, he]
  dsimp only
  rw [hx]
  exact ⟨_, rfl⟩

/-- Equal nodes are made plain in the same way. -/
theorem plainAggregate_congr {f g : Formula} (h : (f == g) = true) :
    (plainAggregate f == plainAggregate g) = true := by
  have haggregate := isAggregateCall_eq_of_same h
  cases hk : f.kind with
  | call c =>
      have houtline : g.kind.outline = (Kind.call c).outline :=
        hk ▸ outline_eq_of_same h (by simp [hk])
      obtain ⟨-, hlevel, hcs⟩ := same_iff.mp h
      rw [children, hk] at hcs
      obtain ⟨c', hk', hname, -, hargs, -⟩ := Kind.exists_call_of_outline houtline hcs
      rw [plainAggregate, plainAggregate, hk, hk']
      dsimp only
      rw [← haggregate]
      split
      · refine same_iff.mpr ⟨?_, hlevel, ?_⟩
        · have hlength : c.args.map (fun _ => ()) = c'.args.map fun _ => () := by
            rw [List.map_const', List.map_const', hargs.length_eq]
          simp [Formula.kind, Kind.shape, Kind.map, hname, hlength]
        · simpa [children, Formula.kind, Kind.children, Lod.dims] using hargs
      · exact h
  | _ =>
      have hnot : f.isAggregateCall = false := by simp [isAggregateCall, call?, hk]
      have hself {x : Formula} (hx : x.isAggregateCall = false) : plainAggregate x = x := by
        rw [plainAggregate]
        split
        · rw [if_neg (by simp [hx])]
        · rfl
      rwa [hself hnot, hself (haggregate ▸ hnot)]

/-- A column belongs to one cut, or to forks with the same result. -/
theorem cut_cases_of_aliasName (hplan : plan q a = (some p, b)) {c d : Cut}
    (hc : c ∈ p.masks.flatMap Mask.cuts) (hd : d ∈ p.masks.flatMap Mask.cuts)
    (hname : c.aliasName = d.aliasName) :
    c = d ∨ ∃ s ∈ taken q, ∃ t ∈ taken q, ∃ n, c = s.cut n ∧ d = t.cut n := by
  obtain ⟨based, rfl, rfl, -⟩ := plan_eq_some hplan
  obtain ⟨hle, hmasks, hforks, -⟩ := forkMasks_spec q a
  obtain ⟨-, -, hcuts⟩ := withBase_spec hle hmasks
  obtain ⟨hle', huncut⟩ := takenOnce_mapM (v := Cut.aliasName)
    (f := fun place : Part × Nat × Path => do
      let n ← freshColumn
      return (⟨place.1, place.2.1, place.2.2, place.2.2, n⟩ : Cut))
    (fun _ a => ⟨(freshColumn_ensures a).1, takenOnce_freshColumn a⟩)
    (uncutPlaces q ((forkMasks q a).1.flatMap Mask.cuts)) (forkMasks q a).2
  rw [completeBase_cuts, mergeWindows_cuts, hcuts] at hc hd
  have hold {x : Cut} (hx : x ∈ (forkMasks q a).1.flatMap Mask.cuts) :
      FreshColumn a (forkMasks q a).2 x.aliasName := by
    obtain ⟨m, hm, hx⟩ := List.mem_flatMap.mp hx
    exact ((hmasks.mask m hm).cut x hx).1
  rcases hc with hc | hc <;> rcases hd with hd | hd
  · obtain ⟨s, hs, hcs⟩ := hforks c hc
    obtain ⟨t, ht, hdt⟩ := hforks d hd
    exact Or.inr ⟨s, hs, t, ht, c.aliasName, hcs, hname ▸ hdt⟩
  · exact absurd hname ((hold hc).ne hle (huncut.fresh _ (List.mem_map_of_mem hd)))
  · exact absurd hname.symm ((hold hd).ne hle (huncut.fresh _ (List.mem_map_of_mem hc)))
  · exact Or.inl (List.inj_on_of_nodup_map huncut.nodup hc hd hname)

theorem cutEntry_same (hplan : plan q a = (some p, b)) {c d : Cut} {e e' : Entry}
    (hc : c ∈ p.masks.flatMap Mask.cuts) (hd : d ∈ p.masks.flatMap Mask.cuts)
    (hname : c.aliasName = d.aliasName) (he : cutEntry q c = .ok e) (he' : cutEntry q d = .ok e') :
    (e.formula == e'.formula) = true := by
  rcases cut_cases_of_aliasName hplan hc hd hname with rfl | ⟨s, hs, t, ht, n, rfl, rfl⟩
  · rw [Except.ok.inj (he.symm.trans he')]
    exact BEq.rfl
  · have hresult := ((column_eq_iff hplan hs ht hc hd).mp rfl).1
    obtain ⟨e₀, f, he₀, hf, hformula, -⟩ := cutEntry_eq_ok he
    obtain ⟨e₁, g, he₁, hg, hformula', -⟩ := cutEntry_eq_ok he'
    have hsf := (at?_result (mem_sites_of_taken hs) he₀).symm.trans hf
    have htg := (at?_result (mem_sites_of_taken ht) he₁).symm.trans hg
    rw [hformula, hformula', ← Option.some.inj hsf, ← Option.some.inj htg]
    exact plainAggregate_congr hresult

/-- Every sub-query of a plan can be made. -/
theorem exists_subquery (hplan : plan q a = (some p, b)) {m : Mask} (hm : m ∈ p.masks) :
    ∃ x, subquery q m = .ok x := by
  have hmem {c : Cut} (hc : c ∈ m.cuts) : c ∈ p.masks.flatMap Mask.cuts :=
    List.mem_flatMap.mpr ⟨m, hm, hc⟩
  let P (cs : List Cut) (es : List Entry) : Prop :=
    cs ⊆ m.cuts ∧ ∀ e ∈ es, ∃ c ∈ m.cuts, cutEntry q c = .ok e
  have hstep : ∀ c cs es, P (c :: cs) es → ∃ es', addSelected q c es = .ok es' ∧ P cs es' := by
    rintro c cs es ⟨hcs, hes⟩
    have hc := hcs List.mem_cons_self
    have hrest : cs ⊆ m.cuts := fun d hd => hcs (List.mem_cons_of_mem c hd)
    obtain ⟨e, he⟩ := exists_cutEntry hplan (hmem hc)
    simp only [addSelected, he, bind, Except.bind]
    split
    next s hs =>
      obtain ⟨d, hd, hsd⟩ := hes s (List.mem_of_find?_eq_some hs)
      have hname : s.aliasName = some c.aliasName := by simpa using List.find?_some hs
      obtain ⟨-, -, -, -, -, hdname⟩ := cutEntry_eq_ok hsd
      have hdc : d.aliasName = c.aliasName := Option.some.inj (hdname.symm.trans hname)
      rw [if_pos (cutEntry_same hplan (hmem hd) (hmem hc) hdc hsd he)]
      exact ⟨es, rfl, hrest, hes⟩
    next =>
      refine ⟨es ++ [e], rfl, hrest, fun s hs => ?_⟩
      rcases List.mem_append.mp hs with hs | hs
      · exact hes s hs
      · exact ⟨c, hc, List.mem_singleton.mp hs ▸ he⟩
  have hstart : P m.cuts [] := ⟨List.Subset.refl _, fun e he => absurd he List.not_mem_nil⟩
  obtain ⟨es, hes⟩ := exists_foldlM hstep hstart
  rw [subquery, hes]
  exact ⟨_, rfl⟩

/-! ## Dimensions -/

/-- The base is completed and merged without losing what it selects. -/
theorem plan_base_keeps (hplan : plan q a = (some p, b)) {base : Mask} {others : List Mask}
    (hmasks : p.masks = base :: others) :
    ∃ base₀ others₀, (withBase q (forkMasks q a).1 (forkMasks q a).2).1 = base₀ :: others₀ ∧
      ∀ x ∈ base₀.extras, x ∈ base.extras := by
  obtain ⟨base₀, others₀, hbased, -⟩ := withBase_shape (q := q) (a := a)
  refine ⟨base₀, others₀, hbased, fun x hx => ?_⟩
  obtain ⟨based, rfl, rfl, -⟩ := plan_eq_some hplan
  rw [hbased] at hmasks
  rcases mergeWindows_eq base₀ others₀ with hsame | ⟨other, -, -, hmerged⟩
  · rw [hsame] at hmasks
    obtain ⟨rfl, -⟩ := List.cons.inj hmasks
    exact (foldlM_addFresh _ _ _).1 x hx
  · rw [hmerged] at hmasks
    obtain ⟨rfl, -⟩ := List.cons.inj hmasks
    exact (selects_addExtras _ _).1 x hx

/-- The base has a column for every dimension that is not constant. -/
theorem exists_dimensionColumn (hplan : plan q a = (some p, b)) {base : Mask} {others : List Mask}
    (hmasks : p.masks = base :: others) {d : Formula} (hd : d ∈ q.dimensions)
    (hconst : d.isConstantExpression = false) : ∃ n, dimensionColumn base d = some n := by
  obtain ⟨base₀, others₀, hbased, hkeeps⟩ := plan_base_keeps hplan hmasks
  have hreal : d ∈ realDimensions q := List.mem_filter.mpr ⟨hd, by simp [hconst]⟩
  have hfirst : ∃ x ∈ base₀.extras, x.isGroupBy = true ∧ (x.expr == d) = true := by
    rcases withBase_cases q (forkMasks q a).1 (forkMasks q a).2 with
      ⟨i, m, -, hcandidate, hm, heq⟩ | ⟨own, hown, heq⟩
    · rw [heq] at hbased
      obtain ⟨rfl, -⟩ := List.cons.inj hbased
      obtain ⟨d', hd', hsame⟩ :=
        contains_eq_true.mp ((of_baseCandidate hcandidate hm).1 d hreal)
      obtain ⟨x, hx, rfl⟩ := List.mem_map.mp hd'
      obtain ⟨hx, hgroup⟩ := List.mem_filter.mp hx
      exact ⟨x, hx, hgroup, BEq.symm hsame⟩
    · rw [heq] at hbased
      obtain ⟨rfl, -⟩ := List.cons.inj hbased
      have hmem : asDimension d ∈ selection own.1.extras := by
        rw [hown, selection_ownBase]
        exact List.mem_map_of_mem hd
      obtain ⟨x, hx, heq⟩ := List.mem_map.mp hmem
      obtain ⟨hexpr, hgroup⟩ := Prod.mk.inj heq
      exact ⟨x, hx, by simp [hgroup, hconst], hexpr ▸ BEq.rfl⟩
  obtain ⟨x, hx, hgroup, hsame⟩ := hfirst
  refine Option.isSome_iff_exists.mp (aliasIn_isSome_iff.mpr ⟨x, ?_, hsame⟩)
  exact List.mem_filter.mpr ⟨hkeeps x hx, hgroup⟩

variable {base : Mask} {others : List Mask} {part : Part}

/-- An entry with the alias of a dimension is one. -/
theorem exists_dimension (hq : q.NamesDimensions) (hpart : part ≠ .joinOn) {e : Entry}
    (he : e ∈ q.part part) (halias : hasAliasIn (dimensionAliases q) e = true) :
    ∃ d ∈ q.groupBy, d.aliasName = e.aliasName ∧ (d.formula == e.formula) = true := by
  obtain ⟨n, hn, hname⟩ := hasAliasIn_iff.mp halias
  obtain ⟨d, hd, hdn⟩ := List.mem_filterMap.mp hn
  exact ⟨d, hd, hdn.trans hname.symm, hq part (Part.mem_all part) hpart e he d hd n hname hdn⟩

/-- What becomes of an entry can be computed. -/
theorem exists_cropEntry (hplan : plan q a = (some p, b)) (hmasks : p.masks = base :: others)
    (hq : q.NamesDimensions) (hpart : part ≠ .joinOn) {e : Entry} {i : Nat}
    (he : (q.part part)[i]? = some e) :
    ∃ o, cropEntry q p.masks base p.compatible part e i = .ok o := by
  obtain ⟨f, hf⟩ : ∃ f, cropFormula q base (cutsAt p.masks part i) p.compatible part e = .ok f := by
    rw [cropFormula]
    split
    next => exact ⟨_, rfl⟩
    next hconst =>
      rw [Bool.not_eq_true] at hconst
      split
      next halias =>
        obtain ⟨d, hd, -, hsame⟩ := exists_dimension hq hpart (List.mem_of_getElem? he) halias
        obtain ⟨n, hn⟩ := exists_dimensionColumn hplan hmasks (List.mem_map_of_mem hd)
          (Formula.not_isConstantExpression_of_same (BEq.symm hsame) hconst)
        rw [dimensionColumn_congr hsame] at hn
        rw [hn]
        exact ⟨_, rfl⟩
      next =>
        split
        next => exact ⟨_, rfl⟩
        next =>
          obtain ⟨g, hg⟩ := exists_replaceCuts_cutsAt hplan he
          rw [hg]
          change ∃ f, (if part == .filters then _ else _) = _
          split <;> exact ⟨_, rfl⟩
  rw [cropEntry, ← cutsAt, hf]
  change ∃ o, (if f != e.formula then _ else if e.formula.isConstantExpression then _ else _) = _
  split
  · exact ⟨_, rfl⟩
  · split <;> exact ⟨_, rfl⟩

theorem exists_cropPart (hplan : plan q a = (some p, b)) (hmasks : p.masks = base :: others)
    (hq : q.NamesDimensions) (hpart : part ≠ .joinOn) (without : List Nat) :
    ∃ es, cropPart q p.masks base p.compatible part without = .ok es := by
  have hentry : ∀ ei ∈ (q.part part).zipIdx.filter fun ei => !without.contains ei.2,
      ∃ o, cropEntry q p.masks base p.compatible part ei.1 ei.2 = .ok o := by
    intro ei hei
    have hmem := List.mem_zipIdx_iff_getElem?.mp (List.mem_filter.mp hei).1
    exact exists_cropEntry hplan hmasks hq hpart hmem
  obtain ⟨os, hos⟩ := exists_mapM hentry
  refine ⟨os.filterMap id, ?_⟩
  rw [cropPart]
  simp only [hos, bind, Except.bind]
  rfl

end Split

end FormulaSql
