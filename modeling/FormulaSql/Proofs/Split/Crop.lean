import FormulaSql.Proofs.Data.Outcomes
import FormulaSql.Proofs.Formula.Rewriting
import FormulaSql.Split.Crop

/-!
# The queries of one round

What it means that the sub-queries and the cropped query of a round could be made: where each of
their formulas comes from. Later modules reason from these descriptions and do not look into the
computation again.
-/

namespace FormulaSql

namespace Split

/-! ## Sub-queries -/

theorem cutEntry_eq_ok {q : Query} {c : Cut} {e : Entry} (h : cutEntry q c = .ok e) :
    ∃ e₀ f, (q.part c.part)[c.index]? = some e₀ ∧ e₀.formula.at? c.inner = some f ∧
      e.formula = plainAggregate f ∧ e.aliasName = some c.aliasName := by
  rw [cutEntry] at h
  split at h
  next => cases h
  next e₀ he₀ =>
    split at h
    next => cases h
    next f hf =>
      obtain rfl := Except.ok.inj h
      exact ⟨e₀, f, he₀, hf, rfl, rfl⟩

theorem addSelected_eq_ok {q : Query} {c : Cut} {es es' : List Entry}
    (h : addSelected q c es = .ok es') :
    ∃ e, cutEntry q c = .ok e ∧
      ((es' = es ∧ ∃ s ∈ es, s.aliasName = some c.aliasName ∧ (s.formula == e.formula) = true) ∨
        es' = es ++ [e]) := by
  rw [addSelected] at h
  obtain ⟨e, he, h⟩ := bind_eq_ok.mp h
  refine ⟨e, he, ?_⟩
  split at h
  next s hs =>
    split at h
    next heq =>
      obtain rfl := Except.ok.inj h
      have halias := List.find?_some hs
      exact Or.inl ⟨rfl, s, List.mem_of_find?_eq_some hs, by simpa using halias, heq⟩
    next => cases h
  next => exact Or.inr (Except.ok.inj h).symm

/-- The selected entries of a sub-query: each is the entry of some cut, and every cut has one that
selects the same under the name of its column. -/
structure SelectedFrom (q : Query) (cuts : List Cut) (es : List Entry) : Prop where
  entry : ∀ e ∈ es, ∃ c ∈ cuts, cutEntry q c = .ok e
  column : ∀ c ∈ cuts, ∃ e, cutEntry q c = .ok e ∧
    ∃ s ∈ es, s.aliasName = some c.aliasName ∧ (s.formula == e.formula) = true

theorem SelectedFrom.snoc {q : Query} {cuts : List Cut} {c : Cut} {es es' : List Entry}
    (h : SelectedFrom q cuts es) (hadd : addSelected q c es = .ok es') :
    SelectedFrom q (cuts ++ [c]) es' := by
  obtain ⟨e, he, hes'⟩ := addSelected_eq_ok hadd
  obtain ⟨_, _, _, _, _, halias⟩ := cutEntry_eq_ok he
  have hsub : es ⊆ es' := by
    rcases hes' with ⟨rfl, -⟩ | rfl
    · exact List.Subset.refl _
    · exact List.subset_append_left _ _
  refine ⟨fun e' he' => ?_, fun c' hc' => ?_⟩
  · rcases hes' with ⟨rfl, -⟩ | rfl
    · obtain ⟨c', hc', heq⟩ := h.entry e' he'
      exact ⟨c', List.mem_append_left _ hc', heq⟩
    · rcases List.mem_append.mp he' with he' | he'
      · obtain ⟨c', hc', heq⟩ := h.entry e' he'
        exact ⟨c', List.mem_append_left _ hc', heq⟩
      · obtain rfl := List.mem_singleton.mp he'
        exact ⟨c, List.mem_append_right _ (List.mem_singleton.mpr rfl), he⟩
  · rcases List.mem_append.mp hc' with hc' | hc'
    · obtain ⟨e', he', s, hs, hsame⟩ := h.column c' hc'
      exact ⟨e', he', s, hsub hs, hsame⟩
    · obtain rfl := List.mem_singleton.mp hc'
      refine ⟨e, he, ?_⟩
      rcases hes' with ⟨rfl, hknown⟩ | rfl
      · exact hknown
      · exact ⟨e, List.mem_append_right _ (List.mem_singleton.mpr rfl), halias, BEq.rfl⟩

theorem selectedFrom_foldlM {q : Query} {cuts : List Cut} {es : List Entry}
    (h : cuts.foldlM (fun es c => addSelected q c es) [] = .ok es) : SelectedFrom q cuts es :=
  foldlM_invariant (I := SelectedFrom q) (fun _ _ _ _ _ hes hadd => hes.snoc hadd) []
    ⟨fun _ he => absurd he List.not_mem_nil, fun _ hc => absurd hc List.not_mem_nil⟩ h

/-- The sub-query of a mask. -/
structure SubqueryOf (q : Query) (m : Mask) (s : Query) : Prop where
  id : s.id = m.queryId
  select : ∃ es, SelectedFrom q m.cuts es ∧ s.select = es ++ m.extras.map extraEntry
  groupBy : s.groupBy = (m.extras.filter Extra.isGroupBy).map extraEntry
  filters : s.filters = maskFilters q m
  orderBy : s.orderBy = []
  sources : s.sources = q.sources

theorem subquery_spec {q : Query} {m : Mask} {s : Query} (h : subquery q m = .ok s) :
    SubqueryOf q m s := by
  rw [subquery] at h
  obtain ⟨es, hes, h⟩ := bind_eq_ok.mp h
  obtain rfl := Except.ok.inj h
  exact ⟨rfl, ⟨es, selectedFrom_foldlM hes, rfl⟩, rfl, rfl, rfl, rfl⟩

/-! ## The cropped query -/

theorem dimensionColumn_eq_some {base : Mask} {f : Formula} {n : String}
    (h : dimensionColumn base f = some n) :
    ∃ x ∈ base.extras, x.isGroupBy = true ∧ (x.expr == f) = true ∧ x.aliasName = n := by
  obtain ⟨x, hx, rfl⟩ := Option.map_eq_some_iff.mp h
  obtain ⟨hmem, hgroup⟩ := List.mem_filter.mp (List.mem_of_find?_eq_some hx)
  have hexpr := List.find?_some hx
  exact ⟨x, hmem, hgroup, hexpr, rfl⟩

/-- What becomes of a formula in the cropped query. -/
inductive Cropped (q : Query) (base : Mask) (cuts : List Cut) (compatible : Bool) (p : Part)
    (e : Entry) : Formula → Prop where
  | constant : e.formula.isConstantExpression = true → Cropped q base cuts compatible p e e.formula
  | dimension {n : String} : e.formula.isConstantExpression = false →
      hasAliasIn (dimensionAliases q) e = true → dimensionColumn base e.formula = some n →
      Cropped q base cuts compatible p e (columnAt e.formula n)
  | incompatible : e.formula.isConstantExpression = false →
      hasAliasIn (dimensionAliases q) e = false → compatible = false →
      Cropped q base cuts compatible p e incompatible
  | cut {f : Formula} : e.formula.isConstantExpression = false →
      hasAliasIn (dimensionAliases q) e = false → compatible = true →
      replaceCuts q cuts e.formula = .ok f →
      Cropped q base cuts compatible p e
        (if p == .filters then withColumns (dimensionColumn base) f else f)

theorem cropFormula_spec {q : Query} {base : Mask} {cuts : List Cut} {compatible : Bool} {p : Part}
    {e : Entry} {f : Formula} (h : cropFormula q base cuts compatible p e = .ok f) :
    Cropped q base cuts compatible p e f := by
  rw [cropFormula] at h
  split at h
  next hconst =>
    obtain rfl := Except.ok.inj h
    exact .constant hconst
  next hconst =>
    rw [Bool.not_eq_true] at hconst
    split at h
    next halias =>
      split at h
      next n hn =>
        obtain rfl := Except.ok.inj h
        exact .dimension hconst halias hn
      next => cases h
    next halias =>
      rw [Bool.not_eq_true] at halias
      split at h
      next hcompatible =>
        obtain rfl := Except.ok.inj h
        exact .incompatible hconst halias (by simpa using hcompatible)
      next hcompatible =>
        obtain ⟨g, hg, h⟩ := bind_eq_ok.mp h
        have hf : f = if p == .filters then withColumns (dimensionColumn base) g else g := by
          split at h <;> rename_i hp <;> simp only [hp] <;> exact (Except.ok.inj h).symm
        rw [hf]
        exact .cut hconst halias (by simpa using hcompatible) hg

/-- The cuts in one formula of a query. -/
def cutsAt (masks : List Mask) (p : Part) (i : Nat) : List Cut :=
  (masks.flatMap Mask.cuts).filter fun c => c.part == p && c.index == i

theorem mem_cutsAt {masks : List Mask} {p : Part} {i : Nat} {c : Cut} :
    c ∈ cutsAt masks p i ↔ c ∈ masks.flatMap Mask.cuts ∧ c.part = p ∧ c.index = i := by
  simp [cutsAt]

section Entries

variable {q : Query} {masks : List Mask} {base : Mask} {compatible : Bool} {p : Part}

/-- An entry that stays only changes its formula and its sources. -/
theorem cropEntry_some {e e' : Entry} {i : Nat}
    (h : cropEntry q masks base compatible p e i = .ok (some e')) :
    Cropped q base (cutsAt masks p i) compatible p e e'.formula ∧
      e'.aliasName = e.aliasName ∧ e'.direction = e.direction ∧
      (e.formula.isConstantExpression = true ∨ (e'.formula == e.formula) = false) := by
  rw [cropEntry] at h
  obtain ⟨f, hf, h⟩ := bind_eq_ok.mp h
  have hcropped := cropFormula_spec hf
  split at h
  next hne =>
    obtain rfl := Option.some.inj (Except.ok.inj h)
    exact ⟨hcropped, rfl, rfl, Or.inr (by simpa [bne] using hne)⟩
  next =>
    split at h
    next hconst =>
      obtain rfl := Option.some.inj (Except.ok.inj h)
      exact ⟨.constant hconst, rfl, rfl, Or.inl hconst⟩
    next => exact absurd (Except.ok.inj h) (by simp)

/-- An entry is left out if it is not constant and comes out as it was. -/
theorem cropEntry_none {e : Entry} {i : Nat}
    (h : cropEntry q masks base compatible p e i = .ok none) :
    ∃ f, Cropped q base (cutsAt masks p i) compatible p e f ∧ (f == e.formula) = true ∧
      e.formula.isConstantExpression = false := by
  rw [cropEntry] at h
  obtain ⟨f, hf, h⟩ := bind_eq_ok.mp h
  split at h
  next => exact absurd (Except.ok.inj h) (by simp)
  next heq =>
    split at h
    next => exact absurd (Except.ok.inj h) (by simp)
    next hconst =>
      exact ⟨f, cropFormula_spec hf, by simpa [bne] using heq, by simpa using hconst⟩

/-- The entries of a part with their positions, and what becomes of each. -/
def PartCropped (q : Query) (masks : List Mask) (base : Mask) (compatible : Bool) (p : Part)
    (without : List Nat) (es : List Entry) : Prop :=
  ∃ os, List.Forall₂ (fun (ei : Entry × Nat) o =>
      cropEntry q masks base compatible p ei.1 ei.2 = .ok o)
      ((q.part p).zipIdx.filter fun ei => !without.contains ei.2) os ∧
    es = os.filterMap id

theorem cropPart_spec {without : List Nat} {es : List Entry}
    (h : cropPart q masks base compatible p without = .ok es) :
    PartCropped q masks base compatible p without es := by
  rw [cropPart] at h
  obtain ⟨os, hos, h⟩ := bind_eq_ok.mp h
  exact ⟨os, mapM_eq_ok hos, (Except.ok.inj h).symm⟩

/-- Every entry of a cropped part comes from one of the query. -/
theorem PartCropped.origin {without : List Nat} {es : List Entry} {e' : Entry}
    (h : PartCropped q masks base compatible p without es) (he' : e' ∈ es) :
    ∃ e i, (q.part p)[i]? = some e ∧ i ∉ without ∧
      cropEntry q masks base compatible p e i = .ok (some e') := by
  obtain ⟨os, hos, rfl⟩ := h
  obtain ⟨o, ho, heq⟩ := List.mem_filterMap.mp he'
  obtain rfl : o = some e' := heq
  obtain ⟨⟨e, i⟩, hei, hcrop⟩ := forall₂_exists_left hos ho
  obtain ⟨hmem, hwithout⟩ := List.mem_filter.mp hei
  exact ⟨e, i, List.mem_zipIdx_iff_getElem?.mp hmem, by simpa using hwithout, hcrop⟩

/-- Every entry of the query that is not left out is in the cropped part. -/
theorem PartCropped.outcome {without : List Nat} {es : List Entry} {e : Entry} {i : Nat}
    (h : PartCropped q masks base compatible p without es) (he : (q.part p)[i]? = some e)
    (hi : i ∉ without) :
    cropEntry q masks base compatible p e i = .ok none ∨
      ∃ e' ∈ es, cropEntry q masks base compatible p e i = .ok (some e') := by
  obtain ⟨os, hos, rfl⟩ := h
  have hmem : (e, i) ∈ (q.part p).zipIdx.filter fun ei => !without.contains ei.2 :=
    List.mem_filter.mpr ⟨List.mem_zipIdx_iff_getElem?.mpr he, by simpa using hi⟩
  obtain ⟨o, ho, hcrop⟩ := forall₂_exists_right hos hmem
  cases o with
  | none => exact Or.inl hcrop
  | some e' => exact Or.inr ⟨e', List.mem_filterMap.mpr ⟨some e', ho, rfl⟩, hcrop⟩

/-- Whether it is left out or not, something has become of the formula of an entry. -/
theorem exists_cropped {es : List Entry} {e : Entry} {i : Nat}
    (h : cropEntry q masks base compatible p e i = .ok none ∨
      ∃ e' ∈ es, cropEntry q masks base compatible p e i = .ok (some e')) :
    ∃ f, Cropped q base (cutsAt masks p i) compatible p e f := by
  rcases h with hnone | ⟨e', -, hsome⟩
  · obtain ⟨f, hf, -⟩ := cropEntry_none hnone
    exact ⟨f, hf⟩
  · exact ⟨_, (cropEntry_some hsome).1⟩

end Entries

/-- The query that reads from the sub-queries of the masks. -/
structure CroppedOf (q : Query) (masks : List Mask) (base : Mask) (compatible : Bool)
    (c : Query) : Prop where
  id : c.id = q.id
  select : PartCropped q masks base compatible .select [] c.select
  groupBy : c.groupBy = [] ∨ PartCropped q masks base compatible .groupBy [] c.groupBy
  orderBy : PartCropped q masks base compatible .orderBy [] c.orderBy
  filters : PartCropped q masks base compatible .filters base.filterIndices c.filters
  sources : c.sources = masks.map fun m => .subquery m.queryId m.queryId m.queryId m.columns

theorem dropNeedlessGrouping_eq_ok {q c : Query} (h : dropNeedlessGrouping q = .ok c) :
    c = q ∨ c = { q with groupBy := [] } := by
  rw [dropNeedlessGrouping] at h
  obtain ⟨known, -, h⟩ := bind_eq_ok.mp h
  split at h
  · exact Or.inr (Except.ok.inj h).symm
  · exact Or.inl (Except.ok.inj h).symm

theorem cropped_spec {q c : Query} {masks : List Mask} {compatible : Bool}
    (h : cropped q masks compatible = .ok c) :
    ∃ base others, masks = base :: others ∧ base.isBase = true ∧
      CroppedOf q masks base compatible c ∧
      c.joinOn = if compatible then others.filterMap (joinFor? base) else [] := by
  unfold cropped at h
  split at h
  next base others =>
    split at h
    next hbase =>
      obtain ⟨select, hselect, h⟩ := bind_eq_ok.mp h
      obtain ⟨groupBy, hgroupBy, h⟩ := bind_eq_ok.mp h
      obtain ⟨orderBy, horderBy, h⟩ := bind_eq_ok.mp h
      obtain ⟨filters, hfilters, h⟩ := bind_eq_ok.mp h
      refine ⟨base, others, rfl, hbase, ?_⟩
      rcases dropNeedlessGrouping_eq_ok h with rfl | rfl
      · exact ⟨⟨rfl, cropPart_spec hselect, Or.inr (cropPart_spec hgroupBy),
          cropPart_spec horderBy, cropPart_spec hfilters, rfl⟩, rfl⟩
      · exact ⟨⟨rfl, cropPart_spec hselect, Or.inl rfl, cropPart_spec horderBy,
          cropPart_spec hfilters, rfl⟩, rfl⟩
    next => cases h
  next => cases h

end Split

end FormulaSql
