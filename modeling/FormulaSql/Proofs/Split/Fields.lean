import FormulaSql.Proofs.Split.Rounds

/-!
# Where the fields of new queries come from

The sub-queries of a round read from the sources of the query that is cut, and they mention no field
that it does not mention. The cropped query may also mention the columns of the sub-queries.
-/

namespace FormulaSql

/-- The field stands in a selected expression, a dimension, a filter or an ordering. -/
def Query.Mentions (q : Query) (n : String) : Prop :=
  ∃ p, p ≠ .joinOn ∧ ∃ e ∈ q.part p, e.formula.Mentions n

theorem Query.HasNode.within {q : Query} {f : Formula} (h : q.HasNode f) : f.Within q.Mentions := by
  obtain ⟨p, hp, e, he, hf⟩ := h
  exact fun n hn => ⟨p, hp, e, he, hn.of_node hf⟩

namespace Split

variable {S : String → Prop}

/-! ## Rewriting with columns -/

theorem within_field {n : String} (h : S n) : (Formula.field n).Within S := by
  intro m hm
  exact Formula.mentions_field_iff.mp hm ▸ h

theorem Drawn.within {q : Query} {f : Formula} (h : Drawn q f) : f.Within q.Mentions := by
  rcases h with rfl | h
  · exact fun n hn => absurd hn (Formula.not_mentions_of_constant (by decide) n)
  · exact h.within

theorem within_columnAt (f : Formula) {n : String} (h : S n) : (columnAt f n).Within S := by
  refine Formula.within_iff.mpr ⟨?_, ?_⟩
  · intro m hm
    exact Option.some.inj hm ▸ h
  · exact fun c hc => absurd hc List.not_mem_nil

theorem mentions_columnAt (f : Formula) (n : String) : (columnAt f n).Mentions n :=
  Formula.mentions_iff.mpr (Or.inl rfl)

theorem not_mentions_incompatible (n : String) : ¬ incompatible.Mentions n := by
  rw [Formula.mentions_iff, not_or]
  exact ⟨fun hn => absurd (show none = some n from hn) (by simp),
    fun ⟨c, hc, _⟩ => absurd hc List.not_mem_nil⟩

theorem within_withColumns {alias? : Formula → Option String} {f : Formula}
    (halias : ∀ g n, alias? g = some n → S n) (hf : f.Within S) :
    (withColumns alias? f).Within S := by
  refine Formula.within_transform ?_ hf
  intro above g r _ _ hr
  obtain ⟨n, hn, rfl⟩ := Option.map_eq_some_iff.mp hr
  exact within_columnAt g (halias g n hn)

theorem within_replaceAll {f target replacement : Formula} (hf : f.Within S)
    (hr : replacement.Within S) : (f.replaceAll target replacement).Within S := by
  refine Formula.within_transform ?_ hf
  intro above g r _ _ h
  rw [Formula.replaceRule] at h
  split at h
  · exact Option.some.inj h ▸ hr
  · exact absurd h (by simp)

theorem within_shiftFormula {shifts : List (FilterShift Formula)} {f : Formula}
    (hshifts : ∀ s ∈ shifts, s.target.Within S) (hf : f.Within S) :
    (shiftFormula shifts f).Within S := by
  rw [shiftFormula]
  induction shifts generalizing f with
  | nil => exact hf
  | cons s ss ih =>
      refine ih (fun t ht => hshifts t (List.mem_cons_of_mem s ht)) ?_
      exact within_replaceAll hf (hshifts s List.mem_cons_self)

/-- A node stays as it is, or it becomes a call of its arguments with nothing beside them. -/
theorem plainAggregate_cases (f : Formula) :
    plainAggregate f = f ∨
      ∃ name args, args ⊆ f.children ∧
        (plainAggregate f).kind = .call ⟨name, args, .inherited, [], NameSet.empty⟩ ∧
        (plainAggregate f).children = args := by
  unfold plainAggregate
  split
  next c hc =>
    split
    · refine Or.inr ⟨c.name, c.args, fun d hd => ?_, rfl, ?_⟩
      · rw [Formula.children, hc]
        simp [Kind.children, hd]
      · simp [Formula.children, Formula.kind, Kind.children, Lod.dims]
    · exact Or.inl rfl
  next => exact Or.inl rfl

theorem within_plainAggregate {f : Formula} (hf : f.Within S) : (plainAggregate f).Within S := by
  rcases plainAggregate_cases f with heq | ⟨name, args, hargs, hkind, hchildren⟩
  · rwa [heq]
  · refine Formula.within_iff.mpr ⟨fun n hn => ?_, fun d hd => ?_⟩
    · rw [Formula.field?_eq, hkind] at hn
      cases hn
    · exact hf.of_child (hargs (hchildren ▸ hd))

theorem replaceCuts_cons {q : Query} {c : Cut} {cs : List Cut} {f g : Formula}
    (h : replaceCuts q (c :: cs) f = .ok g) :
    ∃ f', f.replaceAt? (.field c.aliasName) c.outer = some f' ∧ replaceCuts q cs f' = .ok g := by
  rw [replaceCuts, List.foldlM_cons] at h
  obtain ⟨f', hf', h⟩ := bind_eq_ok.mp h
  split at hf'
  next f'' hreplace => exact ⟨f', Except.ok.inj hf' ▸ hreplace, h⟩
  next => cases hf'

theorem within_replaceCuts {q : Query} {cuts : List Cut} {f g : Formula}
    (hcuts : ∀ c ∈ cuts, S c.aliasName) (hf : f.Within S) (h : replaceCuts q cuts f = .ok g) :
    g.Within S := by
  induction cuts generalizing f with
  | nil => exact Except.ok.inj h ▸ hf
  | cons c cs ih =>
      obtain ⟨f', hf', h⟩ := replaceCuts_cons h
      refine ih (fun d hd => hcuts d (List.mem_cons_of_mem c hd)) ?_ h
      exact Formula.within_replaceAt? hf (within_field (hcuts c List.mem_cons_self)) hf'

/-! ## Sub-queries -/

/-- A formula that a sub-query can have: a node of the query, without the level of detail if it is
an aggregation, a constant, or a filter that is shifted by parts of a fork. -/
inductive Derived (q : Query) : Formula → Prop where
  | drawn {f : Formula} : Drawn q f → Derived q f
  | plain {f : Formula} : q.HasNode f → Derived q (plainAggregate f)
  | shifted {e : Entry} {s : Site} : e ∈ q.filters → s ∈ sites q →
      Derived q (shiftFormula s.fork.shifts e.formula)

theorem hasNode_of_part {q : Query} {p : Part} {e : Entry} (hp : p ≠ .joinOn) (he : e ∈ q.part p) :
    q.HasNode e.formula :=
  ⟨p, hp, e, he, Formula.self_mem_nodes _⟩

section Subquery

variable {q s : Query} {m : Mask} {a b : Names}

theorem derived_maskFilters (hm : MaskOf q a b m) {e : Entry} (he : e ∈ maskFilters q m) :
    Derived q e.formula := by
  rcases List.mem_append.mp he with he | he
  · obtain ⟨⟨e', i⟩, hei, rfl⟩ := List.mem_map.mp he
    have hmem : e' ∈ q.part .filters := List.fst_mem_of_mem_zipIdx (List.mem_filter.mp hei).1
    exact .drawn (Or.inr (hasNode_of_part (by simp) hmem))
  · obtain ⟨e₀, he₀, t, ht, rfl⟩ := hm.addFilter e he
    exact .shifted he₀ ht

theorem derived_cutEntry {c : Cut} {e : Entry} (hc : c.part ∈ Part.splittable)
    (h : cutEntry q c = .ok e) : Derived q e.formula := by
  obtain ⟨e₀, f, he₀, hf, hformula, -⟩ := cutEntry_eq_ok h
  rw [hformula]
  have hnode := hasNode_of_part (Part.ne_joinOn_of_splittable hc) (List.mem_of_getElem? he₀)
  exact .plain (hnode.of_node (Formula.mem_nodes_of_at? hf))

/-- Where the formulas of a sub-query come from. -/
theorem SubqueryOf.derived (hs : SubqueryOf q m s) (hm : MaskOf q a b m) {p : Part} {e : Entry}
    (hp : p ≠ .joinOn) (he : e ∈ s.part p) : Derived q e.formula := by
  cases p with
  | joinOn => exact absurd rfl hp
  | select =>
      obtain ⟨es, hes, hselect⟩ := hs.select
      rw [Query.part, hselect] at he
      rcases List.mem_append.mp he with he | he
      · obtain ⟨c, hc, hcut⟩ := hes.entry e he
        exact derived_cutEntry (hm.cut c hc).2 hcut
      · obtain ⟨x, hx, rfl⟩ := List.mem_map.mp he
        exact .drawn (hm.extra x hx).2
  | groupBy =>
      rw [Query.part, hs.groupBy] at he
      obtain ⟨x, hx, rfl⟩ := List.mem_map.mp he
      exact .drawn (hm.extra x (List.mem_filter.mp hx).1).2
  | filters =>
      rw [Query.part, hs.filters] at he
      exact derived_maskFilters hm he
  | orderBy =>
      rw [Query.part, hs.orderBy] at he
      exact absurd he List.not_mem_nil

theorem Derived.within {f : Formula} (h : Derived q f) : f.Within q.Mentions := by
  cases h with
  | drawn hf => exact hf.within
  | plain hf => exact within_plainAggregate hf.within
  | shifted he ht =>
      refine within_shiftFormula (fun shift hshift => ?_)
        (hasNode_of_part (p := .filters) (by simp) he).within
      exact (hasNode_shift ht hshift (by simp [FilterShift.parts])).within

/-- A sub-query mentions nothing new. -/
theorem SubqueryOf.mentions (hs : SubqueryOf q m s) (hm : MaskOf q a b m) {n : String}
    (h : s.Mentions n) : q.Mentions n := by
  obtain ⟨p, hp, e, he, hn⟩ := h
  exact (hs.derived hm hp he).within n hn

end Subquery

/-! ## The cropped query -/

/-- The name of a column of some sub-query. -/
def IsColumn (masks : List Mask) (n : String) : Prop := ∃ m ∈ masks, n ∈ m.columns

theorem mem_columns_iff {m : Mask} {n : String} :
    n ∈ m.columns ↔ (∃ c ∈ m.cuts, c.aliasName = n) ∨ ∃ x ∈ m.extras, x.aliasName = n := by
  simp [Mask.columns]

theorem MasksOf.freshColumn {q : Query} {a b : Names} {masks : List Mask} {n : String}
    (h : MasksOf q a b masks) (hn : IsColumn masks n) : FreshColumn a b n := by
  obtain ⟨m, hm, hn⟩ := hn
  rcases mem_columns_iff.mp hn with ⟨c, hc, rfl⟩ | ⟨x, hx, rfl⟩
  · exact ((h.mask m hm).cut c hc).1
  · exact ((h.mask m hm).extra x hx).1

section Crop

variable {q : Query} {base : Mask} {others : List Mask} {compatible : Bool} {p : Part} {i : Nat}

theorem isColumn_cutsAt {masks : List Mask} {c : Cut} (hc : c ∈ cutsAt masks p i) :
    IsColumn masks c.aliasName := by
  obtain ⟨m, hm, hcm⟩ := List.mem_flatMap.mp (mem_cutsAt.mp hc).1
  exact ⟨m, hm, mem_columns_iff.mpr (Or.inl ⟨c, hcm, rfl⟩)⟩

theorem isColumn_dimensionColumn {f : Formula} {n : String} (h : dimensionColumn base f = some n) :
    IsColumn (base :: others) n := by
  obtain ⟨x, hx, -, -, rfl⟩ := dimensionColumn_eq_some h
  exact ⟨base, List.mem_cons_self, mem_columns_iff.mpr (Or.inr ⟨x, hx, rfl⟩)⟩

theorem Cropped.within {e : Entry} {f : Formula}
    (h : Cropped q base (cutsAt (base :: others) p i) compatible p e f) :
    f.Within fun n => IsColumn (base :: others) n ∨ e.formula.Mentions n := by
  have hself : e.formula.Within fun n => IsColumn (base :: others) n ∨ e.formula.Mentions n :=
    fun n hn => Or.inr hn
  cases h with
  | constant => exact hself
  | dimension _ _ hn => exact within_columnAt _ (Or.inl (isColumn_dimensionColumn hn))
  | incompatible => exact fun n hn => absurd hn (not_mentions_incompatible n)
  | cut _ _ _ hg =>
      have hcut := within_replaceCuts (fun c hc => Or.inl (isColumn_cutsAt hc)) hself hg
      split
      · exact within_withColumns (fun g n hn => Or.inl (isColumn_dimensionColumn hn)) hcut
      · exact hcut

end Crop

/-- Every entry of the cropped query comes from one of the query that is cut. -/
theorem CroppedOf.origin {q c : Query} {masks : List Mask} {base : Mask} {compatible : Bool}
    (h : CroppedOf q masks base compatible c) {p : Part} {e' : Entry} (hp : p ≠ .joinOn)
    (he' : e' ∈ c.part p) :
    ∃ e i, (q.part p)[i]? = some e ∧ (p = .filters → i ∉ base.filterIndices) ∧
      cropEntry q masks base compatible p e i = .ok (some e') := by
  cases p with
  | joinOn => exact absurd rfl hp
  | select =>
      obtain ⟨e, i, he, -, hcrop⟩ := h.select.origin he'
      exact ⟨e, i, he, fun h => absurd h (by simp), hcrop⟩
  | groupBy =>
      rcases h.groupBy with hnil | hgroupBy
      · rw [Query.part, hnil] at he'
        exact absurd he' List.not_mem_nil
      · obtain ⟨e, i, he, -, hcrop⟩ := hgroupBy.origin he'
        exact ⟨e, i, he, fun h => absurd h (by simp), hcrop⟩
  | orderBy =>
      obtain ⟨e, i, he, -, hcrop⟩ := h.orderBy.origin he'
      exact ⟨e, i, he, fun h => absurd h (by simp), hcrop⟩
  | filters =>
      obtain ⟨e, i, he, hi, hcrop⟩ := h.filters.origin he'
      exact ⟨e, i, he, fun _ => hi, hcrop⟩

/-- Every entry that can be cut is in the cropped query, unless it comes out as it was or is a
filter that the base applies. -/
theorem CroppedOf.outcome {q c : Query} {masks : List Mask} {base : Mask} {compatible : Bool}
    (h : CroppedOf q masks base compatible c) {p : Part} {e : Entry} {i : Nat}
    (hp : p ∈ Part.splittable) (he : (q.part p)[i]? = some e)
    (hi : p = .filters → i ∉ base.filterIndices) :
    cropEntry q masks base compatible p e i = .ok none ∨
      ∃ e' ∈ c.part p, cropEntry q masks base compatible p e i = .ok (some e') := by
  cases p with
  | groupBy | joinOn => simp [Part.splittable] at hp
  | select => exact h.select.outcome he List.not_mem_nil
  | orderBy => exact h.orderBy.outcome he List.not_mem_nil
  | filters => exact h.filters.outcome he (hi rfl)

/-- A cropped query mentions columns of its sub-queries and what was mentioned before. -/
theorem CroppedOf.mentions {q c : Query} {base : Mask} {others : List Mask} {compatible : Bool}
    (h : CroppedOf q (base :: others) base compatible c) {n : String} (hn : c.Mentions n) :
    IsColumn (base :: others) n ∨ q.Mentions n := by
  obtain ⟨p, hp, e', he', hn⟩ := hn
  obtain ⟨e, i, he, -, hcrop⟩ := h.origin hp he'
  refine ((cropEntry_some hcrop).1.within n hn).imp_right fun hn => ?_
  exact ⟨p, hp, e, List.mem_of_getElem? he, hn⟩

/-! ## Names that are still free -/

/-- No column name from `a` on is mentioned. -/
def Unused (a : Names) (q : Query) : Prop :=
  ∀ n, q.Mentions n → ∀ k, a.columns.next ≤ k → n ≠ a.columns.stem ++ toString k

theorem Unused.not_fresh {q : Query} {a b : Names} {n : String} (h : Unused a q)
    (hn : q.Mentions n) : ¬ FreshColumn a b n := by
  rintro ⟨k, hk, -, rfl⟩
  exact h _ hn k hk rfl

theorem Unused.later {q : Query} {a b : Names} (hab : a.Le b) (h : Unused a q) : Unused b q := by
  intro n hn k hk
  rw [hab.columnStem]
  exact h n hn k (Nat.le_trans hab.columnNext hk)

/-- After a round, the names from there on are unused in all its queries. -/
theorem RoundOf.unused {q c : Query} {p : Plan} {subs : List Query} {a b : Names}
    (h : RoundOf q p subs c) (hab : a.Le b) (hp : MasksOf q a b p.masks) (hq : Unused a q) :
    ∀ s ∈ subs ++ [c], Unused b s := by
  intro s hs n hn k hk
  rcases List.mem_append.mp hs with hs | hs
  · obtain ⟨m, hm, hsub⟩ := forall₂_exists_left h.subqueries hs
    exact hq.later hab n (hsub.mentions (hp.mask m hm) hn) k hk
  · obtain rfl := List.mem_singleton.mp hs
    obtain ⟨base, others, hmasks, -, hcropped, -⟩ := h.cropped
    rw [hmasks] at hcropped hp
    rcases hcropped.mentions hn with hcolumn | hmention
    · obtain ⟨l, -, hl, rfl⟩ := hp.freshColumn hcolumn
      rw [hab.columnStem]
      intro heq
      have := numbered_injective heq
      omega
    · exact hq.later hab n hmention k hk

end Split

end FormulaSql
