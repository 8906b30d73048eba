import FormulaSql.Proofs.Split.Columns

/-!
# What a round leaves over

The cropped query only reads from the sub-queries of its round, but it may still mention a field of
an old source. That happens in two ways: the field stands beside a fork, where neither search looks,
or it stands in a filter that is rewritten for its dimensions only.
-/

namespace FormulaSql.Split

/-- The paths of the forks that a round takes in one formula. -/
def forkPaths (q : Query) (p : Part) (i : Nat) : List Path :=
  ((taken q).filter fun s => s.part == p && s.index == i).map Site.path

/-- The columns that a formula gets for its dimensions. Only filters get them. -/
def columnsFor (base : Mask) (p : Part) (f : Formula) : Option String :=
  if p == .filters then dimensionColumn base f else none

/-- The entry is rewritten: it is neither a dimension nor a filter that the base applies. -/
structure Rewritten (q : Query) (base : Mask) (p : Part) (i : Nat) (e : Entry) : Prop where
  entry : (q.part p)[i]? = some e
  notDimension : hasAliasIn (dimensionAliases q) e = false
  notApplied : p = .filters → i ∉ base.filterIndices

/-- The ways in which a field of an old source is left over in the cropped query. -/
inductive LeftOver (q : Query) (base : Mask) (n : String) : Prop where
  /-- It stands in a blind spot beside a fork. -/
  | beside {p : Part} {i : Nat} {e : Entry} {d : Formula} : Rewritten q base p i e →
      e.formula.Blind (forkPaths q p i) d → d.Bare (HasColumn (columnsFor base p)) n →
      LeftOver q base n
  /-- It stands in a filter without forks, of which some dimensions are rewritten. -/
  | filter {i : Nat} {e : Entry} : Rewritten q base .filters i e →
      forkPaths q .filters i = [] → e.formula.Holds (HasColumn (columnsFor base .filters)) →
      e.formula.Bare (HasColumn (columnsFor base .filters)) n → LeftOver q base n

/-- The round with this plan leaves the field over. -/
def Leaves (q : Query) (p : Plan) (n : String) : Prop :=
  p.compatible = true ∧ ∃ base ∈ p.masks.head?, LeftOver q base n

theorem mem_forkPaths_iff {q : Query} {p : Part} {i : Nat} {path : Path} :
    path ∈ forkPaths q p i ↔ ∃ s ∈ taken q, s.part = p ∧ s.index = i ∧ s.path = path := by
  simp [forkPaths, and_assoc]

theorem outermostForks_of_mem_forkPaths {q : Query} {p : Part} {i : Nat} {e : Entry} {path : Path}
    (h : path ∈ forkPaths q p i) (he : (q.part p)[i]? = some e) :
    p ∈ Part.splittable ∧ ∃ fork, (path, fork) ∈ e.formula.outermostForks := by
  obtain ⟨s, hs, rfl, rfl, rfl⟩ := mem_forkPaths_iff.mp h
  obtain ⟨hp, e', he', hmem, -⟩ := mem_sites_iff.mp (mem_sites_of_taken hs)
  obtain rfl := Option.some.inj (he.symm.trans he')
  exact ⟨hp, s.fork, hmem⟩

theorem withColumns_columnsFor (base : Mask) (p : Part) (f : Formula) :
    withColumns (columnsFor base p) f =
      if p == .filters then withColumns (dimensionColumn base) f else f := by
  split
  next hp =>
    have hcolumns : columnsFor base p = dimensionColumn base := by
      funext g
      rw [columnsFor, if_pos hp]
    rw [hcolumns]
  next hp =>
    refine withColumns_eq_self ?_
    rintro ⟨g, -, n, hn⟩
    rw [columnsFor, if_neg hp] at hn
    exact absurd hn (by simp)

theorem columnsFor_eq_some {base : Mask} {p : Part} {f : Formula} {n : String}
    (h : columnsFor base p f = some n) : dimensionColumn base f = some n := by
  rw [columnsFor] at h
  split at h
  · exact h
  · exact absurd h (by simp)

/-- An entry with fields that is rewritten is cut and gets columns for its dimensions. -/
theorem Rewritten.cut {q : Query} {base : Mask} {p : Part} {i : Nat} {n : String} {e : Entry}
    {cuts : List Cut} {f : Formula} (h : Rewritten q base p i e) (hn : e.formula.Mentions n)
    (hf : Cropped q base cuts true p e f) :
    e.formula.isConstantExpression = false ∧ ∃ g, replaceCuts q cuts e.formula = .ok g ∧
      f = withColumns (columnsFor base p) g := by
  cases hf with
  | constant hconst => exact absurd hn (Formula.not_mentions_of_constant hconst n)
  | dimension _ halias => exact absurd (halias.symm.trans h.notDimension) (by simp)
  | incompatible _ _ hcompatible => exact absurd hcompatible (by simp)
  | @cut g hconst _ _ hg => exact ⟨hconst, g, hg, (withColumns_columnsFor base p g).symm⟩

section Cuts

variable {q : Query} {forks : List Cut} {masks : List Mask} {p : Part} {i : Nat}

theorem CutsOf.mem_forkPaths (h : CutsOf q forks (masks.flatMap Mask.cuts)) {path : Path} :
    path ∈ (forks.filter fun c => c.part == p && c.index == i).map Cut.outer ↔
      path ∈ forkPaths q p i := by
  simp only [mem_forkPaths_iff, List.mem_map, List.mem_filter, Bool.and_eq_true, beq_iff_eq]
  constructor
  · rintro ⟨c, ⟨hc, rfl, rfl⟩, rfl⟩
    obtain ⟨s, hs, heq⟩ := h.fork c hc
    rw [heq]
    exact ⟨s, hs, rfl, rfl, rfl⟩
  · rintro ⟨s, hs, rfl, rfl, rfl⟩
    obtain ⟨n, hn⟩ := h.site s hs
    exact ⟨s.cut n, ⟨hn, rfl, rfl⟩, rfl⟩

theorem MasksOf.cutsAt_eq_nil {a b : Names} (h : MasksOf q a b masks) (hp : p ∉ Part.splittable) :
    cutsAt masks p i = [] := by
  refine List.eq_nil_iff_forall_not_mem.mpr fun c hc => ?_
  obtain ⟨hall, rfl, -⟩ := mem_cutsAt.mp hc
  obtain ⟨m, hm, hcm⟩ := List.mem_flatMap.mp hall
  exact hp ((h.mask m hm).cut c hcm).2

/-- A filter without forks is not cut. -/
theorem CutsOf.cutsAt_eq_nil (h : CutsOf q forks (masks.flatMap Mask.cuts))
    (hnone : forkPaths q .filters i = []) : cutsAt masks .filters i = [] := by
  have hforks : (forks.filter fun c => c.part == .filters && c.index == i).map Cut.outer = [] := by
    refine List.eq_nil_iff_forall_not_mem.mpr fun path hpath => ?_
    exact absurd (hnone ▸ h.mem_forkPaths.mp hpath) List.not_mem_nil
  refine List.eq_nil_iff_forall_not_mem.mpr fun c hc => ?_
  obtain ⟨hall, hpart, hindex⟩ := mem_cutsAt.mp hc
  rcases h.other c hall with hfork | ⟨-, -, e, -, hpath⟩
  · have hmem : c.outer ∈ (forks.filter fun c => c.part == .filters && c.index == i).map
        Cut.outer := List.mem_map_of_mem (List.mem_filter.mpr ⟨hfork, by simp [hpart, hindex]⟩)
    exact absurd (hforks ▸ hmem) List.not_mem_nil
  · rw [hpart, hindex, uncutEntry] at hpath
    simp [hforks] at hpath

theorem CutsOf.walks (h : CutsOf q forks (masks.flatMap Mask.cuts)) {e : Entry} {c : Cut}
    (hc : c ∈ cutsAt masks p i) (he : (q.part p)[i]? = some e) : e.formula.Walks c.outer := by
  obtain ⟨hall, rfl, rfl⟩ := mem_cutsAt.mp hc
  rcases h.other c hall with hfork | ⟨-, -, e', he', hpath⟩
  · have hmem : c.outer ∈ forkPaths q c.part c.index :=
      h.mem_forkPaths.mp (List.mem_map_of_mem (List.mem_filter.mpr ⟨hfork, by simp⟩))
    obtain ⟨-, fork, hfork⟩ := outermostForks_of_mem_forkPaths hmem he
    exact Formula.walks_of_mem_outermostForks hfork
  · obtain rfl := Option.some.inj (he.symm.trans he')
    rw [uncutEntry] at hpath
    split at hpath
    · exact absurd hpath List.not_mem_nil
    · obtain ⟨t, ht, hwalks, -⟩ := Formula.of_mem_uncutSearch hpath
      rw [List.nil_append] at ht
      exact ht ▸ hwalks

/-- All other entries are cut along their forks. -/
theorem CutsOf.cutAlong (h : CutsOf q forks (masks.flatMap Mask.cuts)) {e : Entry}
    (hp : p ∈ Part.splittable) (he : (q.part p)[i]? = some e)
    (hconst : e.formula.isConstantExpression = false)
    (halias : hasAliasIn (dimensionAliases q) e = false)
    (hfilters : p = .filters → forkPaths q p i ≠ []) :
    CutAlong e.formula ((forks.filter fun c => c.part == p && c.index == i).map Cut.outer)
      (cutsAt masks p i) where
  fork path hpath := (outermostForks_of_mem_forkPaths (h.mem_forkPaths.mp hpath) he).2
  cut path := by
    have huncut : uncutEntry q forks p e i =
        e.formula.uncutPaths
          ((forks.filter fun c => c.part == p && c.index == i).map Cut.outer) := by
      have hnonempty : (p == .filters &&
          ((forks.filter fun c => c.part == p && c.index == i).map Cut.outer).isEmpty) = false := by
        by_cases hp : p = .filters
        · obtain ⟨path, hpath⟩ := List.exists_mem_of_ne_nil _ (hfilters hp)
          have hne := List.ne_nil_of_mem (h.mem_forkPaths.mpr hpath)
          rw [List.isEmpty_eq_false_iff.mpr hne, Bool.and_false]
        · rw [beq_eq_false_iff_ne.mpr hp, Bool.false_and]
      simp only [uncutEntry, halias, hconst, hnonempty, Bool.or_false, Bool.false_eq_true,
        ↓reduceIte]
    constructor
    · rintro ⟨c, hc, rfl⟩
      obtain ⟨hall, rfl, rfl⟩ := mem_cutsAt.mp hc
      rcases h.other c hall with hfork | ⟨-, -, e', he', hpath⟩
      · exact Or.inl (List.mem_map_of_mem (List.mem_filter.mpr ⟨hfork, by simp⟩))
      · obtain rfl := Option.some.inj (he.symm.trans he')
        exact Or.inr (huncut ▸ hpath)
    · rintro (hpath | hpath)
      · obtain ⟨c, hc, rfl⟩ := List.mem_map.mp hpath
        obtain ⟨hc, hplace⟩ := List.mem_filter.mp hc
        exact ⟨c, mem_cutsAt.mpr ⟨h.fork_mem c hc, by simpa using hplace⟩, rfl⟩
      · obtain ⟨n, hn⟩ := h.uncut_mem p i path ⟨hp, e, he, huncut ▸ hpath⟩
        exact ⟨_, mem_cutsAt.mpr ⟨hn, rfl, rfl⟩, rfl⟩

end Cuts

/-! ## The cropped query -/

section Crop

variable {q c : Query} {base : Mask} {others : List Mask} {forks : List Cut} {p : Part} {i : Nat}
  {a b : Names} {n : String} (hq : Unused a q) (hmasks : MasksOf q a b (base :: others))
  (hcuts : CutsOf q forks ((base :: others).flatMap Mask.cuts))

include hq hmasks

theorem not_mentions_column (hn : IsColumn (base :: others) n) : ¬ q.Mentions n :=
  fun hmentions => hq.not_fresh hmentions (hmasks.freshColumn hn)

/-- No expression that the base groups by mentions a new column. -/
theorem not_mentions_column_of_dimension {f : Formula} (hf : HasColumn (columnsFor base p) f)
    (hn : IsColumn (base :: others) n) : ¬ f.Mentions n := by
  obtain ⟨m, hm⟩ := hf
  obtain ⟨x, hx, -, hsame, -⟩ := dimensionColumn_eq_some (columnsFor_eq_some hm)
  intro hmentions
  have hdrawn := ((hmasks.mask base List.mem_cons_self).extra x hx).2
  exact not_mentions_column hq hmasks hn
    (hdrawn.within n (hmentions.of_same (Formula.same_symm hsame)))

theorem columnsFor_fresh : ColumnsFresh (columnsFor base p) := by
  intro f g m hf hm
  exact not_mentions_column_of_dimension hq hmasks hf
    (isColumn_dimensionColumn (columnsFor_eq_some hm))

include hcuts

/-- What a cropped formula mentions besides new columns is left over. -/
theorem leftOver_of_mentions {e e' : Entry} (he : (q.part p)[i]? = some e)
    (happlied : p = .filters → i ∉ base.filterIndices)
    (hcrop : cropEntry q (base :: others) base true p e i = .ok (some e'))
    (hmentions : e'.formula.Mentions n) (hn : ¬ IsColumn (base :: others) n) :
    LeftOver q base n := by
  obtain ⟨hcropped, -, -, hchanged⟩ := cropEntry_some hcrop
  generalize e'.formula = f at hcropped hchanged hmentions
  cases hcropped with
  | constant hconst => exact absurd hmentions (Formula.not_mentions_of_constant hconst n)
  | dimension _ _ hm =>
      obtain rfl := Formula.mentions_field_iff.mp hmentions
      exact absurd (isColumn_dimensionColumn hm) hn
  | incompatible _ _ h => exact absurd h (by simp)
  | @cut g hconst halias _ hg =>
      rw [← withColumns_columnsFor] at hmentions hchanged
      have hchanged : (withColumns (columnsFor base p) g == e.formula) = false :=
        hchanged.resolve_left (by simp [hconst])
      have hrewritten : Rewritten q base p i e := ⟨he, halias, happlied⟩
      have hbare : g.Bare (HasColumn (columnsFor base p)) n := by
        refine (bare_of_mentions_withColumns (columnsFor_fresh hq hmasks) hmentions).resolve_left ?_
        rintro ⟨x, hx⟩
        exact hn (isColumn_dimensionColumn (columnsFor_eq_some hx))
      by_cases hp : p ∈ Part.splittable
      · by_cases hforks : p = .filters ∧ forkPaths q p i = []
        · obtain ⟨rfl, hnone⟩ := hforks
          rw [hcuts.cutsAt_eq_nil hnone] at hg
          obtain rfl := Except.ok.inj hg
          refine .filter hrewritten hnone ?_ hbare
          by_contra hholds
          rw [withColumns_eq_self hholds, BEq.rfl] at hchanged
          exact absurd hchanged (by simp)
        · have hcut := hcuts.cutAlong hp he hconst halias (not_and.mp hforks)
          have hold : ∀ c ∈ cutsAt (base :: others) p i, c.aliasName ≠ n := by
            rintro c hc rfl
            exact hn (isColumn_cutsAt hc)
          obtain ⟨d, hblind, hd⟩ := hcut.blind_of_bare hg hold hbare
          exact .beside hrewritten (hblind.mono fun path => hcuts.mem_forkPaths.mp) hd
      · rw [hmasks.cutsAt_eq_nil hp] at hg
        obtain rfl := Except.ok.inj hg
        have hfilters : (p == .filters) = false :=
          beq_eq_false_iff_ne.mpr fun heq => hp (heq ▸ by simp [Part.splittable])
        rw [withColumns_columnsFor, hfilters, if_neg (by simp), BEq.rfl] at hchanged
        exact absurd hchanged (by simp)

/-- What is left over is mentioned by the cropped formula, and so is some new column. -/
theorem LeftOver.mentions (h : LeftOver q base n) :
    ∃ p i e, p ∈ Part.splittable ∧ Rewritten q base p i e ∧ e.formula.Mentions n ∧ ∀ f,
      Cropped q base (cutsAt (base :: others) p i) true p e f →
        f.Mentions n ∧ ∃ m, IsColumn (base :: others) m ∧ f.Mentions m := by
  cases h with
  | @beside p i e d hrewritten hblind hbare =>
      obtain ⟨path, hpath⟩ := hblind.exists_cut
      have hp := (outermostForks_of_mem_forkPaths hpath hrewritten.entry).1
      have hmentions := hbare.mentions.of_node hblind.mem_nodes
      refine ⟨p, i, e, hp, hrewritten, hmentions, fun f hf => ?_⟩
      obtain ⟨hconst, g, hg, rfl⟩ := hrewritten.cut hmentions hf
      have hcut := hcuts.cutAlong hp hrewritten.entry hconst hrewritten.notDimension
        fun _ => List.ne_nil_of_mem hpath
      have hfork := hcuts.mem_forkPaths.mpr hpath
      have hdim : ∀ c ∈ cutsAt (base :: others) p i, ∀ k, HasColumn (columnsFor base p) k →
          ¬ k.Mentions c.aliasName := fun c hc k hk =>
        not_mentions_column_of_dimension hq hmasks hk (isColumn_cutsAt hc)
      constructor
      · refine mentions_withColumns_of_bare (columnsFor_fresh hq hmasks) ?_
        exact hcut.bare_of_blind hg hdim (hblind.mono fun path => hcuts.mem_forkPaths.mpr) hbare
      · obtain ⟨c, hc, hfield⟩ := fieldAt?_replaceCuts_outer hg ((hcut.cut path).mpr (Or.inl hfork))
          fun c hc hin => hcut.eq_of_above hc hfork hin
        refine ⟨c.aliasName, isColumn_cutsAt hc,
          mentions_withColumns_of_bare (columnsFor_fresh hq hmasks) ?_⟩
        exact Formula.bare_of_mentions (fun k _ hk => hdim c hc k hk)
          (Formula.mentions_iff_fieldAt?.mpr ⟨path, hfield⟩)
  | @filter i e hrewritten hnone hholds hbare =>
      refine ⟨.filters, i, e, by simp [Part.splittable], hrewritten, hbare.mentions,
        fun f hf => ?_⟩
      obtain ⟨-, g, hg, rfl⟩ := hrewritten.cut hbare.mentions hf
      rw [hcuts.cutsAt_eq_nil hnone] at hg
      obtain rfl := Except.ok.inj hg
      refine ⟨mentions_withColumns_of_bare (columnsFor_fresh hq hmasks) hbare, ?_⟩
      obtain ⟨x, m, hm, hmentions⟩ :=
        mentions_withColumns_of_holds (columnsFor_fresh hq hmasks) hholds
      exact ⟨m, isColumn_dimensionColumn (columnsFor_eq_some hm), hmentions⟩

/-- Besides new columns, the cropped query mentions exactly what is left over. -/
theorem CroppedOf.mentions_iff (h : CroppedOf q (base :: others) base true c) :
    (c.Mentions n ∧ ¬ IsColumn (base :: others) n) ↔ LeftOver q base n := by
  constructor
  · rintro ⟨⟨p, hp, e', he', hmentions⟩, hn⟩
    obtain ⟨e, i, he, happlied, hcrop⟩ := h.origin hp he'
    exact leftOver_of_mentions hq hmasks hcuts he happlied hcrop hmentions hn
  · intro hleft
    obtain ⟨p, i, e, hp, hrewritten, hmentions, hall⟩ := hleft.mentions hq hmasks hcuts
    have hpart := Part.ne_joinOn_of_splittable hp
    have hold : ∀ m, e.formula.Mentions m → ¬ IsColumn (base :: others) m := fun m hm hcolumn =>
      not_mentions_column hq hmasks hcolumn
        ⟨p, hpart, e, List.mem_of_getElem? hrewritten.entry, hm⟩
    refine ⟨?_, hold n hmentions⟩
    rcases h.outcome hp hrewritten.entry hrewritten.notApplied with hnone | ⟨e', he', hsome⟩
    · obtain ⟨f, hf, hsame, -⟩ := cropEntry_none hnone
      obtain ⟨-, m, hm, hcolumn⟩ := hall f hf
      exact absurd hm (hold m (hcolumn.of_same hsame))
    · exact ⟨p, hpart, e', he', (hall _ (cropEntry_some hsome).1).1⟩

end Crop

/-- If the sub-queries cannot be joined, nothing is left over. -/
theorem CroppedOf.isColumn {q c : Query} {base : Mask} {others : List Mask} {n : String}
    (h : CroppedOf q (base :: others) base false c) (hn : c.Mentions n) :
    IsColumn (base :: others) n := by
  obtain ⟨p, hp, e', he', hmentions⟩ := hn
  obtain ⟨e, i, -, -, hcrop⟩ := h.origin hp he'
  obtain ⟨hcropped, -⟩ := cropEntry_some hcrop
  generalize e'.formula = f at hcropped hmentions
  cases hcropped with
  | constant hconst => exact absurd hmentions (Formula.not_mentions_of_constant hconst n)
  | dimension _ _ hm =>
      obtain rfl := Formula.mentions_field_iff.mp hmentions
      exact isColumn_dimensionColumn hm
  | incompatible => exact absurd hmentions (not_mentions_incompatible n)
  | cut _ _ hcompatible => exact absurd hcompatible (by simp)

/-- Besides columns of the sub-queries, the cropped query mentions exactly what its round leaves
over. -/
theorem RoundOf.leaves_iff {q c : Query} {p : Plan} {subs : List Query} {a b : Names} {n : String}
    (h : RoundOf q p subs c) (hp : Planned q a b p) (hq : Unused a q) :
    (c.Mentions n ∧ ¬ IsColumn p.masks n) ↔ Leaves q p n := by
  obtain ⟨base, others, hmasks, -, hcropped, -⟩ := h.cropped
  obtain ⟨forks, hcuts⟩ := hp.cuts
  have hof := hp.masks
  rw [Leaves, hmasks]
  rw [hmasks] at hcropped hcuts hof
  cases hcompatible : p.compatible with
  | false =>
      rw [hcompatible] at hcropped
      simpa using hcropped.isColumn
  | true =>
      rw [hcompatible] at hcropped
      rw [hcropped.mentions_iff hq hof hcuts]
      simp

end FormulaSql.Split
