import FormulaSql.Proofs.Split.Exposure
import FormulaSql.Proofs.Split.Filters

/-!
# Filters that are lost

The base applies every filter that is not cut, and the cropped query those that it can express in
columns: a filter with a fork always can be, any other one if it mentions a dimension. Window calls
that are merged into the base bring their own filters. A later filter then has to be expressed in
columns, and without a dimension in it it is lost.
-/

namespace FormulaSql

namespace Formula

/-! ## Equal formulas, place by place -/

theorem exists_at?_of_same {f g x : Formula} {p : Path} (h : f.same g = true)
    (hx : f.at? p = some x) : ∃ y, g.at? p = some y ∧ x.same y = true := by
  induction p generalizing f g with
  | nil =>
      obtain rfl := Option.some.inj hx
      exact ⟨g, rfl, h⟩
  | cons i p ih =>
      rw [at?] at hx
      split at hx
      next c hc =>
        obtain ⟨d, hd, hcd⟩ := exists_getElem?_of_forall₂ (same_iff.mp h).2.2 hc
        obtain ⟨y, hy, hxy⟩ := ih hcd hx
        exact ⟨y, (at?_cons_of_child p hd).trans hy, hxy⟩
      next => exact absurd hx (by simp)

theorem kind_of_field? {f : Formula} {n : String} (h : f.field? = some n) : f.kind = .field n := by
  rw [field?] at h
  split at h
  next m hk => exact hk.trans (congrArg Kind.field (Option.some.inj h))
  next => exact absurd h (by simp)

theorem isFork_of_field? {f : Formula} {n : String} (h : f.field? = some n) : f.isFork = false := by
  rw [isFork_eq, kind_of_field? h]
  rfl

theorem nodes_of_field? {f : Formula} {n : String} (h : f.field? = some n) : f.nodes = [f] := by
  rw [nodes_eq, children_of_field? h]
  rfl

/-! ## Transforms that change nothing -/

section Unchanged

variable {rule : Rule} {f : Formula}

theorem transformBelow_same_iff {above : List Formula} :
    (f.transformBelow rule above == f) = true ↔
      ∀ c ∈ f.children, (transformChild rule (above ++ [f]) c == c) = true := by
  rw [transformBelow_eq, rebuilt_beq_iff (List.length_map _), list_beq_iff,
    List.forall₂_map_left_iff, List.forall₂_same]

/-- What is left alone below is left alone as it is. -/
theorem transformBelow_eq_of_same {above : List Formula}
    (h : (f.transformBelow rule above == f) = true) : f.transformBelow rule above = f := by
  have hcs := list_beq_iff.mpr (List.forall₂_map_left_iff.mpr
    (List.forall₂_same.mpr (transformBelow_same_iff.mp h)))
  rw [transformBelow_eq]
  exact if_pos hcs

theorem transformChild_same_iff {above : List Formula} :
    (transformChild rule above f == f) = true ↔
      ((rule above (f.transformBelow rule above)).getD (f.transformBelow rule above) == f) =
        true := by
  rw [transformChild]
  split
  next hsame => exact iff_of_true BEq.rfl hsame
  next => exact Iff.rfl

theorem transform_same_iff :
    (f.transform rule == f) = true ↔ (transformChild rule [] f == f) = true := by
  rw [transformChild_same_iff, transform]
  cases rule [] (f.transformBelow rule []) with
  | none => exact Iff.rfl
  | some r =>
      dsimp only [Option.getD_some]
      split
      next hsame => exact iff_of_true BEq.rfl hsame
      next => exact Iff.rfl

end Unchanged

end Formula

namespace Split

theorem columnAt_same_iff {f : Formula} {n : String} :
    (columnAt f n == f) = true ↔ f.field? = some n := by
  constructor
  · intro h
    exact (Formula.field?_eq_of_same h).symm
  · intro h
    obtain ⟨k, notes⟩ := f
    obtain rfl : k = .field n := Formula.kind_of_field? h
    exact BEq.rfl

section Columns

variable {alias? : Formula → Option String} {f : Formula}

theorem columnRule_child_same_iff (above : List Formula) :
    (Formula.transformChild (columnRule alias?) above f == f) = true ↔
      ∀ g ∈ f.nodes, ∀ n, alias? g = some n → g.field? = some n := by
  induction f using Formula.induction_children generalizing above with
  | step f ih =>
      have hnodes : (∀ g ∈ f.nodes, ∀ n, alias? g = some n → g.field? = some n) ↔
          (∀ n, alias? f = some n → f.field? = some n) ∧
            (f.transformBelow (columnRule alias?) above == f) = true := by
        rw [Formula.transformBelow_same_iff, Formula.forall_mem_nodes_iff]
        exact and_congr_right fun _ => forall₂_congr fun c hc => (ih c hc _).symm
      rw [hnodes, Formula.transformChild_same_iff]
      by_cases hbelow : (f.transformBelow (columnRule alias?) above == f) = true
      · rw [Formula.transformBelow_eq_of_same hbelow, and_iff_left BEq.rfl, columnRule]
        cases hn : alias? f with
        | none => exact iff_of_true BEq.rfl fun n h => absurd h (by simp)
        | some n =>
            simp only [Option.map_some, Option.getD_some, columnAt_same_iff, Option.some.injEq]
            exact ⟨fun h m hm => hm ▸ h, fun h => h n rfl⟩
      · refine iff_of_false (fun hsame => ?_) fun h => hbelow h.2
        rw [columnRule] at hsame
        cases hn : alias? (f.transformBelow (columnRule alias?) above) with
        | none =>
            rw [hn] at hsame
            exact hbelow hsame
        | some n =>
            rw [hn] at hsame
            have hcs := (Formula.same_iff.mp hsame).2.2
            refine hbelow (Formula.transformBelow_same_iff.mpr fun c hc => ?_)
            have hlength := hcs.length_eq
            rw [List.length_eq_zero_iff.mp hlength.symm] at hc
            exact absurd hc List.not_mem_nil

/-- Columns change nothing exactly if every expression that has one is a field of that name. -/
theorem withColumns_same_iff :
    (withColumns alias? f == f) = true ↔
      ∀ g ∈ f.nodes, ∀ n, alias? g = some n → g.field? = some n := by
  rw [withColumns_eq_transform, Formula.transform_same_iff, columnRule_child_same_iff]

/-- Forks stay where they are, unless a column takes the place of something around them. -/
theorem isFork_at?_of_withColumns {p : Path} {x : Formula}
    (hx : (withColumns alias? f).at? p = some x) (hfork : x.isFork = true) :
    ∃ y, f.at? p = some y ∧ y.isFork = true := by
  suffices hrel : ∀ p x, (f.transform (columnRule alias?)).at? p = some x → x.isFork = true →
      ∃ y, f.at? p = some y ∧ y.isFork = true by exact hrel p x hx hfork
  refine Formula.transform_rel (Q := fun _ => True)
    (R := fun f g => ∀ p x, g.at? p = some x → x.isFork = true →
      ∃ y, f.at? p = some y ∧ y.isFork = true)
    (fun _ _ _ _ => trivial) (fun f _ p x hx hfork => ⟨x, hx, hfork⟩) ?_ ?_ trivial
  · intro f cs _ hcs p x hx hfork
    cases p with
    | nil =>
        obtain rfl := Option.some.inj hx
        exact ⟨f, rfl, (Formula.isFork_withChildren f cs).symm.trans hfork⟩
    | cons i p =>
        rw [Formula.at?] at hx
        split at hx
        next d hd =>
          rw [Formula.children_withChildren f cs hcs.length_eq.symm] at hd
          obtain ⟨c, hc, hcd⟩ := exists_getElem?_of_forall₂ hcs.flip hd
          obtain ⟨y, hy, hyfork⟩ := hcd p x hx hfork
          exact ⟨y, (Formula.at?_cons_of_child p hc).trans hy, hyfork⟩
        next => exact absurd hx (by simp)
  · intro above f g r _ _ _ hr p x hx hfork
    obtain ⟨n, -, rfl⟩ := Option.map_eq_some_iff.mp hr
    cases p with
    | nil =>
        obtain rfl := Option.some.inj hx
        exact absurd hfork (by simp [columnAt, Formula.isFork, Formula.fork?, Formula.kind])
    | cons i p => exact absurd hx (by simp [Formula.at?, columnAt, Formula.children, Formula.kind,
        Kind.children])

end Columns

/-! ## Filters that are lost -/

section Lost

variable {q c : Query} {a b : Names} {p : Plan} {base : Mask} {others : List Mask} {i : Nat}
  {e : Entry}

/-- A filter that comes after a fork of the round, although neither a fork in it nor a dimension
gives the cropped query a column for it. -/
structure Stranded (q : Query) (base : Mask) (i : Nat) (e : Entry) : Prop where
  later : ∃ s ∈ taken q, isAfter s.laterFilters e = true
  uncut : isCut q i = false
  notConstant : e.formula.isConstantExpression = false
  noDimension : ∀ g ∈ e.formula.nodes, ∀ n, dimensionColumn base g = some n → g.field? = some n

/-- A filter that is cut comes out changed: where its fork was, there is a column now. -/
theorem ne_of_cut {forks : List Cut} {masks : List Mask} {f : Formula}
    (hcuts : CutsOf q forks (masks.flatMap Mask.cuts)) (he : q.filters[i]? = some e)
    (hcut : isCut q i = true) (hf : Cropped q base (cutsAt masks .filters i) true .filters e f)
    (hconst : e.formula.isConstantExpression = false) : (f == e.formula) = false := by
  rw [← Bool.not_eq_true]
  intro hsame
  obtain ⟨s, hs, hpart, hindex⟩ := isCut_iff.mp hcut
  obtain ⟨-, e', he', hfork, -⟩ := mem_sites_iff.mp (mem_sites_of_taken hs)
  rw [hpart, hindex] at he'
  obtain rfl := Option.some.inj (he.symm.trans he')
  obtain ⟨y, hy, hyfork⟩ := Formula.at?_of_mem_outermostForks hfork
  obtain ⟨x, hx, hyx⟩ := Formula.exists_at?_of_same (Formula.same_symm hsame) hy
  have hxfork : x.isFork = true := by
    rw [← Formula.isFork_eq_of_same hyx, Formula.isFork, hyfork]
    rfl
  cases hf with
  | constant h => exact absurd (hconst.symm.trans h) (by simp)
  | incompatible _ _ h => exact absurd h (by simp)
  | @dimension n =>
      have hfield : (columnAt e.formula n).field? = some n := rfl
      have hmem := Formula.mem_nodes_of_at? hx
      rw [Formula.nodes_of_field? hfield, List.mem_singleton] at hmem
      exact absurd (hxfork.symm.trans (hmem ▸ Formula.isFork_of_field? hfield)) (by simp)
  | @cut g _ _ _ hg =>
      obtain ⟨n, hn⟩ := hcuts.site s hs
      have hmem : s.cut n ∈ cutsAt masks .filters i :=
        mem_cutsAt.mpr ⟨hcuts.fork_mem _ hn, hpart, hindex⟩
      obtain ⟨z, hz, hzfork⟩ := isFork_at?_of_withColumns hx hxfork
      obtain ⟨d, -, -, hfield⟩ := field?_replaceCuts hg ⟨_, hmem, List.prefix_refl _⟩ hz
      exact absurd (hzfork.symm.trans (Formula.isFork_of_field? hfield)) (by simp)

/-- A filter that is not cut comes out as it was exactly if it mentions no dimension. -/
theorem same_iff_of_uncut {f : Formula} (hf : Cropped q base [] true .filters e f)
    (hconst : e.formula.isConstantExpression = false) :
    (f == e.formula) = true ↔
      ∀ g ∈ e.formula.nodes, ∀ n, dimensionColumn base g = some n → g.field? = some n := by
  cases hf with
  | constant h => exact absurd (hconst.symm.trans h) (by simp)
  | incompatible _ _ h => exact absurd h (by simp)
  | @dimension n _ _ hn =>
      rw [columnAt_same_iff]
      refine ⟨fun hfield g hg m hm => ?_, fun h => h _ (Formula.self_mem_nodes _) n hn⟩
      rw [Formula.nodes_of_field? hfield, List.mem_singleton] at hg
      subst hg
      exact hfield.trans (hn.symm.trans hm)
  | @cut g _ _ _ hg =>
      obtain rfl := Except.ok.inj hg
      exact withColumns_same_iff

/-- The cropped query drops a filter that the base does not apply exactly if it is stranded. -/
theorem cropEntry_none_iff {forks : List Cut} {masks : List Mask} {o : Option Entry}
    (hcuts : CutsOf q forks (masks.flatMap Mask.cuts)) (he : q.filters[i]? = some e)
    (ho : cropEntry q masks base true .filters e i = .ok o) :
    o = none ↔ isCut q i = false ∧ e.formula.isConstantExpression = false ∧
      ∀ g ∈ e.formula.nodes, ∀ n, dimensionColumn base g = some n → g.field? = some n := by
  have hnone : isCut q i = false → cutsAt masks .filters i = [] :=
    fun hcut => hcuts.cutsAt_eq_nil (isCut_eq_false_iff.mp hcut)
  constructor
  · rintro rfl
    obtain ⟨f, hf, hsame, hconst⟩ := cropEntry_none ho
    have huncut : isCut q i = false := by
      rw [← Bool.not_eq_true]
      exact fun hcut => absurd (hsame.symm.trans (ne_of_cut hcuts he hcut hf hconst)) (by simp)
    exact ⟨huncut, hconst, (same_iff_of_uncut (hnone huncut ▸ hf) hconst).mp hsame⟩
  · rintro ⟨huncut, hconst, hdims⟩
    cases o with
    | none => rfl
    | some e' =>
        obtain ⟨hf, -, -, hchanged⟩ := cropEntry_some ho
        have hsame := (same_iff_of_uncut (hnone huncut ▸ hf) hconst).mpr hdims
        rcases hchanged with hchanged | hchanged
        · exact absurd (hconst.symm.trans hchanged) (by simp)
        · exact absurd (hsame.symm.trans hchanged) (by simp)

/-- In a round for window calls alone, all groups have the same later filters. -/
theorem GroupMask.isAfter_iff {g : ForkGroup} {m : Mask} (h : GroupMask q a g m)
    (hwindows : (prioritized (sites q)).1 = true) :
    isAfter g.signature.laterFilters e = true ↔
      ∃ s ∈ taken q, isAfter s.laterFilters e = true := by
  obtain ⟨t, ht, -, hlater, -⟩ := h.leader
  rw [hlater]
  constructor
  · exact fun hafter => ⟨t, ht, hafter⟩
  · rintro ⟨s, hs, hafter⟩
    rwa [laterFilters_eq_of_windows hwindows ht hs]

/-- In a query with dimensions, the base applies every filter that is not cut, except for the later
ones in a round that merges window calls into it. -/
theorem BaseOf.mem_filterIndices (h : BaseOf q a base others) (hreal : realDimensions q ≠ [])
    (hmasks : (forkMasks q a).1 ≠ []) (he : q.filters[i]? = some e) :
    i ∈ base.filterIndices ↔ isCut q i = false ∧
      ¬ ((prioritized (sites q)).1 = true ∧ others = [] ∧
        ∃ s ∈ taken q, isAfter s.laterFilters e = true) := by
  have hi : i < q.filters.length := (List.getElem?_eq_some_iff.mp he).1
  have hgroup : ∀ {g : ForkGroup} {m : Mask}, GroupMask q a g m →
      (prioritized (sites q)).1 = true →
      (i ∈ m.filterIndices ↔ isCut q i = false ∧
        ¬ ((prioritized (sites q)).1 = true ∧ [] = ([] : List Mask) ∧
          ∃ s ∈ taken q, isAfter s.laterFilters e = true)) := by
    intro g m hg hwindows
    rw [hg.filterIndices i, ← hg.isAfter_iff hwindows]
    simp only [he, Option.some.injEq, exists_eq_left', hwindows, true_and, Bool.not_eq_true]
    exact and_comm
  cases h with
  | own _ hfilters =>
      rw [hfilters, mem_uncutFilters]
      simp [hi, hmasks]
  | @chosen j m hm hgood _ hsame =>
      obtain ⟨g, hg⟩ := groupMask_of_mem (List.mem_of_getElem? hm)
      rw [hsame.1, hgood.resolve_right hreal, mem_uncutFilters, and_iff_right hi]
      refine ⟨fun huncut => ⟨huncut, ?_⟩, And.left⟩
      rintro ⟨hwindows, -, hlater⟩
      have hcut := hg.later_cut hgood hreal he ((hg.isAfter_iff hwindows).mpr hlater)
      exact absurd (huncut.symm.trans hcut) (by simp)
  | @merged m hwindows honly _ hsame =>
      obtain ⟨g, hg⟩ := groupMask_of_mem (honly ▸ List.mem_singleton.mpr rfl : m ∈ _)
      rw [hsame.1]
      exact hgroup hg hwindows
  | @absorbing j m m' hwindows _ hrest _ _ hsame =>
      obtain ⟨g, hg⟩ := groupMask_of_mem
        (List.mem_of_mem_eraseIdx (hrest ▸ List.mem_singleton.mpr rfl) : m' ∈ _)
      rw [hsame.1]
      exact hgroup hg hwindows

theorem forkMasks_ne_nil (hplan : plan q a = (some p, b)) : (forkMasks q a).1 ≠ [] := by
  intro hnil
  have hsites : sites q ≠ [] := by
    intro hsites
    have hnone := plan_eq_none_iff (a := a).mpr hsites
    rw [hplan] at hnone
    exact absurd hnone (by simp)
  obtain ⟨s, hs⟩ := List.exists_mem_of_ne_nil _ (mt prioritized_eq_nil_iff.mp hsites)
  obtain ⟨n, hn⟩ := (forkMasks_spec q a).2.2.2 s hs
  rw [hnil] at hn
  exact absurd hn List.not_mem_nil

/-- A round over a query with dimensions keeps every filter: the base applies it or the cropped
query has it, in terms of columns. The exception are the filters that a round strands when it merges
window calls into the base. -/
theorem filter_kept_iff {qs : List Query} (hplan : plan q a = (some p, b))
    (hreal : realDimensions q ≠ []) (hcompatible : p.compatible = true)
    (hqs : p.queries q = .ok qs) :
    ∃ base others c, p.masks = base :: others ∧ qs.getLast? = some c ∧
      ∀ i e, q.filters[i]? = some e →
        ((i ∈ base.filterIndices ∨
            ∃ e' ∈ c.filters, cropEntry q p.masks base true .filters e i = .ok (some e')) ↔
          ¬ ((prioritized (sites q)).1 = true ∧ others = [] ∧ Stranded q base i e)) := by
  obtain ⟨base, others, hmasks, hbase⟩ := plan_baseOf hplan
  obtain ⟨subs, c, rfl, hround⟩ := queries_spec hqs
  obtain ⟨base', others', hmasks', -, hcropped, -⟩ := hround.cropped
  obtain ⟨rfl, rfl⟩ := List.cons.inj (hmasks.symm.trans hmasks')
  obtain ⟨-, hplanned⟩ := plan_spec hplan
  obtain ⟨forks, hcuts⟩ := hplanned.cuts
  rw [hcompatible] at hcropped
  refine ⟨base, others, c, hmasks, by simp, fun i e he => ?_⟩
  have hindices := hbase.mem_filterIndices hreal (forkMasks_ne_nil hplan) he
  by_cases hi : i ∈ base.filterIndices
  · refine iff_of_true (Or.inl hi) ?_
    rintro ⟨hwindows, hothers, hstranded⟩
    exact (hindices.mp hi).2 ⟨hwindows, hothers, hstranded.later⟩
  · rw [or_iff_right hi]
    rcases hcropped.filters.outcome he hi with hnone | ⟨e', he', hsome⟩
    · obtain ⟨huncut, hconst, hdims⟩ := (cropEntry_none_iff hcuts he hnone).mp rfl
      obtain ⟨hwindows, hothers, hlater⟩ :=
        not_not.mp fun hnot => hi (hindices.mpr ⟨huncut, hnot⟩)
      refine iff_of_false ?_ fun hnot => hnot ⟨hwindows, hothers, hlater, huncut, hconst, hdims⟩
      rintro ⟨e', -, hsome⟩
      exact absurd (Except.ok.inj (hnone.symm.trans hsome)) (by simp)
    · refine iff_of_true ⟨e', he', hsome⟩ ?_
      rintro ⟨-, -, hstranded⟩
      exact absurd ((cropEntry_none_iff hcuts he hsome).mpr
        ⟨hstranded.uncut, hstranded.notConstant, hstranded.noDimension⟩) (by simp)

end Lost

/-! ## Examples -/

/-- The rank of each city by sales, before a filter on a field. -/
def rankBeforeFilter (field : String) (filter : Formula) : QuerySpec :=
  { figureBy "city" (.window "rank" [sumOfSales] .total [] (NameSet.ofList [field])) with
    filters := [⟨filter, some field, none⟩] }

/-- A filter on the city can be applied above the rank. -/
theorem filter_kept_iff_rankBeforeCity :
    ∃ q p b qs c e', (rankBeforeFilter "city" (.binary "==" (.field "city")
        (.lit (.string "Rome")))).compile orders .default = .ok q ∧
      plan q .start = (some p, b) ∧ p.queries q = .ok qs ∧ qs.getLast? = some c ∧
      e' ∈ c.filters := by
  have hok : ((rankBeforeFilter "city" (.binary "==" (.field "city")
      (.lit (.string "Rome")))).compile orders .default).toOption.any (fun q =>
      !(realDimensions q).isEmpty && (plan q .start).1.any fun p =>
        p.compatible && (p.queries q).toOption.any fun _ =>
          q.filters[0]?.any fun e => p.masks.head?.any fun base =>
            !base.filterIndices.contains 0 && e.formula.nodes.any fun g =>
              (dimensionColumn base g).any fun n => g.field? != some n) = true := by
    decide +kernel
  obtain ⟨q, hq, htest⟩ := exists_eq_ok hok
  rw [Bool.and_eq_true, Option.any_eq_true] at htest
  obtain ⟨hreal, p, hp, htest⟩ := htest
  rw [Bool.and_eq_true] at htest
  obtain ⟨hcompatible, htest⟩ := htest
  obtain ⟨qs, hqs, htest⟩ := exists_eq_ok htest
  simp only [Option.any_eq_true, Bool.and_eq_true, Bool.not_eq_true', List.any_eq_true, bne_iff_ne,
    List.contains_eq_mem, decide_eq_false_iff_not, List.isEmpty_eq_false_iff] at hreal htest
  obtain ⟨e, he, base, hbase, hindex, g, hg, n, hn, hfield⟩ := htest
  have hplan : plan q .start = (some p, (plan q .start).2) := Prod.ext hp rfl
  obtain ⟨base', others, c, hmasks, hlast, hkept⟩ := filter_kept_iff hplan hreal hcompatible hqs
  obtain rfl : base' = base := Option.some.inj ((congrArg List.head? hmasks).symm.trans hbase)
  obtain ⟨e', he', -⟩ := ((hkept 0 e he).mpr
    fun h => hfield (h.2.2.noDimension g hg n hn)).resolve_left hindex
  exact ⟨q, p, _, qs, c, e', hq, hplan, hqs, hlast, he'⟩

/-- A filter on the single sales can not, and no query applies it. -/
theorem filter_kept_iff_rankBeforeSales :
    ∃ q p b qs, (rankBeforeFilter "sales" (.binary ">" (.field "sales") (.int 0))).compile orders
        .default = .ok q ∧
      plan q .start = (some p, b) ∧ realDimensions q ≠ [] ∧ p.compatible = true ∧
      p.queries q = .ok qs ∧ q.filters ≠ [] ∧ (∀ m ∈ p.masks, m.filterIndices = []) ∧
      ∀ x ∈ qs, x.filters = [] := by
  have hok : ((rankBeforeFilter "sales" (.binary ">" (.field "sales") (.int 0))).compile orders
      .default).toOption.any (fun q =>
      !(realDimensions q).isEmpty && !q.filters.isEmpty && (plan q .start).1.any fun p =>
        p.compatible && (p.masks.all fun m => m.filterIndices.isEmpty) &&
          (p.queries q).toOption.any fun qs => qs.all fun x => x.filters.isEmpty) = true := by
    decide +kernel
  obtain ⟨q, hq, htest⟩ := exists_eq_ok hok
  rw [Bool.and_eq_true, Option.any_eq_true] at htest
  obtain ⟨hquery, p, hp, htest⟩ := htest
  rw [Bool.and_eq_true] at htest
  obtain ⟨hmasks, htest⟩ := htest
  obtain ⟨qs, hqs, htest⟩ := exists_eq_ok htest
  simp only [Bool.and_eq_true, Bool.not_eq_true', List.all_eq_true, List.isEmpty_iff,
    List.isEmpty_eq_false_iff] at hquery hmasks htest
  exact ⟨q, p, _, qs, hq, Prod.ext hp rfl, hquery.1, hmasks.1, hqs, hquery.2, hmasks.2, htest⟩

end Split

end FormulaSql
