import FormulaSql.Proofs.Query.Keeping

/-!
# Groupings and orderings of window calls

A window call is grouped by dimensions of the query and ordered by its default ordering. Both stay
as they are while forks are made: dimensions are flat, and what a query is ordered by has nothing in
it that becomes a fork.

* `Formula.Ordinary` is what may be ordered by
* `Formula.Rests.of_ordinary` says that such a formula is left alone outside of aggregations
* `Formula.ordered_levelOfDetail` goes with the rule for levels of detail through a formula
-/

namespace FormulaSql

/-- The node is no window call, lookup or fork, and an aggregation takes over the dimensions and the
filters around it. -/
def Kind.isOrdinary {α : Type} : Kind α → Bool
  | .call c => (Normalize.LookupKind.ofName? c.name).isNone &&
      (!Function.isAggregate c.name || (c.lod.isInherited && c.beforeFilterBy.isEmpty))
  | .window _ => false
  | .fork _ => false
  | _ => true

namespace Formula

/-- There are only ordinary nodes in the formula, and no aggregation inside another one. -/
def Ordinary : Formula → Prop := All fun g => g.kind.isOrdinary = true ∧
  (g.isAggregateCall = true → ∀ c ∈ g.children, c.Unaggregated)

instance (f : Formula) : Decidable f.Ordinary :=
  inferInstanceAs (Decidable (∀ g ∈ f.nodes, g.kind.isOrdinary = true ∧
    (g.isAggregateCall = true → ∀ c ∈ g.children, c.Unaggregated)))

/-! ## Ordinary formulas -/

section Ordinary

variable {f g : Formula} {above dims : List Formula}

theorem isAggregateCall_eq_of_same (h : (f == g) = true) :
    f.isAggregateCall = g.isAggregateCall := by
  refine eq_of_same isAggregateCall (fun x => ?_) h
  rw [isAggregateCall, isAggregateCall, call?, call?]
  cases x.kind <;> rfl

theorem Unaggregated.of_same (h : (f == g) = true) (hf : f.Unaggregated) : g.Unaggregated := by
  intro y hy
  obtain ⟨x, hx, hxy⟩ := exists_node_of_same (same_symm h) hy
  exact (isAggregateCall_eq_of_same hxy).trans (hf x hx)

theorem Flat.of_same (h : (f == g) = true) (hf : f.Flat) : g.Flat := by
  have hshape (k : Kind Formula) : k.shape.isRowwise = k.isRowwise := by cases k <;> rfl
  intro y hy
  obtain ⟨x, hx, hxy⟩ := exists_node_of_same (same_symm h) hy
  exact (view_eq_of_same Kind.isRowwise hshape hxy).trans (hf x hx)

theorem Ordinary.of_same (h : (f == g) = true) (hf : f.Ordinary) : g.Ordinary := by
  have hshape (k : Kind Formula) : k.shape.isOrdinary = k.isOrdinary := by
    cases k with
    | call c => simp [Kind.shape, Kind.map, Kind.isOrdinary, Kind.isInherited_outline]
    | _ => rfl
  intro y hy
  obtain ⟨x, hx, hxy⟩ := exists_node_of_same (same_symm h) hy
  obtain ⟨hordinary, hbelow⟩ := hf x hx
  refine ⟨(view_eq_of_same Kind.isOrdinary hshape hxy).trans hordinary, fun hy d hd => ?_⟩
  obtain ⟨c, hc, hcd⟩ := forall₂_exists_right (same_iff.mp hxy).2.2 hd
  exact (hbelow ((isAggregateCall_eq_of_same hxy).symm.trans hy) c hc).of_same (same_symm hcd)

theorem Flat.unaggregated (h : f.Flat) : f.Unaggregated := by
  intro g hg
  rw [← Bool.not_eq_true]
  intro haggregate
  obtain ⟨c, hk, hname⟩ := exists_call_of_isAggregateCall haggregate
  have hrow : g.kind.isRowwise = true := h g hg
  rw [hk, Kind.isRowwise, hname] at hrow
  exact absurd hrow (by simp)

theorem Flat.ordinary (h : f.Flat) : f.Ordinary := by
  intro g hg
  have hrow : g.kind.isRowwise = true := h g hg
  constructor
  · cases hk : g.kind with
    | call c =>
        rw [hk, Kind.isRowwise, Bool.and_eq_true] at hrow
        rw [Kind.isOrdinary, hrow.2, hrow.1]
        rfl
    | window | fork => rw [hk] at hrow; exact absurd hrow (by simp [Kind.isRowwise])
    | _ => rfl
  · exact fun haggregate => absurd haggregate (by simp [h.unaggregated g hg])

theorem Ordinary.isOrdinary (h : f.Ordinary) : f.kind.isOrdinary = true := (h f (self_mem_nodes f)).1

theorem Ordinary.window?_eq_none (h : f.Ordinary) : f.window? = none := by
  have hordinary := h.isOrdinary
  rw [window?]
  cases hk : f.kind with
  | window w => rw [hk] at hordinary; exact absurd hordinary (by simp [Kind.isOrdinary])
  | _ => rfl

theorem Ordinary.fork?_eq_none (h : f.Ordinary) : f.fork? = none := by
  have hordinary := h.isOrdinary
  rw [fork?]
  cases hk : f.kind with
  | fork q => rw [hk] at hordinary; exact absurd hordinary (by simp [Kind.isOrdinary])
  | _ => rfl

theorem Ordinary.lookup?_eq_none (h : f.Ordinary) : Normalize.lookup? f = none := by
  have hordinary := h.isOrdinary
  cases hk : f.kind with
  | call c =>
      rw [hk, Kind.isOrdinary, Bool.and_eq_true, Option.isNone_iff_eq_none] at hordinary
      rw [lookup?_of_kind hk, hordinary.1]
      rfl
  | _ => exact Formula.lookup?_eq_none (by rw [call?, hk])

/-- An ordinary formula has nothing to do with a rule for window calls, lookups or forks. -/
theorem ordinary_passesOver {rule : Rule}
    (h : ∀ above f, f.window? = none → f.fork? = none → Normalize.lookup? f = none →
      rule above f = none) : rule.PassesOver Ordinary where
  flat _ hf := hf.ordinary
  below _ hf _ hc := hf.of_child hc
  skips above f hf := h above f hf.window?_eq_none hf.fork?_eq_none hf.lookup?_eq_none

theorem flat_passesOver {rule : Rule} (h : rule.KeepsFlat) : rule.PassesOver Flat where
  flat _ hf := hf
  below _ hf _ hc := hf.of_child hc
  skips above f hf := h.skips above f hf.rowwise

theorem containsExtended_of_unaggregated (h : f.Unaggregated) : f.containsExtended true = false := by
  have hsearch (inside : Bool) : f.extendedSearch true inside = false := by
    induction f using induction_children generalizing inside with
    | step f ih =>
        have hnot : f.isAggregateCall = false := h f (self_mem_nodes f)
        have hextended : f.isExtendedCall = false := by
          rw [isExtendedCall]
          split
          next => rw [hnot]; rfl
          next => rfl
        rw [extendedSearch_eq, hnot, hextended, Bool.or_false]
        refine List.any_eq_false.mpr fun c hc => ?_
        have hc : c ∈ f.children := List.mem_of_mem_take hc
        simp [ih c hc (h.of_child hc)]
  exact hsearch false

theorem Ordinary.not_containsFork (h : f.Ordinary) : f.containsFork = false := by
  refine List.any_eq_false.mpr fun g hg => ?_
  rw [isFork, Ordinary.fork?_eq_none (h.of_node hg)]
  simp

/-- Outside of aggregations an ordinary formula stays what it is. -/
theorem Rests.of_ordinary (dims : List Formula) (hf : f.Ordinary)
    (habove : Normalize.insideAggregation above = false) :
    f.Rests (Normalize.levelOfDetail dims) above := by
  induction f using induction_children generalizing above with
  | step f ih =>
      obtain ⟨hordinary, hbelow⟩ := hf f (self_mem_nodes f)
      refine throughout_iff.mpr ⟨?_, fun c hc => ?_⟩
      · cases haggregate : f.isAggregateCall with
        | false => exact Normalize.levelOfDetail_none_of_not_aggregate haggregate
        | true =>
            obtain ⟨c, hk, hname⟩ := exists_call_of_isAggregateCall haggregate
            apply Normalize.levelOfDetail_none_of_needsFork hk
            rw [hk, Kind.isOrdinary, hname, Bool.not_true, Bool.false_or, Bool.and_eq_true,
              Bool.and_eq_true] at hordinary
            rw [Normalize.needsFork, hordinary.2.1, hordinary.2.2, habove]
            refine List.any_eq_false.mpr fun x hx => ?_
            have hx : x ∈ f.children := by
              rw [children, hk]
              simp [Kind.children, hx]
            rw [Ordinary.not_containsFork (hf.of_child hx),
              containsExtended_of_unaggregated (hbelow haggregate x hx)]
            simp
      · cases haggregate : f.isAggregateCall with
        | true => exact rests_of_unaggregated dims _ (hbelow haggregate c hc)
        | false =>
            refine ih c hc (hf.of_child hc) ?_
            rw [Normalize.insideAggregation_concat, haggregate, habove]
            simp

end Ordinary

/-! ## Window calls -/

section Windows

variable {R : Formula → Formula → Prop} {f : Formula} {cs above dims ordering : List Formula}
  {w : WindowCall Formula}

theorem exists_window_withChildren (h : List.Forall₂ R f.children cs) (hk : f.kind = .window w) :
    ∃ w', (f.withChildren cs).kind = .window w' ∧ w'.name = w.name ∧
      w'.grouping.map (fun _ => ()) = w.grouping.map (fun _ => ()) ∧
      List.Forall₂ R w.args w'.args ∧ List.Forall₂ R w.grouping.dims w'.grouping.dims ∧
      List.Forall₂ R w.ordering w'.ordering := by
  have houtline := outline_withChildren f cs
  have hpairs := forall₂_withChildren h
  rw [hk] at houtline hpairs
  cases hk' : (f.withChildren cs).kind with
  | window w' =>
      rw [hk'] at houtline hpairs
      simp only [Kind.outline, Kind.map, Kind.window.injEq, WindowCall.mk.injEq] at houtline
      obtain ⟨hname, hargs, hgrouping, -, -⟩ := houtline
      have hlength : w.args.length = w'.args.length := by
        simpa using (congrArg List.length hargs).symm
      have hdims (g : Grouping Formula) : (g.map fun _ => ()).dims.length = g.dims.length := by
        cases g <;> simp [Grouping.map, Grouping.dims, Grouping.withDims]
      have hlength' : w.grouping.dims.length = w'.grouping.dims.length := by
        rw [← hdims, ← hgrouping, hdims]
      simp only [Kind.children, List.append_assoc] at hpairs
      obtain ⟨has, hpairs⟩ := (forall₂_append_iff hlength).mp hpairs
      obtain ⟨hds, hos⟩ := (forall₂_append_iff hlength').mp hpairs
      exact ⟨w', rfl, hname, hgrouping, has, hds, hos⟩
  | _ => simp [hk', Kind.outline, Kind.map] at houtline

theorem window?_withChildren_of_none (h : f.window? = none) :
    (f.withChildren cs).window? = none := by
  rw [window?] at h ⊢
  rw [withChildren, kind]
  cases hk : f.kind with
  | window w => rw [hk] at h; exact absurd h (by simp)
  | _ => rfl

theorem dropExtraWithin_eq_none (hk : f.kind = .window w) :
    Normalize.dropExtraWithin dims above f = none ↔
      ∀ ds, w.grouping = .within ds → ∀ d ∈ ds, dims.contains d = true := by
  rw [Normalize.dropExtraWithin, window?, hk, Option.bind_eq_bind, Option.bind_some]
  split
  next ds hgrouping =>
    rw [hgrouping]
    split
    next hall =>
      refine ⟨fun _ ds' heq => ?_, fun _ => rfl⟩
      obtain rfl := Grouping.within.inj heq
      exact List.all_eq_true.mp hall
    next hnot =>
      refine ⟨fun h => absurd h (by simp), fun h => ?_⟩
      exact absurd (List.all_eq_true.mpr (h ds rfl)) hnot
  next hne => exact ⟨fun _ ds heq => absurd heq (hne ds), fun _ => rfl⟩

theorem defaultOrdering_eq_none (hk : f.kind = .window w) :
    Normalize.defaultOrdering ordering above f = none ↔
      (Function.usesDefaultOrdering w.name = true → ∀ item ∈ ordering, ∃ o ∈ w.ordering,
        (Normalize.orderKey o == Normalize.orderKey item) = true) := by
  have hmissing : (Normalize.missingOrdering ordering w).isEmpty = true ↔
      ∀ item ∈ ordering, ∃ o ∈ w.ordering,
        (Normalize.orderKey o == Normalize.orderKey item) = true := by
    rw [List.isEmpty_iff, Normalize.missingOrdering, List.filter_eq_nil_iff]
    simp only [Bool.not_eq_true', Bool.not_eq_false, List.any_eq_true]
  rw [Normalize.defaultOrdering, window?, hk, Option.bind_eq_bind, Option.bind_some, ← hmissing]
  dsimp only
  split
  next hlacks =>
    rw [Bool.and_eq_true, Bool.not_eq_true'] at hlacks
    refine ⟨fun h => absurd h (by simp), fun h => ?_⟩
    exact absurd (h hlacks.1) (by simp [hlacks.2])
  next hnot =>
    refine ⟨fun _ huses => ?_, fun _ => rfl⟩
    rw [huses, Bool.true_and, Bool.not_eq_true', Bool.not_eq_false] at hnot
    exact hnot

/-- Dimensions stay dimensions. -/
theorem dropExtraWithin_withChildren (hdims : ∀ d ∈ dims, d.Flat)
    (hcs : List.Forall₂ (fun c d => c.Flat → d = c) f.children cs)
    (h : Normalize.dropExtraWithin dims [] f = none) :
    Normalize.dropExtraWithin dims [] (f.withChildren cs) = none := by
  cases hw : f.window? with
  | none =>
      rw [Normalize.dropExtraWithin, window?_withChildren_of_none hw]
      rfl
  | some w =>
      obtain ⟨w', hk', -, hgrouping, -, hds, -⟩ :=
        exists_window_withChildren hcs (kind_of_window? hw)
      rw [dropExtraWithin_eq_none (kind_of_window? hw)] at h
      rw [dropExtraWithin_eq_none hk']
      intro ds' hds' d' hd'
      rw [hds'] at hgrouping hds
      cases hw' : w.grouping with
      | within ds =>
          rw [hw'] at hds
          obtain ⟨d, hd, hkeep⟩ := forall₂_exists_left hds hd'
          have hcontains := h ds hw' d hd
          obtain ⟨x, hx, hdx⟩ := contains_eq_true.mp hcontains
          rw [hkeep ((hdims x hx).of_same (BEq.symm hdx))]
          exact hcontains
      | _ => rw [hw'] at hgrouping; exact absurd hgrouping (by simp [Grouping.map, Grouping.withDims])

/-- What is ordered by is ordinary if the expression is. -/
theorem ordinary_of_orderKey {o : Formula} (h : (Normalize.orderKey o).Ordinary) : o.Ordinary := by
  rw [Normalize.orderKey] at h
  split at h
  next e d hk =>
    refine all_iff.mpr ⟨⟨by rw [hk]; rfl, fun haggregate => ?_⟩, fun c hc => ?_⟩
    · obtain ⟨c, hk', -⟩ := exists_call_of_isAggregateCall haggregate
      exact absurd (hk.symm.trans hk') (by simp)
    · rw [children, hk] at hc
      exact List.mem_singleton.mp hc ▸ h
  next => exact h

/-- Window calls stay ordered if what they are ordered by stays as it is. -/
theorem defaultOrdering_withChildren (hordering : ∀ o ∈ ordering, (Normalize.orderKey o).Ordinary)
    (hcs : List.Forall₂ (fun c d => f.isWindowCall = true → c.Ordinary → d = c) f.children cs)
    (h : Normalize.defaultOrdering ordering [] f = none) :
    Normalize.defaultOrdering ordering [] (f.withChildren cs) = none := by
  cases hw : f.window? with
  | none =>
      rw [Normalize.defaultOrdering, window?_withChildren_of_none hw]
      rfl
  | some w =>
      obtain ⟨w', hk', hname, -, -, -, hos⟩ := exists_window_withChildren hcs (kind_of_window? hw)
      rw [defaultOrdering_eq_none (kind_of_window? hw)] at h
      rw [defaultOrdering_eq_none hk', hname]
      intro huses item hitem
      obtain ⟨o, ho, hkey⟩ := h huses item hitem
      obtain ⟨o', ho', hkeep⟩ := forall₂_exists_right hos ho
      have hordinary := ordinary_of_orderKey ((hordering item hitem).of_same (BEq.symm hkey))
      refine ⟨o', ho', ?_⟩
      rw [hkeep (isWindowCall_of_window? hw) hordinary]
      exact hkey

end Windows

/-! ## Levels of detail -/

section Levels

variable {f : Formula} {above dims ordering : List Formula}

/-- There is no window call inside an aggregation. -/
def Outside (above : List Formula) (f : Formula) : Prop :=
  f.isWindowCall = true → Normalize.insideAggregation above = false

theorem throughout_outside
    (hf : f.All fun g => g.isAggregateCall = true → g.Calls Head.NoWindow)
    (habove : Normalize.insideAggregation above = false) : f.Throughout Outside above := by
  induction f using induction_children generalizing above with
  | step f ih =>
      refine throughout_iff.mpr ⟨fun _ => habove, fun c hc => ?_⟩
      cases haggregate : f.isAggregateCall with
      | true =>
          have hnone := (hf f (self_mem_nodes f) haggregate).of_child hc
          intro p g hg hwindow
          have hhead : Head.NoWindow g.kind.head := hnone g (mem_nodes_of_at? hg)
          obtain ⟨w, hw⟩ := Option.isSome_iff_exists.mp hwindow
          rw [kind_of_window? hw] at hhead
          exact hhead.elim
      | false =>
          refine ih c hc (hf.of_child hc) ?_
          rw [Normalize.insideAggregation_concat, haggregate, habove]
          simp

theorem defaultOrdering_of_flat (hf : f.Flat) :
    f.All fun g => Normalize.defaultOrdering ordering [] g = none := by
  intro g hg
  rw [Normalize.defaultOrdering, Ordinary.window?_eq_none (Flat.ordinary (hf.of_node hg))]
  rfl

/-- Outside of aggregations window calls stay ordered while aggregations become forks. -/
theorem ordered_levelOfDetail (hdims : ∀ d ∈ dims, d.Flat)
    (hordering : ∀ o ∈ ordering, (Normalize.orderKey o).Ordinary) (hf : f.Regular)
    (houtside : f.All fun g => g.isAggregateCall = true → g.Calls Head.NoWindow)
    (hall : f.All fun g => Normalize.defaultOrdering ordering [] g = none) :
    (f.transform (Normalize.levelOfDetail dims)).All fun g =>
      Normalize.defaultOrdering ordering [] g = none := by
  have hrule := Normalize.alters_levelOfDetail dims
  have hkeeps := keepsFlat_levelOfDetail hdims
  have hstart : f.Throughout (fun above g => g.Regular ∧ Outside above g ∧
      Normalize.defaultOrdering ordering [] g = none) [] := fun p g hg =>
    ⟨hf.of_node (mem_nodes_of_at? hg), throughout_outside houtside rfl p g hg,
      hall g (mem_nodes_of_at? hg)⟩
  rw [transform_eq_offered hrule.renews]
  suffices hthrough : (f.offered (Normalize.levelOfDetail dims) []).Throughout
      (fun _ g => Normalize.defaultOrdering ordering [] g = none) [] from hthrough.all
  refine throughout_offered (I := fun above _ => ∀ a ∈ above, a.Regular) hrule.renews ?_ ?_ hstart
    fun _ ha => absurd ha List.not_mem_nil
  · intro above above' g habove hg hnone
    obtain ⟨hregular, hout, hordered⟩ := hg.root
    refine ⟨?_, List.forall_mem_append.mpr ⟨habove, List.forall_mem_singleton.mpr hregular⟩⟩
    refine defaultOrdering_withChildren hordering ?_ hordered
    refine (forall₂_children_rebuilt _ above g).imp ?_
    intro c d hd hwindow hordinary
    rw [hd]
    refine (Rests.of_ordinary dims hordinary ?_).offered_eq
    rw [Normalize.insideAggregation_concat, hout hwindow,
      not_isAggregateCall_of_isWindowCall hwindow, Bool.or_false, Bool.and_false]
  · intro above above' g r habove hg hr hchildren
    have hregular : (g.rebuilt (Normalize.levelOfDetail dims) above).Regular := by
      rw [← transformBelow_eq_rebuilt hrule.renews]
      exact (passes_transformBelow hkeeps hg.root.1 habove).regular
    obtain ⟨c, hk, hname, herror | rfl⟩ := Normalize.levelOfDetail_cases hr
    · obtain ⟨message, code, hk'⟩ := kind_of_isError herror
      refine throughout_of_isError herror ?_
      rw [Normalize.defaultOrdering, window?, hk']
      rfl
    · have hown := flat_resolve hdims habove hregular hk hname
      refine throughout_iff.mpr ⟨rfl, fun d hd => ?_⟩
      rw [of, children, kind, Normalize.children_forkAt, List.mem_cons, List.mem_append] at hd
      rcases hd with rfl | hd | hd
      · refine throughout_iff.mpr ⟨rfl, fun d hd => ?_⟩
        exact hchildren d (Normalize.mem_children_of_inherited hk hd) _
          (List.forall_mem_append.mpr ⟨habove, List.forall_mem_singleton.mpr hg.root.1⟩)
      · exact throughout_of_all (defaultOrdering_of_flat (hown d (List.mem_filter.mp hd).1))
      · exact throughout_of_all (defaultOrdering_of_flat (hown d hd))

end Levels

end Formula

end FormulaSql
