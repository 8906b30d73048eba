import FormulaSql.Proofs.Query.Inert

/-!
# At which dimensions forks are found

Before forks are made, the aggregations at the top of all formulas are checked: they may only be
computed at dimensions of the query. After that, forks are made of lookups, of aggregations and of
window calls. The check looks at formulas without forks, and at the levels of detail as they are
written. What is shown here is that it covers every fork that is found by a search from the top: it
has come from an aggregation that has been checked, or is at the dimensions of the query anyway.

* `Lod.Inside` says that a level of detail gives dimensions of the query
* `Formula.KeepsInside` is what all rules but one do to levels of detail
* `Formula.forksInside_levelOfDetail` is about the rule for levels of detail
* `Query.process_forksInside` puts the stages together
-/

namespace FormulaSql

/-! ## Levels of detail inside the dimensions -/

/-- The level of detail gives dimensions of the query only. -/
def Lod.Inside (dims : List Formula) (l : Lod Formula) : Prop :=
  ∀ d ∈ l.resolve dims, dims.contains d = true

section Inside

variable {dims : List Formula}

theorem Lod.inside_of_isInherited {l : Lod Formula} (h : l.isInherited = true) :
    l.Inside dims := by
  cases l with
  | inherited | defaultAggregation => exact fun _ hd => Formula.contains_of_mem hd
  | _ => exact absurd h (by simp [Lod.isInherited])

theorem Lod.inside_fixed {own : List Formula} (h : ∀ d ∈ own, dims.contains d = true) :
    Lod.Inside dims (.fixed own) :=
  forall_pushUnique (fun _ hd => absurd hd List.not_mem_nil) h

theorem Formula.inert_of_contains {d : Formula} (hdims : ∀ d ∈ dims, d.Inert)
    (h : dims.contains d = true) : d.Inert := by
  obtain ⟨x, hx, hsame⟩ := Formula.contains_eq_true.mp h
  exact (hdims x hx).of_same (Formula.same_symm hsame)

/-- Dimensions that are collected are among those of the query if the collection is. -/
theorem Formula.inert_of_pushUnique {fs ds : List Formula} (hdims : ∀ d ∈ dims, d.Inert)
    (h : ∀ d ∈ ds.foldl pushUnique fs, dims.contains d = true) : ∀ d ∈ ds, d.Inert := by
  intro d hd
  have hcontains : (ds.foldl pushUnique fs).contains d = true :=
    Formula.contains_foldl_pushUnique (Or.inr hd)
  obtain ⟨x, hx, hsame⟩ := Formula.contains_eq_true.mp hcontains
  exact (Formula.inert_of_contains hdims (h x hx)).of_same (Formula.same_symm hsame)

/-- A level of detail inside the dimensions stays there if inert dimensions are kept: whatever it
names is a dimension of the query, and what it leaves out does not matter. -/
theorem Lod.Inside.of_dims {l l' : Lod Formula} (hdims : ∀ d ∈ dims, d.Inert)
    (houtline : l'.map (fun _ => ()) = l.map fun _ => ())
    (hcs : List.Forall₂ (fun c d => Formula.Inert c → d = c) l.dims l'.dims)
    (h : l.Inside dims) : l'.Inside dims := by
  have hkept (hinert : ∀ d ∈ l.dims, d.Inert) : l'.Inside dims := by
    rwa [Kind.eq_of_dims houtline (eq_of_forall₂_kept hcs hinert)]
  cases l with
  | inherited | defaultAggregation => exact hkept fun d hd => absurd hd List.not_mem_nil
  | fixed ds => exact hkept (Formula.inert_of_pushUnique hdims h)
  | including ds => exact hkept (Formula.inert_of_pushUnique hdims h)
  | excluding ds =>
      cases l' with
      | excluding ds' => exact fun d hd => Formula.contains_of_mem (List.mem_filter.mp hd).1
      | _ => simp [Lod.map, Lod.withDims] at houtline

end Inside

namespace Formula

/-- All forks that are found in the formula are at dimensions of the query. -/
def ForksInside (dims : List Formula) : Formula → Prop :=
  OnSurface fun g => ∀ k, g.fork? = some k → k.lod.Inside dims

/-- No fork is found in the formula. -/
def Unforked : Formula → Prop := OnSurface fun g => g.isFork = false

section ForksInside

variable {dims cs : List Formula} {f g : Formula}

theorem Unforked.forksInside (h : f.Unforked) : f.ForksInside dims := by
  intro g hg k hk
  have hfork : g.isFork = false := h g hg
  rw [isFork, hk] at hfork
  exact absurd hfork (by simp)

theorem Forkless.unforked (h : f.Forkless) : f.Unforked :=
  fun g hg => h g (mem_nodes_of_surface hg)

theorem unforked_of_isError (h : f.isError = true) : f.Unforked :=
  (forkless_of_isError h).unforked

theorem forksInside_fork {k : Fork Formula} {notes : Notes} (h : k.lod.Inside dims) :
    (mk (.fork k) notes).ForksInside dims := by
  refine onSurface_iff.mpr ⟨?_, fun hfork => absurd hfork (by simp [isFork, fork?, kind])⟩
  intro k' hk'
  rwa [← Option.some.inj hk']

/-- The level of detail of a node with other children, if inert ones among them are kept. -/
theorem lod?_withChildren_inside (hdims : ∀ d ∈ dims, d.Inert)
    (hcs : List.Forall₂ (fun c d => c.Inert → d = c) f.children cs) :
    (f.lod? = none → (f.withChildren cs).lod? = none) ∧
      ∀ l, f.lod? = some l →
        ∃ l', (f.withChildren cs).lod? = some l' ∧ (l.Inside dims → l'.Inside dims) := by
  cases hk : f.kind with
  | call c =>
      obtain ⟨c', hk', hname, houtline, -, hlod⟩ := exists_call_withChildren hcs hk
      rw [lod?_of_call hk', lod?_of_call hk, hname]
      cases Function.isAggregate c.name with
      | true =>
          refine ⟨fun h => absurd h (by simp), fun l hl => ⟨c'.lod, rfl, fun h => ?_⟩⟩
          obtain rfl := Option.some.inj hl
          exact h.of_dims hdims houtline hlod
      | false => exact ⟨fun h => h, fun l hl => absurd hl (by simp)⟩
  | fork k =>
      obtain ⟨k', hk', houtline, -, hlod⟩ := exists_fork_withChildren hcs hk
      rw [lod?_of_fork hk', lod?_of_fork hk]
      refine ⟨fun h => absurd h (by simp), fun l hl => ⟨k'.lod, rfl, fun h => ?_⟩⟩
      obtain rfl := Option.some.inj hl
      exact h.of_dims hdims houtline hlod
  | _ =>
      have houtline := outline_withChildren f cs
      rw [hk] at houtline
      rw [lod?, lod?, hk]
      cases hk' : (f.withChildren cs).kind <;> simp [hk', Kind.outline, Kind.map] at houtline ⊢

/-- A fork with other children is at dimensions of the query if it was before. -/
theorem inside_of_fork_withChildren (hdims : ∀ d ∈ dims, d.Inert)
    (hcs : List.Forall₂ (fun c d => c.Inert → d = c) f.children cs)
    (h : ∀ k, f.fork? = some k → k.lod.Inside dims) :
    ∀ k, (f.withChildren cs).fork? = some k → k.lod.Inside dims := by
  intro k' hk'
  have hfork : f.isFork = true := by
    rw [← isFork_withChildren f cs, isFork, hk']
    rfl
  obtain ⟨k, hk⟩ := Option.isSome_iff_exists.mp hfork
  obtain ⟨l', hl', hkeeps⟩ :=
    (lod?_withChildren_inside hdims hcs).2 k.lod (lod?_of_fork (kind_of_fork? hk))
  rw [lod?_of_fork (kind_of_fork? hk')] at hl'
  obtain rfl := Option.some.inj hl'
  exact hkeeps (h k hk)

end ForksInside

/-- What all rules but the one for levels of detail do to a formula. -/
structure KeepsInside (dims : List Formula) (f g : Formula) : Prop where
  inert : f.Inert → g = f
  top : f.TopLevel dims → g.TopLevel dims
  forks : f.ForksInside dims → g.ForksInside dims

theorem KeepsInside.refl (dims : List Formula) (f : Formula) : KeepsInside dims f f :=
  ⟨fun _ => rfl, id, id⟩

end Formula

/-- The rule offers only formulas with forks and aggregations inside the dimensions of the query for
those that have them there. -/
structure Rule.OffersInside (dims : List Formula) (rule : Rule) : Prop where
  spares : rule.SparesInert
  top : rule.KeepsTop dims
  forks : ∀ above g r, rule above g = some r → g.ForksInside dims → r.ForksInside dims

namespace Formula

section Rules

variable {dims cs : List Formula} {f g r : Formula} {rule : Rule}

theorem keepsInside_withChildren (hdims : ∀ d ∈ dims, d.Inert)
    (hcs : List.Forall₂ (KeepsInside dims) f.children cs) :
    KeepsInside dims f (f.withChildren cs) := by
  have hinert := hcs.imp fun _ _ h => h.inert
  obtain ⟨hnone, hsome⟩ := lod?_withChildren_inside hdims hinert
  constructor
  · intro hf
    rw [eq_of_forall₂_kept hinert fun c hc => hf.of_child hc, withChildren_children]
  · intro hf
    cases hl : f.lod? with
    | none =>
        refine (topLevel_of_none (hnone hl)).mpr fun d hd => ?_
        obtain ⟨c, hc, hcd⟩ := exists_autonomous_of_withChildren hcs hd
        exact hcd.top ((topLevel_of_none hl).mp hf c hc)
    | some l =>
        obtain ⟨l', hl', hkeeps⟩ := hsome l hl
        exact (topLevel_of_some hl').mpr (hkeeps ((topLevel_of_some hl).mp hf))
  · intro hf
    exact hf.withChildren (inside_of_fork_withChildren hdims hinert hf.root)
      (hcs.imp fun _ _ h => h.forks)

theorem keepsInside_transform (hdims : ∀ d ∈ dims, d.Inert) (hrule : rule.OffersInside dims)
    (f : Formula) : KeepsInside dims f (f.transform rule) := by
  refine transform_rel (Q := fun _ => True) (fun _ _ _ _ => trivial)
    (fun f _ => KeepsInside.refl dims f) (fun f cs _ => keepsInside_withChildren hdims) ?_ trivial
  intro above f g r _ _ hfg hr
  refine ⟨fun hf => ?_, fun hf => hrule.top above g r hr (hfg.top hf),
    fun hf => hrule.forks above g r hr (hfg.forks hf)⟩
  rw [hfg.inert hf, hrule.spares above f hf] at hr
  exact absurd hr (by simp)

/-! The rules, one by one. -/

theorem offersInside_lookups (allowEmpty : Bool) :
    Rule.OffersInside dims (Normalize.lookups dims allowEmpty) where
  spares := sparesInert_lookups
  top := keepsTop_lookups allowEmpty
  forks above g r hr _ := by
    obtain ⟨c, kind, -, herror | ⟨measure, dimension, rest, -, rfl⟩⟩ := Normalize.lookups_cases hr
    · exact (unforked_of_isError herror).forksInside
    · exact forksInside_fork (Lod.inside_of_isInherited rfl)

theorem offersInside_windowForks : Rule.OffersInside dims (Normalize.windowForks dims) where
  spares := sparesInert_windowForks
  top := keepsTop_windowForks
  forks above g r hr _ := by
    obtain ⟨w, -, rfl⟩ := Normalize.windowForks_cases hr
    exact forksInside_fork (Lod.inside_fixed fun d hd => contains_of_mem hd)

theorem offersInside_laterFilters (available : NameSet) :
    Rule.OffersInside dims (Normalize.laterFilters available) where
  spares := sparesInert_laterFilters available
  top := keepsTop_laterFilters available
  forks above g r hr hg := by
    rcases Normalize.laterFilters_cases hr with ⟨w, filters, hk, rfl⟩ | ⟨k, filters, hk, rfl⟩
    · refine onSurface_iff.mpr ⟨fun k hk => absurd hk (by simp [fork?, kind]), fun _ c hc => ?_⟩
      exact hg.of_mem (mem_surface_of_kind hk rfl hc)
    · exact forksInside_fork (hg.root k (by rw [fork?, hk]))

theorem offersInside_levelTags : Rule.OffersInside dims Normalize.levelTags where
  spares := sparesInert_levelTags
  top := keepsTop_levelTags
  forks above g r hr hg := by
    obtain ⟨w, notes, -, rfl⟩ := Normalize.levelTags_cases hr
    refine onSurface_iff.mpr ⟨fun k hk => absurd hk (by simp [fork?, kind]), fun _ c hc => ?_⟩
    exact List.mem_singleton.mp hc ▸ hg

/-! ## Aggregations -/

theorem isAggregateCall_of_lod? {l : Lod Formula} (h : f.lod? = some l)
    (hfork : f.isFork = false) : f.isAggregateCall = true := by
  rw [lod?] at h
  split at h
  next k hk =>
    rw [isFork, fork?, hk] at hfork
    exact absurd hfork (by simp)
  next c hk =>
    split at h
    next haggregate => exact haggregate
    next => exact absurd h (by simp)
  next => exact absurd h (by simp)

/-- An aggregation that is passed over has no forks in its arguments, unless it is the result of a
fork itself. -/
theorem unforked_of_levelOfDetail_eq_none {above : List Formula} {d : Formula}
    (habove : ∀ a ∈ above, a.lod? = none) (haggregate : f.isAggregateCall = true)
    (h : Normalize.levelOfDetail dims above f = none) (hd : d ∈ f.autonomous) : d.Unforked := by
  obtain ⟨c, hk, hname⟩ := exists_call_of_isAggregateCall haggregate
  rcases Normalize.levelOfDetail_eq_none h hk hname with hresult | hneeds
  · obtain ⟨a, k, ha, hfork, -⟩ := isForkResult_iff.mp hresult
    have hnone := habove a (List.mem_of_getLast? ha)
    rw [lod?_of_fork (kind_of_fork? hfork)] at hnone
    exact absurd hnone (by simp)
  · unfold Normalize.needsFork at hneeds
    rw [Bool.or_eq_false_iff] at hneeds
    have hargs := List.any_eq_false.mp hneeds.2 d (autonomous_of_call hk ▸ hd)
    rw [Bool.not_eq_true, Bool.or_eq_false_iff] at hargs
    apply Forkless.unforked
    intro g hg
    simpa using List.any_eq_false.mp hargs.1 g hg

/-- Where nothing above has a level of detail, a fork is made at the dimensions that the check has
seen. An aggregation that gets no fork has none below it either. -/
theorem forksInside_offered {above : List Formula} (hdims : ∀ d ∈ dims, d.Inert)
    (habove : ∀ a ∈ above, a.lod? = none) (htop : f.TopLevel dims) (h : f.ForksInside dims) :
    (f.offered (Normalize.levelOfDetail dims) above).ForksInside dims := by
  have hrule := Normalize.alters_levelOfDetail dims
  induction f using induction_children generalizing above with
  | step f ih =>
      have hcs := forall₂_children_rebuilt (Normalize.levelOfDetail dims) above f
      have hinert : List.Forall₂ (fun c d => c.Inert → d = c) f.children
          (f.children.map (offered (Normalize.levelOfDetail dims) (above ++ [f]))) :=
        hcs.imp fun c d hd hc => hd.trans (hc.rests sparesInert_levelOfDetail _).offered_eq
      obtain ⟨hnone, hsome⟩ := lod?_withChildren_inside hdims hinert
      rw [offered_eq hrule.renews]
      cases hr : Normalize.levelOfDetail dims above
          (f.rebuilt (Normalize.levelOfDetail dims) above) with
      | some r =>
          obtain ⟨c, hk, haggregate, herror | rfl⟩ := Normalize.levelOfDetail_cases hr
          · exact (unforked_of_isError herror).forksInside
          · have hl' : (f.rebuilt (Normalize.levelOfDetail dims) above).lod? = some c.lod := by
              rw [lod?_of_call hk, haggregate, if_pos rfl]
            rw [contextDimensions_of_none habove]
            refine forksInside_fork (Lod.inside_fixed ?_)
            cases hl : f.lod? with
            | none => exact absurd ((hnone hl).symm.trans hl') (by simp)
            | some l =>
                obtain ⟨l', hl'', hkeeps⟩ := hsome l hl
                obtain rfl := Option.some.inj (hl''.symm.trans hl')
                exact hkeeps ((topLevel_of_some hl).mp htop)
      | none =>
          rw [Option.getD_none]
          refine onSurface_iff.mpr ⟨inside_of_fork_withChildren hdims hinert h.root, ?_⟩
          intro hfork d hd
          cases hl : f.lod? with
          | none =>
              obtain ⟨c, hc, rfl⟩ := exists_autonomous_of_withChildren hcs hd
              rw [isFork_eq_of_outline (outline_rebuilt _ above f)] at hfork
              refine ih c (mem_children_of_autonomous hc) ?_ ((topLevel_of_none hl).mp htop c hc)
                ((onSurface_iff.mp h).2 hfork c hc)
              exact List.forall_mem_append.mpr ⟨habove, List.forall_mem_singleton.mpr hl⟩
          | some l =>
              obtain ⟨l', hl', -⟩ := hsome l hl
              have haggregate := isAggregateCall_of_lod? hl' hfork
              exact (unforked_of_levelOfDetail_eq_none habove haggregate hr hd).forksInside

theorem forksInside_levelOfDetail (hdims : ∀ d ∈ dims, d.Inert) (htop : f.TopLevel dims)
    (h : f.ForksInside dims) : (f.transform (Normalize.levelOfDetail dims)).ForksInside dims := by
  rw [transform_eq_offered (Normalize.alters_levelOfDetail dims).renews]
  exact forksInside_offered hdims (fun _ ha => absurd ha List.not_mem_nil) htop h

/-- Without extended aggregations there is nothing to check. -/
theorem topLevel_of_not_extended (h : f.containsExtended true = false) (hf : f.Unforked) :
    f.TopLevel dims := by
  have hsearch : f.extendedSearch true false = false := h
  clear h
  induction f using induction_children with
  | step f ih =>
      rw [extendedSearch_eq] at hsearch
      simp only [Bool.or_eq_false_iff] at hsearch
      cases hl : f.lod? with
      | none =>
          refine (topLevel_of_none hl).mpr fun c hc => ?_
          have hbelow := List.any_eq_false.mp hsearch.2 c hc
          rw [not_isAggregateCall_of_lod? hl, Bool.or_false, Bool.not_eq_true] at hbelow
          exact ih c (mem_children_of_autonomous hc) ((onSurface_iff.mp hf).2 hf.root c hc) hbelow
      | some l =>
          obtain ⟨c, hk, hname⟩ :=
            exists_call_of_isAggregateCall (isAggregateCall_of_lod? hl hf.root)
          have hextended := hsearch.1.1
          rw [isExtendedCall, call?, hk, isAggregateCall_of_kind hk, hname] at hextended
          simp only [Bool.true_and, Bool.or_eq_false_iff, Bool.not_eq_false'] at hextended
          have heq : c.lod = l := by
            rw [lod?_of_call hk, hname, if_pos rfl] at hl
            exact Option.some.inj hl
          exact (topLevel_of_some hl).mpr (Lod.inside_of_isInherited (heq ▸ hextended.1))

end Rules

/-! ## Simplified formulas -/

section Simplified

variable {f r : Formula} {rule : Rule} {rules : List Rule}

theorem unforked_transform
    (hrule : ∀ above g r, rule above g = some r → g.Unforked → r.Unforked) (hf : f.Unforked) :
    (f.transform rule).Unforked := by
  refine transform_rel (Q := fun _ => True) (R := fun f g => f.Unforked → g.Unforked)
    (fun _ _ _ _ => trivial) (fun _ _ => id) (fun f cs _ hcs hf => ?_)
    (fun above _ g r _ _ hfg hr hf => hrule above g r hr (hfg hf)) trivial hf
  exact hf.withChildren ((isFork_withChildren f cs).trans hf.root) hcs

theorem unforked_rewindowed {given : List Formula} (h : Normalize.Rewindowed given f r)
    (hf : f.Unforked) : r.Unforked := by
  obtain ⟨w, w', hw, rfl, hargs, -⟩ := h
  refine onSurface_iff.mpr ⟨rfl, fun _ c hc => ?_⟩
  have hauto : (Kind.window w').autonomous = (Kind.window w).autonomous := by
    simp [Kind.autonomous, Kind.autonomousCount, Kind.children, List.append_assoc, hargs]
  exact hf.of_mem (mem_surface_of_kind (kind_of_window? hw) rfl (hauto ▸ hc))

theorem unforked_lookupFilters {above : List Formula}
    (hr : Normalize.lookupFilters above f = some r) (hf : f.Unforked) : r.Unforked := by
  obtain ⟨c, kind, hlookup, herror | ⟨filters, rfl⟩⟩ := Normalize.lookupFilters_cases hr
  · exact unforked_of_isError herror
  · refine onSurface_iff.mpr ⟨rfl, fun _ x hx => ?_⟩
    exact hf.of_mem (mem_surface_of_kind (Normalize.lookup?_eq_some hlookup) rfl hx)

theorem Reduced.unforked (h : Reduced f r) (hf : f.Unforked) : r.Unforked := by
  cases h with
  | literal v notes => exact onSurface_iff.mpr ⟨rfl, fun _ c hc => absurd hc List.not_mem_nil⟩
  | part hg => exact hf.of_mem hg.mem_surface
  | aggregation hk hg => exact hf.of_mem (mem_surface_of_arg hk hg)
  | @operation k notes hk hcs =>
      refine onSurface_iff.mpr ⟨?_, fun _ c hc => ?_⟩
      · cases k with
        | binary | unary | ifBlock | caseBlock => rfl
        | _ => exact absurd hk (by simp [isOperation])
      · exact hf.of_mem (hcs c (mem_children_of_autonomous hc)).mem_surface
  | call hk _ _ hargs =>
      refine onSurface_iff.mpr ⟨rfl, fun _ x hx => ?_⟩
      rw [autonomous_callWithArgs] at hx
      exact hf.of_mem (hargs x hx).mem_surface

theorem unforked_settle
    (hrules : ∀ rule ∈ rules, ∀ above g r, rule above g = some r → Reduced g r) (rounds : Nat)
    (hf : f.Unforked) : (settle rules rounds f).Unforked :=
  settle_rel (R := fun f g => f.Unforked → g.Unforked) (fun _ => id)
    (fun _ _ _ h h' hf => h' (h hf)) (fun rule hrule _ => unforked_transform fun above g r hr =>
      (hrules rule hrule above g r hr).unforked) rounds f hf

theorem unforked_prepare {dims ordering : List Formula} (hf : f.Unforked) :
    (f.transformAll [Normalize.defaultOrdering ordering, Normalize.lookupFilters,
      Normalize.amongToWithin dims, Normalize.dropExtraWithin dims]).Unforked := by
  refine transformAll_rel (R := fun f g => f.Unforked → g.Unforked) (fun _ => id)
    (fun _ _ _ h h' hf => h' (h hf)) ?_ f hf
  simp only [List.forall_mem_cons]
  refine ⟨?_, ?_, ?_, ?_, fun _ h => absurd h List.not_mem_nil⟩
  · exact fun _ => unforked_transform fun _ _ _ hr =>
      unforked_rewindowed (Normalize.defaultOrdering_cases hr)
  · exact fun _ => unforked_transform fun _ _ _ hr => unforked_lookupFilters hr
  · exact fun _ => unforked_transform fun _ _ _ hr =>
      unforked_rewindowed (Normalize.amongToWithin_cases hr)
  · exact fun _ => unforked_transform fun _ _ _ hr =>
      unforked_rewindowed (Normalize.dropExtraWithin_cases hr)

theorem Inert.optimize {dialect : Dialects} (h : f.Inert) : (f.optimize dialect).Inert where
  calls := (asCalls_optimize Head.mild_plain f dialect).calls h.calls
  forkless := by
    refine (asRegular_settle (fun rule hrule above g r hr => ?_) _ f).forkless h.forkless
    exact (Simplify.rules_reduced rule hrule above g r hr).asRegular

end Simplified

end Formula

/-! ## Stages -/

/-- A formula as it is simplified everywhere but in filters. -/
def Settings.simplify (s : Settings) (f : Formula) : Formula :=
  if s.disableOptimizations then f else f.optimize s.dialect

section Stages

variable {q q₀ q₁ q' : Query} {s : Settings} {ordering : List Formula}

/-- The dimensions of a query are inert, and no fork is found in it. -/
structure Query.Unforked (q : Query) : Prop where
  dimension : ∀ d ∈ q.dimensions, d.Inert
  formula : ∀ part, ∀ e ∈ q.part part, e.formula.Unforked

/-- All forks that are found in the query are at its dimensions, which are inert. -/
structure Query.ForksInside (q : Query) : Prop where
  dimension : ∀ d ∈ q.dimensions, d.Inert
  formula : ∀ part, ∀ e ∈ q.part part, e.formula.ForksInside q.dimensions

theorem Query.forall_mapFormulas {P : Formula → Prop} {F : Part → Formula → Formula}
    (h : ∀ part, ∀ e ∈ q.part part, P e.formula ∧ P (F part e.formula)) :
    ∀ part, ∀ e ∈ (q.mapFormulas F).part part, P e.formula := by
  intro part e' he'
  rw [Query.part_mapFormulas] at he'
  obtain ⟨e, he, rfl⟩ := List.mem_map.mp he'
  rcases (mapEntry_formula (F part) e).2 with heq | heq
  · exact heq ▸ (h part e he).2
  · exact heq ▸ (h part e he).1

/-- Rules that spare inert formulas spare the dimensions. -/
theorem Query.dimensions_applyRules_of_inert {rules : List Rule} (h : ∀ d ∈ q.dimensions, d.Inert)
    (hrules : ∀ rule ∈ rules, rule.SparesInert) :
    (Pipeline.applyRules q rules).dimensions = q.dimensions := by
  refine congrArg (List.map Entry.formula) (Query.groupBy_mapFormulas fun d hd => ?_)
  exact Formula.transformAll_eq_self fun rule hrule => (h d hd).rests (hrules rule hrule) []

theorem Query.Unforked.prepare (hq : q.Unforked) (h : Pipeline.prepare ordering q = .ok q₁) :
    q₁.Unforked ∧ q₁.dimensions = q.dimensions ∧ q₁.type = q.type := by
  obtain rfl := Except.ok.inj h
  have hdims := Query.dimensions_applyRules_of_inert hq.dimension
    (sparesInert_prepare q.dimensions ordering)
  refine ⟨⟨fun d hd => ?_, Query.forall_mapFormulas fun part e he => ?_⟩, hdims, rfl⟩
  · rw [hdims] at hd
    exact hq.dimension d hd
  · exact ⟨hq.formula part e he, Formula.unforked_prepare (hq.formula part e he)⟩

theorem Query.Unforked.optimize (hq : q.Unforked) (h : Pipeline.optimize s q = .ok q₁) :
    q₁.Unforked ∧ q₁.type = q.type ∧
      List.Forall₂ (fun d d' => (s.simplify d == d') = true) q.dimensions q₁.dimensions := by
  unfold Pipeline.optimize at h
  split at h
  next hdisable =>
    obtain rfl := Except.ok.inj h
    refine ⟨hq, rfl, List.forall₂_same.mpr fun d _ => ?_⟩
    rw [Settings.simplify, if_pos hdisable]
    exact BEq.rfl
  next hoptimize =>
    obtain rfl := Except.ok.inj h
    have hdims : List.Forall₂ (fun d d' => (s.simplify d == d') = true) q.dimensions
        (q.mapFormulas fun p f => if p == .filters then f.optimizeFilter s.dialect
          else f.optimize s.dialect).dimensions := by
      rw [Query.dimensions, Query.dimensions, List.forall₂_map_left_iff, List.forall₂_map_right_iff]
      show List.Forall₂ _ q.groupBy (q.groupBy.map _)
      rw [List.forall₂_map_right_iff]
      refine List.forall₂_same.mpr fun e _ => ?_
      have hsame := (mapEntry_formula (fun f => if Part.groupBy == Part.filters
        then f.optimizeFilter s.dialect else f.optimize s.dialect) e).1
      rw [Settings.simplify, if_neg hoptimize]
      rwa [if_neg (by decide)] at hsame
    refine ⟨⟨fun d' hd' => ?_, Query.forall_mapFormulas fun part e he => ?_⟩, rfl, hdims⟩
    · obtain ⟨d, hd, hsame⟩ := forall₂_exists_left hdims hd'
      rw [Settings.simplify, if_neg hoptimize] at hsame
      exact (hq.dimension d hd).optimize.of_same hsame
    · refine ⟨hq.formula part e he, ?_⟩
      split
      · exact Formula.unforked_settle Simplify.filterRules_reduced _ (hq.formula part e he)
      · exact Formula.unforked_settle Simplify.rules_reduced _ (hq.formula part e he)

/-- Simplifying a query that is not one of totals only simplifies its dimensions. -/
theorem Query.Unforked.simplified (hq : q.Unforked) (htype : q.type = .normal)
    (h : q.simplified s ordering = .ok q₀) :
    q₀.Unforked ∧
      List.Forall₂ (fun d d' => (s.simplify d == d') = true) q.dimensions q₀.dimensions := by
  rw [Query.simplified, Pipeline.simplifying] at h
  obtain ⟨q₁, h₁, h⟩ := bind_eq_ok.mp h
  obtain ⟨q₂, h₂, h⟩ := bind_eq_ok.mp h
  obtain ⟨q₃, h₃, h⟩ := bind_eq_ok.mp h
  obtain ⟨q₄, h₄, h⟩ := bind_eq_ok.mp h
  obtain ⟨q₅, h₅, h⟩ := bind_eq_ok.mp h
  obtain rfl := Except.ok.inj h
  dsimp only at h₃ h₅
  obtain ⟨hq₁, hdims₁, htype₁⟩ := hq.prepare h₁
  obtain ⟨hq₂, htype₂, hdims₂⟩ := hq₁.optimize h₂
  rw [dropConstantGroups_eq_self] at h₃
  obtain rfl := Except.ok.inj h₃
  have hnormal : q₄.type = .normal := by
    obtain rfl := Except.ok.inj h₄
    exact htype₂.trans (htype₁.trans htype)
  rw [nullifyTotals_eq_self fun htotals => absurd (hnormal.symm.trans htotals) (by simp)] at h₅
  obtain rfl := Except.ok.inj h₅
  obtain rfl := Except.ok.inj h₄
  refine ⟨⟨hq₂.dimension, fun part e he => hq₂.formula part e ?_⟩, hdims₁ ▸ hdims₂⟩
  cases part with
  | filters => exact (List.mem_filter.mp he).1
  | _ => exact he

theorem Query.ForksInside.applyRule {rule : Rule} (hq : q.ForksInside)
    (hrule : rule.OffersInside q.dimensions) :
    (Pipeline.applyRules q [rule]).ForksInside ∧
      (Pipeline.applyRules q [rule]).dimensions = q.dimensions := by
  have hdims := Query.dimensions_applyRules_of_inert hq.dimension
    (List.forall_mem_singleton.mpr hrule.spares)
  refine ⟨⟨hdims ▸ hq.dimension, hdims.symm ▸ Query.forall_mapFormulas fun part e he => ?_⟩, hdims⟩
  exact ⟨hq.formula part e he,
    (Formula.keepsInside_transform hq.dimension hrule e.formula).forks (hq.formula part e he)⟩

/-- The rule comes in or not. -/
theorem Formula.transformAll_optional {P Q : Formula → Prop} (rule : Rule) (b : Bool) {f : Formula}
    (hskip : P f → Q f) (hrule : P f → Q (f.transform rule)) (h : P f) :
    Q (f.transformAll (if b then [rule] else [])) := by
  cases b with
  | true => exact hrule h
  | false => exact hskip h

/-- The rules that make forks are applied to formulas at the top of which all is inside the
dimensions. -/
theorem Formula.forksInside_transformAll {dims : List Formula} {f : Formula}
    (allowEmpty looks levels windows : Bool) (hdims : ∀ d ∈ dims, d.Inert)
    (htop : f.TopLevel dims) (h : f.ForksInside dims) :
    (f.transformAll ((if looks then [Normalize.lookups dims allowEmpty] else []) ++
      (if levels then [Normalize.levelOfDetail dims] else []) ++
      if windows then [Normalize.windowForks dims] else [])).ForksInside dims := by
  have hlooked := transformAll_optional (Normalize.lookups dims allowEmpty) looks
    (P := fun f => f.TopLevel dims ∧ f.ForksInside dims)
    (Q := fun f => f.TopLevel dims ∧ f.ForksInside dims) id
    (fun h =>
      have hkeeps := keepsInside_transform hdims (offersInside_lookups allowEmpty) f
      ⟨hkeeps.top h.1, hkeeps.forks h.2⟩) ⟨htop, h⟩
  have hleveled := transformAll_optional (Normalize.levelOfDetail dims) levels
    (P := fun f => f.TopLevel dims ∧ f.ForksInside dims) (Q := ForksInside dims) And.right
    (fun h => forksInside_levelOfDetail hdims h.1 h.2) hlooked
  have hwindowed := transformAll_optional (Normalize.windowForks dims) windows
    (P := ForksInside dims) (Q := ForksInside dims) id
    (keepsInside_transform hdims offersInside_windowForks _).forks hleveled
  rw [transformAll, List.foldl_append, List.foldl_append]
  exact hwindowed

/-- The check and the making of forks. -/
theorem Query.Unforked.makeForks (hq : q₀.Unforked) (hallow : s.allowAnyTopLevelDimensions = false)
    (h : Pipeline.makeForks s q₀ = .ok q₁) :
    q₁.ForksInside ∧ q₁.dimensions = q₀.dimensions := by
  have htop : ∀ part, ∀ e ∈ q₀.part part, e.formula.TopLevel q₀.dimensions := by
    cases hextended : q₀.anyFormula fun f => f.containsExtended true with
    | true => exact topLevel_of_makeForks h hextended hallow
    | false =>
        intro part e he
        exact Formula.topLevel_of_not_extended (anyFormula_eq_false hextended part he)
          (hq.formula part e he)
  obtain rfl := makeForks_rules h
  have hspares : ∀ rule ∈ (if q₀.anyFormula Formula.containsLookup
          then [Normalize.lookups q₀.dimensions s.allowEmptyDimensions] else []) ++
        (if q₀.seeksLevels then [Normalize.levelOfDetail q₀.dimensions] else []) ++
        if q₀.anyFormula Formula.containsWindow
          then [Normalize.windowForks q₀.dimensions] else [], Rule.SparesInert rule := by
    intro rule hrule
    simp only [List.mem_append] at hrule
    rcases hrule with (hrule | hrule) | hrule
    · exact mem_of_mem_ite hrule ▸ sparesInert_lookups
    · exact mem_of_mem_ite hrule ▸ sparesInert_levelOfDetail
    · exact mem_of_mem_ite hrule ▸ sparesInert_windowForks
  have hdims := Query.dimensions_applyRules_of_inert hq.dimension hspares
  refine ⟨⟨fun d hd => ?_, ?_⟩, hdims⟩
  · rw [hdims] at hd
    exact hq.dimension d hd
  · rw [hdims]
    refine Query.forall_mapFormulas fun part e he => ?_
    have hunforked := hq.formula part e he
    exact ⟨hunforked.forksInside, Formula.forksInside_transformAll _ _ _ _ hq.dimension
      (htop part e he) hunforked.forksInside⟩

/-- The forks that are found in a prepared query are at its dimensions, and these are what the
dimensions before are simplified to. -/
theorem Query.process_forksInside (hq : q.Unforked) (htype : q.type = .normal)
    (hallow : s.allowAnyTopLevelDimensions = false) (h : q.process s ordering = .ok q') :
    q'.ForksInside ∧
      List.Forall₂ (fun d d' => (s.simplify d == d') = true) q.dimensions q'.dimensions := by
  rw [Query.process_eq] at h
  obtain ⟨q₀, h₀, h⟩ := bind_eq_ok.mp h
  obtain ⟨q₁, h₁, h⟩ := bind_eq_ok.mp h
  obtain ⟨q₂, h₂, h₃⟩ := bind_eq_ok.mp h
  obtain ⟨hq₀, hdims₀⟩ := hq.simplified htype h₀
  obtain ⟨hq₁, hdims₁⟩ := hq₀.makeForks hallow h₁
  obtain rfl := Except.ok.inj h₂
  obtain rfl := Except.ok.inj h₃
  obtain ⟨hq₂, hdims₂⟩ := hq₁.applyRule (Formula.offersInside_laterFilters q₁.filterIds)
  obtain ⟨hq₃, hdims₃⟩ := hq₂.applyRule Formula.offersInside_levelTags
  exact ⟨hq₃, (hdims₃.trans (hdims₂.trans hdims₁)) ▸ hdims₀⟩

end Stages

end FormulaSql
