import FormulaSql.Proofs.Formula.Positions
import FormulaSql.Proofs.Query.Levels
import FormulaSql.Proofs.Simplify.Styles

/-!
# Preparing does not see positions

The rules that prepare a query do not look at positions in formulas. Each stage changes all formulas
other than filters in one way, and formulas that are written alike into ones that are written alike.

* `Query.process_changes` says so of the query that is prepared
-/

namespace FormulaSql

open Formula

/-! ## Window calls -/

namespace Normalize

theorem orderKey_bare (f : Formula) : orderKey f.bare = (orderKey f).bare := by
  rw [orderKey, orderKey, kind_bare]
  cases f.kind <;> rfl

theorem missingOrdering_bare (ordering : List Formula) (w : WindowCall Formula) :
    missingOrdering (ordering.map bare) w.bare = (missingOrdering ordering w).map bare := by
  rw [missingOrdering, missingOrdering]
  have hkey (item : Formula) : (w.bare.ordering.any fun o => orderKey o == orderKey item) =
      w.ordering.any fun o => orderKey o == orderKey item := by
    simp [WindowCall.bare, List.any_map, Function.comp_def, orderKey_bare]
  simp only [hkey]
  exact filter_map_bare (fun item => by simp [orderKey_bare]) ordering

theorem bareOf_defaultOrdering (ordering : List Formula) :
    (defaultOrdering ordering).BareOf (defaultOrdering (ordering.map bare)) := by
  intro above f
  rw [defaultOrdering, defaultOrdering, window?_bare]
  cases f.window? with
  | none => rfl
  | some w =>
      simp only [Option.map_some, bind, Option.bind, missingOrdering_bare, List.isEmpty_map]
      change (if Function.usesDefaultOrdering w.name && _ then _ else _) = _
      split
      · simp [WindowCall.bare, Kind.map]
      · rfl

theorem bareOf_amongToWithin (dims : List Formula) :
    (amongToWithin dims).BareOf (amongToWithin (dims.map bare)) := by
  intro above f
  rw [amongToWithin, amongToWithin, window?_bare]
  cases f.window? with
  | none => rfl
  | some w =>
      simp only [Option.map_some, bind, Option.bind, WindowCall.bare]
      cases w.grouping with
      | among ds =>
          have hwithin : (dims.map bare).filter (fun d => !(ds.map bare).contains d) =
              (dims.filter fun d => !ds.contains d).map bare := by
            simp only [map_bare_contains]
            exact filter_map_bare (fun d => by simp) dims
          simp only [Grouping.map, Grouping.withDims, Grouping.dims, hwithin]
          simp [Kind.map, Grouping.map, Grouping.withDims, Grouping.dims]
      | _ => rfl

theorem bareOf_dropExtraWithin (dims : List Formula) :
    (dropExtraWithin dims).BareOf (dropExtraWithin (dims.map bare)) := by
  intro above f
  rw [dropExtraWithin, dropExtraWithin, window?_bare]
  cases f.window? with
  | none => rfl
  | some w =>
      simp only [Option.map_some, bind, Option.bind, WindowCall.bare]
      cases w.grouping with
      | within ds =>
          simp only [Grouping.map, Grouping.withDims, Grouping.dims, filter_contains_bare,
            all_contains_bare]
          split
          · rfl
          · simp [Kind.map, Grouping.map, Grouping.withDims, Grouping.dims]
      | _ => rfl

theorem bareOf_windowForks (dims : List Formula) :
    (windowForks dims).BareOf (windowForks (dims.map bare)) := by
  intro above f
  rw [windowForks, windowForks, window?_bare, any_map_bare isWindowCall_bare,
    any_map_bare isWindowFork_bare]
  cases f.window? with
  | none => rfl
  | some w =>
      simp only [Option.map_some, bind, Option.bind]
      split
      · rfl
      · simp [Kind.map, JoinCondition.map, Lod.map, Lod.withDims, Lod.dims, WindowCall.bare,
          Function.comp_def]

/-! ## Levels of detail -/

theorem allIn_bare (sub sup : List Formula) :
    allIn (sub.map bare) (sup.map bare) = allIn sub sup :=
  all_contains_bare sub sup

theorem isForkResult_bare (above : List Formula) (f : Formula) :
    isForkResult (above.map bare) f.bare = isForkResult above f := by
  rw [isForkResult, isForkResult, List.getLast?_map]
  cases above.getLast? with
  | none => rfl
  | some a =>
      simp only [Option.map_some, Option.bind_some, fork?_bare]
      cases a.fork? with
      | none => rfl
      | some q => simp [Fork.bare]

theorem insideAggregation_bare (above : List Formula) :
    insideAggregation (above.map bare) = insideAggregation above := by
  rw [insideAggregation, insideAggregation, ← List.map_reverse, List.takeWhile_map,
    any_map_bare isAggregateCall_bare]
  simp [Function.comp_def]

theorem needsFork_bare (above : List Formula) (c : Call Formula) :
    needsFork (above.map bare) c.bare = needsFork above c := by
  have hargs : (c.bare.args.any fun a => a.containsFork || a.containsExtended true) =
      c.args.any fun a => a.containsFork || a.containsExtended true :=
    any_map_bare (fun a => by simp) c.args
  rw [needsFork, needsFork, insideAggregation_bare, hargs]
  simp [Call.bare, Lod.isInherited_map]

theorem bareOf_levelOfDetail (dims : List Formula) :
    (levelOfDetail dims).BareOf (levelOfDetail (dims.map bare)) := by
  intro above f
  rw [levelOfDetail, levelOfDetail, kind_bare, isAggregateCall_bare, isForkResult_bare, text_bare,
    notes_bare]
  cases f.kind with
  | call c =>
      have hneeds : needsFork (above.map bare) ⟨c.name, c.args.map bare, c.lod.map bare,
          c.ignored.map bare, c.beforeFilterBy⟩ = needsFork above c := needsFork_bare above c
      simp only [Kind.map, hneeds, contextDimensions_bare, resolve_bare, allIn_bare]
      split
      · split
        · rfl
        · simp [Kind.map, JoinCondition.map, Lod.map, Lod.withDims, Lod.dims,
            filter_contains_bare, Function.comp_def]
      · rfl
  | _ => rfl

/-! ## Lookups -/

theorem lookup?_bare (f : Formula) :
    lookup? f.bare = (lookup? f).map fun ck => (ck.1.bare, ck.2) := by
  rw [lookup?, lookup?, call?_bare]
  cases f.call? with
  | none => rfl
  | some c =>
      have hname : c.bare.name = c.name := rfl
      simp only [Option.map_some, bind, Option.bind, hname]
      cases LookupKind.ofName? c.name <;> rfl

theorem shifted_bare (dimension : Formula) (shift : List Formula) :
    shifted dimension.bare (shift.map bare) = (shifted dimension shift).bare := by
  simp [shifted, Formula.call, callWith, Kind.map, Lod.map, Lod.withDims]

theorem unitName_bare (shift : List Formula) : unitName (shift.map bare) = unitName shift := by
  simp [unitName, List.findSome?_map, Function.comp_def]

theorem lookupConditions_bare (dimension : Formula) (rest : List Formula) (kind : LookupKind) :
    lookupConditions dimension.bare (rest.map bare) kind =
      (lookupConditions dimension rest kind).map (·.map bare) := by
  cases kind with
  | ago =>
      have hday : Formula.call "day" [dimension.bare] = (Formula.call "day" [dimension]).bare := by
        simp [Formula.call, callWith, Kind.map, Lod.map, Lod.withDims]
      simp only [lookupConditions, unitName_bare, shifted_bare, hday, List.map_cons]
      split <;> rfl
  | atDate => simp [lookupConditions, JoinCondition.map, Function.comp_def]

theorem lookupShifts_bare (dimension : Formula) (rest : List Formula) (kind : LookupKind) :
    lookupShifts dimension.bare (rest.map bare) kind =
      (lookupShifts dimension rest kind).map (·.map bare) := by
  cases kind with
  | ago => simp [lookupShifts, shifted_bare, FilterShift.map]
  | atDate => rfl

theorem lookupJoining_bare (dims ignored : List Formula) (dimension : Formula)
    (conditions : List (JoinCondition Formula)) :
    lookupJoining (dims.map bare) (ignored.map bare) dimension.bare
        (conditions.map (·.map bare)) =
      (lookupJoining dims ignored dimension conditions).map (·.map bare) := by
  rw [lookupJoining, lookupJoining, List.flatMap_map, List.map_flatMap]
  refine List.flatMap_congr fun d _ => ?_
  simp only [map_bare_contains, contains_bare, beq_bare_left, beq_bare_right]
  split
  · rfl
  · split <;> rfl

theorem countError_bare (c : Call Formula) : countError c.bare = (countError c).bare := by
  simp [countError, Call.bare, Formula.error, Kind.map]

theorem lookupFork_bare (dims : List Formula) (allowEmpty : Bool) (c : Call Formula)
    (kind : LookupKind) (measure dimension : Formula) (rest : List Formula) :
    lookupFork (dims.map bare) allowEmpty c.bare kind measure.bare dimension.bare
        (rest.map bare) =
      (lookupFork dims allowEmpty c kind measure dimension rest).bare := by
  have hfound : ((dims.map bare).any fun d => !c.bare.ignored.contains d && d == dimension.bare) =
      dims.any fun d => !c.ignored.contains d && d == dimension := by
    rw [List.any_map]
    refine congrArg (dims.any ·) (funext fun d => ?_)
    simp only [Call.bare, Function.comp_apply, map_bare_contains, contains_bare, beq_bare_left,
      beq_bare_right]
  have hconstant : ((lookupConditions dimension rest kind).map (·.map bare)).all
        (fun j => j.parts.all fun e => e.usedFields.isEmpty) =
      (lookupConditions dimension rest kind).all
        fun j => j.parts.all fun e => e.usedFields.isEmpty := by
    rw [List.all_map]
    refine congrArg (List.all _ ·) (funext fun j => ?_)
    cases j <;> simp [JoinCondition.map, JoinCondition.parts, usedFields_bare]
  have herror (message code : String) :
      (Formula.error message code).bare = .error message code := by
    simp [Formula.error, Kind.map]
  have hignored : c.bare.ignored.contains dimension.bare = c.ignored.contains dimension := by
    rw [Call.bare, map_bare_contains, contains_bare]
  rw [lookupFork, lookupFork]
  simp only [isAggregateExpression_bare, hfound, lookupConditions_bare, hconstant, hignored,
    List.isEmpty_map]
  rw [apply_ite bare, apply_ite bare, apply_ite bare, apply_ite bare, apply_ite bare]
  simp only [herror]
  repeat refine if_congr Iff.rfl rfl ?_
  simp [Kind.map, Lod.map, Lod.withDims, lookupShifts_bare, Call.bare, lookupJoining_bare]

theorem bareOf_lookups (dims : List Formula) (allowEmpty : Bool) :
    (lookups dims allowEmpty).BareOf (lookups (dims.map bare) allowEmpty) := by
  intro above f
  rw [lookups, lookups, lookup?_bare]
  rcases lookup? f with _ | ⟨c, kind⟩
  · rfl
  · have hlength : c.bare.args.length = c.args.length := List.length_map ..
    simp only [Option.map_some, bind, Option.bind, hlength, countError_bare,
      contextDimensions_bare]
    split
    · rfl
    · have hargs : c.bare.args = c.args.map bare := rfl
      rw [hargs]
      rcases c.args with _ | ⟨measure, _ | ⟨dimension, rest⟩⟩
      · rfl
      · rfl
      · simp only [List.map_cons, lookupFork_bare, Option.map_some]

theorem bareOf_lookupFilters : Rule.BareOf lookupFilters lookupFilters := by
  intro above f
  rw [lookupFilters, lookupFilters, lookup?_bare]
  rcases lookup? f with _ | ⟨c, kind⟩
  · rfl
  · have hlength : c.bare.args.length = c.args.length := List.length_map ..
    simp only [Option.map_some, bind, Option.bind, hlength, countError_bare]
    split
    · rfl
    · change ((c.args.map bare)[1]?.bind field?).bind _ = ((c.args[1]?.bind field?).bind _).map bare
      have hname : (c.args.map bare)[1]?.bind field? = c.args[1]?.bind field? := by
        rw [List.getElem?_map]
        cases c.args[1]? <;> simp
      rw [hname]
      cases c.args[1]?.bind field? with
      | none => rfl
      | some name => simp [Call.bare, Kind.map]

/-! ## Filters that come later and level tags -/

theorem laterFilters?_bare (f : Formula) : laterFilters? f.bare = laterFilters? f := by
  rw [laterFilters?, laterFilters?, kind_bare]
  cases f.kind <;> rfl

theorem bareOf_laterFilters (available : NameSet) :
    (laterFilters available).BareOf (laterFilters available) := by
  intro above f
  have hfull (own : NameSet) : fullLaterFilters available (above.map bare) own =
      fullLaterFilters available above own := by
    simp [fullLaterFilters, List.filterMap_map, laterFilters?_bare]
  rw [laterFilters, laterFilters, laterFilters?_bare]
  simp only [hfull, kind_bare, notes_bare]
  cases laterFilters? f with
  | none => rfl
  | some own =>
      simp only [bind, Option.bind]
      split
      · rfl
      · cases f.kind <;> simp [Kind.map]

theorem isTagged_bare (above : List Formula) : isTagged (above.map bare) = isTagged above := by
  rw [isTagged, isTagged, List.getLast?_map]
  cases above.getLast? with
  | none => rfl
  | some a =>
      obtain ⟨k, n⟩ := a
      simp only [Option.map_some, bare_mk]
      cases k <;> rfl

theorem levelTagOf_bare (above : List Formula) (f : Formula) (w : WindowCall Formula) :
    levelTagOf (above.map bare) f.bare w.bare = levelTagOf above f w := by
  have hoffset : groupingOffset w.bare.grouping = groupingOffset w.grouping := by
    change groupingOffset (w.grouping.map bare) = _
    cases w.grouping <;> rfl
  have hforks : ((above.map bare).filter isFork).length = (above.filter isFork).length := by
    rw [filter_map_bare isFork_bare, List.length_map]
  rw [levelTagOf, levelTagOf, hoffset, hforks]
  simp [WindowCall.bare, Function.comp_def]

theorem bareOf_levelTags : Rule.BareOf levelTags levelTags := by
  intro above f
  rw [levelTags, levelTags, window?_bare, isTagged_bare]
  cases f.window? with
  | none => rfl
  | some w =>
      simp only [Option.map_some, bind, Option.bind, levelTagOf_bare]
      split
      · rfl
      · exact congrArg some (bare_mk (.paren f) ⟨some (levelTagOf above f w), none⟩).symm

end Normalize

/-! ## Simplifying -/

namespace Simplify

/-- A formula without positions is the formula in another style. -/
theorem bareOf_rules (dialect : Dialects) :
    List.Forall₂ Rule.BareOf (rules dialect) (rules dialect) :=
  List.forall₂_same.mpr fun rule hrule above =>
    seesNoStyle_rules (.noted Notes.bare rfl) dialect rule hrule above (above.map Formula.bare)

end Simplify

/-! ## Stages -/

/-- Formulas that are written alike become ones that are written alike. -/
def Formula.SeesNoPositions (g : Formula → Formula) : Prop :=
  ∀ f f', f.bare = f'.bare → (g f).bare = (g f').bare

/-- All formulas other than filters have changed in one way that does not see positions, some may be
gone, and those that are left have their aliases. -/
structure Query.ChangesInto (q q' : Query) : Prop where
  formulas : ∃ g, SeesNoPositions g ∧ ∀ p, p ≠ .filters → ∀ e' ∈ q'.part p, ∃ e ∈ q.part p,
    e'.aliasName = e.aliasName ∧ e'.formula = g e.formula
  filters : ∀ e' ∈ q'.filters, ∃ e ∈ q.filters, e'.aliasName = e.aliasName

namespace Pipeline

variable {q q' : Query}

theorem changesInto_of_subset (h : ∀ p, q'.part p ⊆ q.part p) : q.ChangesInto q' where
  formulas := ⟨id, fun _ _ hbare => hbare, fun p _ e he => ⟨e, h p he, rfl, rfl⟩⟩
  filters e he := ⟨e, h .filters he, rfl⟩

theorem changesInto_trans {q'' : Query} (h : q.ChangesInto q') (h' : q'.ChangesInto q'') :
    q.ChangesInto q'' := by
  obtain ⟨g, hg, hformulas⟩ := h.formulas
  obtain ⟨g', hg', hformulas'⟩ := h'.formulas
  refine ⟨⟨g' ∘ g, fun f f' hbare => hg' _ _ (hg f f' hbare), fun p hp e'' he'' => ?_⟩,
    fun e'' he'' => ?_⟩
  · obtain ⟨e', he', hname', hformula'⟩ := hformulas' p hp e'' he''
    obtain ⟨e, he, hname, hformula⟩ := hformulas p hp e' he'
    exact ⟨e, he, hname'.trans hname, hformula'.trans (congrArg g' hformula)⟩
  · obtain ⟨e', he', hname'⟩ := h'.filters e'' he''
    obtain ⟨e, he, hname⟩ := h.filters e' he'
    exact ⟨e, he, hname'.trans hname⟩

/-- A formula that comes out the same stays as it was. -/
theorem changesInto_mapFormulas {h : Part → Formula → Formula} {g : Formula → Formula}
    (hg : SeesNoPositions g) (hparts : ∀ p, p ≠ .filters → h p = g) :
    q.ChangesInto (q.mapFormulas h) := by
  have hmap (g : Formula → Formula) (e : Entry) : (Query.mapEntry g e).aliasName = e.aliasName ∧
      (Query.mapEntry g e).formula =
        if g e.formula == e.formula then e.formula else g e.formula := by
    rw [Query.mapEntry]
    split <;> exact ⟨rfl, rfl⟩
  refine ⟨⟨fun f => if g f == f then f else g f, fun f f' hbare => ?_, fun p hp e' he' => ?_⟩,
    fun e' he' => ?_⟩
  · have hsame : (g f == f) = (g f' == f') := by
      rw [← beq_bare_left, ← beq_bare_right, hg f f' hbare, hbare, beq_bare_left, beq_bare_right]
    dsimp only
    rw [hsame]
    split
    · exact hbare
    · exact hg f f' hbare
  · rw [Query.part_mapFormulas, hparts p hp] at he'
    obtain ⟨e, he, rfl⟩ := List.mem_map.mp he'
    exact ⟨e, he, hmap g e⟩
  · obtain ⟨e, he, rfl⟩ := List.mem_map.mp he'
    exact ⟨e, he, (hmap _ e).1⟩

theorem seesNoPositions_transformAll {rules rules' : List Rule}
    (h : List.Forall₂ Rule.BareOf rules rules') :
    SeesNoPositions fun f => f.transformAll rules := by
  intro f f' hbare
  dsimp only
  rw [← transformAll_bare h, ← transformAll_bare h, hbare]

theorem changesInto_applyRules {rules rules' : List Rule}
    (h : List.Forall₂ Rule.BareOf rules rules') : q.ChangesInto (applyRules q rules) :=
  changesInto_mapFormulas (seesNoPositions_transformAll h) fun _ _ => rfl

/-- The stage changes queries in such a way. -/
def StageChanges (stage : Stage) : Prop := ∀ q q', stage q = .ok q' → q.ChangesInto q'

theorem prepare_changes (ordering : List Formula) : StageChanges (prepare ordering) := by
  intro q q' h
  obtain rfl := Except.ok.inj h
  exact changesInto_applyRules (.cons (Normalize.bareOf_defaultOrdering ordering)
    (.cons Normalize.bareOf_lookupFilters (.cons (Normalize.bareOf_amongToWithin q.dimensions)
      (.cons (Normalize.bareOf_dropExtraWithin q.dimensions) .nil))))

theorem optimize_changes (s : Settings) : StageChanges (optimize s) := by
  intro q q' h
  unfold optimize at h
  split at h
  · obtain rfl := Except.ok.inj h
    exact changesInto_of_subset fun _ => List.Subset.refl _
  · obtain rfl := Except.ok.inj h
    refine changesInto_mapFormulas (g := fun f => f.optimize s.dialect) (fun f f' hbare => ?_)
      fun p hp => ?_
    · have hsettle := settle_bare (Simplify.bareOf_rules s.dialect) maxRounds
      exact (hsettle f).symm.trans ((congrArg _ hbare).trans (hsettle f'))
    · simp [hp]

theorem dropConstantGroups_changes (applicable dialect : Dialects) :
    StageChanges (dropConstantGroups applicable dialect) := by
  intro q q' h
  unfold dropConstantGroups at h
  split at h
  · obtain rfl := Except.ok.inj h
    refine changesInto_of_subset fun p => ?_
    cases p with
    | groupBy => exact List.filter_subset_self _
    | _ => exact List.Subset.refl _
  · obtain rfl := Except.ok.inj h
    exact changesInto_of_subset fun _ => List.Subset.refl _

theorem dropTrueFilters_changes : StageChanges dropTrueFilters := by
  intro q q' h
  obtain rfl := Except.ok.inj h
  refine changesInto_of_subset fun p => ?_
  cases p with
  | filters => exact List.filter_subset_self _
  | _ => exact List.Subset.refl _

theorem isBeyondTotals_bare (dims : List Formula) (f : Formula) :
    isBeyondTotals dims f.bare = isBeyondTotals dims f := by
  simp [isBeyondTotals, isInconsistent, groupState_bare]

theorem nullifyTotals_changes : StageChanges nullifyTotals := by
  intro q q' h
  unfold nullifyTotals at h
  split at h
  · obtain rfl := Except.ok.inj h
    refine changesInto_mapFormulas (fun f f' hbare => ?_) fun _ _ => rfl
    have hbeyond : isBeyondTotals q.dimensions f = isBeyondTotals q.dimensions f' := by
      rw [← isBeyondTotals_bare, hbare, isBeyondTotals_bare]
    have hnotes : f.notes.bare = f'.notes.bare := by rw [← notes_bare, hbare, notes_bare]
    rw [hbeyond]
    split
    · rw [bare_mk, bare_mk, hnotes]
    · exact hbare
  · obtain rfl := Except.ok.inj h
    exact changesInto_of_subset fun _ => List.Subset.refl _

theorem makeForks_changes (s : Settings) : StageChanges (makeForks s) := by
  intro q q' h
  have hif {rule rule' : Rule} (hrule : rule.BareOf rule') (b : Bool) :
      List.Forall₂ Rule.BareOf (if b then [rule] else []) (if b then [rule'] else []) := by
    cases b
    · exact .nil
    · exact .cons hrule .nil
  rw [makeForks_rules h]
  exact changesInto_applyRules (List.rel_append (List.rel_append
    (hif (Normalize.bareOf_lookups q.dimensions _) _)
    (hif (Normalize.bareOf_levelOfDetail q.dimensions) _))
    (hif (Normalize.bareOf_windowForks q.dimensions) _))

theorem normalizeFilters_changes : StageChanges normalizeFilters := by
  intro q q' h
  obtain rfl := Except.ok.inj h
  exact changesInto_applyRules (.cons (Normalize.bareOf_laterFilters q.filterIds) .nil)

theorem tagLevels_changes : StageChanges tagLevels := by
  intro q q' h
  obtain rfl := Except.ok.inj h
  exact changesInto_applyRules (.cons Normalize.bareOf_levelTags .nil)

end Pipeline

/-- Preparing a query changes all formulas other than filters in one way that does not see
positions. -/
theorem Query.process_changes {q q' : Query} {s : Settings} {ordering : List Formula}
    (h : q.process s ordering = .ok q') : q.ChangesInto q' := by
  have hstages : ∀ stage ∈ Pipeline.stages s ordering, Pipeline.StageChanges stage := by
    simp only [Pipeline.stages, List.forall_mem_cons]
    exact ⟨Pipeline.prepare_changes ordering, Pipeline.optimize_changes s,
      Pipeline.dropConstantGroups_changes _ _, Pipeline.dropTrueFilters_changes,
      Pipeline.nullifyTotals_changes, Pipeline.makeForks_changes s,
      Pipeline.normalizeFilters_changes, Pipeline.tagLevels_changes,
      fun _ h => absurd h List.not_mem_nil⟩
  refine foldlM_invariant (I := fun _ x => q.ChangesInto x) ?_ []
    (Pipeline.changesInto_of_subset fun _ => List.Subset.refl _) h
  intro done stage hstage x x' hx hstep
  exact Pipeline.changesInto_trans hx (hstages stage hstage x x' hstep)

end FormulaSql
