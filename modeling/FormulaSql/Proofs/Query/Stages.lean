import FormulaSql.Proofs.Query.NormalForm
import FormulaSql.Proofs.Query.Resting
import FormulaSql.Proofs.Query.TopLevel
import Mathlib.Data.List.Sort

/-!
# Stages that change nothing

For each stage of the preparation, what it takes for a query to come out as it was. An entry whose
formula comes out the same is kept, so it is enough that no rule has anything to offer.
-/

namespace FormulaSql

theorem NameSet.eq_of_mem_iff {s t : NameSet} (h : ∀ n, n ∈ s.toList ↔ n ∈ t.toList) : s = t := by
  obtain ⟨xs, hxs⟩ := s
  obtain ⟨ys, hys⟩ := t
  obtain rfl : xs = ys := hxs.eq_of_mem_iff hys h
  rfl

namespace Formula

/-! ## Rules that rest -/

section Rests

variable {rules : List Rule} {dims ordering above : List Formula} {available : NameSet} {f : Formula}

theorem transformAll_eq_self (h : ∀ rule ∈ rules, f.Rests rule []) : f.transformAll rules = f := by
  rw [transformAll]
  induction rules with
  | nil => rfl
  | cons rule rules ih =>
      rw [List.forall_mem_cons] at h
      rw [List.foldl_cons, transform_eq_self h.1, ih h.2]

theorem settle_eq_self (h : ∀ rule ∈ rules, f.Rests rule []) (rounds : Nat) :
    settle rules rounds f = f := by
  cases rounds with
  | zero => rfl
  | succ rounds =>
      unfold settle
      simp [transformAll_eq_self h]

/-- A rule that does not look at the nodes above. -/
theorem rests_of_all {rule : Rule} (hrule : ∀ above f, rule above f = rule [] f)
    (h : f.All fun g => rule [] g = none) : f.Rests rule above :=
  fun _ g hg => (hrule _ g).trans (h g (mem_nodes_of_at? hg))

theorem Calls.lookup?_eq_none (h : f.Calls Head.NoLookup) : Normalize.lookup? f = none := by
  have hhead := h.head
  cases hk : f.kind with
  | call c =>
      rw [hk] at hhead
      have hname : Normalize.LookupKind.ofName? c.name = none := hhead
      rw [lookup?_of_kind hk, hname]
      rfl
  | _ => exact Formula.lookup?_eq_none (by rw [call?, hk])

theorem rests_lookups {allowEmpty : Bool} (h : f.Calls Head.NoLookup) :
    f.Rests (Normalize.lookups dims allowEmpty) above := by
  intro p g hg
  rw [Normalize.lookups, Calls.lookup?_eq_none (h.of_node (mem_nodes_of_at? hg))]
  rfl

theorem rests_lookupFilters (h : f.Calls Head.NoLookup) :
    f.Rests Normalize.lookupFilters above := by
  intro p g hg
  rw [Normalize.lookupFilters, Calls.lookup?_eq_none (h.of_node (mem_nodes_of_at? hg))]
  rfl

theorem rests_amongToWithin (h : f.Calls Head.NoAmong) :
    f.Rests (Normalize.amongToWithin dims) above := by
  intro p g hg
  have hhead : Head.NoAmong g.kind.head := h g (mem_nodes_of_at? hg)
  rw [Normalize.amongToWithin, window?]
  cases hk : g.kind with
  | window w =>
      rw [hk] at hhead
      have hamong : w.grouping.isAmong = false := hhead
      rw [Option.bind_eq_bind, Option.bind_some]
      cases hgrouping : w.grouping with
      | among ds => rw [hgrouping] at hamong; exact absurd hamong (by simp [Grouping.isAmong])
      | _ => rfl
  | _ => rfl

theorem rests_windowForks (h : f.Throughout WindowForked above) :
    f.Rests (Normalize.windowForks dims) above := by
  refine h.imp fun above g hg => ?_
  cases hwindow : g.isWindowCall with
  | true => exact windowForks_eq_none (hg hwindow)
  | false =>
      rw [isWindowCall, Option.isSome_eq_false_iff, Option.isNone_iff_eq_none] at hwindow
      rw [Normalize.windowForks, hwindow]
      rfl

theorem rests_levelTags (h : f.Throughout Tagged above) : f.Rests Normalize.levelTags above := by
  refine h.imp fun above g hg => ?_
  cases hwindow : g.isWindowCall with
  | true =>
      rw [Normalize.levelTags, hg hwindow]
      cases g.window? <;> rfl
  | false =>
      rw [isWindowCall, Option.isSome_eq_false_iff, Option.isNone_iff_eq_none] at hwindow
      rw [Normalize.levelTags, hwindow]
      rfl

/-- Where all filters are counted in, the full set is the one there is. -/
theorem FiltersLater.fullLaterFilters_eq {own : NameSet} (h : FiltersLater available above f)
    (hown : Normalize.laterFilters? f = some own) :
    Normalize.fullLaterFilters available above own = own := by
  obtain ⟨havailable, hbefore⟩ := h own hown
  apply NameSet.eq_of_mem_iff
  intro n
  rw [mem_fullLaterFilters]
  constructor
  · rintro ⟨hn | ⟨a, ha, s, hs, hn⟩, -⟩
    · exact hn
    · exact hbefore a ha s hs n hn
  · exact fun hn => ⟨Or.inl hn, havailable n hn⟩

theorem rests_laterFilters (h : f.Throughout (FiltersLater available) above) :
    f.Rests (Normalize.laterFilters available) above := by
  refine h.imp fun above g hg => ?_
  cases hown : Normalize.laterFilters? g with
  | none => rw [Normalize.laterFilters, hown]; rfl
  | some own =>
      rw [Normalize.laterFilters, hown, Option.bind_eq_bind, Option.bind_some]
      simp [hg.fullLaterFilters_eq hown]

end Rests

end Formula

/-! ## Queries whose formulas stay -/

section Stages

variable {q : Query} {s : Settings} {ordering : List Formula} {rules : List Rule}

theorem mapEntry_eq_self {F : Formula → Formula} {e : Entry} (h : F e.formula = e.formula) :
    Query.mapEntry F e = e := by
  rw [Query.mapEntry, h]
  simp

theorem Query.mapFormulas_eq_self {F : Part → Formula → Formula}
    (h : ∀ part, ∀ e ∈ q.part part, F part e.formula = e.formula) : q.mapFormulas F = q := by
  have hpart (part : Part) : (q.part part).map (Query.mapEntry (F part)) = q.part part :=
    (List.map_congr_left fun e he => mapEntry_eq_self (h part e he)).trans (List.map_id' _)
  have hselect : q.select.map (Query.mapEntry (F .select)) = q.select := hpart .select
  have hgroupBy : q.groupBy.map (Query.mapEntry (F .groupBy)) = q.groupBy := hpart .groupBy
  have hfilters : q.filters.map (Query.mapEntry (F .filters)) = q.filters := hpart .filters
  have horderBy : q.orderBy.map (Query.mapEntry (F .orderBy)) = q.orderBy := hpart .orderBy
  have hjoinOn : q.joinOn.map (Query.mapEntry (F .joinOn)) = q.joinOn := hpart .joinOn
  rw [Query.mapFormulas, hselect, hgroupBy, hfilters, horderBy, hjoinOn]

theorem applyRules_eq_self
    (h : ∀ part, ∀ e ∈ q.part part, ∀ rule ∈ rules, e.formula.Rests rule []) :
    Pipeline.applyRules q rules = q :=
  Query.mapFormulas_eq_self fun part e he => Formula.transformAll_eq_self (h part e he)

/-! ## One stage after another -/

theorem prepare_eq_self
    (hordered : ∀ part, ∀ e ∈ q.part part, e.formula.All fun g =>
      Normalize.defaultOrdering ordering [] g = none)
    (hwithin : ∀ part, ∀ e ∈ q.part part, e.formula.All fun g =>
      Normalize.dropExtraWithin q.dimensions [] g = none)
    (hlookup : q.Calls Head.NoLookup) (hamong : q.Calls Head.NoAmong) :
    Pipeline.prepare ordering q = .ok q := by
  refine congrArg Except.ok (applyRules_eq_self fun part e he => ?_)
  simp only [List.forall_mem_cons]
  exact ⟨Formula.rests_of_all (fun _ _ => rfl) (hordered part e he),
    Formula.rests_lookupFilters (hlookup part e he), Formula.rests_amongToWithin (hamong part e he),
    Formula.rests_of_all (fun _ _ => rfl) (hwithin part e he), fun _ h => absurd h List.not_mem_nil⟩

/-- The rules that simplify the formulas of a part. -/
def Pipeline.partRules (s : Settings) (part : Part) : List Rule :=
  if s.disableOptimizations then []
  else if part == .filters then Simplify.filterRules s.dialect else Simplify.rules s.dialect

theorem optimize_eq_self
    (h : ∀ part, ∀ e ∈ q.part part, e.formula.All fun g =>
      ∀ rule ∈ Pipeline.partRules s part, rule [] g = none) :
    Pipeline.optimize s q = .ok q := by
  rw [Pipeline.optimize]
  split
  next => rfl
  next hoptimize =>
    refine congrArg Except.ok (Query.mapFormulas_eq_self fun part e he => ?_)
    have hall := h part e he
    rw [Pipeline.partRules, if_neg hoptimize] at hall
    have hrests {rules : List Rule} (hsub : rules ⊆ Simplify.filterRules s.dialect)
        (hall : e.formula.All fun g => ∀ rule ∈ rules, rule [] g = none) :
        ∀ rule ∈ rules, e.formula.Rests rule [] := fun rule hrule =>
      Formula.rests_of_all (Formula.filterRules_eq s.dialect rule (hsub hrule))
        fun g hg => hall g hg rule hrule
    split
    next hpart =>
      rw [if_pos hpart] at hall
      exact Formula.settle_eq_self (hrests (List.Subset.refl _) hall) Formula.maxRounds
    next hpart =>
      rw [if_neg hpart] at hall
      exact Formula.settle_eq_self (hrests (List.subset_cons_self _ _) hall) Formula.maxRounds

theorem dropConstantGroups_eq_self (dialect : Dialects) :
    Pipeline.dropConstantGroups Pipeline.withoutConstantGroups dialect q = .ok q := by
  have hnone : (!dialect.isEmpty && Pipeline.withoutConstantGroups.contains dialect) = false := by
    have hinter : Dialects.empty.inter dialect = Dialects.empty := by
      simp [Dialects.inter, Dialects.empty]
    rw [Pipeline.withoutConstantGroups, Dialects.contains, hinter, Dialects.isEmpty, Bool.beq_comm]
    simp
  rw [Pipeline.dropConstantGroups, hnone]
  rfl

theorem dropTrueFilters_eq_self (h : ∀ e ∈ q.filters, Simplify.isTrue e.formula = false) :
    Pipeline.dropTrueFilters q = .ok q := by
  have hfilters : q.filters.filter (fun e => !Simplify.isTrue e.formula) = q.filters :=
    List.filter_eq_self.mpr fun e he => by rw [h e he]; rfl
  rw [Pipeline.dropTrueFilters, hfilters]

theorem nullifyTotals_eq_self
    (h : q.type = .totals → ∀ part, ∀ e ∈ q.part part,
      Pipeline.isBeyondTotals q.dimensions e.formula = false) :
    Pipeline.nullifyTotals q = .ok q := by
  rw [Pipeline.nullifyTotals]
  split
  next htype =>
    refine congrArg Except.ok (Query.mapFormulas_eq_self fun part e he => ?_)
    rw [h (beq_iff_eq.mp htype) part e he]
    rfl
  next => rfl

/-- The check passes if all formulas do. -/
theorem Query.checkTopLevel_iff : Pipeline.checkTopLevel q = .ok () ↔
    ∀ part, ∀ e ∈ q.part part, e.formula.TopLevel q.dimensions := by
  have hforM : Pipeline.checkTopLevel q = .ok () ↔
      (q.entries.forM fun e => Normalize.checkTopLevel e.2.formula q.dimensions) = .ok () := by
    rw [Pipeline.checkTopLevel]
    cases q.entries.forM fun e => Normalize.checkTopLevel e.2.formula q.dimensions with
    | ok => exact ⟨fun _ => rfl, fun _ => rfl⟩
    | error e => exact ⟨fun h => absurd h (by simp [Except.mapError]), fun h => absurd h (by simp)⟩
  rw [hforM, forM_eq_ok]
  simp only [Formula.checkTopLevel_iff]
  constructor
  · exact fun h part e he => h (part, e) (Query.mem_entries he)
  · intro h x hx
    obtain ⟨part, -, hx⟩ := List.mem_flatMap.mp hx
    obtain ⟨e, he, rfl⟩ := List.mem_map.mp hx
    exact h part e he

/-- Where the check is made, it has passed. -/
theorem topLevel_of_makeForks {q' : Query} (h : Pipeline.makeForks s q = .ok q')
    (hextended : (q.anyFormula fun f => f.containsExtended true) = true)
    (hallow : s.allowAnyTopLevelDimensions = false) :
    ∀ part, ∀ e ∈ q.part part, e.formula.TopLevel q.dimensions := by
  rw [Pipeline.makeForks, hextended, hallow] at h
  obtain ⟨⟨⟩, hcheck, -⟩ := bind_eq_ok.mp h
  exact Query.checkTopLevel_iff.mp hcheck

theorem makeForks_eq_self (hlookup : q.Calls Head.NoLookup)
    (hlevels : q.seeksLevels = true → ∀ part, ∀ e ∈ q.part part,
      e.formula.Rests (Normalize.levelOfDetail q.dimensions) [])
    (hwindows : ∀ part, ∀ e ∈ q.part part, e.formula.Throughout Formula.WindowForked [])
    (htop : (q.anyFormula fun f => f.containsExtended true) = true →
      s.allowAnyTopLevelDimensions = false →
      ∀ part, ∀ e ∈ q.part part, e.formula.TopLevel q.dimensions) :
    Pipeline.makeForks s q = .ok q := by
  have hrests : Pipeline.applyRules q
      ((if q.anyFormula Formula.containsLookup
          then [Normalize.lookups q.dimensions s.allowEmptyDimensions] else []) ++
        (if q.seeksLevels then [Normalize.levelOfDetail q.dimensions] else []) ++
        if q.anyFormula Formula.containsWindow
          then [Normalize.windowForks q.dimensions] else []) = q := by
    refine applyRules_eq_self fun part e he rule hrule => ?_
    simp only [List.mem_append] at hrule
    rcases hrule with (hrule | hrule) | hrule
    · rw [mem_of_mem_ite hrule]
      exact Formula.rests_lookups (hlookup part e he)
    · cases hseeks : q.seeksLevels with
      | true =>
          rw [mem_of_mem_ite hrule]
          exact hlevels hseeks part e he
      | false =>
          rw [hseeks] at hrule
          exact absurd hrule List.not_mem_nil
    · rw [mem_of_mem_ite hrule]
      exact Formula.rests_windowForks (hwindows part e he)
  rw [Pipeline.makeForks]
  dsimp only
  split
  next hcheck =>
    rw [Bool.and_eq_true, Bool.not_eq_true'] at hcheck
    rw [Query.checkTopLevel_iff.mpr (htop hcheck.1 hcheck.2)]
    exact congrArg Except.ok hrests
  next => exact congrArg Except.ok hrests

theorem normalizeFilters_eq_self (h : ∀ part, ∀ e ∈ q.part part,
    e.formula.Throughout (Formula.FiltersLater q.filterIds) []) :
    Pipeline.normalizeFilters q = .ok q := by
  refine congrArg Except.ok (applyRules_eq_self fun part e he rule hrule => ?_)
  rw [List.mem_singleton.mp hrule]
  exact Formula.rests_laterFilters (h part e he)

theorem tagLevels_eq_self (h : ∀ part, ∀ e ∈ q.part part, e.formula.Throughout Formula.Tagged []) :
    Pipeline.tagLevels q = .ok q := by
  refine congrArg Except.ok (applyRules_eq_self fun part e he rule hrule => ?_)
  rw [List.mem_singleton.mp hrule]
  exact Formula.rests_levelTags (h part e he)

end Stages

/-! ## Totals -/

section Totals

variable {q q' : Query} {dims : List Formula} {f : Formula}

theorem ofName?_ne_none_of_isLookup {n : String} (h : Function.isLookup n = true) :
    Normalize.LookupKind.ofName? n ≠ none := by
  have hall : ∀ d ∈ catalogue, d.isLookup = true → d.name = "ago" ∨ d.name = "at_date" := by
    decide +kernel
  obtain ⟨d, hd, hlookup⟩ := List.any_eq_true.mp h
  obtain ⟨hmem, hname, -⟩ := Function.mem_definitions.mp hd
  rw [Normalize.LookupKind.ofName?, ← hname]
  rcases hall d hmem hlookup with hago | hdate
  · simp [hago]
  · simp [hdate]

theorem Formula.Flat.not_containsLookup (h : f.Flat) : f.containsLookup = false := by
  rw [containsLookup, any, List.any_eq_false]
  intro g hg
  have hrow : g.kind.isRowwise = true := h g hg
  rw [isLookupCall, call?]
  cases hk : g.kind with
  | call c =>
      rw [hk, Kind.isRowwise, Bool.and_eq_true, Option.isNone_iff_eq_none] at hrow
      exact fun hlookup => ofName?_ne_none_of_isLookup hlookup hrow.2
  | _ => exact Bool.false_ne_true

/-- A dimension has a meaning in a row of totals. -/
theorem isBeyondTotals_of_dimension (hf : f.Flat) (hmem : f ∈ dims) :
    Pipeline.isBeyondTotals dims f = false := by
  have hstate : f.groupState dims true = .ok .dimension := by
    rw [Formula.groupState, Formula.recur_eq, Formula.contains_of_mem hmem]
    rfl
  rw [Pipeline.isBeyondTotals, hf.not_containsLookup,
    Formula.containsExtended_of_unaggregated hf.unaggregated, Formula.isInconsistent, hstate,
    Formula.calls_noWindow_iff.mp (Formula.calls_noWindow_of_flat hf)]
  rfl

theorem isBeyondTotals_of_literal {v : Literal} (hk : f.kind = .literal v) :
    Pipeline.isBeyondTotals dims f = false := by
  have hflat : f.Flat := by
    refine Formula.all_iff.mpr ⟨by rw [hk]; rfl, fun c hc => ?_⟩
    rw [Formula.children, hk] at hc
    exact absurd hc List.not_mem_nil
  have hinconsistent : f.isInconsistent dims = false := by
    have hstate : f.groupState dims true = .ok .dimension ∨
        f.groupState dims true = .ok .constant := by
      rw [Formula.groupState, Formula.recur_eq, hk]
      cases dims.contains f with
      | true => exact Or.inl rfl
      | false => exact Or.inr rfl
    rcases hstate with hstate | hstate <;> rw [Formula.isInconsistent, hstate]
  rw [Pipeline.isBeyondTotals, hflat.not_containsLookup,
    Formula.containsExtended_of_unaggregated hflat.unaggregated, hinconsistent,
    Formula.calls_noWindow_iff.mp (Formula.calls_noWindow_of_flat hflat)]
  rfl

theorem exists_literal_of_same {g : Formula} {v : Literal} (h : (f == g) = true)
    (hk : f.kind = .literal v) : ∃ w, g.kind = .literal w := by
  have hshape := (Formula.same_iff.mp h).1
  rw [hk] at hshape
  cases hg : g.kind with
  | literal w => exact ⟨w, rfl⟩
  | _ => simp [hg, Kind.shape, Kind.map] at hshape

theorem Query.groupBy_mapFormulas {F : Part → Formula → Formula}
    (h : ∀ d ∈ q.dimensions, F .groupBy d = d) : (q.mapFormulas F).groupBy = q.groupBy :=
  (List.map_congr_left fun e he => mapEntry_eq_self (h e.formula (List.mem_map_of_mem he))).trans
    (List.map_id' _)

/-- The formula in a row of totals. -/
def Pipeline.inTotals (dims : List Formula) (f : Formula) : Formula :=
  if isBeyondTotals dims f then .mk (.literal .null) f.notes else f

theorem inTotals_eq_self (h : Pipeline.isBeyondTotals dims f = false) :
    Pipeline.inTotals dims f = f := by
  rw [Pipeline.inTotals, h]
  rfl

/-- In a query for totals nothing is left that means nothing there. -/
theorem not_isBeyondTotals_of_nullifyTotals (hq : q.Regular)
    (h : Pipeline.nullifyTotals q = .ok q') (htype : q'.type = .totals) :
    ∀ part, ∀ e ∈ q'.part part, Pipeline.isBeyondTotals q'.dimensions e.formula = false := by
  rw [Pipeline.nullifyTotals] at h
  split at h
  next =>
    obtain rfl : q.mapFormulas (fun _ => Pipeline.inTotals q.dimensions) = q' := Except.ok.inj h
    intro part e' he'
    have hdims : (q.mapFormulas fun _ => Pipeline.inTotals q.dimensions).dimensions =
        q.dimensions := by
      refine congrArg (List.map Entry.formula) (Query.groupBy_mapFormulas fun d hd => ?_)
      exact inTotals_eq_self (isBeyondTotals_of_dimension (hq.flat d hd) hd)
    rw [hdims]
    rw [Query.part_mapFormulas] at he'
    obtain ⟨e, he, rfl⟩ := List.mem_map.mp he'
    cases hbeyond : Pipeline.isBeyondTotals q.dimensions e.formula with
    | false => rw [mapEntry_eq_self (inTotals_eq_self hbeyond), hbeyond]
    | true =>
        have hsame := (mapEntry_formula (Pipeline.inTotals q.dimensions) e).1
        rw [Pipeline.inTotals, hbeyond, if_pos rfl] at hsame
        obtain ⟨v, hk⟩ := exists_literal_of_same hsame rfl
        exact isBeyondTotals_of_literal hk
  next hnot =>
    obtain rfl := Except.ok.inj h
    exact absurd (beq_iff_eq.mpr htype) hnot

theorem not_isTrue_of_nullifyTotals (h : Pipeline.nullifyTotals q = .ok q')
    (hq : ∀ e ∈ q.filters, Simplify.isTrue e.formula = false) :
    ∀ e ∈ q'.filters, Simplify.isTrue e.formula = false := by
  rw [Pipeline.nullifyTotals] at h
  split at h
  next =>
    obtain rfl : q.mapFormulas (fun _ => Pipeline.inTotals q.dimensions) = q' := Except.ok.inj h
    intro e' he'
    obtain ⟨e, he, rfl⟩ := List.mem_map.mp he'
    obtain ⟨-, heq | heq⟩ := mapEntry_formula (Pipeline.inTotals q.dimensions) e
    · rw [heq, Pipeline.inTotals]
      split
      · rfl
      · exact hq e he
    · rw [heq]
      exact hq e he
  next =>
    obtain rfl := Except.ok.inj h
    exact hq

/-- The last stages before forks are made drop filters that hold and look at totals. -/
theorem exists_nullifyTotals {s : Settings} {ordering : List Formula} (hq : q.Regular)
    (hordering : ∀ o ∈ ordering, o.Regular ∧ o.Forkless) (h : q.simplified s ordering = .ok q') :
    ∃ p : Query, p.Regular ∧ (∀ e ∈ p.filters, Simplify.isTrue e.formula = false) ∧
      Pipeline.nullifyTotals p = .ok q' := by
  have hstages : Pipeline.simplifying s ordering =
      [Pipeline.prepare ordering, Pipeline.optimize s,
        Pipeline.dropConstantGroups Pipeline.withoutConstantGroups s.dialect] ++
      [Pipeline.dropTrueFilters, Pipeline.nullifyTotals] := rfl
  rw [Query.simplified, hstages, List.foldlM_append] at h
  obtain ⟨q₁, h₁, h⟩ := bind_eq_ok.mp h
  obtain ⟨q₂, h₂, h⟩ := bind_eq_ok.mp h
  obtain ⟨q₃, h₃, h⟩ := bind_eq_ok.mp h
  obtain rfl := Except.ok.inj h
  have hregular₁ : q₁.Regular := by
    refine foldlM_invariant (I := fun _ x => x.Regular) ?_ [] hq h₁
    intro _ stage hstage x x' hx hstep
    exact hx.stage hordering (hstages ▸ List.mem_append_left _ hstage) hstep
  refine ⟨q₂, hregular₁.stage (s := s) hordering (by simp [Pipeline.simplifying]) h₂, ?_, h₃⟩
  obtain rfl := Except.ok.inj h₂
  intro e he
  simpa using (List.mem_filter.mp he).2

end Totals

end FormulaSql
