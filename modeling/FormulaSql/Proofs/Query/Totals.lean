import FormulaSql.Proofs.Query.ForkDimensions
import FormulaSql.Proofs.Query.Stages
import FormulaSql.Split.Rounds

/-!
# Queries for totals

A query for totals has nothing in it that would need a sub-query: formulas with lookups, window
calls or aggregations of their own level become NULL before forks are made, and the stages after
that find nothing to do. Forks can still get into a formula before, with the ordering that window
calls get by default, but they stay beside the arguments of the call and go away with it.

* `Query.process_totals` says what becomes of each formula, and that the query is not cut
-/

namespace FormulaSql

namespace Formula

/-! ## Forks beside the arguments of window calls -/

/-- Every fork stands beside the arguments of a window call. -/
def sheltered (f : Formula) : Bool :=
  f.recur fun f k => !f.isFork && (if f.isWindowCall then k.autonomous else k.children).all id

section Sheltered

variable {f g r : Formula}

theorem sheltered_iff :
    f.sheltered = true ↔ f.isFork = false ∧
      ∀ c ∈ if f.isWindowCall then f.autonomous else f.children, c.sheltered = true := by
  rw [sheltered, recur_eq, Kind.autonomous_map, Kind.children_map, Bool.and_eq_true,
    Bool.not_eq_true', ← apply_ite (List.map _), List.all_map, List.all_eq_true]
  rfl

theorem Sheltered.not_isFork (h : f.sheltered = true) : f.isFork = false := (sheltered_iff.mp h).1

theorem sheltered_of_autonomous (h : f.sheltered = true) {c : Formula} (hc : c ∈ f.autonomous) :
    c.sheltered = true := by
  refine (sheltered_iff.mp h).2 c ?_
  split
  · exact hc
  · exact mem_children_of_autonomous hc

theorem sheltered_of_child (h : f.sheltered = true) (hwindow : f.isWindowCall = false) {c : Formula}
    (hc : c ∈ f.children) : c.sheltered = true := by
  refine (sheltered_iff.mp h).2 c ?_
  rwa [hwindow, if_neg Bool.false_ne_true]

theorem sheltered_of_children (hfork : f.isFork = false)
    (h : ∀ c ∈ f.children, c.sheltered = true) : f.sheltered = true := by
  refine sheltered_iff.mpr ⟨hfork, fun c hc => h c ?_⟩
  split at hc
  · exact mem_children_of_autonomous hc
  · exact hc

theorem Forkless.sheltered (h : f.Forkless) : f.sheltered = true := by
  induction f using induction_children with
  | step f ih => exact sheltered_of_children h.not_isFork fun c hc => ih c hc (h.of_child hc)

/-- Without window calls there are no forks. -/
theorem forkless_of_sheltered (h : f.sheltered = true) (hwindow : f.containsWindow = false) :
    f.Forkless := by
  induction f using induction_children with
  | step f ih =>
      rw [containsWindow, any, List.any_eq_false] at hwindow
      refine all_iff.mpr ⟨Sheltered.not_isFork h, fun c hc => ?_⟩
      refine ih c hc (sheltered_of_child h ?_ hc) ?_
      · exact Bool.not_eq_true _ ▸ hwindow f (self_mem_nodes f)
      · rw [containsWindow, any, List.any_eq_false]
        exact fun g hg => hwindow g (mem_nodes_of_child hc hg)

theorem sheltered_of_surface (h : f.sheltered = true) (hg : g ∈ f.surface) :
    g.sheltered = true := by
  induction f using induction_children with
  | step f ih =>
      rcases mem_surface_iff.mp hg with rfl | ⟨-, c, hc, hg⟩
      · exact h
      · exact ih c (mem_children_of_autonomous hc) (sheltered_of_autonomous h hc) hg

theorem sheltered_withChildren {cs : List Formula}
    (hcs : List.Forall₂ (fun c d => c.sheltered = true → d.sheltered = true) f.children cs)
    (h : f.sheltered = true) : (f.withChildren cs).sheltered = true := by
  have hwindow := isWindowCall_eq_of_outline (outline_withChildren f cs)
  refine sheltered_iff.mpr
    ⟨(isFork_withChildren f cs).trans (Sheltered.not_isFork h), fun d hd => ?_⟩
  rw [hwindow] at hd
  split at hd
  next =>
    obtain ⟨c, hc, hcd⟩ := exists_autonomous_of_withChildren hcs hd
    exact hcd (sheltered_of_autonomous h hc)
  next hnot =>
    rw [children_withChildren f cs hcs.length_eq.symm] at hd
    obtain ⟨c, hc, hcd⟩ := forall₂_exists_left hcs hd
    exact hcd (sheltered_of_child h (Bool.not_eq_true _ ▸ hnot) hc)

theorem sheltered_transform {rule : Rule}
    (hrule : ∀ above g r, rule above g = some r → g.sheltered = true → r.sheltered = true)
    (h : f.sheltered = true) : (f.transform rule).sheltered = true :=
  transform_rel (Q := fun _ => True) (R := fun f g => f.sheltered = true → g.sheltered = true)
    (fun _ _ _ _ => trivial) (fun _ _ => id) (fun _ _ _ => sheltered_withChildren)
    (fun above _ g r _ _ hfg hr h => hrule above g r hr (hfg h)) trivial h

/-! Every rule before totals are looked at keeps forks where they are. -/

theorem sheltered_rewindowed {given : List Formula} (h : Normalize.Rewindowed given f r)
    (hf : f.sheltered = true) : r.sheltered = true := by
  obtain ⟨w, w', hw, rfl, hargs, -⟩ := h
  have hauto : (Kind.window w').autonomous = f.autonomous := by
    rw [autonomous, kind_of_window? hw]
    simp [Kind.autonomous, Kind.autonomousCount, Kind.children, List.append_assoc, hargs]
  refine sheltered_iff.mpr ⟨rfl, fun c hc => ?_⟩
  exact sheltered_of_autonomous hf (hauto ▸ hc)

theorem sheltered_of_isError (h : r.isError = true) : r.sheltered = true :=
  (forkless_of_isError h).sheltered

theorem sheltered_lookupFilters {above : List Formula}
    (hr : Normalize.lookupFilters above f = some r) (hf : f.sheltered = true) :
    r.sheltered = true := by
  obtain ⟨c, kind, hlookup, herror | ⟨filters, rfl⟩⟩ := Normalize.lookupFilters_cases hr
  · exact sheltered_of_isError herror
  · have hk := Normalize.lookup?_eq_some hlookup
    refine sheltered_of_children rfl fun x hx => sheltered_of_child hf ?_ ?_
    · rw [isWindowCall, window?, hk]
      rfl
    · rw [children, hk]
      exact hx

theorem Reduced.sheltered (h : Reduced f r) (hf : f.sheltered = true) : r.sheltered = true := by
  cases h with
  | literal v notes => exact sheltered_of_children rfl fun c hc => absurd hc List.not_mem_nil
  | part hg => exact sheltered_of_surface hf hg.mem_surface
  | aggregation hk hg => exact sheltered_of_surface hf (mem_surface_of_arg hk hg)
  | @operation k notes hk hcs =>
      refine sheltered_of_children ?_ fun c hc =>
        sheltered_of_surface hf (hcs c hc).mem_surface
      cases k with
      | binary | unary | ifBlock | caseBlock => rfl
      | _ => exact absurd hk (by simp [isOperation])
  | @call c args hk _ _ hargs =>
      refine sheltered_of_children rfl fun x hx => ?_
      have hx : x ∈ args ++ c.lod.dims ++ [] := hx
      rw [List.append_nil] at hx
      rcases List.mem_append.mp hx with hx | hx
      · exact sheltered_of_surface hf (hargs x hx).mem_surface
      · refine sheltered_of_child hf ?_ ?_
        · rw [isWindowCall, window?, hk]
          rfl
        · rw [children, hk]
          exact List.mem_append_left _ (List.mem_append_right _ hx)

theorem sheltered_prepare {dims ordering : List Formula} (h : f.sheltered = true) :
    (f.transformAll [Normalize.defaultOrdering ordering, Normalize.lookupFilters,
      Normalize.amongToWithin dims, Normalize.dropExtraWithin dims]).sheltered = true := by
  refine transformAll_rel (R := fun f g => f.sheltered = true → g.sheltered = true) (fun _ => id)
    (fun _ _ _ h h' hf => h' (h hf)) ?_ f h
  simp only [List.forall_mem_cons]
  refine ⟨?_, ?_, ?_, ?_, fun _ h => absurd h List.not_mem_nil⟩
  · exact fun _ => sheltered_transform fun _ _ _ hr =>
      sheltered_rewindowed (Normalize.defaultOrdering_cases hr)
  · exact fun _ => sheltered_transform fun _ _ _ hr => sheltered_lookupFilters hr
  · exact fun _ => sheltered_transform fun _ _ _ hr =>
      sheltered_rewindowed (Normalize.amongToWithin_cases hr)
  · exact fun _ => sheltered_transform fun _ _ _ hr =>
      sheltered_rewindowed (Normalize.dropExtraWithin_cases hr)

theorem sheltered_settle {rules : List Rule}
    (hrules : ∀ rule ∈ rules, ∀ above g r, rule above g = some r → Reduced g r) (rounds : Nat)
    (h : f.sheltered = true) : (settle rules rounds f).sheltered = true :=
  settle_rel (R := fun f g => f.sheltered = true → g.sheltered = true) (fun _ => id)
    (fun _ _ _ h h' hf => h' (h hf)) (fun rule hrule _ => sheltered_transform fun above g r hr =>
      (hrules rule hrule above g r hr).sheltered) rounds f h

end Sheltered

end Formula

/-! ## What becomes of the formulas -/

section Totals

variable {q p q' : Query} {s : Settings} {ordering : List Formula}

/-- Preparing and simplifying never fails, and leaves forks beside the arguments of window calls. -/
theorem exists_optimize (hq : ∀ part, ∀ e ∈ q.part part, e.formula.Forkless) (s : Settings)
    (ordering : List Formula) :
    ∃ p, (Pipeline.prepare ordering q >>= Pipeline.optimize s) = .ok p ∧ p.type = q.type ∧
      ∀ part, ∀ e ∈ p.part part, e.formula.sheltered = true := by
  obtain ⟨q₁, hprepare, htype, hq₁⟩ : ∃ q₁, Pipeline.prepare ordering q = .ok q₁ ∧
      q₁.type = q.type ∧ ∀ part, ∀ e ∈ q₁.part part, e.formula.sheltered = true := by
    refine ⟨_, rfl, rfl, Query.forall_mapFormulas (P := fun f => f.sheltered = true) ?_⟩
    intro part e he
    have hsheltered := (hq part e he).sheltered
    exact ⟨hsheltered, Formula.sheltered_prepare hsheltered⟩
  rw [hprepare]
  change ∃ p, Pipeline.optimize s q₁ = .ok p ∧ _
  rw [Pipeline.optimize]
  split
  next => exact ⟨q₁, rfl, htype, hq₁⟩
  next =>
    refine ⟨_, rfl, htype, Query.forall_mapFormulas (P := fun f => f.sheltered = true) ?_⟩
    intro part e he
    refine ⟨hq₁ part e he, ?_⟩
    split
    · exact Formula.sheltered_settle Simplify.filterRules_reduced _ (hq₁ part e he)
    · exact Formula.sheltered_settle Simplify.rules_reduced _ (hq₁ part e he)

/-- A formula that means nothing in totals becomes NULL, and every other one stays. -/
def Entry.inTotals (dims : List Formula) (e : Entry) : Entry :=
  { e with formula := Pipeline.inTotals dims e.formula }

theorem mapEntry_inTotals (dims : List Formula) (e : Entry) :
    Query.mapEntry (Pipeline.inTotals dims) e = e.inTotals dims := by
  cases hbeyond : Pipeline.isBeyondTotals dims e.formula with
  | false =>
      have hself := inTotals_eq_self hbeyond
      rw [mapEntry_eq_self hself, Entry.inTotals, hself]
  | true =>
      have hnot : (Pipeline.inTotals dims e.formula == e.formula) = false := by
        rw [← Bool.not_eq_true]
        intro hsame
        rw [Pipeline.inTotals, if_pos hbeyond] at hsame
        obtain ⟨v, hk⟩ := exists_literal_of_same hsame rfl
        exact Bool.false_ne_true ((isBeyondTotals_of_literal hk).symm.trans hbeyond)
      rw [Query.mapEntry, hnot]
      rfl

/-- Nothing in the formula would need a sub-query. -/
structure Formula.SelfContained (f : Formula) : Prop where
  lookup : f.containsLookup = false
  extended : f.containsExtended true = false
  window : f.containsWindow = false
  fork : f.containsFork = false

theorem selfContained_inTotals {dims : List Formula} {f : Formula} (h : f.sheltered = true) :
    (Pipeline.inTotals dims f).SelfContained := by
  rw [Pipeline.inTotals]
  split
  next => exact ⟨rfl, rfl, rfl, rfl⟩
  next hbeyond =>
    rw [Pipeline.isBeyondTotals] at hbeyond
    simp only [Bool.or_eq_true, not_or, Bool.not_eq_true] at hbeyond
    obtain ⟨⟨⟨hlookup, hextended⟩, -⟩, hwindow⟩ := hbeyond
    have hforkless := Formula.forkless_of_sheltered h hwindow
    exact ⟨hlookup, hextended, hwindow, List.any_eq_false.mpr fun g hg => by simp [hforkless g hg]⟩

theorem not_isWindowCall {f g : Formula} (h : f.SelfContained) (hg : g ∈ f.nodes) :
    g.isWindowCall = false :=
  Bool.not_eq_true _ ▸ List.any_eq_false.mp h.window g hg

theorem not_isFork {f g : Formula} (h : f.SelfContained) (hg : g ∈ f.nodes) : g.isFork = false :=
  Bool.not_eq_true _ ▸ List.any_eq_false.mp h.fork g hg

theorem Query.forall_entries {P : Formula → Prop}
    (h : ∀ part, ∀ e ∈ q.part part, P e.formula) : ∀ x ∈ q.entries, P x.2.formula := by
  intro x hx
  obtain ⟨part, -, hx⟩ := List.mem_flatMap.mp hx
  obtain ⟨e, he, rfl⟩ := List.mem_map.mp hx
  exact h part e he

theorem anyFormula_eq_false_of_forall {p : Formula → Bool}
    (h : ∀ part, ∀ e ∈ q.part part, p e.formula = false) : q.anyFormula p = false :=
  List.any_eq_false.mpr fun x hx =>
    Bool.not_eq_true _ ▸ Query.forall_entries (P := fun f => p f = false) h x hx

/-- The stages that make forks find nothing to do. -/
theorem makeForks_selfContained (h : ∀ part, ∀ e ∈ q.part part, e.formula.SelfContained) :
    Pipeline.makeForks s q = .ok q := by
  have hlookups := anyFormula_eq_false_of_forall fun part e he => (h part e he).lookup
  have hextended := anyFormula_eq_false_of_forall (p := fun f => f.containsExtended true)
    fun part e he => (h part e he).extended
  have hwindows := anyFormula_eq_false_of_forall fun part e he => (h part e he).window
  rw [Pipeline.makeForks, hlookups, hextended, hwindows]
  exact congrArg Except.ok
    (applyRules_eq_self fun _ _ _ _ hrule => absurd hrule List.not_mem_nil)

theorem normalizeFilters_selfContained (h : ∀ part, ∀ e ∈ q.part part, e.formula.SelfContained) :
    Pipeline.normalizeFilters q = .ok q := by
  refine normalizeFilters_eq_self fun part e he path g hg own hown => ?_
  have hmem := Formula.mem_nodes_of_at? hg
  have hwindow := not_isWindowCall (h part e he) hmem
  have hfork := not_isFork (h part e he) hmem
  rw [Normalize.laterFilters?] at hown
  rw [Formula.isWindowCall, Formula.window?] at hwindow
  rw [Formula.isFork, Formula.fork?] at hfork
  cases hk : g.kind with
  | window w => simp [hk] at hwindow
  | fork x => simp [hk] at hfork
  | _ => simp [hk] at hown

theorem tagLevels_selfContained (h : ∀ part, ∀ e ∈ q.part part, e.formula.SelfContained) :
    Pipeline.tagLevels q = .ok q := by
  refine tagLevels_eq_self fun part e he p g hg hwindow => ?_
  have hnot := not_isWindowCall (h part e he) (Formula.mem_nodes_of_at? hg)
  exact absurd hwindow (by simp [hnot])

theorem errors_eq_nil {f : Formula} (h : ∀ g ∈ f.nodes, g.isError = false) : f.errors = [] := by
  rw [Formula.errors, List.filterMap_eq_nil_iff]
  intro g hg
  have hg := h g hg
  rw [Formula.isError] at hg
  split
  next hk => simp [hk] at hg
  next => rfl

/-- A query without forks and errors is not cut. -/
theorem Query.split_eq_self (hforks : ∀ part, ∀ e ∈ q.part part, e.formula.containsFork = false)
    (herrors : ∀ part, ∀ e ∈ q.part part, ∀ g ∈ e.formula.nodes, g.isError = false) :
    q.split = .ok ⟨[q]⟩ := by
  have hq : q.containsFork = false := by
    refine List.any_eq_false.mpr fun part _ => ?_
    rw [Bool.not_eq_true, List.any_eq_false]
    exact fun e he => Bool.not_eq_true _ ▸ hforks part e he
  have hrounds : Split.rounds Split.maxRounds .start [q] = .ok [q] := by
    rw [Split.rounds, List.takeWhile_cons_of_pos (by rw [hq]; rfl)]
    rfl
  have hnone : ([q].flatMap fun q => q.entries.flatMap fun e => e.2.formula.errors) = [] := by
    rw [List.flatMap_singleton, List.flatMap_eq_nil_iff]
    exact Query.forall_entries (P := fun f => f.errors = []) fun part e he =>
      errors_eq_nil (herrors part e he)
  rw [Query.split, hrounds]
  change (if List.isEmpty _ = true then _ else _) = _
  rw [hnone]
  rfl

/-! ## The whole preparation -/

/-- The filters that hold are dropped, and the rest of the query stays. -/
def Pipeline.isKept (part : Part) (e : Entry) : Bool :=
  part != .filters || !Simplify.isTrue e.formula

theorem nullifyTotals_part (htype : p.type = .totals) :
    ∃ q', (Pipeline.dropTrueFilters p >>= Pipeline.nullifyTotals) = .ok q' ∧ ∀ part,
      q'.part part =
        ((p.part part).filter (Pipeline.isKept part)).map (Entry.inTotals p.dimensions) := by
  have hdims : { p with
      filters := p.filters.filter fun e => !Simplify.isTrue e.formula }.dimensions =
      p.dimensions := rfl
  rw [Pipeline.dropTrueFilters]
  change ∃ q', Pipeline.nullifyTotals _ = _ ∧ _
  rw [Pipeline.nullifyTotals, if_pos (beq_iff_eq.mpr htype), hdims]
  refine ⟨_, rfl, fun part => ?_⟩
  rw [Query.part_mapFormulas]
  refine congrArg₂ List.map (funext (mapEntry_inTotals p.dimensions)) ?_
  cases part with
  | filters => rfl
  | _ => exact (List.filter_eq_self.mpr fun _ _ => rfl).symm

/-- A query for totals that has no forks to begin with has none in the end, whatever the default
ordering is. -/
theorem Query.process_totals (htype : q.type = .totals)
    (hq : ∀ part, ∀ e ∈ q.part part, e.formula.Forkless) (s : Settings) (ordering : List Formula) :
    ∃ p q', (Pipeline.prepare ordering q >>= Pipeline.optimize s) = .ok p ∧
      q.process s ordering = .ok q' ∧
      (∀ part, q'.part part =
        ((p.part part).filter (Pipeline.isKept part)).map (Entry.inTotals p.dimensions)) ∧
      (∀ part, ∀ e ∈ q'.part part, e.formula.SelfContained) ∧
      ((∀ part, ∀ e ∈ q'.part part, ∀ g ∈ e.formula.nodes, g.isError = false) →
        q'.split = .ok ⟨[q']⟩) := by
  obtain ⟨p, hp, hptype, hsheltered⟩ := exists_optimize hq s ordering
  obtain ⟨q', hq', hparts⟩ := nullifyTotals_part (hptype.trans htype)
  have hcontained : ∀ part, ∀ e ∈ q'.part part, e.formula.SelfContained := by
    intro part e he
    rw [hparts part] at he
    obtain ⟨e₀, he₀, rfl⟩ := List.mem_map.mp he
    exact selfContained_inTotals (hsheltered part e₀ (List.mem_filter.mp he₀).1)
  have hsimplified : q.simplified s ordering = .ok q' := by
    obtain ⟨q₁, hprepare, hoptimize⟩ := bind_eq_ok.mp hp
    obtain ⟨p', hdrop, hnullify⟩ := bind_eq_ok.mp hq'
    rw [Query.simplified, Pipeline.simplifying]
    simp only [List.foldlM_cons, List.foldlM_nil, hprepare, hoptimize, dropConstantGroups_eq_self,
      hdrop, hnullify, bind, Except.bind]
    rfl
  refine ⟨p, q', hp, ?_, hparts, hcontained, fun herrors => ?_⟩
  · rw [Query.process_eq]
    simp only [hsimplified, makeForks_selfContained hcontained,
      normalizeFilters_selfContained hcontained, tagLevels_selfContained hcontained, bind,
      Except.bind]
  · exact Query.split_eq_self (fun part e he => (hcontained part e he).fork) herrors

/-- All sales, the sales of the best city and the rank of the sales, in a row of totals. -/
def salesTotals : Query :=
  let sales (lod : Lod Formula) : Formula := .callWith "sum" [.field "sales"] lod NameSet.empty
  { Query.empty "q" with
    select := [Entry.of (sales .inherited),
      Entry.of (.call "max" [sales (.including [.field "city"])]),
      Entry.of (.window "rank" [sales .inherited] .total [] NameSet.empty)]
    filters := [Entry.of (.bool true)]
    sources := [.table "t" "t" "orders"]
    type := .totals }

/-- The rank is ordered by a fork, which goes away with it. -/
theorem process_totals_salesTotals :
    salesTotals.type = .totals ∧
    (∀ part ∈ Part.all, ∀ e ∈ salesTotals.part part, e.formula.Forkless) ∧
    ∃ q', salesTotals.process .default [.fork .left (.field "sales") [] .inherited] = .ok q' ∧
      (q'.select.map Entry.formula ==
        [.call "sum" [.field "sales"], .lit .null, .lit .null]) = true ∧
      q'.filters = [] ∧ q'.split = .ok ⟨[q']⟩ := by
  have hforkless : ∀ part ∈ Part.all, ∀ e ∈ salesTotals.part part, e.formula.Forkless := by
    decide +kernel
  obtain ⟨p, q', hp, hq', hparts, -, hsplit⟩ := Query.process_totals (q := salesTotals) rfl
    (fun part e he => hforkless part (Part.mem_all part) e he) .default
    [.fork .left (.field "sales") [] .inherited]
  have hok : ((salesTotals.process .default
      [.fork .left (.field "sales") [] .inherited]).toOption.any fun q' =>
        q'.select.map Entry.formula == [.call "sum" [.field "sales"], .lit .null, .lit .null] &&
        q'.filters.isEmpty && !q'.anyFormula fun f => f.any Formula.isError) = true := by
    decide +kernel
  rw [hq'] at hok
  simp only [Except.toOption, Option.any_some, Bool.and_eq_true, Bool.not_eq_true',
    List.isEmpty_iff] at hok
  obtain ⟨⟨hselect, hfilters⟩, herrors⟩ := hok
  refine ⟨rfl, hforkless, q', hq', hselect, hfilters, hsplit fun part e he g hg => ?_⟩
  have hnone := anyFormula_eq_false herrors part he
  exact Bool.not_eq_true _ ▸ List.any_eq_false.mp hnone g hg

end Totals

end FormulaSql
