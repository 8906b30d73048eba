import FormulaSql.Proofs.Query.Grouping
import FormulaSql.Statement.Build

/-!
# States of formulas under more dimensions, and as filters

A formula that is a dimension has a state of its own, whatever it is made of. With more dimensions
more parts of a formula get that state, and the states of the nodes above follow. Inside an
aggregation a state can then change in any way, but nothing outside depends on it.

* `Formula.groupState_mono`: with more dimensions a formula is still accepted, in the same state or
  in that of a dimension
* `Formula.groupState_aggregated_iff`: the checker takes a filter for an aggregation exactly if it
  is put into HAVING
-/

namespace FormulaSql

namespace GroupState

variable {states states' : List GroupState} {s s' : GroupState}

/-- Only constants together are constant. -/
theorem constant_of_combine (h : combine states = some s) :
    s = constant ↔ ∀ t ∈ states, t = constant := by
  obtain ⟨haggregated, hunaggregated⟩ := of_combine h
  constructor
  · rintro rfl t ht
    cases t with
    | constant => rfl
    | aggregated => exact absurd (haggregated.mpr ht) (by decide)
    | unaggregated => exact absurd (hunaggregated.mpr ht) (by decide)
    | dimension =>
        have ha : aggregated ∉ states := fun ha => absurd (haggregated.mpr ha) (by decide)
        have hu : unaggregated ∉ states := fun hu => absurd (hunaggregated.mpr hu) (by decide)
        simp [combine, ha, hu, ht] at h
  · intro hall
    have hnot {t : GroupState} (ht : t ≠ constant) : t ∉ states := fun hmem => ht (hall t hmem)
    have ha : aggregated ∉ states := hnot (by decide)
    have hu : unaggregated ∉ states := hnot (by decide)
    have hd : dimension ∉ states := hnot (by decide)
    simpa [combine, ha, hu, hd, eq_comm] using h

/-- The state has stayed, or it has become that of a dimension. -/
def Yields (s s' : GroupState) : Prop := s' = s ∨ s' = dimension

theorem mem_of_yields (h : List.Forall₂ Yields states states') (hs : s ∈ states')
    (hne : s ≠ dimension) : s ∈ states := by
  obtain ⟨t, ht, hyields⟩ := forall₂_exists_left h hs
  rcases hyields with rfl | hdim
  · exact ht
  · exact absurd hdim hne

/-- An expression does not stop being consistent when parts of it become dimensions. -/
theorem combine_yields (h : List.Forall₂ Yields states states') (hs : combine states = some s) :
    ∃ s', combine states' = some s' ∧ s.Yields s' := by
  cases hs' : combine states' with
  | none =>
      obtain ⟨ha, hu⟩ := combine_eq_none_iff.mp hs'
      have hnone : combine states = none := combine_eq_none_iff.mpr
        ⟨mem_of_yields h ha (by decide), mem_of_yields h hu (by decide)⟩
      exact absurd (hs.symm.trans hnone) (by simp)
  | some s' =>
      refine ⟨s', rfl, ?_⟩
      obtain ⟨haggregated, hunaggregated⟩ := of_combine hs
      obtain ⟨haggregated', hunaggregated'⟩ := of_combine hs'
      cases s' with
      | aggregated =>
          exact Or.inl (haggregated.mpr (mem_of_yields h (haggregated'.mp rfl) (by decide))).symm
      | unaggregated =>
          exact Or.inl
            (hunaggregated.mpr (mem_of_yields h (hunaggregated'.mp rfl) (by decide))).symm
      | dimension => exact Or.inr rfl
      | constant =>
          refine Or.inl ((constant_of_combine hs).mpr fun t ht => ?_).symm
          obtain ⟨t', ht', hyields⟩ := forall₂_exists_right h ht
          have hconstant := (constant_of_combine hs').mp rfl t' ht'
          rcases hyields with rfl | hdim
          · exact hconstant
          · rw [hdim] at hconstant
            exact absurd hconstant (by decide)

end GroupState

namespace Formula

variable {dims dims' : List Formula} {f g : Formula} {nested inside : Bool} {s : GroupState}

/-! ## What is accepted -/

theorem stateIn_window_eq_ok (h : dims.contains f = false) (hf : f.isWindowCall = true) :
    f.stateIn dims nested inside = .ok s ↔
      (∃ states, f.autonomous.mapM (stateIn dims nested · inside) = .ok states) ∧
        s = .aggregated := by
  rw [stateIn_window h hf, bind_eq_ok]
  constructor
  · rintro ⟨states, hstates, hs⟩
    exact ⟨⟨states, hstates⟩, (Except.ok.inj hs).symm⟩
  · rintro ⟨⟨states, hstates⟩, rfl⟩
    exact ⟨states, hstates, rfl⟩

theorem stateIn_aggregate_eq_ok (h : dims.contains f = false) (hf : f.isAggregateCall = true) :
    f.stateIn dims nested inside = .ok s ↔ (inside = true → nested = true) ∧
      (∃ states, f.autonomous.mapM (stateIn dims nested · true) = .ok states) ∧
        s = .aggregated := by
  rw [stateIn_aggregate h hf]
  by_cases hrefused : (inside && !nested) = true
  · rw [if_pos hrefused]
    simp only [Bool.and_eq_true, Bool.not_eq_true'] at hrefused
    simp [hrefused]
  · rw [if_neg hrefused, bind_eq_ok]
    have hallowed : inside = true → nested = true := by
      rintro rfl
      simpa using hrefused
    constructor
    · rintro ⟨states, hstates, hs⟩
      exact ⟨hallowed, ⟨states, hstates⟩, (Except.ok.inj hs).symm⟩
    · rintro ⟨-, ⟨states, hstates⟩, rfl⟩
      exact ⟨states, hstates, rfl⟩

/-- Parts that do not go together do no harm inside of an aggregation. -/
theorem stateIn_node_eq_ok (h : dims.contains f = false) (hf : f.gathers = false)
    (hfield : f.field? = none) :
    f.stateIn dims nested inside = .ok s ↔
      ∃ states, f.autonomous.mapM (stateIn dims nested · inside) = .ok states ∧
        (GroupState.combine states = some s ∨
          GroupState.combine states = none ∧ inside = true ∧ s = .aggregated) := by
  rw [stateIn_node h hf hfield, bind_eq_ok]
  refine exists_congr fun states => and_congr_right fun _ => ?_
  cases GroupState.combine states with
  | some t => simp
  | none => cases inside <;> simp [eq_comm]

/-! ## More dimensions -/

/-- With more dimensions, what was accepted is accepted. Outside of aggregations it keeps its state
or has become a dimension. -/
theorem stateIn_mono (hdims : ∀ g, dims.contains g = true → dims'.contains g = true)
    (h : f.stateIn dims nested inside = .ok s) :
    ∃ s', f.stateIn dims' nested inside = .ok s' ∧ (inside = false → s.Yields s') := by
  induction f using induction_children generalizing inside s with
  | step f ih =>
      have hbelow (i : Bool) : ∀ c ∈ f.autonomous, ∀ t, c.stateIn dims nested i = .ok t →
          ∃ t', c.stateIn dims' nested i = .ok t' ∧ (i = false → t.Yields t') :=
        fun c hc _ ht => ih c (mem_children_of_autonomous hc) ht
      cases hdim' : dims'.contains f with
      | true => exact ⟨.dimension, stateIn_dimension hdim', fun _ => Or.inr rfl⟩
      | false =>
          have hdim : dims.contains f = false := by
            rw [← Bool.not_eq_true]
            intro hdim
            rw [hdims f hdim] at hdim'
            cases hdim'
          cases f.standing with
          | field hfield =>
              rw [stateIn_field hdim hfield] at h
              exact ⟨_, stateIn_field hdim' hfield, fun _ => Or.inl (Except.ok.inj h)⟩
          | fork hfork =>
              rw [stateIn_fork hdim hfork] at h
              exact ⟨_, stateIn_fork hdim' hfork, fun _ => Or.inl (Except.ok.inj h)⟩
          | window hwindow =>
              obtain ⟨⟨states, hstates⟩, rfl⟩ := (stateIn_window_eq_ok hdim hwindow).mp h
              obtain ⟨states', hstates', -⟩ := exists_mapM_of_forall (hbelow inside) hstates
              exact ⟨.aggregated, (stateIn_window_eq_ok hdim' hwindow).mpr
                ⟨⟨states', hstates'⟩, rfl⟩, fun _ => Or.inl rfl⟩
          | aggregate haggregate =>
              obtain ⟨hallowed, ⟨states, hstates⟩, rfl⟩ :=
                (stateIn_aggregate_eq_ok hdim haggregate).mp h
              obtain ⟨states', hstates', -⟩ := exists_mapM_of_forall (hbelow true) hstates
              exact ⟨.aggregated, (stateIn_aggregate_eq_ok hdim' haggregate).mpr
                ⟨hallowed, ⟨states', hstates'⟩, rfl⟩, fun _ => Or.inl rfl⟩
          | node hgathers hfield =>
              obtain ⟨states, hstates, hs⟩ := (stateIn_node_eq_ok hdim hgathers hfield).mp h
              obtain ⟨states', hstates', hrelated⟩ := exists_mapM_of_forall (hbelow inside) hstates
              have hok (t : GroupState) (ht : GroupState.combine states' = some t ∨
                  GroupState.combine states' = none ∧ inside = true ∧ t = .aggregated) :
                  f.stateIn dims' nested inside = .ok t :=
                (stateIn_node_eq_ok hdim' hgathers hfield).mpr ⟨states', hstates', ht⟩
              cases inside with
              | true =>
                  cases hcombine : GroupState.combine states' with
                  | some t => exact ⟨t, hok t (Or.inl hcombine), nofun⟩
                  | none => exact ⟨.aggregated, hok _ (Or.inr ⟨hcombine, rfl, rfl⟩), nofun⟩
              | false =>
                  have hcombine : GroupState.combine states = some s := hs.resolve_right (by simp)
                  obtain ⟨s', hs', hyields⟩ :=
                    GroupState.combine_yields (hrelated.imp fun _ _ h => h rfl) hcombine
                  exact ⟨s', hok s' (Or.inl hs'), fun _ => hyields⟩

/-- Under more dimensions, the checker accepts what it accepted. The state stays the same, unless
the formula has become a dimension or is made of dimensions only. -/
theorem groupState_mono (hdims : ∀ d ∈ dims, dims'.contains d = true)
    (h : f.groupState dims nested = .ok s) :
    f.groupState dims' nested = .ok s ∨ f.groupState dims' nested = .ok .dimension := by
  have hcontains (g : Formula) (hg : dims.contains g = true) : dims'.contains g = true := by
    obtain ⟨d, hd, hgd⟩ := contains_eq_true.mp hg
    rw [contains_eq_of_same hgd]
    exact hdims d hd
  rw [groupState_eq_stateIn] at h ⊢
  obtain ⟨s', hs', hyields⟩ := stateIn_mono hcontains h
  rcases hyields rfl with rfl | rfl
  · exact Or.inl hs'
  · exact Or.inr hs'

/-- The number of sales over the best of sums and prices. -/
def countOverBest : Formula :=
  binary "/" (call "count" [field "sales"])
    (call "max" [binary "+" (call "sum" [field "sales"]) (field "price")])

/-- When the inner sum becomes a dimension, only prices are left beside it. The whole stays an
aggregation. -/
theorem groupState_mono_countOverBest :
    (∀ d ∈ [field "city"], [call "sum" [field "sales"], field "city"].contains d = true) ∧
      countOverBest.groupState [field "city"] true = .ok .aggregated ∧
        (countOverBest.groupState [call "sum" [field "sales"], field "city"] true =
            .ok .aggregated ∨
          countOverBest.groupState [call "sum" [field "sales"], field "city"] true =
            .ok .dimension) := by
  have hdims : ∀ d ∈ [field "city"],
      [call "sum" [field "sales"], field "city"].contains d = true := by decide +kernel
  have hstate : countOverBest.groupState [field "city"] true = .ok .aggregated := by
    decide +kernel
  exact ⟨hdims, hstate, groupState_mono hdims hstate⟩

/-! ## Filters on groups -/

theorem isAggregateExpression_of_same (h : (f == g) = true)
    (hf : f.isAggregateExpression = false) : g.isAggregateExpression = false :=
  perRow_nil_iff.mp ((perRow_nil_iff.mpr hf).of_same h)

/-- Where no dimension has an aggregation in it, the checker finds one exactly where one is. -/
theorem stateIn_aggregated_iff (hdims : ∀ d ∈ dims, d.isAggregateExpression = false)
    (h : f.stateIn dims nested false = .ok s) :
    s = .aggregated ↔ f.isAggregateExpression = true := by
  induction f using induction_children generalizing s with
  | step f ih =>
      cases hdim : dims.contains f with
      | true =>
          rw [stateIn_dimension hdim] at h
          obtain rfl := Except.ok.inj h
          obtain ⟨d, hd, hfd⟩ := contains_eq_true.mp hdim
          rw [isAggregateExpression_of_same (BEq.symm hfd) (hdims d hd)]
          decide
      | false =>
          have hgathered (hgathers : f.gathers = true) : f.isAggregateExpression = true :=
            isAggregateExpression_iff.mpr (Or.inl hgathers)
          cases f.standing with
          | field hfield hgathers =>
              rw [stateIn_field hdim hfield] at h
              obtain rfl := Except.ok.inj h
              rw [isAggregateExpression_iff, hgathers, autonomous_of_field? hfield]
              simp
          | fork hfork hgathers =>
              rw [stateIn_fork hdim hfork] at h
              exact iff_of_true (Except.ok.inj h).symm (hgathered hgathers)
          | window hwindow hgathers =>
              exact iff_of_true ((stateIn_window_eq_ok hdim hwindow).mp h).2 (hgathered hgathers)
          | aggregate haggregate hgathers =>
              exact iff_of_true ((stateIn_aggregate_eq_ok hdim haggregate).mp h).2.2
                (hgathered hgathers)
          | node hgathers hfield =>
              obtain ⟨states, hstates, hs⟩ := (stateIn_node_eq_ok hdim hgathers hfield).mp h
              have hcombine : GroupState.combine states = some s := hs.resolve_right (by simp)
              have hall := mapM_eq_ok hstates
              rw [(GroupState.of_combine hcombine).1, isAggregateExpression_iff, hgathers]
              constructor
              · intro hmem
                obtain ⟨c, hc, hstate⟩ := forall₂_exists_left hall hmem
                exact Or.inr ⟨c, hc, (ih c (mem_children_of_autonomous hc) hstate).mp rfl⟩
              · rintro (hgathers | ⟨c, hc, haggregate⟩)
                · cases hgathers
                · obtain ⟨t, ht, hstate⟩ := forall₂_exists_right hall hc
                  obtain rfl := (ih c (mem_children_of_autonomous hc) hstate).mpr haggregate
                  exact ht

/-- Where no dimension has an aggregation in it, an accepted formula has the state of aggregations
exactly if it is taken for one elsewhere. So a filter is put into HAVING exactly if the checker
takes it for an aggregation. -/
theorem groupState_aggregated_iff (hdims : ∀ d ∈ dims, d.isAggregateExpression = false)
    (h : f.groupState dims nested = .ok s) :
    (s = .aggregated ↔ f.isAggregateExpression = true) ∧
      ∀ (lower : Statement.Lower) (e : Entry) (x : Sql) (onGroups : Bool), e.formula = f →
        Statement.filterItem lower e = .ok (x, onGroups) → (onGroups = true ↔ s = .aggregated) := by
  have hiff : s = .aggregated ↔ f.isAggregateExpression = true :=
    stateIn_aggregated_iff hdims ((groupState_eq_stateIn f dims nested).symm.trans h)
  refine ⟨hiff, ?_⟩
  rintro lower e x onGroups rfl hitem
  obtain ⟨a, -, ha⟩ := bind_eq_ok.mp hitem
  obtain ⟨-, rfl⟩ := Prod.mk.inj (Except.ok.inj ha)
  exact hiff.symm

/-- The city with its sales, as a filter. -/
def busyCity : Formula :=
  binary "and" (binary ">" (call "sum" [field "sales"]) (int 100))
    (binary "!=" (field "city") (lit .null))

theorem groupState_aggregated_iff_busyCity :
    (∀ d ∈ [field "city"], d.isAggregateExpression = false) ∧
      busyCity.groupState [field "city"] false = .ok .aggregated ∧
        (GroupState.aggregated = .aggregated ↔ busyCity.isAggregateExpression = true) ∧
          ∀ x onGroups, Statement.filterItem (fun f => .ok ⟨.raw f.text, .plain .boolean, .none⟩)
              (Entry.of busyCity) = .ok (x, onGroups) →
            (onGroups = true ↔ GroupState.aggregated = .aggregated) := by
  have hdims : ∀ d ∈ [field "city"], d.isAggregateExpression = false := by decide +kernel
  have hstate : busyCity.groupState [field "city"] false = .ok .aggregated := by decide +kernel
  obtain ⟨hiff, hroutes⟩ := groupState_aggregated_iff hdims hstate
  exact ⟨hdims, hstate, hiff, fun x onGroups => hroutes _ _ x onGroups rfl⟩

end Formula

end FormulaSql
