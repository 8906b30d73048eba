import FormulaSql.Proofs.Function.Dispatch
import FormulaSql.Proofs.Query.Orderings
import FormulaSql.Proofs.Query.Simplification
import FormulaSql.Proofs.Query.WindowCalls

/-!
# Formulas at rest

A formula is at rest if the rules that come before forks are made have nothing to offer for it. It
stays at rest while forks are made, filters are moved and window calls are tagged, as long as there
is no window call inside an aggregation.

* `Formula.AtRest.transform` and `Formula.AtRest.levelOfDetail` say so for each of the rules
-/

namespace FormulaSql

namespace Formula

/-! ## Nodes at rest -/

/-- The rules have nothing to offer for the node. -/
structure Quiet (rules : List Rule) (dims : List Formula) (g : Formula) : Prop where
  simple : ∀ rule ∈ rules, rule [] g = none
  within : Normalize.dropExtraWithin dims [] g = none
  /-- There is no window call inside an aggregation. -/
  outside : g.isAggregateCall = true → g.Calls Head.NoWindow

section Quiet

variable {K : Formula → Prop} {rules : List Rule} {dims ordering : List Formula} {levels : Prop}
  {f : Formula} {cs : List Formula}

theorem quiet_of_window?_eq_none (hrules : ∀ rule ∈ rules, rule [] f = none)
    (hwindow : f.window? = none) (haggregate : f.isAggregateCall = false) :
    Quiet rules dims f where
  simple := hrules
  within := by rw [Normalize.dropExtraWithin, hwindow]; rfl
  outside h := absurd h (by simp [haggregate])

theorem lenient_quiet (hrules : ∀ rule ∈ rules, Lenient (fun g => rule [] g = none) levels) :
    Lenient (Quiet rules dims) levels where
  error f hf := by
    obtain ⟨message, code, hk⟩ := kind_of_isError hf
    exact quiet_of_window?_eq_none (fun rule hrule => (hrules rule hrule).error f hf)
      (by rw [window?, hk]) (not_isAggregateCall_of_call? (by rw [call?, hk]))
  fork q notes := quiet_of_window?_eq_none (fun rule hrule => (hrules rule hrule).fork q notes)
    rfl rfl
  paren e notes := quiet_of_window?_eq_none (fun rule hrule => (hrules rule hrule).paren e notes)
    rfl rfl
  shift name hname args := by
    have hshift : ∀ n ∈ ["dateadd", "day"], Function.isAggregate n = false := by decide +kernel
    exact quiet_of_window?_eq_none (fun rule hrule => (hrules rule hrule).shift name hname args)
      rfl ((isAggregateCall_of_kind rfl).trans (hshift name hname))
  filters w notes filters h := by
    refine ⟨fun rule hrule => (hrules rule hrule).filters w notes filters (h.simple rule hrule), ?_,
      fun haggregate => absurd haggregate Bool.false_ne_true⟩
    have hwithin := h.within
    rw [dropExtraWithin_eq_none rfl] at hwithin ⊢
    exact hwithin
  level hlevels c notes h := by
    refine ⟨fun rule hrule => (hrules rule hrule).level hlevels c notes (h.simple rule hrule), rfl,
      fun haggregate => ?_⟩
    have hcalls : (mk (.call c) notes).Calls Head.NoWindow := h.outside haggregate
    exact all_iff.mpr ⟨trivial, fun x hx =>
      hcalls.of_child (Normalize.mem_children_of_inherited rfl hx)⟩

theorem quiet_withChildren (hrules : ∀ rule ∈ rules, Sees operandView rule)
    (hdims : ∀ d ∈ dims, d.Flat) (flat : ∀ f : Formula, f.Flat → K f) (h : Quiet rules dims f)
    (hcs : List.Forall₂ (Kept K operandView) f.children cs) :
    Quiet rules dims (f.withChildren cs) where
  simple rule hrule := hrules rule hrule f cs (hcs.imp fun _ _ h => h.view) (h.simple rule hrule)
  within := dropExtraWithin_withChildren hdims
    (hcs.imp fun _ _ h hflat => h.steady (flat _ hflat)) h.within
  outside haggregate := by
    rw [isAggregateCall_eq_of_outline (outline_withChildren f cs)] at haggregate
    exact (h.outside haggregate).withChildren (hcs.imp fun _ _ h => h.windowless)

theorem lenient_ordered :
    Lenient (fun g => Normalize.defaultOrdering ordering [] g = none) levels where
  error f hf := by
    obtain ⟨message, code, hk⟩ := kind_of_isError hf
    rw [Normalize.defaultOrdering, window?, hk]
    rfl
  fork _ _ := rfl
  paren _ _ := rfl
  shift _ _ _ := rfl
  filters w notes filters h := by
    rw [defaultOrdering_eq_none rfl] at h ⊢
    exact h
  level _ _ _ _ := rfl

end Quiet

end Formula

/-- A rule that makes forks or changes something about window calls. -/
structure Rule.Forks (dims : List Formula) (rule : Rule) : Prop where
  keepsFlat : rule.KeepsFlat
  offers : ∀ P levels, Formula.Lenient P levels → (∀ d ∈ dims, d.Flat ∧ d.All P) →
    rule.Offers P levels
  ordinary : rule.PassesOver Formula.Ordinary

namespace Formula

section Forks

variable {dims : List Formula}

theorem forks_lookups (allowEmpty : Bool) (hdims : ∀ d ∈ dims, d.Flat) :
    Rule.Forks dims (Normalize.lookups dims allowEmpty) where
  keepsFlat := keepsFlat_lookups hdims
  offers _ _ := offers_lookups
  ordinary := ordinary_passesOver fun above f _ _ h => by
    rw [Normalize.lookups, h]
    rfl

theorem forks_windowForks (hdims : ∀ d ∈ dims, d.Flat) :
    Rule.Forks dims (Normalize.windowForks dims) where
  keepsFlat := keepsFlat_windowForks hdims
  offers _ _ _ := offers_windowForks
  ordinary := ordinary_passesOver fun above f h _ _ => by
    rw [Normalize.windowForks, h]
    rfl

theorem forks_laterFilters (available : NameSet) :
    Rule.Forks dims (Normalize.laterFilters available) where
  keepsFlat := keepsFlat_laterFilters available
  offers _ _ _ _ := offers_laterFilters available
  ordinary := ordinary_passesOver fun above f hwindow hfork _ => by
    have hnone : Normalize.laterFilters? f = none := by
      rw [window?] at hwindow
      rw [fork?] at hfork
      rw [Normalize.laterFilters?]
      cases hk : f.kind with
      | window w => rw [hk] at hwindow; exact absurd hwindow (by simp)
      | fork q => rw [hk] at hfork; exact absurd hfork (by simp)
      | _ => rfl
    rw [Normalize.laterFilters, hnone]
    rfl

theorem forks_levelTags : Rule.Forks dims Normalize.levelTags where
  keepsFlat := keepsFlat_levelTags
  offers _ _ _ _ := offers_levelTags
  ordinary := ordinary_passesOver fun above f h _ _ => by
    rw [Normalize.levelTags, h]
    rfl

end Forks

/-! ## Formulas at rest -/

/-- The rules that come before forks are made have nothing to offer for the formula, and there is no
window call inside an aggregation. -/
structure AtRest (rules : List Rule) (ordering dims : List Formula) (f : Formula) : Prop where
  regular : f.Regular
  quiet : f.All (Quiet rules dims)
  ordered : f.All fun g => Normalize.defaultOrdering ordering [] g = none

/-- The second formula is at rest like the first one. What is flat is the same, a literal is one
still, and there are no aggregations to be found that were not there before. -/
structure Stays (rules : List Rule) (ordering dims : List Formula) (f g : Formula) : Prop where
  atRest : g.AtRest rules ordering dims
  flat : f.Flat → g = f
  literal : g.literal? = f.literal?
  search : ∀ inside, g.extendedSearch true inside = true → f.extendedSearch true inside = true

section AtRest

variable {rules : List Rule} {ordering dims : List Formula} {rule : Rule} {f g h : Formula}

theorem Stays.refl (hf : f.AtRest rules ordering dims) : Stays rules ordering dims f f :=
  ⟨hf, fun _ => rfl, rfl, fun _ => id⟩

theorem Stays.trans (hfg : Stays rules ordering dims f g) (hgh : Stays rules ordering dims g h) :
    Stays rules ordering dims f h where
  atRest := hgh.atRest
  flat hf := by
    obtain rfl := hfg.flat hf
    exact hgh.flat hf
  literal := hgh.literal.trans hfg.literal
  search inside := hfg.search inside ∘ hgh.search inside

theorem quiet_of_flat (hf : f.Flat) (hall : f.All fun g => ∀ rule ∈ rules, rule [] g = none) :
    f.All (Quiet rules dims) := by
  intro g hg
  have hflat : g.Flat := hf.of_node hg
  exact quiet_of_window?_eq_none (hall g hg) (window?_eq_none_of_isRowwise hflat.rowwise)
    (hf.unaggregated g hg)

variable
  (hrules : ∀ rule ∈ rules, Sees operandView rule ∧ Lenient (fun g => rule [] g = none) True)
  (hordering : ∀ o ∈ ordering, (Normalize.orderKey o).Ordinary)
  (hdims : ∀ d ∈ dims, d.Flat ∧ d.All fun g => ∀ rule ∈ rules, rule [] g = none)

include hrules hdims

/-- A rule that passes over what is flat leaves quiet what is. -/
theorem kept_quiet {K : Formula → Prop} (hrule : rule.KeepsFlat)
    (hoffers : (∀ d ∈ dims, d.Flat ∧ d.All (Quiet rules dims)) →
      rule.Offers (Quiet rules dims) True)
    (hK : rule.PassesOver K) (hf : f.Regular) (hquiet : f.All (Quiet rules dims)) :
    Kept K operandView f (f.transform rule) ∧ (f.transform rule).All (Quiet rules dims) := by
  refine kept_transform hrule (hoffers fun d hd => ?_) (lenient_quiet fun rule hrule =>
    (hrules rule hrule).2) hK shown_operandView (fun f cs hf hcs => ?_) hf hquiet
  · exact ⟨(hdims d hd).1, quiet_of_flat (hdims d hd).1 (hdims d hd).2⟩
  · exact quiet_withChildren (fun rule hrule => (hrules rule hrule).1)
      (fun d hd => (hdims d hd).1) hK.flat hf hcs

include hordering

theorem AtRest.transform (hrule : rule.Forks dims) (h : f.AtRest rules ordering dims) :
    Stays rules ordering dims f (f.transform rule) := by
  obtain ⟨hkept, hquiet⟩ := kept_quiet hrules hdims hrule.keepsFlat
    (hrule.offers _ True (lenient_quiet fun rule hrule => (hrules rule hrule).2)) hrule.ordinary
    h.regular h.quiet
  have hordered := (kept_transform hrule.keepsFlat
    (hrule.offers _ True lenient_ordered fun d hd =>
      ⟨(hdims d hd).1, defaultOrdering_of_flat (hdims d hd).1⟩)
    lenient_ordered hrule.ordinary shown_operandView (fun f cs hf hcs => defaultOrdering_withChildren
      hordering (hcs.imp fun _ _ hcd _ => hcd.steady) hf) h.regular h.ordered).2
  exact ⟨⟨hkept.regular, hquiet, hordered⟩, fun hf => hkept.steady hf.ordinary,
    (Prod.mk.inj hkept.view).1, hkept.search⟩

theorem AtRest.levelOfDetail (h : f.AtRest rules ordering dims) :
    Stays rules ordering dims f (f.transform (Normalize.levelOfDetail dims)) := by
  have hflat : ∀ d ∈ dims, d.Flat := fun d hd => (hdims d hd).1
  have hrule := keepsFlat_levelOfDetail hflat
  obtain ⟨hkept, hquiet⟩ := kept_quiet hrules hdims hrule offers_levelOfDetail
    (flat_passesOver hrule) h.regular h.quiet
  have hordered := ordered_levelOfDetail hflat hordering h.regular
    (fun g hg => (h.quiet g hg).outside) h.ordered
  exact ⟨⟨hkept.regular, hquiet, hordered⟩, hkept.steady, (Prod.mk.inj hkept.view).1, hkept.search⟩

end AtRest

/-! ## Aggregations of aggregations -/

section Aggregations

variable {dims above above' : List Formula} {rule : Rule} {f r : Formula} {c : Call Formula}

theorem doubleAggregation_of_flat (hf : f.Flat) :
    f.All fun g => Simplify.doubleAggregation [] g = none := by
  intro g hg
  have hflat : g.Flat := hf.of_node hg
  cases hk : g.kind with
  | call c =>
      refine (doubleAggregation_eq_none hk).mpr fun x hx => ?_
      have hchild : x ∈ g.children := by
        rw [children, hk]
        simp [Kind.children, hx]
      rw [aggregationView_eq_none
        (hflat.unaggregated x (mem_nodes_of_child hchild (self_mem_nodes x)))]
      rfl
  | _ => rw [Simplify.doubleAggregation, call?, hk]; rfl

/-- Without a rule for levels of detail no aggregation comes to stand in another one. -/
theorem doubleAggregation_transform (hrule : rule.Forks dims) (hdims : ∀ d ∈ dims, d.Flat)
    (hf : f.Regular) (h : f.All fun g => Simplify.doubleAggregation [] g = none) :
    (f.transform rule).Regular ∧
      (f.transform rule).All fun g => Simplify.doubleAggregation [] g = none := by
  obtain ⟨hkept, hall⟩ := kept_transform hrule.keepsFlat
    (hrule.offers _ False lenient_doubleAggregation fun d hd =>
      ⟨hdims d hd, doubleAggregation_of_flat (hdims d hd)⟩)
    lenient_doubleAggregation hrule.ordinary shown_aggregationView
    (fun f cs hf hcs => sees_doubleAggregation f cs (hcs.imp fun _ _ h => h.view) hf) hf h
  exact ⟨hkept.regular, hall⟩

theorem isAggregate_of_collapsible {n : String}
    (h : Simplify.collapsible.contains n.toLower = true) : Function.isAggregate n = true := by
  have hall : ∀ m ∈ Simplify.collapsible, ∃ d ∈ catalogue,
      d.name = m ∧ d.isWindow = false ∧ d.isAggregate = true := by
    decide
  obtain ⟨d, hd, hname, hwindow, haggregate⟩ := hall n.toLower (List.contains_iff_mem.mp h)
  exact List.any_eq_true.mpr ⟨d, Function.mem_definitions.mpr ⟨hd, hname, hwindow⟩, haggregate⟩

/-- Where all aggregations are apart, there is none to fold. -/
theorem doubleAggregation_of_apart (h : f.Throughout Apart above) :
    f.All fun g => Simplify.doubleAggregation [] g = none := by
  induction f using induction_children generalizing above with
  | step f ih =>
      refine all_iff.mpr ⟨?_, fun c hc => ih c hc (h.of_child hc)⟩
      cases hk : f.kind with
      | call c =>
          refine (doubleAggregation_eq_none hk).mpr fun x hx => ?_
          have hchild : x ∈ f.children := by
            rw [children, hk]
            simp [Kind.children, hx]
          cases hname : Simplify.collapsible.contains c.name.toLower with
          | false => cases x.aggregationView <;> rfl
          | true =>
              have hx : x.isAggregateCall = false := by
                rw [← Bool.not_eq_true]
                intro haggregate
                obtain ⟨c', hk', hname'⟩ := exists_call_of_isAggregateCall haggregate
                have hapart := ((h.of_child hchild).root c' hk' hname').1
                rw [Normalize.insideAggregation_concat, isAggregateCall_of_kind hk,
                  isAggregate_of_collapsible hname, isFork, fork?, hk] at hapart
                exact absurd hapart (by simp)
              rw [aggregationView_eq_none hx]
              rfl
      | _ => rw [Simplify.doubleAggregation, call?, hk]; rfl

end Aggregations

end Formula

end FormulaSql
