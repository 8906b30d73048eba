import FormulaSql.Proofs.Query.Stability

/-!
# Formulas that give no cause for forks

Forks are made of aggregations, lookups and window calls. A formula without any of them, and without
forks, is inert: the rules that prepare formulas, make forks, move filters and tag window calls all
leave it alone. Dimensions are mostly so.
-/

namespace FormulaSql

/-- Neither an aggregation nor a lookup nor a window call. -/
def Head.Plain : Head → Prop
  | call n => Function.isAggregate n = false ∧ Normalize.LookupKind.ofName? n = none
  | window _ => False
  | other => True

instance : DecidablePred Head.Plain
  | .call n => inferInstanceAs (Decidable
      (Function.isAggregate n = false ∧ Normalize.LookupKind.ofName? n = none))
  | .window _ => inferInstanceAs (Decidable False)
  | .other => inferInstanceAs (Decidable True)

theorem Head.mild_plain : Mild Plain := ⟨trivial, by simp only [Plain]; decide +kernel⟩

/-- All names that lookups are called by are in the catalogue. -/
theorem Function.isLookup_of_ofName? {n : String} {kind : Normalize.LookupKind}
    (h : Normalize.LookupKind.ofName? n = some kind) : Function.isLookup n = true := by
  have hall : ∀ m ∈ ["ago", "at_date"],
      ∃ d ∈ catalogue, d.name = m ∧ d.isWindow = false ∧ d.isLookup = true := by
    decide
  have hname : n.toLower ∈ ["ago", "at_date"] := by
    unfold Normalize.LookupKind.ofName? at h
    split at h
    next heq => simp [heq]
    next heq => simp [heq]
    next => exact absurd h (by simp)
  obtain ⟨d, hd, hname, hwindow, hlookup⟩ := hall n.toLower hname
  exact List.any_eq_true.mpr ⟨d, Function.mem_definitions.mpr ⟨hd, hname, hwindow⟩, hlookup⟩

namespace Formula

/-- Nothing in the formula is aggregated, looked up, computed over a window or forked. -/
structure Inert (f : Formula) : Prop where
  calls : f.Calls Head.Plain
  forkless : f.Forkless

instance (f : Formula) : Decidable f.Inert :=
  decidable_of_iff (f.Calls Head.Plain ∧ f.Forkless)
    ⟨fun h => ⟨h.1, h.2⟩, fun h => ⟨h.calls, h.forkless⟩⟩

section Inert

variable {f g c : Formula}

theorem Inert.of_child (h : f.Inert) (hc : c ∈ f.children) : c.Inert :=
  ⟨All.of_child h.calls hc, All.of_child h.forkless hc⟩

theorem Inert.of_same (hsame : (f == g) = true) (h : f.Inert) : g.Inert := by
  refine ⟨h.calls.of_same hsame, fun y hy => ?_⟩
  obtain ⟨x, hx, hxy⟩ := exists_node_of_same (same_symm hsame) hy
  exact (isFork_eq_of_same hxy).trans (h.forkless x hx)

theorem Inert.window?_eq_none (h : f.Inert) : f.window? = none := by
  have hhead := h.calls.head
  rw [window?]
  cases hk : f.kind with
  | window w =>
      rw [hk] at hhead
      exact absurd hhead id
  | _ => rfl

theorem Inert.lookup?_eq_none (h : f.Inert) : Normalize.lookup? f = none := by
  have hhead := h.calls.head
  rw [Normalize.lookup?, call?]
  cases hk : f.kind with
  | call c =>
      rw [hk] at hhead
      simp [hhead.2]
  | _ => rfl

theorem Inert.unaggregated (h : f.Inert) : f.Unaggregated := by
  intro g hg
  have hhead := Calls.head (All.of_node h.calls hg)
  rw [isAggregateCall, call?]
  cases hk : g.kind with
  | call c =>
      rw [hk] at hhead
      exact hhead.1
  | _ => rfl

theorem inert_of_plain (haggregate : f.Unaggregated) (hlookup : f.containsLookup = false)
    (hwindow : f.containsWindow = false) (hforkless : f.Forkless) : f.Inert := by
  refine ⟨fun g hg => ?_, hforkless⟩
  have hnot : g.isAggregateCall = false := haggregate g hg
  have hno : g.isLookupCall = false := by
    simpa using List.any_eq_false.mp hlookup g hg
  have hnone : g.isWindowCall = false := by
    simpa using List.any_eq_false.mp hwindow g hg
  show Head.Plain g.kind.head
  cases hk : g.kind with
  | call c =>
      rw [isAggregateCall_of_kind hk] at hnot
      refine ⟨hnot, Option.eq_none_iff_forall_ne_some.mpr fun kind hkind => ?_⟩
      rw [isLookupCall, call?, hk] at hno
      exact absurd (Function.isLookup_of_ofName? hkind) (by simp [hno])
  | window w =>
      rw [isWindowCall, window?, hk] at hnone
      exact absurd hnone (by simp)
  | _ => trivial

end Inert

end Formula

/-- The rule offers nothing for inert formulas. -/
def Rule.SparesInert (rule : Rule) : Prop := ∀ above f, Formula.Inert f → rule above f = none

section Spares

variable {dims : List Formula}

theorem sparesInert_of_window {rule : Rule}
    (h : ∀ above f, f.window? = none → rule above f = none) : rule.SparesInert :=
  fun above f hf => h above f hf.window?_eq_none

theorem sparesInert_windowForks : Rule.SparesInert (Normalize.windowForks dims) :=
  sparesInert_of_window fun _ _ h => by rw [Normalize.windowForks, h]; rfl

theorem sparesInert_levelTags : Rule.SparesInert Normalize.levelTags :=
  sparesInert_of_window fun _ _ h => by rw [Normalize.levelTags, h]; rfl

theorem sparesInert_lookups {allowEmpty : Bool} :
    Rule.SparesInert (Normalize.lookups dims allowEmpty) :=
  fun _ _ hf => by rw [Normalize.lookups, hf.lookup?_eq_none]; rfl

theorem sparesInert_laterFilters (available : NameSet) :
    Rule.SparesInert (Normalize.laterFilters available) := by
  intro above f hf
  apply Option.eq_none_iff_forall_ne_some.mpr
  intro r hr
  rcases Normalize.laterFilters_cases hr with ⟨w, filters, hk, -⟩ | ⟨q, filters, hk, -⟩
  · have hwindow := hf.window?_eq_none
    rw [Formula.window?, hk] at hwindow
    exact absurd hwindow (by simp)
  · have hfork := hf.forkless.fork?_eq_none (Formula.self_mem_nodes f)
    rw [Formula.fork?, hk] at hfork
    exact absurd hfork (by simp)

theorem sparesInert_levelOfDetail : Rule.SparesInert (Normalize.levelOfDetail dims) :=
  fun _ f hf => Normalize.levelOfDetail_none_of_not_aggregate
    (hf.unaggregated f (Formula.self_mem_nodes f))

/-- The first stage has nothing to do in inert formulas. -/
theorem sparesInert_prepare (dims ordering : List Formula) :
    ∀ rule ∈ [Normalize.defaultOrdering ordering, Normalize.lookupFilters,
      Normalize.amongToWithin dims, Normalize.dropExtraWithin dims], Rule.SparesInert rule := by
  simp only [List.forall_mem_cons]
  refine ⟨?_, ?_, ?_, ?_, fun _ h => absurd h List.not_mem_nil⟩
  · exact sparesInert_of_window fun _ _ h => by rw [Normalize.defaultOrdering, h]; rfl
  · exact fun _ _ hf => by rw [Normalize.lookupFilters, hf.lookup?_eq_none]; rfl
  · exact sparesInert_of_window fun _ _ h => by rw [Normalize.amongToWithin, h]; rfl
  · exact sparesInert_of_window fun _ _ h => by rw [Normalize.dropExtraWithin, h]; rfl

end Spares

namespace Formula

theorem Inert.rests {rule : Rule} {f : Formula} (h : f.Inert) (hrule : rule.SparesInert)
    (above : List Formula) : f.Rests rule above := by
  induction f using induction_children generalizing above with
  | step f ih =>
      exact throughout_iff.mpr ⟨hrule above f h, fun c hc => ih c hc (h.of_child hc) _⟩

end Formula

end FormulaSql
