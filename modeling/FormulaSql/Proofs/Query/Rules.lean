import FormulaSql.Proofs.Query.Offers

/-!
# Rules bring in no new fields

Every rule that prepares or simplifies formulas builds what it offers from the node it looks at, the
nodes above and the dimensions of the query. So whatever fields are allowed in these, a rule keeps a
formula within them.
-/

namespace FormulaSql

/-- From formulas within the allowed fields, the rule offers only such formulas. -/
def Rule.Keeps (S : String → Prop) (rule : Rule) : Prop :=
  ∀ above f r, (∀ a ∈ above, a.Within S) → f.Within S → rule above f = some r → r.Within S

section Nodes

variable {S : String → Prop} {f : Formula}

/-- A node that is no field is within the allowed fields if its children are. -/
theorem within_mk {k : Kind Formula} (notes : Notes) (hk : Formula.fieldName? k = none)
    (h : ∀ c ∈ k.children, c.Within S) : (Formula.mk k notes).Within S := by
  refine Formula.within_iff.mpr ⟨fun n hn => ?_, h⟩
  rw [Formula.field?_eq] at hn
  exact absurd (hk.symm.trans hn) (by simp)

theorem within_literal (v : Literal) (notes : Notes) :
    (Formula.mk (.literal v) notes).Within S :=
  within_mk notes rfl fun _ hc => absurd hc List.not_mem_nil

theorem within_of_isError (h : f.isError = true) : f.Within S := by
  obtain ⟨message, code, hk⟩ := Formula.kind_of_isError h
  rw [← Formula.mk_kind_notes f, hk]
  exact within_mk _ rfl fun _ hc => absurd hc List.not_mem_nil

theorem Formula.Within.of_kind {k : Kind Formula} (hf : f.Within S) (hk : f.kind = k) :
    ∀ c ∈ k.children, c.Within S := by
  subst hk
  exact fun c hc => hf.of_child hc

end Nodes

/-! ## Dimensions -/

section Dimensions

variable {dims : List Formula}

theorem within_lod? {S : String → Prop} {f : Formula} {lod : Lod Formula} (hf : f.Within S)
    (h : f.lod? = some lod) : ∀ d ∈ lod.dims, d.Within S := by
  rw [Formula.lod?] at h
  split at h
  next q hk =>
    obtain rfl := Option.some.inj h
    refine fun d hd => hf.of_kind hk d ?_
    simp [Kind.children, hd]
  next c hk =>
    split at h
    · obtain rfl := Option.some.inj h
      refine fun d hd => hf.of_kind hk d ?_
      simp [Kind.children, hd]
    · exact absurd h (by simp)
  next => exact absurd h (by simp)

theorem within_contextDimensions {S : String → Prop} {above : List Formula}
    (hdims : ∀ d ∈ dims, d.Within S) (habove : ∀ a ∈ above, a.Within S) :
    ∀ d ∈ Formula.contextDimensions dims above, d.Within S :=
  forall_contextDimensions hdims fun a ha _ hlod => within_lod? (habove a ha) hlod

end Dimensions

/-! ## Windows, filters and tags -/

section Normalize

variable {S : String → Prop} {dims : List Formula}

theorem Normalize.Rewindowed.within {given : List Formula} {f r : Formula}
    (h : Normalize.Rewindowed given f r) (hgiven : ∀ x ∈ given, x.Within S) (hf : f.Within S) :
    r.Within S := by
  obtain ⟨w, w', hw, rfl, -, hcs⟩ := h
  refine within_mk _ rfl fun c hc => ?_
  rcases hcs c hc with hc | hc
  · exact hf.of_kind (kind_of_window? hw) c hc
  · exact hgiven c hc

theorem keeps_defaultOrdering {ordering : List Formula} (h : ∀ o ∈ ordering, o.Within S) :
    Rule.Keeps S (Normalize.defaultOrdering ordering) :=
  fun _ _ _ _ hf hr => (Normalize.defaultOrdering_cases hr).within h hf

theorem keeps_amongToWithin (hdims : ∀ d ∈ dims, d.Within S) :
    Rule.Keeps S (Normalize.amongToWithin dims) :=
  fun _ _ _ _ hf hr => (Normalize.amongToWithin_cases hr).within hdims hf

theorem keeps_dropExtraWithin : Rule.Keeps S (Normalize.dropExtraWithin dims) :=
  fun _ _ _ _ hf hr =>
    (Normalize.dropExtraWithin_cases hr).within (fun _ h => absurd h List.not_mem_nil) hf

theorem keeps_laterFilters (available : NameSet) :
    Rule.Keeps S (Normalize.laterFilters available) := by
  intro above f r _ hf hr
  rcases Normalize.laterFilters_cases hr with ⟨w, filters, hk, rfl⟩ | ⟨q, filters, hk, rfl⟩
  · have hold := hf.of_kind hk
    exact within_mk _ rfl hold
  · have hold := hf.of_kind hk
    exact within_mk _ rfl hold

theorem keeps_levelTags : Rule.Keeps S Normalize.levelTags := by
  intro above f r _ hf hr
  obtain ⟨w, notes, -, rfl⟩ := Normalize.levelTags_cases hr
  exact within_mk _ rfl fun c hc => List.mem_singleton.mp hc ▸ hf

/-- A fork is within the allowed fields if its result and its dimensions are. -/
theorem within_forkAt {result : Formula} {shared own : List Formula} {filters : NameSet}
    (hresult : result.Within S) (hshared : ∀ d ∈ shared, d.Within S)
    (hown : ∀ d ∈ own, d.Within S) :
    (Formula.of (.fork (Normalize.forkAt result shared own filters))).Within S := by
  refine within_mk _ rfl fun c hc => ?_
  rw [Normalize.children_forkAt, List.mem_cons, List.mem_append] at hc
  rcases hc with rfl | hc | hc
  · exact hresult
  · exact hshared c hc
  · exact hown c hc

theorem keeps_windowForks (hdims : ∀ d ∈ dims, d.Within S) :
    Rule.Keeps S (Normalize.windowForks dims) := by
  intro above f r _ hf hr
  obtain ⟨w, -, rfl⟩ := Normalize.windowForks_cases hr
  exact within_forkAt hf hdims hdims

/-! ## Levels of detail -/

theorem keeps_levelOfDetail (hdims : ∀ d ∈ dims, d.Within S) :
    Rule.Keeps S (Normalize.levelOfDetail dims) := by
  intro above f r habove hf hr
  obtain ⟨c, hk, -, herror | rfl⟩ := Normalize.levelOfDetail_cases hr
  · exact within_of_isError herror
  · have hown : ∀ d ∈ c.lod.resolve (Formula.contextDimensions dims above), d.Within S :=
      forall_resolve (within_contextDimensions hdims habove) fun d hd =>
        hf.of_kind hk d (by simp [Kind.children, hd])
    refine within_forkAt (within_mk _ rfl fun x hx => ?_) ?_ hown
    · exact hf.of_child (Normalize.mem_children_of_inherited hk hx)
    · exact fun d hd => hown d (List.mem_filter.mp hd).1

/-! ## Lookups -/

theorem within_call {name : String} {args : List Formula} (h : ∀ x ∈ args, x.Within S) :
    (Formula.call name args).Within S := by
  refine within_mk _ rfl fun x hx => h x ?_
  simpa [Kind.children, Lod.dims] using hx

theorem keeps_lookups {allowEmpty : Bool} (hdims : ∀ d ∈ dims, d.Within S) :
    Rule.Keeps S (Normalize.lookups dims allowEmpty) := by
  intro above f r habove hf hr
  obtain ⟨c, kind, hlookup, herror | ⟨measure, dimension, rest, hargs, rfl⟩⟩ :=
    Normalize.lookups_cases hr
  · exact within_of_isError herror
  · have hparts : ∀ x ∈ measure :: dimension :: rest, x.Within S := by
      intro x hx
      refine hf.of_kind (Normalize.lookup?_eq_some hlookup) x ?_
      simp [Kind.children, hargs ▸ hx]
    simp only [List.forall_mem_cons] at hparts
    refine within_mk _ rfl fun x hx => ?_
    simp only [Kind.children, Lod.dims, List.append_nil, List.cons_append, List.mem_cons] at hx
    rcases hx with rfl | hx
    · exact hparts.1
    · exact Normalize.forall_sides_lookupFork (fun _ _ _ => within_call)
        (within_contextDimensions hdims habove) hparts.2.1 hparts.2.2 x hx

theorem keeps_lookupFilters : Rule.Keeps S Normalize.lookupFilters := by
  intro above f r _ hf hr
  obtain ⟨c, kind, hlookup, herror | ⟨filters, rfl⟩⟩ := Normalize.lookupFilters_cases hr
  · exact within_of_isError herror
  · have hold := hf.of_kind (Normalize.lookup?_eq_some hlookup)
    exact within_mk _ rfl hold

end Normalize

/-! ## Simplification -/

section Simplify

variable {S : String → Prop}

theorem Formula.Reduced.within {f r : Formula} (h : Reduced f r) (hf : f.Within S) :
    r.Within S := by
  cases h with
  | literal v notes => exact within_literal v notes
  | part hg => exact hf.of_node (mem_nodes_of_surface hg.mem_surface)
  | aggregation hk hg => exact hf.of_node (mem_nodes_of_surface (mem_surface_of_arg hk hg))
  | @operation k notes hk hcs =>
      refine within_mk notes ?_ fun c hc =>
        hf.of_node (mem_nodes_of_surface (hcs c hc).mem_surface)
      cases k with
      | binary | unary | ifBlock | caseBlock => rfl
      | _ => exact absurd hk (by simp [isOperation])
  | call hk _ _ hargs =>
      refine within_mk _ rfl fun x hx => ?_
      simp only [Kind.children, List.append_nil, List.mem_append] at hx
      rcases hx with hx | hx
      · exact hf.of_node (mem_nodes_of_surface (hargs x hx).mem_surface)
      · exact hf.of_kind hk x (by simp [Kind.children, hx])

/-! ## Several rules -/

theorem within_transformAll {rules : List Rule} (hrules : ∀ rule ∈ rules, Rule.Keeps S rule)
    {f : Formula} (hf : f.Within S) : (f.transformAll rules).Within S := by
  rw [Formula.transformAll]
  induction rules generalizing f with
  | nil => exact hf
  | cons rule rules ih =>
      refine ih (fun r hr => hrules r (List.mem_cons_of_mem rule hr)) ?_
      exact Formula.within_transform (hrules rule List.mem_cons_self) hf

theorem within_settle {rules : List Rule} (hrules : ∀ rule ∈ rules, Rule.Keeps S rule)
    {rounds : Nat} {f : Formula} (hf : f.Within S) :
    (Formula.settle rules rounds f).Within S := by
  induction rounds generalizing f with
  | zero => exact hf
  | succ rounds ih =>
      have hstep := within_transformAll hrules hf
      unfold Formula.settle
      dsimp only
      split
      · exact hstep
      · exact ih hstep

theorem keeps_rules (dialect : Dialects) : ∀ rule ∈ Simplify.rules dialect, Rule.Keeps S rule :=
  fun rule hrule above f r _ hf hr => (Simplify.rules_reduced rule hrule above f r hr).within hf

theorem keeps_filterRules (dialect : Dialects) :
    ∀ rule ∈ Simplify.filterRules dialect, Rule.Keeps S rule :=
  fun rule hrule above f r _ hf hr =>
    (Simplify.filterRules_reduced rule hrule above f r hr).within hf

end Simplify

end FormulaSql
