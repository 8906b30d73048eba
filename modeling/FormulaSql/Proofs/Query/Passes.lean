import FormulaSql.Proofs.Query.Regular

/-!
# Rules that leave alone what is flat

The levels and the dimensions of a regular formula are flat. A rule that makes or changes forks does
nothing to what is flat, so they stay what they were through all of the rewriting.

* `Formula.transform_passes` goes with a rule through a formula, for a relation of choice
* `Formula.transform_all` does so for a property of what comes out
-/

namespace FormulaSql

/-! ## Rules that leave alone what is flat -/

/-- The rule offers nothing for a node that is computed row by row, and otherwise something
regular. -/
structure Rule.KeepsFlat (rule : Rule) : Prop where
  skips : ∀ above f, f.kind.isRowwise = true → rule above f = none
  regular : ∀ above f r, (∀ a ∈ above, a.Regular) → f.Regular → rule above f = some r → r.Regular

namespace Formula

/-- What comes out is regular, and what is flat comes out as it was. -/
structure Passes (f g : Formula) : Prop where
  regular : g.Regular
  flat : f.Flat → g = f

section Passes

variable {f g : Formula} {cs : List Formula} {rule : Rule} {above : List Formula}

theorem Passes.refl (h : f.Regular) : Passes f f := ⟨h, fun _ => rfl⟩

theorem eq_of_passes {xs ys : List Formula} (h : List.Forall₂ Passes xs ys)
    (hflat : ∀ x ∈ xs, x.Flat) : ys = xs := by
  induction h with
  | nil => rfl
  | cons hxy _ ih =>
      rw [List.forall_mem_cons] at hflat
      rw [hxy.flat hflat.1, ih hflat.2]

theorem passes_withChildren (hf : f.Regular) (hcs : List.Forall₂ Passes f.children cs) :
    Passes f (f.withChildren cs) where
  regular := by
    have hsides := flat_sides_withChildren hf.flat_sides
      (hcs.imp fun c d hcd hc => (hcd.flat hc).symm ▸ hc)
    exact hf.withChildren hsides (hcs.imp fun _ _ hcd _ => hcd.regular)
  flat hflat := by
    rw [eq_of_passes hcs fun c hc => hflat.of_child hc, withChildren_children]

theorem Passes.step {r : Formula} (hrule : rule.KeepsFlat) (habove : ∀ a ∈ above, a.Regular)
    (h : Passes f g) (hr : rule above g = some r) : Passes f r where
  regular := hrule.regular above g r habove h.regular hr
  flat hflat := by
    rw [h.flat hflat, hrule.skips above f hflat.rowwise] at hr
    exact absurd hr (by simp)

theorem passes_transformBelow (hrule : rule.KeepsFlat) (hf : f.Regular)
    (habove : ∀ a ∈ above, a.Regular) : Passes f (f.transformBelow rule above) :=
  transformBelow_rel (Q := Regular) (fun _ hf _ hc => hf.of_child hc) (fun _ hf => .refl hf)
    (fun _ _ hf hcs => passes_withChildren hf hcs)
    (fun _ _ _ _ habove _ hfg hr => hfg.step hrule habove hr) hf habove

theorem passes_transformChild (hrule : rule.KeepsFlat) (hf : f.Regular)
    (habove : ∀ a ∈ above, a.Regular) : Passes f (transformChild rule above f) := by
  have hbelow := passes_transformBelow hrule hf habove
  rw [transformChild]
  split
  · exact .refl hf
  · cases hr : rule above (f.transformBelow rule above) with
    | none => exact hbelow
    | some r => exact hbelow.step hrule habove hr

/-- The top node of a formula is rebuilt from children that pass. -/
theorem exists_transformBelow_eq (hrule : rule.KeepsFlat) (hf : f.Regular)
    (habove : ∀ a ∈ above, a.Regular) :
    ∃ cs, List.Forall₂ Passes f.children cs ∧ f.transformBelow rule above = f.withChildren cs := by
  have hhere : ∀ a ∈ above ++ [f], a.Regular :=
    List.forall_mem_append.mpr ⟨habove, List.forall_mem_singleton.mpr hf⟩
  rw [transformBelow_eq]
  dsimp only
  split
  · exact ⟨f.children, List.forall₂_same.mpr fun c hc => .refl (hf.of_child hc),
      (withChildren_children f).symm⟩
  · refine ⟨_, ?_, rfl⟩
    rw [List.forall₂_map_right_iff]
    exact List.forall₂_same.mpr fun c hc =>
      passes_transformChild hrule (hf.of_child hc) hhere

end Passes

/-- Passing along with a relation that passes to rebuilt nodes and that the rule keeps. -/
theorem transform_passes {rule : Rule} {Q : Formula → Prop} {R : Formula → Formula → Prop}
    (hrule : rule.KeepsFlat) (below : ∀ f, Q f → ∀ c ∈ f.children, Q c)
    (refl : ∀ f, Q f → f.Regular → R f f)
    (node : ∀ f cs, Q f → f.Regular →
      List.Forall₂ (fun c d => Passes c d ∧ R c d) f.children cs → R f (f.withChildren cs))
    (step : ∀ above f g r, (∀ a ∈ above, a.Regular) → Q f → Passes f g → R f g →
      rule above g = some r → R f r)
    {f : Formula} (hf : Q f) (hregular : f.Regular) :
    Passes f (f.transform rule) ∧ R f (f.transform rule) := by
  refine transform_rel (Q := fun f => Q f ∧ f.Regular) (R := fun f g => Passes f g ∧ R f g)
    ?_ ?_ ?_ ?_ ⟨hf, hregular⟩
  · exact fun f hf c hc => ⟨below f hf.1 c hc, hf.2.of_child hc⟩
  · exact fun f hf => ⟨.refl hf.2, refl f hf.1 hf.2⟩
  · exact fun f cs hf hcs =>
      ⟨passes_withChildren hf.2 (hcs.imp fun _ _ h => h.1), node f cs hf.1 hf.2 hcs⟩
  · intro above f g r habove hf hfg hr
    have habove : ∀ a ∈ above, a.Regular := fun a ha => (habove a ha).2
    exact ⟨hfg.1.step hrule habove hr, step above f g r habove hf.1 hfg.1 hfg.2 hr⟩

theorem passes_transform {rule : Rule} {f : Formula} (hrule : rule.KeepsFlat) (hf : f.Regular) :
    Passes f (f.transform rule) :=
  (transform_passes (Q := fun _ => True) (R := fun _ _ => True) hrule (fun _ _ _ _ => trivial)
    (fun _ _ _ => trivial) (fun _ _ _ _ _ => trivial) (fun _ _ _ _ _ _ _ _ _ => trivial)
    trivial hf).1

/-! ## Levels -/

/-- The function and the level of detail of an aggregation that has one of its own. -/
def ownLevel? (f : Formula) : Option (String × Lod Formula) := do
  let c ← f.call?
  if f.isAggregateCall && !c.lod.isInherited then some (c.name, c.lod) else none

section Levels

variable {f g : Formula} {cs : List Formula} {c : Call Formula} {n : String} {l : Lod Formula}

theorem ownLevel?_of_kind (hk : f.kind = .call c) :
    f.ownLevel? = if Function.isAggregate c.name && !c.lod.isInherited then some (c.name, c.lod)
      else none := by
  rw [ownLevel?, isAggregateCall_of_kind hk, call?, hk]
  rfl

theorem ownLevel?_eq_some :
    f.ownLevel? = some (n, l) ↔ ∃ c, f.kind = .call c ∧ Function.isAggregate c.name = true ∧
      c.lod.isInherited = false ∧ c.name = n ∧ c.lod = l := by
  constructor
  · intro h
    obtain ⟨c, hc, -⟩ := Option.bind_eq_some_iff.mp h
    have hk := kind_of_call? hc
    rw [ownLevel?_of_kind hk] at h
    split at h
    next hown =>
      rw [Bool.and_eq_true, Bool.not_eq_true'] at hown
      obtain ⟨rfl, rfl⟩ := Prod.mk.inj (Option.some.inj h)
      exact ⟨c, hk, hown.1, hown.2, rfl, rfl⟩
    next => exact absurd h (by simp)
  · rintro ⟨c, hk, haggregate, hinherited, rfl, rfl⟩
    rw [ownLevel?_of_kind hk, haggregate, hinherited]
    rfl

theorem ofName?_of_isAggregate (h : Function.isAggregate n = true) :
    Normalize.LookupKind.ofName? n = none := by
  have hlower {m : String} (hm : n.toLower = m) (hm' : m.toLower = m) :
      Function.isAggregate m = true := by
    rw [Function.isAggregate, Function.definitions, Function.definitionsIn] at h ⊢
    rwa [hm', ← hm]
  unfold Normalize.LookupKind.ofName?
  split
  next hago => exact absurd (hlower hago (by decide +kernel)) (by decide +kernel)
  next hdate => exact absurd (hlower hdate (by decide +kernel)) (by decide +kernel)
  next => rfl

theorem not_isAggregateCall_of_lookup? {kind : Normalize.LookupKind}
    (h : Normalize.lookup? f = some (c, kind)) : Function.isAggregate c.name = false := by
  obtain ⟨c', hc', h⟩ := Option.bind_eq_some_iff.mp h
  obtain ⟨kind', hkind, h⟩ := Option.bind_eq_some_iff.mp h
  obtain ⟨rfl, -⟩ := Prod.mk.inj (Option.some.inj h)
  rw [← Bool.not_eq_true]
  intro haggregate
  rw [ofName?_of_isAggregate haggregate] at hkind
  exact absurd hkind (by simp)

theorem Flat.ownLevel? (h : f.Flat) : f.ownLevel? = none := by
  apply Option.eq_none_iff_forall_ne_some.mpr
  rintro ⟨n, l⟩ hown
  obtain ⟨c, hk, haggregate, -⟩ := ownLevel?_eq_some.mp hown
  have hrow := h.rowwise
  rw [hk, Kind.isRowwise, haggregate] at hrow
  exact absurd hrow (by simp)

theorem ownLevel?_eq_none (h : f.call? = none) : f.ownLevel? = none := by
  rw [ownLevel?, h]
  rfl

theorem isError_withChildren (f : Formula) (cs : List Formula) :
    (f.withChildren cs).isError = f.isError := by
  rw [isError, isError, withChildren, kind]
  cases f.kind <;> rfl

theorem Flat.not_isError (h : f.Flat) : f.isError = false := by
  have hrow := h.rowwise
  rw [isError]
  split
  next hk =>
    rw [hk] at hrow
    exact absurd hrow (by simp [Kind.isRowwise])
  next => rfl

/-- The dimensions of an aggregation are flat in a regular formula. -/
theorem Regular.flat_dims (hf : f.Regular) (hk : f.kind = .call c)
    (haggregate : Function.isAggregate c.name = true) : ∀ d ∈ c.lod.dims, d.Flat := by
  intro d hd
  apply hf.flat_sides d
  rw [hk, Kind.sides, Kind.mainCount, ofName?_of_isAggregate haggregate]
  simp [Kind.children, List.append_assoc, hd]

theorem Regular.flat_fork_dims {q : Fork Formula} (hf : f.Regular) (hk : f.kind = .fork q) :
    ∀ d ∈ q.lod.dims, d.Flat := by
  intro d hd
  apply hf.flat_sides d
  rw [hk]
  simp [Kind.sides, Kind.mainCount, Kind.children, hd]

theorem call?_withChildren_of_none (h : f.call? = none) : (f.withChildren cs).call? = none := by
  rw [call?] at h ⊢
  rw [withChildren, kind]
  cases hk : f.kind with
  | call c =>
      rw [hk] at h
      exact absurd h (by simp)
  | _ => rfl

theorem ownLevel?_withChildren (hf : f.Regular) (hcs : List.Forall₂ Passes f.children cs) :
    (f.withChildren cs).ownLevel? = f.ownLevel? := by
  cases hc : f.call? with
  | none =>
      rw [ownLevel?, ownLevel?, hc, call?_withChildren_of_none hc]
      rfl
  | some c =>
      have hk := kind_of_call? hc
      obtain ⟨c', hk', hname, hlod, -, hdims⟩ := exists_call_withChildren hcs hk
      rw [ownLevel?_of_kind hk', ownLevel?_of_kind hk, hname]
      cases haggregate : Function.isAggregate c.name with
      | false => rfl
      | true => rw [Kind.eq_of_dims hlod (eq_of_passes hdims (hf.flat_dims hk haggregate))]

theorem lod?_of_call (hk : f.kind = .call c) :
    f.lod? = if Function.isAggregate c.name then some c.lod else none := by
  rw [lod?, hk]
  dsimp only
  rw [isAggregateCall_of_kind hk]

theorem lod?_of_fork {q : Fork Formula} (hk : f.kind = .fork q) : f.lod? = some q.lod := by
  rw [lod?, hk]

theorem lod?_withChildren (hf : f.Regular) (hcs : List.Forall₂ Passes f.children cs) :
    (f.withChildren cs).lod? = f.lod? := by
  cases hk : f.kind with
  | call c =>
      obtain ⟨c', hk', hname, hlod, -, hdims⟩ := exists_call_withChildren hcs hk
      rw [lod?_of_call hk', lod?_of_call hk, hname]
      cases haggregate : Function.isAggregate c.name with
      | false => rfl
      | true => rw [Kind.eq_of_dims hlod (eq_of_passes hdims (hf.flat_dims hk haggregate))]
  | fork q =>
      obtain ⟨q', hk', hlod, -, hdims⟩ := exists_fork_withChildren hcs hk
      rw [lod?_of_fork hk', lod?_of_fork hk,
        Kind.eq_of_dims hlod (eq_of_passes hdims (hf.flat_fork_dims hk))]
  | _ =>
      rw [lod?, lod?, withChildren, kind, hk]
      rfl

theorem contextDimensions_withChildren {outer : List Formula} (hf : f.Regular)
    (hcs : List.Forall₂ Passes f.children cs) :
    contextDimensions outer [f.withChildren cs] = contextDimensions outer [f] := by
  simp only [contextDimensions, List.foldl_cons, List.foldl_nil, lod?_withChildren hf hcs]

/-- Dimensions below regular nodes are flat if those of the query are. -/
theorem flat_contextDimensions {dims above : List Formula} (hdims : ∀ d ∈ dims, d.Flat)
    (habove : ∀ a ∈ above, a.Regular) : ∀ d ∈ contextDimensions dims above, d.Flat := by
  apply forall_contextDimensions hdims
  intro a ha lod hlod d hd
  rw [lod?] at hlod
  split at hlod
  next q hk =>
    obtain rfl := Option.some.inj hlod
    exact (habove a ha).flat_fork_dims hk d hd
  next c hk =>
    rw [isAggregateCall_of_kind hk] at hlod
    split at hlod
    next haggregate =>
      obtain rfl := Option.some.inj hlod
      exact (habove a ha).flat_dims hk haggregate d hd
    next => exact absurd hlod (by simp)
  next => exact absurd hlod (by simp)

/-- All levels of the formula satisfy the property. -/
def LevelsIn (T : String → Lod Formula → Prop) (f : Formula) : Prop :=
  f.All fun x => ∀ n l, x.ownLevel? = some (n, l) → T n l

theorem exists_ownLevel?_of_same (h : (f == g) = true) (hf : f.ownLevel? = some (n, l)) :
    ∃ l', g.ownLevel? = some (n, l') ∧ (l == l') = true := by
  obtain ⟨c, hk, haggregate, hinherited, rfl, rfl⟩ := ownLevel?_eq_some.mp hf
  obtain ⟨c', hk', hname, hlod, hlods⟩ := exists_call_of_same h hk
  refine ⟨c'.lod, ownLevel?_eq_some.mpr ⟨c', hk', hname ▸ haggregate, ?_, hname, rfl⟩, hlods⟩
  rw [← Kind.isInherited_outline, hlod, Kind.isInherited_outline, hinherited]

theorem LevelsIn.of_same {T : String → Lod Formula → Prop}
    (hT : ∀ n l l', (l == l') = true → T n l → T n l') (h : (f == g) = true)
    (hf : f.LevelsIn T) : g.LevelsIn T := by
  intro y hy n l' hown
  obtain ⟨x, hx, hxy⟩ := exists_node_of_same (same_symm h) hy
  obtain ⟨l, hl, hll'⟩ := exists_ownLevel?_of_same hxy hown
  exact hT n l l' (BEq.symm hll') (hf x hx n l hl)

theorem Flat.levelsIn {T : String → Lod Formula → Prop} (hf : f.Flat) : f.LevelsIn T :=
  fun _ hx _ _ h => absurd ((Flat.ownLevel? (hf.of_node hx)).symm.trans h) (by simp)

theorem levelsIn_of_isError {T : String → Lod Formula → Prop} (h : f.isError = true) :
    f.LevelsIn T := by
  obtain ⟨message, code, hk⟩ := kind_of_isError h
  refine all_iff.mpr ⟨?_, ?_⟩
  · intro n l hown
    have hcall : f.call? = none := by rw [call?, hk]
    exact absurd ((ownLevel?_eq_none hcall).symm.trans hown) (by simp)
  · intro d hd
    rw [children, hk] at hd
    exact absurd hd List.not_mem_nil

/-- A fork is regular if its result is and its other parts are flat. -/
theorem regular_fork {q : Fork Formula} {others : List Formula}
    (hcs : (Kind.fork q).children = q.result :: others) (hresult : q.result.Regular)
    (hothers : ∀ x ∈ others, x.Flat) : (of (.fork q)).Regular := by
  refine all_iff.mpr ⟨?_, ?_⟩
  · intro d hd
    rw [of, kind, Kind.sides, Kind.mainCount, hcs] at hd
    exact hothers d hd
  · intro d hd
    rw [of, children, kind, hcs] at hd
    rcases List.mem_cons.mp hd with rfl | hd
    · exact hresult
    · exact (hothers d hd).regular

theorem regular_forkAt {result : Formula} {shared own : List Formula} {filters : NameSet}
    (hresult : result.Regular) (hshared : ∀ d ∈ shared, d.Flat) (hown : ∀ d ∈ own, d.Flat) :
    (of (.fork (Normalize.forkAt result shared own filters))).Regular :=
  regular_fork (Normalize.children_forkAt result shared own filters) hresult
    (List.forall_mem_append.mpr ⟨hshared, hown⟩)

end Levels

/-! ## What a rule offers -/

/-- What stands in the place of the formula before it is compared with it. -/
def offered (rule : Rule) (above : List Formula) (f : Formula) : Formula :=
  (rule above (f.transformBelow rule above)).getD (f.transformBelow rule above)

section Offered

variable {rule : Rule} {f : Formula}

theorem offered_beq_transformChild (rule : Rule) (above : List Formula) (f : Formula) :
    (f.offered rule above == transformChild rule above f) = true := by
  rw [transformChild]
  split
  next hsame => exact hsame
  next => exact BEq.rfl

theorem offered_beq_transform (rule : Rule) (f : Formula) :
    (f.offered rule [] == f.transform rule) = true := by
  rw [offered, transform]
  cases rule [] (f.transformBelow rule []) with
  | none => exact BEq.rfl
  | some r =>
      dsimp only [Option.getD_some]
      split
      next hsame => exact hsame
      next => exact BEq.rfl

theorem children_transformBelow (rule : Rule) (above : List Formula) (f : Formula) :
    List.Forall₂ (fun c d => (c.offered rule (above ++ [f]) == d) = true) f.children
      (f.transformBelow rule above).children := by
  have hmap : List.Forall₂ (fun c d => (c.offered rule (above ++ [f]) == d) = true) f.children
      (f.children.map (transformChild rule (above ++ [f]))) := by
    rw [List.forall₂_map_right_iff]
    exact List.forall₂_same.mpr fun c _ => offered_beq_transformChild rule _ c
  rw [transformBelow_eq]
  dsimp only
  split
  next hsame =>
    have hpairs := List.forall₂_map_left_iff.mp (list_beq_iff.mp hsame)
    apply hpairs.imp
    intro c d hcd
    exact BEq.trans (offered_beq_transformChild rule _ c) hcd
  next =>
    rw [children_withChildren f _ (List.length_map _)]
    exact hmap

/-- A property that does not tell equal formulas apart holds of what comes out if it does of what is
offered, given that it does of the children. -/
theorem transform_all {P : Formula → Prop} {f₀ : Formula}
    (same : ∀ f g, (f == g) = true → P f → P g)
    (step : ∀ above f, (∀ a ∈ above, a ∈ f₀.nodes) → f ∈ f₀.nodes →
      (∀ d ∈ (f.transformBelow rule above).children, P d) → P (f.offered rule above)) :
    P (f₀.transform rule) := by
  have hall : ∀ f ∈ f₀.nodes, ∀ above, (∀ a ∈ above, a ∈ f₀.nodes) → P (f.offered rule above) := by
    intro f
    induction f using induction_children with
    | step f ih =>
        intro hf above habove
        apply step above f habove hf
        intro d hd
        obtain ⟨c, hc, hcd⟩ := forall₂_exists_left (children_transformBelow rule above f) hd
        refine same _ _ hcd (ih c hc ?_ _ fun a ha => ?_)
        · exact mem_nodes_trans hf (mem_nodes_of_child hc (self_mem_nodes c))
        · rcases List.mem_append.mp ha with ha | ha
          · exact habove a ha
          · exact List.mem_singleton.mp ha ▸ hf
  exact same _ _ (offered_beq_transform rule f₀)
    (hall f₀ (self_mem_nodes f₀) [] fun _ ha => absurd ha List.not_mem_nil)

end Offered

end Formula

end FormulaSql
