import FormulaSql.Proofs.Data.Outcomes
import FormulaSql.Proofs.Formula.Rewriting
import FormulaSql.Proofs.Query.Offers

/-!
# Regular formulas

A formula is flat if it is computed row by row: nothing in it is aggregated, looked up, computed
over a window or forked. It is regular if it is flat wherever only dimensions are expected: in
levels of detail, among the ignored dimensions and the further arguments of lookups, and in all
parts of a fork but its result.

The stages that simplify a query before any forks are made keep formulas flat and regular, and they
bring in no forks.
-/

namespace FormulaSql

namespace Kind

variable {α β : Type}

/-- The node is computed row by row from its children. -/
def isRowwise : Kind α → Bool
  | call c => !Function.isAggregate c.name && (Normalize.LookupKind.ofName? c.name).isNone
  | window _ => false
  | fork _ => false
  | error _ _ => false
  | _ => true

/-- How many children, counted from the first, are more than dimensions and the like. -/
def mainCount : Kind α → Nat
  | call c =>
    if (Normalize.LookupKind.ofName? c.name).isSome then min 1 c.args.length else c.args.length
  | fork _ => 1
  | k => k.children.length

/-- The children where only dimensions and the like are expected. -/
def sides (k : Kind α) : List α := k.children.drop k.mainCount

theorem isRowwise_withChildren (k : Kind α) (cs : List α) :
    (k.withChildren cs).isRowwise = k.isRowwise := by
  have hmap (k : Kind α) : k.outline.isRowwise = k.isRowwise := by cases k <;> rfl
  rw [← hmap, ← hmap, outline_withChildren]

theorem mainCount_withChildren (k : Kind α) (cs : List α) :
    (k.withChildren cs).mainCount = k.mainCount := by
  have hmap (k : Kind α) : k.outline.mainCount = k.mainCount := by
    have hlen : k.outline.children.length = k.children.length := by
      rw [outline, children_map, List.length_map]
    cases k with
    | call c => simp [outline, map, mainCount]
    | fork q => rfl
    | _ => exact hlen
  rw [← hmap, ← hmap, outline_withChildren]

theorem sides_withChildren (k : Kind α) (cs : List α) (h : cs.length = k.children.length) :
    (k.withChildren cs).sides = cs.drop k.mainCount := by
  rw [sides, mainCount_withChildren, children_withChildren k cs h]

theorem mem_children_of_sides {k : Kind α} {d : α} (h : d ∈ k.sides) : d ∈ k.children :=
  List.mem_of_mem_drop h

end Kind

namespace Formula

/-- All nodes of the formula have the property. -/
def All (P : Formula → Prop) (f : Formula) : Prop := ∀ g ∈ f.nodes, P g

/-- The formula is computed row by row. -/
def Flat : Formula → Prop := All fun g => g.kind.isRowwise = true

/-- The formula is flat wherever only dimensions are expected. -/
def Regular : Formula → Prop := All fun g => ∀ d ∈ g.kind.sides, d.Flat

/-- There is no fork in the formula. -/
def Forkless : Formula → Prop := All fun g => g.isFork = false

instance (f : Formula) : Decidable f.Flat :=
  inferInstanceAs (Decidable (∀ g ∈ f.nodes, g.kind.isRowwise = true))

instance (f : Formula) : Decidable f.Regular :=
  inferInstanceAs (Decidable (∀ g ∈ f.nodes, ∀ d ∈ g.kind.sides, d.Flat))

instance (f : Formula) : Decidable f.Forkless :=
  inferInstanceAs (Decidable (∀ g ∈ f.nodes, g.isFork = false))

section All

variable {P : Formula → Prop} {f g c : Formula}

theorem all_iff : f.All P ↔ P f ∧ ∀ c ∈ f.children, c.All P :=
  forall_mem_nodes_iff

theorem All.of_node (h : f.All P) (hg : g ∈ f.nodes) : g.All P :=
  fun x hx => h x (mem_nodes_trans hg hx)

theorem All.of_child (h : f.All P) (hc : c ∈ f.children) : c.All P := (all_iff.mp h).2 c hc

/-- A node rebuilt from children that keep the property keeps it if its own node does. -/
theorem All.withChildren {cs : List Formula} (h : f.All P) (hown : P (f.withChildren cs))
    (hcs : List.Forall₂ (fun c d => c.All P → d.All P) f.children cs) :
    (f.withChildren cs).All P := by
  refine all_iff.mpr ⟨hown, fun d hd => ?_⟩
  rw [children_withChildren f cs hcs.length_eq.symm] at hd
  obtain ⟨c, hc, hcd⟩ := forall₂_exists_left hcs hd
  exact hcd (h.of_child hc)

end All

theorem Flat.rowwise {f : Formula} (h : f.Flat) : f.kind.isRowwise = true :=
  h f (self_mem_nodes f)

theorem Regular.flat_sides {f : Formula} (h : f.Regular) : ∀ d ∈ f.kind.sides, d.Flat :=
  h f (self_mem_nodes f)

theorem Forkless.not_isFork {f : Formula} (h : f.Forkless) : f.isFork = false :=
  h f (self_mem_nodes f)

theorem Forkless.fork?_eq_none {f g : Formula} (h : f.Forkless) (hg : g ∈ f.nodes) :
    g.fork? = none := by
  have hfork := Forkless.not_isFork (h.of_node hg)
  rwa [isFork, Option.isSome_eq_false_iff, Option.isNone_iff_eq_none] at hfork

theorem Flat.regular {f : Formula} (h : f.Flat) : f.Regular := fun _ hg _ hd =>
  (h.of_node hg).of_child (Kind.mem_children_of_sides hd)

theorem Flat.forkless {f : Formula} (h : f.Flat) : f.Forkless := by
  intro g hg
  have hrow := Flat.rowwise (h.of_node hg)
  rw [isFork_eq]
  cases hk : g.kind with
  | fork q =>
      rw [hk] at hrow
      exact absurd hrow (by simp [Kind.isRowwise])
  | _ => rfl

/-! ## Simplified formulas -/

/-- The second formula is as flat, as regular and as free of forks as the first. -/
structure AsRegular (f g : Formula) : Prop where
  flat : f.Flat → g.Flat
  regular : f.Regular → g.Regular
  forkless : f.Forkless → g.Forkless

theorem AsRegular.refl (f : Formula) : AsRegular f f := ⟨id, id, id⟩

theorem AsRegular.trans {f g h : Formula} (hfg : AsRegular f g) (hgh : AsRegular g h) :
    AsRegular f h :=
  ⟨hgh.flat ∘ hfg.flat, hgh.regular ∘ hfg.regular, hgh.forkless ∘ hfg.forkless⟩

/-- Where only dimensions are expected, children that stay flat are rebuilt to flat ones. -/
theorem flat_sides_withChildren {f : Formula} {cs : List Formula}
    (hf : ∀ d ∈ f.kind.sides, d.Flat)
    (hcs : List.Forall₂ (fun c d => c.Flat → d.Flat) f.children cs) :
    ∀ d ∈ (f.withChildren cs).kind.sides, d.Flat := by
  intro d hd
  have hsides : (f.withChildren cs).kind.sides = cs.drop f.kind.mainCount :=
    Kind.sides_withChildren f.kind cs hcs.length_eq.symm
  obtain ⟨c, hc, hcd⟩ := forall₂_exists_left (List.forall₂_drop _ hcs) (hsides ▸ hd)
  exact hcd (hf c hc)

theorem asRegular_withChildren (f : Formula) (cs : List Formula)
    (h : List.Forall₂ AsRegular f.children cs) : AsRegular f (f.withChildren cs) where
  flat hf := hf.withChildren
    ((Kind.isRowwise_withChildren f.kind cs).trans hf.rowwise)
    (h.imp fun _ _ hcd => hcd.flat)
  regular hf := hf.withChildren
    (flat_sides_withChildren hf.flat_sides (h.imp fun _ _ hcd => hcd.flat))
    (h.imp fun _ _ hcd => hcd.regular)
  forkless hf := hf.withChildren ((isFork_withChildren f cs).trans hf.not_isFork)
    (h.imp fun _ _ hcd => hcd.forkless)

theorem asRegular_transform {rule : Rule}
    (hrule : ∀ above f r, rule above f = some r → AsRegular f r) (f : Formula) :
    AsRegular f (f.transform rule) :=
  transform_rel (Q := fun _ => True) (fun _ _ _ _ => trivial) (fun f _ => .refl f)
    (fun f cs _ hcs => asRegular_withChildren f cs hcs)
    (fun above _ g r _ _ hfg hr => hfg.trans (hrule above g r hr)) trivial

theorem sides_of_isOperation {k : Kind Formula} (h : isOperation k = true) : k.sides = [] := by
  cases k with
  | binary | unary | ifBlock | caseBlock => exact List.drop_length
  | _ => exact absurd h (by simp [isOperation])

theorem Reduced.all {P : Formula → Prop} {f r : Formula} (h : Reduced f r) (hf : f.All P)
    (literal : ∀ v notes, P (mk (.literal v) notes))
    (operation : ∀ k notes, isOperation k = true → P (mk k notes))
    (call : ∀ c args, f.kind = .call c → Normalize.LookupKind.ofName? c.name = none →
      P (Simplify.callWithArgs c args)) : r.All P := by
  cases h with
  | literal v notes => exact all_iff.mpr ⟨literal v notes, fun c hc => absurd hc List.not_mem_nil⟩
  | part hg => exact hf.of_node (mem_nodes_of_surface hg.mem_surface)
  | aggregation hk hg => exact hf.of_node (mem_nodes_of_surface (mem_surface_of_arg hk hg))
  | operation notes hk hcs =>
      exact all_iff.mpr ⟨operation _ notes hk, fun c hc =>
        hf.of_node (mem_nodes_of_surface (hcs c hc).mem_surface)⟩
  | @call c args hk _ hname hargs =>
      refine all_iff.mpr ⟨call c args hk hname, fun x hx => ?_⟩
      simp only [Simplify.callWithArgs, callWith, of, children, kind, Kind.children,
        List.append_nil, List.mem_append] at hx
      rcases hx with hx | hx
      · exact hf.of_node (mem_nodes_of_surface (hargs x hx).mem_surface)
      · apply hf.of_child
        simp [children, hk, Kind.children, hx]

theorem Reduced.asRegular {f r : Formula} (h : Reduced f r) : AsRegular f r where
  flat hf := by
    refine h.all hf (fun _ _ => rfl) (fun k _ hk => ?_) fun c args hk _ => ?_
    · cases k with
      | binary | unary | ifBlock | caseBlock => rfl
      | _ => exact absurd hk (by simp [isOperation])
    · have hown := hf.rowwise
      rw [hk] at hown
      exact hown
  regular hf := by
    refine h.all hf (fun _ _ d hd => absurd hd List.not_mem_nil) (fun k _ hk d hd => ?_)
      fun c args hk hname d hd => ?_
    · rw [kind, sides_of_isOperation hk] at hd
      exact absurd hd List.not_mem_nil
    · apply hf.flat_sides d
      simp only [Simplify.callWithArgs, callWith, of, kind, Kind.sides, Kind.children,
        Kind.mainCount, hname, Option.isSome_none, Bool.false_eq_true, if_false,
        List.append_nil, List.drop_left] at hd
      simp [hk, Kind.sides, Kind.children, Kind.mainCount, hname, List.append_assoc, hd]
  forkless hf := by
    refine h.all hf (fun _ _ => rfl) (fun k _ hk => ?_) fun c args _ _ => rfl
    cases k with
    | binary | unary | ifBlock | caseBlock => rfl
    | _ => exact absurd hk (by simp [isOperation])

end Formula

/-! ## Rules that prepare -/

/-- From any formula, the rule offers one that is as regular. -/
def Rule.KeepsRegular (rule : Rule) : Prop :=
  ∀ above f r, rule above f = some r → f.AsRegular r

namespace Formula

theorem asRegular_rewindowed {given : List Formula} {f r : Formula}
    (h : Normalize.Rewindowed given f r) (hgiven : ∀ x ∈ given, x.Regular ∧ x.Forkless) :
    AsRegular f r := by
  obtain ⟨w, w', hw, rfl, -, hcs⟩ := h
  have hk := kind_of_window? hw
  constructor
  · intro hf
    have hown := hf.rowwise
    rw [hk] at hown
    exact absurd hown (by simp [Kind.isRowwise])
  · intro hf
    refine all_iff.mpr ⟨?_, ?_⟩
    · intro d hd
      rw [kind, Kind.sides, Kind.mainCount, List.drop_length] at hd
      · exact absurd hd List.not_mem_nil
      all_goals exact fun _ h => absurd h (by simp)
    · intro c hc
      rcases hcs c hc with hc | hc
      · exact hf.of_node (mem_nodes_of_kind hk hc)
      · exact (hgiven c hc).1
  · intro hf
    refine all_iff.mpr ⟨rfl, fun c hc => ?_⟩
    rcases hcs c hc with hc | hc
    · exact hf.of_node (mem_nodes_of_kind hk hc)
    · exact (hgiven c hc).2

theorem regular_of_isError {f : Formula} (h : f.isError = true) : f.Regular := by
  obtain ⟨message, code, hk⟩ := kind_of_isError h
  refine all_iff.mpr ⟨?_, ?_⟩
  · intro d hd
    rw [hk] at hd
    exact absurd hd List.not_mem_nil
  · intro d hd
    rw [children, hk] at hd
    exact absurd hd List.not_mem_nil

theorem forkless_of_isError {f : Formula} (h : f.isError = true) : f.Forkless := by
  obtain ⟨message, code, hk⟩ := kind_of_isError h
  refine all_iff.mpr ⟨by rw [isFork, fork?, hk]; rfl, fun d hd => ?_⟩
  rw [children, hk] at hd
  exact absurd hd List.not_mem_nil

theorem not_isRowwise_of_lookup? {f : Formula} {c : Call Formula} {kind : Normalize.LookupKind}
    (h : Normalize.lookup? f = some (c, kind)) : f.kind.isRowwise = false := by
  obtain ⟨c', hc', h⟩ := Option.bind_eq_some_iff.mp h
  obtain ⟨kind', hkind, h⟩ := Option.bind_eq_some_iff.mp h
  rw [kind_of_call? hc', Kind.isRowwise, hkind]
  simp

theorem asRegular_lookupFilters {above : List Formula} {f r : Formula}
    (hr : Normalize.lookupFilters above f = some r) : AsRegular f r := by
  obtain ⟨c, kind, hlookup, hcases⟩ := Normalize.lookupFilters_cases hr
  have hk := Normalize.lookup?_eq_some hlookup
  constructor
  · intro hf
    exact absurd hf.rowwise (by simp [not_isRowwise_of_lookup? hlookup])
  · intro hf
    rcases hcases with herror | ⟨filters, rfl⟩
    · exact regular_of_isError herror
    · have hown := hf.flat_sides
      rw [hk] at hown
      exact all_iff.mpr ⟨hown, fun x hx => hf.of_node (mem_nodes_of_kind hk hx)⟩
  · intro hf
    rcases hcases with herror | ⟨filters, rfl⟩
    · exact forkless_of_isError herror
    · exact all_iff.mpr ⟨rfl, fun x hx => hf.of_node (mem_nodes_of_kind hk hx)⟩

end Formula

theorem asRegular_transformAll {rules : List Rule} (hrules : ∀ rule ∈ rules, rule.KeepsRegular)
    (f : Formula) : f.AsRegular (f.transformAll rules) := by
  rw [Formula.transformAll]
  induction rules generalizing f with
  | nil => exact .refl f
  | cons rule rules ih =>
      refine .trans (Formula.asRegular_transform (hrules rule List.mem_cons_self) f) ?_
      exact ih (fun r hr => hrules r (List.mem_cons_of_mem rule hr)) _

theorem asRegular_settle {rules : List Rule} (hrules : ∀ rule ∈ rules, rule.KeepsRegular)
    (rounds : Nat) (f : Formula) : f.AsRegular (Formula.settle rules rounds f) := by
  induction rounds generalizing f with
  | zero => exact .refl f
  | succ rounds ih =>
      have hstep := asRegular_transformAll hrules f
      unfold Formula.settle
      dsimp only
      split
      · exact hstep
      · exact hstep.trans (ih _)

/-! ## Stages -/

/-- The formulas are regular and without forks, and the dimensions are flat. -/
structure Query.Regular (q : Query) : Prop where
  formula : ∀ p ∈ Part.all, ∀ e ∈ q.part p, e.formula.Regular ∧ e.formula.Forkless
  dimension : ∀ e ∈ q.groupBy, e.formula.Flat

instance (q : Query) : Decidable q.Regular :=
  decidable_of_iff ((∀ p ∈ Part.all, ∀ e ∈ q.part p, e.formula.Regular ∧ e.formula.Forkless) ∧
    ∀ e ∈ q.groupBy, e.formula.Flat) ⟨fun h => ⟨h.1, h.2⟩, fun h => ⟨h.1, h.2⟩⟩

section Stages

variable {q q' : Query} {s : Settings} {ordering : List Formula}

theorem Query.part_mapFormulas (q : Query) (f : Part → Formula → Formula) (p : Part) :
    (q.mapFormulas f).part p = (q.part p).map (Query.mapEntry (f p)) := by
  cases p <;> rfl

theorem Query.Regular.mapFormulas {f : Part → Formula → Formula} (h : q.Regular)
    (hf : ∀ p g, Formula.AsRegular g (f p g)) : (q.mapFormulas f).Regular := by
  have hentry : ∀ (p : Part) (e : Entry), e.formula.AsRegular (Query.mapEntry (f p) e).formula := by
    intro p e
    rw [Query.mapEntry]
    split
    · exact .refl _
    · exact hf p _
  constructor
  · intro p hp e he
    rw [Query.part_mapFormulas] at he
    obtain ⟨e₀, he₀, rfl⟩ := List.mem_map.mp he
    obtain ⟨hregular, hforkless⟩ := h.formula p hp e₀ he₀
    exact ⟨(hentry p e₀).regular hregular, (hentry p e₀).forkless hforkless⟩
  · intro e he
    obtain ⟨e₀, he₀, rfl⟩ := List.mem_map.mp he
    exact (hentry .groupBy e₀).flat (h.dimension e₀ he₀)

theorem Query.Regular.of_subset (h : q.Regular) (hsub : ∀ p, q'.part p ⊆ q.part p) :
    q'.Regular :=
  ⟨fun p hp e he => h.formula p hp e (hsub p he), fun e he => h.dimension e (hsub .groupBy he)⟩

theorem Query.Regular.flat (h : q.Regular) : ∀ d ∈ q.dimensions, d.Flat := by
  intro d hd
  obtain ⟨e, he, rfl⟩ := List.mem_map.mp hd
  exact h.dimension e he

/-- The stages before forks are made. -/
def Pipeline.simplifying (s : Settings) (ordering : List Formula) : List Pipeline.Stage :=
  [prepare ordering, optimize s, dropConstantGroups withoutConstantGroups s.dialect,
   dropTrueFilters, nullifyTotals]

/-- The query that forks are made of. -/
def Query.simplified (q : Query) (s : Settings) (ordering : List Formula) :
    Except QueryError Query :=
  (Pipeline.simplifying s ordering).foldlM (fun q stage => stage q) q

theorem Query.process_eq (q : Query) (s : Settings) (ordering : List Formula) :
    q.process s ordering = (do
      let q ← q.simplified s ordering
      let q ← Pipeline.makeForks s q
      let q ← Pipeline.normalizeFilters q
      Pipeline.tagLevels q) := by
  have hstages : Pipeline.stages s ordering = Pipeline.simplifying s ordering ++
      [Pipeline.makeForks s, Pipeline.normalizeFilters, Pipeline.tagLevels] := rfl
  rw [Query.process, hstages, List.foldlM_append]
  rfl

theorem Query.Regular.stage {stage : Pipeline.Stage} (hx : q.Regular)
    (hordering : ∀ o ∈ ordering, o.Regular ∧ o.Forkless)
    (hstage : stage ∈ Pipeline.simplifying s ordering) (hstep : stage q = .ok q') :
    q'.Regular := by
  simp only [Pipeline.simplifying, List.mem_cons, List.not_mem_nil, or_false] at hstage
  rcases hstage with rfl | rfl | rfl | rfl | rfl
  · obtain rfl := Except.ok.inj hstep
    refine hx.mapFormulas fun _ f => asRegular_transformAll ?_ f
    have hdims : ∀ d ∈ q.dimensions, d.Regular ∧ d.Forkless :=
      fun d hd => ⟨(hx.flat d hd).regular, (hx.flat d hd).forkless⟩
    simp only [List.forall_mem_cons]
    refine ⟨?_, ?_, ?_, ?_, fun _ h => absurd h List.not_mem_nil⟩
    · exact fun _ _ _ hr =>
        Formula.asRegular_rewindowed (Normalize.defaultOrdering_cases hr) hordering
    · exact fun _ _ _ hr => Formula.asRegular_lookupFilters hr
    · exact fun _ _ _ hr => Formula.asRegular_rewindowed (Normalize.amongToWithin_cases hr) hdims
    · exact fun _ _ _ hr => Formula.asRegular_rewindowed (Normalize.dropExtraWithin_cases hr)
        fun _ h => absurd h List.not_mem_nil
  · unfold Pipeline.optimize at hstep
    split at hstep
    · exact Except.ok.inj hstep ▸ hx
    · obtain rfl := Except.ok.inj hstep
      apply hx.mapFormulas
      intro p f
      split
      · refine asRegular_settle (fun rule hrule above g r hr => ?_) _ f
        exact (Simplify.filterRules_reduced rule hrule above g r hr).asRegular
      · refine asRegular_settle (fun rule hrule above g r hr => ?_) _ f
        exact (Simplify.rules_reduced rule hrule above g r hr).asRegular
  · unfold Pipeline.dropConstantGroups at hstep
    split at hstep
    · obtain rfl := Except.ok.inj hstep
      apply hx.of_subset
      intro p
      cases p with
      | groupBy => exact List.filter_subset_self _
      | _ => exact List.Subset.refl _
    · exact Except.ok.inj hstep ▸ hx
  · obtain rfl := Except.ok.inj hstep
    apply hx.of_subset
    intro p
    cases p with
    | filters => exact List.filter_subset_self _
    | _ => exact List.Subset.refl _
  · unfold Pipeline.nullifyTotals at hstep
    split at hstep
    · obtain rfl := Except.ok.inj hstep
      apply hx.mapFormulas
      intro p f
      split
      · exact (Formula.Reduced.literal .null f.notes).asRegular
      · exact .refl f
    · exact Except.ok.inj hstep ▸ hx

theorem Query.Regular.simplified (h : q.Regular)
    (hordering : ∀ o ∈ ordering, o.Regular ∧ o.Forkless)
    (hq : q.simplified s ordering = .ok q') : q'.Regular :=
  foldlM_invariant (I := fun _ x => x.Regular)
    (fun _ _ hstage _ _ hx hstep => hx.stage hordering hstage hstep) [] h hq

end Stages

end FormulaSql
