import FormulaSql.Proofs.Split.Fields

/-!
# When all forks are cut

Splitting goes on while some query holds a fork in any position, but a round only finds forks at
expressions of their own. A fork in the level of detail of a call, in the grouping or the ordering
of a window call or under a direction is concealed from it. A query whose forks are all concealed
ends the run and keeps them.

Where no fork is concealed at the start, none is ever: rounds take nodes as they are, drop levels of
detail and put in columns, and the only other thing they put into a formula, the target of a shift,
holds no fork itself. The same goes for any other positions in which there are no forks at the
start, as long as the targets of shifts are among them.

* `Split.RoundOf.clearIn` says what a round keeps free of forks
* `QuerySpec.compileMulti_forks` says when forks are left
-/

namespace FormulaSql

namespace Kind

variable {α β : Type}

/-- The number of children, counted from the first, that a round finds or takes apart. -/
def exposedCount : Kind α → Nat
  | call c => c.args.length
  | window w => w.args.length
  | ordered _ _ => 0
  | fork q => 1 + (q.joining.flatMap JoinCondition.parts).length + q.lod.dims.length
  | k => k.children.length

/-- The children in which a fork is concealed. -/
def concealed (k : Kind α) : List α := k.children.drop k.exposedCount

theorem exposedCount_map (f : α → β) (k : Kind α) : (k.map f).exposedCount = k.exposedCount := by
  have hlen : (k.map f).children.length = k.children.length := by
    rw [children_map, List.length_map]
  have hlod (l : Lod α) : (l.map f).dims.length = l.dims.length := by
    cases l <;> simp [Lod.map, Lod.dims, Lod.withDims]
  have hjoin (j : JoinCondition α) : (j.map f).parts.length = j.parts.length := by cases j <;> rfl
  cases k with
  | call c | window w => exact List.length_map f
  | ordered e d => rfl
  | fork q => simp [map, exposedCount, hlod, hjoin, List.flatMap_map, List.length_flatMap]
  | _ => exact hlen

theorem exposedCount_withChildren (k : Kind α) (cs : List α) :
    (k.withChildren cs).exposedCount = k.exposedCount := by
  have h := congrArg exposedCount (outline_withChildren k cs)
  rwa [outline, outline, exposedCount_map, exposedCount_map] at h

/-- At a node that is no fork, the search goes through all children in which no fork is
concealed. -/
theorem exposedCount_eq_autonomousCount {k : Kind Formula} (h : Formula.isForkNode k = false) :
    k.exposedCount = k.autonomousCount := by
  cases k with
  | fork q => exact absurd h (by simp [Formula.isForkNode])
  | _ => rfl

end Kind

namespace Formula

def concealed (f : Formula) : List Formula := f.kind.concealed

/-- No fork is concealed anywhere in the formula. -/
def Exposed (f : Formula) : Prop := ∀ g ∈ f.nodes, ∀ c ∈ g.concealed, c.containsFork = false

instance (f : Formula) : Decidable f.Exposed :=
  inferInstanceAs (Decidable (∀ g ∈ f.nodes, ∀ c ∈ g.concealed, c.containsFork = false))

/-- No fork is in the children that `pick` takes, at any node of the formula. -/
def ClearIn (pick : Formula → List Formula) (f : Formula) : Prop :=
  ∀ g ∈ f.nodes, ∀ c ∈ pick g, c.containsFork = false

instance (pick : Formula → List Formula) (f : Formula) : Decidable (f.ClearIn pick) :=
  inferInstanceAs (Decidable (∀ g ∈ f.nodes, ∀ c ∈ pick g, c.containsFork = false))

theorem mem_children_of_concealed {f c : Formula} (h : c ∈ f.concealed) : c ∈ f.children :=
  List.mem_of_mem_drop h

/-- Children are picked by their positions, among them the parts of shifts; a call that loses its
level of detail has no others. -/
structure Positional (pick : Formula → List Formula) : Prop where
  child : ∀ f, pick f ⊆ f.children
  withChildren : ∀ (R : Formula → Formula → Prop) f cs, List.Forall₂ R f.children cs →
    List.Forall₂ R (pick f) (pick (f.withChildren cs))
  plain : ∀ f, pick (Split.plainAggregate f) ⊆ pick f
  shift : ∀ f q, f.fork? = some q → ∀ s ∈ q.shifts, s.target ∈ pick f

theorem concealed_of_fork? {f : Formula} {q : Fork Formula} (h : f.fork? = some q) :
    f.concealed = q.shifts.flatMap FilterShift.parts := by
  rw [concealed, kind_of_fork? h, Kind.concealed, Kind.exposedCount, Kind.children]
  refine List.drop_left' ?_
  simp only [List.length_append, List.length_cons]
  omega

theorem forall₂_concealed {R : Formula → Formula → Prop} {f : Formula} {cs : List Formula}
    (h : List.Forall₂ R f.children cs) :
    List.Forall₂ R f.concealed (f.withChildren cs).concealed := by
  have hconcealed : (f.withChildren cs).concealed = cs.drop f.kind.exposedCount := by
    rw [← Kind.exposedCount_withChildren f.kind cs]
    exact congrArg _ (children_withChildren f cs h.length_eq.symm)
  rw [hconcealed]
  exact List.forall₂_drop _ h

theorem positional_concealed : Positional concealed where
  child f c hc := mem_children_of_concealed hc
  withChildren _ _ _ h := forall₂_concealed h
  plain f := by
    rcases Split.plainAggregate_cases f with heq | ⟨name, args, -, hkind, -⟩
    · rw [heq]
      exact List.Subset.refl _
    · rw [concealed, hkind]
      simp [Kind.concealed, Kind.children, Kind.exposedCount, Lod.dims]
  shift f q hq s hs := by
    rw [concealed_of_fork? hq]
    exact List.mem_flatMap.mpr ⟨s, hs, by simp [FilterShift.parts]⟩

section ClearIn

variable {pick : Formula → List Formula} {f g : Formula}

theorem clearIn_iff :
    f.ClearIn pick ↔
      (∀ c ∈ pick f, c.containsFork = false) ∧ ∀ c ∈ f.children, c.ClearIn pick :=
  forall_mem_nodes_iff

theorem ClearIn.of_node (hf : f.ClearIn pick) (hg : g ∈ f.nodes) : g.ClearIn pick :=
  fun x hx => hf x (mem_nodes_trans hg hx)

theorem exposed_iff :
    f.Exposed ↔ (∀ c ∈ f.concealed, c.containsFork = false) ∧ ∀ c ∈ f.children, c.Exposed :=
  clearIn_iff

end ClearIn

theorem not_containsFork_iff {f : Formula} :
    f.containsFork = false ↔ f.isFork = false ∧ ∀ c ∈ f.children, c.containsFork = false := by
  rw [← Bool.not_eq_true, containsFork_iff]
  simp

theorem Positional.clearIn_of_not_containsFork {pick : Formula → List Formula}
    (hpick : Positional pick) {f : Formula} (h : f.containsFork = false) : f.ClearIn pick := by
  intro g hg c hc
  rw [← Bool.not_eq_true]
  intro hfork
  have hcg := mem_nodes_of_child (hpick.child g hc) (self_mem_nodes c)
  exact absurd (containsFork_of_node (mem_nodes_trans hg hcg) hfork) (by simp [h])

/-- An exposed formula with a fork has one that the search finds. -/
theorem Exposed.outermostForks_ne_nil {f : Formula} (hf : f.Exposed)
    (hfork : f.containsFork = true) : f.outermostForks ≠ [] := by
  induction f using induction_children with
  | step f ih =>
      cases hk : f.fork? with
      | some q => exact List.ne_nil_of_mem (mem_outermostForks_iff.mpr (Or.inl ⟨rfl, hk⟩))
      | none =>
          have hnot := not_isFork_of_fork? hk
          rcases containsFork_iff.mp hfork with h | ⟨c, hc, hcfork⟩
          · exact absurd h (by simp [hnot])
          · obtain ⟨i, hi⟩ := List.mem_iff_getElem?.mp hc
            have hlt : i < f.kind.autonomousCount := by
              by_contra hge
              have hcount : f.kind.exposedCount = f.kind.autonomousCount :=
                Kind.exposedCount_eq_autonomousCount (isFork_eq f ▸ hnot)
              have hmem : c ∈ f.concealed := by
                refine List.mem_iff_getElem?.mpr ⟨i - f.kind.exposedCount, ?_⟩
                rw [concealed, Kind.concealed, List.getElem?_drop,
                  Nat.add_sub_cancel' (by omega)]
                exact hi
              exact absurd ((exposed_iff.mp hf).1 c hmem) (by simp [hcfork])
            obtain ⟨⟨p, q⟩, hmem⟩ :=
              List.exists_mem_of_ne_nil _ (ih c hc ((exposed_iff.mp hf).2 c hc) hcfork)
            exact List.ne_nil_of_mem (mem_outermostForks_iff.mpr
              (Or.inr ⟨hk, i, c, p, autonomous_getElem?.mpr ⟨hlt, hi⟩, rfl, hmem⟩))

/-! ## Rewriting -/

section Rewriting

variable {pick : Formula → List Formula} {f : Formula}

/-- The second formula is as free of forks as the first. -/
def AsClear (pick : Formula → List Formula) (f g : Formula) : Prop :=
  (f.containsFork = false → g.containsFork = false) ∧ (f.ClearIn pick → g.ClearIn pick)

theorem AsClear.of_not_containsFork (hpick : Positional pick) (f : Formula) {g : Formula}
    (h : g.containsFork = false) : AsClear pick f g :=
  ⟨fun _ => h, fun _ => hpick.clearIn_of_not_containsFork h⟩

theorem asClear_withChildren (hpick : Positional pick) (f : Formula) (cs : List Formula)
    (h : List.Forall₂ (AsClear pick) f.children cs) : AsClear pick f (f.withChildren cs) := by
  have hchildren := children_withChildren f cs h.length_eq.symm
  refine ⟨fun hf => ?_, fun hf => ?_⟩
  · obtain ⟨hown, hcs⟩ := not_containsFork_iff.mp hf
    refine not_containsFork_iff.mpr ⟨(isFork_withChildren f cs).trans hown, fun d hd => ?_⟩
    obtain ⟨c, hc, hcd⟩ := forall₂_exists_left h (hchildren ▸ hd)
    exact hcd.1 (hcs c hc)
  · obtain ⟨hown, hcs⟩ := clearIn_iff.mp hf
    refine clearIn_iff.mpr ⟨fun d hd => ?_, fun d hd => ?_⟩
    · obtain ⟨c, hc, hcd⟩ := forall₂_exists_left (hpick.withChildren _ f cs h) hd
      exact hcd.1 (hown c hc)
    · obtain ⟨c, hc, hcd⟩ := forall₂_exists_left h (hchildren ▸ hd)
      exact hcd.2 (hcs c hc)

theorem ClearIn.transform (hf : f.ClearIn pick) (hpick : Positional pick) {rule : Rule}
    (hrule : ∀ above g r, rule above g = some r → r.containsFork = false) :
    (f.transform rule).ClearIn pick := by
  have hrel : AsClear pick f (f.transform rule) := by
    refine transform_rel (Q := fun _ => True) (fun _ _ _ _ => trivial) ?_ ?_ ?_ trivial
    · exact fun f _ => ⟨fun h => h, fun h => h⟩
    · exact fun f cs _ hcs => asClear_withChildren hpick f cs hcs
    · exact fun above f g r _ _ _ hr => .of_not_containsFork hpick f (hrule above g r hr)
  exact hrel.2 hf

theorem ClearIn.replaceAt? (hf : f.ClearIn pick) (hpick : Positional pick) {r g : Formula}
    {p : Path} (hr : r.containsFork = false) (h : f.replaceAt? r p = some g) : g.ClearIn pick := by
  have hrel : AsClear pick f g := replaceAt?_rel (fun f => ⟨fun h => h, fun h => h⟩)
    (asClear_withChildren hpick) (fun x _ => .of_not_containsFork hpick x hr) h
  exact hrel.2 hf

end Rewriting

end Formula

/-- No fork is concealed in a selected expression, a dimension, a filter or an ordering. -/
def Query.Exposed (q : Query) : Prop :=
  ∀ p ∈ Part.all, p ≠ .joinOn → ∀ e ∈ q.part p, e.formula.Exposed

instance (q : Query) : Decidable q.Exposed :=
  inferInstanceAs (Decidable
    (∀ p ∈ Part.all, p ≠ .joinOn → ∀ e ∈ q.part p, e.formula.Exposed))

/-- No fork is in what `pick` takes from the nodes of selected expressions, dimensions, filters and
orderings. -/
def Query.ClearIn (pick : Formula → List Formula) (q : Query) : Prop :=
  ∀ p ∈ Part.all, p ≠ .joinOn → ∀ e ∈ q.part p, e.formula.ClearIn pick

instance (pick : Formula → List Formula) (q : Query) : Decidable (q.ClearIn pick) :=
  inferInstanceAs (Decidable
    (∀ p ∈ Part.all, p ≠ .joinOn → ∀ e ∈ q.part p, e.formula.ClearIn pick))

theorem Query.ClearIn.of_node {pick : Formula → List Formula} {q : Query} {f : Formula}
    (hq : q.ClearIn pick) (hf : q.HasNode f) : f.ClearIn pick := by
  obtain ⟨p, hp, e, he, hf⟩ := hf
  exact (hq p (Part.mem_all p) hp e he).of_node hf

/-- Every fork of the query is concealed from the search. -/
def Query.ForksConcealed (q : Query) : Prop :=
  ∀ p ∈ Part.splittable, ∀ e ∈ q.part p, e.formula.outermostForks = []

theorem Query.containsFork_iff {q : Query} :
    q.containsFork = true ↔
      ∃ p ∈ Part.splittable, ∃ e ∈ q.part p, e.formula.containsFork = true := by
  simp only [containsFork, List.any_eq_true]

namespace Split

theorem sites_eq_nil_iff {q : Query} : sites q = [] ↔ q.ForksConcealed := by
  constructor
  · intro hnil p hp e he
    obtain ⟨i, hi⟩ := List.mem_iff_getElem?.mp he
    refine List.eq_nil_iff_forall_not_mem.mpr fun ⟨path, fork⟩ hmem => ?_
    have hsite : ⟨p, i, path, fork, fork.beforeFilterBy.filter q.filterIds.contains⟩ ∈ sites q :=
      mem_sites_iff.mpr ⟨hp, e, hi, hmem, rfl⟩
    exact absurd (hnil ▸ hsite) List.not_mem_nil
  · intro h
    refine List.eq_nil_iff_forall_not_mem.mpr fun s hs => ?_
    obtain ⟨hp, e, he, hmem, -⟩ := mem_sites_iff.mp hs
    rw [h s.part hp e (List.mem_of_getElem? he)] at hmem
    exact absurd hmem List.not_mem_nil

/-- In an exposed query every fork can be taken sooner or later. -/
theorem sites_ne_nil {q : Query} (hq : q.Exposed) (hfork : q.containsFork = true) :
    sites q ≠ [] := by
  obtain ⟨p, hp, e, he, hcontains⟩ := Query.containsFork_iff.mp hfork
  intro hnil
  have hexposed := hq p (Part.mem_all p) (Part.ne_joinOn_of_splittable hp) e he
  exact hexposed.outermostForks_ne_nil hcontains (sites_eq_nil_iff.mp hnil p hp e he)

/-! ## What a round keeps free of forks -/

theorem not_containsFork_field (n : String) : (Formula.field n).containsFork = false := rfl

theorem not_containsFork_columnAt (f : Formula) (n : String) :
    (columnAt f n).containsFork = false :=
  Formula.not_containsFork_iff.mpr ⟨rfl, fun _ hc => absurd hc List.not_mem_nil⟩

section Clear

variable {pick : Formula → List Formula} (hpick : Formula.Positional pick) {q : Query} {f : Formula}
include hpick

theorem clearIn_withColumns {alias? : Formula → Option String} (hf : f.ClearIn pick) :
    (withColumns alias? f).ClearIn pick := by
  refine hf.transform hpick fun above g r hr => ?_
  obtain ⟨n, -, rfl⟩ := Option.map_eq_some_iff.mp hr
  exact not_containsFork_columnAt g n

theorem clearIn_replaceCuts {cuts : List Cut} {g : Formula} (hf : f.ClearIn pick)
    (h : replaceCuts q cuts f = .ok g) : g.ClearIn pick := by
  induction cuts generalizing f with
  | nil => exact Except.ok.inj h ▸ hf
  | cons c cs ih =>
      obtain ⟨f', hf', h⟩ := replaceCuts_cons h
      exact ih (hf.replaceAt? hpick (not_containsFork_field _) hf') h

theorem clearIn_shiftFormula {shifts : List (FilterShift Formula)}
    (hshifts : ∀ s ∈ shifts, s.target.containsFork = false) (hf : f.ClearIn pick) :
    (shiftFormula shifts f).ClearIn pick := by
  rw [shiftFormula]
  induction shifts generalizing f with
  | nil => exact hf
  | cons s ss ih =>
      refine ih (fun t ht => hshifts t (List.mem_cons_of_mem s ht)) (hf.transform hpick ?_)
      intro above g r hr
      rw [Formula.replaceRule] at hr
      split at hr
      · exact Option.some.inj hr ▸ hshifts s List.mem_cons_self
      · exact absurd hr (by simp)

theorem clearIn_plainAggregate (hf : f.ClearIn pick) : (plainAggregate f).ClearIn pick := by
  rcases plainAggregate_cases f with heq | ⟨name, args, hargs, -, hchildren⟩
  · rwa [heq]
  · obtain ⟨hown, hcs⟩ := Formula.clearIn_iff.mp hf
    exact Formula.clearIn_iff.mpr ⟨fun c hc => hown c (hpick.plain f hc),
      fun c hc => hcs c (hargs (hchildren ▸ hc))⟩

theorem not_containsFork_shift (hq : q.ClearIn pick) {s : Site} (hs : s ∈ sites q)
    {t : FilterShift Formula} (ht : t ∈ s.fork.shifts) : t.target.containsFork = false := by
  obtain ⟨hp, e, he, hmem, -⟩ := mem_sites_iff.mp hs
  obtain ⟨f, hf, hfork⟩ := Formula.at?_of_mem_outermostForks hmem
  have hclear := (hq s.part (Part.mem_all _) (Part.ne_joinOn_of_splittable hp) e
    (List.mem_of_getElem? he)).of_node (Formula.mem_nodes_of_at? hf)
  exact (Formula.clearIn_iff.mp hclear).1 t.target (hpick.shift f s.fork hfork t ht)

theorem Derived.clearIn (hq : q.ClearIn pick) (h : Derived q f) : f.ClearIn pick := by
  cases h with
  | drawn hf =>
      rcases hf with rfl | hf
      · exact hpick.clearIn_of_not_containsFork rfl
      · exact hq.of_node hf
  | plain hf => exact clearIn_plainAggregate hpick (hq.of_node hf)
  | shifted he hs =>
      have hfilter := hq.of_node (hasNode_of_part (p := .filters) (by simp) he)
      exact clearIn_shiftFormula hpick (fun t ht => not_containsFork_shift hpick hq hs ht) hfilter

theorem Cropped.clearIn {base : Mask} {cuts : List Cut} {compatible : Bool} {p : Part} {e : Entry}
    (he : e.formula.ClearIn pick) (h : Cropped q base cuts compatible p e f) : f.ClearIn pick := by
  cases h with
  | constant => exact he
  | dimension => exact hpick.clearIn_of_not_containsFork (not_containsFork_columnAt _ _)
  | incompatible => exact hpick.clearIn_of_not_containsFork rfl
  | cut _ _ _ hg =>
      have hcut := clearIn_replaceCuts hpick he hg
      split
      · exact clearIn_withColumns hpick hcut
      · exact hcut

/-- What is free of forks in a query is so in the queries of a round over it. -/
theorem RoundOf.clearIn {c : Query} {p : Plan} {subs : List Query} {a b : Names}
    (h : RoundOf q p subs c) (hp : MasksOf q a b p.masks) (hq : q.ClearIn pick) :
    ∀ s ∈ subs ++ [c], s.ClearIn pick := by
  intro s hs part _ hpart e he
  rcases List.mem_append.mp hs with hs | hs
  · obtain ⟨m, hm, hsub⟩ := forall₂_exists_left h.subqueries hs
    exact (hsub.derived (hp.mask m hm) hpart he).clearIn hpick hq
  · obtain rfl := List.mem_singleton.mp hs
    obtain ⟨base, others, -, -, hcropped, -⟩ := h.cropped
    obtain ⟨e₀, i, he₀, -, hcrop⟩ := hcropped.origin hpart he
    have hold := hq part (Part.mem_all part) hpart e₀ (List.mem_of_getElem? he₀)
    exact (cropEntry_some hcrop).1.clearIn hpick hold

end Clear

/-! ## The end of a run -/

/-- A run ends without forks or at a query whose forks are all concealed. -/
theorem Run.settled {a : Names} {qs out : List Query} {done : List Round}
    (h : Run a qs done out) :
    (∀ q ∈ out, q.containsFork = false) ∨
      ∃ q ∈ out, q.containsFork = true ∧ q.ForksConcealed := by
  induction h with
  | whole hnone => exact Or.inl hnone
  | stuck _ hfork hsites =>
      exact Or.inr ⟨_, by simp, hfork, sites_eq_nil_iff.mp hsites⟩
  | cut _ _ _ _ _ ih => exact ih

theorem Run.exposed {a : Names} {qs out : List Query} {done : List Round} (h : Run a qs done out)
    (hqs : ∀ q ∈ qs, q.Exposed) : ∀ q ∈ qs ++ done.flatMap Round.queries, q.Exposed := by
  refine h.all_made hqs fun d hd hexposed x hx => ?_
  obtain ⟨a, b, subs, c, hplanned, hround, hqueries⟩ := h.planned d hd
  exact hround.clearIn Formula.positional_concealed hplanned.masks hexposed x (hqueries ▸ hx)

/-- A query whose forks are all concealed is never cut. -/
theorem Run.keeps_concealed {a : Names} {qs out : List Query} {done : List Round} {x : Query}
    (h : Run a qs done out) (hx : x ∈ qs) (hconcealed : x.ForksConcealed) : x ∈ out := by
  induction h with
  | whole => exact hx
  | stuck => exact hx
  | @cut a b before after new out q p rest _ _ hplan _ _ ih =>
      refine ih ?_
      rcases List.mem_append.mp hx with hx | hx
      · simp [hx]
      · rcases List.mem_cons.mp hx with rfl | hx
        · have hnone : (plan x a).1 = none :=
            plan_eq_none_iff.mpr (sites_eq_nil_iff.mpr hconcealed)
          rw [hplan] at hnone
          exact absurd hnone (by simp)
        · simp [hx]

/-- The result of a run is made of the queries at its start and those that its rounds make. -/
theorem Run.mem_made {a : Names} {qs out : List Query} {done : List Round} {x : Query}
    (h : Run a qs done out) (hx : x ∈ out) : x ∈ qs ++ done.flatMap Round.queries := by
  induction h with
  | whole | stuck => exact List.mem_append_left _ hx
  | cut _ _ _ _ _ ih =>
      have hmem := ih hx
      simp only [List.flatMap_cons, List.mem_append, List.mem_cons] at hmem ⊢
      tauto

/-- A query that comes up in a run and conceals all its forks is left in the end. -/
theorem Run.keeps_made {a : Names} {qs out : List Query} {done : List Round} {x : Query}
    (h : Run a qs done out) (hx : x ∈ qs ++ done.flatMap Round.queries)
    (hconcealed : x.ForksConcealed) : x ∈ out := by
  induction h with
  | whole | stuck => simpa using hx
  | cut hbefore hfork hplan hqueries hrest ih =>
      rcases List.mem_append.mp hx with hx | hx
      · exact (Run.cut hbefore hfork hplan hqueries hrest).keeps_concealed hx hconcealed
      · refine ih ?_
        simp only [List.flatMap_cons, List.mem_append] at hx ⊢
        tauto

end Split

open Split in
/-- Forks are left in the compiled queries exactly if the run of rounds comes to a query of which
all forks are concealed. That never happens if the query to be split conceals none. -/
theorem QuerySpec.compileMulti_forks {spec : QuerySpec} {r : Registry} {s : Settings}
    {m : MultiQuery} (h : spec.compileMulti r s = .ok m) :
    ∃ q done, spec.compile r s = .ok q ∧ Run .start [q] done m.queries ∧
      ((∃ x ∈ m.queries, x.containsFork = true) ↔
        ∃ x ∈ q :: done.flatMap Round.queries, x.containsFork = true ∧ x.ForksConcealed) ∧
      (q.Exposed → ∀ x ∈ m.queries, x.containsFork = false) := by
  obtain ⟨q, hq, hsplit⟩ := bind_eq_ok.mp h
  obtain ⟨⟨done, hrun⟩, -⟩ := split_run hsplit
  refine ⟨q, done, hq, hrun, ⟨?_, ?_⟩, fun hexposed x hx => ?_⟩
  · rintro ⟨x, hx, hfork⟩
    rcases hrun.settled with hnone | ⟨y, hy, hstuck⟩
    · exact absurd (hnone x hx) (by simp [hfork])
    · exact ⟨y, hrun.mem_made hy, hstuck⟩
  · rintro ⟨x, hx, hfork, hconcealed⟩
    exact ⟨x, hrun.keeps_made hx hconcealed, hfork⟩
  · have hall := hrun.exposed fun y hy => List.mem_singleton.mp hy ▸ hexposed
    rcases hrun.settled with hnone | ⟨y, hy, hfork, hconcealed⟩
    · exact hnone x hx
    · have hsites := sites_ne_nil (hall y (hrun.mem_made hy)) hfork
      exact absurd (sites_eq_nil_iff.mpr hconcealed) hsites

/-- The running total of the sales of each city, in some order of the cities. -/
def runningTotal (ordering : List Formula) : QuerySpec :=
  Split.figureBy "city" (.window "rsum" [Split.sumOfSales] .total ordering NameSet.empty)

theorem QuerySpec.compileMulti_forks_runningTotal :
    ∃ m, (runningTotal [.field "city"]).compileMulti Split.orders .default = .ok m ∧
      ∀ x ∈ m.queries, x.containsFork = false := by
  have hok : (((runningTotal [.field "city"]).compileMulti Split.orders .default).toOption.any
      fun m => m.queries.length == 2) = true := by decide +kernel
  have hexposed : (((runningTotal [.field "city"]).compile Split.orders .default).toOption.any
      fun q => decide q.Exposed) = true := by decide +kernel
  obtain ⟨m, hm, -⟩ := exists_eq_ok hok
  obtain ⟨q, done, hq, -, -, hnone⟩ := QuerySpec.compileMulti_forks hm
  rw [hq] at hexposed
  exact ⟨m, hm, hnone (of_decide_eq_true hexposed)⟩

/-- An aggregation at its own level of detail in the ordering of a window call stays a fork. -/
theorem QuerySpec.compileMulti_keeps_fork :
    ∃ m, (runningTotal [.callWith "sum" [.field "sales"] (.fixed [.field "city"])
        NameSet.empty]).compileMulti Split.orders .default = .ok m ∧
      ∃ x ∈ m.queries, x.containsFork = true := by
  have hfork : (((runningTotal [.callWith "sum" [.field "sales"] (.fixed [.field "city"])
      NameSet.empty]).compileMulti Split.orders .default).toOption.any
        fun m => m.queries.any Query.containsFork) = true := by decide +kernel
  obtain ⟨m, hm, hany⟩ := exists_eq_ok hfork
  exact ⟨m, hm, List.any_eq_true.mp hany⟩

end FormulaSql
