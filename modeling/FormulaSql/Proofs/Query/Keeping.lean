import FormulaSql.Proofs.Query.AggregationForks
import FormulaSql.Proofs.Query.Heads

/-!
# What stays through the making of forks

The rules that make forks, move filters and tag window calls can only do a few things to a node.
What they bring in are forks, parentheses and errors, and formulas that have been somewhere else in
the query before. So a property of nodes stays true of all nodes if it stays true of a node whose
children are replaced.

* `Formula.Offer` is what these rules can do to a node
* `Formula.kept_transform` goes with one of them through a formula
-/

namespace FormulaSql

namespace Formula

/-! ## What is offered -/

/-- What the rules that make forks and tags offer for the node `g`. An aggregation gets a fork only
where `levels` holds. All of a new fork but its result is flat and made of nodes with the property
`P`. -/
inductive Offer (P : Formula → Prop) (levels : Prop) (g : Formula) : Formula → Prop where
  | error {r : Formula} {c : Call Formula} (h : r.isError = true) (hk : g.kind = .call c)
      (hname : Function.isAggregate c.name = true → levels) : Offer P levels g r
  /-- A window call becomes the result of a fork. -/
  | window {q : Fork Formula} {notes : Notes} (hwindow : g.isWindowCall = true)
      (hresult : q.result = g) (hrest : ∀ d ∈ (Kind.fork q).children.tail, d.Flat ∧ d.All P) :
      Offer P levels g (mk (.fork q) notes)
  /-- One of the arguments of a lookup becomes the result of a fork. -/
  | lookup {q : Fork Formula} {notes : Notes} {c : Call Formula} (hk : g.kind = .call c)
      (hname : Function.isAggregate c.name = false) (hresult : q.result ∈ c.args)
      (hrest : ∀ d ∈ (Kind.fork q).children.tail, d.Flat ∧ d.All P) :
      Offer P levels g (mk (.fork q) notes)
  /-- An aggregation becomes the result of a fork and gives up its level of detail. -/
  | level {q : Fork Formula} {notes : Notes} {c : Call Formula} (h : levels)
      (hk : g.kind = .call c) (hname : Function.isAggregate c.name = true)
      (hresult : q.result = mk (.call { c with lod := .inherited }) g.notes)
      (hrest : ∀ d ∈ (Kind.fork q).children.tail, d.Flat ∧ d.All P) :
      Offer P levels g (mk (.fork q) notes)
  | windowFilters {w : WindowCall Formula} {filters : NameSet} (hk : g.kind = .window w) :
      Offer P levels g (mk (.window { w with beforeFilterBy := filters }) g.notes)
  | forkFilters {q : Fork Formula} {filters : NameSet} (hk : g.kind = .fork q) :
      Offer P levels g (mk (.fork { q with beforeFilterBy := filters }) g.notes)
  /-- A window call is put into a parenthesis. -/
  | tag {notes : Notes} (hwindow : g.isWindowCall = true) : Offer P levels g (mk (.paren g) notes)

/-- The property holds of all nodes that the rules make themselves. -/
structure Lenient (P : Formula → Prop) (levels : Prop) : Prop where
  error : ∀ f : Formula, f.isError = true → P f
  fork : ∀ q notes, P (mk (.fork q) notes)
  paren : ∀ e notes, P (mk (.paren e) notes)
  shift : ∀ name ∈ ["dateadd", "day"], ∀ args, P (call name args)
  filters : ∀ w notes filters, P (mk (.window w) notes) →
    P (mk (.window { w with beforeFilterBy := filters }) notes)
  level : levels → ∀ c notes, P (mk (.call c) notes) →
    P (mk (.call { c with lod := .inherited }) notes)

end Formula

/-- The rule offers nothing else, from formulas that have the property in all their nodes. -/
def Rule.Offers (P : Formula → Prop) (levels : Prop) (rule : Rule) : Prop :=
  ∀ above g r, (∀ a ∈ above, a.Regular ∧ a.All P) → g.Regular → g.All P → rule above g = some r →
    g.Offer P levels r

/-- The rule has nothing to do with formulas that have the property, flat ones among them. -/
structure Rule.PassesOver (K : Formula → Prop) (rule : Rule) : Prop where
  flat : ∀ f : Formula, f.Flat → K f
  below : ∀ f : Formula, K f → ∀ c ∈ f.children, K c
  skips : ∀ above f, K f → rule above f = none

namespace Formula

section Rules

variable {P : Formula → Prop} {levels : Prop} {dims : List Formula}

theorem forall_context (hdims : ∀ d ∈ dims, d.Flat ∧ d.All P) {above : List Formula}
    (habove : ∀ a ∈ above, a.Regular ∧ a.All P) :
    ∀ d ∈ contextDimensions dims above, d.Flat ∧ d.All P := by
  intro d hd
  refine ⟨flat_contextDimensions (fun d hd => (hdims d hd).1) (fun a ha => (habove a ha).1) d hd, ?_⟩
  refine forall_contextDimensions (P := All P) (fun d hd => (hdims d hd).2) ?_ d hd
  intro a ha l hl d hd
  exact (habove a ha).2.of_child (mem_children_of_named (mem_named_of_lod? hl hd))

theorem offers_windowForks (hdims : ∀ d ∈ dims, d.Flat ∧ d.All P) :
    Rule.Offers P levels (Normalize.windowForks dims) := by
  intro above g r _ _ _ hr
  obtain ⟨w, hw, rfl⟩ := Normalize.windowForks_cases hr
  refine .window (isWindowCall_of_window? hw) rfl fun d hd => ?_
  rw [Normalize.children_forkAt, List.tail_cons, List.mem_append] at hd
  exact hdims d (hd.elim id id)

theorem offers_laterFilters (available : NameSet) :
    Rule.Offers P levels (Normalize.laterFilters available) := by
  intro above g r _ _ _ hr
  rcases Normalize.laterFilters_cases hr with ⟨w, filters, hk, rfl⟩ | ⟨q, filters, hk, rfl⟩
  · exact .windowFilters hk
  · exact .forkFilters hk

theorem offers_levelTags : Rule.Offers P levels Normalize.levelTags := by
  intro above g r _ _ _ hr
  obtain ⟨w, notes, hw, rfl⟩ := Normalize.levelTags_cases hr
  exact .tag (isWindowCall_of_window? hw)

theorem offers_levelOfDetail (hdims : ∀ d ∈ dims, d.Flat ∧ d.All P) :
    Rule.Offers P True (Normalize.levelOfDetail dims) := by
  intro above g r habove hg hall hr
  obtain ⟨c, hk, hname, herror | rfl⟩ := Normalize.levelOfDetail_cases hr
  · exact .error herror hk fun _ => trivial
  · have hcontext := forall_context hdims habove
    have hown : ∀ d ∈ c.lod.resolve (contextDimensions dims above), d.Flat ∧ d.All P := by
      apply forall_resolve hcontext
      intro d hd
      refine ⟨hg.flat_dims hk hname d hd, hall.of_child ?_⟩
      rw [children, hk]
      simp [Kind.children, hd]
    refine .level trivial hk hname rfl fun d hd => ?_
    rw [Normalize.children_forkAt, List.tail_cons, List.mem_append] at hd
    rcases hd with hd | hd
    · exact hown d (List.mem_filter.mp hd).1
    · exact hown d hd

theorem offers_lookups {allowEmpty : Bool} (hP : Lenient P levels)
    (hdims : ∀ d ∈ dims, d.Flat ∧ d.All P) :
    Rule.Offers P levels (Normalize.lookups dims allowEmpty) := by
  intro above g r habove hg hall hr
  obtain ⟨c, lookupKind, hlookup, herror | ⟨measure, dimension, rest, hargs, rfl⟩⟩ :=
    Normalize.lookups_cases hr
  · refine .error herror (Normalize.lookup?_eq_some hlookup) fun hname => ?_
    exact absurd hname (by simp [not_isAggregateCall_of_lookup? hlookup])
  · have hk := Normalize.lookup?_eq_some hlookup
    have hflat := hg.flat_rest hlookup hargs
    have hparts : ∀ x ∈ dimension :: rest, x.Flat ∧ x.All P := by
      intro x hx
      refine ⟨hflat x hx, hall.of_child ?_⟩
      rw [children, hk]
      simp only [Kind.children, hargs, List.mem_append]
      exact Or.inl (Or.inl (List.mem_cons_of_mem measure hx))
    rw [List.forall_mem_cons] at hparts
    refine .lookup hk (not_isAggregateCall_of_lookup? hlookup) (by simp [hargs]) fun d hd => ?_
    simp only [Kind.children, Lod.dims, List.append_nil, List.cons_append, List.tail_cons] at hd
    refine Normalize.forall_sides_lookupFork (P := fun x => x.Flat ∧ x.All P)
      (fun name hname args hargs => ⟨flat_call hname fun x hx => (hargs x hx).1, ?_⟩)
      (forall_context hdims habove) hparts.1 hparts.2 d hd
    refine all_iff.mpr ⟨hP.shift name hname args, fun x hx => (hargs x ?_).2⟩
    simpa [call, callWith, of, children, kind, Kind.children, Lod.dims] using hx

end Rules

theorem not_isAggregateCall_of_isWindowCall {f : Formula} (h : f.isWindowCall = true) :
    f.isAggregateCall = false := by
  obtain ⟨w, hw⟩ := Option.isSome_iff_exists.mp h
  rw [isAggregateCall, call?, kind_of_window? hw]

section Offer

variable {P : Formula → Prop} {levels : Prop} {g r : Formula}

theorem Offer.all (hP : Lenient P levels) (h : Offer P levels g r) (hg : g.All P) : r.All P := by
  have hfork {q : Fork Formula} {notes : Notes} (hresult : q.result.All P)
      (hrest : ∀ d ∈ (Kind.fork q).children.tail, d.Flat ∧ d.All P) :
      (mk (.fork q) notes).All P := by
    refine all_iff.mpr ⟨hP.fork q notes, fun d hd => ?_⟩
    rcases List.mem_cons.mp hd with rfl | hd
    · exact hresult
    · exact (hrest d hd).2
  have hroot := hg g (self_mem_nodes g)
  rw [← mk_kind_notes g] at hroot
  cases h with
  | error herror =>
      obtain ⟨message, code, hk⟩ := kind_of_isError herror
      refine all_iff.mpr ⟨hP.error r herror, fun d hd => ?_⟩
      rw [children, hk] at hd
      exact absurd hd List.not_mem_nil
  | window _ hresult hrest => exact hfork (hresult ▸ hg) hrest
  | lookup hk _ hresult hrest =>
      refine hfork (hg.of_child ?_) hrest
      rw [children, hk]
      simp [Kind.children, hresult]
  | @level q _ c hlevels hk _ hresult hrest =>
      refine hfork ?_ hrest
      rw [hk] at hroot
      rw [hresult]
      exact all_iff.mpr ⟨hP.level hlevels c _ hroot, fun x hx =>
        hg.of_child (Normalize.mem_children_of_inherited hk hx)⟩
  | @windowFilters w filters hk =>
      rw [hk] at hroot
      refine all_iff.mpr ⟨hP.filters w _ filters hroot, fun x hx => hg.of_child ?_⟩
      rw [children, hk]
      exact hx
  | @forkFilters q filters hk =>
      refine all_iff.mpr ⟨hP.fork _ _, fun x hx => hg.of_child ?_⟩
      rw [children, hk]
      exact hx
  | tag =>
      refine all_iff.mpr ⟨hP.paren g _, fun x hx => ?_⟩
      exact List.mem_singleton.mp hx ▸ hg

theorem lenient_noWindow : Lenient (fun g => Head.NoWindow g.kind.head) levels where
  error f h := by
    obtain ⟨message, code, hk⟩ := kind_of_isError h
    rw [hk]
    exact trivial
  fork _ _ := trivial
  paren _ _ := trivial
  shift _ _ _ := trivial
  filters _ _ _ h := h
  level _ _ _ _ := trivial

theorem calls_noWindow_of_flat {f : Formula} (h : f.Flat) : f.Calls Head.NoWindow := by
  intro g hg
  have hrow : g.kind.isRowwise = true := h g hg
  show Head.NoWindow g.kind.head
  cases hk : g.kind with
  | window w =>
      rw [hk] at hrow
      exact absurd hrow (by simp [Kind.isRowwise])
  | _ => exact trivial

/-- Only what has window calls gets new ones. -/
theorem Offer.windowless (h : Offer P levels g r) (hg : g.Calls Head.NoWindow) :
    r.Calls Head.NoWindow := by
  have hflat {q : Fork Formula} (hrest : ∀ d ∈ (Kind.fork q).children.tail, d.Flat ∧ d.All P) :
      ∀ d ∈ (Kind.fork q).children.tail, d.Flat ∧ d.Calls Head.NoWindow :=
    fun d hd => ⟨(hrest d hd).1, calls_noWindow_of_flat (hrest d hd).1⟩
  have hoffer : Offer (fun g => Head.NoWindow g.kind.head) levels g r := by
    cases h with
    | error h hk hname => exact .error h hk hname
    | window hwindow hresult hrest => exact .window hwindow hresult (hflat hrest)
    | lookup hk hname hresult hrest => exact .lookup hk hname hresult (hflat hrest)
    | level h hk hname hresult hrest => exact .level h hk hname hresult (hflat hrest)
    | windowFilters hk => exact .windowFilters hk
    | forkFilters hk => exact .forkFilters hk
    | tag hwindow => exact .tag hwindow
  exact hoffer.all lenient_noWindow hg

theorem extendedSearch_fork {q : Fork Formula} {notes : Notes} (nested inside : Bool) :
    (mk (.fork q) notes).extendedSearch nested inside = q.result.extendedSearch nested inside := by
  rw [extendedSearch_eq]
  simp [isExtendedCall, isAggregateCall, call?, kind, autonomous, Kind.autonomous, Kind.children,
    Kind.autonomousCount]

theorem extendedSearch_call {f : Formula} {c : Call Formula} {nested inside : Bool}
    (hk : f.kind = .call c) :
    f.extendedSearch nested inside =
      ((Function.isAggregate c.name && (!c.lod.isInherited || !c.beforeFilterBy.isEmpty)) ||
        (Function.isAggregate c.name && nested && inside) ||
        c.args.any fun x => x.extendedSearch nested (inside || Function.isAggregate c.name)) := by
  have hauto : f.autonomous = c.args := by
    rw [autonomous, hk]
    simp [Kind.autonomous, Kind.children, Kind.autonomousCount, List.append_assoc]
  rw [extendedSearch_eq, hauto, isExtendedCall, isAggregateCall_of_kind hk, call?, hk]

theorem extendedSearch_window {f : Formula} {w : WindowCall Formula} {nested inside : Bool}
    (hk : f.kind = .window w) :
    f.extendedSearch nested inside = w.args.any fun x => x.extendedSearch nested inside := by
  have hauto : f.autonomous = w.args := by
    rw [autonomous, hk]
    simp [Kind.autonomous, Kind.children, Kind.autonomousCount, List.append_assoc]
  rw [extendedSearch_eq, hauto, isExtendedCall, isAggregateCall, call?, hk]
  simp

/-- There are no more extended aggregations to be found than before. -/
theorem Offer.search (h : Offer P levels g r) {nested inside : Bool}
    (hr : r.extendedSearch nested inside = true) : g.extendedSearch nested inside = true := by
  cases h with
  | error herror =>
      obtain ⟨message, code, hk⟩ := kind_of_isError herror
      rw [extendedSearch_eq] at hr
      simp [isExtendedCall, isAggregateCall, call?, hk, autonomous, Kind.autonomous,
        Kind.children] at hr
  | window _ hresult _ =>
      rwa [extendedSearch_fork, hresult] at hr
  | @lookup q _ c hk hname hresult _ =>
      rw [extendedSearch_fork] at hr
      rw [extendedSearch_call hk, hname, Bool.or_false, Bool.or_eq_true]
      exact Or.inr (List.any_eq_true.mpr ⟨q.result, hresult, hr⟩)
  | @level q _ c _ hk hname hresult _ =>
      rw [extendedSearch_fork, hresult] at hr
      rw [extendedSearch_call rfl] at hr
      rw [extendedSearch_call hk]
      simp only [Lod.isInherited, Bool.not_true, Bool.false_or, Bool.or_eq_true,
        Bool.and_eq_true] at hr ⊢
      exact hr.imp_left (Or.imp_left (And.imp_right Or.inr))
  | @windowFilters w filters hk =>
      rw [extendedSearch_window rfl] at hr
      rwa [extendedSearch_window hk]
  | @forkFilters q filters hk =>
      rw [extendedSearch_fork] at hr
      rw [← mk_kind_notes g, hk, extendedSearch_fork]
      exact hr
  | tag =>
      rw [extendedSearch_eq] at hr
      simpa [isExtendedCall, isAggregateCall, call?, kind, autonomous, Kind.autonomous,
        Kind.children, Kind.autonomousCount] using hr

end Offer

/-! ## What stays -/

section Kept

variable {β : Type} {K P : Formula → Prop} {V : Formula → β} {levels : Prop} {rule : Rule}
  {f g r : Formula} {cs : List Formula}

/-- What a node is and shows after a rule has gone over it. What the rule has nothing to do with is
still the same, and there are no window calls and no aggregations to be found that were not there
before. -/
structure Kept (K : Formula → Prop) (V : Formula → β) (f g : Formula) : Prop where
  regular : g.Regular
  steady : K f → g = f
  view : V g = V f
  windowless : f.Calls Head.NoWindow → g.Calls Head.NoWindow
  search : ∀ inside, g.extendedSearch true inside = true → f.extendedSearch true inside = true

theorem Kept.passes (flat : ∀ f, f.Flat → K f) (h : Kept K V f g) : Passes f g :=
  ⟨h.regular, fun hf => h.steady (flat f hf)⟩

theorem eq_of_kept {xs ys : List Formula} (h : List.Forall₂ (Kept K V) xs ys)
    (hK : ∀ x ∈ xs, K x) : ys = xs := by
  induction h with
  | nil => rfl
  | cons hxy _ ih =>
      rw [List.forall_mem_cons] at hK
      rw [hxy.steady hK.1, ih hK.2]

theorem isExtendedCall_eq_of_outline (h : f.kind.outline = g.kind.outline) :
    f.isExtendedCall = g.isExtendedCall := by
  refine eq_of_outline isExtendedCall (fun x => ?_) h
  rw [isExtendedCall, isExtendedCall, isAggregateCall, isAggregateCall, call?, call?]
  cases x.kind with
  | call c => cases hlod : c.lod <;> simp [filled, Kind.outline, Kind.map, hlod] <;> rfl
  | _ => rfl

theorem extendedSearch_withChildren {nested inside : Bool}
    (hcs : List.Forall₂ (fun c d => ∀ inside, d.extendedSearch nested inside = true →
      c.extendedSearch nested inside = true) f.children cs)
    (h : (f.withChildren cs).extendedSearch nested inside = true) :
    f.extendedSearch nested inside = true := by
  have houtline := outline_withChildren f cs
  rw [extendedSearch_eq, isExtendedCall_eq_of_outline houtline,
    isAggregateCall_eq_of_outline houtline, Bool.or_eq_true] at h
  rw [extendedSearch_eq, Bool.or_eq_true]
  refine h.imp_right fun hany => ?_
  obtain ⟨d, hd, hsearch⟩ := List.any_eq_true.mp hany
  rw [autonomous, Kind.autonomous, Kind.autonomousCount_eq_of_outline houtline] at hd
  obtain ⟨c, hc, hcd⟩ := forall₂_exists_left
    (List.forall₂_take f.kind.autonomousCount (forall₂_withChildren hcs)) hd
  exact List.any_eq_true.mpr ⟨c, hc, hcd _ hsearch⟩

/-- Something to be seen of a node that does not depend on its children. It is the same of what
rules offer for a node. -/
structure Shown (V : Formula → β) (levels : Prop) : Prop where
  outline : ∀ f g : Formula, f.kind.outline = g.kind.outline → V f = V g
  offer : ∀ P g r, Offer P levels g r → V r = V g

theorem kept_withChildren (hK : rule.PassesOver K) (hV : Shown V levels) (hf : f.Regular)
    (hcs : List.Forall₂ (Kept K V) f.children cs) : Kept K V f (f.withChildren cs) where
  regular := (passes_withChildren hf (hcs.imp fun _ _ h => h.passes hK.flat)).regular
  steady h := by rw [eq_of_kept hcs (hK.below f h), withChildren_children]
  view := hV.outline _ _ (outline_withChildren f cs)
  windowless h := h.withChildren (hcs.imp fun _ _ h => h.windowless)
  search _ := extendedSearch_withChildren (hcs.imp fun _ _ h => h.search)

theorem Kept.step {above : List Formula} (hrule : rule.KeepsFlat) (hK : rule.PassesOver K)
    (hV : Shown V levels) (habove : ∀ a ∈ above, a.Regular) (h : Kept K V f g)
    (hr : rule above g = some r) (hoffer : Offer P levels g r) : Kept K V f r where
  regular := hrule.regular above g r habove h.regular hr
  steady hf := by
    rw [h.steady hf, hK.skips above f hf] at hr
    exact absurd hr (by simp)
  view := (hV.offer P g r hoffer).trans h.view
  windowless hf := hoffer.windowless (h.windowless hf)
  search inside hsearch := h.search inside (hoffer.search hsearch)

/-- A property of nodes stays if it does at a node whose children have been replaced. -/
theorem kept_transform (hrule : rule.KeepsFlat) (hoffers : rule.Offers P levels)
    (hP : Lenient P levels) (hK : rule.PassesOver K) (hV : Shown V levels)
    (node : ∀ f cs, P f → List.Forall₂ (Kept K V) f.children cs → P (f.withChildren cs))
    (hf : f.Regular) (hall : f.All P) :
    Kept K V f (f.transform rule) ∧ (f.transform rule).All P := by
  refine transform_rel (Q := fun f => f.Regular ∧ f.All P)
    (R := fun f g => Kept K V f g ∧ g.All P) ?_ ?_ ?_ ?_ ⟨hf, hall⟩
  · exact fun f hf c hc => ⟨hf.1.of_child hc, hf.2.of_child hc⟩
  · exact fun f hf => ⟨⟨hf.1, fun _ => rfl, rfl, id, fun _ => id⟩, hf.2⟩
  · intro f cs hf hcs
    have hkept := hcs.imp fun _ _ h => h.1
    refine ⟨kept_withChildren hK hV hf.1 hkept, ?_⟩
    exact hf.2.withChildren (node f cs (hf.2 f (self_mem_nodes f)) hkept)
      (hcs.imp fun _ _ h _ => h.2)
  · intro above f g r habove hf hfg hr
    have hoffer := hoffers above g r habove hfg.1.regular hfg.2 hr
    exact ⟨hfg.1.step hrule hK hV (fun a ha => (habove a ha).1) hr hoffer, hoffer.all hP hfg.2⟩

end Kept

end Formula

end FormulaSql
