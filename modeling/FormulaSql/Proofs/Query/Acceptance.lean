import FormulaSql.Proofs.Query.BoundFields
import FormulaSql.Proofs.Query.ForkDimensions
import FormulaSql.Proofs.Query.Grouping

/-!
# What the check says of a prepared query

Aggregations are checked before a query is prepared. What is made of a formula then has a value for
each row or for each group if the formula had one, as long as no lookup becomes a fork and no
dimension is torn apart. Operators are what is torn apart by simplification, so that dimensions
without operators are safe.

* `Formula.KeepsGrouping` is kept by all rules, see `Formula.keepsGrouping_transform`
* `Query.Accepted.process` says that a query that passes the check still passes it when prepared
* `QuerySpec.accepted_of_compile` says so of what is asked for
-/

namespace FormulaSql

namespace Formula

/-- Columns, constants and functions of them that are computed row by row, without any operator. -/
structure Elementary (f : Formula) : Prop where
  inert : f.Inert
  operatorless : f.All fun g => g.isOperator = false

instance (f : Formula) : Decidable f.Elementary :=
  decidable_of_iff (f.Inert ∧ ∀ g ∈ f.nodes, g.isOperator = false)
    ⟨fun h => ⟨h.1, h.2⟩, fun h => ⟨h.inert, h.operatorless⟩⟩

section Elementary

variable {dims : List Formula} {f g c : Formula}

theorem isOperator_eq_of_same (h : (f == g) = true) : f.isOperator = g.isOperator := by
  refine eq_of_same isOperator (fun x => ?_) h
  rw [isOperator, isOperator, call?, call?]
  cases x.kind <;> rfl

theorem Elementary.of_same (hsame : (f == g) = true) (h : f.Elementary) : g.Elementary := by
  refine ⟨h.inert.of_same hsame, fun y hy => ?_⟩
  obtain ⟨x, hx, hxy⟩ := exists_node_of_same (same_symm hsame) hy
  exact (isOperator_eq_of_same hxy).trans (h.operatorless x hx)

theorem Elementary.of_child (h : f.Elementary) (hc : c ∈ f.children) : c.Elementary :=
  ⟨h.inert.of_child hc, All.of_child h.operatorless hc⟩

theorem Elementary.not_isOperator (h : f.Elementary) : f.isOperator = false :=
  h.operatorless f (self_mem_nodes f)

theorem Elementary.not_gathers (h : f.Elementary) : f.gathers = false := by
  rw [gathers, Bool.or_eq_false_iff, Bool.or_eq_false_iff, isWindowCall, h.inert.window?_eq_none]
  exact ⟨⟨h.inert.forkless.not_isFork, rfl⟩, h.inert.unaggregated f (self_mem_nodes f)⟩

theorem elementary_of_contains (hdims : ∀ d ∈ dims, d.Elementary) (h : dims.contains f = true) :
    f.Elementary := by
  obtain ⟨d, hd, hsame⟩ := contains_eq_true.mp h
  exact (hdims d hd).of_same (same_symm hsame)

theorem not_elementary_of_gathers (h : f.gathers = true) : ¬ f.Elementary :=
  fun hf => absurd (h.symm.trans hf.not_gathers) (by simp)

theorem not_elementary_of_isOperator (h : f.isOperator = true) : ¬ f.Elementary :=
  fun hf => absurd (h.symm.trans hf.not_isOperator) (by simp)

theorem not_contains_of_not_elementary (hdims : ∀ d ∈ dims, d.Elementary) (hf : ¬ f.Elementary) :
    dims.contains f = false :=
  Bool.eq_false_iff.mpr fun hcontains => hf (elementary_of_contains hdims hcontains)

end Elementary

/-! ## What simplification offers -/

section Offers

variable {above : List Formula} {f : Formula} {dialect : Dialects}

theorem kind_ne_binary (h : f.isOperator = false) (op : String) (l r : Formula) :
    f.kind ≠ .binary op l r := by
  intro hk
  simp [isOperator, hk, isOperation] at h

theorem name_of_not_isOperator {c : Call Formula} (h : f.isOperator = false)
    (hk : f.kind = .call c) : c.name.toLower ∉ ["if", "case", "isnull"] := by
  intro hname
  rw [isOperator, call?, hk, Option.any_some, List.contains_iff_mem.mpr hname, Bool.or_true] at h
  exact absurd h (by simp)

theorem not_tested (h : f.isOperator = false) : Simplify.test dialect above f = none := by
  cases hc : f.call? with
  | none => rw [Simplify.test, hc]; rfl
  | some c =>
      have hk := kind_of_call? hc
      refine (test_eq_none hk).mpr fun _ _ _ _ => constantTest?_eq_none fun heq => ?_
      exact name_of_not_isOperator h hk (by simp [heq])

theorem not_pruned (h : f.isOperator = false) :
    Simplify.conditional above f = none := by
  unfold Simplify.conditional
  split
  next c hk =>
    have hname := name_of_not_isOperator h hk
    split
    next heq => exact absurd heq fun heq => hname (by simp [heq])
    next heq => exact absurd heq fun heq => hname (by simp [heq])
    next => rfl
  next hk => simp [isOperator, hk, isOperation] at h
  next hk => simp [isOperator, hk, isOperation] at h
  next => rfl

/-- Simplification has nothing to do with elementary formulas. -/
theorem Elementary.not_offered (h : f.Elementary) :
    ∀ rule ∈ Simplify.filterRules dialect, rule above f = none := by
  have hbinary := kind_ne_binary h.not_isOperator
  have hdouble : Simplify.doubleAggregation above f = none := by
    apply Option.eq_none_iff_forall_ne_some.mpr
    intro r hr
    obtain ⟨c, hc, hr⟩ := Option.bind_eq_some_iff.mp hr
    split at hr
    next x hargs =>
      obtain ⟨inner, -, hr⟩ := Option.bind_eq_some_iff.mp hr
      have hx : x ∈ f.nodes :=
        mem_nodes_of_surface (mem_surface_of_arg (kind_of_call? hc) (by simp [hargs]))
      simp [h.inert.unaggregated x hx] at hr
    next => exact absurd hr (by simp)
  simp only [Simplify.filterRules, Simplify.rules, List.forall_mem_cons]
  refine ⟨?_, ?_, hdouble, ?_, ?_, not_tested h.not_isOperator,
    not_pruned h.not_isOperator, fun _ h => absurd h List.not_mem_nil⟩
  · unfold Simplify.zeroOne
    split
    next hk => exact absurd hk (hbinary _ _ _)
    next => rfl
  · unfold Simplify.arithmetic
    split
    next hk => exact absurd hk (hbinary _ _ _)
    next => rfl
  · unfold Simplify.comparison
    split
    next hk => exact absurd hk (hbinary _ _ _)
    next => rfl
  · unfold Simplify.connective
    split
    next hk => exact absurd hk (hbinary _ _ _)
    next => rfl

end Offers

/-! ## Formulas that stand to the grouping as before -/

/-- The second formula has a value for each row or group if the first one has, and elementary
formulas stay as they are. -/
structure KeepsGrouping (dims : List Formula) (f g : Formula) : Prop where
  elementary : f.Elementary → g = f
  row : f.PerRow dims → g.PerRow dims
  group : f.PerGroup dims → g.PerGroup dims

section KeepsGrouping

variable {dims above : List Formula} {f g h r : Formula} {rule : Rule} {rules : List Rule}

theorem KeepsGrouping.refl (dims : List Formula) (f : Formula) : KeepsGrouping dims f f :=
  ⟨fun _ => rfl, id, id⟩

theorem KeepsGrouping.trans (hfg : KeepsGrouping dims f g) (hgh : KeepsGrouping dims g h) :
    KeepsGrouping dims f h where
  elementary hf := by
    have hg := hfg.elementary hf
    exact (hgh.elementary (hg ▸ hf)).trans hg
  row := hgh.row ∘ hfg.row
  group := hgh.group ∘ hfg.group

theorem keepsGrouping_withChildren (hdims : ∀ d ∈ dims, d.Elementary) (f : Formula)
    (cs : List Formula) (hcs : List.Forall₂ (KeepsGrouping dims) f.children cs) :
    KeepsGrouping dims f (f.withChildren cs) := by
  have hkept (hf : f.Elementary) : f.withChildren cs = f := by
    rw [eq_of_forall₂_kept (hcs.imp fun _ _ hcd => hcd.elementary) fun c hc => hf.of_child hc,
      withChildren_children]
  have hdim (hf : dims.contains f = true) : f.withChildren cs = f :=
    hkept (elementary_of_contains hdims hf)
  exact ⟨hkept, perRow_withChildren hdim (hcs.imp fun _ _ hcd => hcd.row),
    perGroup_withChildren hdim (hcs.imp fun _ _ hcd => ⟨hcd.row, hcd.group⟩)⟩

theorem keepsGrouping_transform (hdims : ∀ d ∈ dims, d.Elementary)
    (hrule : ∀ above f r, rule above f = some r → KeepsGrouping dims f r) (f : Formula) :
    KeepsGrouping dims f (f.transform rule) :=
  transform_rel (Q := fun _ => True) (fun _ _ _ _ => trivial) (fun f _ => .refl dims f)
    (fun f cs _ hcs => keepsGrouping_withChildren hdims f cs hcs)
    (fun above _ g r _ _ hfg hr => hfg.trans (hrule above g r hr)) trivial

theorem keepsGrouping_transformAll (hdims : ∀ d ∈ dims, d.Elementary)
    (hrules : ∀ rule ∈ rules, ∀ above f r, rule above f = some r → KeepsGrouping dims f r)
    (f : Formula) : KeepsGrouping dims f (f.transformAll rules) :=
  transformAll_rel (.refl dims) (fun _ _ _ => .trans)
    (fun rule hrule => keepsGrouping_transform hdims (hrules rule hrule)) f

/-! ## Rules -/

/-- Whatever is put in the place of a node that gathers rows should have a value for each group. -/
theorem keepsGrouping_of_gathers (hdims : ∀ d ∈ dims, d.Elementary) (hf : f.gathers = true)
    (hgroup : f.PerGroup dims → r.PerGroup dims) : KeepsGrouping dims f r where
  elementary helementary := absurd helementary (not_elementary_of_gathers hf)
  row hrow := by
    have hdim := not_contains_of_not_elementary hdims (not_elementary_of_gathers hf)
    obtain ⟨hnot, -⟩ := (perRow_iff_node hdim).mp hrow
    exact absurd (hf.symm.trans hnot) (by simp)
  group := hgroup

theorem gathers_of_isWindowCall (h : f.isWindowCall = true) : f.gathers = true := by
  rw [gathers, h, Bool.or_true, Bool.true_or]

theorem gathers_of_window {w : WindowCall Formula} (hw : f.window? = some w) :
    f.gathers = true :=
  gathers_of_isWindowCall (isWindowCall_of_window? hw)

theorem gathers_of_call {c : Call Formula} (hk : f.kind = .call c) :
    f.gathers = Function.isAggregate c.name := by
  rw [gathers, isFork_eq, isWindowCall, window?, isAggregateCall_of_kind hk, hk]
  rfl

theorem autonomous_of_window {w : WindowCall Formula} (hk : f.kind = .window w) :
    f.autonomous = w.args := by
  simp [autonomous, hk, Kind.autonomous, Kind.autonomousCount, Kind.children]

/-- A window call over the same. -/
theorem keepsGrouping_windowOver {w w' : WindowCall Formula} (hdims : ∀ d ∈ dims, d.Elementary)
    (hw : f.kind = .window w) (hr : r.kind = .window w') (hargs : w'.args = w.args) :
    KeepsGrouping dims f r := by
  have hwindow : f.isWindowCall = true := isWindowCall_of_window? (by rw [window?, hw])
  have hwindow' : r.isWindowCall = true := isWindowCall_of_window? (by rw [window?, hr])
  have hdim {g : Formula} (hg : g.isWindowCall = true) : dims.contains g = false :=
    not_contains_of_not_elementary hdims (not_elementary_of_gathers (gathers_of_isWindowCall hg))
  refine keepsGrouping_of_gathers hdims (gathers_of_isWindowCall hwindow) fun hgroup => ?_
  rw [perGroup_window_iff (hdim hwindow) hwindow, autonomous_of_window hw] at hgroup
  rwa [perGroup_window_iff (hdim hwindow') hwindow', autonomous_of_window hr, hargs]

theorem perGroup_of_isError (hr : r.isError = true) : r.PerGroup dims ∧ r.PerRow dims := by
  obtain ⟨message, code, hk⟩ := kind_of_isError hr
  have hgathers : r.gathers = false := by
    simp [gathers, isFork, fork?, isWindowCall, window?, isAggregateCall, call?, hk]
  have hnone : ∀ c ∈ r.autonomous, False := by
    simp [autonomous, hk, Kind.autonomous, Kind.autonomousCount, Kind.children]
  exact ⟨.node hgathers (by rw [field?, hk]) fun c hc => (hnone c hc).elim,
    .node hgathers fun c hc => (hnone c hc).elim⟩

theorem keepsGrouping_rewindowed {given : List Formula} (hdims : ∀ d ∈ dims, d.Elementary)
    (h : Normalize.Rewindowed given f r) : KeepsGrouping dims f r := by
  obtain ⟨w, w', hw, rfl, hargs, -⟩ := h
  exact keepsGrouping_windowOver hdims (kind_of_window? hw) rfl hargs

theorem keepsGrouping_laterFilters {available : NameSet} (hdims : ∀ d ∈ dims, d.Elementary)
    (hr : Normalize.laterFilters available above f = some r) : KeepsGrouping dims f r := by
  rcases Normalize.laterFilters_cases hr with ⟨w, filters, hk, rfl⟩ | ⟨q, filters, hk, rfl⟩
  · exact keepsGrouping_windowOver hdims hk rfl rfl
  · refine keepsGrouping_of_gathers hdims ?_ fun _ => .fork rfl
    rw [gathers, isFork_eq, hk]
    rfl

theorem keepsGrouping_windowForks {own : List Formula} (hdims : ∀ d ∈ dims, d.Elementary)
    (hr : Normalize.windowForks own above f = some r) : KeepsGrouping dims f r := by
  obtain ⟨w, hw, rfl⟩ := Normalize.windowForks_cases hr
  exact keepsGrouping_of_gathers hdims (gathers_of_window hw) fun _ => .fork rfl

theorem keepsGrouping_levelOfDetail {own : List Formula} (hdims : ∀ d ∈ dims, d.Elementary)
    (hr : Normalize.levelOfDetail own above f = some r) : KeepsGrouping dims f r := by
  obtain ⟨c, hk, haggregate, hr⟩ := Normalize.levelOfDetail_cases hr
  refine keepsGrouping_of_gathers hdims ?_ fun _ => ?_
  · rw [gathers_of_call hk, haggregate]
  · rcases hr with herror | rfl
    · exact (perGroup_of_isError herror).1
    · exact .fork rfl

theorem keepsGrouping_levelTags (hdims : ∀ d ∈ dims, d.Elementary)
    (hr : Normalize.levelTags above f = some r) : KeepsGrouping dims f r := by
  obtain ⟨w, notes, hw, rfl⟩ := Normalize.levelTags_cases hr
  refine keepsGrouping_of_gathers hdims (gathers_of_window hw) fun hgroup => .node rfl rfl ?_
  intro c hc
  obtain rfl : c = f := List.mem_singleton.mp hc
  exact hgroup

/-- The same call with other filters. -/
theorem keepsGrouping_lookupFilters (hdims : ∀ d ∈ dims, d.Elementary)
    (hr : Normalize.lookupFilters above f = some r) : KeepsGrouping dims f r := by
  obtain ⟨c, kind, hlookup, hcases⟩ := Normalize.lookupFilters_cases hr
  have hk := Normalize.lookup?_eq_some hlookup
  have hnot : ¬ f.Elementary := fun hf => by
    rw [hf.inert.lookup?_eq_none] at hlookup
    exact absurd hlookup (by simp)
  have hdim := not_contains_of_not_elementary hdims hnot
  rcases hcases with herror | ⟨filters, rfl⟩
  · obtain ⟨hgroup, hrow⟩ := perGroup_of_isError herror
    exact ⟨fun hf => absurd hf hnot, fun _ => hrow, fun _ => hgroup⟩
  · have hk' : (Formula.mk (.call { c with beforeFilterBy := filters }) f.notes).kind =
        .call { c with beforeFilterBy := filters } := rfl
    have hsame := (gathers_of_call hk).trans (gathers_of_call hk').symm
    have hargs := (autonomous_of_call hk').trans (autonomous_of_call hk).symm
    refine ⟨fun hf => absurd hf hnot, fun hrow => ?_, fun hgroup => ?_⟩
    · obtain ⟨hgathers, hbelow⟩ := (perRow_iff_node hdim).mp hrow
      exact .node (hsame ▸ hgathers) (hargs ▸ hbelow)
    · cases hgroup with
      | dimension hcontains => exact absurd (hdim.symm.trans hcontains) (by simp)
      | fork hfork => rw [isFork_eq, hk] at hfork; exact absurd hfork (by simp [isForkNode])
      | aggregate haggregate =>
          rw [isAggregateCall_of_kind hk] at haggregate
          exact .aggregate haggregate
      | window hwindow =>
          rw [isWindowCall, window?, hk] at hwindow
          exact absurd hwindow (by simp)
      | node hgathers _ hbelow => exact .node (hsame ▸ hgathers) rfl (hargs ▸ hbelow)

/-! ## Operands -/

theorem not_isAggregate_of_operator {name : String}
    (h : name.toLower ∈ ["if", "case", "isnull"]) : Function.isAggregate name = false := by
  have hall : ∀ d ∈ catalogue, d.isAggregate = true →
      d.name ∉ ["if", "case", "isnull"] := by
    decide +kernel
  refine List.any_eq_false.mpr fun d hd haggregate => ?_
  obtain ⟨hmem, hname, -⟩ := Function.mem_definitions.mp hd
  exact hall d hmem haggregate (hname ▸ h)

theorem not_gathers_of_isOperator (h : f.isOperator = true) : f.gathers = false := by
  rcases isOperator_cases h with h | ⟨c, hk, hname⟩
  · cases hk : f.kind with
    | binary | unary | ifBlock | caseBlock =>
        simp [gathers, isFork, fork?, isWindowCall, window?, isAggregateCall, call?, hk]
    | _ => rw [hk] at h; exact absurd h (by simp [isOperation])
  · exact (gathers_of_call hk).trans (not_isAggregate_of_operator hname)

theorem Operand.perRow (hdims : ∀ d ∈ dims, d.Elementary) (h : Operand f g)
    (hf : f.PerRow dims) : g.PerRow dims := by
  induction h with
  | self => exact hf
  | under _ hoperator hc ih =>
      have hdim :=
        not_contains_of_not_elementary hdims (not_elementary_of_isOperator hoperator)
      exact ((perRow_iff_node hdim).mp ih).2 _ hc

theorem Operand.perGroup (hdims : ∀ d ∈ dims, d.Elementary) (h : Operand f g)
    (hf : f.PerGroup dims) : g.PerGroup dims := by
  induction h with
  | self => exact hf
  | under _ hoperator hc ih =>
      have hdim :=
        not_contains_of_not_elementary hdims (not_elementary_of_isOperator hoperator)
      exact ((perGroup_iff_node hdim (not_gathers_of_isOperator hoperator)).mp ih).2 _ hc

/-- What holds of all operands holds of what is made of them, if it passes to nodes that do not
gather rows. -/
theorem Reduced.of_operands {P : Formula → Prop} (h : Reduced f r)
    (node : ∀ g : Formula, g.gathers = false → g.field? = none → (∀ c ∈ g.autonomous, P c) → P g)
    (operand : ∀ g, Operand f g → P g)
    (aggregation : ∀ c g, f.kind = .call c → g ∈ c.args → g.isAggregateCall = true → P g) :
    P r := by
  cases h with
  | literal v notes => exact node _ rfl rfl fun c hc => absurd hc List.not_mem_nil
  | part hg => exact operand r hg
  | aggregation hk hg haggregate => exact aggregation _ r hk hg haggregate
  | @operation k notes hk hcs =>
      have hoperator : (Formula.mk k notes).isOperator = true := by
        rw [isOperator, kind, hk, Bool.true_or]
      refine node _ (not_gathers_of_isOperator hoperator) ?_ fun c hc =>
        operand c (hcs c (mem_children_of_autonomous hc))
      cases k with
      | binary | unary | ifBlock | caseBlock => rfl
      | _ => exact absurd hk (by simp [isOperation])
  | @call c args hk hoperator hname hargs =>
      have hplain : Function.isAggregate c.name = false :=
        (gathers_of_call hk).symm.trans (not_gathers_of_isOperator hoperator)
      refine node _ hplain rfl fun x hx => operand x (hargs x ?_)
      rwa [autonomous_callWithArgs] at hx

theorem Reduced.keepsGrouping (hdims : ∀ d ∈ dims, d.Elementary) (hf : ¬ f.Elementary)
    (h : Reduced f r) : KeepsGrouping dims f r where
  elementary helementary := absurd helementary hf
  row hrow := by
    have hdim := not_contains_of_not_elementary hdims hf
    exact h.of_operands (fun _ hgathers _ => .node hgathers) (fun _ hg => hg.perRow hdims hrow)
      fun c g hk hg _ => ((perRow_iff_node hdim).mp hrow).2 g (autonomous_of_call hk ▸ hg)
  group hgroup := h.of_operands (fun _ => .node) (fun _ hg => hg.perGroup hdims hgroup)
    fun _ _ _ _ haggregate => .aggregate haggregate

theorem keepsGrouping_settle (hdims : ∀ d ∈ dims, d.Elementary) {dialect : Dialects}
    (hrules : rules ⊆ Simplify.filterRules dialect) (rounds : Nat) (f : Formula) :
    KeepsGrouping dims f (settle rules rounds f) := by
  refine settle_rel (.refl dims) (fun _ _ _ => .trans) (fun rule hrule =>
    keepsGrouping_transform hdims fun above g r hr => ?_) rounds f
  have hreduced := Simplify.filterRules_reduced rule (hrules hrule) above g r hr
  refine hreduced.keepsGrouping hdims fun hg => ?_
  rw [hg.not_offered rule (hrules hrule)] at hr
  exact absurd hr (by simp)

end KeepsGrouping

end Formula

/-! ## Stages -/

/-- Each formula of the second query stands to the grouping as one in the same part of the first
did, and the dimensions are the same. -/
structure Query.KeepsGrouping (q q' : Query) : Prop where
  type : q'.type = q.type
  dimensions : q'.dimensions = q.dimensions
  formula : ∀ part, ∀ e' ∈ q'.part part, ∃ e ∈ q.part part,
    e.formula.KeepsGrouping q.dimensions e'.formula

section Stages

variable {q q₀ q' : Query} {s : Settings} {ordering : List Formula} {rules : List Rule}

theorem Query.KeepsGrouping.trans {q'' : Query} (h : q.KeepsGrouping q')
    (h' : q'.KeepsGrouping q'') : q.KeepsGrouping q'' where
  type := h'.type.trans h.type
  dimensions := h'.dimensions.trans h.dimensions
  formula part e'' he'' := by
    obtain ⟨e', he', h'⟩ := h'.formula part e'' he''
    obtain ⟨e, he, hkeeps⟩ := h.formula part e' he'
    exact ⟨e, he, hkeeps.trans (h.dimensions ▸ h')⟩

theorem Query.KeepsGrouping.accepted (h : q.KeepsGrouping q') (hq : q.Accepted) :
    q'.Accepted := by
  have hitem {P : Formula → Prop} (hP : ∀ f g, f.KeepsGrouping q.dimensions g → P f → P g)
      (hall : ∀ e ∈ q.select ++ q.orderBy, P e.formula) :
      ∀ e ∈ q'.select ++ q'.orderBy, P e.formula := by
    rw [List.forall_mem_append] at hall ⊢
    refine ⟨fun e' he' => ?_, fun e' he' => ?_⟩
    · obtain ⟨e, he, hkeeps⟩ := h.formula .select e' he'
      exact hP _ _ hkeeps (hall.1 e he)
    · obtain ⟨e, he, hkeeps⟩ := h.formula .orderBy e' he'
      exact hP _ _ hkeeps (hall.2 e he)
  rw [Query.accepted_iff] at hq ⊢
  obtain ⟨hitems, hfilters⟩ := hq
  rw [h.dimensions]
  constructor
  · rcases hitems with hgroup | ⟨hnone, hrow⟩
    · exact Or.inl (hitem (fun _ _ hkeeps => hkeeps.group) hgroup)
    · exact Or.inr ⟨hnone, hitem (fun _ _ hkeeps => hnone ▸ hkeeps.row) hrow⟩
  · intro e' he'
    obtain ⟨e, he, hkeeps⟩ := h.formula .filters e' he'
    exact (hfilters e he).imp hkeeps.group hkeeps.row

theorem Query.keepsGrouping_mapFormulas {F : Part → Formula → Formula}
    (hdims : ∀ d ∈ q.dimensions, d.Elementary)
    (hF : ∀ part, ∀ e ∈ q.part part, e.formula.KeepsGrouping q.dimensions (F part e.formula)) :
    q.KeepsGrouping (q.mapFormulas F) where
  type := rfl
  dimensions := by
    refine congrArg (List.map Entry.formula) (Query.groupBy_mapFormulas fun d hd => ?_)
    obtain ⟨e, he, rfl⟩ := List.mem_map.mp hd
    exact (hF .groupBy e he).elementary (hdims _ hd)
  formula part e' he' := by
    rw [Query.part_mapFormulas] at he'
    obtain ⟨e, he, rfl⟩ := List.mem_map.mp he'
    refine ⟨e, he, ?_⟩
    rcases (mapEntry_formula (F part) e).2 with heq | heq
    · exact heq ▸ hF part e he
    · exact heq ▸ .refl _ _

theorem Query.keepsGrouping_prepare (hdims : ∀ d ∈ q.dimensions, d.Elementary)
    (h : Pipeline.prepare ordering q = .ok q') : q.KeepsGrouping q' := by
  obtain rfl := Except.ok.inj h
  refine Query.keepsGrouping_mapFormulas hdims fun part e _ =>
    Formula.keepsGrouping_transformAll hdims ?_ e.formula
  simp only [List.forall_mem_cons]
  refine ⟨fun _ _ _ hr => ?_, fun _ _ _ hr => ?_, fun _ _ _ hr => ?_, fun _ _ _ hr => ?_,
    fun _ h => absurd h List.not_mem_nil⟩
  · exact Formula.keepsGrouping_rewindowed hdims (Normalize.defaultOrdering_cases hr)
  · exact Formula.keepsGrouping_lookupFilters hdims hr
  · exact Formula.keepsGrouping_rewindowed hdims (Normalize.amongToWithin_cases hr)
  · exact Formula.keepsGrouping_rewindowed hdims (Normalize.dropExtraWithin_cases hr)

theorem Query.keepsGrouping_optimize (hdims : ∀ d ∈ q.dimensions, d.Elementary)
    (h : Pipeline.optimize s q = .ok q') : q.KeepsGrouping q' := by
  unfold Pipeline.optimize at h
  split at h
  next =>
    obtain rfl := Except.ok.inj h
    exact ⟨rfl, rfl, fun part e he => ⟨e, he, .refl _ _⟩⟩
  next =>
    obtain rfl := Except.ok.inj h
    refine Query.keepsGrouping_mapFormulas hdims fun part e _ => ?_
    split
    · exact Formula.keepsGrouping_settle hdims (List.Subset.refl _) _ _
    · exact Formula.keepsGrouping_settle hdims (List.subset_cons_self _ _) _ _

theorem Query.keepsGrouping_dropTrueFilters (h : Pipeline.dropTrueFilters q = .ok q') :
    q.KeepsGrouping q' := by
  obtain rfl := Except.ok.inj h
  refine ⟨rfl, rfl, fun part e he => ⟨e, ?_, .refl _ _⟩⟩
  cases part with
  | filters => exact (List.mem_filter.mp he).1
  | _ => exact he

/-- Simplifying a query that is not one of totals. -/
theorem Query.keepsGrouping_simplified (hdims : ∀ d ∈ q.dimensions, d.Elementary)
    (htype : q.type ≠ .totals) (h : q.simplified s ordering = .ok q') : q.KeepsGrouping q' := by
  rw [Query.simplified, Pipeline.simplifying] at h
  obtain ⟨q₁, h₁, h⟩ := bind_eq_ok.mp h
  obtain ⟨q₂, h₂, h⟩ := bind_eq_ok.mp h
  obtain ⟨q₃, h₃, h⟩ := bind_eq_ok.mp h
  obtain ⟨q₄, h₄, h⟩ := bind_eq_ok.mp h
  obtain ⟨q₅, h₅, h⟩ := bind_eq_ok.mp h
  obtain rfl := Except.ok.inj h
  dsimp only at h₃ h₅
  have hprepared := Query.keepsGrouping_prepare hdims h₁
  have hoptimized := Query.keepsGrouping_optimize (hprepared.dimensions ▸ hdims) h₂
  rw [dropConstantGroups_eq_self] at h₃
  obtain rfl := Except.ok.inj h₃
  have hkeeps := (hprepared.trans hoptimized).trans (Query.keepsGrouping_dropTrueFilters h₄)
  rw [nullifyTotals_eq_self fun htotals => absurd (hkeeps.type.symm.trans htotals) htype] at h₅
  exact Except.ok.inj h₅ ▸ hkeeps

/-- Making forks in a query that looks nothing up. -/
theorem Query.keepsGrouping_makeForks (hdims : ∀ d ∈ q.dimensions, d.Elementary)
    (hlookup : q.Calls Head.NoLookup) (h : Pipeline.makeForks s q = .ok q') :
    q.KeepsGrouping q' := by
  rw [makeForks_rules h]
  refine Query.keepsGrouping_mapFormulas hdims fun part e he => ?_
  rw [Formula.transformAll, List.foldl_append, List.foldl_append]
  have hlooked : (if q.anyFormula Formula.containsLookup
      then [Normalize.lookups q.dimensions s.allowEmptyDimensions] else []).foldl
        (fun f rule => f.transform rule) e.formula = e.formula := by
    refine Formula.transformAll_eq_self fun rule hrule => ?_
    rw [mem_of_mem_ite hrule]
    exact Formula.rests_lookups (hlookup part e he)
  rw [hlooked]
  refine (Formula.keepsGrouping_transformAll hdims (fun rule hrule above f r hr => ?_) _).trans
    (Formula.keepsGrouping_transformAll hdims (fun rule hrule above f r hr => ?_) _)
  · rw [mem_of_mem_ite hrule] at hr
    exact Formula.keepsGrouping_levelOfDetail hdims hr
  · rw [mem_of_mem_ite hrule] at hr
    exact Formula.keepsGrouping_windowForks hdims hr

theorem Query.keepsGrouping_applyRule (rule : Rule) (hdims : ∀ d ∈ q.dimensions, d.Elementary)
    (hrule : ∀ above f r, rule above f = some r → f.KeepsGrouping q.dimensions r) :
    q.KeepsGrouping (Pipeline.applyRules q [rule]) :=
  Query.keepsGrouping_mapFormulas hdims fun _ e _ =>
    Formula.keepsGrouping_transformAll hdims (List.forall_mem_singleton.mpr hrule) e.formula

/-- A query with elementary dimensions that looks nothing up still passes the check when it is
prepared. -/
theorem Query.Accepted.process (hq : q.Accepted) (hdims : ∀ d ∈ q.dimensions, d.Elementary)
    (htype : q.type ≠ .totals) (hlookup : q.Calls Head.NoLookup)
    (hordering : ∀ o ∈ ordering, o.Calls Head.NoLookup) (h : q.process s ordering = .ok q') :
    q'.Accepted := by
  rw [Query.process_eq] at h
  obtain ⟨q₀, h₀, h⟩ := bind_eq_ok.mp h
  obtain ⟨q₁, h₁, h⟩ := bind_eq_ok.mp h
  obtain ⟨q₂, h₂, h₃⟩ := bind_eq_ok.mp h
  obtain ⟨q₃, hq₃, hsimplified⟩ := Query.asCalls_simplified Head.mild_noLookup h₀
  have hlevels : q.LevelsCall Head.NoLookup :=
    ⟨hlookup.dimension, fun part _ e he => (hlookup part e he).levels⟩
  have hcalls := hsimplified.calls ((asCalls_prepare hlevels hordering hq₃).calls hlookup)
  have hkeeps₀ := Query.keepsGrouping_simplified hdims htype h₀
  have hkeeps₁ := hkeeps₀.trans
    (Query.keepsGrouping_makeForks (hkeeps₀.dimensions ▸ hdims) hcalls h₁)
  obtain rfl := Except.ok.inj h₂
  obtain rfl := Except.ok.inj h₃
  have hdims₁ := hkeeps₁.dimensions ▸ hdims
  have hkeeps₂ := hkeeps₁.trans (Query.keepsGrouping_applyRule
    (Normalize.laterFilters q₁.filterIds) hdims₁ fun _ _ _ =>
      Formula.keepsGrouping_laterFilters hdims₁)
  have hdims₂ := hkeeps₂.dimensions ▸ hdims
  exact (hkeeps₂.trans (Query.keepsGrouping_applyRule Normalize.levelTags hdims₂ fun _ _ _ =>
    Formula.keepsGrouping_levelTags hdims₂)).accepted hq

end Stages

/-! ## What is asked for -/

/-- The query that is asked for is grouped by elementary formulas only and looks nothing up. -/
structure QuerySpec.IsDirect (spec : QuerySpec) : Prop where
  dimension : ∀ item ∈ spec.groupBy, item.formula.Elementary
  lookup : ∀ f ∈ spec.formulas ++ spec.defaultOrdering, f.containsLookup = false

instance (spec : QuerySpec) : Decidable spec.IsDirect :=
  decidable_of_iff ((∀ item ∈ spec.groupBy, item.formula.Elementary) ∧
      ∀ f ∈ spec.formulas ++ spec.defaultOrdering, f.containsLookup = false)
    ⟨fun h => ⟨h.1, h.2⟩, fun h => ⟨h.dimension, h.lookup⟩⟩

/-- The check that is made when a query is compiled still holds of the prepared query. -/
theorem QuerySpec.accepted_of_compile {spec : QuerySpec} {r : Registry} {s : Settings} {q : Query}
    (h : spec.compile r s = .ok q) (htype : spec.type ≠ .totals) (hdirect : spec.IsDirect) :
    q.Accepted := by
  obtain ⟨herrors, sources, -, hprocess⟩ := QuerySpec.compile_eq_ok h
  have hbuilt : (Compile.build r spec).Accepted := by
    have hnot : ((Compile.build r spec).type == .totals) = false := beq_eq_false_iff_ne.mpr htype
    have hnil := eq_nil_of_eraseDups herrors
    rw [hnot] at hnil
    exact List.append_eq_nil_iff.mp (List.append_eq_nil_iff.mp hnil).2
  have hdims : ∀ d ∈ (Compile.build r spec).dimensions, d.Elementary := by
    have hformulas : (Compile.build r spec).dimensions =
        (spec.groupBy.map (Compile.entryFor r)).map Entry.formula :=
      Compile.assignAliases_formulas _ _ _
    rw [hformulas, List.map_map]
    exact List.forall_mem_map.mpr hdirect.dimension
  have hlookup : (Compile.build r spec).Calls Head.NoLookup := by
    intro p e he
    obtain ⟨f, hf, hnode⟩ := Compile.exists_formula_of_build he
    exact Formula.All.of_node (Formula.calls_noLookup_of_containsLookup
      (hdirect.lookup f (List.mem_append_left _ hf))) hnode
  exact Query.Accepted.process (q := { Compile.build r spec with sources }) hbuilt hdims htype
    hlookup (fun o ho => Formula.calls_noLookup_of_containsLookup
      (hdirect.lookup o (List.mem_append_right _ ho))) hprocess

end FormulaSql
