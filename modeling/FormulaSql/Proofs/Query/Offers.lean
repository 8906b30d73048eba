import FormulaSql.Proofs.Formula.Rewriting
import FormulaSql.Proofs.Simplify.Branches
import FormulaSql.Query.Pipeline

/-!
# What rules offer

A rule looks at a node and the nodes above it and may offer another node. For each rule there is one
lemma here that says what this can be, and what is shown elsewhere about the rules starts from it:

* `Normalize.lookups_cases`, `Normalize.levelOfDetail_cases` and `Normalize.windowForks_cases` for
  the rules that make forks
* `Simplify.rules_reduced` for the rules that simplify: what they offer is made of operands of the
  node
-/

namespace FormulaSql

section Nodes

variable {f : Formula}

theorem kind_of_literal? {v : Literal} (h : f.literal? = some v) : f.kind = .literal v := by
  rw [Formula.literal?] at h
  split at h
  next w hk => exact hk.trans (congrArg Kind.literal (Option.some.inj h))
  next => exact absurd h (by simp)

theorem kind_of_call? {c : Call Formula} (h : f.call? = some c) : f.kind = .call c := by
  rw [Formula.call?] at h
  split at h
  next c' hk => exact hk.trans (congrArg Kind.call (Option.some.inj h))
  next => exact absurd h (by simp)

theorem kind_of_window? {w : WindowCall Formula} (h : f.window? = some w) :
    f.kind = .window w := by
  rw [Formula.window?] at h
  split at h
  next w' hk => exact hk.trans (congrArg Kind.window (Option.some.inj h))
  next => exact absurd h (by simp)

end Nodes

namespace Formula

variable {f c : Formula}

theorem mem_nodes_of_kind {k : Kind Formula} (hk : f.kind = k) (hc : c ∈ k.children) :
    c ∈ f.nodes := by
  subst hk
  exact mem_nodes_of_child hc (self_mem_nodes c)

theorem isAggregateCall_of_kind {c : Call Formula} (hk : f.kind = .call c) :
    f.isAggregateCall = Function.isAggregate c.name := by
  rw [isAggregateCall, call?, hk]

theorem kind_of_isError (h : f.isError = true) : ∃ message code, f.kind = .error message code := by
  rw [isError] at h
  split at h
  next message code hk => exact ⟨message, code, hk⟩
  next => exact absurd h (by simp)

end Formula

/-! ## Dimensions -/

section Dimensions

variable {P : Formula → Prop} {dims : List Formula}

theorem forall_pushUnique {fs ds : List Formula} (hfs : ∀ f ∈ fs, P f) (hds : ∀ d ∈ ds, P d) :
    ∀ d ∈ ds.foldl pushUnique fs, P d := by
  induction ds generalizing fs with
  | nil => exact hfs
  | cons c ds ih =>
      refine ih (fun d hd => ?_) fun d hd => hds d (List.mem_cons_of_mem c hd)
      rw [pushUnique] at hd
      split at hd
      · exact hfs d hd
      · rcases List.mem_append.mp hd with hd | hd
        · exact hfs d hd
        · exact List.mem_singleton.mp hd ▸ hds c List.mem_cons_self

theorem forall_resolve {lod : Lod Formula} (hdims : ∀ d ∈ dims, P d)
    (hlod : ∀ d ∈ lod.dims, P d) : ∀ d ∈ lod.resolve dims, P d := by
  cases lod with
  | inherited | defaultAggregation => exact hdims
  | fixed ds => exact forall_pushUnique (fun _ hd => absurd hd List.not_mem_nil) hlod
  | including ds => exact forall_pushUnique hdims hlod
  | excluding ds => exact fun d hd => hdims d (List.mem_filter.mp hd).1

theorem forall_contextDimensions {above : List Formula} (hdims : ∀ d ∈ dims, P d)
    (habove : ∀ a ∈ above, ∀ lod, a.lod? = some lod → ∀ d ∈ lod.dims, P d) :
    ∀ d ∈ Formula.contextDimensions dims above, P d := by
  rw [Formula.contextDimensions]
  induction above generalizing dims with
  | nil => exact hdims
  | cons a above ih =>
      have hstep : ∀ d ∈ ((a.lod?).map (Lod.resolve dims)).getD dims, P d := by
        cases hlod : a.lod? with
        | none => exact hdims
        | some lod => exact forall_resolve hdims (habove a List.mem_cons_self lod hlod)
      exact ih hstep fun b hb => habove b (List.mem_cons_of_mem a hb)

end Dimensions

namespace Normalize

/-! ## Window calls -/

/-- The same window call with another grouping or ordering, made of what it has and of formulas that
are given. -/
def Rewindowed (given : List Formula) (f r : Formula) : Prop :=
  ∃ w w', f.window? = some w ∧ r = .mk (.window w') f.notes ∧ w'.args = w.args ∧
    ∀ c ∈ (Kind.window w').children, c ∈ (Kind.window w).children ∨ c ∈ given

section Windows

variable {dims above : List Formula} {f r : Formula}

theorem defaultOrdering_cases {ordering : List Formula}
    (h : defaultOrdering ordering above f = some r) : Rewindowed ordering f r := by
  obtain ⟨w, hw, h⟩ := Option.bind_eq_some_iff.mp h
  dsimp only at h
  split at h
  · refine ⟨w, _, hw, (Option.some.inj h).symm, rfl, ?_⟩
    intro c hc
    simp only [Kind.children, List.mem_append] at hc ⊢
    rcases hc with hc | hc | hc
    · exact Or.inl (Or.inl hc)
    · exact Or.inl (Or.inr hc)
    · exact Or.inr (List.mem_filter.mp hc).1
  · exact absurd h (by simp)

theorem amongToWithin_cases (h : amongToWithin dims above f = some r) : Rewindowed dims f r := by
  obtain ⟨w, hw, h⟩ := Option.bind_eq_some_iff.mp h
  split at h
  next ds hgrouping =>
    refine ⟨w, _, hw, (Option.some.inj h).symm, rfl, ?_⟩
    intro c hc
    simp only [Kind.children, Grouping.dims, List.mem_append] at hc ⊢
    rcases hc with (hc | hc) | hc
    · exact Or.inl (Or.inl (Or.inl hc))
    · exact Or.inr (List.mem_filter.mp hc).1
    · exact Or.inl (Or.inr hc)
  next => exact absurd h (by simp)

theorem dropExtraWithin_cases (h : dropExtraWithin dims above f = some r) : Rewindowed [] f r := by
  obtain ⟨w, hw, h⟩ := Option.bind_eq_some_iff.mp h
  split at h
  next ds hgrouping =>
    split at h
    · exact absurd h (by simp)
    · refine ⟨w, _, hw, (Option.some.inj h).symm, rfl, ?_⟩
      intro c hc
      left
      simp only [Kind.children, hgrouping, Grouping.dims, List.mem_append] at hc ⊢
      rcases hc with (hc | hc) | hc
      · exact Or.inl (Or.inl hc)
      · exact Or.inl (Or.inr (List.mem_filter.mp hc).1)
      · exact Or.inr hc
  next => exact absurd h (by simp)

/-- A window call gets a parenthesis. -/
theorem levelTags_cases (h : levelTags above f = some r) :
    ∃ w notes, f.window? = some w ∧ r = .mk (.paren f) notes := by
  obtain ⟨w, hw, h⟩ := Option.bind_eq_some_iff.mp h
  split at h
  · exact absurd h (by simp)
  · exact ⟨w, _, hw, (Option.some.inj h).symm⟩

/-- A window call or a fork gets other filters. -/
theorem laterFilters_cases {available : NameSet} (h : laterFilters available above f = some r) :
    (∃ w filters, f.kind = .window w ∧
      r = .mk (.window { w with beforeFilterBy := filters }) f.notes) ∨
    ∃ q filters, f.kind = .fork q ∧
      r = .mk (.fork { q with beforeFilterBy := filters }) f.notes := by
  obtain ⟨own, -, h⟩ := Option.bind_eq_some_iff.mp h
  dsimp only at h
  split at h
  · exact absurd h (by simp)
  · split at h
    next w hk => exact Or.inl ⟨w, _, hk, (Option.some.inj h).symm⟩
    next q hk => exact Or.inr ⟨q, _, hk, (Option.some.inj h).symm⟩
    next => exact absurd h (by simp)

/-- The fork around a result that is computed at the dimensions `own` and joined on `shared`. -/
def forkAt (result : Formula) (shared own : List Formula) (filters : NameSet) : Fork Formula where
  joinType := .left
  result := result
  joining := shared.map .same
  lod := .fixed own
  beforeFilterBy := filters
  shifts := []

theorem children_forkAt (result : Formula) (shared own : List Formula) (filters : NameSet) :
    (Kind.fork (forkAt result shared own filters)).children = result :: (shared ++ own) := by
  simp [Kind.children, forkAt, Lod.dims, List.flatMap_map, JoinCondition.parts]

/-- A window call gets a fork at the dimensions of the query. -/
theorem windowForks_cases (h : windowForks dims above f = some r) :
    ∃ w, f.window? = some w ∧ r = .of (.fork (forkAt f dims dims w.beforeFilterBy)) := by
  obtain ⟨w, hw, h⟩ := Option.bind_eq_some_iff.mp h
  split at h
  · exact absurd h (by simp)
  · exact ⟨w, hw, (Option.some.inj h).symm⟩

end Windows

/-! ## Aggregations -/

/-- An aggregation becomes an error or a fork at its own dimensions. -/
theorem levelOfDetail_cases {dims above : List Formula} {f r : Formula}
    (h : levelOfDetail dims above f = some r) :
    ∃ c, f.kind = .call c ∧ Function.isAggregate c.name = true ∧
      (r.isError = true ∨ r = .of (.fork (forkAt
        (.mk (.call { c with lod := .inherited }) f.notes)
        ((c.lod.resolve (Formula.contextDimensions dims above)).filter
          (Formula.contextDimensions dims above).contains)
        (c.lod.resolve (Formula.contextDimensions dims above)) c.beforeFilterBy))) := by
  unfold levelOfDetail at h
  split at h
  next c hk =>
    split at h
    next hneeds =>
      rw [Formula.isAggregateCall_of_kind hk, Bool.and_eq_true, Bool.and_eq_true] at hneeds
      refine ⟨c, hk, hneeds.1.1, ?_⟩
      dsimp only at h
      split at h
      · exact Or.inl (Option.some.inj h ▸ rfl)
      · exact Or.inr (Option.some.inj h).symm
    next => exact absurd h (by simp)
  next => exact absurd h (by simp)

/-- The call in the fork has the children of the call before, less the dimensions of its level. -/
theorem mem_children_of_inherited {c : Call Formula} {f x : Formula} (hk : f.kind = .call c)
    (hx : x ∈ (Kind.call { c with lod := .inherited }).children) : x ∈ f.children := by
  rw [Formula.children, hk]
  simp only [Kind.children, Lod.dims, List.append_nil, List.mem_append] at hx ⊢
  rcases hx with hx | hx
  · exact Or.inl (Or.inl hx)
  · exact Or.inr hx

/-! ## Lookups -/

theorem lookup?_eq_some {f : Formula} {c : Call Formula} {kind : LookupKind}
    (h : lookup? f = some (c, kind)) : f.kind = .call c := by
  obtain ⟨c', hc', h⟩ := Option.bind_eq_some_iff.mp h
  obtain ⟨kind', -, h⟩ := Option.bind_eq_some_iff.mp h
  obtain ⟨rfl, -⟩ := Prod.mk.inj (Option.some.inj h)
  exact kind_of_call? hc'

section Lookups

variable {P : Formula → Prop} {dims : List Formula} {dimension : Formula} {rest : List Formula}
  {kind : LookupKind}
  (hcall : ∀ name ∈ ["dateadd", "day"], ∀ args, (∀ x ∈ args, P x) → P (.call name args))

include hcall

theorem forall_lookupConditions (hdimension : P dimension) (hrest : ∀ x ∈ rest, P x)
    {j : JoinCondition Formula} (hj : j ∈ lookupConditions dimension rest kind)
    {x : Formula} (hx : x ∈ j.parts) : P x := by
  cases kind with
  | ago =>
      have hday : P (.call "day" [dimension]) :=
        hcall _ (by simp) _ fun y hy => List.mem_singleton.mp hy ▸ hdimension
      simp only [lookupConditions, List.mem_cons] at hj
      rcases hj with rfl | hj
      · rcases List.mem_cons.mp hx with rfl | hx
        · exact hdimension
        · obtain rfl := List.mem_singleton.mp hx
          exact hcall _ (by simp) _ (List.forall_mem_cons.mpr ⟨hdimension, hrest⟩)
      · split at hj
        · obtain rfl := List.mem_singleton.mp hj
          simp only [JoinCondition.parts, List.mem_cons, List.not_mem_nil, or_false, or_self] at hx
          exact hx ▸ hday
        · exact absurd hj List.not_mem_nil
  | atDate =>
      obtain ⟨date, hdate, rfl⟩ := List.mem_map.mp hj
      rcases List.mem_cons.mp hx with rfl | hx
      · exact hrest _ (List.mem_of_mem_take hdate)
      · exact List.mem_singleton.mp hx ▸ hdimension

theorem forall_lookupShifts (hdimension : P dimension) (hrest : ∀ x ∈ rest, P x)
    {t : FilterShift Formula} (ht : t ∈ lookupShifts dimension rest kind) {x : Formula}
    (hx : x ∈ t.parts) : P x := by
  cases kind with
  | ago =>
      obtain rfl := List.mem_singleton.mp ht
      rcases List.mem_cons.mp hx with rfl | hx
      · exact hdimension
      · obtain rfl := List.mem_singleton.mp hx
        exact hcall _ (by simp) _ (List.forall_mem_cons.mpr ⟨hdimension, hrest⟩)
  | atDate => exact absurd ht List.not_mem_nil

/-- All parts of the fork for a lookup but its result. -/
theorem forall_sides_lookupFork {c : Call Formula} (hdims : ∀ d ∈ dims, P d)
    (hdimension : P dimension) (hrest : ∀ x ∈ rest, P x) :
    ∀ x ∈ (lookupJoining dims c.ignored dimension
        (lookupConditions dimension rest kind)).flatMap JoinCondition.parts ++
      (lookupShifts dimension rest kind).flatMap FilterShift.parts, P x := by
  intro x hx
  simp only [List.mem_append, List.mem_flatMap] at hx
  rcases hx with ⟨j, hj, hx⟩ | ⟨t, ht, hx⟩
  · obtain ⟨d, hd, hj⟩ := List.mem_flatMap.mp hj
    split at hj
    · exact absurd hj List.not_mem_nil
    · split at hj
      · exact forall_lookupConditions hcall hdimension hrest hj hx
      · obtain rfl := List.mem_singleton.mp hj
        exact List.mem_singleton.mp hx ▸ hdims d hd
  · exact forall_lookupShifts hcall hdimension hrest ht hx

end Lookups

/-- Every check that fails leaves an error; otherwise there is a fork. -/
theorem lookupFork_cases (dims : List Formula) (allowEmpty : Bool) (c : Call Formula)
    (kind : LookupKind) (measure dimension : Formula) (rest : List Formula) :
    (∃ message code, lookupFork dims allowEmpty c kind measure dimension rest =
      .error message code) ∨
    lookupFork dims allowEmpty c kind measure dimension rest =
      .of (.fork
        { joinType := .left
          result := measure
          joining := lookupJoining dims c.ignored dimension
            (lookupConditions dimension rest kind)
          lod := .inherited
          beforeFilterBy := c.beforeFilterBy
          shifts := lookupShifts dimension rest kind }) := by
  unfold lookupFork
  dsimp only
  split
  · exact Or.inl ⟨_, _, rfl⟩
  split
  · exact Or.inl ⟨_, _, rfl⟩
  split
  · exact Or.inl ⟨_, _, rfl⟩
  split
  · exact Or.inl ⟨_, _, rfl⟩
  split
  · exact Or.inl ⟨_, _, rfl⟩
  exact Or.inr rfl

/-- A lookup becomes an error or a fork around its first argument. -/
theorem lookups_cases {dims above : List Formula} {allowEmpty : Bool} {f r : Formula}
    (h : lookups dims allowEmpty above f = some r) :
    ∃ c kind, lookup? f = some (c, kind) ∧
      (r.isError = true ∨ ∃ measure dimension rest, c.args = measure :: dimension :: rest ∧
        r = .of (.fork
          { joinType := .left
            result := measure
            joining := lookupJoining (Formula.contextDimensions dims above) c.ignored dimension
              (lookupConditions dimension rest kind)
            lod := .inherited
            beforeFilterBy := c.beforeFilterBy
            shifts := lookupShifts dimension rest kind })) := by
  obtain ⟨⟨c, kind⟩, hlookup, h⟩ := Option.bind_eq_some_iff.mp h
  refine ⟨c, kind, hlookup, ?_⟩
  dsimp only at h
  split at h
  · exact Or.inl (Option.some.inj h ▸ rfl)
  · split at h
    next measure dimension rest hargs =>
      obtain rfl := Option.some.inj h
      rcases lookupFork_cases (Formula.contextDimensions dims above) allowEmpty c kind measure
        dimension rest with ⟨_, _, heq⟩ | heq
      · exact Or.inl (heq ▸ rfl)
      · exact Or.inr ⟨measure, dimension, rest, hargs, heq⟩
    next => exact Or.inl (Option.some.inj h ▸ rfl)

/-- A lookup becomes an error or gets another filter. -/
theorem lookupFilters_cases {above : List Formula} {f r : Formula}
    (h : lookupFilters above f = some r) :
    ∃ c kind, lookup? f = some (c, kind) ∧ (r.isError = true ∨
      ∃ filters, r = .mk (.call { c with beforeFilterBy := filters }) f.notes) := by
  obtain ⟨⟨c, kind⟩, hlookup, h⟩ := Option.bind_eq_some_iff.mp h
  refine ⟨c, kind, hlookup, ?_⟩
  dsimp only at h
  split at h
  · exact Or.inl (Option.some.inj h ▸ rfl)
  · obtain ⟨name, -, h⟩ := Option.bind_eq_some_iff.mp h
    exact Or.inr ⟨_, (Option.some.inj h).symm⟩

end Normalize

/-! ## Rules that simplify -/

namespace Formula

/-- Operators and conditional blocks. -/
def isOperation {α : Type} : Kind α → Bool
  | .binary _ _ _ => true
  | .unary _ _ => true
  | .ifBlock _ _ => true
  | .caseBlock _ _ _ => true
  | _ => false

/-- Operations, and calls of the functions that do the same. -/
def isOperator (f : Formula) : Bool :=
  isOperation f.kind || f.call?.any fun c => ["if", "case", "isnull"].contains c.name.toLower

/-- What a formula is computed from by operators, one below the other. -/
inductive Operand (f : Formula) : Formula → Prop where
  | self : Operand f f
  | under {g c : Formula} (hg : Operand f g) (hoperator : g.isOperator = true)
      (hc : c ∈ g.autonomous) : Operand f c

theorem autonomous_of_operation {f : Formula} (h : isOperation f.kind = true) :
    f.autonomous = f.children := by
  rw [autonomous, children, Kind.autonomous]
  cases hk : f.kind with
  | binary | unary | ifBlock | caseBlock => exact List.take_length
  | _ => rw [hk] at h; exact absurd h (by simp [isOperation])

theorem autonomous_of_call {f : Formula} {c : Call Formula} (hk : f.kind = .call c) :
    f.autonomous = c.args := by
  rw [autonomous, hk, Kind.autonomous, Kind.autonomousCount, Kind.children, List.append_assoc,
    List.take_left]

theorem autonomous_callWithArgs (c : Call Formula) (args : List Formula) :
    (Simplify.callWithArgs c args).autonomous = args := by
  have hk : (Simplify.callWithArgs c args).kind =
      .call { c with args := args, ignored := [] } := rfl
  exact autonomous_of_call hk

theorem mem_surface_of_arg {f x : Formula} {c : Call Formula} (hk : f.kind = .call c)
    (hx : x ∈ c.args) : x ∈ f.surface := by
  refine mem_surface_of_kind hk rfl ?_
  rwa [← hk, ← autonomous, autonomous_of_call hk]

theorem isOperator_cases {f : Formula} (h : f.isOperator = true) :
    isOperation f.kind = true ∨
      ∃ c, f.kind = .call c ∧ c.name.toLower ∈ ["if", "case", "isnull"] := by
  rw [isOperator, Bool.or_eq_true, Option.any_eq_true] at h
  refine h.imp_right fun ⟨c, hc, hname⟩ => ⟨c, kind_of_call? hc, ?_⟩
  rwa [List.contains_iff_mem] at hname

theorem not_isFork_of_isOperator {f : Formula} (h : f.isOperator = true) : f.isFork = false := by
  rw [isFork_eq]
  rcases isOperator_cases h with h | ⟨c, hk, -⟩
  · cases hk : f.kind with
    | fork q => rw [hk] at h; exact absurd h (by simp [isOperation])
    | _ => rfl
  · rw [hk]
    rfl

namespace Operand

variable {f g c : Formula}

theorem mem_surface (h : Operand f g) : g ∈ f.surface := by
  induction h with
  | self => exact self_mem_surface f
  | under _ hoperator hc ih =>
      exact mem_surface_trans ih (mem_surface_of_autonomous (not_isFork_of_isOperator hoperator) hc
        (self_mem_surface _))

theorem of_operation {k : Kind Formula} (hg : Operand f g) (hk : g.kind = k)
    (h : isOperation k = true) (hc : c ∈ k.children) : Operand f c := by
  subst hk
  refine hg.under (by rw [isOperator, h, Bool.true_or]) ?_
  rwa [autonomous_of_operation h]

theorem of_arg {call : Call Formula} (hk : f.kind = .call call) (h : f.isOperator = true)
    (hc : c ∈ call.args) : Operand f c :=
  self.under h (autonomous_of_call hk ▸ hc)

end Operand

/-- The second formula is made of operands of the first: it is one of them or a literal, combines
them by an operation, or calls the same function with them as arguments. Or else it is an
aggregation that is an argument of the first. -/
inductive Reduced (f : Formula) : Formula → Prop where
  | literal (v : Literal) (notes : Notes) : Reduced f (mk (.literal v) notes)
  | part {g : Formula} (hg : Operand f g) : Reduced f g
  | aggregation {c : Call Formula} {g : Formula} (hk : f.kind = .call c) (hg : g ∈ c.args)
      (haggregate : g.isAggregateCall = true) : Reduced f g
  | operation {k : Kind Formula} (notes : Notes) (hk : isOperation k = true)
      (hcs : ∀ c ∈ k.children, Operand f c) : Reduced f (mk k notes)
  | call {c : Call Formula} {args : List Formula} (hk : f.kind = .call c)
      (hoperator : f.isOperator = true) (hname : Normalize.LookupKind.ofName? c.name = none)
      (hargs : ∀ x ∈ args, Operand f x) : Reduced f (Simplify.callWithArgs c args)

end Formula

namespace Simplify

open Formula (Operand Reduced)

variable {above : List Formula} {f r : Formula}

theorem comparison_reduced (hr : comparison above f = some r) : Reduced f r := by
  unfold comparison at hr
  split at hr
  next =>
    obtain ⟨_, -, hr⟩ := Option.bind_eq_some_iff.mp hr
    obtain ⟨_, -, hr⟩ := Option.bind_eq_some_iff.mp hr
    obtain ⟨_, -, hr⟩ := Option.bind_eq_some_iff.mp hr
    obtain ⟨_, -, hr⟩ := Option.bind_eq_some_iff.mp hr
    exact Option.some.inj hr ▸ .literal _ _
  next => exact absurd hr (by simp)

theorem arithmetic_reduced (hr : arithmetic above f = some r) : Reduced f r := by
  unfold arithmetic at hr
  split at hr
  next =>
    obtain ⟨_, -, hr⟩ := Option.bind_eq_some_iff.mp hr
    obtain ⟨_, -, hr⟩ := Option.bind_eq_some_iff.mp hr
    obtain ⟨_, -, hr⟩ := Option.bind_eq_some_iff.mp hr
    exact Option.some.inj hr ▸ .literal _ _
  next => exact absurd hr (by simp)

theorem test_reduced {dialect : Dialects} (hr : test dialect above f = some r) : Reduced f r := by
  obtain ⟨c, -, hr⟩ := Option.bind_eq_some_iff.mp hr
  split at hr
  · obtain ⟨_, -, hr⟩ := Option.bind_eq_some_iff.mp hr
    obtain ⟨_, -, hr⟩ := Option.bind_eq_some_iff.mp hr
    exact Option.some.inj hr ▸ .literal _ _
  · exact absurd hr (by simp)

theorem decided_reduced {other : Formula} {op : String} {constant : Literal}
    (hother : Operand f other)
    (hr : (match op with
      | "and" => if constant.isTruthy then some other else some (folded f (.boolean false))
      | "or" => if constant.isTruthy then some (folded f (.boolean true)) else some other
      | _ => none) = some r) : Reduced f r := by
  split at hr
  · split at hr
    · exact Option.some.inj hr ▸ .part hother
    · exact Option.some.inj hr ▸ .literal _ _
  · split at hr
    · exact Option.some.inj hr ▸ .literal _ _
    · exact Option.some.inj hr ▸ .part hother
  · exact absurd hr (by simp)

theorem connective_reduced (hr : connective above f = some r) : Reduced f r := by
  unfold connective at hr
  split at hr
  next op left right hk =>
    dsimp only at hr
    split at hr
    · exact decided_reduced (Operand.self.of_operation hk rfl (by simp [Kind.children])) hr
    · exact decided_reduced (Operand.self.of_operation hk rfl (by simp [Kind.children])) hr
    · exact absurd hr (by simp)
  next => exact absurd hr (by simp)

theorem doubleAggregation_reduced (hr : doubleAggregation above f = some r) : Reduced f r := by
  obtain ⟨outer, houter, hr⟩ := Option.bind_eq_some_iff.mp hr
  split at hr
  next x hargs =>
    obtain ⟨inner, -, hr⟩ := Option.bind_eq_some_iff.mp hr
    split at hr
    next hcollapsed =>
      simp only [Bool.and_eq_true] at hcollapsed
      obtain ⟨⟨⟨-, haggregate⟩, -⟩, -⟩ := hcollapsed
      exact Option.some.inj hr ▸ .aggregation (kind_of_call? houter) (by simp [hargs]) haggregate
    next => exact absurd hr (by simp)
  next => exact absurd hr (by simp)

/-! Branches keep their order when some of them are pruned. -/

/-- What is left of a conditional is the value after its branches or built from some of them. -/
theorem rebuilt_cases {before : List (Branch Formula)} {otherwise : Formula} {p : Pruned}
    {build : List (Branch Formula) → Formula → Formula}
    (hp : Left p before otherwise)
    (hr : rebuilt before p build = some r) :
    ∃ bs e, bs.flatMap Branch.parts ++ [e] ⊆ before.flatMap Branch.parts ++ [otherwise] ∧
      (r = e ∨ r = build bs e) := by
  refine ⟨p.branches, p.otherwise, fun x hx => ?_, ?_⟩
  · rcases List.mem_append.mp hx with hx | hx
    · obtain ⟨b, hb, hx⟩ := List.mem_flatMap.mp hx
      exact List.mem_append_left _ (List.mem_flatMap.mpr ⟨b, hp.1 hb, hx⟩)
    · obtain rfl := List.mem_singleton.mp hx
      rcases hp.2 with h | ⟨b, hb, h⟩
      · exact List.mem_append_right _ (List.mem_singleton.mpr h)
      · refine List.mem_append_left _ (List.mem_flatMap.mpr ⟨b, hb, ?_⟩)
        simp [Branch.parts, h]
  · rw [rebuilt] at hr
    split at hr
    · exact absurd hr (by simp)
    · split at hr
      · exact Or.inl (Option.some.inj hr).symm
      · exact Or.inr (Option.some.inj hr).symm

theorem branchArgs_eq {α : Type} {args : List α} {bs : List (Branch α)} {otherwise : α}
    (h : branchArgs args = some (bs, otherwise)) :
    bs.flatMap Branch.parts ++ [otherwise] = args := by
  fun_induction branchArgs args generalizing bs with
  | case1 => exact absurd h (by simp)
  | case2 e =>
      obtain ⟨rfl, rfl⟩ := Prod.mk.inj (Option.some.inj h)
      rfl
  | case3 test value rest ih =>
      obtain ⟨⟨bs', e⟩, hrest, h⟩ := Option.bind_eq_some_iff.mp h
      obtain ⟨rfl, rfl⟩ := Prod.mk.inj (Option.some.inj h)
      rw [List.flatMap_cons, List.append_assoc, ih hrest]
      rfl

theorem branchArgs_map {α β : Type} (h : α → β) (args : List α) :
    branchArgs (args.map h) = (branchArgs args).map fun p => (p.1.map (·.map h), h p.2) := by
  fun_induction branchArgs args with
  | case1 => rfl
  | case2 => rfl
  | case3 test value rest ih =>
      simp only [List.map_cons, branchArgs, ih, Option.bind_eq_bind]
      cases branchArgs rest <;> rfl

theorem parts_map {α β : Type} (h : α → β) (bs : List (Branch α)) :
    (bs.map (·.map h)).flatMap Branch.parts = (bs.flatMap Branch.parts).map h := by
  rw [List.flatMap_map, List.map_flatMap]
  rfl

theorem rebuilt_reduced {before : List (Branch Formula)} {otherwise : Formula} {p : Pruned}
    {build : List (Branch Formula) → Formula → Formula}
    (hp : Left p before otherwise)
    (hbefore : ∀ x ∈ before.flatMap Branch.parts ++ [otherwise], Operand f x)
    (hbuild : ∀ bs e, (∀ x ∈ bs.flatMap Branch.parts ++ [e], Operand f x) →
      Reduced f (build bs e)) (hr : rebuilt before p build = some r) : Reduced f r := by
  obtain ⟨bs, e, hsub, hcases⟩ := rebuilt_cases hp hr
  have hparts : ∀ x ∈ bs.flatMap Branch.parts ++ [e], Operand f x :=
    fun x hx => hbefore x (hsub hx)
  rcases hcases with rfl | rfl
  · exact .part (hparts r (by simp))
  · exact hbuild bs e hparts

theorem conditional_reduced (hr : conditional above f = some r) : Reduced f r := by
  unfold conditional at hr
  simp only [pruneIf_eq, pruneCase_eq] at hr
  split at hr
  next c hk =>
    have hoperator (hname : c.name.toLower ∈ ["if", "case", "isnull"]) : f.isOperator = true := by
      rw [Formula.isOperator, Formula.call?, hk, Option.any_some, List.contains_iff_mem.mpr hname,
        Bool.or_true]
    have hargs (hname : c.name.toLower ∈ ["if", "case", "isnull"]) : ∀ x ∈ c.args, Operand f x :=
      fun x hx => .of_arg hk (hoperator hname) hx
    split at hr
    next hname =>
      have hargs := hargs (by simp [hname])
      obtain ⟨⟨bs, e⟩, hbranches, hr⟩ := Option.bind_eq_some_iff.mp hr
      refine rebuilt_reduced left_pruneBy (branchArgs_eq hbranches ▸ hargs) ?_ hr
      intro bs e hparts
      exact .call hk (hoperator (by simp [hname])) (by simp [Normalize.LookupKind.ofName?, hname])
        hparts
    next hname =>
      have hargs := hargs (by simp [hname])
      split at hr
      next subject rest hsubject =>
        obtain ⟨v, -, hr⟩ := Option.bind_eq_some_iff.mp hr
        obtain ⟨⟨bs, e⟩, hbranches, hr⟩ := Option.bind_eq_some_iff.mp hr
        rw [hsubject, List.forall_mem_cons] at hargs
        refine rebuilt_reduced left_pruneBy (branchArgs_eq hbranches ▸ hargs.2) ?_ hr
        intro bs e hparts
        refine .call hk (hoperator (by simp [hname]))
          (by simp [Normalize.LookupKind.ofName?, hname]) ?_
        rw [List.cons_append, List.forall_mem_cons]
        exact ⟨hargs.1, hparts⟩
      next => exact absurd hr (by simp)
    next => exact absurd hr (by simp)
  next bs e hk =>
    refine rebuilt_reduced left_pruneBy (fun x hx => Operand.self.of_operation hk rfl hx) ?_ hr
    intro bs e hparts
    exact .operation _ rfl hparts
  next subject bs e hk =>
    obtain ⟨v, -, hr⟩ := Option.bind_eq_some_iff.mp hr
    refine rebuilt_reduced left_pruneBy
      (fun x hx => Operand.self.of_operation hk rfl (List.mem_cons_of_mem subject hx)) ?_ hr
    intro bs e hparts
    refine .operation _ rfl ?_
    intro x hx
    rcases List.mem_cons.mp hx with rfl | hx
    · exact Operand.self.of_operation hk rfl List.mem_cons_self
    · exact hparts x hx
  next => exact absurd hr (by simp)

theorem inverted_reduced {g : Formula} (hg : Operand f g) : Reduced f (inverted g) := by
  have hnot : Reduced f (.unary "not" g) :=
    .operation _ rfl fun x hx => List.mem_singleton.mp hx ▸ hg
  unfold inverted
  split
  next op left right hk =>
    split
    · refine .operation _ rfl ?_
      exact fun x hx => hg.of_operation hk rfl hx
    · exact hnot
  next => exact hnot

/-- A truth value that is compared with zero or one stays or is inverted. -/
theorem compared_reduced {operation : Formula} {value? : Option Bool} {negated : Bool}
    (h : Operand f operation)
    (hr : ((value?.map (operation, ·)).bind fun x =>
      if x.2 != negated then some x.1 else some (inverted x.1)) = some r) : Reduced f r := by
  obtain ⟨x, hx, hr⟩ := Option.bind_eq_some_iff.mp hr
  obtain ⟨value, -, rfl⟩ := Option.map_eq_some_iff.mp hx
  split at hr
  · exact Option.some.inj hr ▸ .part h
  · exact Option.some.inj hr ▸ inverted_reduced h

theorem zeroOne_reduced (hr : zeroOne above f = some r) : Reduced f r := by
  unfold zeroOne at hr
  split at hr
  next op left right hk =>
    have hleft : Operand f left := Operand.self.of_operation hk rfl (by simp [Kind.children])
    have hright : Operand f right := Operand.self.of_operation hk rfl (by simp [Kind.children])
    dsimp only at hr
    split at hr
    · rw [Option.bind_eq_bind, Option.bind_some] at hr
      split at hr
      · exact compared_reduced hleft hr
      · split at hr
        · exact compared_reduced hright hr
        · exact absurd hr (by simp)
    · rw [Option.bind_eq_bind, Option.bind_some] at hr
      split at hr
      · exact compared_reduced hleft hr
      · split at hr
        · exact compared_reduced hright hr
        · exact absurd hr (by simp)
    · exact absurd hr (by simp)
  next => exact absurd hr (by simp)

theorem rules_reduced {dialect : Dialects} : ∀ rule ∈ rules dialect,
    ∀ above f r, rule above f = some r → Reduced f r := by
  simp only [rules, List.forall_mem_cons]
  exact ⟨fun _ _ _ => arithmetic_reduced, fun _ _ _ => doubleAggregation_reduced,
    fun _ _ _ => comparison_reduced, fun _ _ _ => connective_reduced, fun _ _ _ => test_reduced,
    fun _ _ _ => conditional_reduced, fun _ h => absurd h List.not_mem_nil⟩

theorem filterRules_reduced {dialect : Dialects} : ∀ rule ∈ filterRules dialect,
    ∀ above f r, rule above f = some r → Reduced f r :=
  List.forall_mem_cons.mpr ⟨fun _ _ _ => zeroOne_reduced, rules_reduced⟩

end Simplify

end FormulaSql
