import FormulaSql.Proofs.Lowering.Constness
import FormulaSql.Proofs.Lowering.Outcomes
import FormulaSql.Proofs.Query.Orderings
import FormulaSql.Proofs.Simplify.Heirs
import FormulaSql.Proofs.Simplify.Pruning

/-!
# Simplified formulas can be lowered

A part that comes in the place of the whole may have another type, and then the call around it may
not find a definition any more. Where all parts that may come in the place of the whole have its
type, a formula that can be lowered can be lowered after it has been simplified, and to the same
type. It may have become constant, which no call minds.

* `Formula.FirmsTo` relates a formula to one that may be lowered instead
* `Formula.optimize_lowers`
-/

namespace FormulaSql

namespace Formula

/-- Where the one formula is steady and can be lowered, so can the other, to an expression that has
firmed. No more may come of the other than of the one. -/
structure FirmsTo (s : Scope) (f g : Formula) : Prop where
  literal : g.prospects.literal = true → f.prospects.literal = true
  aggregate : g.prospects.aggregate = true → f.prospects.aggregate = true
  lowers : f.steady s = true → ∀ a, f.lower s = .ok a →
    g.steady s = true ∧ ∃ b, g.lower s = .ok b ∧ a.FirmsTo b

variable {s : Scope} {f g h c : Formula} {a : TypedSql} {name : String}

theorem FirmsTo.refl (f : Formula) : FirmsTo s f f :=
  ⟨id, id, fun hsteady a ha => ⟨hsteady, a, ha, .refl a⟩⟩

theorem FirmsTo.trans (hfg : FirmsTo s f g) (hgh : FirmsTo s g h) : FirmsTo s f h := by
  refine ⟨fun hh => hfg.literal (hgh.literal hh), fun hh => hfg.aggregate (hgh.aggregate hh),
    fun hsteady a ha => ?_⟩
  obtain ⟨hsteady, b, hb, hab⟩ := hfg.lowers hsteady a ha
  obtain ⟨hsteady, c, hc, hbc⟩ := hgh.lowers hsteady b hb
  exact ⟨hsteady, c, hc, hab.trans hbc⟩

theorem base?_eq_some {b : BaseType} (h : f.base? s = some b) :
    ∃ a, f.lower s = .ok a ∧ a.type.base = b := by
  obtain ⟨a, ha, hb⟩ := Option.map_eq_some_iff.mp h
  cases hlower : f.lower s with
  | error e => exact absurd ha (by simp [hlower, Except.toOption])
  | ok x =>
      rw [hlower] at ha
      obtain rfl := Option.some.inj ha
      exact ⟨x, rfl, hb⟩

/-- Where an heir has the type of the whole, so has a formula that it firms to. -/
theorem FirmsTo.base?_eq {b : BaseType} (hfirms : FirmsTo s f g) (hsteady : f.steady s = true)
    (h : f.base? s = some b) : g.base? s = some b := by
  obtain ⟨a, ha, rfl⟩ := base?_eq_some h
  obtain ⟨-, x, hx, hax⟩ := hfirms.lowers hsteady a ha
  rw [base?_of_lower hx, hax.1.1]

/-! ## Rebuilt nodes -/

section Rebuilt

variable {cs : List Formula}

theorem exists_lowered {cs ds : List Formula} {as : List TypedSql}
    (h : List.Forall₂ (FirmsTo s) cs ds) (hsteady : ∀ c ∈ cs, c.steady s = true)
    (has : List.Forall₂ (fun c a => c.lower s = .ok a) cs as) :
    ∃ bs, List.Forall₂ (fun d b => d.lower s = .ok b) ds bs ∧
      List.Forall₂ TypedSql.FirmsTo as bs := by
  induction h generalizing as with
  | nil =>
      cases has
      exact ⟨[], .nil, .nil⟩
  | cons hcd _ ih =>
      rw [List.forall_mem_cons] at hsteady
      obtain ⟨a, as', ha, has', rfl⟩ := List.forall₂_cons_left_iff.mp has
      obtain ⟨-, b, hb, hab⟩ := hcd.lowers hsteady.1 a ha
      obtain ⟨bs, hbs, habs⟩ := ih hsteady.2 has'
      exact ⟨b :: bs, .cons hb hbs, .cons hab habs⟩

theorem exists_lowered_singleton {e : Formula} (h : List.Forall₂ (FirmsTo s) [e] cs)
    (hsteady : e.steady s = true) (ha : e.lower s = .ok a) :
    ∃ e' b, cs = [e'] ∧ e'.lower s = .ok b ∧ a.FirmsTo b := by
  obtain ⟨e', rest, he, hrest, rfl⟩ := List.forall₂_cons_left_iff.mp h
  obtain rfl := List.forall₂_nil_left_iff.mp hrest
  obtain ⟨-, b, hb, hab⟩ := he.lowers hsteady a ha
  exact ⟨e', b, rfl, hb, hab⟩

theorem partition?_of_outline {g g' : Grouping Formula}
    (h : g'.map (fun _ => ()) = g.map fun _ => ()) {ds : List Formula}
    (hds : partition? g = some ds) : partition? g' = some g'.dims := by
  have hmap : (partition? g').map (·.map fun _ => ()) = some (ds.map fun _ => ()) := by
    rw [← partition?_map, h, partition?_map, hds]
    rfl
  obtain ⟨ds', hds', -⟩ := Option.map_eq_some_iff.mp hmap
  rwa [← partition?_eq_some hds']

theorem lower_window_withChildren {w : WindowCall Formula} (hk : f.kind = .window w)
    (h : List.Forall₂ (FirmsTo s) f.children cs)
    (hsteady : ∀ c ∈ (Kind.window w).children, c.steady s = true) (ha : f.lower s = .ok a) :
    ∃ b, (f.withChildren cs).lower s = .ok b ∧ a.FirmsTo b := by
  obtain ⟨dims, hdims, ps, os, as, r, hps, hos, has, hdispatch, rfl⟩ := (lower_window hk).mp ha
  obtain ⟨w', hk', hwname, hgrouping, hargs, hds, hordering⟩ := exists_window_withChildren h hk
  have hdims' := partition?_of_outline hgrouping hdims
  obtain rfl := partition?_eq_some hdims
  simp only [Kind.children, List.mem_append] at hsteady
  obtain ⟨ps', hps', -⟩ := exists_lowered hds
    (fun c hc => hsteady c (Or.inl (Or.inr hc))) hps
  obtain ⟨os', hos', -⟩ := exists_lowered hordering (fun c hc => hsteady c (Or.inr hc)) hos
  obtain ⟨as', has', hfirms⟩ := exists_lowered hargs
    (fun c hc => hsteady c (Or.inl (Or.inl hc))) has
  obtain ⟨r', hr', hrr⟩ := Lowering.dispatch_firms hfirms hdispatch
  -- no writer reads a window call as a literal, so only its type has to be kept
  exact ⟨_, (lower_window hk').mpr ⟨_, hdims', ps', os', as', r', hps', hos', has', hwname ▸ hr',
    rfl⟩, hrr.1, Sql.Unread.keeps (Lowering.unread_overWindow _ _ _) _⟩

/-- A node is still written after the formulas that it is written with have firmed. -/
theorem lower_withChildren (h : List.Forall₂ (FirmsTo s) f.children cs)
    (hsteady : f.steady s = true) (ha : f.lower s = .ok a) :
    ∃ b, (f.withChildren cs).lower s = .ok b ∧ a.FirmsTo b := by
  have hparts := (steady_iff.mp hsteady).2
  cases hname : f.function? with
  | some name =>
      obtain ⟨as, has, hdispatch⟩ := (lower_function_eq_ok hname).mp ha
      obtain ⟨bs, hbs, hab⟩ := exists_lowered (written_withChildren h) hparts has
      obtain ⟨b, hb, hfirms⟩ := Lowering.dispatch_firms hab hdispatch
      exact ⟨b, (lower_function_eq_ok ((function?_withChildren f cs).trans hname)).mpr
        ⟨bs, hbs, hb⟩, hfirms⟩
  | none =>
      cases hk : f.kind with
      | field n =>
          have hk' : (f.withChildren cs).kind = .field n := by rw [withChildren, kind, hk]; rfl
          exact ⟨a, (lower_field hk').mpr ((lower_field hk).mp ha), .refl a⟩
      | literal v =>
          have hk' : (f.withChildren cs).kind = .literal v := by rw [withChildren, kind, hk]; rfl
          obtain rfl := Except.ok.inj ((lower_literal hk).symm.trans ha)
          exact ⟨_, lower_literal hk', .refl _⟩
      | paren e =>
          obtain ⟨x, hx, rfl⟩ := (lower_paren hk).mp ha
          obtain ⟨e', y, rfl, hy, hxy⟩ := exists_lowered_singleton (by rwa [children, hk] at h)
            (hparts e (by rw [written, hk]; exact List.mem_cons_self)) hx
          have hk' : (f.withChildren [e']).kind = .paren e' := by rw [withChildren, kind, hk]; rfl
          exact ⟨_, (lower_paren hk').mpr ⟨y, hy, rfl⟩, hxy.1, Sql.Unread.keeps ⟨rfl, rfl⟩ _⟩
      | ordered e d =>
          obtain ⟨x, hx, rfl⟩ := (lower_ordered hk).mp ha
          obtain ⟨e', y, rfl, hy, hxy⟩ := exists_lowered_singleton (by rwa [children, hk] at h)
            (hparts e (by rw [written, hk]; exact List.mem_cons_self)) hx
          have hk' : (f.withChildren [e']).kind = .ordered e' d := by
            rw [withChildren, kind, hk]; rfl
          exact ⟨_, (lower_ordered hk').mpr ⟨y, hy, rfl⟩, hxy.1, Sql.Unread.keeps ⟨rfl, rfl⟩ _⟩
      | window w =>
          exact lower_window_withChildren hk h (fun c hc => hparts c (by rwa [written, hk])) ha
      | fork q =>
          rw [lower_eq, hk] at ha
          exact absurd ha (by simp [Kind.map, Lowering.step])
      | error message code =>
          rw [lower_eq, hk] at ha
          exact absurd ha (by simp [Kind.map, Lowering.step])
      | _ => exact absurd hname (by simp [function?, hk, Kind.function?])

theorem firmsTo_withChildren (h : List.Forall₂ (FirmsTo s) f.children cs) :
    FirmsTo s f (f.withChildren cs) := by
  have hheirs {d : Formula} (hd : d ∈ (f.withChildren cs).heirs) :
      ∃ c ∈ f.heirs, FirmsTo s c d :=
    exists_heir_withChildren (fun _ _ => FirmsTo.literal) (fun _ _ => FirmsTo.aggregate) h hd
  refine ⟨fun hliteral => ?_, fun haggregate => ?_, fun hsteady a ha => ?_⟩
  · rw [literal_iff] at hliteral ⊢
    rcases hliteral with hfolds | ⟨d, hd, hliteral⟩
    · exact Or.inl (Reading.folds_of_rel (p := prospects) (q := prospects)
        (fun _ _ => FirmsTo.literal)
        (reading_withChildren h) hfolds)
    · obtain ⟨c, hc, hcd⟩ := hheirs hd
      exact Or.inr ⟨c, hc, hcd.literal hliteral⟩
  · rw [aggregate_iff] at haggregate ⊢
    rcases haggregate with hown | ⟨d, hd, haggregate⟩
    · exact Or.inl ((isAggregateCall_eq_of_outline (outline_withChildren f cs)).symm.trans hown)
    · obtain ⟨c, hc, hcd⟩ := hheirs hd
      exact Or.inr ⟨c, hc, hcd.aggregate haggregate⟩
  · obtain ⟨b, hb, hab⟩ := lower_withChildren h hsteady ha
    obtain ⟨hbases, hparts⟩ := steady_iff.mp hsteady
    refine ⟨steady_iff.mpr ⟨fun d hd => ?_, fun d hd => ?_⟩, b, hb, hab⟩
    · obtain ⟨c, hc, hcd⟩ := hheirs hd
      have hbase := (hbases c hc).trans (base?_of_lower ha)
      rw [hcd.base?_eq (hparts c (Kind.mem_written_of_heirs hc)) hbase, base?_of_lower hb, hab.1.1]
    · obtain ⟨c, hc, hcd⟩ := forall₂_exists_left (written_withChildren h) hd
      obtain ⟨x, hx⟩ := exists_lower_of_written ha hc
      exact (hcd.lowers (hparts c hc) x hx).1

end Rebuilt

/-! ## Parts in the place of the whole -/

theorem firmsTo_heir (hc : c ∈ f.heirs) : FirmsTo s f c := by
  refine ⟨fun h => literal_iff.mpr (Or.inr ⟨c, hc, h⟩),
    fun h => aggregate_iff.mpr (Or.inr ⟨c, hc, h⟩), fun hsteady a ha => ?_⟩
  obtain ⟨hbases, hparts⟩ := steady_iff.mp hsteady
  have hwritten := Kind.mem_written_of_heirs hc
  obtain ⟨name, hname, harray⟩ := Kind.exists_function?_of_heirs hc
  obtain ⟨as, has, hdispatch⟩ := (lower_function_eq_ok hname).mp ha
  obtain ⟨b, hb, hlower⟩ := forall₂_exists_right has hwritten
  have hbase := hbases c hc
  rw [base?_of_lower hlower, base?_of_lower ha] at hbase
  have hunread := Lowering.unread_dispatch hdispatch
  obtain ⟨r, hresolve, _, -, rfl⟩ := Lowering.dispatch_eq_ok.mp hdispatch
  refine ⟨hparts c hwritten, b, hlower, ⟨Option.some.inj hbase, fun hconst => ?_⟩, hunread.keeps _⟩
  exact ((Function.resolve_isConst hresolve hconst).2.2 b.type
    (List.mem_map_of_mem hb)).resolve_right fun hnull => harray hnull.1

/-- A literal that was found out is written in the place of a formula of its type. -/
theorem firmsTo_folded {v : Literal} (hname : f.function? = some name)
    (hfolds : f.reading.folds prospects = true)
    (hbase : ∀ as r, List.Forall₂ (fun c a => c.lower s = .ok a) f.written as →
      Function.resolve name (as.map TypedSql.type) false s.dialect s.purposes = .ok r →
      r.returnType.base = v.baseType) : FirmsTo s f (Simplify.folded f v) := by
  have hk : (Simplify.folded f v).kind = .literal v := rfl
  refine ⟨fun _ => literal_iff.mpr (Or.inl hfolds), fun h => ?_, fun _ a ha => ⟨?_, ?_⟩⟩
  · rcases aggregate_iff.mp h with h | ⟨c, hc, -⟩
    · exact absurd h Bool.false_ne_true
    · exact absurd hc List.not_mem_nil
  · exact steady_iff.mpr ⟨fun c hc => absurd hc List.not_mem_nil,
      fun c hc => absurd hc List.not_mem_nil⟩
  · obtain ⟨as, has, hdispatch⟩ := (lower_function_eq_ok hname).mp ha
    have hunread := Lowering.unread_dispatch hdispatch
    obtain ⟨r, hresolve, _, -, rfl⟩ := Lowering.dispatch_eq_ok.mp hdispatch
    exact ⟨_, lower_literal hk, ⟨(hbase as r has hresolve).symm, fun _ => rfl⟩, hunread.keeps _⟩

/-- A truth value that was found out. -/
theorem firmsTo_truth (b : Bool) (hname : f.function? = some name)
    (hfolds : f.reading.folds prospects = true) (htruth : name.toLower ∈ Function.truthNames) :
    FirmsTo s f (Simplify.folded f (.boolean b)) :=
  firmsTo_folded hname hfolds fun _ _ _ hresolve => Function.base_of_truth hresolve htruth

end Formula

namespace Simplify

open Formula

variable {s : Scope} {f r : Formula} {above : List Formula}

/-- What the rule offers may be lowered in the place of the node. -/
def Firms (s : Scope) (rule : Rule) : Prop :=
  ∀ above f r, rule above f = some r → FirmsTo s f r

/-! ## Constants -/

theorem folds_of_literals {op : String} {left right : Formula} {v w : Literal}
    (hk : f.kind = .binary op left right) (hleft : left.literal? = some v)
    (hright : right.literal? = some w) (hop : isConnective op = false)
    (hfolded : Reading.foldedOperators.contains op = true) :
    f.reading.folds prospects = true := by
  rw [reading_of_kind hk, Kind.reading, Reading.folds, if_neg (by simp [hop]), hfolded,
    literal_of_literal? hleft, literal_of_literal? hright]
  rfl

theorem lower_of_literal? {v : Literal} (h : f.literal? = some v) : f.lower s = .ok v.lower :=
  lower_literal (kind_of_literal? h)

/-- Only numbers are computed with, and what comes out has the type that arithmetic gives. -/
theorem math?_eq_some {op : String} {a b v : Literal} (h : math? op a b = some v) :
    op ∈ Function.mathNames ∧ a.baseType ∈ [BaseType.integer, .float] ∧
      b.baseType ∈ [BaseType.integer, .float] ∧
      v.baseType = Function.mathType op a.baseType b.baseType := by
  unfold math? at h
  split at h
  next m n =>
    unfold integerMath at h
    split at h
    case h_4 =>
      split at h
      · exact absurd h (by simp)
      · obtain rfl := Option.some.inj h
        simp [Function.mathNames, Literal.baseType, Function.mathType]
    case h_5 => exact absurd h (by simp)
    all_goals
      obtain ⟨k, rfl, -⟩ := int64?_eq_some h
      simp [Function.mathNames, Literal.baseType, Function.mathType]
  next hintegers =>
    obtain ⟨x, hx, h⟩ := Option.bind_eq_some_iff.mp h
    obtain ⟨y, hy, h⟩ := Option.bind_eq_some_iff.mp h
    obtain ⟨z, hz, h⟩ := Option.bind_eq_some_iff.mp h
    have hv : v = .float z := by
      split at h
      · exact (Option.some.inj h).symm
      · exact absurd h (by simp)
    have hop : op ∈ Function.mathNames := by
      unfold floatMath at hz
      split at hz <;> simp_all [Function.mathNames]
    obtain rfl := hv
    cases a <;> cases b <;> simp_all [number?, Literal.baseType, Function.mathType]

theorem firms_arithmetic : Firms s arithmetic := by
  intro above f r h
  unfold arithmetic at h
  split at h
  next op left right hk =>
    obtain ⟨a, ha, h⟩ := Option.bind_eq_some_iff.mp h
    obtain ⟨b, hb, h⟩ := Option.bind_eq_some_iff.mp h
    obtain ⟨v, hv, h⟩ := Option.bind_eq_some_iff.mp h
    obtain rfl := Option.some.inj h
    obtain ⟨hop, hatype, hbtype, htype⟩ := math?_eq_some hv
    have hname : f.function? = some op := by rw [function?, hk]; rfl
    have hnames : ∀ op ∈ Function.mathNames, isConnective op = false ∧
        Reading.foldedOperators.contains op = true := by decide
    refine firmsTo_folded hname (folds_of_literals hk ha hb (hnames op hop).1 (hnames op hop).2) ?_
    intro as r has hresolve
    rw [written, hk] at has
    obtain ⟨x, rest, hx, hrest, rfl⟩ := List.forall₂_cons_left_iff.mp has
    obtain ⟨y, nothing, hy, hnothing, rfl⟩ := List.forall₂_cons_left_iff.mp hrest
    obtain rfl := List.forall₂_nil_left_iff.mp hnothing
    obtain rfl := Except.ok.inj ((lower_of_literal? ha).symm.trans hx)
    obtain rfl := Except.ok.inj ((lower_of_literal? hb).symm.trans hy)
    rw [htype]
    exact Function.base_of_math hresolve hop hatype hbtype
  next => exact absurd h (by simp)

theorem firms_comparison : Firms s comparison := by
  intro above f r h
  unfold comparison at h
  split at h
  next op left right hk =>
    obtain ⟨⟨negated, nullSafe⟩, hop, h⟩ := Option.bind_eq_some_iff.mp h
    obtain ⟨a, ha, h⟩ := Option.bind_eq_some_iff.mp h
    obtain ⟨b, hb, h⟩ := Option.bind_eq_some_iff.mp h
    obtain ⟨same, -, h⟩ := Option.bind_eq_some_iff.mp h
    obtain rfl := Option.some.inj h
    have hnames : ∀ p ∈ equalityOperators, isConnective p.1 = false ∧
        Reading.foldedOperators.contains p.1 = true ∧ p.1 ∈ Function.truthNames := by
      decide
    obtain ⟨hconnective, hfolded, htruth⟩ := hnames _ (mem_of_lookup hop)
    exact firmsTo_truth _ (by rw [function?, hk]; rfl)
      (folds_of_literals hk ha hb hconnective hfolded) (Function.toLower_truthNames htruth)
  next => exact absurd h (by simp)

theorem firms_test (dialect : Dialects) : Firms s (test dialect) := by
  intro above f r h
  obtain ⟨c, hc, h⟩ := Option.bind_eq_some_iff.mp h
  split at h
  next x hargs =>
    obtain ⟨v, hv, h⟩ := Option.bind_eq_some_iff.mp h
    obtain ⟨test, htest, h⟩ := Option.bind_eq_some_iff.mp h
    obtain rfl := Option.some.inj h
    obtain ⟨hname, -⟩ := isnull_of_constantTest? htest
    have hk := kind_of_call? hc
    refine firmsTo_truth _ (by rw [function?, hk]; rfl) ?_ (by rw [hname]; decide)
    rw [reading_of_isnull hk hname hargs]
    exact literal_of_literal? hv
  next => exact absurd h (by simp)

theorem firms_connective : Firms s connective := by
  intro above f r h
  obtain ⟨op, left, right, v, other, hk, hoperands, hop⟩ := connective_cases h
  have hconnective : isConnective op = true := by
    rcases hop with ⟨rfl, -⟩ | ⟨rfl, -⟩ <;> rfl
  have htruth : op.toLower ∈ Function.truthNames := by
    refine Function.toLower_truthNames ?_
    rcases hop with ⟨rfl, -⟩ | ⟨rfl, -⟩ <;> decide
  have hf : f.reading = .binary op left right := reading_of_kind hk
  have hname : f.function? = some op := by rw [function?, hk]; rfl
  have hfolds : f.reading.folds prospects = true := by
    rw [hf, Reading.folds, if_pos hconnective, Bool.or_eq_true]
    exact hoperands.imp (fun h => literal_of_literal? h.1) fun h => literal_of_literal? h.1
  have hother : FirmsTo s f other := by
    refine firmsTo_heir (Kind.mem_heirs.mpr (Or.inl ?_))
    rw [show f.kind.reading = .binary op left right from hf]
    exact Reading.mem_heirs_binary.mpr ⟨hconnective,
      hoperands.imp (And.imp_left literal_of_literal?) (And.imp_left literal_of_literal?)⟩
  rcases hop with ⟨-, rfl⟩ | ⟨-, rfl⟩
  · split
    · exact hother
    · exact firmsTo_truth _ hname hfolds htruth
  · split
    · exact firmsTo_truth _ hname hfolds htruth
    · exact hother

theorem firms_doubleAggregation : Firms s doubleAggregation := by
  intro above f r h
  obtain ⟨outer, houter, h⟩ := Option.bind_eq_some_iff.mp h
  split at h
  next x hargs =>
    obtain ⟨inner, -, h⟩ := Option.bind_eq_some_iff.mp h
    split at h
    next hcond =>
      obtain rfl := Option.some.inj h
      simp only [Bool.and_eq_true] at hcond
      refine firmsTo_heir (Kind.mem_heirs.mpr (Or.inr ⟨?_, aggregate_iff.mpr (Or.inl ?_)⟩))
      · exact Kind.collapsible?_eq_some.mpr
          ⟨outer, kind_of_call? houter, hargs, hcond.1.1.1.1.1⟩
      · exact hcond.1.1.2
    next => exact absurd h (by simp)
  next => exact absurd h (by simp)

/-! ## Conditionals -/

section Conditionals

variable {bs : List (Branch Formula)} {e subject : Formula} {name : String} {a : TypedSql}

theorem exists_lowering {cs : List Formula} {as : List TypedSql}
    (h : List.Forall₂ (fun c a => c.lower s = .ok a) cs as) :
    ∃ g : Formula → TypedSql, (∀ c ∈ cs, c.lower s = .ok (g c)) ∧ as = cs.map g := by
  refine ⟨fun c => (c.lower s).toOption.getD Literal.null.lower, ?_, ?_⟩
  · intro c hc
    obtain ⟨a, -, ha⟩ := forall₂_exists_right h hc
    simp only [ha, Except.toOption, Option.getD_some]
  · induction h with
    | nil => rfl
    | cons ha _ ih => rw [List.map_cons, ← ih, ha]; rfl

/-- A formula that is made of parts of another and written through the same function. -/
theorem firmsTo_pruned (hname : f.function? = some name) (hrname : r.function? = some name)
    (haggregate : r.isAggregateCall = f.isAggregateCall) (hheirs : r.heirs ⊆ f.heirs)
    (hfolds : r.reading.folds prospects = false) (hwritten : r.written ⊆ f.written)
    (hdispatch : ∀ (g : Formula → TypedSql) a,
      Lowering.dispatch s name false (f.written.map g) = .ok a →
      (∀ c ∈ f.heirs, (g c).type.base = a.type.base) →
      ∃ b, Lowering.dispatch s name false (r.written.map g) = .ok b ∧ a.FirmsTo b) :
    FirmsTo s f r := by
  refine ⟨fun h => ?_, fun h => ?_, fun hsteady a ha => ?_⟩
  · rcases literal_iff.mp h with h | ⟨c, hc, h⟩
    · exact absurd h (by simp [hfolds])
    · exact literal_iff.mpr (Or.inr ⟨c, hheirs hc, h⟩)
  · exact aggregate_iff.mpr ((aggregate_iff.mp h).imp haggregate.symm.trans
      fun ⟨c, hc, h⟩ => ⟨c, hheirs hc, h⟩)
  · obtain ⟨hbases, hparts⟩ := steady_iff.mp hsteady
    obtain ⟨as, has, ha'⟩ := (lower_function_eq_ok hname).mp ha
    obtain ⟨g, hg, rfl⟩ := exists_lowering has
    obtain ⟨b, hb, hab⟩ := hdispatch g a ha' fun c hc => by
      have hbase := hbases c hc
      rw [base?_of_lower (hg c (Kind.mem_written_of_heirs hc)), base?_of_lower ha] at hbase
      exact Option.some.inj hbase
    have hlower : r.lower s = .ok b := by
      refine (lower_function_eq_ok hrname).mpr ⟨_, ?_, hb⟩
      rw [List.forall₂_map_right_iff]
      exact List.forall₂_same.mpr fun c hc => hg c (hwritten hc)
    refine ⟨steady_iff.mpr ⟨fun c hc => ?_, fun c hc => hparts c (hwritten hc)⟩, b, hlower, hab⟩
    rw [hbases c (hheirs hc), base?_of_lower ha, base?_of_lower hlower, hab.1.1]

/-- The values that are left are among those that were there. -/
theorem Left.values {p : Pruned} (h : Left p bs e) :
    p.branches.map Branch.value ++ [p.otherwise] ⊆ bs.map Branch.value ++ [e] := by
  intro c hc
  rcases List.mem_append.mp hc with hc | hc
  · exact List.mem_append_left _ (List.map_subset Branch.value h.1 hc)
  · obtain rfl := List.mem_singleton.mp hc
    rcases h.2 with h | ⟨b, hb, h⟩
    · exact List.mem_append_right _ (h ▸ List.mem_cons_self)
    · exact List.mem_append_left _ (h ▸ List.mem_map_of_mem hb)

theorem Left.parts {p : Pruned} (h : Left p bs e) :
    p.branches.flatMap Branch.parts ++ [p.otherwise] ⊆ bs.flatMap Branch.parts ++ [e] := by
  intro c hc
  rcases List.mem_append.mp hc with hc | hc
  · obtain ⟨b, hb, hc⟩ := List.mem_flatMap.mp hc
    exact List.mem_append_left _ (List.mem_flatMap.mpr ⟨b, h.1 hb, hc⟩)
  · exact Reading.mem_parts_of_value (h.values (List.mem_append_right _ hc))

/-- Some condition was a literal if a branch has gone. -/
theorem exists_literal_test (h : ¬ ∀ b ∈ bs, b.test.literal? = none) :
    ∃ b ∈ bs, b.test.prospects.literal = true := by
  obtain ⟨b, hb⟩ := not_forall.mp h
  obtain ⟨hb, hliteral⟩ := Classical.not_imp.mp hb
  obtain ⟨v, hv⟩ := Option.ne_none_iff_exists'.mp hliteral
  exact ⟨b, hb, literal_of_literal? hv⟩

/-- The heirs of a node that is read. -/
theorem mem_heirs_of_reading {x : Reading Formula} (hf : f.reading = x) (hx : x ≠ .unread)
    {c : Formula} : c ∈ f.heirs ↔ c ∈ x.heirs prospects := by
  subst hf
  exact Kind.mem_heirs_of_read hx

theorem written_of_reading {x : Reading Formula} (hf : f.reading = x) (hx : x ≠ .unread) :
    f.written = x.parts := by
  subst hf
  exact Kind.written_of_read hx

/-- A conditional is left without some of its branches, or one value is left of it. The subject of
a CASE stands before the branches. -/
theorem firmsTo_pruneBranches {c : Function.Conditional} (hc : c ∈ [Function.ifs, Function.cases])
    (xs : List Formula) (hxs : xs.length + 3 = c.least) {p : Pruned} (hleft : Left p bs e)
    (hname : f.function? = some name) (hcname : name.toLower ∈ c.names)
    (hwritten : f.written = xs ++ (bs.flatMap Branch.parts ++ [e]))
    (hheirs : p.branches.map Branch.value ++ [p.otherwise] ⊆ f.heirs)
    (hr : (p.branches = [] ∧ r = p.otherwise) ∨ p.branches ≠ [] ∧
      r.written = xs ++ (p.branches.flatMap Branch.parts ++ [p.otherwise]) ∧
        r.heirs ⊆ p.branches.map Branch.value ++ [p.otherwise] ∧
          r.reading.folds prospects = false ∧ r.function? = f.function? ∧
            r.isAggregateCall = f.isAggregateCall) : FirmsTo s f r := by
  rcases hr with ⟨-, rfl⟩ | ⟨hne, hrwritten, hrheirs, hfolds, hfunction, haggregate⟩
  · exact firmsTo_heir (hheirs (List.mem_append_right _ List.mem_cons_self))
  · have hparts : r.written ⊆ f.written := by
      rw [hrwritten, hwritten]
      exact List.append_subset.mpr ⟨List.subset_append_left _ _,
        List.Subset.trans hleft.parts (List.subset_append_right _ _)⟩
    refine firmsTo_pruned hname (hfunction.trans hname) haggregate
      (List.Subset.trans hrheirs hheirs) hfolds hparts fun g a hdispatch hbases => ?_
    have hsub := List.map_subset g hparts
    rw [hrwritten, List.map_append, List.map_append, ← parts_map, List.map_singleton] at hsub ⊢
    refine Lowering.dispatch_branches hc hcname hdispatch (by rwa [List.length_map])
      (by simpa using hne) hsub fun v hv => ?_
    rw [← Function.map_values] at hv
    obtain ⟨c, hc, rfl⟩ := List.mem_map.mp hv
    exact hbases c (hheirs hc)

theorem firmsTo_pruneIf {p : Pruned} (hf : f.reading = .conditional bs e) (hleft : Left p bs e)
    (htest : ∃ b ∈ bs, b.test.prospects.literal = true)
    (hr : (p.branches = [] ∧ r = p.otherwise) ∨
      p.branches ≠ [] ∧ r.reading = .conditional p.branches p.otherwise ∧
        r.function? = f.function? ∧ r.isAggregateCall = f.isAggregateCall) : FirmsTo s f r := by
  obtain ⟨name, hname, hif⟩ := Kind.function?_of_conditional hf
  refine firmsTo_pruneBranches List.mem_cons_self [] rfl hleft hname hif
    (written_of_reading hf (by simp)) (fun c hc => ?_) (hr.imp_right ?_)
  · exact (mem_heirs_of_reading hf (by simp)).mpr
      (Reading.mem_heirs_conditional.mpr ⟨htest, hleft.values hc⟩)
  · rintro ⟨hne, hr, hfunction, haggregate⟩
    refine ⟨hne, written_of_reading hr (by simp), fun c hc => ?_, by rw [hr]; rfl, hfunction,
      haggregate⟩
    exact (Reading.mem_heirs_conditional.mp ((mem_heirs_of_reading hr (by simp)).mp hc)).2

theorem firmsTo_pruneCase {p : Pruned} (hf : f.reading = .choice subject bs e)
    (hleft : Left p bs e) (hsubject : subject.prospects.literal = true)
    (htest : ∃ b ∈ bs, b.test.prospects.literal = true)
    (hr : (p.branches = [] ∧ r = p.otherwise) ∨
      p.branches ≠ [] ∧ r.reading = .choice subject p.branches p.otherwise ∧
        r.function? = f.function? ∧ r.isAggregateCall = f.isAggregateCall) : FirmsTo s f r := by
  obtain ⟨name, hname, hcase⟩ := Kind.function?_of_choice hf
  refine firmsTo_pruneBranches (List.mem_cons_of_mem _ List.mem_cons_self) [subject] rfl hleft
    hname hcase (written_of_reading hf (by simp)) (fun c hc => ?_) (hr.imp_right ?_)
  · exact (mem_heirs_of_reading hf (by simp)).mpr
      (Reading.mem_heirs_choice.mpr ⟨hsubject, htest, hleft.values hc⟩)
  · rintro ⟨hne, hr, hfunction, haggregate⟩
    refine ⟨hne, written_of_reading hr (by simp), fun c hc => ?_, by rw [hr]; rfl, hfunction,
      haggregate⟩
    exact (Reading.mem_heirs_choice.mp ((mem_heirs_of_reading hr (by simp)).mp hc)).2.2

theorem function?_withBranches (f : Formula) (bs : List (Branch Formula)) (e : Formula) :
    (withBranches f bs e).function? = f.function? := by
  unfold withBranches
  split
  next hk => rw [function?, function?, hk]; rfl
  next hk => rw [function?, function?, hk]; rfl
  next hk => rw [function?, function?, hk]; rfl
  next => rfl

theorem isAggregateCall_withBranches (f : Formula) (bs : List (Branch Formula)) (e : Formula) :
    (withBranches f bs e).isAggregateCall = f.isAggregateCall := by
  unfold withBranches
  split
  next hk => rw [isAggregateCall, isAggregateCall, call?, call?, hk]; rfl
  next hk => rw [isAggregateCall, isAggregateCall, call?, call?, hk]; rfl
  next hk => rw [isAggregateCall, isAggregateCall, call?, call?, hk]; rfl
  next => rfl

theorem firms_conditional : Firms s conditional := by
  intro above f r h
  rcases conditional_cases h with ⟨bs, e, hf, h⟩ | ⟨subject, v, bs, e, hf, hv, h⟩
  · obtain ⟨hlength, hr⟩ := rebuilt_eq_some h
    have htests : ¬ ∀ b ∈ bs, b.test.literal? = none := fun hnone =>
      hlength (length_pruneBy_eq.mpr fun b hb => isTrue?_eq_none.mpr (hnone b hb))
    refine firmsTo_pruneIf hf left_pruneBy (exists_literal_test htests) (hr.imp_right ?_)
    rintro ⟨hne, rfl⟩
    exact ⟨hne, reading_withBranches_conditional hf _ _, function?_withBranches _ _ _,
      isAggregateCall_withBranches _ _ _⟩
  · obtain ⟨hlength, hr⟩ := rebuilt_eq_some h
    have htests : ¬ ∀ b ∈ bs, b.test.literal? = none := fun hnone =>
      hlength (length_pruneBy_eq.mpr fun b hb => isSubject?_eq_none.mpr (hnone b hb))
    refine firmsTo_pruneCase hf left_pruneBy (literal_of_literal? hv) (exists_literal_test htests)
      (hr.imp_right ?_)
    rintro ⟨hne, rfl⟩
    exact ⟨hne, reading_withBranches_choice hf _ _, function?_withBranches _ _ _,
      isAggregateCall_withBranches _ _ _⟩

end Conditionals

/-! ## All rules -/

theorem firms_rules (dialect : Dialects) : ∀ rule ∈ rules dialect, Firms s rule := by
  simp only [rules, List.forall_mem_cons, List.not_mem_nil, false_imp_iff, implies_true, and_true]
  exact ⟨firms_arithmetic, firms_doubleAggregation, firms_comparison, firms_connective,
    firms_test dialect, firms_conditional⟩

theorem Firms.transform {rule : Rule} (h : Firms s rule) (f : Formula) :
    FirmsTo s f (f.transform rule) :=
  transform_rel (Q := fun _ => True) (fun _ _ _ _ => trivial) (fun f _ => .refl f)
    (fun _ _ _ hcs => firmsTo_withChildren hcs)
    (fun above _ g r _ _ hfg hr => hfg.trans (h above g r hr)) trivial

theorem firmsTo_settle {rules : List Rule} (h : ∀ rule ∈ rules, Firms s rule) (rounds : Nat)
    (f : Formula) : FirmsTo s f (settle rules rounds f) :=
  settle_rel FirmsTo.refl (fun _ _ _ => FirmsTo.trans)
    (fun rule hrule f => (h rule hrule).transform f) rounds f

end Simplify

namespace Formula

/-- A steady formula that can be lowered can be lowered after it has been simplified, and its type
is the same, constness apart. -/
theorem optimize_lowers {s : Scope} {f : Formula} {a : TypedSql} (hsteady : f.steady s = true)
    (h : f.lower s = .ok a) (dialect : Dialects) :
    ∃ b, (f.optimize dialect).lower s = .ok b ∧ a.type.FirmsTo b.type := by
  have hfirms : FirmsTo s f (f.optimize dialect) :=
    Simplify.firmsTo_settle (Simplify.firms_rules dialect) maxRounds f
  obtain ⟨-, b, hb, hab⟩ := hfirms.lowers hsteady a h
  exact ⟨b, hb, hab.1⟩

/-- Sales where there are more than two, and otherwise the greatest of them. -/
def foldedSales : Formula :=
  .ifBlock
    [⟨.binary "and" (.binary ">" (.field "sales") (.int 2)) (.binary "==" (.int 1) (.int 1)),
        .call "case" [.lit (.string "b"), .lit (.string "a"), .int 0, .lit (.string "b"),
          .field "sales", .int 5]⟩,
      ⟨.call "isnull" [.lit .null], .call "max" [.call "min" [.field "sales"]]⟩]
    (.int 7)

theorem optimize_lowers_foldedSales :
    (∃ b, (foldedSales.optimize .dummy).lower sales = .ok b ∧ b.type.base = .integer) ∧
      (foldedSales.optimize .dummy).size < foldedSales.size := by
  have hok : ((foldedSales.lower sales).toOption.any fun a => a.type == .plain .integer) = true := by
    decide +kernel
  obtain ⟨a, ha, htype⟩ := exists_eq_ok hok
  obtain ⟨b, hb, hfirms⟩ := optimize_lowers (by decide +kernel) ha .dummy
  refine ⟨⟨b, hb, ?_⟩, by decide +kernel⟩
  rw [hfirms.1, beq_iff_eq.mp htype]
  rfl

/-- A comparison with a conditional whose condition is always true. -/
def comparedChoice : Formula :=
  .binary "==" (.call "if" [.lit (.boolean true), .lit .null, .field "sales"]) (.int 5)

/-- The NULL that is left of the conditional cannot be compared with. -/
theorem optimize_not_lowers :
    (∃ a, comparedChoice.lower sales = .ok a) ∧
      ∀ b, (comparedChoice.optimize sales.dialect).lower sales ≠ .ok b := by
  have hok : ((comparedChoice.lower sales).toOption.any fun a => a.type == .plain .boolean) =
      true := by
    decide +kernel
  have hfails : ((comparedChoice.optimize sales.dialect).lower sales).toOption.isNone = true := by
    decide +kernel
  obtain ⟨a, ha, -⟩ := exists_eq_ok hok
  refine ⟨⟨a, ha⟩, fun b hb => ?_⟩
  rw [hb] at hfails
  exact absurd hfails (by simp [Except.toOption])

end Formula

end FormulaSql
