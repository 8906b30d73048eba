import FormulaSql.Proofs.Function.CommonType
import FormulaSql.Proofs.Lowering.Firming
import FormulaSql.Proofs.Query.Simplification

/-!
# The types of operators and conditionals

What is known before the query runs is put in the place of operators, conditionals and tests. Their
definitions tell which types they give: comparisons and connectives a truth value, arithmetic on
constants a number, and a conditional the common type of its values.

* `Function.base_of_truth`, `Function.base_of_math`, `Function.type_branches`
* `Lowering.dispatch_branches`: a conditional is still written after some of its branches have
  gone, if the values that are left have the type of the whole
-/

namespace FormulaSql

namespace Function

variable {name : String} {ts : List DataType} {isWindow : Bool} {dialect : Dialects}
  {scopes : Scopes} {r : Resolution} {d : Definition}

/-! ## Truth values -/

theorem base_of_truth (h : resolve name ts isWindow dialect scopes = .ok r)
    (hname : name.toLower ∈ truthNames) : r.returnType.base = .boolean := by
  obtain ⟨-, -, htype⟩ := resolve_eq_ok h
  obtain ⟨hmem, hdname, -⟩ := mem_catalogue_of_resolve h
  have hfixed := (catalogue_listed _ hmem).truth (hdname ▸ hname)
  rw [htype, base_returnTypeFor, ReturnType.base_of_fixed? hfixed]
  rfl

/-! ## Arithmetic -/

/-- A quotient is a float, and so is everything that is computed with a float. -/
def mathType (op : String) (a b : BaseType) : BaseType :=
  if op == "/" || a == .float || b == .float then .float else .integer

/-- Where a definition for floats takes integers, there is one for integers to be tried before. -/
theorem catalogue_math : ∀ d ∈ catalogue, d.name ∈ mathNames →
    ∀ a ∈ [BaseType.integer, .float], ∀ b ∈ [BaseType.integer, .float],
      d.accepts [.const a, .const b] = true →
        (d.returns.base [.const a, .const b]).base = mathType d.name a b ∨
          ∃ d' ∈ catalogue, d'.priority < d.priority ∧ d'.name = d.name ∧
            d'.isWindow = d.isWindow ∧ d'.allScopes = d.allScopes ∧ d'.arity = d.arity ∧
            d'.accepts [.const a, .const b] = true := by
  decide +kernel

/-- The definition that is found is one of those to be tried first. -/
theorem priority_le_of_resolve (h : resolve name ts isWindow dialect scopes = .ok r)
    (hd : d ∈ catalogue) (hname : d.name = r.definition.name)
    (hwindow : d.isWindow = r.definition.isWindow) (hscopes : d.allScopes = r.definition.allScopes)
    (harity : d.arity = r.definition.arity) (haccepts : d.accepts ts = true) :
    r.definition.priority ≤ d.priority := by
  obtain ⟨hfind, -⟩ := resolve_eq_ok h
  obtain ⟨-, hrname, hrwindow, hrscopes, hrarity⟩ :=
    mem_candidatesIn.mp (List.mem_of_find?_eq_some hfind)
  refine rank_le_of_find? Definition.priority (candidatesIn_sorted ts.length) hfind ?_
    haccepts
  exact mem_candidatesIn.mpr ⟨hd, hname.trans hrname, hwindow.trans hrwindow, hscopes ▸ hrscopes,
    harity ▸ hrarity⟩

theorem base_of_math (h : resolve name [.const a, .const b] isWindow dialect scopes = .ok r)
    (hname : name ∈ mathNames) (ha : a ∈ [BaseType.integer, .float])
    (hb : b ∈ [BaseType.integer, .float]) : r.returnType.base = mathType name a b := by
  obtain ⟨-, -, htype⟩ := resolve_eq_ok h
  obtain ⟨hmem, hdname, -, haccepts⟩ := mem_catalogue_of_resolve h
  rw [toLower_names name (List.mem_append_left _ (List.mem_append_right _ hname))] at hdname
  rw [htype, base_returnTypeFor, ← hdname]
  rcases catalogue_math _ hmem (hdname ▸ hname) a ha b hb haccepts with
    hbase | ⟨d, hd, hpriority, hname', hwindow, hscopes, harity, haccepts'⟩
  · exact hbase
  · exact absurd (priority_le_of_resolve h hd hname' hwindow hscopes harity haccepts')
      (Nat.not_le_of_lt hpriority)

/-! ## Conditionals -/

/-- A conditional function: its names, how many arguments it needs, how its type follows from
those of the arguments, and how it is written. -/
structure Conditional where
  names : List String
  least : Nat
  type : List DataType → DataType
  emit : Emit.Writer

def ifs : Conditional := ⟨["if", ifBlockName], 3, ifType, conditional⟩

def cases : Conditional := ⟨["case", caseBlockName], 4, caseType, selection⟩

/-- The definition is that of a conditional function. -/
def Conditional.Defines (c : Conditional) (d : Definition) : Prop :=
  ∃ name argNames scopes, d = { logicalFunction name argNames (.atLeast c.least) (.derived c.type)
    c.emit with scopes }

/-- All definitions of logical functions stand in one list. -/
theorem mem_logic (hd : d ∈ catalogue) (hcategory : d.category = .logical) : d ∈ logic := by
  have hothers : ∀ d ∈ operators ++ aggregations ++ mathematics ++ conversions ++ texts ++
      dateFunctions ++ arrays ++ lookups ++ windows, d.category ≠ .logical := by
    decide
  have hd : d ∈ logic ∨ d ∈ operators ++ aggregations ++ mathematics ++ conversions ++ texts ++
      dateFunctions ++ arrays ++ lookups ++ windows := by
    simp only [catalogue, List.mem_append] at hd ⊢
    tauto
  exact hd.resolve_right fun hd => hothers d hd hcategory

/-- The conditional functions have no definitions but their own. -/
theorem catalogue_conditional : ∀ c ∈ [ifs, cases], ∀ d ∈ catalogue, d.name ∈ c.names →
    c.Defines d := by
  intro c hc d hd hname
  have hlogic : d ∈ logic := by
    refine mem_logic hd ((catalogue_listed d hd).logical ?_)
    rcases List.mem_pair.mp hc with rfl | rfl
    · exact List.mem_append_left cases.names hname
    · exact List.mem_append_right ifs.names hname
  simp only [logic, List.mem_cons, List.not_mem_nil, or_false] at hlogic
  rcases List.mem_pair.mp hc with rfl | rfl
  · rcases hlogic with rfl | rfl | rfl | rfl | rfl | rfl | rfl | rfl
    · exact ⟨_, _, _, rfl⟩
    · exact ⟨_, _, _, rfl⟩
    all_goals exact absurd hname (by decide)
  · rcases hlogic with rfl | rfl | rfl | rfl | rfl | rfl | rfl | rfl
    · exact absurd hname (by decide)
    · exact absurd hname (by decide)
    · exact ⟨_, _, _, rfl⟩
    · exact ⟨_, _, _, rfl⟩
    all_goals exact absurd hname (by decide)

/-- A conditional that is defined is resolved for any list of arguments that is long enough. -/
theorem resolve_of_conditional {c : Conditional} (dialect : Dialects) (hc : c ∈ [ifs, cases])
    (hname : name.toLower ∈ c.names) (hd : d ∈ catalogue) (hdname : d.name = name.toLower)
    (hwindow : d.isWindow = isWindow) (hscopes : d.allScopes.contains scopes = true)
    (hts : c.least ≤ ts.length) :
    ∃ r, resolve name ts isWindow dialect scopes = .ok r ∧ c.Defines r.definition ∧
      r.variant.emit = c.emit := by
  have hdefines := catalogue_conditional c hc d hd (hdname ▸ hname)
  have hcandidate : d ∈ candidatesIn catalogue name ts.length isWindow scopes := by
    refine mem_candidatesIn.mpr ⟨hd, hdname, hwindow, hscopes, ?_⟩
    obtain ⟨_, _, _, rfl⟩ := hdefines
    exact decide_eq_true hts
  have haccepts : d.accepts ts = true := by
    obtain ⟨_, _, _, rfl⟩ := hdefines
    rfl
  obtain ⟨d', hfind⟩ := exists_find? hcandidate haccepts
  obtain ⟨hmem, hname', -⟩ := mem_candidatesIn.mp (List.mem_of_find?_eq_some hfind)
  obtain ⟨v, hv⟩ := exists_variantFor? hmem dialect
  have hdefines' := catalogue_conditional c hc d' hmem (hname' ▸ hname)
  refine ⟨_, resolve_of_find? hfind hv, hdefines', ?_⟩
  have hvariant := Definition.mem_of_variantFor? hv
  obtain ⟨_, _, _, rfl⟩ := hdefines'
  rw [List.mem_singleton.mp hvariant]
  rfl

/-- With other arguments a conditional is resolved to a definition of the same kind. -/
theorem resolve_conditional {c : Conditional} (hc : c ∈ [ifs, cases])
    (hname : name.toLower ∈ c.names) (h : resolve name ts isWindow dialect scopes = .ok r)
    {us : List DataType} (hus : c.least ≤ us.length) :
    ∃ r', resolve name us isWindow dialect scopes = .ok r' ∧ c.Defines r'.definition ∧
      r'.variant.emit = c.emit := by
  obtain ⟨hfind, -⟩ := resolve_eq_ok h
  obtain ⟨hmem, hdname, hwindow, hscopes, -⟩ :=
    mem_candidatesIn.mp (List.mem_of_find?_eq_some hfind)
  exact resolve_of_conditional dialect hc hname hmem hdname hwindow hscopes hus

/-- A conditional is resolved for lists of arguments that are long enough only. -/
theorem least_le_of_resolve {c : Conditional} (hc : c ∈ [ifs, cases])
    (hname : name.toLower ∈ c.names) (h : resolve name ts isWindow dialect scopes = .ok r) :
    c.least ≤ ts.length := by
  obtain ⟨hfind, -⟩ := resolve_eq_ok h
  obtain ⟨hmem, hdname, -, -, harity⟩ := mem_candidatesIn.mp (List.mem_of_find?_eq_some hfind)
  obtain ⟨_, _, _, hd⟩ := catalogue_conditional c hc _ hmem (hdname ▸ hname)
  rw [hd] at harity
  exact of_decide_eq_true harity

/-- The type of a conditional, and when it is constant. -/
theorem Conditional.Defines.returnTypeFor {c : Conditional} (hd : c.Defines d) (ts : List DataType) :
    (d.returnTypeFor ts).base = (c.type ts).base ∧
      (ts ≠ [] → (∀ t ∈ ts, t.isConst = true) → (d.returnTypeFor ts).isConst = true) := by
  obtain ⟨_, _, _, rfl⟩ := hd
  refine ⟨base_returnTypeFor _ ts, fun hne hconst => ?_⟩
  rw [Definition.returnTypeFor, if_pos]
  · rfl
  · exact Definition.isConstFor_iff.mpr ⟨rfl, Category.noConfusion, hne, hconst⟩

/-! ## The values of a conditional -/

section Branches

variable {α β : Type}

theorem map_values (g : α → β) (bs : List (Branch α)) (e : α) :
    (bs.map Branch.value ++ [e]).map g = (bs.map (·.map g)).map Branch.value ++ [g e] := by
  rw [List.map_append, List.map_map, List.map_map]
  rfl

/-- The values stand at every second position, and at the last one. -/
theorem filter_zipIdx_parts (isValue : Nat → Bool) (bs : List (Branch α)) (e : α) {k n : Nat}
    (hvalue : ∀ i, isValue (k + 2 * i) = false ∧ isValue (k + 2 * i + 1) = true)
    (hn : n = k + 2 * bs.length + 1) :
    (((bs.flatMap Branch.parts ++ [e]).zipIdx k).filter fun (_, i) =>
        isValue i || i + 1 == n).map (·.1) = bs.map Branch.value ++ [e] := by
  induction bs generalizing k with
  | nil => simp [hn]
  | cons b bs ih =>
      have hfirst := hvalue 0
      rw [Nat.mul_zero, Nat.add_zero] at hfirst
      have hlater : (k + 1 == n) = false := by
        rw [List.length_cons] at hn
        exact beq_eq_false_iff_ne.mpr (by omega)
      have hrest := ih (k := k + 1 + 1) (fun i => ?_) ?_
      · simp only [List.flatMap_cons, Branch.parts, List.cons_append, List.nil_append,
          List.zipIdx_cons, List.filter_cons, hfirst, hlater, Bool.or_false, Bool.true_or,
          Bool.false_eq_true, if_false, if_true, List.map_cons]
        exact congrArg _ hrest
      · rw [show k + 1 + 1 + 2 * i = k + 2 * (i + 1) by omega]
        exact hvalue (i + 1)
      · rw [hn, List.length_cons]
        omega

end Branches

/-- The type of a conditional is the common type of its values. The subject of a CASE stands before
the branches. -/
theorem type_branches {c : Conditional} (hc : c ∈ [ifs, cases]) {xs : List DataType}
    (hxs : xs.length + 3 = c.least) (bs : List (Branch DataType)) (e : DataType) :
    c.type (xs ++ (bs.flatMap Branch.parts ++ [e])) =
      DataType.common (bs.map Branch.value ++ [e]) := by
  have hlength : (bs.flatMap Branch.parts ++ [e]).length = 2 * bs.length + 1 := by
    rw [List.length_append, Formula.length_flatMap_parts, List.length_singleton]
  rcases List.mem_pair.mp hc with rfl | rfl
  · obtain rfl := List.eq_nil_of_length_eq_zero (Nat.add_right_cancel hxs)
    refine congrArg DataType.common ?_
    refine filter_zipIdx_parts (fun i => i % 2 == 1) bs e (fun i => ?_) ?_
    · simp only [beq_eq_false_iff_ne, beq_iff_eq]
      omega
    · rw [List.nil_append, hlength, Nat.zero_add]
  · obtain ⟨x, rfl⟩ := List.length_eq_one_iff.mp (Nat.add_right_cancel hxs)
    refine congrArg DataType.common ?_
    rw [valueTypes, List.singleton_append, List.zipIdx_cons, List.filter_cons_of_neg (by simp)]
    refine filter_zipIdx_parts (fun i => 2 ≤ i && i % 2 == 0) bs e (fun i => ?_) ?_
    · simp only [Bool.and_eq_false_iff, Bool.and_eq_true, decide_eq_true_eq,
        beq_eq_false_iff_ne, beq_iff_eq]
      omega
    · rw [List.length_cons, hlength]
      omega

theorem type_map_branches {c : Conditional} (hc : c ∈ [ifs, cases]) {xs : List TypedSql}
    (hxs : xs.length + 3 = c.least) (bs : List (Branch TypedSql)) (e : TypedSql) :
    c.type ((xs ++ (bs.flatMap Branch.parts ++ [e])).map TypedSql.type) =
      DataType.common ((bs.map Branch.value ++ [e]).map TypedSql.type) := by
  rw [List.map_append, List.map_append, ← Simplify.parts_map, List.map_singleton,
    type_branches hc (by rwa [List.length_map]), map_values]

/-- A conditional with branches can be written. -/
theorem exists_emit_branches {c : Conditional} (hc : c ∈ [ifs, cases]) {xs : List TypedSql}
    (hxs : xs.length + 3 = c.least) {bs : List (Branch TypedSql)} (hne : bs ≠ []) (e : TypedSql) :
    ∃ sql, c.emit (xs ++ (bs.flatMap Branch.parts ++ [e])) = .ok sql := by
  have hpos := List.length_pos_iff.mpr hne
  have hlength := Formula.length_flatMap_parts bs
  rcases List.mem_pair.mp hc with rfl | rfl
  · obtain rfl := List.eq_nil_of_length_eq_zero (Nat.add_right_cancel hxs)
    refine ⟨_, if_neg ?_⟩
    simp only [List.nil_append, List.length_append, List.length_singleton, hlength, Bool.or_eq_true,
      decide_eq_true_eq, beq_iff_eq]
    omega
  · obtain ⟨x, rfl⟩ := List.length_eq_one_iff.mp (Nat.add_right_cancel hxs)
    refine ⟨_, if_neg ?_⟩
    simp only [List.length_append, List.length_singleton, hlength, Bool.or_eq_true,
      decide_eq_true_eq, beq_iff_eq]
    omega

end Function

/-! ## Writing what is left of a conditional -/

open FormulaSql.Function

namespace Lowering

variable {s : Scope} {name : String} {as : List TypedSql} {a : TypedSql}

theorem dispatch_conditional {c : Conditional} (hc : c ∈ [ifs, cases])
    (hname : name.toLower ∈ c.names) (h : dispatch s name false as = .ok a) {bs : List TypedSql}
    (hlength : c.least ≤ bs.length) (hbs : bs ⊆ as) (hemit : ∃ e, c.emit bs = .ok e)
    (hbase : (c.type (bs.map TypedSql.type)).base = a.type.base) :
    ∃ b, dispatch s name false bs = .ok b ∧ a.FirmsTo b := by
  have hunread := unread_dispatch h
  obtain ⟨r, hr, _, -, rfl⟩ := dispatch_eq_ok.mp h
  have htypes : c.least ≤ (bs.map TypedSql.type).length := by rwa [List.length_map]
  obtain ⟨r', hr', hdefines, hwrites⟩ := resolve_conditional hc hname hr htypes
  obtain ⟨hbase', hconst'⟩ := hdefines.returnTypeFor (bs.map TypedSql.type)
  obtain ⟨-, -, htype⟩ := resolve_eq_ok hr'
  rw [← htype] at hbase' hconst'
  obtain ⟨e, he⟩ := hemit
  refine ⟨_, dispatch_eq_ok.mpr ⟨r', hr', e, by rwa [hwrites], rfl⟩,
    ⟨hbase'.trans hbase, fun hconst => hconst' ?_ fun t ht => ?_⟩, hunread.keeps _⟩
  · have hpos : ∀ c ∈ [ifs, cases], 0 < c.least := by decide
    exact List.ne_nil_of_length_pos
      (by rw [List.length_map]; exact Nat.lt_of_lt_of_le (hpos c hc) hlength)
  · obtain ⟨b, hb, rfl⟩ := List.mem_map.mp ht
    have harray : ∀ c ∈ [ifs, cases], "array" ∉ c.names := by decide
    exact ((resolve_isConst hr hconst).2.2 b.type (List.mem_map_of_mem (hbs hb))).resolve_right
      fun hnull => harray c hc (hnull.1 ▸ hname)

/-- A conditional is still written with fewer branches, if their values have its type. The subject
of a CASE stands before them. -/
theorem dispatch_branches {c : Conditional} (hc : c ∈ [ifs, cases])
    (hname : name.toLower ∈ c.names) (h : dispatch s name false as = .ok a) {xs : List TypedSql}
    (hxs : xs.length + 3 = c.least) {bs : List (Branch TypedSql)} {e : TypedSql} (hne : bs ≠ [])
    (hbs : xs ++ (bs.flatMap Branch.parts ++ [e]) ⊆ as)
    (hvalues : ∀ v ∈ bs.map Branch.value ++ [e], v.type.base = a.type.base) :
    ∃ b, dispatch s name false (xs ++ (bs.flatMap Branch.parts ++ [e])) = .ok b ∧
      a.FirmsTo b := by
  have hpos := List.length_pos_iff.mpr hne
  refine dispatch_conditional hc hname h ?_ hbs (exists_emit_branches hc hxs hne e) ?_
  · rw [List.length_append, List.length_append, Formula.length_flatMap_parts,
      List.length_singleton]
    omega
  · rw [type_map_branches hc hxs]
    exact DataType.base_common (by simp) (List.forall_mem_map.mpr hvalues)

end Lowering

end FormulaSql
