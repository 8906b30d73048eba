import FormulaSql.Proofs.Lowering.Firming
import FormulaSql.Proofs.Query.Offers
import FormulaSql.Proofs.Text.Case
import FormulaSql.Query.Registry

/-!
# The units of lookups

A lookup some time ago is joined on its dimension shifted back, and if the unit is made of months,
on the day of the month as well. The unit is recognised twice. When the fork is made, it is the
first text among all arguments and has to be a name letter by letter. When the shifted dimension is
written, it stands at its position and may be in plural, with blanks around it.

* `Formula.literal_of_lowerText`: a text that can be read in SQL stands in the formula
* `Normalize.unit_of_lower` compares the two readings of the unit
* `Normalize.keepsDay_mem_joining`: the day is kept only for units made of months, and it is kept
  for these if they are called by their names and there is a dimension to join on
-/

namespace FormulaSql

/-- Units that are not a fixed number of days. -/
def TimeUnit.monthBased : List TimeUnit := [month, quarter, year]

/-- Every field is a column. -/
def Scope.ReadsColumns (s : Scope) : Prop :=
  ∀ f ∈ s.fields, ∃ table name, f.2.column = .column table name

theorem Registry.scope_readsColumns (r : Registry) (dialect : Dialects) :
    (r.scope dialect).ReadsColumns := by
  have hfold : ∀ (columns : List Column) (s : Scope), s.ReadsColumns →
      (columns.foldl (fun s c => s.withField c.fieldId
        ⟨.column (some c.avatarId) c.name, c.type, c.params⟩) s).ReadsColumns := by
    intro columns
    induction columns with
    | nil => exact fun s hs => hs
    | cons c columns ih =>
        intro s hs
        apply ih
        intro f hf
        rcases List.mem_cons.mp hf with rfl | hf
        · exact ⟨_, _, rfl⟩
        · exact hs f (List.mem_filter.mp hf).1
  exact hfold r.columns (.empty dialect) fun f hf => absurd hf List.not_mem_nil

/-! ## Texts in SQL -/

namespace Formula

variable {s : Scope} {f : Formula} {a : TypedSql} {x : String}

/-- A text that a writer can read is a text literal of the formula. -/
theorem literal_of_lowerText (hs : s.ReadsColumns) (h : f.lower s = .ok a)
    (hx : a.sql.lowerText? = some x) :
    ∃ text, f.literal? = some (.string text) ∧ x = Text.lower text := by
  have hunread {e : Sql} (he : e.Unread) : e.lowerText? ≠ some x := by
    simp [he.1]
  cases hname : f.function? with
  | some name =>
      obtain ⟨as, -, hdispatch⟩ := (lower_function_eq_ok hname).mp h
      exact absurd hx (hunread (Lowering.unread_dispatch hdispatch))
  | none =>
      cases hk : f.kind with
      | field n =>
          obtain ⟨info, hinfo, rfl⟩ := (lower_field hk).mp h
          obtain ⟨before, after, hfields, -⟩ := List.lookup_eq_some_iff.mp hinfo
          obtain ⟨table, name, hcolumn⟩ := hs (n, info) (by simp [hfields])
          rw [hcolumn] at hx
          exact absurd hx (hunread ⟨rfl, rfl⟩)
      | literal v =>
          obtain rfl := Except.ok.inj ((lower_literal hk).symm.trans h)
          cases v with
          | string text => exact ⟨text, by rw [literal?, hk], (Option.some.inj hx).symm⟩
          | _ => exact absurd hx (by simp [Literal.lower, Sql.lowerText?, Sql.literal?])
      | paren e =>
          obtain ⟨b, -, rfl⟩ := (lower_paren hk).mp h
          exact absurd hx (hunread ⟨rfl, rfl⟩)
      | ordered e d =>
          obtain ⟨b, -, rfl⟩ := (lower_ordered hk).mp h
          exact absurd hx (hunread ⟨rfl, rfl⟩)
      | window w =>
          obtain ⟨_, -, _, _, _, r, -, -, -, -, rfl⟩ := (lower_window hk).mp h
          exact absurd hx (hunread (Lowering.unread_overWindow _ _ _))
      | fork q =>
          rw [lower_eq, hk] at h
          exact absurd h (by simp [Kind.map, Lowering.step])
      | error message code =>
          rw [lower_eq, hk] at h
          exact absurd h (by simp [Kind.map, Lowering.step])
      | _ => exact absurd hname (by simp [function?, hk, Kind.function?])

end Formula

/-! ## Shifts of dates -/

namespace Function

open TypeFamily

variable {d : Definition}

theorem mem_dateFunctions (hd : d ∈ catalogue) (hcategory : d.category = .datetime) :
    d ∈ dateFunctions := by
  have hothers : ∀ d ∈ operators ++ logic ++ aggregations ++ mathematics ++ conversions ++ texts ++
      arrays ++ lookups ++ windows, d.category ≠ .datetime := by
    decide
  have hd : d ∈ dateFunctions ∨ d ∈ operators ++ logic ++ aggregations ++ mathematics ++
      conversions ++ texts ++ arrays ++ lookups ++ windows := by
    simp only [catalogue, List.mem_append] at hd ⊢
    tauto
  exact hd.resolve_right fun hd => hothers d hd hcategory

/-- Whatever is written for a shift is written from its reading as one. -/
theorem dateadd_cases (hd : d ∈ catalogue) (hname : d.name = "dateadd") :
    d.argTypes =
      [.sequence [datelike], .sequence [datelike, constStrings], .sequence [datelike, integers],
        .sequence [datelike, constStrings, integers]] ∧
    ∀ v ∈ d.variants, ∀ args e, v.emit args = .ok e → ∃ m, dateShift args = .ok m := by
  have hcategory : ∀ d ∈ catalogue, d.name = "dateadd" → d.category = .datetime := by
    decide +kernel
  have hmem := mem_dateFunctions hd (hcategory d hd hname)
  simp only [dateFunctions, List.mem_cons, List.not_mem_nil, or_false] at hmem
  rcases hmem with rfl | rfl | rfl | rfl | rfl | rfl | rfl | rfl
  · refine ⟨rfl, fun v hv args e he => ?_⟩
    simp only [List.mem_cons, List.not_mem_nil, or_false] at hv
    rcases hv with rfl | rfl | rfl
    all_goals
      obtain ⟨m, hm, -⟩ := bind_eq_ok.mp he
      exact ⟨m, hm⟩
  all_goals exact absurd hname (by decide)

/-- An integer in the place of the unit is the last argument. -/
theorem dateadd_integer {t n : DataType} {ts : List DataType} (hd : d ∈ catalogue)
    (hname : d.name = "dateadd") (h : d.accepts (t :: n :: ts) = true) (hn : n.base = .integer) :
    ts = [] := by
  rw [Definition.accepts, (dateadd_cases hd hname).1] at h
  cases ts with
  | nil => rfl
  | cons m ts =>
      have htext : n.castsTo (.const .string) = true := by
        simp only [List.any_cons, List.any_nil, ArgTypes.accepts, ArgTypes.fitPositions,
          DataType.castsToAny, constStrings, ofConst, List.map_cons, List.map_nil, Bool.or_false,
          Bool.and_false, Bool.false_or, Bool.and_eq_true] at h
        exact h.2.1
      rcases DataType.castsTo_iff.mp htext with hnull | ⟨hwidens, -⟩
      · rw [DataType.isNull, hn] at hnull
        exact absurd hnull (by decide)
      · rw [hn] at hwidens
        exact absurd hwidens (by decide)

/-- The unit is read from a text in its place, and days are meant if it is left out. -/
theorem dateShift_cases {x : TypedSql} {args : List TypedSql} {m : DateShift}
    (h : dateShift (x :: args) = .ok m) :
    m.unit = .day ∧ (args = [] ∨ ∃ a rest, args = a :: rest ∧ a.type.base = .integer) ∨
      ∃ a rest text, args = a :: rest ∧ a.sql.lowerText? = some text ∧
        TimeUnit.parse text = .ok m.unit := by
  obtain ⟨value, -, h⟩ := bind_eq_ok.mp h
  cases args with
  | nil =>
      obtain rfl := Except.ok.inj h
      exact Or.inl ⟨rfl, Or.inl rfl⟩
  | cons a rest =>
      by_cases ha : a.type.base = .integer
      · have hdays : (some a).filter (fun a => a.type.base == .integer) = some a := by
          simp [Option.filter, ha]
        rw [List.getElem?_cons_succ, List.getElem?_cons_zero, hdays] at h
        obtain rfl := Except.ok.inj h
        exact Or.inl ⟨rfl, Or.inr ⟨a, rest, rfl, ha⟩⟩
      · have hunit : (some a).filter (fun a => a.type.base == .integer) = none := by
          simp [Option.filter, ha]
        rw [List.getElem?_cons_succ, List.getElem?_cons_zero, hunit] at h
        obtain ⟨u, hu, h⟩ := bind_eq_ok.mp h
        obtain rfl := Except.ok.inj h
        rw [unitArg, List.getElem?_cons_succ, List.getElem?_cons_zero] at hu
        dsimp only at hu
        split at hu
        next text htext => exact Or.inr ⟨a, rest, text, rfl, htext, hu⟩
        next => exact absurd hu (by simp)

end Function

namespace Normalize

variable {s : Scope} {dimension : Formula} {rest : List Formula} {t : TypedSql} {u : TimeUnit}

/-- The unit by which the shifted dimension is written. -/
def shiftUnit? (s : Scope) (dimension : Formula) (rest : List Formula) : Option TimeUnit := do
  let args ← (Lowering.all ((dimension :: rest).map (·.lower s))).toOption
  let shift ← (Function.dateShift args).toOption
  return shift.unit

/-- The text that stands where a unit does. -/
def unitText? (rest : List Formula) : Option String :=
  match rest.head?.bind Formula.literal? with
  | some (.string text) => some text
  | _ => none

theorem shiftUnit?_eq {args : List TypedSql} {m : Function.DateShift}
    (hargs : List.Forall₂ (fun c a => c.lower s = .ok a) (dimension :: rest) args)
    (hm : Function.dateShift args = .ok m) : shiftUnit? s dimension rest = some m.unit := by
  have hall : Lowering.all ((dimension :: rest).map (·.lower s)) = .ok args :=
    Lowering.all_eq_ok.mpr hargs
  rw [shiftUnit?, hall]
  simp [Except.toOption, hm]

/-- A shifted dimension is written from the arguments of a shift. -/
theorem exists_dateShift_of_lower (h : (shifted dimension rest).lower s = .ok t) :
    ∃ args m, List.Forall₂ (fun c a => c.lower s = .ok a) (dimension :: rest) args ∧
      Function.dateShift args = .ok m ∧
      ∃ d ∈ catalogue, d.name = "dateadd" ∧ d.accepts (args.map TypedSql.type) = true := by
  have hfunction : (shifted dimension rest).function? = some "dateadd" := rfl
  obtain ⟨args, hargs, hdispatch⟩ := (Formula.lower_function_eq_ok hfunction).mp h
  obtain ⟨r, hresolve, e, he, -⟩ := Lowering.dispatch_eq_ok.mp hdispatch
  obtain ⟨-, hvariant, -⟩ := Function.resolve_eq_ok hresolve
  obtain ⟨hmem, hname, -, haccepts⟩ := Function.mem_catalogue_of_resolve hresolve
  have hname : r.definition.name = "dateadd" := by
    rw [hname]
    decide +kernel
  obtain ⟨m, hm⟩ := (Function.dateadd_cases hmem hname).2 _
    (Definition.mem_of_variantFor? hvariant) args e he
  exact ⟨args, m, hargs, hm, r.definition, hmem, hname, haccepts⟩

theorem unitName_singleton {a : Formula} {b : TypedSql} (h : a.lower s = .ok b)
    (hinteger : b.type.base = .integer) : unitName [a] = "day" := by
  rw [unitName, List.findSome?_singleton]
  split
  next text htext =>
    obtain rfl := Except.ok.inj ((Formula.lower_literal (kind_of_literal? htext)).symm.trans h)
    exact absurd hinteger (show BaseType.string ≠ .integer by decide)
  next => rfl

/-- There is no unit and days are meant, or both readings start from the same text. -/
theorem unit_of_lower (hs : s.ReadsColumns) (h : (shifted dimension rest).lower s = .ok t) :
    ∃ u, shiftUnit? s dimension rest = some u ∧
      (u = .day ∧ unitName rest = "day" ∨
        ∃ text, unitText? rest = some text ∧ unitName rest = text.toLower ∧
          TimeUnit.parse (Text.lower text) = .ok u) := by
  obtain ⟨args, m, hargs, hm, d, hd, hname, haccepts⟩ := exists_dateShift_of_lower h
  refine ⟨m.unit, shiftUnit?_eq hargs hm, ?_⟩
  obtain ⟨x, as, -, has, rfl⟩ := List.forall₂_cons_left_iff.mp hargs
  rcases Function.dateShift_cases hm with ⟨hday, rfl | ⟨a, as, rfl, hinteger⟩⟩ |
    ⟨a, as, text, rfl, htext, hparse⟩
  · obtain rfl := List.forall₂_nil_right_iff.mp has
    exact Or.inl ⟨hday, rfl⟩
  · obtain rfl : as = [] := List.map_eq_nil_iff.mp
      (Function.dateadd_integer hd hname haccepts hinteger)
    obtain ⟨b, _, hb, hnil, rfl⟩ := List.forall₂_cons_right_iff.mp has
    obtain rfl := List.forall₂_nil_right_iff.mp hnil
    exact Or.inl ⟨hday, unitName_singleton hb hinteger⟩
  · obtain ⟨b, rest, hb, -, rfl⟩ := List.forall₂_cons_right_iff.mp has
    obtain ⟨text, hliteral, rfl⟩ := Formula.literal_of_lowerText hs hb htext
    refine Or.inr ⟨text, ?_, ?_, hparse⟩
    · simp [unitText?, hliteral]
    · simp [unitName, hliteral]

/-! ## Keeping the day -/

theorem parse_name (u : TimeUnit) : TimeUnit.parse u.name = .ok u := by
  cases u <;> decide +kernel

/-- The first reading takes no other unit for one made of months, and it knows these by their
names. -/
theorem monthBased_of_unitName (hs : s.ReadsColumns)
    (h : (shifted dimension rest).lower s = .ok t) :
    ∃ u, shiftUnit? s dimension rest = some u ∧
      (unitName rest ∈ monthBasedUnits → u ∈ TimeUnit.monthBased) ∧
      ∀ text, unitText? rest = some text → Text.lower text = u.name →
        u ∈ TimeUnit.monthBased → unitName rest ∈ monthBasedUnits := by
  have hascii : ∀ u ∈ TimeUnit.monthBased, ∀ c ∈ u.name.toList, Text.IsAscii c ∧ c ≠ 'k' := by
    -- as a check of lists, for there is no deciding over all characters
    have hall : (TimeUnit.monthBased.all fun u => u.name.toList.all fun c =>
        Text.IsAscii c ∧ c ≠ 'k') = true := by
      decide
    simpa only [List.all_eq_true, decide_eq_true_eq] using hall
  obtain ⟨u, hu, hreads⟩ := unit_of_lower hs h
  refine ⟨u, hu, ?_⟩
  rcases hreads with ⟨rfl, hname⟩ | ⟨text, htext, hname, hparse⟩
  · constructor
    · intro hmem
      rw [hname] at hmem
      exact absurd hmem (by decide)
    · intro _ _ _ hmonths
      exact absurd hmonths (by decide)
  · rw [hname]
    constructor
    · intro hmem
      obtain ⟨v, hv, hvname⟩ : ∃ v ∈ TimeUnit.monthBased, v.name = text.toLower :=
        List.mem_map.mp hmem
      rw [(Text.lower_eq_iff (hascii v hv)).mpr hvname.symm, parse_name] at hparse
      exact Except.ok.inj hparse ▸ hv
    · intro text' htext' hlower hmonths
      obtain rfl := Option.some.inj (htext.symm.trans htext')
      rw [(Text.lower_eq_iff (hascii u hmonths)).mp hlower]
      exact List.mem_map.mpr ⟨u, hmonths, rfl⟩

/-- The condition that keeps the day of the month. -/
def keepsDay (dimension : Formula) : JoinCondition Formula :=
  .pair (.call "day" [dimension]) (.call "day" [dimension])

theorem keepsDay_mem_lookupConditions :
    keepsDay dimension ∈ lookupConditions dimension rest .ago ↔
      unitName rest ∈ monthBasedUnits := by
  have hshift : keepsDay dimension ≠ .pair dimension (shifted dimension rest) := by
    intro h
    have hcalls := congrArg (fun f => f.call?.map Call.name) (JoinCondition.pair.inj h).2
    exact absurd hcalls (show some "day" ≠ some "dateadd" by decide)
  rw [lookupConditions, List.mem_cons, or_iff_right hshift]
  split
  next h => exact iff_of_true (List.mem_singleton_self _) (List.contains_iff_mem.mp h)
  next h => exact iff_of_false List.not_mem_nil (mt List.contains_iff_mem.mpr h)

/-- The conditions on the lookup dimension are joined on if it is found among the dimensions. -/
theorem keepsDay_mem_lookupJoining {dims ignored : List Formula}
    {conditions : List (JoinCondition Formula)} :
    keepsDay dimension ∈ lookupJoining dims ignored dimension conditions ↔
      keepsDay dimension ∈ conditions ∧
        (dims.any fun d => !ignored.contains d && d == dimension) = true := by
  have hplace (d : Formula) :
      keepsDay dimension ∈ (if ignored.contains d then [] else
        if d == dimension then conditions else [.same d]) ↔
      keepsDay dimension ∈ conditions ∧ (!ignored.contains d && d == dimension) = true := by
    split
    next hignored => simp [hignored]
    next hignored =>
      split
      next hd => simp [hignored, hd]
      next hd => simp [hd, keepsDay]
  rw [lookupJoining, List.mem_flatMap, List.any_eq_true]
  simp only [hplace]
  constructor
  · rintro ⟨d, hd, hconditions, hfound⟩
    exact ⟨hconditions, d, hd, hfound⟩
  · rintro ⟨hconditions, d, hd, hfound⟩
    exact ⟨d, hd, hconditions, hfound⟩

/-! ## Forks -/

section Forks

variable {dims above : List Formula} {allowEmpty : Bool} {f measure : Formula} {c : Call Formula}
  {kind : LookupKind} {q : Fork Formula}

theorem lookupFork_eq_of_lookups (hlookup : lookup? f = some (c, kind))
    (hargs : c.args = measure :: dimension :: rest)
    (h : lookups dims allowEmpty above f = some (.of (.fork q))) :
    lookupFork (Formula.contextDimensions dims above) allowEmpty c kind measure dimension rest =
      .of (.fork q) := by
  have herror : some (countError c) ≠ some (.of (.fork q)) := by
    intro h
    exact absurd (congrArg Formula.isError (Option.some.inj h)) (show true ≠ false by decide)
  rw [lookups, hlookup] at h
  dsimp only [Option.bind_eq_bind, Option.bind_some] at h
  split at h
  · exact absurd h herror
  · rw [hargs] at h
    exact Option.some.inj h

/-- A lookup among dimensions is one of them. -/
theorem found_of_lookupFork
    (h : lookupFork dims allowEmpty c kind measure dimension rest = .of (.fork q))
    (hdims : dims ≠ []) :
    (dims.any fun d => !c.ignored.contains d && d == dimension) = true := by
  have hfork {message code : String} : Formula.error message code ≠ .of (.fork q) := by
    intro h
    exact absurd (congrArg Formula.isError h) (show true ≠ false by decide)
  unfold lookupFork at h
  dsimp only at h
  split at h
  · exact absurd h hfork
  split at h
  · exact absurd h hfork
  split at h
  · exact absurd h hfork
  split at h
  · exact absurd h hfork
  split at h
  · exact absurd h hfork
  next hfound =>
    by_contra hnot
    rw [Bool.not_eq_true] at hnot
    refine hfound ?_
    rw [hnot]
    simp [hdims]

end Forks

/-- A lookup some time ago keeps the day of the month only if the unit by which its dimension is
shifted is made of months. It does so for such a unit, called by its name in any case, if there are
dimensions to join on; without them nothing is joined on. -/
theorem keepsDay_mem_joining {dims above : List Formula} {allowEmpty : Bool} {f measure : Formula}
    {c : Call Formula} {q : Fork Formula} (hs : s.ReadsColumns)
    (hlookup : lookup? f = some (c, .ago)) (hargs : c.args = measure :: dimension :: rest)
    (hfork : lookups dims allowEmpty above f = some (.of (.fork q)))
    (hlower : (shifted dimension rest).lower s = .ok t) :
    ∃ u, shiftUnit? s dimension rest = some u ∧
      (keepsDay dimension ∈ q.joining → u ∈ TimeUnit.monthBased) ∧
      (Formula.contextDimensions dims above ≠ [] → u ∈ TimeUnit.monthBased →
        ∀ text, unitText? rest = some text → Text.lower text = u.name →
          keepsDay dimension ∈ q.joining) ∧
      (Formula.contextDimensions dims above = [] → q.joining = []) := by
  obtain ⟨u, hu, honly, hnamed⟩ := monthBased_of_unitName hs hlower
  have hcheck := lookupFork_eq_of_lookups hlookup hargs hfork
  have hjoining : q.joining = lookupJoining (Formula.contextDimensions dims above) c.ignored
      dimension (lookupConditions dimension rest .ago) := by
    rcases lookupFork_cases (Formula.contextDimensions dims above) allowEmpty c .ago measure
      dimension rest with ⟨message, code, heq⟩ | heq
    · have herror := congrArg Formula.isError (heq.symm.trans hcheck)
      exact absurd herror (show true ≠ false by decide)
    · have hforks := congrArg Formula.kind (heq.symm.trans hcheck)
      exact (congrArg Fork.joining (Kind.fork.inj hforks)).symm
  rw [hjoining]
  refine ⟨u, hu, ?_, ?_, ?_⟩
  · intro hkeeps
    exact honly (keepsDay_mem_lookupConditions.mp (keepsDay_mem_lookupJoining.mp hkeeps).1)
  · intro hdims hmonths text htext hname
    refine keepsDay_mem_lookupJoining.mpr ⟨?_, found_of_lookupFork hcheck hdims⟩
    exact keepsDay_mem_lookupConditions.mpr (hnamed text htext hname hmonths)
  · intro hdims
    rw [hdims]
    rfl

/-! ## Sales some time ago -/

/-- Orders with a day and sales. -/
def orders : Registry :=
  { avatars := [⟨"orders", "orders"⟩]
    columns :=
      [⟨"date", "orders", "date", .plain .date, .none⟩,
       ⟨"sales", "orders", "sales", .plain .integer, .none⟩] }

def salesAgo (unit : String) : Formula :=
  .call "ago" [.call "sum" [.field "sales"], .field "date", .lit (.string unit)]

/-- The day is kept when sales are looked up a month ago. -/
theorem keepsDay_mem_joining_salesAgo : ∃ q t,
    lookups [.field "date"] false [] (salesAgo "MONTH") = some (.of (.fork q)) ∧
      (shifted (.field "date") [.lit (.string "MONTH")]).lower (orders.scope .postgresql) = .ok t ∧
      keepsDay (.field "date") ∈ q.joining := by
  have hunit : shiftUnit? (orders.scope .postgresql) (.field "date") [.lit (.string "MONTH")] =
      some .month := by
    with_unfolding_all rfl
  obtain ⟨c, hlookup, hargs⟩ : ∃ c, lookup? (salesAgo "MONTH") = some (c, .ago) ∧
      c.args = [.call "sum" [.field "sales"], .field "date", .lit (.string "MONTH")] :=
    ⟨_, by with_unfolding_all rfl, rfl⟩
  obtain ⟨q, hfork⟩ : ∃ q, lookups [.field "date"] false [] (salesAgo "MONTH") =
      some (.of (.fork q)) :=
    ⟨_, by with_unfolding_all rfl⟩
  obtain ⟨t, hlower⟩ : ∃ t, (shifted (.field "date") [.lit (.string "MONTH")]).lower
      (orders.scope .postgresql) = .ok t :=
    ⟨_, by with_unfolding_all rfl⟩
  obtain ⟨u, hu, -, hkeeps, -⟩ :=
    keepsDay_mem_joining (orders.scope_readsColumns .postgresql) hlookup hargs hfork hlower
  obtain rfl := Option.some.inj (hunit.symm.trans hu)
  exact ⟨q, t, hfork, hlower,
    hkeeps (List.cons_ne_nil _ _) (by decide) "MONTH" rfl (by decide +kernel)⟩

/-- Nothing is joined on where there are no dimensions, and no day is kept for a unit in plural. -/
theorem keepsDay_mem_joining_exceptions :
    (∃ q t, lookups [] true [] (salesAgo "month") = some (.of (.fork q)) ∧
      (shifted (.field "date") [.lit (.string "month")]).lower (orders.scope .postgresql) = .ok t ∧
      shiftUnit? (orders.scope .postgresql) (.field "date") [.lit (.string "month")] =
        some .month ∧
      keepsDay (.field "date") ∉ q.joining) ∧
    ∃ q t, lookups [.field "date"] false [] (salesAgo "months") = some (.of (.fork q)) ∧
      (shifted (.field "date") [.lit (.string "months")]).lower (orders.scope .postgresql) = .ok t ∧
      shiftUnit? (orders.scope .postgresql) (.field "date") [.lit (.string "months")] =
        some .month ∧
      keepsDay (.field "date") ∉ q.joining := by
  constructor
  · refine ⟨_, _, by with_unfolding_all rfl, by with_unfolding_all rfl,
      by with_unfolding_all rfl, ?_⟩
    exact List.not_mem_nil
  · refine ⟨_, _, by with_unfolding_all rfl, by with_unfolding_all rfl,
      by with_unfolding_all rfl, ?_⟩
    intro hkeeps
    have hname := keepsDay_mem_lookupConditions.mp (keepsDay_mem_lookupJoining.mp hkeeps).1
    exact absurd hname (by decide +kernel)

end Normalize

end FormulaSql
