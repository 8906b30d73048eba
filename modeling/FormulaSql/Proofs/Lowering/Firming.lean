import FormulaSql.Proofs.Function.Writers
import FormulaSql.Proofs.Lowering.Nodes

/-!
# Calls whose arguments have firmed

A call is written after its arguments have firmed if it was written before, and its result firms.
Most names have definitions that do not ask for constants, or only one definition, so the definition
stays the same. Among the definitions of arrays another one may be chosen, but for the same items.

* `Function.resolve_constVersions`: a definition is found for more constant arguments, too
* `Lowering.dispatch_firms`: a call is written with more constant arguments, too
-/

namespace FormulaSql

open DataType (FirmsTo)

namespace Function

variable {name : String} {ts us : List DataType} {isWindow : Bool} {dialect : Dialects}
  {scopes : Scopes} {r : Resolution} {d : Definition}

/-! ## Arrays -/

/-- All types widen to that of the items, and one is that type. -/
def ItemsOf (item : BaseType) (ts : List DataType) : Prop :=
  (∀ t ∈ ts, t.isNull = true ∨ t.base.widensTo item = true) ∧ ∃ t ∈ ts, t.base = item

theorem ItemsOf.firms {item : BaseType} (h : List.Forall₂ FirmsTo ts us) (hts : ItemsOf item ts) :
    ItemsOf item us := by
  refine ⟨fun u hu => ?_, ?_⟩
  · obtain ⟨t, ht, htu⟩ := forall₂_exists_left h hu
    rw [htu.isNull_eq, htu.1]
    exact hts.1 t ht
  · obtain ⟨t, ht, hitem⟩ := hts.2
    obtain ⟨u, hu, htu⟩ := forall₂_exists_right h ht
    exact ⟨u, hu, htu.1.trans hitem⟩

/-- The types tell what the items are. -/
theorem ItemsOf.unique {p q : BaseType × BaseType} (hp : p ∈ arrayTypes) (hq : q ∈ arrayTypes)
    (h : ItemsOf p.1 ts) (h' : ItemsOf q.1 ts) : p = q := by
  have hwidens : ∀ p ∈ arrayTypes, ∀ q ∈ arrayTypes, (p.1 = .null ∨ p.1.widensTo q.1 = true) →
      (q.1 = .null ∨ q.1.widensTo p.1 = true) → p = q := by decide
  obtain ⟨t, ht, hitem⟩ := h.2
  obtain ⟨t', ht', hitem'⟩ := h'.2
  refine hwidens p hp q hq ?_ ?_
  · have := h'.1 t ht
    rwa [DataType.isNull, hitem, beq_iff_eq] at this
  · have := h.1 t' ht'
    rwa [DataType.isNull, hitem', beq_iff_eq] at this

theorem accepts_plainItems {item : BaseType} :
    (arrayArgTypes item false).accepts ts = true ↔ ItemsOf item ts := by
  rw [arrayArgTypes, if_neg Bool.false_ne_true, ArgTypes.accepts, Bool.and_eq_true,
    List.all_eq_true, List.any_eq_true]
  refine and_congr (forall₂_congr fun t _ => ?_) (exists_congr fun t => and_congr_right fun _ => ?_)
  · simp [DataType.castsToAny, DataType.castsTo_iff, DataType.plain]
  · obtain ⟨base, isConst⟩ := t
    cases isConst <;> simp [DataType.plain, DataType.const]

theorem accepts_constItems {item : BaseType} (hitem : item ≠ .null) :
    (arrayArgTypes item true).accepts ts = true ↔
      ItemsOf item ts ∧ ∀ t ∈ ts, t.isConst = true ∨ t.isNull = true := by
  have hcasts (t : DataType) : t.castsToAny [.const item, .plain .null] = true ↔
      t.isNull = true ∨ t.base.widensTo item = true ∧ t.isConst = true := by
    have hnull : t.base.widensTo .null = true → t.isNull = true :=
      fun h => DataType.isNull_of_widensTo (u := .plain .null) h rfl
    simp only [DataType.castsToAny, List.any_cons, List.any_nil, Bool.or_false, Bool.or_eq_true,
      DataType.castsTo_iff, DataType.plain, DataType.const, true_imp_iff, Bool.false_eq_true,
      false_imp_iff, and_true]
    tauto
  rw [arrayArgTypes, if_pos rfl, ArgTypes.accepts, Bool.and_eq_true, List.all_eq_true,
    List.any_eq_true]
  simp only [hcasts, List.contains_cons, List.contains_nil, Bool.or_false, beq_iff_eq]
  constructor
  · rintro ⟨hall, t, ht, rfl⟩
    exact ⟨⟨fun t ht => (hall t ht).imp_right And.left, _, ht, rfl⟩,
      fun t ht => (hall t ht).symm.imp_left And.right⟩
  · rintro ⟨⟨hwidens, t, ht, hbase⟩, hconst⟩
    refine ⟨fun t ht => ?_, t, ht, ?_⟩
    · rcases hconst t ht with hc | hnull
      · exact (hwidens t ht).imp_right fun hw => ⟨hw, hc⟩
      · exact Or.inl hnull
    · have hnull : t.isNull = false := by
        rw [DataType.isNull, hbase]
        exact beq_eq_false_iff_ne.mpr hitem
      have hc := (hconst t ht).resolve_right (by simp [hnull])
      obtain ⟨base, isConst⟩ := t
      subst hbase
      rw [show isConst = true from hc]
      rfl

/-! ## Definitions after firming -/

/-- Arrays apart, a definition that others come after does not ask for constants. -/
theorem candidatesIn_plain (hname : name.toLower ≠ "array") (count : Nat) (isWindow : Bool)
    (scopes : Scopes) :
    (candidatesIn catalogue name count isWindow scopes).Pairwise fun a _ =>
      a.argTypes.all ArgTypes.isPlain = true := by
  have hlisted : (candidatesIn catalogue name count isWindow scopes).Sublist catalogue := by
    rw [candidatesIn, definitionsIn_catalogue]
    exact List.filter_sublist.trans (List.filter_sublist.trans List.filter_sublist)
  refine (catalogue_overloads.sublist hlisted).imp_of_mem fun ha hb hab => ?_
  obtain ⟨-, haname, hawindow, -⟩ := mem_candidatesIn.mp ha
  obtain ⟨-, hbname, hbwindow, -⟩ := mem_candidatesIn.mp hb
  exact (hab ⟨haname.trans hbname.symm, hawindow.trans hbwindow.symm⟩).2.2
    fun heq => hname (haname.symm.trans heq)

/-- Arrays apart, the same definition is found. -/
theorem find?_firms (h : List.Forall₂ FirmsTo ts us) (hname : name.toLower ≠ "array") {count : Nat}
    (hd : (candidatesIn catalogue name count isWindow scopes).find? (·.accepts ts) = some d) :
    (candidatesIn catalogue name count isWindow scopes).find? (·.accepts us) = some d := by
  have hplain := candidatesIn_plain hname count isWindow scopes
  obtain ⟨hdmem, hdname, -⟩ := mem_candidatesIn.mp (List.mem_of_find?_eq_some hd)
  obtain ⟨haccepts, before, after, hsplit, hbefore⟩ := List.find?_eq_some_iff_append.mp hd
  refine List.find?_eq_some_iff_append.mpr ⟨?_, before, after, hsplit, fun b hb => ?_⟩
  · exact Definition.accepts_firms h
      ((catalogue_listed d hdmem).pointwise fun heq => hname (hdname.symm.trans heq)) haccepts
  · rw [hsplit] at hplain
    have hb' := (List.pairwise_append.mp hplain).2.2 b hb d List.mem_cons_self
    rw [Definition.accepts_plain h hb']
    exact hbefore b hb

theorem base_returnTypeFor (d : Definition) (ts : List DataType) :
    (d.returnTypeFor ts).base = (d.returns.base ts).base := by
  rw [Definition.returnTypeFor]
  split <;> rfl

theorem isConst_returnTypeFor (h : (d.returns.base ts).isConst = true) :
    (d.returnTypeFor ts).isConst = true := by
  rw [Definition.returnTypeFor]
  split
  · rfl
  · exact h

theorem returnTypeFor_firms (h : List.Forall₂ FirmsTo ts us) (hd : d.Lenient)
    (hbase : (d.returns.base ts).isConst = true → (d.returns.base us).isConst = true) :
    (d.returnTypeFor ts).FirmsTo (d.returnTypeFor us) := by
  have hblind := hd.returns ts us h
  rw [Definition.returnTypeFor, Definition.returnTypeFor]
  by_cases hts : d.isConstFor ts = true
  · rw [if_pos hts, if_pos (Definition.isConstFor_firms h hts)]
    exact ⟨hblind, id⟩
  · rw [if_neg hts]
    split
    · exact ⟨hblind, fun _ => rfl⟩
    · exact ⟨hblind, hbase⟩

/-- What is known of a definition that makes arrays of such items. -/
structure ArrayOf (d : Definition) (p : BaseType × BaseType) (isConst : Bool) : Prop where
  name : d.name = "array"
  isWindow : d.isWindow = false
  scopes : d.allScopes = .usual
  arity : d.arity = .atLeast 1
  argTypes : d.argTypes = [arrayArgTypes p.1 isConst]
  fixed? : d.returns.fixed? = some ⟨p.2, isConst⟩
  /-- A definition for constants is tried before the others. -/
  priority : d.priority = if isConst then 0 else 1

theorem arrayOf {p : BaseType × BaseType} {isConst : Bool} (h : makesArrayOf d p isConst = true) :
    ArrayOf d p isConst := by
  simp only [makesArrayOf, Bool.and_eq_true, Bool.not_eq_true', beq_iff_eq] at h
  obtain ⟨⟨⟨⟨⟨⟨hname, hwindow⟩, hscopes⟩, harity⟩, hargs⟩, hreturns⟩, hpriority⟩ := h
  exact ⟨hname, hwindow, hscopes, harity, hargs, hreturns, hpriority⟩

theorem accepts_array {p : BaseType × BaseType} {isConst : Bool}
    (h : makesArrayOf d p isConst = true) :
    d.accepts ts = (arrayArgTypes p.1 isConst).accepts ts := by
  rw [Definition.accepts, (arrayOf h).argTypes, List.any_cons, List.any_nil,
    Bool.or_false]

theorem base_of_makesArrayOf {p : BaseType × BaseType} {isConst : Bool}
    (h : makesArrayOf d p isConst = true) : d.returns.base ts = ⟨p.2, isConst⟩ :=
  ReturnType.base_of_fixed? (arrayOf h).fixed? ts

/-- A definition of arrays is found by the types of its items. -/
theorem array_of_mem (hd : d ∈ catalogue) (hname : d.name = "array")
    (haccepts : d.accepts ts = true) :
    ∃ p ∈ arrayTypes, ItemsOf p.1 ts ∧ ∃ isConst, makesArrayOf d p isConst = true := by
  have hnull : ∀ p ∈ arrayTypes, p.1 ≠ .null := by decide
  obtain ⟨p, hp, hmakes | hmakes⟩ := (catalogue_listed d hd).array hname
  · rw [accepts_array hmakes, accepts_constItems (hnull p hp)] at haccepts
    exact ⟨p, hp, haccepts.1, true, hmakes⟩
  · rw [accepts_array hmakes, accepts_plainItems] at haccepts
    exact ⟨p, hp, haccepts, false, hmakes⟩

/-- For items of some type a definition of arrays of these is found, the one for constants if they
are constants. -/
theorem exists_find?_items {p : BaseType × BaseType} (hp : p ∈ arrayTypes) (hitems : ItemsOf p.1 ts)
    (hname : name.toLower = "array") (hscopes : Scopes.usual.contains scopes = true)
    (hcount : (Arity.atLeast 1).accepts ts.length = true) :
    ∃ d isConst, (candidatesIn catalogue name ts.length false scopes).find? (·.accepts ts) = some d ∧
      makesArrayOf d p isConst = true ∧
      ((∀ t ∈ ts, t.isConst = true ∨ t.isNull = true) → isConst = true) := by
  have hnull : ∀ p ∈ arrayTypes, p.1 ≠ .null := by decide
  have hcandidate {isConst : Bool} {d : Definition} (hd : d ∈ catalogue)
      (hmakes : makesArrayOf d p isConst = true) :
      d ∈ candidatesIn catalogue name ts.length false scopes := by
    refine mem_candidatesIn.mpr
      ⟨hd, (arrayOf hmakes).name.trans hname.symm, (arrayOf hmakes).isWindow, ?_, ?_⟩
    · rwa [(arrayOf hmakes).scopes]
    · rwa [(arrayOf hmakes).arity]
  obtain ⟨d₀, hd₀, hmakes₀⟩ := exists_array p hp false
  have haccepts₀ : d₀.accepts ts = true := by
    rwa [accepts_array hmakes₀, accepts_plainItems]
  obtain ⟨d, hfind⟩ := exists_find? (hcandidate hd₀ hmakes₀) haccepts₀
  obtain ⟨hd, hdname, -⟩ := mem_candidatesIn.mp (List.mem_of_find?_eq_some hfind)
  obtain ⟨q, hq, hitems', isConst, hmakes⟩ := array_of_mem hd (hdname.trans hname)
    (List.find?_some (p := (Definition.accepts · ts)) hfind)
  obtain rfl : q = p := hitems'.unique hq hp hitems
  refine ⟨d, isConst, hfind, hmakes, fun hconst => ?_⟩
  obtain ⟨d₁, hd₁, hmakes₁⟩ := exists_array q hp true
  have haccepts₁ : d₁.accepts ts = true := by
    rw [accepts_array hmakes₁, accepts_constItems (hnull q hp)]
    exact ⟨hitems, hconst⟩
  have hrank := rank_le_of_find? Definition.priority (candidatesIn_sorted ts.length)
    hfind (hcandidate hd₁ hmakes₁) haccepts₁
  rw [(arrayOf hmakes).priority, (arrayOf hmakes₁).priority] at hrank
  cases isConst with
  | true => rfl
  | false => exact absurd hrank (by decide)

/-- After the types have firmed, an array is made of the same items. -/
theorem resolve_array_firms (h : List.Forall₂ FirmsTo ts us) (hname : name.toLower = "array")
    (hr : resolve name ts false dialect scopes = .ok r) :
    ∃ r', resolve name us false dialect scopes = .ok r' ∧ r.returnType.FirmsTo r'.returnType := by
  obtain ⟨hfind, -, htype⟩ := resolve_eq_ok hr
  obtain ⟨hd, hdname, -, hscopes, harity⟩ := mem_candidatesIn.mp (List.mem_of_find?_eq_some hfind)
  obtain ⟨-, -, -, haccepts⟩ := mem_catalogue_of_resolve hr
  obtain ⟨p, hp, hitems, isConst, hmakes⟩ := array_of_mem hd (hdname.trans hname) haccepts
  obtain ⟨d', isConst', hfind', hmakes', hconst'⟩ := exists_find?_items hp
    (hitems.firms h) hname ((arrayOf hmakes).scopes ▸ hscopes)
    ((arrayOf hmakes).arity ▸ h.length_eq ▸ harity)
  obtain ⟨v', hv'⟩ := exists_variantFor?
    (mem_candidatesIn.mp (List.mem_of_find?_eq_some hfind')).1 dialect
  refine ⟨_, resolve_of_find? hfind' hv', ?_, fun hc => ?_⟩
  · rw [htype, base_returnTypeFor, base_returnTypeFor, base_of_makesArrayOf hmakes,
      base_of_makesArrayOf hmakes']
  · refine isConst_returnTypeFor ?_
    rw [base_of_makesArrayOf hmakes']
    refine hconst' fun u hu => ?_
    obtain ⟨t, ht, htu⟩ := forall₂_exists_left h hu
    rw [htu.isNull_eq]
    exact ((resolve_isConst hr hc).2.2 t ht).imp htu.2 And.right

/-- After the types have firmed, a definition is still found, and the result has firmed. Arrays
apart, it is the same definition. -/
theorem resolve_firms (h : List.Forall₂ FirmsTo ts us)
    (hr : resolve name ts isWindow dialect scopes = .ok r) :
    ∃ r', resolve name us isWindow dialect scopes = .ok r' ∧
      r.returnType.FirmsTo r'.returnType ∧ (name.toLower = "array" ∨
        r'.definition = r.definition ∧ r'.variant = r.variant) := by
  obtain ⟨hfind, hv, htype⟩ := resolve_eq_ok hr
  obtain ⟨hmem, hname, hwindow, haccepts⟩ := mem_catalogue_of_resolve hr
  by_cases harray : name.toLower = "array"
  · obtain ⟨p, -, -, isConst, hmakes⟩ := array_of_mem hmem (hname.trans harray) haccepts
    obtain rfl : isWindow = false := hwindow.symm.trans (arrayOf hmakes).isWindow
    obtain ⟨r', hr', hfirms⟩ := resolve_array_firms h harray hr
    exact ⟨r', hr', hfirms, Or.inl harray⟩
  · have hfind' := find?_firms h harray hfind
    rw [h.length_eq] at hfind'
    refine ⟨_, resolve_of_find? hfind' hv, ?_, Or.inr ⟨rfl, rfl⟩⟩
    rw [htype]
    refine returnTypeFor_firms h (lenient_catalogue _ hmem) fun hconst => ?_
    obtain ⟨hdarray, -⟩ := (catalogue_listed _ hmem).constant (fixed?_of_isConst_base hconst)
    exact absurd (hname.symm.trans hdarray) harray

theorem firmsTo_of_constVersion {t u : DataType} (h : u = t ∨ u = t.constVersion) :
    t.FirmsTo u := by
  rcases h with rfl | rfl
  · exact .refl u
  · exact ⟨rfl, fun _ => rfl⟩

/-- Whichever types of the arguments are made constant, a definition is still found. Its result is
of the same base type, and constant if it was before. -/
theorem resolve_constVersions
    (h : List.Forall₂ (fun t u => u = t ∨ u = t.constVersion) ts us)
    (hr : resolve name ts isWindow dialect scopes = .ok r) :
    ∃ r', resolve name us isWindow dialect scopes = .ok r' ∧
      r'.returnType.nonConst = r.returnType.nonConst ∧
      (r.returnType.isConst = true → r'.returnType.isConst = true) := by
  obtain ⟨r', hr', hfirms, -⟩ := resolve_firms (h.imp fun _ _ => firmsTo_of_constVersion) hr
  refine ⟨r', hr', ?_, hfirms.2⟩
  rw [DataType.nonConst, DataType.nonConst, hfirms.1]

theorem exists_returnType {x : Except FormulaError Resolution} {t : DataType}
    (h : x.toOption.map Resolution.returnType = some t) : ∃ r, x = .ok r ∧ r.returnType = t := by
  cases x with
  | error => exact absurd h (by simp [Except.toOption])
  | ok r => exact ⟨r, rfl, Option.some.inj h⟩

/-- An array of an integer and NULL: when the integer is made constant, the definition for constants
is found in the place of the other one. -/
theorem resolve_constVersions_array :
    ∃ r, resolve "ARRAY" [.plain .integer, .plain .null] false (.single .oracle) .explicitUsage =
        .ok r ∧ r.returnType = .plain .arrayInt ∧
      ∃ r', resolve "ARRAY" [.const .integer, .plain .null] false (.single .oracle)
          .explicitUsage = .ok r' ∧ r'.returnType = .const .arrayInt ∧
        r'.returnType.nonConst = r.returnType.nonConst ∧
        (r.returnType.isConst = true → r'.returnType.isConst = true) := by
  have htype : ((resolve "ARRAY" [.plain .integer, .plain .null] false (.single .oracle)
      .explicitUsage).toOption.map Resolution.returnType) = some (.plain .arrayInt) := by
    rw [resolve, resolveIn, definitionsIn_catalogue]
    decide +kernel
  have htype' : ((resolve "ARRAY" [.const .integer, .plain .null] false (.single .oracle)
      .explicitUsage).toOption.map Resolution.returnType) = some (.const .arrayInt) := by
    rw [resolve, resolveIn, definitionsIn_catalogue]
    decide +kernel
  obtain ⟨r, hr, hplain⟩ := exists_returnType htype
  obtain ⟨r', hr', hsame⟩ := resolve_constVersions
    (.cons (Or.inr rfl) (.cons (Or.inl rfl) .nil)) hr
  obtain ⟨r'', hr'', hconst⟩ := exists_returnType htype'
  obtain rfl : r'' = r' := Except.ok.inj (hr''.symm.trans hr')
  exact ⟨r, hr, hplain, r'', hr', hconst, hsame⟩

end Function

/-! ## Writing after firming -/

namespace Definition

theorem mem_of_narrowest {vs : List Variant} {v : Variant} (h : narrowest vs = some v) :
    v ∈ vs := by
  induction vs generalizing v with
  | nil => exact absurd h (by simp [narrowest])
  | cons w vs ih =>
      rw [narrowest] at h
      split at h
      next u hu =>
        split at h
        · obtain rfl := Option.some.inj h
          exact List.mem_cons_of_mem w (ih hu)
        · obtain rfl := Option.some.inj h
          exact List.mem_cons_self
      next =>
        obtain rfl := Option.some.inj h
        exact List.mem_cons_self

theorem mem_of_variantFor? {d : Definition} {dialect : Dialects} {v : Variant}
    (h : d.variantFor? dialect = some v) : v ∈ d.variants := by
  rcases Option.or_eq_some_iff.mp h with h | ⟨-, h⟩
  · exact (List.mem_filter.mp (mem_of_narrowest h)).1
  · exact List.mem_of_find?_eq_some h

end Definition

namespace Lowering

variable {s : Scope} {name : String} {isWindow : Bool} {as bs : List TypedSql} {a : TypedSql}

theorem unread_overWindow (partition ordering : List Sql) (e : Sql) :
    (overWindow partition ordering e).Unread := by
  unfold overWindow
  split <;> exact ⟨rfl, rfl⟩

/-- What is written by a function is not read by another. -/
theorem unread_dispatch (h : dispatch s name isWindow as = .ok a) : a.sql.Unread := by
  obtain ⟨r, hr, e, he, rfl⟩ := dispatch_eq_ok.mp h
  obtain ⟨-, hv, -⟩ := Function.resolve_eq_ok hr
  obtain ⟨hmem, -⟩ := Function.mem_catalogue_of_resolve hr
  exact ((Function.lenient_catalogue _ hmem).writers _ (Definition.mem_of_variantFor? hv)).unread
    _ e he

/-- A call is still written after its arguments have firmed, and its result has firmed. -/
theorem dispatch_firms (h : List.Forall₂ TypedSql.FirmsTo as bs)
    (ha : dispatch s name isWindow as = .ok a) :
    ∃ b, dispatch s name isWindow bs = .ok b ∧ a.FirmsTo b := by
  have hunread := unread_dispatch ha
  obtain ⟨r, hr, e, he, rfl⟩ := dispatch_eq_ok.mp ha
  have htypes : List.Forall₂ FirmsTo (as.map TypedSql.type) (bs.map TypedSql.type) := by
    rw [List.forall₂_map_left_iff, List.forall₂_map_right_iff]
    exact h.imp fun _ _ hab => hab.1
  obtain ⟨r', hr', hfirms, hsame⟩ := Function.resolve_firms htypes hr
  obtain ⟨e', he'⟩ : ∃ e', r'.variant.emit bs = .ok e' := by
    rcases hsame with harray | ⟨-, hvariant⟩
    · obtain ⟨-, hv, -⟩ := Function.resolve_eq_ok hr'
      obtain ⟨hmem, hname, -⟩ := Function.mem_catalogue_of_resolve hr'
      exact Function.exists_emit_array hmem (hname.trans harray)
        (Definition.mem_of_variantFor? hv) bs
    · obtain ⟨-, hv, -⟩ := Function.resolve_eq_ok hr
      obtain ⟨hmem, -⟩ := Function.mem_catalogue_of_resolve hr
      rw [hvariant]
      exact ((Function.lenient_catalogue _ hmem).writers _
        (Definition.mem_of_variantFor? hv)).persists as bs h e he
  exact ⟨_, dispatch_eq_ok.mpr ⟨r', hr', e', he', rfl⟩, hfirms, hunread.keeps _⟩

end Lowering

end FormulaSql
