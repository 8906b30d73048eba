import FormulaSql.Proofs.Formula.Rewriting
import FormulaSql.Proofs.Function.Dispatch

/-!
# Constant types and the choice of a definition

A type firms if it keeps its base type and becomes constant at most. Constants are taken wherever
plain values are, so an alternative that asks for each argument alone still takes arguments whose
types have firmed, and one that asks for no constants does not tell the difference.

* `Definition.accepts_firms`, `Definition.accepts_plain`: the arguments of a definition
* `Function.resolve_isConst`: what is known of the arguments if the result is constant
-/

namespace FormulaSql

/-! ## Types -/

namespace DataType

variable {t u v a : DataType} {ts us : List DataType}

/-- The same base type, and constant if the other one is. -/
def FirmsTo (t u : DataType) : Prop := u.base = t.base ∧ (t.isConst = true → u.isConst = true)

theorem FirmsTo.refl (t : DataType) : t.FirmsTo t := ⟨rfl, id⟩

theorem FirmsTo.trans (h : t.FirmsTo u) (h' : u.FirmsTo v) : t.FirmsTo v :=
  ⟨h'.1.trans h.1, fun ht => h'.2 (h.2 ht)⟩

theorem FirmsTo.antisymm (h : t.FirmsTo u) (h' : u.FirmsTo t) : t = u := by
  cases t
  cases u
  exact congrArg₂ mk h'.1 (Bool.eq_iff_iff.mpr ⟨h.2, h'.2⟩)

theorem FirmsTo.isNull_eq (h : t.FirmsTo u) : u.isNull = t.isNull := by
  rw [isNull, isNull, h.1]

/-- Nothing else widens to NULL. -/
theorem isNull_of_widensTo (h : t.base.widensTo u.base = true) (hu : u.isNull = true) :
    t.isNull = true := by
  rw [isNull, beq_iff_eq] at hu ⊢
  rw [hu] at h
  revert h
  cases t.base <;> decide

/-- A type stands for another if it is NULL or widens to it, and is constant if it has to be. -/
theorem castsTo_iff : t.castsTo a = true ↔
    t.isNull = true ∨ t.base.widensTo a.base = true ∧ (a.isConst = true → t.isConst = true) := by
  have hsame : t = a → t.base.widensTo a.base = true ∧ (a.isConst = true → t.isConst = true) := by
    rintro rfl
    exact ⟨by simp [BaseType.widensTo], id⟩
  rw [castsTo, Bool.or_eq_true, Bool.or_eq_true, beq_iff_eq, Bool.and_eq_true, Bool.or_eq_true,
    Bool.not_eq_true']
  constructor
  · rintro ((h | h) | ⟨h, hwidens⟩)
    · exact Or.inr (hsame h)
    · exact Or.inl h
    · exact Or.inr ⟨hwidens, fun ha => h.resolve_right (by simp [ha])⟩
  · rintro (h | ⟨hwidens, h⟩)
    · exact Or.inl (Or.inr h)
    · refine Or.inr ⟨?_, hwidens⟩
      cases ha : a.isConst with
      | false => exact Or.inr rfl
      | true => exact Or.inl (h ha)

theorem FirmsTo.castsTo (h : t.FirmsTo u) (ht : t.castsTo a = true) : u.castsTo a = true := by
  rw [castsTo_iff] at ht ⊢
  rw [h.isNull_eq, h.1]
  exact ht.imp_right fun ht => ⟨ht.1, fun ha => h.2 (ht.2 ha)⟩

/-- Whether a plain type is met does not depend on constness. -/
theorem FirmsTo.castsTo_plain (h : t.FirmsTo u) (ha : a.isConst = false) :
    u.castsTo a = t.castsTo a := by
  rw [Bool.eq_iff_iff, castsTo_iff, castsTo_iff, h.isNull_eq, h.1, ha]
  simp only [Bool.false_eq_true, false_imp_iff]

theorem FirmsTo.castsToAny {allowed : List DataType} (h : t.FirmsTo u)
    (ht : t.castsToAny allowed = true) : u.castsToAny allowed = true := by
  obtain ⟨a, ha, hcasts⟩ := List.any_eq_true.mp ht
  exact List.any_eq_true.mpr ⟨a, ha, h.castsTo hcasts⟩

theorem FirmsTo.castsToAny_plain {allowed : List DataType} (h : t.FirmsTo u)
    (hallowed : allowed.all (fun a => !a.isConst) = true) :
    u.castsToAny allowed = t.castsToAny allowed := by
  rw [DataType.castsToAny, DataType.castsToAny, Bool.eq_iff_iff, List.any_eq_true, List.any_eq_true]
  refine exists_congr fun a => and_congr_right fun ha => ?_
  rw [h.castsTo_plain (by simpa using List.all_eq_true.mp hallowed a ha)]

end DataType

open DataType (FirmsTo)

/-! ## Alternatives for the types of the arguments -/

namespace ArgTypes

variable {x : ArgTypes} {ts us : List DataType}

theorem fitPositions_firms (h : List.Forall₂ FirmsTo ts us) {positions : List (List DataType)}
    (hts : fitPositions ts positions = true) : fitPositions us positions = true := by
  induction h generalizing positions with
  | nil => exact hts
  | @cons t u ts us htu _ ih =>
      cases positions with
      | nil => exact hts
      | cons p positions =>
          rw [fitPositions, Bool.and_eq_true] at hts ⊢
          exact ⟨htu.castsToAny hts.1, ih hts.2⟩

theorem fitPositions_plain (h : List.Forall₂ FirmsTo ts us) {positions : List (List DataType)}
    (hpositions : (positions.all fun p => p.all fun a => !a.isConst) = true) :
    fitPositions us positions = fitPositions ts positions := by
  induction h generalizing positions with
  | nil => rfl
  | @cons t u ts us htu _ ih =>
      cases positions with
      | nil => rfl
      | cons p positions =>
          rw [List.all_cons, Bool.and_eq_true] at hpositions
          rw [fitPositions, fitPositions, htu.castsToAny_plain hpositions.1, ih hpositions.2]

theorem accepts_firms (h : List.Forall₂ FirmsTo ts us) (hx : x.isPointwise = true)
    (hts : x.accepts ts = true) : x.accepts us = true := by
  cases x with
  | sequence positions => exact fitPositions_firms h hts
  | forAll allowed =>
      refine List.all_eq_true.mpr fun u hu => ?_
      obtain ⟨t, ht, htu⟩ := forall₂_exists_left h hu
      exact htu.castsToAny (List.all_eq_true.mp hts t ht)
  | forAllRequiring => exact absurd hx Bool.false_ne_true
  | any => rfl

theorem accepts_plain (h : List.Forall₂ FirmsTo ts us) (hx : x.isPlain = true) :
    x.accepts us = x.accepts ts := by
  cases x with
  | sequence positions => exact fitPositions_plain h hx
  | forAll allowed =>
      rw [accepts, accepts]
      induction h with
      | nil => rfl
      | cons htu _ ih => rw [List.all_cons, List.all_cons, htu.castsToAny_plain hx, ih]
  | forAllRequiring => exact absurd hx Bool.false_ne_true
  | any => rfl

end ArgTypes

namespace Definition

variable {d : Definition} {ts us : List DataType}

theorem accepts_firms (h : List.Forall₂ FirmsTo ts us)
    (hd : (d.argTypes.all ArgTypes.isPointwise) = true) (hts : d.accepts ts = true) :
    d.accepts us = true := by
  obtain ⟨x, hx, haccepts⟩ := List.any_eq_true.mp hts
  exact List.any_eq_true.mpr
    ⟨x, hx, ArgTypes.accepts_firms h (List.all_eq_true.mp hd x hx) haccepts⟩

theorem accepts_plain (h : List.Forall₂ FirmsTo ts us)
    (hd : (d.argTypes.all ArgTypes.isPlain) = true) : d.accepts us = d.accepts ts := by
  rw [accepts, accepts, Bool.eq_iff_iff, List.any_eq_true, List.any_eq_true]
  refine exists_congr fun x => and_congr_right fun hx => ?_
  rw [ArgTypes.accepts_plain h (List.all_eq_true.mp hd x hx)]

theorem isConstFor_iff : d.isConstFor ts = true ↔ d.isWindow = false ∧ d.category ≠ .aggregation ∧
    ts ≠ [] ∧ ∀ t ∈ ts, t.isConst = true := by
  simp [isConstFor, and_assoc]

theorem isConstFor_firms (h : List.Forall₂ FirmsTo ts us) (hts : d.isConstFor ts = true) :
    d.isConstFor us = true := by
  rw [isConstFor_iff] at hts ⊢
  obtain ⟨hwindow, hcategory, hne, hconst⟩ := hts
  refine ⟨hwindow, hcategory, ?_, fun u hu => ?_⟩
  · rintro rfl
    cases h
    exact hne rfl
  · obtain ⟨t, ht, htu⟩ := forall₂_exists_left h hu
    exact htu.2 (hconst t ht)

end Definition

/-! ## Constant results -/

theorem ArgTypes.isConst_of_accepts {x : ArgTypes} {ts : List DataType} (hx : x.isConst = true)
    (h : x.accepts ts = true) : ∀ t ∈ ts, t.isConst = true ∨ t.isNull = true := by
  cases x with
  | forAllRequiring allowed required =>
      intro t ht
      rw [accepts, Bool.and_eq_true] at h
      obtain ⟨a, ha, hcasts⟩ := List.any_eq_true.mp (List.all_eq_true.mp h.1 t ht)
      rcases DataType.castsTo_iff.mp hcasts with hnull | ⟨hwidens, hconst⟩
      · exact Or.inr hnull
      · rcases Bool.or_eq_true_iff.mp (List.all_eq_true.mp hx a ha) with ha | ha
        · exact Or.inl (hconst ha)
        · exact Or.inr (DataType.isNull_of_widensTo hwidens ha)
  | _ => exact absurd hx Bool.false_ne_true

namespace Function

theorem fixed?_of_isConst_base {r : ReturnType} {ts : List DataType}
    (h : (r.base ts).isConst = true) : (r.fixed?.any (·.isConst)) = true := by
  cases r with
  | fixed t => exact h
  | _ => exact absurd h Bool.false_ne_true

variable {name : String} {ts : List DataType} {isWindow : Bool} {dialect : Dialects}
  {scopes : Scopes} {r : Resolution}

/-- What is known of the definition that is found. -/
theorem resolve_eq_ok (h : resolve name ts isWindow dialect scopes = .ok r) :
    (candidatesIn catalogue name ts.length isWindow scopes).find? (·.accepts ts) =
        some r.definition ∧
      r.definition.variantFor? dialect = some r.variant ∧
      r.returnType = r.definition.returnTypeFor ts := by
  rw [resolve, resolveIn_eq] at h
  split at h
  · exact absurd h (by simp)
  · split at h
    · exact absurd h (by simp)
    · split at h
      · exact absurd h (by simp)
      next d hfind =>
        split at h
        · exact absurd h (by simp)
        next v hv =>
          obtain rfl := Except.ok.inj h
          exact ⟨hfind, hv, rfl⟩

/-- The outcome of a call for which a definition is found. -/
theorem resolve_of_find? {d : Definition} {v : Variant}
    (hfind : (candidatesIn catalogue name ts.length isWindow scopes).find? (·.accepts ts) = some d)
    (hv : d.variantFor? dialect = some v) :
    resolve name ts isWindow dialect scopes = .ok ⟨d, v, d.returnTypeFor ts⟩ := by
  have hmem := List.mem_of_find?_eq_some hfind
  have hnonempty {ds : List Definition} (hd : d ∈ ds) : ¬ ds.isEmpty = true := by
    rw [List.isEmpty_iff]
    exact List.ne_nil_of_mem hd
  rw [resolve, resolveIn_eq, if_neg (hnonempty (List.mem_filter.mp hmem).1),
    if_neg (hnonempty hmem), hfind]
  simp only [hv]

theorem mem_catalogue_of_resolve (h : resolve name ts isWindow dialect scopes = .ok r) :
    r.definition ∈ catalogue ∧ r.definition.name = name.toLower ∧
      r.definition.isWindow = isWindow ∧ r.definition.accepts ts = true := by
  obtain ⟨hfind, -⟩ := resolve_eq_ok h
  obtain ⟨hmem, hname, hwindow, -⟩ := mem_candidatesIn.mp (List.mem_of_find?_eq_some hfind)
  exact ⟨hmem, hname, hwindow, List.find?_some (p := (Definition.accepts · ts)) hfind⟩

/-- A constant result comes from constant arguments, and not from an aggregation or a window
function. Only in an array may an argument be NULL without being constant. -/
theorem resolve_isConst (h : resolve name ts isWindow dialect scopes = .ok r)
    (hconst : r.returnType.isConst = true) :
    isWindow = false ∧ isAggregate name = false ∧
      ∀ t ∈ ts, t.isConst = true ∨ name.toLower = "array" ∧ t.isNull = true := by
  obtain ⟨-, -, htype⟩ := resolve_eq_ok h
  obtain ⟨hmem, hname, hwindow, haccepts⟩ := mem_catalogue_of_resolve h
  have hresult : r.definition.isWindow = false ∧ r.definition.category ≠ .aggregation ∧
      ∀ t ∈ ts, t.isConst = true ∨ name.toLower = "array" ∧ t.isNull = true := by
    by_cases hall : r.definition.isConstFor ts = true
    · obtain ⟨hwindow, hcategory, -, hts⟩ := Definition.isConstFor_iff.mp hall
      exact ⟨hwindow, hcategory, fun t ht => Or.inl (hts t ht)⟩
    · rw [htype, Definition.returnTypeFor, if_neg hall] at hconst
      obtain ⟨harray, hwindow, hcategory, hargs⟩ :=
        (catalogue_listed _ hmem).constant (fixed?_of_isConst_base hconst)
      obtain ⟨x, hx, hxaccepts⟩ := List.any_eq_true.mp haccepts
      refine ⟨hwindow, hcategory, fun t ht => ?_⟩
      have ht := ArgTypes.isConst_of_accepts (List.all_eq_true.mp hargs x hx) hxaccepts t ht
      exact ht.imp_right fun hnull => ⟨hname.symm.trans harray, hnull⟩
  refine ⟨hwindow.symm.trans hresult.1, ?_, hresult.2.2⟩
  refine List.any_eq_false.mpr fun d hd haggregate => ?_
  obtain ⟨hd, hdname, hdwindow⟩ := mem_definitions.mp hd
  have hlisted := ((catalogue_listed d hd).aggregation hdwindow).mp haggregate
  rw [hdname, ← hname, ← (catalogue_listed _ hmem).aggregation hresult.1, Definition.isAggregate,
    Bool.and_eq_true, beq_iff_eq] at hlisted
  exact hresult.2.1 hlisted.1

end Function

end FormulaSql
