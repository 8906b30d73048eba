import FormulaSql.Proofs.Function.Catalogue

/-!
# Choosing a definition does not depend on the order of the catalogue

Definitions are sorted by priority only, so those of one name and one priority stay in the order in
which they were listed. This does not show: no two of them take the same arguments. The only ones
there are make arrays, and each of these needs an item of a type that the others do not take.

* `Function.resolveIn_perm`: the outcome is the same in every order, and a definition that takes the
  arguments has a variant for every dialect
-/

namespace FormulaSql

/-! ## Definitions of a name -/

namespace Function

variable {defs : List Definition} {name : String} {isWindow : Bool} {d : Definition}

theorem mem_definitionsIn : d ∈ definitionsIn defs name isWindow ↔
    d ∈ defs ∧ d.name = name.toLower ∧ d.isWindow = isWindow := by
  rw [definitionsIn, List.mem_mergeSort, List.mem_filter, Bool.and_eq_true, beq_iff_eq, beq_iff_eq]

/-- The definitions of a name, in whatever order. -/
theorem mem_definitions : d ∈ definitions name isWindow ↔
    d ∈ catalogue ∧ d.name = name.toLower ∧ d.isWindow = isWindow :=
  mem_definitionsIn

theorem definitionsIn_perm {defs' : List Definition} (h : defs.Perm defs') :
    (definitionsIn defs name isWindow).Perm (definitionsIn defs' name isWindow) :=
  (List.mergeSort_perm _ _).trans ((h.filter _).trans (List.mergeSort_perm _ _).symm)

theorem definitionsIn_sorted :
    (definitionsIn defs name isWindow).Pairwise fun a b => a.priority ≤ b.priority := by
  have hsorted : (definitionsIn defs name isWindow).Pairwise fun a b =>
      decide (a.priority ≤ b.priority) = true := by
    refine List.pairwise_mergeSort (fun a b c hab hbc => ?_) (fun a b => ?_) _
    · rw [decide_eq_true_eq] at hab hbc ⊢
      exact Nat.le_trans hab hbc
    · rw [Bool.or_eq_true, decide_eq_true_eq, decide_eq_true_eq]
      exact Nat.le_total _ _
  exact hsorted.imp of_decide_eq_true

end Function

/-! ## Definitions that share a name -/

theorem ArgTypes.not_accepts_of_needs {allowed required allowed' required' : List DataType}
    (h : (required.all fun t => !t.castsToAny allowed') = true) {types : List DataType}
    (haccepts : (forAllRequiring allowed required).accepts types = true) :
    (forAllRequiring allowed' required').accepts types = false := by
  rw [accepts, Bool.and_eq_true] at haccepts
  obtain ⟨t, ht, hrequired⟩ := List.any_eq_true.mp haccepts.2
  have hrefused := List.all_eq_true.mp h t (List.contains_iff_mem.mp hrequired)
  rw [accepts, Bool.and_eq_false_iff]
  refine Or.inl (List.all_eq_false.mpr ⟨t, ht, ?_⟩)
  rwa [Bool.not_eq_true, ← Bool.not_eq_true']

theorem ArgTypes.not_accepts_of_excludes {x y : ArgTypes} (h : x.excludes y = true)
    {types : List DataType} (hx : x.accepts types = true) : y.accepts types = false := by
  unfold excludes at h
  split at h
  next allowed required allowed' required' =>
    rcases Bool.or_eq_true_iff.mp h with h | h
    · exact not_accepts_of_needs h hx
    · rw [← Bool.not_eq_true]
      intro hy
      rw [not_accepts_of_needs h hy] at hx
      exact absurd hx (by decide)
  next => exact absurd h (by decide)

namespace Definition

theorem not_accepts_of_excludes {a b : Definition} (h : a.excludes b = true)
    {types : List DataType} (ha : a.accepts types = true) : b.accepts types = false := by
  obtain ⟨x, hx, haccepts⟩ := List.any_eq_true.mp ha
  refine List.any_eq_false.mpr fun y hy => ?_
  have hexcludes := List.all_eq_true.mp (List.all_eq_true.mp h x hx) y hy
  rw [Bool.not_eq_true]
  exact ArgTypes.not_accepts_of_excludes hexcludes haccepts

end Definition

/-- Among the definitions of one name and one priority at most one takes the arguments. -/
theorem catalogue_unique {a b : Definition} (ha : a ∈ catalogue) (hb : b ∈ catalogue)
    (hname : a.name = b.name) (hwindow : a.isWindow = b.isWindow)
    (hpriority : a.priority = b.priority) {types : List DataType}
    (hat : a.accepts types = true) (hbt : b.accepts types = true) : a = b := by
  by_contra hne
  obtain ⟨i, hi, rfl⟩ := List.getElem_of_mem ha
  obtain ⟨j, hj, rfl⟩ := List.getElem_of_mem hb
  rcases Nat.lt_trichotomy i j with hij | rfl | hij
  · have hoverload := List.pairwise_iff_getElem.mp catalogue_overloads i j hi hj hij
      ⟨hname, hwindow⟩
    rw [Definition.not_accepts_of_excludes (hoverload.2.1 hpriority) hat] at hbt
    exact absurd hbt (by decide)
  · exact hne rfl
  · have hoverload := List.pairwise_iff_getElem.mp catalogue_overloads j i hj hi hij
      ⟨hname.symm, hwindow.symm⟩
    rw [Definition.not_accepts_of_excludes (hoverload.2.1 hpriority.symm) hbt] at hat
    exact absurd hat (by decide)

/-! ## Variants -/

/-- Every definition has a variant for every dialect. -/
theorem exists_variantFor? {d : Definition} (hd : d ∈ catalogue) (dialect : Dialects) :
    ∃ v, d.variantFor? dialect = some v := by
  obtain ⟨v, hv, hdummy⟩ := List.any_eq_true.mp (catalogue_listed d hd).baseline
  rw [Definition.variantFor?]
  cases Definition.narrowest (d.variants.filter fun v =>
      !v.dialects.contains .dummy && v.dialects.serves dialect) with
  | some w => exact ⟨w, rfl⟩
  | none =>
      cases hfind : d.variants.find? fun v => v.dialects.contains .dummy with
      | some w => exact ⟨w, rfl⟩
      | none => exact absurd hdummy (List.find?_eq_none.mp hfind v hv)

namespace Function

/-- The definitions of a name stand in the catalogue in the order in which they are tried. -/
theorem definitionsIn_catalogue (name : String) (isWindow : Bool) :
    definitionsIn catalogue name isWindow =
      catalogue.filter fun d => d.name == name.toLower && d.isWindow == isWindow := by
  refine List.mergeSort_of_pairwise (List.pairwise_filter.mpr (catalogue_overloads.imp ?_))
  intro a b hab ha hb
  simp only [Bool.and_eq_true, beq_iff_eq] at ha hb
  exact decide_eq_true (hab ⟨ha.1.trans hb.1.symm, ha.2.trans hb.2.symm⟩).1

/-! ## Outcomes -/

section Outcomes

variable {defs : List Definition} {name : String} {types : List DataType} {isWindow : Bool}
  {dialect : Dialects} {scopes : Scopes}

/-- The definitions that are left when their arguments are looked at. -/
def candidatesIn (defs : List Definition) (name : String) (count : Nat) (isWindow : Bool)
    (scopes : Scopes) : List Definition :=
  ((definitionsIn defs name isWindow).filter fun d => d.allScopes.contains scopes).filter fun d =>
    d.arity.accepts count

theorem mem_candidatesIn {count : Nat} {d : Definition} :
    d ∈ candidatesIn defs name count isWindow scopes ↔ d ∈ defs ∧ d.name = name.toLower ∧
      d.isWindow = isWindow ∧ d.allScopes.contains scopes = true ∧
      d.arity.accepts count = true := by
  rw [candidatesIn, List.mem_filter, List.mem_filter, mem_definitionsIn]
  simp only [and_assoc]

theorem candidatesIn_sorted (count : Nat) : (candidatesIn defs name count isWindow scopes).Pairwise
    fun a b => a.priority ≤ b.priority :=
  (definitionsIn_sorted.filter _).filter _

theorem candidatesIn_perm {defs' : List Definition} (h : defs.Perm defs') (count : Nat) :
    (candidatesIn defs name count isWindow scopes).Perm
      (candidatesIn defs' name count isWindow scopes) :=
  ((definitionsIn_perm h).filter _).filter _

/-- Something is found among the candidates if one of them takes the arguments. -/
theorem exists_find? {count : Nat} {d : Definition}
    (hd : d ∈ candidatesIn defs name count isWindow scopes) (h : d.accepts types = true) :
    ∃ d', (candidatesIn defs name count isWindow scopes).find? (·.accepts types) = some d' := by
  rw [← Option.isSome_iff_exists, List.find?_isSome]
  exact ⟨d, hd, h⟩

/-- In every order of the catalogue the same definition is the first that takes the arguments. -/
theorem find?_candidatesIn (h : defs.Perm catalogue) (count : Nat) :
    (candidatesIn defs name count isWindow scopes).find? (·.accepts types) =
      (candidatesIn catalogue name count isWindow scopes).find? (·.accepts types) := by
  refine find?_eq_of_perm Definition.priority (candidatesIn_perm h count)
    (candidatesIn_sorted count) (candidatesIn_sorted count) fun a ha b hb hat hbt hpriority => ?_
  obtain ⟨had, haname, hawindow, -⟩ := mem_candidatesIn.mp ha
  obtain ⟨hbd, hbname, hbwindow, -⟩ := mem_candidatesIn.mp hb
  exact catalogue_unique (h.mem_iff.mp had) (h.mem_iff.mp hbd) (haname.trans hbname.symm)
    (hawindow.trans hbwindow.symm) hpriority hat hbt

/-- A call is resolved by the first candidate that takes the arguments. -/
theorem resolveIn_eq : resolveIn defs name types isWindow dialect scopes =
    if ((definitionsIn defs name isWindow).filter fun d => d.allScopes.contains scopes).isEmpty then
      .error (.unknownFunction name)
    else if (candidatesIn defs name types.length isWindow scopes).isEmpty then
      .error (.validation (.argCount name types.length))
    else
      match (candidatesIn defs name types.length isWindow scopes).find? (·.accepts types) with
      | none => .error (.noOverload name types)
      | some d =>
        match d.variantFor? dialect with
        | none => .error (.dialectNotSupported name dialect)
        | some v => .ok ⟨d, v, d.returnTypeFor types⟩ :=
  rfl

theorem resolve_ne_dialectNotSupported (n : String) (d : Dialects) :
    resolve name types isWindow dialect scopes ≠ .error (.dialectNotSupported n d) := by
  rw [resolve, resolveIn_eq]
  split
  · simp
  · split
    · simp
    · split
      · simp
      next d hfind =>
        have hd := (mem_candidatesIn.mp (List.mem_of_find?_eq_some hfind)).1
        obtain ⟨v, hv⟩ := exists_variantFor? hd dialect
        rw [hv]
        simp

/-- The outcome of a call is the same in whatever order the definitions are listed, and it is never
that the dialect is not supported. -/
theorem resolveIn_perm (h : defs.Perm catalogue) (name : String) (types : List DataType)
    (isWindow : Bool) (dialect : Dialects) (scopes : Scopes) :
    resolveIn defs name types isWindow dialect scopes =
        resolve name types isWindow dialect scopes ∧
      ∀ n d, resolveIn defs name types isWindow dialect scopes ≠
        .error (.dialectNotSupported n d) := by
  have heq : resolveIn defs name types isWindow dialect scopes =
      resolve name types isWindow dialect scopes := by
    have hscope : ((definitionsIn defs name isWindow).filter fun d =>
        d.allScopes.contains scopes).isEmpty = ((definitionsIn catalogue name isWindow).filter
          fun d => d.allScopes.contains scopes).isEmpty :=
      ((definitionsIn_perm h).filter _).isEmpty_eq
    have hcount : (candidatesIn defs name types.length isWindow scopes).isEmpty =
        (candidatesIn catalogue name types.length isWindow scopes).isEmpty :=
      (candidatesIn_perm h types.length).isEmpty_eq
    rw [resolve, resolveIn_eq, resolveIn_eq, hscope, hcount, find?_candidatesIn h]
  refine ⟨heq, fun n d => ?_⟩
  rw [heq]
  exact resolve_ne_dialectNotSupported n d

/-- An array of an integer, NULL and a float is made by the same definition when the catalogue is
read backwards. -/
theorem resolveIn_perm_reverse :
    catalogue.reverse.Perm catalogue ∧
      (resolveIn catalogue.reverse "ARRAY" [.const .integer, .const .null, .const .float] false
          (.single .oracle) .explicitUsage =
        resolve "ARRAY" [.const .integer, .const .null, .const .float] false (.single .oracle)
          .explicitUsage ∧
      ∀ n d, resolveIn catalogue.reverse "ARRAY" [.const .integer, .const .null, .const .float]
          false (.single .oracle) .explicitUsage ≠ .error (.dialectNotSupported n d)) ∧
      (resolve "ARRAY" [.const .integer, .const .null, .const .float] false (.single .oracle)
        .explicitUsage).toOption.map Resolution.returnType = some (.const .arrayFloat) :=
  ⟨List.reverse_perm catalogue, resolveIn_perm (List.reverse_perm catalogue) _ _ _ _ _, by
    rw [resolve, resolveIn, definitionsIn_catalogue]
    decide +kernel⟩

end Outcomes

end Function

end FormulaSql
