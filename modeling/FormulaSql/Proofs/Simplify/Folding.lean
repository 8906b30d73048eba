import FormulaSql.Proofs.Simplify.Nulls

/-!
# Folding constants keeps what a formula means

A rule is sound if what it offers stands in for the node it looks at. This holds of the rules that
compute with literals: arithmetic is not folded where it overflows, comparisons with NULL are not
folded at all, and a connective with NULL is folded as if it were FALSE, which is why the operand of
one whose value counts must not become NULL.
-/

namespace FormulaSql

/-! ## Literals and their values -/

namespace Literal

theorem cases_boolean {v : Literal} (h : v.hasType .boolean = true) :
    v = .null ∨ ∃ b, v = .boolean b := by
  cases v with
  | null => exact Or.inl rfl
  | boolean b => exact Or.inr ⟨b, rfl⟩
  | _ => exact absurd h (by simp [hasType, ValueType.within])

theorem cases_integer {v : Literal} (h : v.hasType .integer = true) :
    v = .null ∨ ∃ n, v = .integer n := by
  cases v with
  | null => exact Or.inl rfl
  | integer n => exact Or.inr ⟨n, rfl⟩
  | _ => exact absurd h (by simp [hasType, ValueType.within])

theorem cases_string {v : Literal} (h : v.hasType .string = true) :
    v = .null ∨ ∃ s, v = .string s := by
  cases v with
  | null => exact Or.inl rfl
  | string s => exact Or.inr ⟨s, rfl⟩
  | _ => exact absurd h (by simp [hasType, ValueType.within])

theorem cases_number {v : Literal} (h : v.hasType .number = true) :
    v = .null ∨ (∃ b, v = .boolean b) ∨ ∃ n, v = .integer n := by
  cases v with
  | null => exact Or.inl rfl
  | boolean b => exact Or.inr (Or.inl ⟨b, rfl⟩)
  | integer n => exact Or.inr (Or.inr ⟨n, rfl⟩)
  | _ => exact absurd h (by simp [hasType, ValueType.within])

/-! Two literals of one kind are the same exactly if their values are equal. -/

theorem equal_booleans (b c : Bool) :
    Value.equal (.ofLiteral (.boolean b)) (.ofLiteral (.boolean c)) =
      .boolean ((boolean b).same (.boolean c)) := by
  cases b <;> cases c <;> decide

theorem equal_integers (m n : Int64) :
    Value.equal (.ofLiteral (.integer m)) (.ofLiteral (.integer n)) =
      .boolean ((integer m).same (.integer n)) := by
  refine congrArg Value.boolean ?_
  rw [Bool.eq_iff_iff, beq_iff_eq, same, beq_iff_eq]
  exact Int64.toInt_inj.trans ⟨congrArg integer, integer.inj⟩

theorem equal_strings (s t : String) :
    Value.equal (.ofLiteral (.string s)) (.ofLiteral (.string t)) =
      .boolean ((string s).same (.string t)) := by
  refine congrArg Value.boolean ?_
  rw [Bool.eq_iff_iff, beq_iff_eq, same, beq_iff_eq]
  exact ⟨congrArg string, string.inj⟩

end Literal

namespace Simplify

open Formula

variable {row : String → Value} {fields : String → ValueType} {above : List Formula}
  {f r : Formula}

theorem reading_of_literal? {v : Literal} (h : f.literal? = some v) : f.reading = .literal v :=
  reading_of_kind (kind_of_literal? h)

theorem value_of_literal? {v : Literal} (h : f.literal? = some v) :
    f.value row = .ofLiteral v := value_literal (reading_of_literal? h)

theorem hasType_of_literal? {v : Literal} (h : f.literal? = some v) (t : ValueType) :
    f.hasType fields t = v.hasType t := by
  rw [hasType_eq, reading_of_literal? h]
  rfl

theorem ne_null_of_literal? {v : Literal} (h : f.literal? = some v)
    (hnull : f.mayBecomeNull = false) : v ≠ .null := by
  rw [mayBecomeNull_eq, reading_of_literal? h] at hnull
  exact beq_eq_false_iff_ne.mp hnull

/-- A literal that is not NULL stands in for a formula of its type and value. -/
theorem stands_folded {v : Literal} {t : ValueType} {u : Use} (hv : v ≠ .null)
    (htyped : v.hasType t = true) (hagree : u.Agree (f.value row) (.ofLiteral v)) :
    Stands row fields f (folded f v) t u := by
  have hreading : (folded f v).reading = .literal v := rfl
  refine ⟨?_, ?_, ?_, ?_⟩
  · rw [hasType_eq, hreading]
    exact htyped
  · rw [careful_eq, hreading]
    rfl
  · rw [mayBecomeNull_eq, hreading]
    exact fun hnull => absurd (beq_iff_eq.mp hnull) hv
  · rwa [value_literal hreading]

/-- The rule offers formulas that stand in for the node. -/
def Sound (row : String → Value) (fields : String → ValueType) (rule : Rule) : Prop :=
  ∀ above f r, rule above f = some r → Refines row fields f r

/-! ## Arithmetic -/

theorem int64?_eq_some {n : Int} {v : Literal} (h : int64? n = some v) :
    ∃ m : Int64, v = .integer m ∧ m.toInt = n := by
  unfold int64? at h
  split at h
  next hrange =>
    rw [Bool.and_eq_true, decide_eq_true_eq, decide_eq_true_eq, Int64.toInt_minValue,
      Int64.toInt_maxValue] at hrange
    exact ⟨_, (Option.some.inj h).symm, Int64.toInt_ofInt_of_le hrange.1 (by omega)⟩
  next => exact absurd h (by simp)

theorem integers_of_math? {op : String} {a b v : Literal} {t : ValueType}
    (ha : a.hasType t = true) (hb : b.hasType t = true) (h : math? op a b = some v) :
    ∃ m n, a = .integer m ∧ b = .integer n ∧ integerMath op m n = some v := by
  unfold math? at h
  split at h
  next m n => exact ⟨m, n, rfl, rfl, h⟩
  next =>
    obtain ⟨x, hx, h⟩ := Option.bind_eq_some_iff.mp h
    obtain ⟨y, hy, -⟩ := Option.bind_eq_some_iff.mp h
    cases a <;> cases b <;> simp_all [number?, Literal.hasType]

/-- A result that is folded is the value, because one that does not fit is not folded. -/
theorem math?_value {op : String} {a b v : Literal} {s : ValueType × ValueType}
    (hs : s ∈ Value.signatures op) (ha : a.hasType s.1 = true) (hb : b.hasType s.1 = true)
    (h : math? op a b = some v) :
    ∃ n, v = .integer n ∧ s.2 = .integer ∧
      Value.binary op (.ofLiteral a) (.ofLiteral b) = .integer n.toInt := by
  obtain ⟨x, y, rfl, rfl, hmath⟩ := integers_of_math? ha hb h
  have hinteger (hs : s ∈ [(ValueType.integer, ValueType.integer)]) : s.2 = .integer :=
    congrArg Prod.snd (List.mem_singleton.mp hs)
  unfold integerMath at hmath
  split at hmath
  case h_4 => exact absurd hs List.not_mem_nil
  case h_5 => exact absurd hmath (by simp)
  all_goals
    obtain ⟨n, rfl, hn⟩ := int64?_eq_some hmath
    exact ⟨n, rfl, hinteger hs, congrArg Value.integer hn.symm⟩

theorem sound_arithmetic : Sound row fields arithmetic := by
  intro above f r h t u htyped _
  unfold arithmetic at h
  split at h
  next op left right hk =>
    obtain ⟨a, ha, h⟩ := Option.bind_eq_some_iff.mp h
    obtain ⟨b, hb, h⟩ := Option.bind_eq_some_iff.mp h
    obtain ⟨v, hv, h⟩ := Option.bind_eq_some_iff.mp h
    obtain rfl := Option.some.inj h
    have hf : f.reading = .binary op left right := reading_of_kind hk
    obtain ⟨s, hs, hl, hr, hst⟩ := (hasType_binary hf).mp htyped
    rw [hasType_of_literal? ha] at hl
    rw [hasType_of_literal? hb] at hr
    obtain ⟨n, rfl, htype, hvalue⟩ := math?_value hs hl hr hv
    rw [htype] at hst
    refine stands_folded (by simp) hst (.of_eq ?_)
    rw [value_binary hf, value_of_literal? ha, value_of_literal? hb]
    exact hvalue
  next => exact absurd h (by simp)

/-! ## Comparisons -/

/-- Literals of one type that can be compared are equal as values if they are the same. -/
theorem literalsEqual?_value {op : String} (hop : op = "==" ∨ op = "!=") {a b : Literal}
    {s : ValueType × ValueType} (hs : s ∈ Value.signatures op) (ha : a.hasType s.1 = true)
    (hb : b.hasType s.1 = true) {same : Bool} (h : literalsEqual? false a b = some same) :
    s.2 = .boolean ∧ Value.equal (.ofLiteral a) (.ofLiteral b) = .boolean same := by
  have hs : s = (.number, .boolean) ∨ s = (.string, .boolean) := by
    rcases hop with rfl | rfl <;> simpa [Value.signatures] using hs
  unfold literalsEqual? at h
  split at h
  · exact absurd h (by simp)
  next hnull =>
    rw [Bool.or_eq_true, not_or, beq_iff_eq, beq_iff_eq] at hnull
    split at h
    next hbase =>
      obtain rfl := Option.some.inj h
      rcases hs with rfl | rfl
      · rcases Literal.cases_number ha with rfl | ⟨x, rfl⟩ | ⟨m, rfl⟩
        · exact absurd rfl hnull.1
        · rcases Literal.cases_number hb with rfl | ⟨y, rfl⟩ | ⟨n, rfl⟩
          · exact absurd rfl hnull.2
          · exact ⟨rfl, Literal.equal_booleans x y⟩
          · exact absurd hbase (by simp [Literal.baseType])
        · rcases Literal.cases_number hb with rfl | ⟨y, rfl⟩ | ⟨n, rfl⟩
          · exact absurd rfl hnull.2
          · exact absurd hbase (by simp [Literal.baseType])
          · exact ⟨rfl, Literal.equal_integers m n⟩
      · rcases Literal.cases_string ha with rfl | ⟨x, rfl⟩
        · exact absurd rfl hnull.1
        · rcases Literal.cases_string hb with rfl | ⟨y, rfl⟩
          · exact absurd rfl hnull.2
          · exact ⟨rfl, Literal.equal_strings x y⟩
    next => exact absurd h (by simp)

theorem sound_comparison : Sound row fields comparison := by
  intro above f r h t u htyped _
  unfold comparison at h
  split at h
  next op left right hk =>
    obtain ⟨⟨negated, nullSafe⟩, hop, h⟩ := Option.bind_eq_some_iff.mp h
    obtain ⟨a, ha, h⟩ := Option.bind_eq_some_iff.mp h
    obtain ⟨b, hb, h⟩ := Option.bind_eq_some_iff.mp h
    obtain ⟨same, hsame, h⟩ := Option.bind_eq_some_iff.mp h
    obtain rfl := Option.some.inj h
    have hf : f.reading = .binary op left right := reading_of_kind hk
    obtain ⟨s, hs, hl, hr, hst⟩ := (hasType_binary hf).mp htyped
    rw [hasType_of_literal? ha] at hl
    rw [hasType_of_literal? hb] at hr
    have hmem := mem_of_lookup hop
    simp only [equalityOperators, List.mem_cons, Prod.mk.injEq, List.not_mem_nil, or_false] at hmem
    rcases hmem with ⟨rfl, rfl, rfl⟩ | ⟨rfl, -⟩ | ⟨rfl, rfl, rfl⟩ | ⟨rfl, -⟩
    · obtain ⟨htype, hvalue⟩ := literalsEqual?_value (Or.inl rfl) hs hl hr hsame
      rw [htype] at hst
      refine stands_folded (by simp) hst (.of_eq ?_)
      rw [value_binary hf, value_of_literal? ha, value_of_literal? hb]
      exact hvalue.trans (by cases same <;> rfl)
    · exact absurd hs (by simp [Value.signatures])
    · obtain ⟨htype, hvalue⟩ := literalsEqual?_value (Or.inr rfl) hs hl hr hsame
      rw [htype] at hst
      refine stands_folded (by simp) hst (.of_eq ?_)
      rw [value_binary hf, value_of_literal? ha, value_of_literal? hb]
      exact (congrArg Value.not hvalue).trans (by cases same <;> rfl)
    · exact absurd hs (by simp [Value.signatures])
  next => exact absurd h (by simp)

/-! ## Connectives -/

theorem and_agree {u : Use} {v : Literal} {x : Value} (hv : v.hasType .boolean = true)
    (hx : x.hasType .boolean = true) (hnull : u = .value → v ≠ .null) :
    u.Agree (Value.and (.ofLiteral v) x) (if v.isTruthy then x else .boolean false) := by
  rcases Literal.cases_boolean hv with rfl | ⟨b, rfl⟩
  · cases u with
    | value => exact absurd rfl (hnull rfl)
    | truth =>
        rw [Use.Agree, Value.and_eq_true]
        simp [Literal.isTruthy, Value.ofLiteral]
  · refine .of_eq ?_
    rcases Value.boolean_cases hx with rfl | ⟨c, rfl⟩
    · cases b <;> rfl
    · cases b <;> cases c <;> rfl

theorem or_agree {u : Use} {v : Literal} {x : Value} (hv : v.hasType .boolean = true)
    (hx : x.hasType .boolean = true) (hnull : u = .value → v ≠ .null) :
    u.Agree (Value.or (.ofLiteral v) x) (if v.isTruthy then .boolean true else x) := by
  rcases Literal.cases_boolean hv with rfl | ⟨b, rfl⟩
  · cases u with
    | value => exact absurd rfl (hnull rfl)
    | truth =>
        rw [Use.Agree, Value.or_eq_true]
        simp [Literal.isTruthy, Value.ofLiteral]
  · refine .of_eq ?_
    rcases Value.boolean_cases hx with rfl | ⟨c, rfl⟩
    · cases b <;> rfl
    · cases b <;> cases c <;> rfl

/-- What a connective is replaced by, given the operand that is constant and the other one. -/
def Decided (f : Formula) (op : String) (v : Literal) (other r : Formula) : Prop :=
  (op = "and" ∧ r = if v.isTruthy then other else folded f (.boolean false)) ∨
    (op = "or" ∧ r = if v.isTruthy then folded f (.boolean true) else other)

theorem decided_cases {op : String} {v : Literal} {other : Formula}
    (h : (match op with
      | "and" => if v.isTruthy then some other else some (folded f (.boolean false))
      | "or" => if v.isTruthy then some (folded f (.boolean true)) else some other
      | _ => none) = some r) : Decided f op v other r := by
  split at h
  · refine Or.inl ⟨rfl, ?_⟩
    split at h <;> simp_all
  · refine Or.inr ⟨rfl, ?_⟩
    split at h <;> simp_all
  · exact absurd h (by simp)

theorem connective_cases (h : connective above f = some r) :
    ∃ op left right v other, f.kind = .binary op left right ∧
      ((left.literal? = some v ∧ other = right) ∨ (right.literal? = some v ∧ other = left)) ∧
      Decided f op v other r := by
  unfold connective at h
  split at h
  next op left right hk =>
    refine ⟨op, left, right, ?_⟩
    dsimp only at h
    split at h
    next v hv =>
      exact ⟨v, right, hk, Or.inl ⟨hv, rfl⟩, decided_cases h⟩
    next v _ hv =>
      exact ⟨v, left, hk, Or.inr ⟨hv, rfl⟩, decided_cases h⟩
    next => exact absurd h (by simp)
  next => exact absurd h (by simp)

theorem sound_connective (hrow : Conforms row fields) : Sound row fields connective := by
  intro above f r h t u htyped hcareful
  obtain ⟨op, left, right, v, other, hk, hoperands, hop⟩ := connective_cases h
  have hf : f.reading = .binary op left right := reading_of_kind hk
  have hconnective : isConnective op = true := by
    rcases hop with ⟨rfl, -⟩ | ⟨rfl, -⟩ <;> rfl
  obtain ⟨s, hs, hl, hr, hst⟩ := (hasType_binary hf).mp htyped
  have hsig : s = (.boolean, .boolean) := by
    rcases hop with ⟨rfl, -⟩ | ⟨rfl, -⟩ <;> exact List.mem_singleton.mp hs
  subst hsig
  obtain ⟨hlcareful, hrcareful, hnulls⟩ := (careful_connective hf hconnective).mp hcareful
  have hnull := fun hn => (mayBecomeNull_binary hf).mpr ⟨hconnective, hn⟩
  have hother : v.hasType .boolean = true ∧ other.hasType fields .boolean = true ∧
      other.careful u = true ∧ (other.mayBecomeNull = true → f.mayBecomeNull = true) ∧
      (u = .value → v ≠ .null) ∧
      f.value row = Value.binary op (.ofLiteral v) (other.value row) := by
    rcases hoperands with ⟨hv, rfl⟩ | ⟨hv, rfl⟩
    · refine ⟨(hasType_of_literal? hv _).symm.trans hl, hr, hrcareful, fun hn => hnull (Or.inr hn),
        fun hu => ne_null_of_literal? hv (hnulls hu).1, ?_⟩
      rw [value_binary hf, value_of_literal? hv]
    · refine ⟨(hasType_of_literal? hv _).symm.trans hr, hl, hlcareful, fun hn => hnull (Or.inl hn),
        fun hu => ne_null_of_literal? hv (hnulls hu).2, ?_⟩
      rw [value_binary hf, value_of_literal? hv]
      rcases hop with ⟨rfl, -⟩ | ⟨rfl, -⟩
      · exact Value.and_comm _ _
      · exact Value.or_comm _ _
  obtain ⟨hvtyped, htyped, hcareful, hnull, hvnull, hvalue⟩ := hother
  have hx := value_hasType hrow htyped
  have hkeep (h : u.Agree (f.value row) (other.value row)) : Stands row fields f other t u :=
    ⟨hasType_mono hst htyped, hcareful, hnull, h⟩
  rcases hop with ⟨rfl, rfl⟩ | ⟨rfl, rfl⟩
  · have hagree := (Use.Agree.of_eq hvalue).trans (and_agree hvtyped hx hvnull)
    split
    next hv =>
      rw [if_pos hv] at hagree
      exact hkeep hagree
    next hv =>
      rw [if_neg hv] at hagree
      exact stands_folded (by simp) hst hagree
  · have hagree := (Use.Agree.of_eq hvalue).trans (or_agree hvtyped hx hvnull)
    split
    next hv =>
      rw [if_pos hv] at hagree
      exact stands_folded (by simp) hst hagree
    next hv =>
      rw [if_neg hv] at hagree
      exact hkeep hagree

/-! ## Tests for NULL -/

theorem isnull_of_constantTest? {dialect : Dialects} {name : String} {t : ConstantTest}
    (h : constantTest? dialect name = some t) :
    name.toLower = "isnull" ∧ t.holds = (· == .null) := by
  have hmem := List.mem_of_mem_head? (Option.mem_def.mpr h)
  rw [List.mem_mergeSort, List.mem_filter, Bool.and_eq_true, beq_iff_eq] at hmem
  obtain ⟨ht, hname, -⟩ := hmem
  obtain rfl := List.mem_singleton.mp ht
  exact ⟨hname.symm, rfl⟩

theorem reading_of_isnull {c : Call Formula} {x : Formula} (hk : f.kind = .call c)
    (hname : c.name.toLower = "isnull") (hargs : c.args = [x]) : f.reading = .isNull x := by
  rw [reading_of_kind hk, Kind.reading, Reading.ofCall_isnull hname, hargs]
  rfl

theorem ofLiteral_eq_null {v : Literal} {t : ValueType} (h : v.hasType t = true) :
    (Value.ofLiteral v == .null) = (v == .null) := by
  cases v <;> first | rfl | exact absurd h (by simp [Literal.hasType])

theorem sound_test (dialect : Dialects) : Sound row fields (test dialect) := by
  intro above f r h t u htyped _
  obtain ⟨c, hc, h⟩ := Option.bind_eq_some_iff.mp h
  split at h
  next x hargs =>
    obtain ⟨v, hv, h⟩ := Option.bind_eq_some_iff.mp h
    obtain ⟨test, htest, h⟩ := Option.bind_eq_some_iff.mp h
    obtain rfl := Option.some.inj h
    obtain ⟨hname, hholds⟩ := isnull_of_constantTest? htest
    have hf := reading_of_isnull (kind_of_call? hc) hname hargs
    obtain ⟨⟨s, hs⟩, ht⟩ := (hasType_isNull hf).mp htyped
    rw [hasType_of_literal? hv] at hs
    refine stands_folded (by simp) ht (.of_eq ?_)
    rw [value_isNull hf, value_of_literal? hv, ofLiteral_eq_null hs, hholds]
    rfl
  next => exact absurd h (by simp)

end Simplify

end FormulaSql
