import FormulaSql.Proofs.Simplify.Reading

/-!
# What formulas mean

Formulas over truth values, integers and texts are given a value for every row, in the three-valued
logic of SQL: strict operators give NULL on NULL, AND, OR and NOT are those of Kleene, and integers
are unbounded. Nodes that are left unread have the value NULL; a well-typed formula has none.

* `Formula.value` is the value on a row
* `Formula.hasType` checks the type of a formula
* `Formula.value_hasType` says that a well-typed formula has a value of its type, or NULL
-/

namespace FormulaSql

/-! ## Values -/

inductive Value where
  | null
  | boolean (b : Bool)
  | integer (n : Int)
  | string (s : String)
  deriving DecidableEq

namespace Value

/-- The value of a literal; literals of other kinds have none. -/
def ofLiteral : Literal → Value
  | .boolean b => boolean b
  | .integer n => integer n.toInt
  | .string s => string s
  | _ => null

/-- A truth value or an integer as a number: TRUE is one and FALSE is zero. -/
def number? : Value → Option Int
  | boolean b => some (if b then 1 else 0)
  | integer n => some n
  | _ => none

/-- A strict operation on numbers. -/
def onNumbers (op : Int → Int → Value) (a b : Value) : Value :=
  match a.number?, b.number? with
  | some m, some n => op m n
  | _, _ => null

/-- Texts are equal as texts, all other values as numbers. -/
def equal : Value → Value → Value
  | string s, string t => boolean (s == t)
  | a, b => onNumbers (fun m n => boolean (m == n)) a b

def not : Value → Value
  | boolean b => boolean !b
  | _ => null

def and : Value → Value → Value
  | boolean false, _ => boolean false
  | _, boolean false => boolean false
  | boolean true, boolean true => boolean true
  | _, _ => null

def or : Value → Value → Value
  | boolean true, _ => boolean true
  | _, boolean true => boolean true
  | boolean false, boolean false => boolean false
  | _, _ => null

/-- The value of an operator. -/
def binary : String → Value → Value → Value
  | "+" => onNumbers fun m n => integer (m + n)
  | "-" => onNumbers fun m n => integer (m - n)
  | "*" => onNumbers fun m n => integer (m * n)
  | "==" => equal
  | "!=" => fun a b => (equal a b).not
  | "<" => onNumbers fun m n => boolean (m < n)
  | "<=" => onNumbers fun m n => boolean (m ≤ n)
  | ">" => onNumbers fun m n => boolean (n < m)
  | ">=" => onNumbers fun m n => boolean (n ≤ m)
  | "and" => and
  | "or" => or
  | _ => fun _ _ => null

def unary : String → Value → Value
  | "not" => not
  | _ => fun _ => null

/-- The value of the first branch whose test passes. -/
def select (passes : Value → Bool) (bs : List (Branch Value)) (otherwise : Value) : Value :=
  ((bs.find? fun b => passes b.test).map Branch.value).getD otherwise

def isTrue (v : Value) : Bool := v == boolean true

end Value

/-- The value of a node on a row, from the values of its parts. -/
def Reading.value (row : String → Value) : Reading Value → Value
  | field n => row n
  | literal v => .ofLiteral v
  | paren v => v
  | binary op a b => .binary op a b
  | unary op a => .unary op a
  | conditional bs otherwise => .select Value.isTrue bs otherwise
  | choice s bs otherwise => .select (fun v => (s.equal v).isTrue) bs otherwise
  | isNull v => .boolean (v == .null)
  | unread => .null

/-- The value of a formula on a row. -/
def Formula.value (row : String → Value) (f : Formula) : Value :=
  f.recur fun _ k => k.reading.value row

/-! ## Types -/

/-- Types of values. Numbers are integers and truth values. -/
inductive ValueType where
  | boolean
  | integer
  | number
  | string
  deriving DecidableEq

namespace ValueType

/-- Every value of the first type is one of the second. -/
def within (s t : ValueType) : Bool := s == t || (t == number && s != string)

/-- Types of which no value can be taken for one of the others. -/
def plain : List ValueType := [boolean, integer, string]

theorem within_trans {s t u : ValueType} (hst : s.within t = true) (htu : t.within u = true) :
    s.within u = true := by
  revert hst htu
  cases s <;> cases t <;> cases u <;> decide

end ValueType

/-- The value is one of the type. NULL is one of every type. -/
def Value.hasType : Value → ValueType → Bool
  | null, _ => true
  | boolean _, t => ValueType.boolean.within t
  | integer _, t => ValueType.integer.within t
  | string _, t => ValueType.string.within t

/-- The types of operands with which an operator can be used, and the type of what it gives. -/
def Value.signatures : String → List (ValueType × ValueType)
  | "+" => [(.integer, .integer)]
  | "-" => [(.integer, .integer)]
  | "*" => [(.integer, .integer)]
  | "==" => [(.number, .boolean), (.string, .boolean)]
  | "!=" => [(.number, .boolean), (.string, .boolean)]
  | "<" => [(.number, .boolean)]
  | "<=" => [(.number, .boolean)]
  | ">" => [(.number, .boolean)]
  | ">=" => [(.number, .boolean)]
  | "and" => [(.boolean, .boolean)]
  | "or" => [(.boolean, .boolean)]
  | _ => []

def Literal.hasType : Literal → ValueType → Bool
  | null, _ => true
  | boolean _, t => ValueType.boolean.within t
  | integer _, t => ValueType.integer.within t
  | string _, t => ValueType.string.within t
  | _, _ => false

/-- Whether a node has a type, when it is known which types its parts have. -/
def Reading.hasType (fields : String → ValueType) : Reading (ValueType → Bool) → ValueType → Bool
  | field n, t => (fields n).within t
  | literal v, t => v.hasType t
  | paren e, t => e t
  | binary op l r, t => (Value.signatures op).any fun s => l s.1 && r s.1 && s.2.within t
  | unary op e, t => op == "not" && e .boolean && ValueType.boolean.within t
  | conditional bs otherwise, t => bs.all (fun b => b.test .boolean && b.value t) && otherwise t
  | choice s bs otherwise, t =>
    ValueType.plain.any (fun p => s p && bs.all fun b => b.test p) &&
      bs.all (fun b => b.value t) && otherwise t
  | isNull e, t =>
    [ValueType.boolean, .integer, .number, .string].any e && ValueType.boolean.within t
  | unread, _ => false

/-- The formula is well-typed and has the type. -/
def Formula.hasType (fields : String → ValueType) (f : Formula) : ValueType → Bool :=
  f.recur fun _ k => k.reading.hasType fields

/-! ## Equations -/

namespace Formula

variable (row : String → Value) (fields : String → ValueType)

theorem value_eq (f : Formula) : f.value row = (f.reading.map (value row)).value row := by
  rw [value, recur_eq, Reading.reading_map]
  rfl

theorem hasType_eq (f : Formula) :
    f.hasType fields = (f.reading.map (hasType fields)).hasType fields := by
  rw [hasType, recur_eq, Reading.reading_map]
  rfl

section Values

variable {row : String → Value} {f e : Formula} {bs : List (Branch Formula)}

theorem value_literal {v : Literal} (hf : f.reading = .literal v) :
    f.value row = .ofLiteral v := by
  rw [value_eq, hf]
  rfl

theorem value_paren (hf : f.reading = .paren e) : f.value row = e.value row := by
  rw [value_eq, hf]
  rfl

theorem value_binary {op : String} {l r : Formula} (hf : f.reading = .binary op l r) :
    f.value row = .binary op (l.value row) (r.value row) := by
  rw [value_eq, hf]
  rfl

theorem value_unary {op : String} (hf : f.reading = .unary op e) :
    f.value row = .unary op (e.value row) := by
  rw [value_eq, hf]
  rfl

theorem value_conditional (hf : f.reading = .conditional bs e) :
    f.value row = .select Value.isTrue (bs.map (·.map (value row))) (e.value row) := by
  rw [value_eq, hf]
  rfl

theorem value_choice {s : Formula} (hf : f.reading = .choice s bs e) :
    f.value row = .select (fun v => ((s.value row).equal v).isTrue) (bs.map (·.map (value row)))
      (e.value row) := by
  rw [value_eq, hf]
  rfl

theorem value_isNull (hf : f.reading = .isNull e) :
    f.value row = .boolean (e.value row == .null) := by
  rw [value_eq, hf]
  rfl

end Values

section Typing

variable {fields : String → ValueType} {f e : Formula} {bs : List (Branch Formula)} {t : ValueType}

theorem hasType_paren (hf : f.reading = .paren e) :
    f.hasType fields t = true ↔ e.hasType fields t = true := by
  rw [hasType_eq, hf]
  rfl

theorem hasType_binary {op : String} {l r : Formula} (hf : f.reading = .binary op l r) :
    f.hasType fields t = true ↔ ∃ s ∈ Value.signatures op,
      l.hasType fields s.1 = true ∧ r.hasType fields s.1 = true ∧ s.2.within t = true := by
  rw [hasType_eq, hf]
  simp only [Reading.map, Reading.hasType, List.any_eq_true, Bool.and_eq_true, and_assoc]

theorem hasType_unary {op : String} (hf : f.reading = .unary op e) :
    f.hasType fields t = true ↔
      op = "not" ∧ e.hasType fields .boolean = true ∧ ValueType.boolean.within t = true := by
  rw [hasType_eq, hf]
  simp only [Reading.map, Reading.hasType, Bool.and_eq_true, beq_iff_eq, and_assoc]

theorem hasType_conditional (hf : f.reading = .conditional bs e) :
    f.hasType fields t = true ↔
      (∀ b ∈ bs, b.test.hasType fields .boolean = true ∧ b.value.hasType fields t = true) ∧
        e.hasType fields t = true := by
  rw [hasType_eq, hf]
  simp only [Reading.map, Reading.hasType, Bool.and_eq_true, List.all_eq_true, List.forall_mem_map,
    Branch.map]

theorem hasType_choice {s : Formula} (hf : f.reading = .choice s bs e) :
    f.hasType fields t = true ↔
      (∃ p ∈ ValueType.plain, s.hasType fields p = true ∧
        ∀ b ∈ bs, b.test.hasType fields p = true) ∧
      (∀ b ∈ bs, b.value.hasType fields t = true) ∧ e.hasType fields t = true := by
  rw [hasType_eq, hf]
  simp only [Reading.map, Reading.hasType, Bool.and_eq_true, List.all_eq_true, List.forall_mem_map,
    List.any_eq_true, Branch.map, and_assoc]

theorem hasType_isNull (hf : f.reading = .isNull e) :
    f.hasType fields t = true ↔
      (∃ s, e.hasType fields s = true) ∧ ValueType.boolean.within t = true := by
  rw [hasType_eq, hf]
  simp only [Reading.map, Reading.hasType, Bool.and_eq_true, List.any_eq_true]
  refine and_congr_left fun _ => ⟨fun ⟨s, _, hs⟩ => ⟨s, hs⟩, fun ⟨s, hs⟩ => ⟨s, ?_, hs⟩⟩
  cases s <;> decide

theorem not_hasType_unread (hf : f.reading = .unread) : ¬ f.hasType fields t = true := by
  rw [hasType_eq, hf]
  simp [Reading.map, Reading.hasType]

end Typing

/-- A property holds of every formula if it holds of a node whenever it holds of what is read of
it. -/
theorem induction_reading {P : Formula → Prop}
    (step : ∀ f : Formula, (∀ c ∈ f.reading.parts, P c) → P f) (f : Formula) : P f := by
  induction f using induction_children with
  | step f ih => exact step f fun c hc => ih c (Reading.mem_children_of_parts hc)

end Formula

/-! ## Well-typed formulas have values of their type -/

theorem Value.hasType_mono {v : Value} {s t : ValueType} (hst : s.within t = true)
    (h : v.hasType s = true) : v.hasType t = true := by
  cases v with
  | null => rfl
  | boolean | integer | string => exact ValueType.within_trans h hst

theorem Value.boolean_cases {v : Value} (h : v.hasType .boolean = true) :
    v = .null ∨ ∃ b, v = .boolean b := by
  cases v with
  | null => exact Or.inl rfl
  | boolean b => exact Or.inr ⟨b, rfl⟩
  | integer | string => exact absurd h (by simp [hasType, ValueType.within])

theorem Value.onNumbers_hasType {op : Int → Int → Value} {t : ValueType}
    (hop : ∀ m n, (op m n).hasType t = true) (a b : Value) :
    (onNumbers op a b).hasType t = true := by
  unfold onNumbers
  split
  · exact hop _ _
  · rfl

theorem Value.equal_hasType (a b : Value) : (a.equal b).hasType .boolean = true := by
  unfold equal
  split
  · rfl
  · exact onNumbers_hasType (fun _ _ => rfl) _ _

theorem Value.not_hasType (a : Value) : a.not.hasType .boolean = true := by
  cases a <;> rfl

theorem Value.and_hasType (a b : Value) : (a.and b).hasType .boolean = true := by
  unfold and
  split <;> rfl

theorem Value.or_hasType (a b : Value) : (a.or b).hasType .boolean = true := by
  unfold or
  split <;> rfl

theorem Value.equal_comm (a b : Value) : a.equal b = b.equal a := by
  cases a <;> cases b <;> simp [equal, onNumbers, number?, Bool.beq_comm]

theorem Value.and_comm (a b : Value) : a.and b = b.and a := by
  rcases a with _ | (_ | _) | _ | _ <;> rcases b with _ | (_ | _) | _ | _ <;> rfl

theorem Value.or_comm (a b : Value) : a.or b = b.or a := by
  rcases a with _ | (_ | _) | _ | _ <;> rcases b with _ | (_ | _) | _ | _ <;> rfl

/-- An operator gives a value of the type that its signature says. -/
theorem Value.binary_hasType {op : String} {s : ValueType × ValueType}
    (h : s ∈ Value.signatures op) (a b : Value) : (binary op a b).hasType s.2 = true := by
  unfold Value.signatures at h
  split at h <;> simp only [List.mem_cons, List.not_mem_nil, or_false] at h
  case h_1 | h_2 | h_3 => subst h; exact onNumbers_hasType (fun _ _ => rfl) a b
  case h_4 => rcases h with rfl | rfl <;> exact equal_hasType a b
  case h_5 => rcases h with rfl | rfl <;> exact not_hasType _
  case h_6 | h_7 | h_8 | h_9 => subst h; exact onNumbers_hasType (fun _ _ => rfl) a b
  case h_10 => subst h; exact and_hasType a b
  case h_11 => subst h; exact or_hasType a b

theorem Value.select_cons (passes : Value → Bool) (b : Branch Value) (bs : List (Branch Value))
    (e : Value) :
    select passes (b :: bs) e = if passes b.test then b.value else select passes bs e := by
  unfold select
  rw [List.find?_cons]
  cases passes b.test <;> rfl

theorem Value.select_hasType {passes : Value → Bool} {bs : List (Branch Value)} {e : Value}
    {t : ValueType} (hbs : ∀ b ∈ bs, b.value.hasType t = true) (he : e.hasType t = true) :
    (select passes bs e).hasType t = true := by
  unfold select
  cases hfind : bs.find? fun b => passes b.test with
  | none => exact he
  | some b => exact hbs b (List.mem_of_find?_eq_some hfind)

namespace Formula

variable {row : String → Value} {fields : String → ValueType}

/-- The values of a row are of the types of its fields. -/
def Conforms (row : String → Value) (fields : String → ValueType) : Prop :=
  ∀ n, (row n).hasType (fields n) = true

theorem value_hasType (hrow : Conforms row fields) {f : Formula} {t : ValueType}
    (h : f.hasType fields t = true) : (f.value row).hasType t = true := by
  induction f using induction_reading generalizing t with
  | step f ih =>
      rw [value_eq]
      cases hf : f.reading with
      | field n =>
          rw [hasType_eq, hf] at h
          exact Value.hasType_mono h (hrow n)
      | literal v =>
          rw [hasType_eq, hf] at h
          cases v <;> first | exact h | rfl
      | paren e =>
          rw [hf] at ih
          exact ih e (by simp [Reading.parts]) ((hasType_paren hf).mp h)
      | binary op l r =>
          obtain ⟨s, hs, -, -, hst⟩ := (hasType_binary hf).mp h
          exact Value.hasType_mono hst (Value.binary_hasType hs _ _)
      | unary op e =>
          obtain ⟨rfl, -, ht⟩ := (hasType_unary hf).mp h
          exact Value.hasType_mono ht (Value.not_hasType _)
      | conditional bs e =>
          rw [hf] at ih
          obtain ⟨hbs, he⟩ := (hasType_conditional hf).mp h
          refine Value.select_hasType (List.forall_mem_map.mpr fun b hb => ?_) ?_
          · exact ih b.value (Reading.value_mem_parts hb) (hbs b hb).2
          · exact ih e (by simp [Reading.parts]) he
      | choice s bs e =>
          rw [hf] at ih
          obtain ⟨-, hbs, he⟩ := (hasType_choice hf).mp h
          rw [Reading.map, Reading.value]
          refine Value.select_hasType (List.forall_mem_map.mpr fun b hb => ?_) ?_
          · exact ih b.value (List.mem_cons_of_mem s (Reading.value_mem_parts hb)) (hbs b hb)
          · exact ih e (by simp [Reading.parts]) he
      | isNull e => exact ((hasType_isNull hf).mp h).2
      | unread => exact absurd h (not_hasType_unread hf)

/-- A formula of a type is one of every wider type. -/
theorem hasType_mono {f : Formula} {s t : ValueType} (hst : s.within t = true)
    (h : f.hasType fields s = true) : f.hasType fields t = true := by
  induction f using induction_reading generalizing s t with
  | step f ih =>
      cases hf : f.reading with
      | field n =>
          rw [hasType_eq, hf] at h ⊢
          exact ValueType.within_trans h hst
      | literal v =>
          rw [hasType_eq, hf] at h ⊢
          cases v <;> first | exact ValueType.within_trans h hst | exact h
      | paren e =>
          rw [hf] at ih
          rw [hasType_paren hf] at h ⊢
          exact ih e (by simp [Reading.parts]) hst h
      | binary op l r =>
          rw [hasType_binary hf] at h ⊢
          obtain ⟨u, hu, hl, hr, hus⟩ := h
          exact ⟨u, hu, hl, hr, ValueType.within_trans hus hst⟩
      | unary op e =>
          rw [hasType_unary hf] at h ⊢
          exact ⟨h.1, h.2.1, ValueType.within_trans h.2.2 hst⟩
      | conditional bs e =>
          rw [hf] at ih
          rw [hasType_conditional hf] at h ⊢
          refine ⟨fun b hb => ⟨(h.1 b hb).1, ?_⟩, ih e (by simp [Reading.parts]) hst h.2⟩
          exact ih b.value (Reading.value_mem_parts hb) hst (h.1 b hb).2
      | choice s bs e =>
          rw [hf] at ih
          rw [hasType_choice hf] at h ⊢
          refine ⟨h.1, fun b hb => ?_, ih e (by simp [Reading.parts]) hst h.2.2⟩
          exact ih b.value (List.mem_cons_of_mem _ (Reading.value_mem_parts hb)) hst (h.2.1 b hb)
      | isNull e =>
          rw [hasType_isNull hf] at h ⊢
          exact ⟨h.1, ValueType.within_trans h.2 hst⟩
      | unread => exact absurd h (not_hasType_unread hf)

end Formula

end FormulaSql
