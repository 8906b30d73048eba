import FormulaSql.Function.Dispatch
import FormulaSql.Proofs.Data.Lists
import Mathlib.Data.List.Basic

/-!
# What holds of the definitions in the catalogue

The catalogue is read once: for each definition, and for each two definitions of one name. Which
definition is chosen for a call, of what type its result is and when that is constant follows from
these facts, whatever else is listed.

* `catalogue_listed`: what holds of each definition
* `catalogue_overloads`: what holds of two definitions of one name
-/

namespace FormulaSql

/-! ## Types of arguments and results -/

namespace ArgTypes

/-- The alternative is a condition on each argument alone. -/
def isPointwise : ArgTypes → Bool
  | forAllRequiring _ _ => false
  | _ => true

/-- The alternative does not ask for constants. -/
def isPlain : ArgTypes → Bool
  | sequence positions => positions.all fun p => p.all fun a => !a.isConst
  | forAll allowed => allowed.all fun a => !a.isConst
  | forAllRequiring _ _ => false
  | any => true

/-- The alternative takes nothing but constants and NULL. -/
def isConst : ArgTypes → Bool
  | forAllRequiring allowed _ => allowed.all fun a => a.isConst || a.isNull
  | _ => false

/-- No arguments fit both: all types that one of the two needs are refused by the other. -/
def excludes : ArgTypes → ArgTypes → Bool
  | forAllRequiring allowed required, forAllRequiring allowed' required' =>
    required.all (fun t => !t.castsToAny allowed') || required'.all fun t => !t.castsToAny allowed
  | _, _ => false

end ArgTypes

/-- The type of the result, where it is the same for all arguments. -/
def ReturnType.fixed? : ReturnType → Option DataType
  | fixed t => some t
  | _ => none

theorem ReturnType.base_of_fixed? {r : ReturnType} {t : DataType} (h : r.fixed? = some t)
    (ts : List DataType) : r.base ts = t := by
  cases r with
  | fixed t' => exact Option.some.inj h
  | _ => exact absurd h (by simp [fixed?])

/-! ## Each definition -/

namespace Function

/-- The types of items with the types of arrays of them. -/
def arrayTypes : List (BaseType × BaseType) :=
  [(.integer, .arrayInt), (.float, .arrayFloat), (.string, .arrayStr)]

/-- What the definitions of arrays take, those for constants and the others. -/
def arrayArgTypes (item : BaseType) (isConst : Bool) : ArgTypes :=
  if isConst then .forAllRequiring [.const item, .plain .null] [.const item]
  else .forAllRequiring [.plain item] [.plain item, .const item]

/-- The definition makes arrays of such items. -/
def makesArrayOf (d : Definition) (p : BaseType × BaseType) (isConst : Bool) : Bool :=
  d.name == "array" && !d.isWindow && d.allScopes == .usual && d.arity == .atLeast 1 &&
    d.argTypes == [arrayArgTypes p.1 isConst] && d.returns.fixed? == some ⟨p.2, isConst⟩ &&
    d.priority == if isConst then 0 else 1

/-- Functions with a truth value that can be found out from literals. -/
def truthNames : List String := ["==", "_==", "!=", "_!=", "and", "or", "isnull"]

/-- Operators that literals are computed with. -/
def mathNames : List String := ["+", "-", "*", "/"]

/-- Names that stand in nodes of their own are looked up as they are. -/
theorem toLower_names : ∀ n ∈ truthNames ++ mathNames ++ [ifBlockName, caseBlockName],
    n.toLower = n := by
  decide +kernel

theorem toLower_truthNames {n : String} (h : n ∈ truthNames) : n.toLower ∈ truthNames := by
  rwa [toLower_names n (List.mem_append_left _ (List.mem_append_left _ h))]

end Function

open FormulaSql.Function

namespace Definition

/-- What holds of each definition in the catalogue. -/
structure Listed (d : Definition) : Prop where
  /-- There is a variant for the dialects that have none of their own. -/
  baseline : (d.variants.any fun v => v.dialects.contains .dummy) = true
  /-- Only arrays of constants have a constant type of their own. -/
  constant : (d.returns.fixed?.any (·.isConst)) = true → d.name = "array" ∧ d.isWindow = false ∧
    d.category ≠ .aggregation ∧ d.argTypes.all ArgTypes.isConst = true
  /-- The names of aggregations are those of no other functions, window functions apart. -/
  aggregation : d.isWindow = false →
    (d.isAggregate = true ↔ d.name ∈ aggregations.map Definition.name)
  /-- Arrays are made of items of one type. -/
  array : d.name = "array" →
    ∃ p ∈ arrayTypes, makesArrayOf d p true = true ∨ makesArrayOf d p false = true
  /-- Arrays apart, every alternative is a condition on each argument alone. -/
  pointwise : d.name ≠ "array" → d.argTypes.all ArgTypes.isPointwise = true
  truth : d.name ∈ truthNames → d.returns.fixed? = some (.plain .boolean)
  logical : d.name ∈ ["if", ifBlockName, "case", caseBlockName] → d.category = .logical

instance (d : Definition) : Decidable d.Listed :=
  decidable_of_iff (_ ∧ _ ∧ _ ∧ _ ∧ _ ∧ _ ∧ _)
    ⟨fun ⟨h₁, h₂, h₃, h₄, h₅, h₆, h₇⟩ => ⟨h₁, h₂, h₃, h₄, h₅, h₆, h₇⟩,
      fun ⟨h₁, h₂, h₃, h₄, h₅, h₆, h₇⟩ => ⟨h₁, h₂, h₃, h₄, h₅, h₆, h₇⟩⟩

end Definition

theorem catalogue_listed : ∀ d ∈ catalogue, d.Listed := by
  decide +kernel

/-- Arrays of each type can be made, of constants and of other items. -/
theorem exists_array : ∀ p ∈ arrayTypes, ∀ isConst, ∃ d ∈ catalogue,
    makesArrayOf d p isConst = true := by
  have harrays : ∀ p ∈ arrayTypes, ∀ isConst, ∃ d ∈ arrays, makesArrayOf d p isConst = true := by
    decide
  intro p hp isConst
  obtain ⟨d, hd, hmakes⟩ := harrays p hp isConst
  refine ⟨d, ?_, hmakes⟩
  simp only [catalogue, List.mem_append]
  tauto

/-! ## Definitions of one name -/

/-- No alternative of one fits arguments that one of the other fits. -/
def Definition.excludes (a b : Definition) : Bool :=
  a.argTypes.all fun x => b.argTypes.all fun y => x.excludes y

/-- Of two definitions of one name, the one that is listed first is tried first, and if nothing but
the arguments tells them apart, they exclude each other. Arrays apart, the first one does not ask
for constants. -/
theorem catalogue_overloads : catalogue.Pairwise fun a b =>
    a.name = b.name ∧ a.isWindow = b.isWindow → a.priority ≤ b.priority ∧
      (a.priority = b.priority → a.excludes b = true) ∧
        (a.name ≠ "array" → a.argTypes.all ArgTypes.isPlain = true) := by
  have hsizes : ∀ d ∈ catalogue, d.name.utf8ByteSize ∈ List.range 24 := by
    decide +kernel
  have hnames : ∀ n ∈ List.range 24, (catalogue.filter fun d =>
      d.name.utf8ByteSize == n).Pairwise fun a b =>
        a.name = b.name ∧ a.isWindow = b.isWindow → a.priority ≤ b.priority ∧
          (a.priority = b.priority → a.excludes b = true) ∧
            (a.name ≠ "array" → a.argTypes.all ArgTypes.isPlain = true) := by
    decide +kernel
  exact (pairwise_of_ranks (fun d => d.name.utf8ByteSize) hsizes hnames).imp fun h hab =>
    h (congrArg String.utf8ByteSize hab.1) hab

end FormulaSql
