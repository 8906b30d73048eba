import FormulaSql.Proofs.Simplify.Pruning

/-!
# Simplification keeps what a formula means

Each rule offers a formula that stands in for the node it looks at, so a simplified formula stands
in for the one it was made of.

* `Formula.optimize_value`: a well-typed formula without a literal NULL has the same value after it
  has been simplified
* `Formula.optimizeFilter_isTrue`: a simplified filter is true on the same rows, if NULL is not
  taken for FALSE where this shows
-/

namespace FormulaSql

namespace Simplify

open Formula

variable {row : String → Value} {fields : String → ValueType}

theorem sound_rules (hrow : Conforms row fields) (dialect : Dialects) :
    ∀ rule ∈ rules dialect, Sound row fields rule := by
  simp only [rules, List.forall_mem_cons, List.not_mem_nil, false_imp_iff, implies_true, and_true]
  exact ⟨sound_arithmetic, sound_doubleAggregation, sound_comparison, sound_connective hrow,
    sound_test dialect, sound_conditional⟩

theorem sound_filterRules (hrow : Conforms row fields) (dialect : Dialects) :
    ∀ rule ∈ filterRules dialect, Sound row fields rule :=
  List.forall_mem_cons.mpr ⟨sound_zeroOne hrow, sound_rules hrow dialect⟩

/-- A formula that is transformed by a sound rule stands in for the one before. -/
theorem Sound.transform {rule : Rule} (h : Sound row fields rule) (f : Formula) :
    Refines row fields f (f.transform rule) :=
  transform_rel (Q := fun _ => True) (fun _ _ _ _ => trivial) (fun f _ => .refl f)
    (fun _ _ _ hcs => refines_of_reading (reading_withChildren hcs))
    (fun above _ g r _ _ hfg hr => hfg.trans (h above g r hr)) trivial

theorem refines_settle {rules : List Rule} (h : ∀ rule ∈ rules, Sound row fields rule)
    (rounds : Nat) (f : Formula) : Refines row fields f (settle rules rounds f) :=
  settle_rel Refines.refl (fun _ _ _ => Refines.trans)
    (fun rule hrule f => (h rule hrule).transform f) rounds f

end Simplify

namespace Formula

/-- A well-typed formula without a literal NULL has the same value on every row after it has been
simplified. -/
theorem optimize_value {fields : String → ValueType} {f : Formula} {t : ValueType}
    (htyped : f.hasType fields t = true) (hnull : ∀ g ∈ f.nodes, g.literal? ≠ some .null)
    (dialect : Dialects) {row : String → Value} (hrow : Conforms row fields) :
    (f.optimize dialect).value row = f.value row := by
  have hrefines := Simplify.refines_settle (Simplify.sound_rules hrow dialect) maxRounds f
  exact (hrefines t .value htyped (careful_of_no_null hnull .value).2).agree.symm

/-- The fields of an order: a flag, the name of a city, and numbers. -/
def orderTypes : String → ValueType
  | "flag" => .boolean
  | "city" => .string
  | _ => .integer

/-- An order with its flag set. -/
def flaggedOrder (n : String) : Value :=
  match orderTypes n with
  | .boolean => .boolean true
  | .string => .string "Oslo"
  | _ => .integer 3

theorem conforms_flaggedOrder : Conforms flaggedOrder orderTypes := by
  intro n
  unfold flaggedOrder
  cases orderTypes n <;> rfl

/-- Twice the sales where the flag is set; the city is compared with nothing but a constant. -/
def flaggedSales : Formula :=
  .ifBlock
    [⟨.binary "and" (.binary "==" (.int 1) (.int 1)) (.field "flag"),
      .binary "*" (.field "sales") (.binary "+" (.int 1) (.int 1))⟩]
    (.call "case" [.lit (.string "Oslo"), .field "city", .field "sales", .lit (.string "Bergen"),
      .int 0, .field "sales"])

theorem optimize_value_flaggedSales :
    (flaggedSales.optimize .dummy).value flaggedOrder = flaggedSales.value flaggedOrder ∧
      flaggedSales.value flaggedOrder = .integer 6 ∧
      (flaggedSales.optimize .dummy).size < flaggedSales.size :=
  ⟨optimize_value (t := .integer) (by decide +kernel) (by decide) .dummy
    conforms_flaggedOrder, by decide, by decide +kernel⟩

/-- A filter is true on the same rows after it has been simplified, if no NULL is taken for FALSE
where this shows. -/
theorem optimizeFilter_isTrue {fields : String → ValueType} {f : Formula}
    (htyped : f.hasType fields .boolean = true) (hcareful : f.careful .truth = true)
    (dialect : Dialects) {row : String → Value} (hrow : Conforms row fields) :
    (f.optimizeFilter dialect).value row = .boolean true ↔ f.value row = .boolean true := by
  have hrefines := Simplify.refines_settle (Simplify.sound_filterRules hrow dialect) maxRounds f
  exact (hrefines .boolean .truth htyped hcareful).agree.symm

/-- Orders with more than two sales, with a comparison too many, whose flag is set. -/
def flaggedOrders : Formula :=
  .binary "and" (.binary "==" (.binary ">" (.field "sales") (.int 2)) (.int 1))
    (.binary "or" (.lit .null) (.field "flag"))

theorem optimizeFilter_isTrue_flaggedOrders :
    ((flaggedOrders.optimizeFilter .dummy).value flaggedOrder = .boolean true ↔
      flaggedOrders.value flaggedOrder = .boolean true) ∧
      flaggedOrders.value flaggedOrder = .boolean true ∧
      (flaggedOrders.optimizeFilter .dummy).size < flaggedOrders.size :=
  ⟨optimizeFilter_isTrue (by decide +kernel) (by decide +kernel) .dummy conforms_flaggedOrder,
    by decide +kernel, by decide +kernel⟩

/-- The orders that are not both unknown and flagged. -/
def knownUnflagged : Formula := .unary "not" (.binary "and" (.lit .null) (.field "flag"))

/-- Below NOT it shows that NULL is taken for FALSE: the filter is NULL on the order, and true on it
after it has been simplified. -/
theorem optimizeFilter_null_below_not :
    knownUnflagged.hasType orderTypes .boolean = true ∧ Conforms flaggedOrder orderTypes ∧
      knownUnflagged.value flaggedOrder = .null ∧
      (knownUnflagged.optimizeFilter .dummy).value flaggedOrder = .boolean true :=
  ⟨by decide +kernel, conforms_flaggedOrder, by decide +kernel, by decide +kernel⟩

end Formula

end FormulaSql
