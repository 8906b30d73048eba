import FormulaSql.Proofs.Simplify.Pruning

/-!
# Which branches are taken

Conditionals are pruned by what is known of their conditions before the query runs. The other rules
that fold constants have their own ways to tell whether a literal is true and whether two literals
are equal. Pruning goes by the same verdicts, as long as no condition is a number, a text or a list
that counts as true, and subject and patterns are values of one kind. Elsewhere it differs: it takes
only TRUE for a true condition, and it compares where a comparison has no answer.

* `Simplify.pruneIf_eq_pruneBy` and `Simplify.pruneCase_eq_pruneBy` compare the verdicts
* `Simplify.conditional_verdicts`: pruning by the verdicts of the other rules, calls and blocks
  alike
-/

namespace FormulaSql

namespace Simplify

open Formula

variable {above : List Formula} {f r subject e : Formula} {bs : List (Branch Formula)} {v : Literal}

/-! ## Verdicts -/

/-- The truth value that AND and OR give a constant. -/
def truth? (f : Formula) : Option Bool := f.literal?.map Literal.isTruthy

/-- The truth value that a comparison of the two is folded to. -/
def foldedEquality? (f g : Formula) : Option Bool :=
  match comparison [] (.binary "==" f g) with
  | some r =>
    match r.literal? with
    | some (.boolean b) => some b
    | _ => none
  | none => none

theorem comparison_equality (f g : Formula) :
    comparison above (.binary "==" f g) = f.literal?.bind fun v => g.literal?.bind fun w =>
      (literalsEqual? false v w).map fun equal => folded (.binary "==" f g) (.boolean equal) := by
  have hop : equalityOperators.lookup "==" = some (false, false) := rfl
  unfold comparison
  simp only [binary, Formula.of, kind, hop, Option.bind_eq_bind, Option.bind_some, Bool.bne_false]
  cases f.literal? with
  | none => rfl
  | some v =>
      cases g.literal? with
      | none => rfl
      | some w =>
          simp only [Option.bind_some]
          cases literalsEqual? false v w <;> rfl

/-- Comparisons are folded between literals of one kind that are not NULL. -/
theorem foldedEquality?_of_literals {w : Literal} {g : Formula} (hf : f.literal? = some v)
    (hg : g.literal? = some w) (hv : v ≠ .null) (hw : w ≠ .null) (hkind : v.baseType = w.baseType) :
    foldedEquality? f g = some (v.same w) := by
  have hequal : literalsEqual? false v w = some (v.same w) := by
    simp [literalsEqual?, hv, hw, hkind]
  rw [foldedEquality?, comparison_equality, hf, hg]
  simp only [Option.bind_some, hequal, Option.map_some]
  rfl

/-- There is no verdict on a formula that is no literal. -/
theorem foldedEquality?_eq_none {g : Formula} (hg : g.literal? = none) :
    foldedEquality? f g = none := by
  rw [foldedEquality?, comparison_equality, hg]
  cases f.literal? <;> rfl

/-- A literal in the place of a condition is TRUE or counts as false. -/
def IsTruthValue (f : Formula) : Prop :=
  ∀ c, f.literal? = some c → c.isTruthy = true → c = .boolean true

/-- A literal in the place of a pattern is a value of the same kind, and neither is NULL. -/
def IsComparable (v : Literal) (f : Formula) : Prop :=
  ∀ w, f.literal? = some w → v ≠ .null ∧ w ≠ .null ∧ v.baseType = w.baseType

theorem pruneIf_eq_pruneBy (h : ∀ b ∈ bs, IsTruthValue b.test) :
    pruneIf e bs = pruneBy truth? e bs := by
  rw [pruneIf_eq]
  refine pruneBy_congr fun b hb => ?_
  rw [isTrue?, truth?]
  cases hc : b.test.literal? with
  | none => rfl
  | some c =>
      rw [Option.map_some, Option.map_some]
      cases htruth : c.isTruthy with
      | true => rw [h b hb c hc htruth, beq_self_eq_true]
      | false =>
          have hne : c ≠ .boolean true := by
            rintro rfl
            exact Bool.false_ne_true htruth.symm
          rw [beq_eq_false_iff_ne.mpr hne]

theorem pruneCase_eq_pruneBy (hsubject : subject.literal? = some v)
    (h : ∀ b ∈ bs, IsComparable v b.test) :
    pruneCase v e bs = pruneBy (foldedEquality? subject) e bs := by
  rw [pruneCase_eq]
  refine pruneBy_congr fun b hb => ?_
  rw [isSubject?]
  cases hw : b.test.literal? with
  | none => rw [foldedEquality?_eq_none hw, Option.map_none]
  | some w =>
      obtain ⟨hv, hnull, hkind⟩ := h b hb w hw
      rw [foldedEquality?_of_literals hsubject hw hv hnull hkind, Option.map_some]
      have hcomm : w.same v = v.same w := by
        rw [Bool.eq_iff_iff, Literal.same, Literal.same, beq_iff_eq, beq_iff_eq]
        exact eq_comm
      rw [hcomm]

/-! ## Pruning by the verdicts of the other rules -/

/-- A conditional, call or block, takes the first branch whose condition is a literal that AND and
OR take for true, and drops those they take for false. A choice takes the first branch whose pattern
a comparison with the subject is folded to TRUE for, and drops those it is folded to FALSE for. -/
theorem conditional_verdicts (above : List Formula) (f : Formula) :
    (∀ bs e, f.reading = .conditional bs e → (∀ b ∈ bs, IsTruthValue b.test) →
      conditional above f = rebuilt bs (pruneBy truth? e bs) (withBranches f)) ∧
    (∀ subject v bs e, f.reading = .choice subject bs e → subject.literal? = some v →
      (∀ b ∈ bs, IsComparable v b.test) →
      conditional above f =
        rebuilt bs (pruneBy (foldedEquality? subject) e bs) (withBranches f)) := by
  constructor
  · intro bs e hf htests
    rw [conditional_of_reading hf, pruneIf_eq_pruneBy htests]
  · intro subject v bs e hf hsubject htests
    rw [conditional_of_choice hf, hsubject, Option.bind_some,
      pruneCase_eq_pruneBy hsubject htests]

/-- A condition that is known, one that is not, and one that is known to be false. -/
def shipped : List (Branch Formula) :=
  [⟨.lit .null, .int 1⟩, ⟨.field "sent", .int 2⟩, ⟨.bool true, .int 3⟩, ⟨.field "paid", .int 4⟩]

/-- The same for a choice by a text. -/
def byCity : List (Branch Formula) :=
  [⟨.lit (.string "Rome"), .int 1⟩, ⟨.field "home", .int 2⟩, ⟨.lit (.string "Oslo"), .int 3⟩]

theorem conditional_verdicts_shipped :
    (∀ b ∈ shipped, IsTruthValue b.test) ∧
      conditional [] (.ifBlock shipped (.int 0)) =
        some (.ifBlock [⟨.field "sent", .int 2⟩] (.int 3)) ∧
      (∀ b ∈ byCity, IsComparable (.string "Oslo") b.test) ∧
      conditional [] (.caseBlock (.lit (.string "Oslo")) byCity (.int 0)) =
        some (.caseBlock (.lit (.string "Oslo")) [⟨.field "home", .int 2⟩] (.int 3)) := by
  have hshipped : ∀ b ∈ shipped, IsTruthValue b.test := by
    simp only [shipped, List.forall_mem_cons]
    refine ⟨?_, ?_, ?_, ?_, fun _ h => absurd h List.not_mem_nil⟩ <;> intro c hc htruth
    · obtain rfl := Option.some.inj hc
      exact absurd htruth (by decide)
    · exact nomatch hc
    · exact (Option.some.inj hc).symm
    · exact nomatch hc
  have hbyCity : ∀ b ∈ byCity, IsComparable (.string "Oslo") b.test := by
    simp only [byCity, List.forall_mem_cons]
    refine ⟨?_, ?_, ?_, fun _ h => absurd h List.not_mem_nil⟩ <;> intro w hw
    · obtain rfl := Option.some.inj hw
      decide
    · exact nomatch hw
    · obtain rfl := Option.some.inj hw
      decide
  refine ⟨hshipped, ?_, hbyCity, ?_⟩
  · rw [(conditional_verdicts [] (.ifBlock shipped (.int 0))).1 shipped (.int 0) rfl hshipped]
    rfl
  · rw [(conditional_verdicts [] (.caseBlock (.lit (.string "Oslo")) byCity (.int 0))).2
      (.lit (.string "Oslo")) (.string "Oslo") byCity (.int 0) rfl rfl hbyCity]
    rfl

/-- A number that counts as true is not taken for a true condition. NULL is taken for equal to NULL,
and an integer for different from the same number as a float, where a comparison is not folded. -/
theorem conditional_verdicts_exceptions :
    (Literal.integer 1).isTruthy = true ∧
      conditional [] (.ifBlock [⟨.int 1, .field "paid"⟩] (.field "due")) = some (.field "due") ∧
      foldedEquality? (.lit .null) (.lit .null) = none ∧
      conditional [] (.caseBlock (.lit .null) [⟨.lit .null, .field "paid"⟩] (.field "due")) =
        some (.field "paid") ∧
      foldedEquality? (.int 1) (.lit (.float (Double.ofInt 1))) = none ∧
      conditional [] (.caseBlock (.int 1) [⟨.lit (.float (Double.ofInt 1)), .field "paid"⟩]
        (.field "due")) = some (.field "due") :=
  ⟨rfl, rfl, rfl, rfl, rfl, rfl⟩

end Simplify

end FormulaSql
