import FormulaSql.Simplify.Branches

/-!
# Which branches are left

IF and CASE walk over their branches in the same way, and only what they know of a condition is
different: the one whether it is TRUE, the other whether it is the subject. So pruning is a function
of the verdicts on the conditions. What it leaves are the branches before the first one that is
taken, without those that are not taken.

* `Simplify.pruneIf_eq` and `Simplify.pruneCase_eq` give the verdicts of the two
* `Simplify.left_pruneBy`, `Simplify.sublist_pruneBy` and `Simplify.length_pruneBy_eq` are about any
  verdicts
-/

namespace FormulaSql.Simplify

/-- Prunes by what is known of the conditions: a branch that is known to be taken ends the list, one
that is known not to be taken goes away, and the others are left. -/
def pruneBy (known : Formula → Option Bool) (otherwise : Formula) : List (Branch Formula) → Pruned
  | [] => ⟨[], otherwise⟩
  | b :: bs =>
    let rest := pruneBy known otherwise bs
    match known b.test with
    | some true => ⟨[], b.value⟩
    | some false => rest
    | none => { rest with branches := b :: rest.branches }

/-- Whether a literal is TRUE. -/
def isTrue? (f : Formula) : Option Bool := f.literal?.map fun v => v == .boolean true

/-- Whether a literal is the same as the subject. -/
def isSubject? (subject : Literal) (f : Formula) : Option Bool :=
  f.literal?.map fun v => v.same subject

variable {known known' : Formula → Option Bool} {e : Formula} {bs : List (Branch Formula)}
  {b : Branch Formula}

theorem isTrue?_eq_none {f : Formula} : isTrue? f = none ↔ f.literal? = none :=
  Option.map_eq_none_iff

theorem isSubject?_eq_none {subject : Literal} {f : Formula} :
    isSubject? subject f = none ↔ f.literal? = none :=
  Option.map_eq_none_iff

theorem pruneIf_eq (e : Formula) (bs : List (Branch Formula)) :
    pruneIf e bs = pruneBy isTrue? e bs := by
  induction bs with
  | nil => rfl
  | cons b bs ih =>
      rw [pruneIf, pruneBy, ih, isTrue, Formula.isLiteral, isTrue?]
      cases b.test.literal? with
      | none => rfl
      | some v =>
          rw [Option.map_some, Option.some_beq_some]
          cases v == .boolean true <;> rfl

theorem pruneCase_eq (subject : Literal) (e : Formula) (bs : List (Branch Formula)) :
    pruneCase subject e bs = pruneBy (isSubject? subject) e bs := by
  induction bs with
  | nil => rfl
  | cons b bs ih =>
      rw [pruneCase, pruneBy, ih, isSubject?]
      cases b.test.literal? with
      | none => rfl
      | some v =>
          rw [Option.map_some]
          dsimp only
          cases v.same subject <;> rfl

/-- Only the verdicts on the conditions count. -/
theorem pruneBy_congr (h : ∀ b ∈ bs, known b.test = known' b.test) :
    pruneBy known e bs = pruneBy known' e bs := by
  induction bs with
  | nil => rfl
  | cons b bs ih =>
      rw [List.forall_mem_cons] at h
      rw [pruneBy, pruneBy, h.1, ih h.2]

theorem pruneBy_map {g : Formula → Formula} (h : ∀ f, known (g f) = known f) :
    pruneBy known (g e) (bs.map (·.map g)) =
      ⟨(pruneBy known e bs).branches.map (·.map g), g (pruneBy known e bs).otherwise⟩ := by
  induction bs with
  | nil => rfl
  | cons b bs ih =>
      rw [List.map_cons, pruneBy, pruneBy, ih, Branch.map, h]
      cases known b.test with
      | none => rfl
      | some t => cases t <;> rfl

/-! ## What is left -/

/-- What is left of a conditional is made of its parts. -/
def Left (p : Pruned) (bs : List (Branch Formula)) (e : Formula) : Prop :=
  p.branches ⊆ bs ∧ (p.otherwise = e ∨ ∃ b ∈ bs, p.otherwise = b.value)

theorem branches_pruneBy_sublist : (pruneBy known e bs).branches.Sublist bs := by
  induction bs with
  | nil => exact List.Sublist.refl _
  | cons b bs ih =>
      rw [pruneBy]
      split
      · exact List.nil_sublist _
      · exact .cons _ ih
      · exact .cons_cons _ ih

theorem otherwise_pruneBy : (pruneBy known e bs).otherwise = e ∨
    ∃ b ∈ bs, (pruneBy known e bs).otherwise = b.value := by
  induction bs with
  | nil => exact Or.inl rfl
  | cons b bs ih =>
      have hrest : (pruneBy known e bs).otherwise = e ∨
          ∃ d ∈ b :: bs, (pruneBy known e bs).otherwise = d.value :=
        ih.imp_right fun ⟨d, hd, h⟩ => ⟨d, List.mem_cons_of_mem b hd, h⟩
      rw [pruneBy]
      split
      · exact Or.inr ⟨b, List.mem_cons_self, rfl⟩
      · exact hrest
      · exact hrest

theorem left_pruneBy : Left (pruneBy known e bs) bs e :=
  ⟨branches_pruneBy_sublist.subset, otherwise_pruneBy⟩

/-- The parts that are left stand in the same order. -/
theorem sublist_pruneBy (known : Formula → Option Bool) (e : Formula)
    (bs : List (Branch Formula)) :
    ((pruneBy known e bs).branches.flatMap Branch.parts ++
      [(pruneBy known e bs).otherwise]).Sublist (bs.flatMap Branch.parts ++ [e]) := by
  induction bs with
  | nil => exact List.Sublist.refl _
  | cons b bs ih =>
      rw [pruneBy]
      split
      · exact .cons _ (.cons_cons _ (List.nil_sublist _))
      · exact .cons _ (.cons _ ih)
      · exact .cons_cons _ (.cons_cons _ ih)

/-- On the conditions that are left there is no verdict. -/
theorem known_of_mem_pruneBy (hb : b ∈ (pruneBy known e bs).branches) : known b.test = none := by
  induction bs with
  | nil => exact absurd hb List.not_mem_nil
  | cons d bs ih =>
      rw [pruneBy] at hb
      split at hb
      next => exact absurd hb List.not_mem_nil
      next => exact ih hb
      next hnone =>
        rcases List.mem_cons.mp hb with rfl | hb
        · exact hnone
        · exact ih hb

theorem branches_pruneBy_eq (h : ∀ b ∈ bs, known b.test = none) :
    (pruneBy known e bs).branches = bs := by
  induction bs with
  | nil => rfl
  | cons b bs ih =>
      rw [List.forall_mem_cons] at h
      rw [pruneBy, h.1]
      exact congrArg (b :: ·) (ih h.2)

/-- All branches are left if there is no verdict on any condition. -/
theorem length_pruneBy_eq :
    (pruneBy known e bs).branches.length = bs.length ↔ ∀ b ∈ bs, known b.test = none := by
  constructor
  · intro hlength b hb
    have hall : (pruneBy known e bs).branches = bs := branches_pruneBy_sublist.eq_of_length hlength
    exact known_of_mem_pruneBy (hall ▸ hb)
  · exact fun h => congrArg List.length (branches_pruneBy_eq h)

end FormulaSql.Simplify
