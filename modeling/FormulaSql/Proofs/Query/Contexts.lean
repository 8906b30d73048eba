import FormulaSql.Proofs.Query.Lookups

/-!
# Nodes and what stands above them

Most rules look at the nodes above a node, so what holds after a rule has gone over a formula is
mostly said of a node together with those above it.

* `Formula.transform_eq_self` says that a rule leaves a formula alone if it offers nothing anywhere
* `Formula.offered_eq` is the recursion by which a rule works that never offers what was there before
* `Formula.throughout_offered` is what is proved by that recursion
-/

namespace FormulaSql

/-- The rule never offers a node that equals what it is offered for in all but the children. -/
def Rule.Alters (rule : Rule) : Prop :=
  ∀ above f g r, rule above g = some r → g.kind.outline = f.kind.outline → (r == f) = false

theorem Rule.alters_of_outline {rule : Rule}
    (h : ∀ above g r, rule above g = some r →
      (∀ v, r.kind ≠ .literal v) ∧ r.kind.outline ≠ g.kind.outline) : rule.Alters := by
  intro above f g r hr houtline
  rw [← Bool.not_eq_true]
  intro hsame
  obtain ⟨hliteral, hne⟩ := h above g r hr
  exact hne ((Formula.outline_eq_of_same hsame hliteral).symm.trans houtline.symm)

/-- The rule never offers a formula that equals the one whose place it is to take. -/
def Rule.Renews (rule : Rule) : Prop :=
  ∀ above f r, rule above (f.transformBelow rule above) = some r → (r == f) = false

/-- A node keeps its outline while the nodes below it are transformed. -/
theorem Rule.Alters.renews {rule : Rule} (h : rule.Alters) : rule.Renews := by
  intro above f r hr
  refine h above f _ r hr ?_
  rw [Formula.transformBelow_eq]
  dsimp only
  split
  · rfl
  · exact Formula.outline_withChildren f _

namespace Formula

/-- The property holds of every node of the formula and the nodes above it, those above the formula
being given. -/
def Throughout (P : List Formula → Formula → Prop) (above : List Formula) (f : Formula) : Prop :=
  ∀ p g, f.at? p = some g → P (above ++ f.along p) g

section Throughout

variable {P Q : List Formula → Formula → Prop} {above : List Formula} {f c : Formula}

theorem throughout_iff :
    f.Throughout P above ↔ P above f ∧ ∀ c ∈ f.children, c.Throughout P (above ++ [f]) := by
  constructor
  · intro h
    constructor
    · have hroot := h [] f rfl
      rwa [along, List.append_nil] at hroot
    · intro c hc p g hg
      obtain ⟨i, hi⟩ := List.mem_iff_getElem?.mp hc
      have hnode := h (i :: p) g ((at?_cons_of_child p hi).trans hg)
      rwa [along_cons hi, List.append_cons] at hnode
  · rintro ⟨hroot, hbelow⟩ p g hg
    cases p with
    | nil =>
        obtain rfl := Option.some.inj hg
        rwa [along, List.append_nil]
    | cons i p =>
        rw [at?] at hg
        split at hg
        next c hc =>
          rw [along_cons hc, List.append_cons]
          exact hbelow c (List.mem_of_getElem? hc) p g hg
        next => exact absurd hg (by simp)

theorem Throughout.root (h : f.Throughout P above) : P above f := (throughout_iff.mp h).1

theorem Throughout.of_child (h : f.Throughout P above) (hc : c ∈ f.children) :
    c.Throughout P (above ++ [f]) := (throughout_iff.mp h).2 c hc

theorem Throughout.imp (h : f.Throughout P above) (himp : ∀ above g, P above g → Q above g) :
    f.Throughout Q above := fun p g hg => himp _ g (h p g hg)

/-- A property of nodes alone. -/
theorem throughout_of_all {R : Formula → Prop} (h : f.All R) :
    f.Throughout (fun _ g => R g) above := fun _ g hg => h g (mem_nodes_of_at? hg)

theorem Throughout.all {R : Formula → Prop} (h : f.Throughout (fun _ g => R g) above) :
    f.All R := by
  intro g hg
  obtain ⟨p, hp⟩ := exists_at?_of_mem_nodes hg
  exact h p g hp

/-- A property that does not tell equal nodes apart holds throughout equal formulas. -/
theorem Throughout.of_same {above' : List Formula} {g : Formula}
    (same : ∀ above above' f g, List.Forall₂ (fun a b => (a == b) = true) above above' →
      (f == g) = true → P above f → P above' g)
    (habove : List.Forall₂ (fun a b => (a == b) = true) above above') (hsame : (f == g) = true)
    (h : f.Throughout P above) : g.Throughout P above' := by
  induction f using induction_children generalizing g above above' with
  | step f ih =>
      refine throughout_iff.mpr ⟨same _ _ f g habove hsame h.root, fun d hd => ?_⟩
      obtain ⟨c, hc, hcd⟩ := forall₂_exists_left (same_iff.mp hsame).2.2 hd
      exact ih c hc (List.rel_append habove (.cons hsame .nil)) hcd (h.of_child hc)

end Throughout

/-! ## One rule after another -/

section Settle

variable {R : Formula → Formula → Prop} {rules : List Rule} (refl : ∀ f, R f f)
  (trans : ∀ f g h, R f g → R g h → R f h) (hrules : ∀ rule ∈ rules, ∀ f, R f (f.transform rule))

include refl trans hrules

theorem transformAll_rel (f : Formula) : R f (f.transformAll rules) := by
  rw [transformAll]
  induction rules generalizing f with
  | nil => exact refl f
  | cons rule rules ih =>
      rw [List.forall_mem_cons] at hrules
      exact trans _ _ _ (hrules.1 f) (ih hrules.2 _)

theorem settle_rel (rounds : Nat) (f : Formula) : R f (settle rules rounds f) := by
  induction rounds generalizing f with
  | zero => exact refl f
  | succ rounds ih =>
      have hstep := transformAll_rel refl trans hrules f
      unfold settle
      dsimp only
      split
      · exact hstep
      · exact trans _ _ _ hstep (ih _)

end Settle

/-! ## Rules that offer nothing -/

section Rest

variable {rule : Rule} {above : List Formula} {f : Formula}

/-- The rule offers nothing, wherever it looks. -/
def Rests (rule : Rule) (above : List Formula) (f : Formula) : Prop :=
  f.Throughout (fun above g => rule above g = none) above

theorem Rests.transformBelow_eq (h : f.Rests rule above) : f.transformBelow rule above = f := by
  induction f using induction_children generalizing above with
  | step f ih =>
      have hchild : ∀ c ∈ f.children, transformChild rule (above ++ [f]) c = c := by
        intro c hc
        have hrests : c.Rests rule (above ++ [f]) := h.of_child hc
        rw [transformChild, ih c hc hrests, hrests.root]
        simp
      have hmap : f.children.map (transformChild rule (above ++ [f])) = f.children :=
        (List.map_congr_left hchild).trans (List.map_id' _)
      rw [Formula.transformBelow_eq]
      simp [hmap]

theorem Rests.offered_eq (h : f.Rests rule above) : f.offered rule above = f := by
  rw [offered, h.transformBelow_eq, h.root]
  rfl

theorem transform_eq_self (h : f.Rests rule []) : f.transform rule = f := by
  rw [transform, h.transformBelow_eq, h.root]

end Rest

/-! ## Rules that never offer what was there before -/

section Renews

variable {rule : Rule} {above : List Formula} {f : Formula}

/-- The node with what is offered for its children. -/
def rebuilt (rule : Rule) (above : List Formula) (f : Formula) : Formula :=
  f.withChildren (f.children.map (offered rule (above ++ [f])))

theorem children_rebuilt (rule : Rule) (above : List Formula) (f : Formula) :
    (f.rebuilt rule above).children = f.children.map (offered rule (above ++ [f])) :=
  children_withChildren f _ (List.length_map _)

theorem outline_rebuilt (rule : Rule) (above : List Formula) (f : Formula) :
    (f.rebuilt rule above).kind.outline = f.kind.outline :=
  outline_withChildren f _

/-- The children stand where they stood. -/
theorem rebuilt_eq (rule : Rule) (above : List Formula) (f : Formula) :
    f.rebuilt rule above = mk (f.kind.map (offered rule (above ++ [f]))) f.notes :=
  congrArg (mk · f.notes) (Kind.withChildren_each _ f.kind)

/-- The children before and after. -/
theorem forall₂_children_rebuilt (rule : Rule) (above : List Formula) (f : Formula) :
    List.Forall₂ (fun c d => d = c.offered rule (above ++ [f])) f.children
      (f.children.map (offered rule (above ++ [f]))) := by
  rw [List.forall₂_map_right_iff]
  exact List.forall₂_same.mpr fun _ _ => rfl

theorem eq_of_forall₂_offered {xs ys : List Formula}
    (h : List.Forall₂ (fun c d => d = c.offered rule above) xs ys)
    (hrests : ∀ x ∈ xs, x.Rests rule above) : ys = xs := by
  induction h with
  | nil => rfl
  | cons hxy _ ih =>
      rw [List.forall_mem_cons] at hrests
      rw [hxy, hrests.1.offered_eq, ih hrests.2]

/-- What equals the formula that it is offered for is that formula. -/
theorem offered_eq_of_beq (hrule : rule.Renews) (h : (f.offered rule above == f) = true) :
    f.offered rule above = f := by
  rw [offered] at h ⊢
  cases hr : rule above (f.transformBelow rule above) with
  | some r =>
      rw [hr] at h
      exact absurd (hrule above f r hr) (by simp [show (r == f) = true from h])
  | none =>
      rw [hr, Option.getD_none] at h
      rw [Option.getD_none]
      rw [Formula.transformBelow_eq] at h ⊢
      dsimp only at h ⊢
      split
      next => rfl
      next hne =>
        rw [if_neg hne] at h
        have hcs := (same_iff.mp h).2.2
        rw [children_withChildren f _ (List.length_map _)] at hcs
        exact absurd (list_beq_iff.mpr hcs) hne

theorem transformChild_eq_offered (hrule : rule.Renews) (above : List Formula) (f : Formula) :
    transformChild rule above f = f.offered rule above := by
  rw [transformChild]
  split
  next hsame => exact (offered_eq_of_beq hrule hsame).symm
  next => rfl

theorem transformBelow_eq_rebuilt (hrule : rule.Renews) (above : List Formula) (f : Formula) :
    f.transformBelow rule above = f.rebuilt rule above := by
  have hmap : f.children.map (transformChild rule (above ++ [f])) =
      f.children.map (offered rule (above ++ [f])) :=
    List.map_congr_left fun c _ => transformChild_eq_offered hrule _ c
  rw [Formula.transformBelow_eq, hmap]
  dsimp only
  split
  next hsame =>
    have hself : f.children.map (offered rule (above ++ [f])) = f.children := by
      refine (List.map_congr_left fun c hc => ?_).trans (List.map_id' _)
      obtain ⟨i, hi⟩ := List.mem_iff_getElem?.mp hc
      have hpairs := List.forall₂_map_left_iff.mp (list_beq_iff.mp hsame)
      obtain ⟨d, hd, hcd⟩ := exists_getElem?_of_forall₂ hpairs hi
      obtain rfl := Option.some.inj (hi.symm.trans hd)
      exact offered_eq_of_beq hrule hcd
    rw [rebuilt, hself, withChildren_children]
  next => rfl

/-- The children come first, and then the rule looks at the node that is rebuilt from them. -/
theorem offered_eq (hrule : rule.Renews) (above : List Formula) (f : Formula) :
    f.offered rule above =
      (rule above (f.rebuilt rule above)).getD (f.rebuilt rule above) := by
  rw [offered, transformBelow_eq_rebuilt hrule]

theorem transform_eq_offered (hrule : rule.Renews) (f : Formula) :
    f.transform rule = f.offered rule [] := by
  rw [transform, offered]
  cases hr : rule [] (f.transformBelow rule []) with
  | none => rfl
  | some r =>
      dsimp only [Option.getD_some]
      split
      next hsame =>
        have hbeq : (f.offered rule [] == f) = true := by
          rw [offered, hr]
          exact hsame
        have heq := offered_eq_of_beq hrule hbeq
        rw [offered, hr] at heq
        exact heq.symm
      next => rfl

/-- What a rule makes of a formula. The invariant `I` says how the nodes that were above a node are
related to those above it now. -/
theorem throughout_offered {I : List Formula → List Formula → Prop}
    {P Q : List Formula → Formula → Prop} {above' : List Formula} (hrule : rule.Renews)
    (stay : ∀ above above' f, I above above' → f.Throughout Q above →
      rule above (f.rebuilt rule above) = none →
      P above' (f.rebuilt rule above) ∧ I (above ++ [f]) (above' ++ [f.rebuilt rule above]))
    (take : ∀ above above' f r, I above above' → f.Throughout Q above →
      rule above (f.rebuilt rule above) = some r →
      (∀ d ∈ (f.rebuilt rule above).children, ∀ below, I (above ++ [f]) below →
        d.Throughout P below) → r.Throughout P above')
    (hf : f.Throughout Q above) (hI : I above above') :
    (f.offered rule above).Throughout P above' := by
  induction f using induction_children generalizing above above' with
  | step f ih =>
      have hchildren : ∀ d ∈ (f.rebuilt rule above).children, ∀ below, I (above ++ [f]) below →
          d.Throughout P below := by
        intro d hd below hbelow
        rw [children_rebuilt] at hd
        obtain ⟨c, hc, rfl⟩ := List.mem_map.mp hd
        exact ih c hc (hf.of_child hc) hbelow
      rw [offered_eq hrule]
      cases hr : rule above (f.rebuilt rule above) with
      | none =>
          obtain ⟨hroot, hhere⟩ := stay above above' f hI hf hr
          exact throughout_iff.mpr ⟨hroot, fun d hd => hchildren d hd _ hhere⟩
      | some r => exact take above above' f r hI hf hr hchildren

end Renews

end Formula

end FormulaSql
