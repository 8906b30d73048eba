import FormulaSql.Formula.Build
import FormulaSql.Proofs.Formula.Rewriting

/-!
# Rewriting as it is done and as it is meant

To rewrite a formula is meant plainly: from the leaves up, each node is built again from its
rewritten children, and then it is replaced if it is picked. It is done with less work: what has not
changed is not built again, a child that comes out equal to what it was is kept as it was, and the
top node is treated apart. What could go wrong is that keeping an old child shows: it has its old
positions, and what looks at it later could tell. It does not as long as equal formulas are treated
alike.

* `Formula.transform_beq_plainRewrite` says that both come to formulas that are equal
* `Formula.eq_of_rewrite_beq`: whatever the rewriting does, also from one call to the next, a result
  that equals the formula is the formula
-/

namespace FormulaSql

/-- Which nodes of a formula are replaced, and by what. Both questions are asked with the nodes above,
outermost first, and the answers may depend on those before. -/
structure Rewriter (m : Type → Type) where
  picks : List Formula → Formula → m Bool
  gives : List Formula → Formula → m Formula

namespace Rewriter

variable {m : Type → Type} [Monad m]

/-- What takes the place of a node, or the node itself. -/
def apply (w : Rewriter m) (above : List Formula) (f : Formula) : m Formula := do
  if ← w.picks above f then w.gives above f else return f

/-- The rule that a rewriter goes by if its answers do not depend on each other. -/
def rule (w : Rewriter Id) : Rule := fun above f =>
  if (w.picks above f).run then some (w.gives above f).run else none

/-- Formulas that compare equal are treated alike. -/
structure Respects (w : Rewriter Id) : Prop where
  picks : ∀ above f g, (f == g) = true → (w.picks above f).run = (w.picks above g).run
  gives : ∀ above f g, (f == g) = true → ((w.gives above f).run == (w.gives above g).run) = true

theorem apply_eq_getD (w : Rewriter Id) (above : List Formula) (f : Formula) :
    (w.apply above f).run = (w.rule above f).getD f := by
  change (if (w.picks above f).run then (w.gives above f).run else f) = _
  rw [rule]
  split <;> rfl

theorem Respects.apply {w : Rewriter Id} (h : w.Respects) (above : List Formula) {f g : Formula}
    (hfg : (f == g) = true) : ((w.apply above f).run == (w.apply above g).run) = true := by
  rw [apply_eq_getD, apply_eq_getD, rule, rule, h.picks above f g hfg]
  split
  · exact h.gives above f g hfg
  · exact hfg

end Rewriter

theorem Kind.shape_withChildren {α : Type} (k : Kind α) (cs : List α) :
    (k.withChildren cs).shape = k.shape := by
  have houtline := outline_withChildren k cs
  cases k with
  | literal v => rfl
  | _ => exact houtline

namespace Formula

section Rewrite

variable {m : Type → Type} [Monad m]

/-- The formula with everything below its top node rewritten. -/
def rewriteBelow (w : Rewriter m) (f : Formula) : List Formula → m Formula :=
  f.recur fun f k above => do
    let here := above ++ [f]
    let cs ← (f.children.zip k.children).mapM fun (c, below) => do
      let c' ← w.apply here (← below here)
      return if c' == c then c else c'
    return if cs == f.children then f else f.withChildren cs

/-- The rewritten formula. -/
def rewrite (w : Rewriter m) (f : Formula) : m Formula := do
  let f' ← f.rewriteBelow w []
  if ← w.picks [] f' then
    let r ← w.gives [] f'
    return if r == f then f else r
  else return f'

/-- Every node is built again from its rewritten children, and then it is replaced if it is
picked. -/
def plainRewrite (w : Rewriter Id) (f : Formula) : List Formula → Formula :=
  f.recur fun f k above =>
    (w.apply above (f.withChildren (k.children.map fun below => below (above ++ [f])))).run

theorem plainRewrite_eq (w : Rewriter Id) (f : Formula) (above : List Formula) :
    f.plainRewrite w above = (w.apply above
      (f.withChildren (f.children.map fun c => c.plainRewrite w (above ++ [f])))).run := by
  rw [plainRewrite, recur_eq, Kind.children_map, List.map_map]
  rfl

variable [LawfulMonad m]

theorem rewriteBelow_eq (w : Rewriter m) (f : Formula) (above : List Formula) :
    f.rewriteBelow w above = (do
      let cs ← f.children.mapM fun c => do
        let c' ← w.apply (above ++ [f]) (← c.rewriteBelow w (above ++ [f]))
        return if c' == c then c else c'
      return if cs == f.children then f else f.withChildren cs) := by
  rw [rewriteBelow, recur_eq, Kind.children_map]
  dsimp only
  rw [← children, List.zip, List.zipWith_map_right, List.zipWith_self, List.mapM_map]
  rfl

end Rewrite

/-! ## Without effects -/

section Pure

variable {w : Rewriter Id}

theorem rewriteBelow_run (w : Rewriter Id) (f : Formula) (above : List Formula) :
    (f.rewriteBelow w above).run = f.transformBelow w.rule above := by
  induction f using induction_children generalizing above with
  | step f ih =>
      have hchild : ∀ c ∈ f.children,
          (do let c' ← w.apply (above ++ [f]) (← c.rewriteBelow w (above ++ [f]))
              return if c' == c then c else c' : Id Formula).run =
            transformChild w.rule (above ++ [f]) c := by
        intro c hc
        rw [transformChild, ← ih c hc, ← Rewriter.apply_eq_getD]
        rfl
      rw [rewriteBelow_eq, transformBelow_eq, Id.run_bind, List.idRun_mapM,
        List.map_congr_left hchild]
      rfl

/-- Without effects a formula is rewritten by a rule. -/
theorem rewrite_run (w : Rewriter Id) (f : Formula) : (f.rewrite w).run = f.transform w.rule := by
  rw [transform, ← rewriteBelow_run, Rewriter.rule]
  change (if (w.picks [] (f.rewriteBelow w []).run).run then _ else _ : Id Formula).run = _
  split
  · rfl
  · rfl

/-- Nodes that are built again from equal children are equal. -/
theorem withChildren_beq (f : Formula) {cs ds : List Formula}
    (hcs : cs.length = f.children.length) (h : (cs == ds) = true) :
    (f.withChildren cs == f.withChildren ds) = true := by
  have hforall := list_beq_iff.mp h
  have hshape := Kind.shape_withChildren f.kind
  refine same_iff.mpr ⟨(hshape cs).trans (hshape ds).symm, rfl, ?_⟩
  rw [children_withChildren f cs hcs, children_withChildren f ds (hforall.length_eq ▸ hcs)]
  exact hforall

/-- A child that is kept as it was equals what has become of it. -/
theorem transformChild_beq (rule : Rule) (above : List Formula) (c : Formula) :
    (transformChild rule above c ==
      (rule above (c.transformBelow rule above)).getD (c.transformBelow rule above)) = true := by
  rw [transformChild]
  split
  next hsame => exact BEq.symm hsame
  next => exact BEq.rfl

theorem transformBelow_beq_plain (hw : w.Respects) (f : Formula) (above : List Formula) :
    (f.transformBelow w.rule above == f.withChildren
      (f.children.map fun c => c.plainRewrite w (above ++ [f]))) = true := by
  induction f using induction_children generalizing above with
  | step f ih =>
      have hchild : ∀ c ∈ f.children,
          (transformChild w.rule (above ++ [f]) c == c.plainRewrite w (above ++ [f])) = true := by
        intro c hc
        refine BEq.trans (transformChild_beq w.rule _ c) ?_
        rw [← Rewriter.apply_eq_getD, plainRewrite_eq]
        exact hw.apply _ (ih c hc _)
      have hchildren : (f.children.map (transformChild w.rule (above ++ [f])) ==
          f.children.map fun c => c.plainRewrite w (above ++ [f])) = true := by
        rw [list_beq_iff, List.forall₂_map_left_iff, List.forall₂_map_right_iff]
        exact List.forall₂_same.mpr hchild
      rw [transformBelow_eq]
      dsimp only
      split
      next hsame =>
        have hkept := withChildren_beq f rfl (BEq.trans (BEq.symm hsame) hchildren)
        rwa [withChildren_children] at hkept
      next => exact withChildren_beq f (List.length_map _) hchildren

/-- What is done and what is meant come to formulas that are equal. -/
theorem transform_beq_plainRewrite (hw : w.Respects) (f : Formula) :
    (f.transform w.rule == f.plainRewrite w []) = true := by
  have hplain : ((w.rule [] (f.transformBelow w.rule [])).getD (f.transformBelow w.rule []) ==
      f.plainRewrite w []) = true := by
    rw [← Rewriter.apply_eq_getD, plainRewrite_eq]
    exact hw.apply _ (transformBelow_beq_plain hw f [])
  rw [transform]
  split
  next r hr =>
    rw [hr] at hplain
    split
    next hsame => exact BEq.trans (BEq.symm hsame) hplain
    next => exact hplain
  next hr =>
    rw [hr] at hplain
    exact hplain

end Pure

/-! ## With effects -/

section Stateful

variable {σ : Type} {w : Rewriter (StateM σ)}

theorem length_mapM {α β : Type} (g : α → StateM σ β) (xs : List α) (s : σ) :
    ((xs.mapM g).run s).1.length = xs.length := by
  induction xs generalizing s with
  | nil => rfl
  | cons x xs ih =>
      rw [List.mapM_cons]
      exact congrArg (· + 1) (ih _)

theorem eq_of_rewriteBelow_beq {f : Formula} {above : List Formula} {s : σ}
    (h : (((f.rewriteBelow w above).run s).1 == f) = true) :
    ((f.rewriteBelow w above).run s).1 = f := by
  rw [rewriteBelow_eq] at h ⊢
  exact if_pos ((rebuilt_beq_iff (length_mapM _ f.children s)).mp h)

/-- What is given for the top node counts only if it is another formula. -/
theorem rewrite_cases (w : Rewriter (StateM σ)) (f : Formula) (s : σ) :
    ((f.rewrite w).run s).1 = ((f.rewriteBelow w []).run s).1 ∨
      ∃ r : Formula, ((f.rewrite w).run s).1 = if r == f then f else r := by
  have hrun : (f.rewrite w).run s =
      let below := (f.rewriteBelow w []).run s
      let picked := (w.picks [] below.1).run below.2
      (if picked.1 then do
          let r ← w.gives [] below.1
          return if r == f then f else r
        else return below.1 : StateM σ Formula).run picked.2 := rfl
  rw [hrun]
  dsimp only
  split
  · exact Or.inr ⟨_, rfl⟩
  · exact Or.inl rfl

/-- Whatever has happened on the way, a result that equals the formula is the formula itself. -/
theorem eq_of_rewrite_beq {f : Formula} {s : σ} (h : (((f.rewrite w).run s).1 == f) = true) :
    ((f.rewrite w).run s).1 = f := by
  rcases rewrite_cases w f s with heq | ⟨r, heq⟩ <;> rw [heq] at h ⊢
  · exact eq_of_rewriteBelow_beq h
  · split at h
    next hsame => exact if_pos hsame
    next hne => exact absurd h hne

end Stateful

/-- If equal formulas are treated alike, a formula is rewritten as it is meant, up to equality: with
every node built again from its rewritten children, and the top node seen with none above. However
formulas are treated, and whatever is kept in mind from one to the next, a result that equals the
formula is the formula itself, positions included. -/
theorem rewrite_refines_plain (f : Formula) :
    (∀ w : Rewriter Id, w.Respects → (f.transform w.rule == f.plainRewrite w []) = true) ∧
      (∀ (σ : Type) (w : Rewriter (StateM σ)) (s : σ),
        (((f.rewrite w).run s).1 == f) = true → ((f.rewrite w).run s).1 = f) ∧
      ∀ w : Rewriter Id, (f.rewrite w).run = f.transform w.rule :=
  ⟨fun _ hw => transform_beq_plainRewrite hw f, fun _ _ _ => eq_of_rewrite_beq,
    fun w => rewrite_run w f⟩

/-- Puts one field in the place of another. -/
def fieldSwap (old new : String) : Rewriter Id where
  picks _ f := f.field? == some old
  gives _ _ := field new

theorem respects_fieldSwap (old new : String) : (fieldSwap old new).Respects where
  picks _ _ _ h := congrArg (· == some old) (field?_eq_of_same h)
  gives _ _ _ _ := BEq.rfl

/-- Puts every field in its own place without its notes, and counts the fields. -/
def fieldCount : Rewriter (StateM Nat) where
  picks _ f := return f.field?.isSome
  gives _ f := do
    modify (· + 1)
    return of f.kind

/-- A field in a text, with a sign before it. -/
def signed : Formula := unary "-" (mk (.field "a") ⟨none, some ⟨1, 2⟩⟩)

theorem rewrite_refines_plain_signed :
    (fieldSwap "a" "z").Respects ∧
      (signed.transform (fieldSwap "a" "z").rule ==
        signed.plainRewrite (fieldSwap "a" "z") []) = true ∧
      (((signed.rewrite fieldCount).run 0).1 == signed) = true ∧
      ((signed.rewrite fieldCount).run 0).1 = signed :=
  have h := rewrite_refines_plain signed
  have hsame : (((signed.rewrite fieldCount).run 0).1 == signed) = true := by decide
  ⟨respects_fieldSwap "a" "z", h.1 _ (respects_fieldSwap "a" "z"), hsame, h.2.1 Nat _ 0 hsame⟩

end Formula

end FormulaSql
