import FormulaSql.Proofs.Split.Joins
import FormulaSql.Proofs.Split.Sharing

/-!
# What sub-queries select beside their cuts

The sub-query of a group selects the dimensions of its forks, and what else they are joined on. A
base of its own selects the dimensions of the query. In the end the base selects whatever one of the
others does.
-/

namespace FormulaSql.Split

/-- The expressions that extras select, and whether they are grouped by. -/
def selection (xs : List Extra) : List (Formula × Bool) := xs.map fun x => (x.expr, x.isGroupBy)

/-- A dimension is grouped by unless it is constant. -/
def asDimension (d : Formula) : Formula × Bool := (d, !d.isConstantExpression)

namespace Signature

/-- The aggregations that forks are joined on. -/
def joinedAggregates (sig : Signature) : List Formula :=
  (sig.joining.flatMap JoinCondition.parts).filter Formula.isAggregateExpression

/-- What the sub-query of forks with the signature selects. -/
def selection (sig : Signature) : List (Formula × Bool) :=
  sig.dims.map asDimension ++ sig.joinedAggregates.map fun e => (e, false)

end Signature

/-! ## Groups -/

theorem selection_selectAll (ids : NameSet) (isGroupBy : Formula → Bool) (fs : List Formula)
    (a : Names) :
    selection (selectAll ids isGroupBy fs a).1 = fs.map fun f => (f, isGroupBy f) := by
  unfold selectAll
  induction fs generalizing a with
  | nil => rfl
  | cons f fs ih =>
      rw [Naming.mapM_cons_apply]
      exact congrArg (_ :: ·) (ih _)

theorem selection_newGroup (q : Query) (s : Site) (sig : Signature) (a : Names) :
    selection (newGroup q s sig a).1.extras = sig.selection := by
  have hdims := selection_selectAll (sourceIds q) (fun d => !d.isConstantExpression) sig.dims a
  have hjoined := selection_selectAll (sourceIds q) (fun _ => false) sig.joinedAggregates
    (selectAll (sourceIds q) (fun d => !d.isConstantExpression) sig.dims a).2
  change selection (_ ++ _) = _
  rw [selection, List.map_append]
  exact congrArg₂ (· ++ ·) hdims hjoined

/-- Forks that are added later change neither the signature of a group nor what it selects. -/
theorem addFork_keeps (g : ForkGroup) (s : Site) (a : Names) :
    (addFork g s a).1.signature = g.signature ∧ (addFork g s a).1.extras = g.extras := by
  rcases addFork_cases g s a with ⟨_, -, -, heq⟩ | ⟨-, heq⟩
  · rw [heq]
    exact ⟨rfl, rfl⟩
  · rw [heq]
    exact ⟨rfl, rfl⟩

/-- The group selects what its signature says. -/
def ForkGroup.SelectsOwn (g : ForkGroup) : Prop := selection g.extras = g.signature.selection

theorem ForkGroup.SelectsOwn.addFork {g : ForkGroup} (h : g.SelectsOwn) (s : Site) (a : Names) :
    (addFork g s a).1.SelectsOwn := by
  rw [SelectsOwn, (addFork_keeps g s a).1, (addFork_keeps g s a).2]
  exact h

theorem selectsOwn_placeFork {q : Query} {s : Site} {sig : Signature} {gs : List ForkGroup}
    (h : ∀ g ∈ gs, g.SelectsOwn) (a : Names) :
    ∀ g ∈ (placeFork q s sig gs a).1, g.SelectsOwn := by
  intro g' hg'
  rcases placeFork_cases q s sig gs a with ⟨before, g, after, rfl, -, heq⟩ | ⟨-, heq⟩
  · rw [heq] at hg'
    rcases List.mem_append.mp hg' with hg' | hg'
    · exact h g' (by simp [hg'])
    · rcases List.mem_cons.mp hg' with rfl | hg'
      · exact (h g (by simp)).addFork s a
      · exact h g' (by simp [hg'])
  · rw [heq] at hg'
    rcases List.mem_append.mp hg' with hg' | hg'
    · exact h g' hg'
    · obtain rfl := List.mem_singleton.mp hg'
      exact ForkGroup.SelectsOwn.addFork (selection_newGroup q s sig a) s _

theorem selectsOwn_forkGroups (q : Query) (found : List Site) (a : Names) :
    ∀ g ∈ (forkGroups q found a).1, g.SelectsOwn := by
  have hfold : ∀ gs a, (∀ g ∈ gs, ForkGroup.SelectsOwn g) →
      ∀ g ∈ (found.foldlM (fun gs s => placeFork q s (signatureOf q s) gs) gs a).1,
        g.SelectsOwn := by
    induction found with
    | nil => exact fun gs a hgs => hgs
    | cons s found ih =>
        intro gs a hgs
        rw [Naming.foldlM_cons_apply]
        exact ih _ _ (selectsOwn_placeFork hgs a)
  exact hfold [] a fun g hg => absurd hg List.not_mem_nil

/-- The mask of a group comes from the fork that the group was made for: it selects what the
signature of the fork says, and is joined on its conditions. -/
theorem forkMask_signature {q : Query} {a : Names} {m : Mask} (hm : m ∈ (forkMasks q a).1) :
    ∃ s ∈ taken q, selection m.extras = (signatureOf q s).selection ∧
      m.joining = (signatureOf q s).joining.map (·.map (inColumns m.extras)) := by
  obtain ⟨-, hgroups, -⟩ := forkGroups_spec q (taken q) a
  obtain ⟨g, hg, heq⟩ := exists_group_of_mask hm
  obtain ⟨s, hs, hsignature, -⟩ := (hgroups g hg).origin
  have hselects : selection g.extras = g.signature.selection :=
    selectsOwn_forkGroups q (taken q) a g hg
  rw [heq]
  refine ⟨s, hs, hsignature ▸ hselects, ?_⟩
  rw [← hsignature]
  rfl

/-! ## The base -/

theorem aliasIn_isSome_iff {xs : List Extra} {f : Formula} :
    (aliasIn xs f).isSome = true ↔ ∃ x ∈ xs, (x.expr == f) = true := by
  rw [aliasIn, Option.isSome_map, List.find?_isSome]

theorem exists_of_aliasIn {xs : List Extra} {f : Formula} {n : String}
    (h : aliasIn xs f = some n) : ∃ x ∈ xs, x.aliasName = n ∧ (x.expr == f) = true := by
  obtain ⟨x, hx, hn⟩ := Option.map_eq_some_iff.mp h
  have hsame := List.find?_some hx
  exact ⟨x, List.mem_of_find?_eq_some hx, hn, hsame⟩

/-- Extras are only added, and in the end there is one for every expression. -/
theorem foldlM_addFresh (new extras : List Extra) (a : Names) :
    (∀ x ∈ extras, x ∈ (new.foldlM addFresh extras a).1) ∧
      ∀ x ∈ new, (aliasIn (new.foldlM addFresh extras a).1 x.expr).isSome = true := by
  induction new generalizing extras a with
  | nil => exact ⟨fun x hx => hx, fun x hx => absurd hx List.not_mem_nil⟩
  | cons y ys ih =>
      rw [Naming.foldlM_cons_apply]
      obtain ⟨hkeeps, hselects⟩ := ih (addFresh extras y a).1 (addFresh extras y a).2
      have hstep : (∀ x ∈ extras, x ∈ (addFresh extras y a).1) ∧
          ∃ x ∈ (addFresh extras y a).1, (x.expr == y.expr) = true := by
        rw [addFresh_apply]
        split
        next hsome => exact ⟨fun x hx => hx, aliasIn_isSome_iff.mp hsome⟩
        next =>
          refine ⟨fun x hx => List.mem_append_left _ hx,
            { y with aliasName := (freshColumn a).1 }, by simp, BEq.rfl⟩
      refine ⟨fun x hx => hkeeps x (hstep.1 x hx), fun x hx => ?_⟩
      rcases List.mem_cons.mp hx with rfl | hx
      · obtain ⟨z, hz, hsame⟩ := hstep.2
        exact aliasIn_isSome_iff.mpr ⟨z, hkeeps z hz, hsame⟩
      · exact hselects x hx

theorem selection_ownBase (q : Query) (cuts : List Cut) (filters : List Nat) (a : Names) :
    selection (ownBase q cuts filters a).1.extras = q.dimensions.map asDimension := by
  have hmap : ∀ (es : List Entry) (a : Names),
      selection (es.mapM (m := Naming) (fun e => do return (⟨← freshColumn, e.formula, e.avatarIds,
        !e.formula.isConstantExpression⟩ : Extra)) a).1 = (es.map Entry.formula).map asDimension := by
    intro es
    induction es with
    | nil => exact fun _ => rfl
    | cons e es ih =>
        intro a
        rw [Naming.mapM_cons_apply]
        exact congrArg (_ :: ·) (ih _)
  exact hmap q.groupBy a

section Selection

variable {P : Formula × Bool → Prop}

theorem forall_selection_append {xs ys : List Extra} (hxs : ∀ x ∈ selection xs, P x)
    (hys : ∀ y ∈ selection ys, P y) : ∀ x ∈ selection (xs ++ ys), P x := by
  rw [selection, List.map_append]
  exact List.forall_mem_append.mpr ⟨hxs, hys⟩

theorem forall_selection_addFresh {new extras : List Extra} (a : Names)
    (hnew : ∀ x ∈ selection new, P x) (hextras : ∀ x ∈ selection extras, P x) :
    ∀ x ∈ selection (new.foldlM addFresh extras a).1, P x := by
  induction new generalizing extras a with
  | nil => exact hextras
  | cons y ys ih =>
      rw [selection, List.map_cons, List.forall_mem_cons] at hnew
      rw [Naming.foldlM_cons_apply, addFresh_apply]
      split
      · exact ih _ hnew.2 hextras
      · refine ih _ hnew.2 (forall_selection_append hextras ?_)
        exact List.forall_mem_singleton.mpr hnew.1

theorem forall_selection_completeBase {masks : List Mask} (a : Names)
    (h : ∀ m ∈ masks, ∀ x ∈ selection m.extras, P x) :
    ∀ m ∈ (completeBase masks a).1, ∀ x ∈ selection m.extras, P x := by
  cases masks with
  | nil => exact fun m hm => absurd hm List.not_mem_nil
  | cons base others =>
      rw [List.forall_mem_cons] at h
      refine List.forall_mem_cons.mpr ⟨forall_selection_addFresh a ?_ h.1, h.2⟩
      intro y hy
      obtain ⟨x, hx, rfl⟩ := List.mem_map.mp hy
      obtain ⟨m, hm, hx⟩ := List.mem_flatMap.mp hx
      exact h.2 m hm _ (List.mem_map_of_mem hx)

theorem forall_selection_mergeWindows {masks : List Mask}
    (h : ∀ m ∈ masks, ∀ x ∈ selection m.extras, P x) :
    ∀ m ∈ mergeWindows masks, ∀ x ∈ selection m.extras, P x := by
  unfold mergeWindows
  split
  next base other =>
    split
    · intro m hm y hy
      obtain rfl := List.mem_singleton.mp hm
      obtain ⟨x, hx, rfl⟩ := List.mem_map.mp hy
      rcases mem_addExtras hx with hx | hx
      · exact h base (by simp) _ (List.mem_map_of_mem hx)
      · exact h other (by simp) _ (List.mem_map_of_mem hx)
    · exact h
  next => exact h

/-- What is selected beside cuts has a property if it has it where it comes from: in the dimensions
of the query and in the signatures of the forks that are taken. -/
theorem plan_selection {q : Query} {a b : Names} {p : Plan} (hplan : plan q a = (some p, b))
    (hdims : ∀ d ∈ q.dimensions, P (asDimension d))
    (hforks : ∀ s ∈ taken q, ∀ x ∈ (signatureOf q s).selection, P x) :
    ∀ m ∈ p.masks, ∀ x ∈ selection m.extras, P x := by
  obtain ⟨based, rfl, rfl, -⟩ := plan_eq_some hplan
  have hgroup : ∀ m ∈ (forkMasks q a).1, ∀ x ∈ selection m.extras, P x := by
    intro m hm
    obtain ⟨s, hs, hselection, -⟩ := forkMask_signature hm
    exact hselection ▸ hforks s hs
  have hbased : ∀ m ∈ (withBase q (forkMasks q a).1 (forkMasks q a).2).1,
      ∀ x ∈ selection m.extras, P x := by
    rcases withBase_cases q (forkMasks q a).1 (forkMasks q a).2 with
      ⟨i, m, -, -, hm, heq⟩ | ⟨own, hown, heq⟩
    · rw [heq]
      refine List.forall_mem_cons.mpr ⟨hgroup m (List.mem_of_getElem? hm), fun m' hm' => ?_⟩
      exact hgroup m' (List.mem_of_mem_eraseIdx hm')
    · rw [heq]
      refine List.forall_mem_cons.mpr ⟨?_, hgroup⟩
      rw [hown, selection_ownBase]
      exact List.forall_mem_map.mpr hdims
  exact forall_selection_completeBase _ (forall_selection_mergeWindows hbased)

end Selection

/-- The base selects everything that the others select beside their cuts. -/
theorem plan_base_selects {q : Query} {a b : Names} {p : Plan} {base : Mask} {others : List Mask}
    (hplan : plan q a = (some p, b)) (hmasks : p.masks = base :: others) :
    ∀ m ∈ others, ∀ x ∈ m.extras, (aliasIn base.extras x.expr).isSome = true := by
  obtain ⟨based, -, rfl, -⟩ := plan_eq_some hplan
  intro m hm x hx
  cases hmerged : mergeWindows based.1 with
  | nil =>
      rw [hmerged] at hmasks
      cases hmasks
  | cons first rest =>
      rw [hmerged] at hmasks
      obtain ⟨rfl, rfl⟩ := List.cons.inj hmasks
      exact (foldlM_addFresh _ _ _).2 x (List.mem_flatMap.mpr ⟨m, hm, hx⟩)

end FormulaSql.Split
