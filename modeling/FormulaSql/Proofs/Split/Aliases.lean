import FormulaSql.Proofs.Split.Extras
import FormulaSql.Proofs.Split.Sharing

/-!
# Aliases in sub-queries

Every column of a plan gets a name of its own. Two cuts of one group share a name if they compute
the same, but no further expression that a sub-query selects has the name of another one or of a
cut. Masks that are merged keep this, since names are taken one after another over the whole round.

* `Split.plan_aliasesApart` says so of every mask of a plan
-/

namespace FormulaSql.Split

/-! ## Names that are taken once -/

/-- The names were taken between `a` and `b`, each once. -/
structure TakenOnce (a b : Names) (ns : List String) : Prop where
  fresh : ∀ n ∈ ns, FreshColumn a b n
  nodup : ns.Nodup

section TakenOnce

variable {a b c : Names} {ns ns' : List String}

theorem TakenOnce.nil (a b : Names) : TakenOnce a b [] := ⟨by simp, List.nodup_nil⟩

theorem TakenOnce.append (hab : a.Le b) (hbc : b.Le c) (h : TakenOnce a b ns)
    (h' : TakenOnce b c ns') : TakenOnce a c (ns ++ ns') := by
  refine ⟨fun n hn => ?_, List.nodup_append.mpr ⟨h.nodup, h'.nodup, fun m hm n hn => ?_⟩⟩
  · rcases List.mem_append.mp hn with hn | hn
    · exact (h.fresh n hn).widen (Names.Le.refl a) hbc
    · exact (h'.fresh n hn).widen hab (Names.Le.refl c)
  · exact (h.fresh m hm).ne hab (h'.fresh n hn)

theorem TakenOnce.perm (h : TakenOnce a b ns) (hperm : ns.Perm ns') : TakenOnce a b ns' :=
  ⟨fun n hn => h.fresh n (hperm.mem_iff.mpr hn), hperm.nodup_iff.mp h.nodup⟩

theorem takenOnce_freshColumn (a : Names) :
    TakenOnce a (freshColumn a).2 [(freshColumn a).1] :=
  ⟨fun _ hn => List.mem_singleton.mp hn ▸ (freshColumn_ensures a).2, List.nodup_singleton _⟩

/-- Members that each take a name get different ones. -/
theorem takenOnce_mapM {α β : Type} {f : α → Naming β} {v : β → String}
    (hf : ∀ x a, a.Le (f x a).2 ∧ TakenOnce a (f x a).2 [v (f x a).1]) (xs : List α)
    (a : Names) :
    a.Le (xs.mapM f a).2 ∧ TakenOnce a (xs.mapM f a).2 ((xs.mapM f a).1.map v) := by
  induction xs generalizing a with
  | nil => exact ⟨Names.Le.refl a, .nil a a⟩
  | cons x xs ih =>
      obtain ⟨hle, hone⟩ := hf x a
      obtain ⟨hle', hrest⟩ := ih (f x a).2
      rw [Naming.mapM_cons_apply]
      exact ⟨hle.trans hle', hone.append hle hle' hrest⟩

end TakenOnce

/-! ## Names in groups -/

/-- The names that groups use: for further expressions and for columns. -/
def groupNames (gs : List ForkGroup) : List String :=
  (gs.flatMap ForkGroup.extras).map Extra.aliasName ++ (gs.flatMap ForkGroup.columns).map Prod.snd

theorem groupNames_append (gs hs : List ForkGroup) :
    (groupNames (gs ++ hs)).Perm (groupNames gs ++ groupNames hs) := by
  simp only [groupNames, List.flatMap_append, List.map_append, List.append_assoc]
  refine List.Perm.append_left _ ?_
  rw [← List.append_assoc, ← List.append_assoc]
  exact List.Perm.append_right _ List.perm_append_comm

section Groups

variable {q : Query} {s : Site} {a b : Names}

theorem takenOnce_selectAll (ids : NameSet) (isGroupBy : Formula → Bool) (fs : List Formula)
    (a : Names) :
    a.Le (selectAll ids isGroupBy fs a).2 ∧
      TakenOnce a (selectAll ids isGroupBy fs a).2
        ((selectAll ids isGroupBy fs a).1.map Extra.aliasName) :=
  takenOnce_mapM (v := Extra.aliasName)
    (f := fun f => (do return (⟨← freshColumn, f, ids, isGroupBy f⟩ : Extra)))
    (fun _ a => ⟨(freshColumn_ensures a).1, takenOnce_freshColumn a⟩) fs a

theorem takenOnce_newGroup (q : Query) (s : Site) (sig : Signature) (a : Names) :
    a.Le (newGroup q s sig a).2 ∧
      TakenOnce a (newGroup q s sig a).2 (groupNames [(newGroup q s sig a).1]) := by
  obtain ⟨hle, hdims⟩ := takenOnce_selectAll (sourceIds q) (fun d => !d.isConstantExpression)
    sig.dims a
  obtain ⟨hle', hjoined⟩ := takenOnce_selectAll (sourceIds q) (fun _ => false)
    ((sig.joining.flatMap JoinCondition.parts).filter Formula.isAggregateExpression)
    (selectAll (sourceIds q) (fun d => !d.isConstantExpression) sig.dims a).2
  refine ⟨hle.trans hle', (hdims.append hle hle' hjoined).perm (.of_eq ?_)⟩
  rw [groupNames, List.flatMap_singleton, List.flatMap_singleton, ← List.map_append]
  exact (List.append_nil _).symm

/-- A fork takes at most one name for its group. -/
theorem addFork_names (g : ForkGroup) (s : Site) (b : Names) :
    b.Le (addFork g s b).2 ∧ ∃ ns, TakenOnce b (addFork g s b).2 ns ∧
      (groupNames [(addFork g s b).1]).Perm (groupNames [g] ++ ns) := by
  rcases addFork_cases g s b with ⟨known, -, -, heq⟩ | ⟨-, heq⟩
  · rw [heq]
    exact ⟨Names.Le.refl b, [], .nil b b, .of_eq (by simp [groupNames])⟩
  · rw [heq]
    exact ⟨(freshColumn_ensures b).1, _, takenOnce_freshColumn b, .of_eq (by simp [groupNames])⟩

theorem takenOnce_placeFork {gs : List ForkGroup} (hab : a.Le b)
    (h : TakenOnce a b (groupNames gs)) :
    b.Le (placeFork q s (signatureOf q s) gs b).2 ∧
      TakenOnce a (placeFork q s (signatureOf q s) gs b).2
        (groupNames (placeFork q s (signatureOf q s) gs b).1) := by
  rcases placeFork_cases q s (signatureOf q s) gs b with
    ⟨before, g, after, rfl, -, heq⟩ | ⟨-, heq⟩
  · obtain ⟨hle, ns, hns, hperm⟩ := addFork_names g s b
    rw [heq]
    refine ⟨hle, (h.append hab hle hns).perm ?_⟩
    have hsplit (x : ForkGroup) : (groupNames (before ++ x :: after)).Perm
        (groupNames before ++ groupNames after ++ groupNames [x]) := by
      refine (groupNames_append before (x :: after)).trans ?_
      rw [List.append_assoc]
      refine List.Perm.append_left _ ?_
      exact (groupNames_append [x] after).trans List.perm_append_comm
    refine ((hsplit g).append_right ns).trans ?_
    rw [List.append_assoc]
    exact (List.Perm.append_left _ hperm.symm).trans (hsplit _).symm
  · obtain ⟨hle, hnew⟩ := takenOnce_newGroup q s (signatureOf q s) b
    obtain ⟨hle', ns, hns, hperm⟩ := addFork_names (newGroup q s (signatureOf q s) b).1 s
      (newGroup q s (signatureOf q s) b).2
    rw [heq]
    refine ⟨hle.trans hle', ?_⟩
    refine (h.append hab (hle.trans hle') (hnew.append hle hle' hns)).perm ?_
    refine (List.Perm.append_left _ hperm.symm).trans ?_
    exact (groupNames_append gs _).symm

theorem takenOnce_forkGroups (q : Query) (found : List Site) (a : Names) :
    TakenOnce a (forkGroups q found a).2 (groupNames (forkGroups q found a).1) := by
  let I (_ : List Site) (a b : Names) (gs : List ForkGroup) : Prop :=
    TakenOnce a b (groupNames gs)
  have hstart : I [] a a [] := .nil a a
  refine (Naming.ensures_foldlM ?_ [] (Names.Le.refl a) hstart).2
  intro _ s _ a b gs hab h
  exact takenOnce_placeFork hab h

end Groups

/-! ## Aliases in masks -/

/-- Every alias stands for one of the extras, and none of the cuts has one of these aliases. -/
structure AliasesApart (cuts : List Cut) (extras : List Extra) : Prop where
  extra : (extras.map Extra.aliasName).Nodup
  cut : ∀ c ∈ cuts, ∀ x ∈ extras, c.aliasName ≠ x.aliasName

section Masks

variable {q : Query} {a b : Names} {masks : List Mask}

theorem AliasesApart.subperm {cuts cuts' : List Cut} {extras extras' : List Extra}
    (h : AliasesApart cuts extras) (hcuts : ∀ c ∈ cuts', c ∈ cuts)
    (hextras : extras'.Subperm extras) : AliasesApart cuts' extras' := by
  refine ⟨?_, fun c hc x hx => h.cut c (hcuts c hc) x (hextras.subset hx)⟩
  obtain ⟨xs, hperm, hsub⟩ := hextras
  exact ((hperm.map Extra.aliasName).nodup_iff).mp (h.extra.sublist (hsub.map Extra.aliasName))

theorem AliasesApart.of_mem {m : Mask}
    (h : AliasesApart (masks.flatMap Mask.cuts) (masks.flatMap Mask.extras)) (hm : m ∈ masks) :
    AliasesApart m.cuts m.extras := by
  refine h.subperm (fun c hc => List.mem_flatMap.mpr ⟨m, hm, hc⟩) ?_
  exact (List.sublist_flatten_of_mem (List.mem_map_of_mem hm)).subperm

theorem aliasesApart_forkMasks (q : Query) (a : Names) :
    AliasesApart ((forkMasks q a).1.flatMap Mask.cuts)
      ((forkMasks q a).1.flatMap Mask.extras) := by
  have hextras : (forkMasks q a).1.flatMap Mask.extras =
      (forkGroups q (taken q) a).1.flatMap ForkGroup.extras :=
    flatMap_forkMasks (fun _ _ _ _ => rfl) a
  obtain ⟨hnodup, -, hapart⟩ := List.nodup_append.mp
    (takenOnce_forkGroups q (taken q) a).nodup
  rw [hextras, cuts_forkMasks]
  refine ⟨hnodup, fun c hc x hx heq => ?_⟩
  obtain ⟨g, hg, hc⟩ := List.mem_flatMap.mp hc
  obtain ⟨s, -, -, -, r, hr, -⟩ := ((forkGroups_grouped q (taken q) a).formed g hg).cut c hc
  refine hapart _ (List.mem_map_of_mem hx) _ ?_ heq.symm
  exact List.mem_map.mpr ⟨_, List.mem_flatMap.mpr ⟨g, hg, hr⟩, rfl⟩

theorem takenOnce_ownBase (q : Query) (cuts : List Cut) (filters : List Nat) (a : Names) :
    TakenOnce a (ownBase q cuts filters a).2
      ((ownBase q cuts filters a).1.extras.map Extra.aliasName) := by
  obtain ⟨-, hextras⟩ := takenOnce_mapM (v := Extra.aliasName) (f := fun (e : Entry) => do
      let n ← freshColumn
      return (⟨n, e.formula, e.avatarIds, !e.formula.isConstantExpression⟩ : Extra))
    (fun _ a => ⟨(freshColumn_ensures a).1, takenOnce_freshColumn a⟩) q.groupBy a
  refine ⟨fun n hn => ?_, hextras.nodup⟩
  exact (hextras.fresh n hn).widen (Names.Le.refl a) (freshQuery_ensures _).1

theorem aliasesApart_withBase (hab : a.Le b) (hmasks : MasksOf q a b masks)
    (h : AliasesApart (masks.flatMap Mask.cuts) (masks.flatMap Mask.extras)) :
    AliasesApart ((withBase q masks b).1.flatMap Mask.cuts)
      ((withBase q masks b).1.flatMap Mask.extras) := by
  obtain ⟨hle, huncut, -⟩ := uncutCuts_ensures q (masks.flatMap Mask.cuts) b
  rcases withBase_cases q masks b with ⟨i, m, -, -, hm, heq⟩ | ⟨base, hbase, heq⟩
  · rw [heq]
    have hperm := perm_eraseIdx hm
    refine h.subperm (fun c hc => ?_) (hperm.flatMap_right Mask.extras).subperm
    exact (hperm.flatMap_right Mask.cuts).mem_iff.mp hc
  · have hextras := takenOnce_ownBase q (uncutCuts q (masks.flatMap Mask.cuts) b).1
      (uncutFilters q masks) (uncutCuts q (masks.flatMap Mask.cuts) b).2
    rw [← hbase] at hextras
    have hcuts : base.1.cuts = (uncutCuts q (masks.flatMap Mask.cuts) b).1 := by
      rw [hbase]
      rfl
    have hold : ∀ x ∈ masks.flatMap Mask.extras, FreshColumn a b x.aliasName := by
      intro x hx
      obtain ⟨m, hm, hx⟩ := List.mem_flatMap.mp hx
      exact ((hmasks.mask m hm).extra x hx).1
    have hnew : ∀ x ∈ base.1.extras, FreshColumn b base.2 x.aliasName := fun x hx =>
      (hextras.fresh _ (List.mem_map_of_mem hx)).widen hle (Names.Le.refl _)
    rw [heq]
    refine ⟨?_, ?_⟩
    · rw [List.flatMap_cons, List.map_append]
      refine List.nodup_append.mpr ⟨hextras.nodup, h.extra, fun m hm n hn => ?_⟩
      obtain ⟨x, hx, rfl⟩ := List.mem_map.mp hm
      obtain ⟨y, hy, rfl⟩ := List.mem_map.mp hn
      exact ((hold y hy).ne hab (hnew x hx)).symm
    · rw [List.flatMap_cons, List.flatMap_cons]
      intro c hc x hx
      rcases List.mem_append.mp hc with hc | hc <;> rcases List.mem_append.mp hx with hx | hx
      · exact (huncut c (hcuts ▸ hc)).1.ne hle (hextras.fresh _ (List.mem_map_of_mem hx))
      · exact ((hold x hx).ne hab (huncut c (hcuts ▸ hc)).1).symm
      · obtain ⟨m, hm, hc⟩ := List.mem_flatMap.mp hc
        exact ((hmasks.mask m hm).cut c hc).1.ne hab (hnew x hx)
      · exact h.cut c hc x hx

theorem addExtras_sublist (extras new : List Extra) :
    (addExtras extras new).Sublist (extras ++ new) := by
  induction new generalizing extras with
  | nil => simp [addExtras]
  | cons x xs ih =>
      rw [addExtras, List.foldl_cons, ← addExtras]
      split
      · exact (ih extras).trans (.append_left (List.sublist_cons_self x xs) extras)
      · exact List.append_cons extras x xs ▸ ih (extras ++ [x])

theorem aliasesApart_mergeWindows
    (h : AliasesApart (masks.flatMap Mask.cuts) (masks.flatMap Mask.extras)) :
    AliasesApart ((mergeWindows masks).flatMap Mask.cuts)
      ((mergeWindows masks).flatMap Mask.extras) := by
  rw [mergeWindows_cuts]
  refine h.subperm (fun c hc => hc) ?_
  unfold mergeWindows
  split
  next base other =>
    split
    · simpa using (addExtras_sublist base.extras other.extras).subperm
    · exact List.Subperm.refl _
  next => exact List.Subperm.refl _

/-- What is added to the base has names that are taken just then. -/
theorem takenOnce_addFresh (new extras : List Extra) (a : Names) :
    ∃ xs, (new.foldlM addFresh extras a).1 = extras ++ xs ∧
      a.Le (new.foldlM addFresh extras a).2 ∧
      TakenOnce a (new.foldlM addFresh extras a).2 (xs.map Extra.aliasName) := by
  induction new generalizing extras a with
  | nil => exact ⟨[], (List.append_nil _).symm, Names.Le.refl a, .nil a a⟩
  | cons x new ih =>
      rw [Naming.foldlM_cons_apply, addFresh_apply]
      split
      · exact ih extras a
      · obtain ⟨hle, -⟩ := freshColumn_ensures a
        obtain ⟨xs, heq, hle', hxs⟩ :=
          ih (extras ++ [{ x with aliasName := (freshColumn a).1 }]) (freshColumn a).2
        refine ⟨{ x with aliasName := (freshColumn a).1 } :: xs, ?_, hle.trans hle', ?_⟩
        · rw [heq, List.append_assoc]
          rfl
        · exact (takenOnce_freshColumn a).append hle hle' hxs

theorem plan_aliasesApart {p : Plan} (hplan : plan q a = (some p, b)) :
    ∀ m ∈ p.masks, AliasesApart m.cuts m.extras := by
  obtain ⟨hle, hmasks, -⟩ := forkMasks_spec q a
  obtain ⟨hle', hbased, -⟩ := withBase_spec hle hmasks
  have hapart := aliasesApart_mergeWindows
    (aliasesApart_withBase hle hmasks (aliasesApart_forkMasks q a))
  have hmerged := mergeWindows_spec hbased
  obtain ⟨based, rfl, rfl, -⟩ := plan_eq_some hplan
  generalize mergeWindows _ = merged at hapart hmerged
  intro m hm
  cases merged with
  | nil => exact absurd hm List.not_mem_nil
  | cons base others =>
      rcases List.mem_cons.mp hm with rfl | hm
      · have hbase := hapart.of_mem List.mem_cons_self
        have hmask := hmerged.mask base List.mem_cons_self
        have hall := hle.trans hle'
        obtain ⟨xs, heq, -, hxs⟩ := takenOnce_addFresh (others.flatMap Mask.extras) base.extras
          (withBase q (forkMasks q a).1 (forkMasks q a).2).2
        show AliasesApart base.cuts ((others.flatMap Mask.extras).foldlM addFresh base.extras _).1
        rw [heq]
        refine ⟨?_, fun c hc x hx => ?_⟩
        · rw [List.map_append]
          refine List.nodup_append.mpr ⟨hbase.extra, hxs.nodup, fun m hm n hn => ?_⟩
          obtain ⟨x, hx, rfl⟩ := List.mem_map.mp hm
          exact ((hmask.extra x hx).1).ne hall (hxs.fresh n hn)
        · rcases List.mem_append.mp hx with hx | hx
          · exact hbase.cut c hc x hx
          · exact (hmask.cut c hc).1.ne hall (hxs.fresh _ (List.mem_map_of_mem hx))
      · exact hapart.of_mem (List.mem_cons_of_mem base hm)

end Masks

end FormulaSql.Split
