import FormulaSql.Proofs.Split.Groups
import FormulaSql.Split.Rounds
import Mathlib.Data.List.Nodup
import Mathlib.Data.List.Perm.Basic

/-!
# What a plan guarantees

The plan of a round goes through several hands: groups become masks, a base is put in front, window
calls are merged into it, and it gets the columns that joins need. All of them keep the same
promises about every mask, and none of them loses a cut.
-/

namespace FormulaSql.Split

/-- A mask for a query, made while the names from `a` to `b` were taken. Its names are among these,
and what it computes is drawn from the query. -/
structure MaskOf (q : Query) (a b : Names) (m : Mask) : Prop where
  queryId : FreshQuery a b m.queryId
  cut : ∀ c ∈ m.cuts, FreshColumn a b c.aliasName ∧ c.part ∈ Part.splittable
  extra : ∀ x ∈ m.extras, FreshColumn a b x.aliasName ∧ Drawn q x.expr
  addFilter : ∀ e ∈ m.addFilters, ∃ e₀ ∈ q.filters, ∃ s ∈ sites q,
    e = { e₀ with formula := shiftFormula s.fork.shifts e₀.formula }

theorem MaskOf.widen {q : Query} {a b c : Names} {m : Mask} (hbc : b.Le c) (h : MaskOf q a b m) :
    MaskOf q a c m where
  queryId := h.queryId.widen (Names.Le.refl a) hbc
  cut c hc := ⟨(h.cut c hc).1.widen (Names.Le.refl a) hbc, (h.cut c hc).2⟩
  extra x hx := ⟨(h.extra x hx).1.widen (Names.Le.refl a) hbc, (h.extra x hx).2⟩
  addFilter := h.addFilter

/-! ## Masks of groups -/

/-- The mask of a group under the name of its sub-query. -/
def groupMaskAs (q : Query) (cut : List Nat) (isWindow : Bool) (g : ForkGroup) (id : String) :
    Mask where
  queryId := id
  isWindow := isWindow
  cuts := g.cuts
  extras := g.extras
  filterIndices := plainFilters q cut g
  addFilters := shiftedFilters q g
  joinType := some g.signature.joinType
  joining := g.signature.joining.map (·.map (inColumns g.extras))
  isBase := false

theorem groupMask_apply (q : Query) (cut : List Nat) (isWindow : Bool) (g : ForkGroup) (a : Names) :
    groupMask q cut isWindow g a =
      (groupMaskAs q cut isWindow g (freshQuery a).1, (freshQuery a).2) := rfl

theorem groupMasks_spec (q : Query) (isWindow : Bool) (groups : List ForkGroup) (a : Names) :
    a.Le (groupMasks q isWindow groups a).2 ∧
      List.Forall₂ (fun g m => FreshQuery a (groupMasks q isWindow groups a).2 m.queryId ∧
          m = groupMaskAs q (cutFilters (groups.flatMap ForkGroup.cuts)) isWindow g m.queryId)
        groups (groupMasks q isWindow groups a).1 ∧
      ((groupMasks q isWindow groups a).1.map Mask.queryId).Nodup := by
  have hone : ∀ g, Naming.Ensures
      (groupMask q (cutFilters (groups.flatMap ForkGroup.cuts)) isWindow g) fun a b m =>
        FreshQuery a b m.queryId ∧
          m = groupMaskAs q (cutFilters (groups.flatMap ForkGroup.cuts)) isWindow g m.queryId := by
    intro g b
    rw [groupMask_apply]
    exact ⟨(freshQuery_ensures b).1, (freshQuery_ensures b).2, rfl⟩
  have hall := Naming.ensures_mapM (fun g _ _ _ _ _ hab hcd h => ⟨h.1.widen hab hcd, h.2⟩)
    fun g (_ : g ∈ groups) => hone g
  obtain ⟨hnodup, -⟩ := Naming.mapM_queries_nodup
    (fun g => (hone g).imp fun _ _ _ h => h.1) groups a
  exact ⟨(hall a).1, (hall a).2, hnodup⟩

theorem maskOf_group {q : Query} {a b c : Names} {g : ForkGroup} {cut : List Nat} {isWindow : Bool}
    {id : String} (hg : GroupOf q (taken q) a b g) (hab : a.Le b) (hbc : b.Le c)
    (hid : FreshQuery b c id) : MaskOf q a c (groupMaskAs q cut isWindow g id) := by
  obtain ⟨s, hs, hsig, hshifts⟩ := hg.origin
  have hsite := mem_sites_of_taken hs
  refine ⟨hid.widen hab (Names.Le.refl c), ?_, ?_, ?_⟩
  · intro c hc
    obtain ⟨hfresh, t, ht, -, heq⟩ := hg.cut c hc
    refine ⟨hfresh.widen (Names.Le.refl a) hbc, ?_⟩
    rw [heq]
    exact (mem_sites_iff.mp (mem_sites_of_taken ht)).1
  · intro x hx
    refine ⟨(hg.extra x hx).1.widen (Names.Le.refl a) hbc, ?_⟩
    rcases (hg.extra x hx).2 with h | ⟨j, hj, h⟩
    · exact drawn_signature_dim hsite (hsig ▸ h)
    · exact drawn_signature_joining hsite (hsig ▸ hj) h
  · intro e he
    obtain ⟨e₀, he₀, rfl⟩ := List.mem_map.mp he
    exact ⟨e₀, (List.mem_filter.mp he₀).1, s, hsite, by rw [hshifts]⟩

/-! ## What no fork covers -/

/-- A column is needed for what stands at the path. -/
def IsUncut (q : Query) (cuts : List Cut) (p : Part) (i : Nat) (path : Path) : Prop :=
  p ∈ Part.splittable ∧ ∃ e, (q.part p)[i]? = some e ∧ path ∈ uncutEntry q cuts p e i

/-- All places where a column is needed, in order. -/
def uncutPlaces (q : Query) (cuts : List Cut) : List (Part × Nat × Path) :=
  Part.splittable.flatMap fun p => (q.part p).zipIdx.flatMap fun (e, i) =>
    (uncutEntry q cuts p e i).map fun path => (p, i, path)

theorem mem_uncutPlaces_iff {q : Query} {cuts : List Cut} {p : Part} {i : Nat} {path : Path} :
    (p, i, path) ∈ uncutPlaces q cuts ↔ IsUncut q cuts p i path := by
  simp only [uncutPlaces, List.mem_flatMap, List.mem_map, IsUncut]
  constructor
  · rintro ⟨p', hp, ⟨e, j⟩, he, path', hpath, heq⟩
    obtain ⟨rfl, hrest⟩ := Prod.mk.inj heq
    obtain ⟨rfl, rfl⟩ := Prod.mk.inj hrest
    exact ⟨hp, e, List.mem_zipIdx_iff_getElem?.mp he, hpath⟩
  · rintro ⟨hp, e, he, hpath⟩
    exact ⟨p, hp, (e, i), List.mem_zipIdx_iff_getElem?.mpr he, path, hpath, rfl⟩

theorem uncutCuts_ensures (q : Query) (cuts : List Cut) :
    Naming.Ensures (uncutCuts q cuts) fun a b uncut =>
      (∀ c ∈ uncut, FreshColumn a b c.aliasName ∧ c.inner = c.outer ∧
        IsUncut q cuts c.part c.index c.outer) ∧
      ∀ p i path, IsUncut q cuts p i path → ∃ n, ⟨p, i, path, path, n⟩ ∈ uncut := by
  have hone : ∀ place : Part × Nat × Path, Naming.Ensures
      (do return (⟨place.1, place.2.1, place.2.2, place.2.2, ← freshColumn⟩ : Cut)) fun a b c =>
        FreshColumn a b c.aliasName ∧ c = ⟨place.1, place.2.1, place.2.2, place.2.2, c.aliasName⟩ :=
    fun place a => ⟨(freshColumn_ensures a).1, (freshColumn_ensures a).2, rfl⟩
  have hall := Naming.ensures_mapM (fun _ _ _ _ _ _ hab hcd h => ⟨h.1.widen hab hcd, h.2⟩)
    fun place (_ : place ∈ uncutPlaces q cuts) => hone place
  refine hall.imp fun a b uncut huncut => ⟨?_, ?_⟩
  · intro c hc
    obtain ⟨⟨p, i, path⟩, hplace, hfresh, heq⟩ := forall₂_exists_left huncut hc
    rw [heq]
    exact ⟨hfresh, rfl, mem_uncutPlaces_iff.mp hplace⟩
  · intro p i path hplace
    obtain ⟨c, hc, -, heq⟩ :=
      forall₂_exists_right huncut (mem_uncutPlaces_iff.mpr hplace)
    exact ⟨c.aliasName, heq ▸ hc⟩

/-! ## The base -/

theorem drawn_of_groupBy {q : Query} {e : Entry} (h : e ∈ q.groupBy) : Drawn q e.formula :=
  Or.inr ⟨.groupBy, by simp, e, h, Formula.self_mem_nodes _⟩

theorem ownBase_ensures (q : Query) (cuts : List Cut) (filters : List Nat) :
    Naming.Ensures (ownBase q cuts filters) fun a b m =>
      FreshQuery a b m.queryId ∧ m.cuts = cuts ∧ m.isBase = true ∧ m.addFilters = [] ∧
        ∀ x ∈ m.extras, FreshColumn a b x.aliasName ∧ Drawn q x.expr := by
  have hone : ∀ e ∈ q.groupBy, Naming.Ensures
      (do return (⟨← freshColumn, e.formula, e.avatarIds, !e.formula.isConstantExpression⟩ : Extra))
      fun a b x => FreshColumn a b x.aliasName ∧ Drawn q x.expr :=
    fun e he a => ⟨(freshColumn_ensures a).1, (freshColumn_ensures a).2, drawn_of_groupBy he⟩
  have hall := Naming.ensures_mapM
    (fun _ _ _ _ _ _ hab hcd h => ⟨h.1.widen hab hcd, h.2⟩) hone
  refine hall.bind fun a b xs hab hxs => ?_
  obtain ⟨hle, hfresh⟩ := freshQuery_ensures b
  refine ⟨hle, hfresh.widen hab (Names.Le.refl _), rfl, rfl, rfl, fun x hx => ?_⟩
  obtain ⟨e, -, hx⟩ := forall₂_exists_left hxs hx
  exact ⟨hx.1.widen (Names.Le.refl a) hle, hx.2⟩

/-- The positions of the filters that no fork is cut out of. -/
def uncutFilters (q : Query) (masks : List Mask) : List Nat :=
  (List.range q.filters.length).filter fun i =>
    !(cutFilters (masks.flatMap Mask.cuts)).contains i

/-- The mask that can be the base has all dimensions, and it is as good as a base of its own unless
there are none. -/
theorem of_baseCandidate {q : Query} {filters : List Nat} {masks : List Mask} {i : Nat} {m : Mask}
    (h : baseCandidate q filters masks = some i) (hm : masks[i]? = some m) :
    (∀ d ∈ realDimensions q, m.groupByExprs.contains d = true) ∧
      ((groupByCount m = (realDimensions q).eraseDups.length ∧ m.filterIndices = filters ∧
          m.joinsDirectly = true) ∨ realDimensions q = []) := by
  rw [baseCandidate] at h
  split at h
  next m' j hlast =>
    split at h
    next hgood =>
      obtain rfl := Option.some.inj h
      obtain ⟨hmem, hcovers⟩ := List.mem_filter.mp (List.mem_of_getLast? hlast)
      obtain rfl := Option.some.inj ((List.mem_zipIdx_iff_getElem?.mp hmem).symm.trans hm)
      rw [Bool.or_eq_true, List.isEmpty_iff, equalsBase, Bool.and_eq_true, Bool.and_eq_true,
        beq_iff_eq, beq_iff_eq, and_assoc] at hgood
      exact ⟨List.all_eq_true.mp (Bool.and_eq_true_iff.mp hcovers).2, hgood⟩
    next => exact absurd h (by simp)
  next => exact absurd h (by simp)

/-- The mask that becomes the base, with its position. -/
def baseAmong (q : Query) (masks : List Mask) (uncut : List Cut) : Option (Nat × Mask) :=
  (if uncut.isEmpty then baseCandidate q (uncutFilters q masks) masks else none).bind fun i =>
    (masks[i]?).map (i, ·)

theorem withBase_apply (q : Query) (masks : List Mask) (a : Names) :
    withBase q masks a =
      let uncut := uncutCuts q (masks.flatMap Mask.cuts) a
      match baseAmong q masks uncut.1 with
      | some (i, m) => ({ m with isBase := true } :: masks.eraseIdx i, uncut.2)
      | none =>
        let base := ownBase q uncut.1 (uncutFilters q masks) uncut.2
        (base.1 :: masks, base.2) := by
  rw [withBase, Kind.bind_apply]
  dsimp only
  unfold baseAmong uncutFilters
  generalize Option.bind _ _ = found
  cases found <;> rfl

/-- The base is one of the masks, if nothing is left over, or one of its own. -/
theorem withBase_cases (q : Query) (masks : List Mask) (a : Names) :
    (∃ i m, (uncutCuts q (masks.flatMap Mask.cuts) a).1 = [] ∧
      baseCandidate q (uncutFilters q masks) masks = some i ∧ masks[i]? = some m ∧
      withBase q masks a =
        ({ m with isBase := true } :: masks.eraseIdx i,
          (uncutCuts q (masks.flatMap Mask.cuts) a).2)) ∨
    ∃ base, base = ownBase q (uncutCuts q (masks.flatMap Mask.cuts) a).1 (uncutFilters q masks)
        (uncutCuts q (masks.flatMap Mask.cuts) a).2 ∧
      withBase q masks a = (base.1 :: masks, base.2) := by
  have heq := withBase_apply q masks a
  generalize uncutCuts q (masks.flatMap Mask.cuts) a = uncut at heq ⊢
  dsimp only at heq
  cases hbase : baseAmong q masks uncut.1 with
  | none =>
      rw [hbase] at heq
      exact Or.inr ⟨_, rfl, heq⟩
  | some im =>
      rw [hbase] at heq
      obtain ⟨i, hi, him⟩ := Option.bind_eq_some_iff.mp hbase
      obtain ⟨m, hm, rfl⟩ := Option.map_eq_some_iff.mp him
      split at hi
      next hempty => exact Or.inl ⟨i, m, List.isEmpty_iff.mp hempty, hi, hm, heq⟩
      next => cases hi

/-! ## All masks of a round -/

/-- Masks for a query with different names, made while the names from `a` to `b` were taken. -/
structure MasksOf (q : Query) (a b : Names) (masks : List Mask) : Prop where
  mask : ∀ m ∈ masks, MaskOf q a b m
  nodup : (masks.map Mask.queryId).Nodup

theorem MasksOf.widen {q : Query} {a b c : Names} {masks : List Mask} (hbc : b.Le c)
    (h : MasksOf q a b masks) : MasksOf q a c masks :=
  ⟨fun m hm => (h.mask m hm).widen hbc, h.nodup⟩

section Stages

variable {q : Query} {a b : Names} {masks : List Mask}

theorem withBase_spec (hab : a.Le b) (h : MasksOf q a b masks) :
    b.Le (withBase q masks b).2 ∧ MasksOf q a (withBase q masks b).2 (withBase q masks b).1 ∧
      ∀ c, c ∈ (withBase q masks b).1.flatMap Mask.cuts ↔
        c ∈ masks.flatMap Mask.cuts ∨ c ∈ (uncutCuts q (masks.flatMap Mask.cuts) b).1 := by
  obtain ⟨hle, huncut, -⟩ := uncutCuts_ensures q (masks.flatMap Mask.cuts) b
  rcases withBase_cases q masks b with ⟨i, m, hnil, -, hm, heq⟩ | ⟨base, rfl, heq⟩
  · have hperm := perm_eraseIdx hm
    have hwide := h.widen hle
    rw [heq]
    refine ⟨hle, ⟨?_, ?_⟩, ?_⟩
    · intro m' hm'
      rcases List.mem_cons.mp hm' with rfl | hm'
      · have hmask := hwide.mask m (List.mem_of_getElem? hm)
        exact ⟨hmask.queryId, hmask.cut, hmask.extra, hmask.addFilter⟩
      · exact hwide.mask m' (hperm.subset (List.mem_cons_of_mem m hm'))
    · exact ((hperm.map Mask.queryId).nodup_iff).mpr h.nodup
    · intro c
      rw [hnil, or_iff_left List.not_mem_nil]
      exact (hperm.flatMap_right Mask.cuts).mem_iff
  · obtain ⟨hle', hid, hcuts, -, hadd, hextra⟩ := ownBase_ensures q
      (uncutCuts q (masks.flatMap Mask.cuts) b).1 (uncutFilters q masks)
      (uncutCuts q (masks.flatMap Mask.cuts) b).2
    have hwide := h.widen (hle.trans hle')
    rw [heq]
    refine ⟨hle.trans hle', ⟨?_, ?_⟩, ?_⟩
    · intro m hm
      rcases List.mem_cons.mp hm with rfl | hm
      · refine ⟨hid.widen (hab.trans hle) (Names.Le.refl _), ?_, ?_, ?_⟩
        · intro c hc
          obtain ⟨hfresh, -, hplace⟩ := huncut c (hcuts ▸ hc)
          exact ⟨hfresh.widen hab hle', hplace.1⟩
        · intro x hx
          exact ⟨(hextra x hx).1.widen (hab.trans hle) (Names.Le.refl _), (hextra x hx).2⟩
        · intro e he
          exact absurd (hadd ▸ he) List.not_mem_nil
      · exact hwide.mask m hm
    · refine List.nodup_cons.mpr ⟨fun hmem => ?_, h.nodup⟩
      obtain ⟨m, hm, hid'⟩ := List.mem_map.mp hmem
      exact FreshQuery.ne (hab.trans hle) ((h.widen hle).mask m hm).queryId hid hid'
    · intro c
      rw [List.flatMap_cons, List.mem_append, hcuts]
      exact or_comm

theorem mem_addExtras {extras new : List Extra} {x : Extra} (h : x ∈ addExtras extras new) :
    x ∈ extras ∨ x ∈ new := by
  induction new generalizing extras with
  | nil => exact Or.inl h
  | cons y ys ih =>
      rcases ih h with h | h
      · dsimp only at h
        split at h
        · exact Or.inl h
        · rcases List.mem_append.mp h with h | h
          · exact Or.inl h
          · exact Or.inr (List.mem_singleton.mp h ▸ List.mem_cons_self)
      · exact Or.inr (List.mem_cons_of_mem y h)

theorem mergeWindows_eq (base : Mask) (others : List Mask) :
    mergeWindows (base :: others) = base :: others ∨
      ∃ other, others = [other] ∧ (base.isWindow || other.isWindow) = true ∧
        mergeWindows (base :: others) =
          [{ base with
             extras := addExtras base.extras other.extras
             cuts := base.cuts ++ other.cuts
             filterIndices := other.filterIndices
             addFilters := other.addFilters }] := by
  unfold mergeWindows
  split
  next base' other heq =>
    obtain ⟨rfl, rfl⟩ := List.cons.inj heq
    split
    next hwindow => exact Or.inr ⟨other, rfl, hwindow, rfl⟩
    next => exact Or.inl rfl
  next => exact Or.inl rfl

theorem mergeWindows_cuts (masks : List Mask) :
    (mergeWindows masks).flatMap Mask.cuts = masks.flatMap Mask.cuts := by
  cases masks with
  | nil => rfl
  | cons base others =>
      rcases mergeWindows_eq base others with hsame | ⟨other, rfl, -, hmerged⟩
      · rw [hsame]
      · simp [hmerged]

theorem mergeWindows_spec (h : MasksOf q a b masks) : MasksOf q a b (mergeWindows masks) := by
  cases masks with
  | nil => exact h
  | cons base others =>
      rcases mergeWindows_eq base others with hsame | ⟨other, rfl, -, hmerged⟩
      · rwa [hsame]
      · rw [hmerged]
        have hbase := h.mask base (by simp)
        have hother := h.mask other (by simp)
        refine ⟨fun m hm => ?_, List.nodup_singleton _⟩
        obtain rfl := List.mem_singleton.mp hm
        refine ⟨hbase.queryId, fun c hc => ?_, fun x hx => ?_, hother.addFilter⟩
        · exact (List.mem_append.mp hc).elim (hbase.cut c) (hother.cut c)
        · exact (mem_addExtras hx).elim (hbase.extra x) (hother.extra x)

theorem addFresh_apply (extras : List Extra) (x : Extra) (a : Names) :
    addFresh extras x a =
      if (aliasIn extras x.expr).isSome then (extras, a)
      else (extras ++ [{ x with aliasName := (freshColumn a).1 }], (freshColumn a).2) := by
  rw [addFresh]
  split <;> rfl

theorem completeBase_cons (base : Mask) (others : List Mask) (b : Names) :
    completeBase (base :: others) b =
      let extras := (others.flatMap Mask.extras).foldlM addFresh base.extras b
      ({ base with extras := extras.1 } :: others, extras.2) := rfl

theorem completeBase_cuts (masks : List Mask) (b : Names) :
    (completeBase masks b).1.flatMap Mask.cuts = masks.flatMap Mask.cuts := by
  cases masks <;> rfl

theorem completeBase_spec (hab : a.Le b) (h : MasksOf q a b masks) :
    b.Le (completeBase masks b).2 ∧
      MasksOf q a (completeBase masks b).2 (completeBase masks b).1 := by
  cases masks with
  | nil => exact ⟨Names.Le.refl b, h⟩
  | cons base others =>
      have hbase := h.mask base List.mem_cons_self
      let I (_ : List Extra) (a b : Names) (xs : List Extra) : Prop :=
        ∀ x ∈ xs, FreshColumn a b x.aliasName ∧ Drawn q x.expr
      have hstart : I [] a b base.extras := hbase.extra
      have hstep : ∀ done, ∀ x ∈ others.flatMap Mask.extras, ∀ a b xs, a.Le b → I done a b xs →
          b.Le (addFresh xs x b).2 ∧ I (done ++ [x]) a (addFresh xs x b).2 (addFresh xs x b).1 := by
        intro done x hx c d xs hcd hxs
        obtain ⟨m, hm, hxm⟩ := List.mem_flatMap.mp hx
        have hdrawn := ((h.mask m (List.mem_cons_of_mem base hm)).extra x hxm).2
        obtain ⟨hle, hfresh⟩ := freshColumn_ensures d
        rw [addFresh_apply]
        split
        · exact ⟨Names.Le.refl d, hxs⟩
        · refine ⟨hle, fun y hy => ?_⟩
          rcases List.mem_append.mp hy with hy | hy
          · exact ⟨(hxs y hy).1.widen (Names.Le.refl c) hle, (hxs y hy).2⟩
          · obtain rfl := List.mem_singleton.mp hy
            exact ⟨hfresh.widen hcd (Names.Le.refl _), hdrawn⟩
      obtain ⟨hle, hextras⟩ := Naming.ensures_foldlM hstep [] hab hstart
      refine ⟨hle, fun m hm => ?_, h.nodup⟩
      rcases List.mem_cons.mp hm with rfl | hm
      · have hwide := hbase.widen hle
        exact ⟨hwide.queryId, hwide.cut, hextras, hwide.addFilter⟩
      · exact (h.mask m (List.mem_cons_of_mem base hm)).widen hle

end Stages

/-! ## The plan -/

/-- The cuts of a plan: `forks` at the forks that are taken, the others at what these leave over. -/
structure CutsOf (q : Query) (forks all : List Cut) : Prop where
  fork : ∀ c ∈ forks, ∃ s ∈ taken q, c = s.cut c.aliasName
  site : ∀ s ∈ taken q, ∃ n, s.cut n ∈ forks
  fork_mem : ∀ c ∈ forks, c ∈ all
  other : ∀ c ∈ all, c ∈ forks ∨ (c.inner = c.outer ∧ IsUncut q forks c.part c.index c.outer)
  uncut_mem : ∀ p i path, IsUncut q forks p i path → ∃ n, ⟨p, i, path, path, n⟩ ∈ all

/-- The masks of a plan, made while the names from `a` to `b` were taken. -/
structure Planned (q : Query) (a b : Names) (p : Plan) : Prop where
  masks : MasksOf q a b p.masks
  cuts : ∃ forks, CutsOf q forks (p.masks.flatMap Mask.cuts)

/-- The stages of planning, one after another. -/
theorem plan_apply (q : Query) (a : Names) :
    plan q a =
      let groups := forkGroups q (taken q) a
      if groups.1.isEmpty then (none, groups.2)
      else
        let masks := groupMasks q (prioritized (sites q)).1 groups.1 groups.2
        let based := withBase q masks.1 masks.2
        let done := completeBase (mergeWindows based.1) based.2
        (some ⟨done.1, dimensionsCompatible q masks.1⟩, done.2) := by
  rw [plan, taken]
  dsimp only
  rw [Kind.bind_apply]
  split <;> rfl

theorem forkGroups_eq_nil_iff {q : Query} {found : List Site} {a : Names} :
    (forkGroups q found a).1 = [] ↔ found = [] := by
  constructor
  · intro hnil
    refine List.eq_nil_iff_forall_not_mem.mpr fun s hs => ?_
    obtain ⟨n, hn⟩ := (forkGroups_spec q found a).2.2 s hs
    rw [hnil] at hn
    exact absurd hn List.not_mem_nil
  · rintro rfl
    rfl

/-- There is no plan exactly if the query has no fork that a round could take. -/
theorem plan_eq_none_iff {q : Query} {a : Names} : (plan q a).1 = none ↔ sites q = [] := by
  rw [← prioritized_eq_nil_iff, ← taken, ← forkGroups_eq_nil_iff (q := q) (a := a),
    ← List.isEmpty_iff, plan_apply]
  dsimp only
  split <;> simp_all

/-- The masks of the groups of a round, with the names after them. -/
def forkMasks (q : Query) (a : Names) : List Mask × Names :=
  let groups := forkGroups q (taken q) a
  groupMasks q (prioritized (sites q)).1 groups.1 groups.2

theorem exists_group_of_mask {q : Query} {a : Names} {m : Mask} (hm : m ∈ (forkMasks q a).1) :
    ∃ g ∈ (forkGroups q (taken q) a).1, m = groupMaskAs q
      (cutFilters ((forkGroups q (taken q) a).1.flatMap ForkGroup.cuts))
      (prioritized (sites q)).1 g m.queryId := by
  obtain ⟨-, hmasks, -⟩ := groupMasks_spec q (prioritized (sites q)).1
    (forkGroups q (taken q) a).1 (forkGroups q (taken q) a).2
  obtain ⟨g, hg, -, heq⟩ := forall₂_exists_left hmasks hm
  exact ⟨g, hg, heq⟩

/-- The masks have in the same order what they take over from their groups. -/
theorem flatMap_forkMasks {q : Query} {α : Type} {f : Mask → List α} {f' : ForkGroup → List α}
    (h : ∀ cut isWindow g id, f (groupMaskAs q cut isWindow g id) = f' g) (a : Names) :
    (forkMasks q a).1.flatMap f = (forkGroups q (taken q) a).1.flatMap f' := by
  obtain ⟨-, hmasks, -⟩ := groupMasks_spec q (prioritized (sites q)).1
    (forkGroups q (taken q) a).1 (forkGroups q (taken q) a).2
  refine (flatMap_eq_of_forall₂ (hmasks.imp fun g m hm => ?_)).symm
  rw [hm.2, h]

theorem cuts_forkMasks (q : Query) (a : Names) :
    (forkMasks q a).1.flatMap Mask.cuts =
      (forkGroups q (taken q) a).1.flatMap ForkGroup.cuts :=
  flatMap_forkMasks (fun _ _ _ _ => rfl) a

/-- A plan comes from the masks of the groups by adding and completing a base. -/
theorem plan_eq_some {q : Query} {a b : Names} {p : Plan} (h : plan q a = (some p, b)) :
    ∃ based, based = withBase q (forkMasks q a).1 (forkMasks q a).2 ∧
      p = ⟨(completeBase (mergeWindows based.1) based.2).1,
        dimensionsCompatible q (forkMasks q a).1⟩ ∧
      b = (completeBase (mergeWindows based.1) based.2).2 := by
  rw [plan_apply] at h
  dsimp only at h
  split at h
  · exact absurd (Prod.mk.inj h).1 (by simp)
  · obtain ⟨hp, hb⟩ := Prod.mk.inj h
    exact ⟨_, rfl, (Option.some.inj hp).symm, hb.symm⟩

/-- The masks of the groups cut exactly the forks that are taken. -/
theorem forkMasks_spec (q : Query) (a : Names) :
    a.Le (forkMasks q a).2 ∧ MasksOf q a (forkMasks q a).2 (forkMasks q a).1 ∧
      (∀ c ∈ (forkMasks q a).1.flatMap Mask.cuts, ∃ s ∈ taken q, c = s.cut c.aliasName) ∧
      ∀ s ∈ taken q, ∃ n, s.cut n ∈ (forkMasks q a).1.flatMap Mask.cuts := by
  obtain ⟨hle, hgroups, htaken⟩ := forkGroups_spec q (taken q) a
  obtain ⟨hle', hmasks, hnodup⟩ := groupMasks_spec q (prioritized (sites q)).1
    (forkGroups q (taken q) a).1 (forkGroups q (taken q) a).2
  refine ⟨hle.trans hle', ⟨fun m hm => ?_, hnodup⟩, ?_, ?_⟩
  · obtain ⟨g, hg, hid, heq⟩ := forall₂_exists_left hmasks hm
    rw [heq]
    exact maskOf_group (hgroups g hg) hle hle' hid
  · intro c hc
    rw [cuts_forkMasks] at hc
    obtain ⟨g, hg, hcg⟩ := List.mem_flatMap.mp hc
    obtain ⟨-, s, hs, -, heq⟩ := (hgroups g hg).cut c hcg
    exact ⟨s, hs, heq⟩
  · rw [cuts_forkMasks]
    exact htaken

theorem plan_spec {q : Query} {a b : Names} {p : Plan} (h : plan q a = (some p, b)) :
    a.Le b ∧ Planned q a b p := by
  obtain ⟨based, rfl, rfl, rfl⟩ := plan_eq_some h
  obtain ⟨hle, hmasks, hfork, hsite⟩ := forkMasks_spec q a
  obtain ⟨hle', hbased, hcuts⟩ := withBase_spec hle hmasks
  obtain ⟨hle'', hdone⟩ := completeBase_spec (hle.trans hle') (mergeWindows_spec hbased)
  obtain ⟨-, huncut, hplaces⟩ := uncutCuts_ensures q ((forkMasks q a).1.flatMap Mask.cuts)
    (forkMasks q a).2
  refine ⟨(hle.trans hle').trans hle'', hdone, (forkMasks q a).1.flatMap Mask.cuts, ?_⟩
  rw [completeBase_cuts, mergeWindows_cuts]
  refine ⟨hfork, hsite, ?_, ?_, ?_⟩
  · exact fun c hc => (hcuts c).mpr (Or.inl hc)
  · exact fun c hc => ((hcuts c).mp hc).imp id fun hc => (huncut c hc).2
  · intro p i path hplace
    obtain ⟨n, hn⟩ := hplaces p i path hplace
    exact ⟨n, (hcuts _).mpr (Or.inr hn)⟩

end FormulaSql.Split
