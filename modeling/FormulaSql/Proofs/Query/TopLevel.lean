import FormulaSql.Proofs.Query.Keeping

/-!
# Dimensions at the top of formulas

The aggregations at the top of a formula are computed at dimensions of the query. A fork that is
made there is at dimensions of the query, too.

* `Formula.topLevel_transform` says so for the rules that make forks of lookups and window calls
* `Formula.topLevel_levelOfDetail` says so for levels of detail
-/

namespace FormulaSql

namespace Formula

/-! ## Dimensions at the top -/

/-- The dimensions of all aggregations and forks that are not inside another one. -/
def topDimensions (dims : List Formula) : Formula → List Formula := recur fun f k =>
  match f.lod? with
  | some lod => lod.resolve dims
  | none => k.autonomous.flatten

/-- At the top of the formula there are only dimensions of the query. -/
def TopLevel (dims : List Formula) (f : Formula) : Prop :=
  ∀ d ∈ f.topDimensions dims, dims.contains d = true

section TopLevel

variable {dims above : List Formula} {rule : Rule} {f g r : Formula}

theorem topDimensions_of_some {l : Lod Formula} (h : f.lod? = some l) :
    f.topDimensions dims = l.resolve dims := by
  rw [topDimensions, recur_eq, h]

theorem topDimensions_of_none (h : f.lod? = none) :
    f.topDimensions dims = f.autonomous.flatMap (topDimensions dims) := by
  rw [topDimensions, recur_eq, h, Kind.autonomous_map, List.flatMap]
  rfl

theorem contains_foldl_pushUnique {fs ds : List Formula} {d : Formula}
    (h : fs.contains d = true ∨ d ∈ ds) : (ds.foldl pushUnique fs).contains d = true := by
  induction ds generalizing fs with
  | nil => exact h.resolve_right List.not_mem_nil
  | cons c ds ih =>
      apply ih
      rw [pushUnique]
      rcases h with h | h
      · left
        split
        · exact h
        · obtain ⟨x, hx, hsame⟩ := contains_eq_true.mp h
          exact contains_eq_true.mpr ⟨x, List.mem_append_left _ hx, hsame⟩
      · rcases List.mem_cons.mp h with rfl | h
        · left
          split
          next hd => exact hd
          next => exact contains_eq_true.mpr ⟨d, by simp, BEq.rfl⟩
        · exact Or.inr h

theorem checkTopLevel_iff : Normalize.checkTopLevel f dims = .ok () ↔ f.TopLevel dims := by
  have hfound : f.topLevelDimensions dims = (f.topDimensions dims).foldl pushUnique [] := rfl
  have hall : Normalize.allIn (f.topLevelDimensions dims) dims = true ↔ f.TopLevel dims := by
    rw [Normalize.allIn, List.all_eq_true, hfound]
    constructor
    · intro h d hd
      obtain ⟨d', hd', hsame⟩ := contains_eq_true.mp (contains_foldl_pushUnique (Or.inr hd))
      obtain ⟨x, hx, hsame'⟩ := contains_eq_true.mp (h d' hd')
      exact contains_eq_true.mpr ⟨x, hx, BEq.trans hsame hsame'⟩
    · exact forall_pushUnique fun _ hd => absurd hd List.not_mem_nil
  rw [← hall, Normalize.checkTopLevel]
  split
  next h => simp [h]
  next h => simp [h]

theorem topLevel_of_some {l : Lod Formula} (h : f.lod? = some l) :
    f.TopLevel dims ↔ ∀ d ∈ l.resolve dims, dims.contains d = true := by
  rw [TopLevel, topDimensions_of_some h]

theorem topLevel_of_none (h : f.lod? = none) :
    f.TopLevel dims ↔ ∀ c ∈ f.autonomous, c.TopLevel dims := by
  rw [TopLevel, topDimensions_of_none h]
  simp only [List.mem_flatMap, forall_exists_index, and_imp]
  exact ⟨fun h c hc d hd => h d c hc hd, fun h d c hc hd => h c hc d hd⟩

theorem topLevel_of_isError (h : f.isError = true) : f.TopLevel dims := by
  obtain ⟨message, code, hk⟩ := kind_of_isError h
  refine (topLevel_of_none (by rw [lod?, hk])).mpr fun c hc => ?_
  rw [autonomous, hk] at hc
  exact absurd hc List.not_mem_nil

theorem topLevel_fork {q : Fork Formula} {notes : Notes}
    (h : ∀ d ∈ q.lod.resolve dims, dims.contains d = true) :
    (mk (.fork q) notes).TopLevel dims :=
  (topLevel_of_some (lod?_of_fork rfl)).mpr h

theorem topLevel_withChildren {cs : List Formula} (hf : f.Regular)
    (hcs : List.Forall₂ Passes f.children cs)
    (htop : List.Forall₂ (fun c d => c.TopLevel dims → d.TopLevel dims) f.children cs)
    (h : f.TopLevel dims) : (f.withChildren cs).TopLevel dims := by
  have hlod := lod?_withChildren hf hcs
  cases hown : f.lod? with
  | some l =>
      rw [topLevel_of_some (hlod.trans hown)]
      exact (topLevel_of_some hown).mp h
  | none =>
      rw [topLevel_of_none (hlod.trans hown)]
      intro d hd
      rw [autonomous, Kind.autonomous,
        Kind.autonomousCount_eq_of_outline (outline_withChildren f cs)] at hd
      obtain ⟨c, hc, hcd⟩ := forall₂_exists_left
        (List.forall₂_take f.kind.autonomousCount (forall₂_withChildren htop)) hd
      exact hcd ((topLevel_of_none hown).mp h c hc)

theorem contains_of_mem {d : Formula} (h : d ∈ dims) : dims.contains d = true :=
  contains_eq_true.mpr ⟨d, h, BEq.rfl⟩

end TopLevel

end Formula

/-- What the rule offers has the dimensions of the query at its top if the node has. -/
def Rule.KeepsTop (dims : List Formula) (rule : Rule) : Prop :=
  ∀ above g r, rule above g = some r → g.TopLevel dims → r.TopLevel dims

namespace Formula

section KeepsTop

variable {dims above : List Formula} {rule : Rule} {f g r : Formula}

theorem keepsTop_lookups (allowEmpty : Bool) :
    Rule.KeepsTop dims (Normalize.lookups dims allowEmpty) := by
  intro above g r hr _
  obtain ⟨c, kind, -, herror | ⟨measure, dimension, rest, -, rfl⟩⟩ := Normalize.lookups_cases hr
  · exact topLevel_of_isError herror
  · exact topLevel_fork fun d hd => contains_of_mem hd

theorem keepsTop_windowForks : Rule.KeepsTop dims (Normalize.windowForks dims) := by
  intro above g r hr _
  obtain ⟨w, -, rfl⟩ := Normalize.windowForks_cases hr
  refine topLevel_fork (forall_resolve (fun d hd => contains_of_mem hd) fun d hd => ?_)
  exact contains_of_mem hd

theorem keepsTop_laterFilters (available : NameSet) :
    Rule.KeepsTop dims (Normalize.laterFilters available) := by
  intro above g r hr hg
  rcases Normalize.laterFilters_cases hr with ⟨w, filters, hk, rfl⟩ | ⟨q, filters, hk, rfl⟩
  · rw [topLevel_of_none (by rw [lod?, hk]), autonomous, hk] at hg
    exact (topLevel_of_none rfl).mpr hg
  · exact topLevel_fork ((topLevel_of_some (lod?_of_fork hk)).mp hg)

theorem keepsTop_levelTags : Rule.KeepsTop dims Normalize.levelTags := by
  intro above g r hr hg
  obtain ⟨w, notes, -, rfl⟩ := Normalize.levelTags_cases hr
  exact (topLevel_of_none rfl).mpr fun c hc => List.mem_singleton.mp hc ▸ hg

theorem topLevel_transform (hrule : rule.KeepsFlat) (htop : rule.KeepsTop dims) (hf : f.Regular)
    (h : f.TopLevel dims) : (f.transform rule).TopLevel dims := by
  refine (transform_passes (Q := fun _ => True)
    (R := fun f g => f.TopLevel dims → g.TopLevel dims) hrule (fun _ _ _ _ => trivial)
    (fun _ _ _ => id) (fun f cs _ hf hcs => ?_) (fun above f g r _ _ _ hfg hr => ?_) trivial hf).2 h
  · exact topLevel_withChildren hf (hcs.imp fun _ _ h => h.1) (hcs.imp fun _ _ h => h.2)
  · exact fun hf => htop above g r hr (hfg hf)

theorem contextDimensions_of_none (h : ∀ a ∈ above, a.lod? = none) :
    contextDimensions dims above = dims := by
  induction above with
  | nil => rfl
  | cons a above ih =>
      rw [List.forall_mem_cons] at h
      have hhead : contextDimensions dims (a :: above) = contextDimensions dims above := by
        simp only [contextDimensions, List.foldl_cons, h.1]
        rfl
      rw [hhead, ih h.2]

theorem not_isAggregateCall_of_lod? (h : f.lod? = none) : f.isAggregateCall = false := by
  rw [← Bool.not_eq_true]
  intro haggregate
  obtain ⟨c, hk, hname⟩ := exists_call_of_isAggregateCall haggregate
  rw [lod?_of_call hk, hname] at h
  exact absurd h (by simp)

/-- The nodes above one at the top have no level of detail, so its fork is at the dimensions that the
aggregation had. -/
theorem topLevel_offered (hdims : ∀ d ∈ dims, d.Flat)
    (habove : ∀ a ∈ above, a.Regular ∧ a.lod? = none) (hf : f.Regular) (h : f.TopLevel dims) :
    (f.offered (Normalize.levelOfDetail dims) above).TopLevel dims := by
  have hrule := Normalize.alters_levelOfDetail dims
  induction f using induction_children generalizing above with
  | step f ih =>
      have hhere : ∀ a ∈ above ++ [f], a.Regular :=
        List.forall_mem_append.mpr ⟨fun a ha => (habove a ha).1, List.forall_mem_singleton.mpr hf⟩
      have hpasses : List.Forall₂ Passes f.children
          (f.children.map (offered (Normalize.levelOfDetail dims) (above ++ [f]))) := by
        rw [List.forall₂_map_right_iff]
        refine List.forall₂_same.mpr fun c hc => ?_
        rw [← transformChild_eq_offered hrule.renews]
        exact passes_transformChild (keepsFlat_levelOfDetail hdims) (hf.of_child hc) hhere
      have hlod : (f.rebuilt (Normalize.levelOfDetail dims) above).lod? = f.lod? :=
        lod?_withChildren hf hpasses
      rw [offered_eq hrule.renews]
      cases hown : f.lod? with
      | none =>
          have hnone := not_isAggregateCall_of_lod? (hlod.trans hown)
          rw [Normalize.levelOfDetail_none_of_not_aggregate hnone, Option.getD_none]
          refine topLevel_withChildren hf hpasses ?_ h
          rw [List.forall₂_map_right_iff]
          refine List.forall₂_same.mpr fun c hc htop => ?_
          refine ih c hc ?_ (hf.of_child hc) htop
          exact List.forall_mem_append.mpr ⟨habove, List.forall_mem_singleton.mpr ⟨hf, hown⟩⟩
      | some l =>
          rw [topLevel_of_some hown] at h
          cases hr : Normalize.levelOfDetail dims above
              (f.rebuilt (Normalize.levelOfDetail dims) above) with
          | none => exact (topLevel_of_some (hlod.trans hown)).mpr h
          | some r =>
              obtain ⟨c, hk, haggregate, herror | rfl⟩ := Normalize.levelOfDetail_cases hr
              · exact topLevel_of_isError herror
              · have hl : some c.lod = some l := by
                  rw [← hown, ← hlod, lod?_of_call hk, haggregate, if_pos rfl]
                rw [contextDimensions_of_none fun a ha => (habove a ha).2, Option.some.inj hl]
                exact topLevel_fork (forall_resolve (fun d hd => contains_of_mem hd) h)

theorem topLevel_levelOfDetail (hdims : ∀ d ∈ dims, d.Flat) (hf : f.Regular)
    (h : f.TopLevel dims) : (f.transform (Normalize.levelOfDetail dims)).TopLevel dims := by
  rw [transform_eq_offered (Normalize.alters_levelOfDetail dims).renews]
  exact topLevel_offered hdims (fun _ ha => absurd ha List.not_mem_nil) hf h

end KeepsTop

end Formula

end FormulaSql
