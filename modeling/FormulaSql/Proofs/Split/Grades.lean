import FormulaSql.Proofs.Query.Grouping
import FormulaSql.Proofs.Query.TopLevel
import FormulaSql.Proofs.Split.Groups

/-!
# Formulas with forks at their dimensions

The checker takes every fork for a value of each group and does not look inside. A graded formula
passes a closer look: what stands beside forks has a value for each group even where it is inside
an aggregation, and the result of each fork is graded at the dimensions of the fork.

* `Formula.isGraded_plain`, `Formula.isGraded_node` and `Formula.isGraded_fork` are the closer look,
  node by node
* `Formula.isGraded_mono` says that dimensions can be added
-/

namespace FormulaSql

/-- The dimensions that a level of detail gives, as they are written. -/
def Lod.dimsIn (outer : List Formula) : Lod Formula → List Formula
  | .fixed dims => dims
  | lod => lod.resolve outer

/-- The dimensions that a level of detail gives whatever is around it. -/
def Lod.least : Lod Formula → List Formula
  | .fixed dims => dims
  | .including dims => dims
  | _ => []

namespace Formula

variable {dims dims' : List Formula} {f g c : Formula} {k : Fork Formula}

/-! ## Forks on the surface -/

/-- A fork is met on the surface. -/
def isForked (f : Formula) : Bool := f.surface.any isFork

/-- A node of the given kind stands over a fork. -/
def standsOver (p : Formula → Bool) (f : Formula) : Bool :=
  f.surface.any fun g => p g && g.isForked

/-- Aggregations stand over forks at the top only. -/
def isShaped (f : Formula) : Bool :=
  f.isFork || f.autonomous.all fun c => !c.standsOver isAggregateCall

theorem isForked_of_isFork (h : f.isFork = true) : f.isForked = true :=
  List.any_eq_true.mpr ⟨f, self_mem_surface f, h⟩

theorem isForked_iff :
    f.isForked = true ↔ f.isFork = true ∨ ∃ c ∈ f.autonomous, c.isForked = true := by
  constructor
  · intro h
    obtain ⟨g, hg, hfork⟩ := List.any_eq_true.mp h
    rcases mem_surface_iff.mp hg with rfl | ⟨-, c, hc, hg⟩
    · exact Or.inl hfork
    · exact Or.inr ⟨c, hc, List.any_eq_true.mpr ⟨g, hg, hfork⟩⟩
  · rintro (h | ⟨c, hc, h⟩)
    · exact isForked_of_isFork h
    · by_cases hf : f.isFork = true
      · exact isForked_of_isFork hf
      · obtain ⟨g, hg, hfork⟩ := List.any_eq_true.mp h
        exact List.any_eq_true.mpr
          ⟨g, mem_surface_of_autonomous (Bool.eq_false_iff.mpr hf) hc hg, hfork⟩

theorem not_isForked_iff :
    f.isForked = false ↔ f.isFork = false ∧ ∀ c ∈ f.autonomous, c.isForked = false := by
  rw [← Bool.not_eq_true, isForked_iff, not_or, Bool.not_eq_true]
  simp

/-- Nothing stands over forks if it does so neither at the top nor below. -/
theorem not_standsOver_iff {p : Formula → Bool} :
    f.standsOver p = false ↔ (p f = true → f.isForked = false) ∧
      (f.isFork = false → ∀ c ∈ f.autonomous, c.standsOver p = false) := by
  have hsurface : f.standsOver p = false ↔
      f.OnSurface fun g => p g = true → g.isForked = false := by
    rw [standsOver, List.any_eq_false, OnSurface]
    exact forall₂_congr fun g _ => by simp
  rw [hsurface, onSurface_iff]
  refine and_congr_right fun _ => forall_congr' fun _ => forall₂_congr fun c _ => ?_
  rw [standsOver, List.any_eq_false, OnSurface]
  exact forall₂_congr fun g _ => by simp

theorem not_standsOver_of_not_isForked {p : Formula → Bool} (h : f.isForked = false) :
    f.standsOver p = false := by
  refine List.any_eq_false.mpr fun g hg => ?_
  have hplain : g.isForked = false := List.any_eq_false.mpr fun x hx =>
    List.any_eq_false.mp h x (mem_surface_trans hg hx)
  simp [hplain]

theorem isShaped_of_not_standsOver (h : f.standsOver isAggregateCall = false) :
    f.isShaped = true := by
  rw [isShaped, Bool.or_eq_true]
  by_cases hfork : f.isFork = true
  · exact Or.inl hfork
  · refine Or.inr (List.all_eq_true.mpr fun c hc => ?_)
    simp [(not_standsOver_iff.mp h).2 (Bool.eq_false_iff.mpr hfork) c hc]

theorem isShaped_of_not_isForked (h : f.isForked = false) : f.isShaped = true :=
  isShaped_of_not_standsOver (not_standsOver_of_not_isForked h)

theorem not_standsOver_of_isShaped (h : f.isShaped = true) (hfork : f.isFork = false)
    (hc : c ∈ f.autonomous) : c.standsOver isAggregateCall = false := by
  rw [isShaped, hfork, Bool.false_or, List.all_eq_true] at h
  simpa using h c hc

/-! ## Values of rows -/

/-- The formula has a value for each row, and it may be another one in each row of a group. -/
def IsRowValue (f : Formula) : Prop := f.PerRow [] ∧ ¬ f.PerGroup []

/-- A formula that can be grouped by. -/
def IsKey (f : Formula) : Prop := f.isConstantExpression = true ∨ f.IsRowValue

instance (dims : List Formula) (f : Formula) : Decidable (f.PerGroup dims) :=
  decidable_of_iff ((f.groupState dims true).toOption.any (· != .unaggregated) = true) (by
    rw [perGroup_iff]
    cases f.groupState dims true <;> simp [Except.toOption])

instance (dims : List Formula) (f : Formula) : Decidable (f.PerRow dims) :=
  decidable_of_iff ((f.groupState dims true).toOption.any (· != .aggregated) = true) (by
    rw [perRow_iff]
    cases f.groupState dims true <;> simp [Except.toOption])

instance (f : Formula) : Decidable f.IsRowValue := inferInstanceAs (Decidable (_ ∧ _))

instance (f : Formula) : Decidable f.IsKey := inferInstanceAs (Decidable (_ ∨ _))

theorem IsKey.perRow (h : f.IsKey) : f.PerRow [] := h.elim perRow_of_constant And.left

theorem not_isForked_of_perRow (h : f.PerRow []) : f.isForked = false := by
  induction f using induction_children with
  | step f ih =>
      obtain ⟨hgathers, hbelow⟩ := (perRow_iff_node (by simp)).mp h
      simp only [gathers, Bool.or_eq_false_iff] at hgathers
      refine not_isForked_iff.mpr ⟨hgathers.1.1, fun c hc => ?_⟩
      exact ih c (mem_children_of_autonomous hc) (hbelow c hc)

/-! ## Graded formulas -/

/-- What no fork covers has a value for each group, and so inside each fork, at its dimensions.
Aggregations in join conditions are computed beside the result of a fork. -/
def isGraded : Formula → List Formula → Bool := recur fun f below dims =>
  match f.fork?, below with
  | some k, .fork below =>
    let own := k.lod.dimsIn dims
    k.lod.dims.all (fun d => decide d.IsKey) && (k.result.isShaped && below.result own) &&
      ((k.joining.flatMap JoinCondition.parts).zip
        (below.joining.flatMap JoinCondition.parts)).all fun (g, graded) =>
          !g.isAggregateExpression || (g.isShaped && graded own)
  | _, below =>
    if f.isForked then below.autonomous.all (· dims) else decide (f.PerGroup dims)

theorem isGraded_plain (h : f.isForked = false) :
    f.isGraded dims = true ↔ f.PerGroup dims := by
  have hfork : f.fork? = none := by
    simpa [isFork] using (not_isForked_iff.mp h).1
  rw [isGraded, recur_eq, hfork]
  simp [h]

theorem isGraded_node (hfork : f.isFork = false) (h : f.isForked = true) :
    f.isGraded dims = true ↔ ∀ c ∈ f.autonomous, c.isGraded dims = true := by
  have hnone : f.fork? = none := by simpa [isFork] using hfork
  rw [isGraded, recur_eq, hnone]
  simp only [h, if_true, Kind.autonomous_map, List.all_map, List.all_eq_true]
  rfl

theorem parts_map {β : Type} (r : Formula → β) (js : List (JoinCondition Formula)) :
    (js.map (·.map r)).flatMap JoinCondition.parts = (js.flatMap JoinCondition.parts).map r := by
  induction js with
  | nil => rfl
  | cons j js ih =>
      rw [List.map_cons, List.flatMap_cons, List.flatMap_cons, List.map_append, ih]
      cases j <;> rfl

theorem isGraded_fork (hk : f.fork? = some k) :
    f.isGraded dims = true ↔ (∀ d ∈ k.lod.dims, d.IsKey) ∧
      (k.result.isShaped = true ∧ k.result.isGraded (k.lod.dimsIn dims) = true) ∧
      ∀ g ∈ k.joining.flatMap JoinCondition.parts, g.isAggregateExpression = true →
        g.isShaped = true ∧ g.isGraded (k.lod.dimsIn dims) = true := by
  have hzip (r : Formula → List Formula → Bool) (gs : List Formula) :
      gs.zip (gs.map r) = gs.map fun g => (g, r g) := by
    rw [List.zip, List.zipWith_map_right, List.zipWith_self]
  conv_lhs => rw [isGraded, recur_eq, kind_of_fork? hk, hk]
  simp only [Kind.map, parts_map, hzip, List.all_map, Bool.and_eq_true, List.all_eq_true,
    decide_eq_true_eq, and_assoc]
  refine and_congr_right fun _ => and_congr_right fun _ => and_congr_right fun _ =>
    forall₂_congr fun g _ => ?_
  show (!g.isAggregateExpression || (g.isShaped && g.isGraded (k.lod.dimsIn dims))) = true ↔ _
  rw [Bool.or_eq_true, Bool.and_eq_true]
  cases g.isAggregateExpression <;> simp

theorem mem_children_of_fork (hk : f.fork? = some k) :
    k.result ∈ f.children ∧ ∀ g ∈ k.joining.flatMap JoinCondition.parts, g ∈ f.children := by
  rw [children, kind_of_fork? hk, Kind.children]
  exact ⟨by simp, fun g hg => by simp [hg]⟩

/-- A graded formula passes the check. -/
theorem perGroup_of_isGraded (h : f.isGraded dims = true) : f.PerGroup dims := by
  induction f using induction_children with
  | step f ih =>
      by_cases hforked : f.isForked = true
      · by_cases hfork : f.isFork = true
        · exact .fork hfork
        · have hnot := Bool.eq_false_iff.mpr hfork
          have hbelow : ∀ c ∈ f.autonomous, c.PerGroup dims := fun c hc =>
            ih c (mem_children_of_autonomous hc) ((isGraded_node hnot hforked).mp h c hc)
          cases f.standing with
          | field hfield =>
              rw [isForked_iff, autonomous_of_field? hfield] at hforked
              exact absurd hforked (by simp [hnot])
          | fork hfork' => exact .fork hfork'
          | aggregate haggregate => exact .aggregate haggregate
          | window hwindow => exact .window hwindow fun c hc _ => hbelow c hc
          | node hgathers hfield => exact .node hgathers hfield hbelow
      · exact (isGraded_plain (Bool.eq_false_iff.mpr hforked)).mp h

/-! ## More dimensions -/

theorem CoveredBy.dimsIn (h : CoveredBy dims dims') (l : Lod Formula) :
    CoveredBy (l.dimsIn dims) (l.dimsIn dims') := by
  cases l with
  | inherited | defaultAggregation => exact h
  | fixed ds => exact fun _ hf => Or.inr hf
  | including ds =>
      intro f hf
      obtain ⟨d, hd, hsame⟩ := contains_eq_true.mp hf
      show _ ∨ (ds.foldl pushUnique dims').contains f = true
      rcases mem_foldl_pushUnique hd with hd | hd
      · exact (h f (contains_eq_true.mpr ⟨d, hd, hsame⟩)).imp_right fun hin =>
          contains_foldl_pushUnique (Or.inl hin)
      · rw [contains_eq_of_same hsame]
        exact Or.inr (contains_foldl_pushUnique (Or.inr hd))
  | excluding ds =>
      intro f hf
      obtain ⟨d, hd, hsame⟩ := contains_eq_true.mp hf
      obtain ⟨hd, hout⟩ := List.mem_filter.mp hd
      rcases h f (contains_eq_true.mpr ⟨d, hd, hsame⟩) with hconst | hin
      · exact Or.inl hconst
      · obtain ⟨d', hd', hsame'⟩ := contains_eq_true.mp hin
        refine Or.inr (contains_eq_true.mpr ⟨d', List.mem_filter.mpr ⟨hd', ?_⟩, hsame'⟩)
        rw [← contains_eq_of_same (BEq.trans (BEq.symm hsame) hsame')]
        exact hout

theorem CoveredBy.least (l : Lod Formula) (dims : List Formula) :
    CoveredBy l.least (l.dimsIn dims) := by
  cases l with
  | inherited | defaultAggregation | excluding => exact .nil
  | fixed ds => exact fun _ hf => Or.inr hf
  | including ds =>
      intro f hf
      obtain ⟨d, hd, hsame⟩ := contains_eq_true.mp hf
      show _ ∨ (ds.foldl pushUnique dims).contains f = true
      rw [contains_eq_of_same hsame]
      exact Or.inr (contains_foldl_pushUnique (Or.inr hd))

theorem isGraded_mono (hdims : CoveredBy dims dims') (h : f.isGraded dims = true) :
    f.isGraded dims' = true := by
  induction f using induction_children generalizing dims dims' with
  | step f ih =>
      by_cases hforked : f.isForked = true
      · cases hk : f.fork? with
        | some k =>
            obtain ⟨hresult, hjoined⟩ := mem_children_of_fork hk
            obtain ⟨hkeys, ⟨hshaped, hgraded⟩, hparts⟩ := (isGraded_fork hk).mp h
            have hown := hdims.dimsIn k.lod
            refine (isGraded_fork hk).mpr
              ⟨hkeys, ⟨hshaped, ih _ hresult hown hgraded⟩, fun g hg haggregate => ?_⟩
            obtain ⟨hshaped', hgraded'⟩ := hparts g hg haggregate
            exact ⟨hshaped', ih g (hjoined g hg) hown hgraded'⟩
        | none =>
            have hnot := not_isFork_of_fork? hk
            refine (isGraded_node hnot hforked).mpr fun c hc => ?_
            exact ih c (mem_children_of_autonomous hc) hdims
              ((isGraded_node hnot hforked).mp h c hc)
      · have hplain := Bool.eq_false_iff.mpr hforked
        exact (isGraded_plain hplain).mpr (((isGraded_plain hplain).mp h).mono hdims)

/-! ## Forks that are found in the end -/

/-- The forks on the surface, and those that are found in their results and join conditions. -/
def reachableForks : Formula → List (Fork Formula) := recur fun f below =>
  match f.fork?, below with
  | some k, .fork below =>
    k :: (below.result ++ (below.joining.flatMap JoinCondition.parts).flatten)
  | _, below => below.autonomous.flatten

theorem reachableForks_fork (hk : f.fork? = some k) :
    f.reachableForks = k :: (k.result.reachableForks ++
      (k.joining.flatMap JoinCondition.parts).flatMap reachableForks) := by
  rw [reachableForks, recur_eq, kind_of_fork? hk, hk]
  simp only [Kind.map, parts_map]
  rfl

theorem reachableForks_node (h : f.isFork = false) :
    f.reachableForks = f.autonomous.flatMap reachableForks := by
  have hnone : f.fork? = none := by simpa [isFork] using h
  rw [reachableForks, recur_eq, hnone]
  simp only [Kind.autonomous_map]
  rfl

theorem reachableForks_of_surface (hg : g ∈ f.surface) :
    ∀ k ∈ g.reachableForks, k ∈ f.reachableForks := by
  induction f using induction_children with
  | step f ih =>
      intro k hk
      rcases mem_surface_iff.mp hg with rfl | ⟨hfork, c, hc, hg⟩
      · exact hk
      · rw [reachableForks_node hfork, List.mem_flatMap]
        exact ⟨c, hc, ih c (mem_children_of_autonomous hc) hg k hk⟩

theorem reachableForks_of_not_isForked (h : f.isForked = false) : f.reachableForks = [] := by
  induction f using induction_children with
  | step f ih =>
      obtain ⟨hfork, hbelow⟩ := not_isForked_iff.mp h
      rw [reachableForks_node hfork, List.flatMap_eq_nil_iff]
      exact fun c hc => ih c (mem_children_of_autonomous hc) (hbelow c hc)

end Formula

end FormulaSql
