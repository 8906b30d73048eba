import FormulaSql.Proofs.Split.Failure

/-!
# Cuts that lead to nodes

The cuts of a plan come from forks, from the results of forks, and from what is left over around
them. All of them stand at nodes of the query that is cut, none inside of another, and those under
one alias compute the same; the base comes first. So a round never loses a node while it puts
columns into a formula, and what it can fail with has to do with dimensions and with aggregations
only.

* `Plan.CutsValid` says what holds of the cuts, `Split.plan_cutsValid` that it does
* `Split.queries_eq_error` lists what a round fails with
* `Query.split_cuts_valid` is the result for a query that is split
-/

namespace FormulaSql

namespace Split

open Formula

/-- The cuts of the plan can be made in the query: each is from a node and becomes a column at a
node, none is inside of another, the same alias stands for equal nodes, and the first mask is the
base. -/
structure Plan.CutsValid (q : Query) (p : Plan) : Prop where
  node : ∀ c ∈ p.masks.flatMap Mask.cuts,
    (q.nodeAt? c.place).isSome = true ∧ (q.nodeAt? c.source).isSome = true
  places : ((p.masks.flatMap Mask.cuts).map Cut.place).Pairwise Place.Beside
  sources : ((p.masks.flatMap Mask.cuts).map Cut.source).Pairwise Place.Beside
  same : ∀ c ∈ p.masks.flatMap Mask.cuts, ∀ d ∈ p.masks.flatMap Mask.cuts,
    c.aliasName = d.aliasName → ∀ f g, q.nodeAt? c.source = some f → q.nodeAt? d.source = some g →
      (f == g) = true
  base : ∃ base others, p.masks = base :: others ∧ base.isBase = true ∧
    ∀ m ∈ others, m.isBase = false

/-- What can be wrong with a query that is cut: the base does not have a dimension, or the selected
formulas are not all aggregated. -/
inductive CannotCut (q : Query) : QueryError → Prop
  | dimension (f : Formula) : CannotCut q
      (.split q.id ("dimension " ++ f.text ++ " is missing from the base sub-query"))
  | aggregation (f : Formula) : CannotCut q
      (.split q.id ("inconsistent aggregation of select item " ++ f.text))

/-- How the messages begin about a cut that leads to no node, a column with two meanings and a plan
without a base. -/
def lostCuts : List String :=
  ["no formula at", "no node at", "different formulas selected as",
    "no base sub-query to crop against"]

section Valid

variable {q : Query} {a b : Names} {p : Plan}

theorem nodes_of_cut (hplan : plan q a = (some p, b)) {c : Cut}
    (hc : c ∈ p.masks.flatMap Mask.cuts) :
    ∃ f g, q.nodeAt? c.place = some f ∧ q.nodeAt? c.source = some g := by
  obtain ⟨e, he⟩ := exists_cutEntry hplan hc
  obtain ⟨e₀, g, he₀, hg, -⟩ := cutEntry_eq_ok he
  obtain ⟨-, hplanned⟩ := plan_spec hplan
  obtain ⟨forks, hcuts⟩ := hplanned.cuts
  obtain ⟨f, hf⟩ := (hcuts.walks (mem_cutsAt.mpr ⟨hc, rfl, rfl⟩) he₀).exists_at?
  exact ⟨f, g, Query.nodeAt?_eq_some.mpr ⟨e₀, he₀, hf⟩, Query.nodeAt?_eq_some.mpr ⟨e₀, he₀, hg⟩⟩

/-- A node under an alias is the result of a fork, or it is the only one under this alias. -/
theorem same_of_aliasName (hplan : plan q a = (some p, b)) {c d : Cut}
    (hc : c ∈ p.masks.flatMap Mask.cuts) (hd : d ∈ p.masks.flatMap Mask.cuts)
    (hname : c.aliasName = d.aliasName) {f g : Formula} (hf : q.nodeAt? c.source = some f)
    (hg : q.nodeAt? d.source = some g) : (f == g) = true := by
  rcases cut_cases_of_aliasName hplan hc hd hname with rfl | ⟨s, hs, t, ht, n, rfl, rfl⟩
  · rw [Option.some.inj (hf.symm.trans hg)]
    exact BEq.rfl
  · obtain ⟨e, he, hfat⟩ := Query.nodeAt?_eq_some.mp hf
    obtain ⟨e', he', hgat⟩ := Query.nodeAt?_eq_some.mp hg
    have hfs := (at?_result (mem_sites_of_taken hs) he).symm.trans hfat
    have hgt := (at?_result (mem_sites_of_taken ht) he').symm.trans hgat
    rw [← Option.some.inj hfs, ← Option.some.inj hgt]
    exact ((column_eq_iff hplan hs ht hc hd).mp rfl).1

theorem plan_cutsValid (hplan : plan q a = (some p, b)) : p.CutsValid q where
  node c hc := by
    obtain ⟨f, g, hf, hg⟩ := nodes_of_cut hplan hc
    rw [hf, hg]
    exact ⟨rfl, rfl⟩
  places := plan_places hplan
  sources := plan_sources hplan
  same c hc d hd hname f g hf hg := same_of_aliasName hplan hc hd hname hf hg
  base := by
    obtain ⟨base, others, hmasks, hbase, hothers, -⟩ := plan_shape hplan
    exact ⟨base, others, hmasks, hbase, fun m hm => forkMask_isBase (hothers m hm)⟩

/-! ## What a round fails with -/

variable {base : Mask} {others : List Mask} {part : Part} {e : Entry} {i : Nat} {err : QueryError}

theorem cropFormula_eq_error (hplan : plan q a = (some p, b)) (he : (q.part part)[i]? = some e)
    (h : cropFormula q base (cutsAt p.masks part i) p.compatible part e = .error err) :
    CannotCut q err := by
  obtain ⟨g, hg⟩ := exists_replaceCuts_cutsAt hplan he
  unfold cropFormula at h
  split at h
  next => cases h
  next =>
    split at h
    next =>
      split at h
      next => cases h
      next =>
        obtain rfl := Except.error.inj h
        exact .dimension e.formula
    next =>
      split at h
      next => cases h
      next =>
        rw [hg] at h
        change (if part == .filters then _ else _) = _ at h
        split at h <;> cases h

theorem cropEntry_eq_error (hplan : plan q a = (some p, b)) (he : (q.part part)[i]? = some e)
    (h : cropEntry q p.masks base p.compatible part e i = .error err) : CannotCut q err := by
  rcases bind_eq_error h with h | ⟨f, -, h⟩
  · exact cropFormula_eq_error hplan he h
  · split at h
    · cases h
    · split at h <;> cases h

theorem cropPart_eq_error (hplan : plan q a = (some p, b)) {without : List Nat}
    (h : cropPart q p.masks base p.compatible part without = .error err) : CannotCut q err := by
  rcases bind_eq_error h with h | ⟨os, -, h⟩
  · obtain ⟨⟨e, i⟩, hei, h⟩ := mapM_eq_error h
    have he := List.mem_zipIdx_iff_getElem?.mp (List.mem_filter.mp hei).1
    exact cropEntry_eq_error hplan he h
  · cases h

theorem dropNeedlessGrouping_eq_error {c : Query} (h : dropNeedlessGrouping c = .error err) :
    CannotCut c err := by
  rcases bind_eq_error h with h | ⟨known, -, h⟩
  · obtain ⟨e, -, known, h⟩ := foldlM_eq_error h
    dsimp only at h
    split at h
    · cases h
    · obtain rfl := Except.error.inj h
      exact .aggregation e.formula
  · split at h <;> cases h

theorem cropped_eq_error (hplan : plan q a = (some p, b))
    (h : cropped q p.masks p.compatible = .error err) : CannotCut q err := by
  obtain ⟨base, others, hmasks, hbase, -⟩ := plan_shape hplan
  have hcrop {part : Part} {without : List Nat}
      (h : cropPart q (base :: others) base p.compatible part without = .error err) :
      CannotCut q err := cropPart_eq_error hplan (hmasks ▸ h)
  rw [hmasks, cropped, if_pos hbase] at h
  rcases bind_eq_error h with h | ⟨select, -, h⟩
  · exact hcrop h
  rcases bind_eq_error h with h | ⟨groupBy, -, h⟩
  · exact hcrop h
  rcases bind_eq_error h with h | ⟨orderBy, -, h⟩
  · exact hcrop h
  rcases bind_eq_error h with h | ⟨filters, -, h⟩
  · exact hcrop h
  cases dropNeedlessGrouping_eq_error h with
  | dimension f => exact .dimension f
  | aggregation f => exact .aggregation f

/-- A round fails because of dimensions or of aggregations, and not because of its cuts. -/
theorem queries_eq_error (hplan : plan q a = (some p, b)) (h : p.queries q = .error err) :
    CannotCut q err := by
  obtain ⟨subs, hsubs⟩ := exists_mapM fun m hm => exists_subquery hplan (m := m) hm
  rcases bind_eq_error h with h | ⟨_, -, h⟩
  · cases hsubs.symm.trans h
  · rcases bind_eq_error h with h | ⟨_, -, h⟩
    · exact cropped_eq_error hplan h
    · cases h

/-- A run fails where one of its rounds does, unless it takes too many. -/
theorem rounds_eq_error {fuel : Nat} {qs : List Query} (h : rounds fuel a qs = .error err) :
    err = .splitLimitExceeded maxRounds ∨
      ∃ x b p c, plan x b = (some p, c) ∧ p.queries x = .error err := by
  induction fuel generalizing a qs with
  | zero =>
      unfold rounds at h
      dsimp only at h
      split at h
      · cases h
      · exact Or.inl (Except.error.inj h).symm
  | succ fuel ih =>
      rcases first_fork qs with ⟨hrest, -⟩ | ⟨q, after, hrest, -⟩
      · unfold rounds at h
        dsimp only at h
        rw [hrest] at h
        cases h
      · rw [rounds_succ hrest] at h
        obtain ⟨b, -, hround⟩ | ⟨p, b, hplan, ⟨id, message, hqueries, hround⟩ |
          ⟨new, -, hround⟩⟩ := round_cases q a <;> rw [hround] at h
        · cases h
        · obtain rfl := Except.error.inj h
          exact Or.inr ⟨q, a, p, b, hplan, hqueries⟩
        · exact ih h

theorem CannotCut.not_lostCut {id message : String} (h : CannotCut q (.split id message)) :
    ∀ stem ∈ lostCuts, ¬ stem.toList <+: message.toList := by
  have hapart (start : String) (hstart : start.toList <+: message.toList)
      (hall : ∀ stem ∈ lostCuts, ¬ stem.toList <+: start.toList ∧ ¬ start.toList <+: stem.toList) :
      ∀ stem ∈ lostCuts, ¬ stem.toList <+: message.toList := by
    intro stem hstem hprefix
    rcases List.prefix_or_prefix_of_prefix hprefix hstart with hle | hle
    · exact (hall stem hstem).1 hle
    · exact (hall stem hstem).2 hle
  cases h with
  | dimension f =>
      refine hapart "dimension " ?_ (by decide)
      rw [String.toList_append, String.toList_append, List.append_assoc]
      exact List.prefix_append _ _
  | aggregation f =>
      refine hapart "inconsistent aggregation of select item " ?_ (by decide)
      rw [String.toList_append]
      exact List.prefix_append _ _

end Valid

end Split

open Split in
/-- All cuts of a round over the query can be made. A round therefore never fails with a message
about a cut without a node, about a column with two meanings or about a missing base, and neither
does the splitting of the query as a whole. -/
theorem Query.split_cuts_valid (q : Query) :
    (∀ a p b, plan q a = (some p, b) → p.CutsValid q) ∧
    (∀ a b id message, round q a = (.error (.split id message), b) →
      ∀ stem ∈ lostCuts, ¬ stem.toList <+: message.toList) ∧
    ∀ id message, q.split = .error (.split id message) →
      ∀ stem ∈ lostCuts, ¬ stem.toList <+: message.toList := by
  refine ⟨fun a p b hplan => plan_cutsValid hplan, ?_, ?_⟩
  · intro a b id message h
    obtain ⟨_, -, hround⟩ | ⟨p, c, hplan, ⟨_, _, hqueries, hround⟩ | ⟨_, -, hround⟩⟩ :=
      round_cases q a <;> cases hround.symm.trans h
    exact (queries_eq_error hplan hqueries).not_lostCut
  · intro id message h
    rcases rounds_eq_error (split_eq_split_iff.mp h) with h | ⟨x, b, p, c, hplan, hqueries⟩
    · cases h
    · exact (queries_eq_error hplan hqueries).not_lostCut

end FormulaSql
