import FormulaSql.Proofs.Split.Joins
import FormulaSql.Proofs.Split.Scope
import FormulaSql.Proofs.Split.Sharing
import FormulaSql.Statement.Build

/-!
# Which sub-queries are joined

The cropped query of a round reads from the base and joins the other sub-queries to it. A sub-query
is joined on the conditions of the forks that it computes. A fork without dimensions has the
constant to be joined on, but a fork with dimensions has only what it shares with the query around
it, and that can be nothing. Such a fork is loose: its sub-query is the base, or it is read without
being joined, and then no statement can be made.
-/

namespace FormulaSql

/-- Every query that is read is joined by some condition, apart from the first source. -/
def Query.Connected (q : Query) : Prop :=
  ∀ source ∈ q.sources.tail, source.queryId?.isSome = true →
    ∃ e ∈ q.joinOn, e.join.map JoinSpec.rightId = some source.id

instance (q : Query) : Decidable q.Connected :=
  inferInstanceAs (Decidable (∀ source ∈ q.sources.tail, source.queryId?.isSome = true →
    ∃ e ∈ q.joinOn, e.join.map JoinSpec.rightId = some source.id))

theorem Query.connected_of_tables {q : Query} (h : ∀ source ∈ q.sources, source.queryId? = none) :
    q.Connected := by
  intro source hsource hquery
  rw [h source (List.mem_of_mem_tail hsource)] at hquery
  exact absurd hquery (by simp)

namespace Split

/-- The fork has dimensions, but no condition that it could be joined on. -/
def Loose (q : Query) (s : Site) : Prop := forkDims q s.fork.lod ≠ [] ∧ s.fork.joining = []

theorem loose_iff {q : Query} {s : Site} : Loose q s ↔ (signatureOf q s).joining = [] := by
  by_cases hdims : forkDims q s.fork.lod = []
  · simp [Loose, hdims, joining_signatureOf_nil]
  · simp [Loose, hdims, joining_signatureOf]

/-- The round joins all sub-queries to the base: they go together, and none was made for loose
forks. -/
def JoinsAll (q : Query) (p : Plan) : Prop :=
  ∀ m ∈ p.masks, m.isBase = false →
    p.compatible = true ∧ ∀ s ∈ taken q, ∀ n, s.cut n ∈ m.cuts → ¬ Loose q s

/-- The join conditions that the cropped query of a plan has. -/
def Plan.joins (p : Plan) : List Entry :=
  match p.masks with
  | base :: others => if p.compatible then others.filterMap (joinFor? base) else []
  | [] => []

/-! ## The forks of a sub-query -/

section Group

variable {q : Query} {a b : Names} {m : Mask}

/-- The sub-query of a group computes the fork that the group was made for. -/
theorem exists_site_of_forkMask (hm : m ∈ (forkMasks q a).1) :
    ∃ s ∈ taken q, ∃ n, s.cut n ∈ m.cuts := by
  have hgrouped := forkGroups_grouped q (taken q) a
  obtain ⟨-, hgroups, hsites⟩ := forkGroups_spec q (taken q) a
  obtain ⟨g, hg, heq⟩ := exists_group_of_mask hm
  obtain ⟨s, hleader, hsignature, -⟩ := (hgrouped.formed g hg).leader
  have hs : s ∈ taken q := List.mem_of_find?_eq_some hleader
  obtain ⟨n, hn⟩ := hsites s hs
  obtain ⟨g', hg', hcut⟩ := List.mem_flatMap.mp hn
  obtain ⟨-, t, ht, hagrees, hplace⟩ := (hgroups g' hg').cut _ hcut
  obtain rfl := eq_of_cut_eq (mem_sites_of_taken hs) (mem_sites_of_taken ht) hplace
  have hsame : g' = g := by
    by_contra hne
    have hapart := (hgrouped.apart.forall hg' hg hne).1
    rw [hsignature] at hapart
    exact absurd (hapart.symm.trans hagrees) (by simp)
  rw [heq]
  exact ⟨s, hs, n, hsame ▸ hcut⟩

/-- A sub-query has no condition exactly if its forks are loose, and then all of them are. -/
theorem joining_eq_nil_iff {s : Site} {n : String} (hm : m ∈ (forkMasks q a).1) (hs : s ∈ taken q)
    (hcut : s.cut n ∈ m.cuts) : m.joining = [] ↔ Loose q s := by
  obtain ⟨-, conditions, hsame, hjoining⟩ := forkMask_joining hm hs hcut
  rw [loose_iff, hjoining, List.map_eq_nil_iff]
  constructor
  · rintro rfl
    cases hnil : (signatureOf q s).joining with
    | nil => rfl
    | cons c cs =>
        rw [hnil] at hsame
        exact absurd hsame (by simp)
  · intro hnil
    rw [hnil] at hsame
    cases conditions with
    | nil => rfl
    | cons c cs => exact absurd hsame (by simp)

end Group

/-! ## Joins of a plan -/

section Joins

variable {q x : Query} {a b : Names} {p : Plan}

theorem joining_ne_nil_of_joinFor? {base m : Mask} {j : Entry} (h : joinFor? base m = some j) :
    m.joining ≠ [] := by
  intro hnil
  rw [joinFor?, hnil] at h
  exact absurd h (by simp [conjunction])

/-- Who has the sources and the joins of a plan is connected exactly if the plan joins all. -/
theorem connected_iff_joinsAll (hplan : plan q a = (some p, b)) (hsources : x.sources = p.sources)
    (hjoins : x.joinOn = p.joins) : x.Connected ↔ JoinsAll q p := by
  obtain ⟨base, others, hmasks, hbase, hothers, -⟩ := plan_shape hplan
  obtain ⟨-, hplanned⟩ := plan_spec hplan
  rw [Plan.sources, hmasks, List.map_cons] at hsources
  rw [Plan.joins, hmasks] at hjoins
  dsimp only at hjoins
  have hmem : ∀ m ∈ others, m ∈ p.masks := fun m hm => hmasks ▸ List.mem_cons_of_mem base hm
  rw [Query.Connected, hsources, List.tail_cons]
  constructor
  · intro hconnected m hm hnot
    have hm' : m ∈ others := by
      rcases List.mem_cons.mp (hmasks ▸ hm) with rfl | hm
      · exact absurd (hbase.symm.trans hnot) (by simp)
      · exact hm
    obtain ⟨e, he, hright⟩ := hconnected _ (List.mem_map_of_mem hm') rfl
    rw [hjoins] at he
    split at he
    next hcompatible =>
      obtain ⟨m', hm'', hfor⟩ := List.mem_filterMap.mp he
      obtain ⟨t, hjoin⟩ := join_of_joinFor? hfor
      rw [hjoin] at hright
      obtain rfl := List.inj_on_of_nodup_map hplanned.masks.nodup (hmem m' hm'') hm
        (Option.some.inj hright)
      refine ⟨hcompatible, fun s hs n hcut hloose => ?_⟩
      exact joining_ne_nil_of_joinFor? hfor
        ((joining_eq_nil_iff (hothers m' hm'') hs hcut).mpr hloose)
    next => exact absurd he List.not_mem_nil
  · intro hall source hsource _
    obtain ⟨m, hm, rfl⟩ := List.mem_map.mp hsource
    have hfork := hothers m hm
    obtain ⟨hcompatible, htight⟩ := hall m (hmem m hm) (forkMask_isBase hfork)
    obtain ⟨s, hs, n, hcut⟩ := exists_site_of_forkMask hfork
    have hjoining : m.joining ≠ [] :=
      fun hnil => htight s hs n hcut ((joining_eq_nil_iff hfork hs hcut).mp hnil)
    obtain ⟨c, hc⟩ := List.exists_mem_of_ne_nil _ hjoining
    obtain ⟨j, hj, ⟨t, hjoin⟩, -⟩ :=
      joinFor?_of_condition base hc (forkMask_joining hfork hs hcut).1
    refine ⟨j, ?_, by rw [hjoin]; rfl⟩
    rw [hjoins, if_pos hcompatible]
    exact List.mem_filterMap.mpr ⟨m, hm, hj⟩

/-- Sub-queries keep the joins of the query that is cut. -/
theorem subquery_joinOn {m : Mask} (h : subquery q m = .ok x) : x.joinOn = q.joinOn := by
  rw [subquery] at h
  obtain ⟨es, -, h⟩ := bind_eq_ok.mp h
  obtain rfl := Except.ok.inj h
  rfl

/-- The queries of a round read and join what the query that is cut does, or what the plan says. -/
theorem queries_joins {qs : List Query} (h : p.queries q = .ok qs) (hx : x ∈ qs) :
    (x.sources = q.sources ∧ x.joinOn = q.joinOn) ∨
      (x.sources = p.sources ∧ x.joinOn = p.joins) := by
  rcases mem_queries h hx with ⟨m, -, hm⟩ | hc
  · exact Or.inl ⟨(subquery_spec hm).sources, subquery_joinOn hm⟩
  · obtain ⟨base, others, hmasks, -, hcropped, hjoinOn⟩ := cropped_spec hc
    refine Or.inr ⟨hcropped.sources, ?_⟩
    rw [hjoinOn, Plan.joins, hmasks]

end Joins

/-! ## Runs -/

section Runs

variable {a : Names} {qs out : List Query} {done : List Round}

/-- Every round of a run plans and carries the plan out. -/
theorem Run.carried (h : Run a qs done out) :
    ∀ d ∈ done, ∃ a b, plan d.query a = (some d.plan, b) ∧
      d.plan.queries d.query = .ok d.queries := by
  induction h with
  | whole | stuck => exact fun d hd => absurd hd List.not_mem_nil
  | cut _ _ hplan hqueries _ ih =>
      intro d hd
      rcases List.mem_cons.mp hd with rfl | hd
      · exact ⟨_, _, hplan, hqueries⟩
      · exact ih d hd

/-- A query reads from tables alone, or it reads and joins the sub-queries of some round. -/
def Assembled (done : List Round) (x : Query) : Prop :=
  (∀ source ∈ x.sources, source.queryId? = none) ∨
    ∃ d ∈ done, x.sources = d.plan.sources ∧ x.joinOn = d.plan.joins

theorem Run.assembled (h : Run a qs done out)
    (hqs : ∀ x ∈ qs, ∀ source ∈ x.sources, source.queryId? = none) :
    ∀ x ∈ qs ++ done.flatMap Round.queries, Assembled done x := by
  refine h.all_made (fun x hx => Or.inl (hqs x hx)) fun d hd hquery x hx => ?_
  obtain ⟨a, b, -, hqueries⟩ := h.carried d hd
  rcases queries_joins hqueries hx with ⟨hsources, hjoins⟩ | hplan
  · rw [Assembled, hsources, hjoins]
    exact hquery
  · exact Or.inr ⟨d, hd, hplan⟩

/-- A query that comes up in a run reads from tables alone, or it is connected exactly if the round
from whose sub-queries it reads joins all of them. -/
theorem Run.connected_iff (h : Run a qs done out)
    (hqs : ∀ x ∈ qs, ∀ source ∈ x.sources, source.queryId? = none) {x : Query}
    (hx : x ∈ qs ++ done.flatMap Round.queries) :
    (∀ source ∈ x.sources, source.queryId? = none) ∨
      ∃ d ∈ done, x.sources = d.plan.sources ∧ (x.Connected ↔ JoinsAll d.query d.plan) := by
  rcases h.assembled hqs x hx with htables | ⟨d, hd, hsources, hjoins⟩
  · exact Or.inl htables
  · obtain ⟨a, b, hplan, -⟩ := h.carried d hd
    exact Or.inr ⟨d, hd, hsources, connected_iff_joinsAll hplan hsources hjoins⟩

/-- All queries that come up are connected exactly if all rounds join all their sub-queries. -/
theorem Run.all_connected_iff (h : Run a qs done out)
    (hqs : ∀ x ∈ qs, ∀ source ∈ x.sources, source.queryId? = none) :
    (∀ x ∈ qs ++ done.flatMap Round.queries, x.Connected) ↔
      ∀ d ∈ done, JoinsAll d.query d.plan := by
  constructor
  · intro hall d hd
    obtain ⟨a, b, hplan, hqueries⟩ := h.carried d hd
    obtain ⟨subs, c, hnew, hround⟩ := queries_spec hqueries
    have hc : c ∈ d.queries := by simp [hnew]
    obtain ⟨base, others, hmasks, -, -, hjoinOn⟩ := hround.cropped
    have hjoins : c.joinOn = d.plan.joins := by rw [hjoinOn, Plan.joins, hmasks]
    refine (connected_iff_joinsAll hplan hround.sources hjoins).mp (hall c ?_)
    exact List.mem_append_right _ (List.mem_flatMap.mpr ⟨d, hd, hc⟩)
  · intro hall x hx
    rcases h.connected_iff hqs hx with htables | ⟨d, hd, -, hiff⟩
    · exact Query.connected_of_tables htables
    · exact hiff.mpr (hall d hd)

end Runs

end Split

open Split in
/-- A compiled query that reads from the sub-queries of a round is connected exactly if none of
them, the base apart, was made for loose forks. All queries that come up are exactly if that is so in
every round. -/
theorem QuerySpec.compileMulti_connected {spec : QuerySpec} {r : Registry} {s : Settings}
    {m : MultiQuery} (h : spec.compileMulti r s = .ok m) :
    ∃ q done, spec.compile r s = .ok q ∧ Run .start [q] done m.queries ∧
      (∀ x ∈ m.queries, (∀ source ∈ x.sources, source.queryId? = none) ∨
        ∃ d ∈ done, x.sources = d.plan.sources ∧
          (x.Connected ↔ JoinsAll d.query d.plan)) ∧
      ((∀ x ∈ q :: done.flatMap Round.queries, x.Connected) ↔
        ∀ d ∈ done, JoinsAll d.query d.plan) := by
  obtain ⟨q, hq, hsplit⟩ := bind_eq_ok.mp h
  obtain ⟨⟨done, hrun⟩, -⟩ := split_run hsplit
  have htables : ∀ x ∈ [q], ∀ source ∈ x.sources, source.queryId? = none := fun x hx =>
    List.mem_singleton.mp hx ▸ QuerySpec.compile_tables hq
  refine ⟨q, done, hq, hrun, fun x hx => ?_, hrun.all_connected_iff htables⟩
  exact hrun.connected_iff htables (hrun.mem_made hx)

open Split in
/-- The query that compares the sales of each city with all sales joins the two. -/
theorem QuerySpec.compileMulti_connected_onlyInCity :
    ∃ m q done x, ∃ d ∈ done, onlyInCity.compileMulti orders .default = .ok m ∧
      onlyInCity.compile orders .default = .ok q ∧ Run .start [q] done m.queries ∧
      x ∈ m.queries ∧ x.sources.length = 2 ∧ x.sources = d.plan.sources ∧ x.Connected ∧
      JoinsAll d.query d.plan := by
  have hok : ((onlyInCity.compileMulti orders .default).toOption.any fun m =>
      m.queries.any fun x => x.sources.length == 2 && decide x.Connected &&
        x.sources.all fun source => source.queryId?.isSome) = true := by decide +kernel
  obtain ⟨m, hm, hany⟩ := exists_eq_ok hok
  obtain ⟨x, hx, htest⟩ := List.any_eq_true.mp hany
  simp only [Bool.and_eq_true, beq_iff_eq, decide_eq_true_eq, List.all_eq_true] at htest
  obtain ⟨⟨hlength, hconnected⟩, hsubqueries⟩ := htest
  obtain ⟨q, done, hq, hrun, hall, -⟩ := QuerySpec.compileMulti_connected hm
  rcases hall x hx with htables | ⟨d, hd, hsources, hiff⟩
  · obtain ⟨source, hsource⟩ := List.exists_mem_of_length_pos (hlength ▸ Nat.zero_lt_two)
    have hsome := hsubqueries source hsource
    rw [htables source hsource] at hsome
    exact absurd hsome (by simp)
  · exact ⟨m, q, done, x, d, hd, hm, hq, hrun, hx, hlength, hsources, hconnected,
      hiff.mp hconnected⟩

/-- Whether some city has all its sales on one date. -/
def allOnOneDate : QuerySpec :=
  { QuerySpec.empty with
    select := [⟨.call "max" [.binary "=="
      (.callWith "sum" [.field "sales"] (.including [.field "city"]) NameSet.empty)
      (.callWith "sum" [.field "sales"] (.including [.field "city"])
        (NameSet.ofList ["date"]))], none, none⟩]
    filters := [⟨.binary "==" (.field "date") (.date 2024 1 8), some "date", none⟩] }

/-- The sales of each city come from two sub-queries, one without the filter. The query around them
has no dimensions, so the two have nothing to be joined on, and no statement can be made. -/
theorem QuerySpec.compileMulti_unconnected :
    ∃ m, allOnOneDate.compileMulti Split.orders .default = .ok m ∧
      (∃ x ∈ m.queries, ¬ x.Connected) ∧
      ∃ id, m.statements Split.orders .clickhouse = .error (.missingJoin id) := by
  have hok : ((allOnOneDate.compileMulti Split.orders .default).toOption.any fun m =>
      (m.queries.any fun x => !decide x.Connected) &&
        decide (error? (m.statements Split.orders .clickhouse) = some (.missingJoin "q2"))) =
      true := by decide +kernel
  obtain ⟨m, hm, htest⟩ := exists_eq_ok hok
  obtain ⟨hany, hmissing⟩ := Bool.and_eq_true_iff.mp htest
  obtain ⟨x, hx, hnot⟩ := List.any_eq_true.mp hany
  exact ⟨m, hm, ⟨x, hx, by simpa using hnot⟩, _,
    eq_error_of_error? (of_decide_eq_true hmissing)⟩

end FormulaSql
