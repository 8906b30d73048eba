import FormulaSql.Proofs.Formula.Rewriting
import FormulaSql.Split.Groups

/-!
# Where a round finds forks

The search of a round goes through the children that are expressions of their own and stops at the
first fork on each way down. A site records such a fork with its place in the query.
-/

namespace FormulaSql

namespace Formula

/-! ## Outermost forks -/

theorem autonomous_getElem? {f c : Formula} {i : Nat} :
    f.autonomous[i]? = some c ↔ i < f.kind.autonomousCount ∧ f.children[i]? = some c := by
  rw [autonomous, Kind.autonomous, List.getElem?_take]
  by_cases h : i < f.kind.autonomousCount
  · simp [h, children]
  · simp [h]

/-- The search for forks below a node that stands at a path. -/
def forkSearch : Formula → Path → List (Path × Fork Formula) := recur fun f k path =>
  match f.fork? with
  | some q => [(path, q)]
  | none => k.autonomous.zipIdx.flatMap fun (below, i) => below (path ++ [i])

theorem outermostForks_eq_search (f : Formula) : f.outermostForks = f.forkSearch [] := rfl

theorem forkSearch_eq (f : Formula) (path : Path) :
    f.forkSearch path =
      match f.fork? with
      | some q => [(path, q)]
      | none => f.autonomous.zipIdx.flatMap fun (c, i) => c.forkSearch (path ++ [i]) := by
  rw [forkSearch, recur_eq, Kind.autonomous_map, List.zipIdx_map, List.flatMap_map]
  rfl

/-- Where the search starts only matters for the paths it gives. -/
theorem forkSearch_eq_map (f : Formula) (path : Path) :
    f.forkSearch path = f.outermostForks.map fun s => (path ++ s.1, s.2) := by
  induction f using induction_children generalizing path with
  | step f ih =>
      rw [outermostForks_eq_search, forkSearch_eq, forkSearch_eq f []]
      cases f.fork? with
      | some q => simp
      | none =>
          simp only [List.map_flatMap]
          refine List.flatMap_congr fun ci hci => ?_
          have hc := mem_children_of_autonomous (List.fst_mem_of_mem_zipIdx hci)
          rw [ih _ hc (path ++ [ci.2]), ih _ hc ([] ++ [ci.2]), List.map_map]
          simp

/-- An outermost fork is the node itself, or one below an expression of its own. -/
theorem mem_outermostForks_iff {f : Formula} {p : Path} {q : Fork Formula} :
    (p, q) ∈ f.outermostForks ↔
      (p = [] ∧ f.fork? = some q) ∨
        (f.fork? = none ∧
          ∃ i c p', f.autonomous[i]? = some c ∧ p = i :: p' ∧ (p', q) ∈ c.outermostForks) := by
  rw [outermostForks_eq_search, forkSearch_eq]
  cases hfork : f.fork? with
  | some q' =>
      simp only [List.mem_singleton, Prod.mk.injEq, Option.some.injEq, reduceCtorEq, false_and,
        or_false]
      exact and_congr_right fun _ => eq_comm
  | none =>
      simp only [List.mem_flatMap, reduceCtorEq, and_false, true_and, false_or]
      constructor
      · rintro ⟨⟨c, i⟩, hci, hmem⟩
        rw [forkSearch_eq_map] at hmem
        obtain ⟨⟨p', q'⟩, hp', heq⟩ := List.mem_map.mp hmem
        obtain ⟨rfl, rfl⟩ := Prod.mk.inj heq
        exact ⟨i, c, p', List.mem_zipIdx_iff_getElem?.mp hci, rfl, hp'⟩
      · rintro ⟨i, c, p', hc, rfl, hmem⟩
        refine ⟨(c, i), List.mem_zipIdx_iff_getElem?.mpr hc, ?_⟩
        rw [forkSearch_eq_map]
        exact List.mem_map.mpr ⟨(p', q), hmem, rfl⟩

theorem at?_of_mem_outermostForks {f : Formula} {p : Path} {q : Fork Formula}
    (h : (p, q) ∈ f.outermostForks) : ∃ g, f.at? p = some g ∧ g.fork? = some q := by
  induction f using induction_children generalizing p with
  | step f ih =>
      rcases mem_outermostForks_iff.mp h with ⟨rfl, hfork⟩ | ⟨-, i, c, p', hc, rfl, hmem⟩
      · exact ⟨f, rfl, hfork⟩
      · obtain ⟨-, hchild⟩ := autonomous_getElem?.mp hc
        obtain ⟨g, hg, hfork⟩ := ih c (List.mem_of_getElem? hchild) hmem
        exact ⟨g, (at?_cons_of_child p' hchild).trans hg, hfork⟩

end Formula

namespace Split

/-! ## Sites -/

theorem mem_sites_iff {q : Query} {s : Site} :
    s ∈ sites q ↔ s.part ∈ Part.splittable ∧ ∃ e, (q.part s.part)[s.index]? = some e ∧
      (s.path, s.fork) ∈ e.formula.outermostForks ∧
      s.laterFilters = s.fork.beforeFilterBy.filter q.filterIds.contains := by
  simp only [sites, List.mem_flatMap, List.mem_map]
  constructor
  · rintro ⟨p, hp, ⟨e, i⟩, he, ⟨path, fork⟩, hmem, rfl⟩
    exact ⟨hp, e, List.mem_zipIdx_iff_getElem?.mp he, hmem, rfl⟩
  · rintro ⟨hp, e, he, hmem, hlater⟩
    refine ⟨s.part, hp, (e, s.index), List.mem_zipIdx_iff_getElem?.mpr he, (s.path, s.fork), hmem,
      ?_⟩
    obtain ⟨part, index, path, fork, later⟩ := s
    exact congrArg (Site.mk part index path fork) hlater.symm

theorem smallest_mem {sets : List NameSet} {s : NameSet} (h : smallest sets = some s) :
    s ∈ sets := by
  induction sets generalizing s with
  | nil => exact absurd h (by simp [smallest])
  | cons t ts ih =>
      rw [smallest] at h
      split at h
      next u hu =>
        split at h
        · exact List.mem_cons_of_mem t (ih (hu.trans h))
        · obtain rfl := Option.some.inj h
          exact List.mem_cons_self
      next =>
        obtain rfl := Option.some.inj h
        exact List.mem_cons_self

/-- A round takes all forks, or only the window forks with one set of later filters, of which there
is at least one. -/
theorem prioritized_cases (found : List Site) :
    prioritized found = (false, found) ∨
      ∃ least, prioritized found =
          (true, found.filter fun s => s.isWindow && s.laterFilters == least) ∧
        ∃ s ∈ found, s.isWindow = true ∧ s.laterFilters = least := by
  rw [prioritized]
  split
  next => exact Or.inl rfl
  next least hleast =>
    split
    · obtain ⟨s, hs, hlater⟩ := List.mem_map.mp (smallest_mem hleast)
      obtain ⟨hs, hwindow⟩ := List.mem_filter.mp hs
      exact Or.inr ⟨least, rfl, s, hs, hwindow, hlater⟩
    · exact Or.inl rfl

theorem mem_of_mem_prioritized {found : List Site} {s : Site} (h : s ∈ (prioritized found).2) :
    s ∈ found := by
  rcases prioritized_cases found with heq | ⟨least, heq, -⟩
  · rwa [heq] at h
  · rw [heq] at h
    exact (List.mem_filter.mp h).1

theorem prioritized_eq_nil_iff {found : List Site} : (prioritized found).2 = [] ↔ found = [] := by
  rcases prioritized_cases found with heq | ⟨least, heq, s, hs, hwindow, hlater⟩
  · rw [heq]
  · rw [heq]
    constructor
    · intro hnil
      have hkept := List.filter_eq_nil_iff.mp hnil s hs
      simp [hwindow, hlater] at hkept
    · rintro rfl
      rfl

end Split

end FormulaSql
