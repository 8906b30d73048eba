import FormulaSql.Proofs.Split.Crop
import FormulaSql.Proofs.Split.Plan

/-!
# Runs of rounds

Splitting cuts the first query that holds a fork, again and again, until there is none or until that
query has no fork that a round could take. `Run` lays out the rounds on the way, without the bound
on their number; whatever every round keeps holds of the result.
-/

namespace FormulaSql.Split

/-- One round: the query it cuts, the plan and the queries it puts in its place. -/
structure Round where
  query : Query
  plan : Plan
  queries : List Query

/-- The queries of a plan: the sub-queries of its masks and after them the cropped query. -/
structure RoundOf (q : Query) (p : Plan) (subs : List Query) (c : Query) : Prop where
  subqueries : List.Forall₂ (SubqueryOf q) p.masks subs
  cropped : ∃ base others, p.masks = base :: others ∧ base.isBase = true ∧
    CroppedOf q p.masks base p.compatible c ∧
    c.joinOn = if p.compatible then others.filterMap (joinFor? base) else []

/-- The queries of a plan come from its masks, and the last one from the query itself. -/
theorem exists_of_queries {q : Query} {p : Plan} {new : List Query} (h : p.queries q = .ok new) :
    ∃ subs c, new = subs ++ [c] ∧ List.Forall₂ (fun m s => subquery q m = .ok s) p.masks subs ∧
      cropped q p.masks p.compatible = .ok c := by
  rw [Plan.queries] at h
  obtain ⟨subs, hsubs, h⟩ := bind_eq_ok.mp h
  obtain ⟨c, hc, h⟩ := bind_eq_ok.mp h
  exact ⟨subs, c, (Except.ok.inj h).symm, mapM_eq_ok hsubs, hc⟩

theorem mem_queries {q x : Query} {p : Plan} {new : List Query} (h : p.queries q = .ok new)
    (hx : x ∈ new) :
    (∃ m ∈ p.masks, subquery q m = .ok x) ∨ cropped q p.masks p.compatible = .ok x := by
  obtain ⟨subs, c, rfl, hsubs, hc⟩ := exists_of_queries h
  rcases List.mem_append.mp hx with hx | hx
  · exact Or.inl (forall₂_exists_left hsubs hx)
  · exact Or.inr (List.mem_singleton.mp hx ▸ hc)

theorem queries_spec {q : Query} {p : Plan} {new : List Query} (h : p.queries q = .ok new) :
    ∃ subs c, new = subs ++ [c] ∧ RoundOf q p subs c := by
  obtain ⟨subs, c, hnew, hsubs, hc⟩ := exists_of_queries h
  exact ⟨subs, c, hnew, hsubs.imp fun _ _ hs => subquery_spec hs, cropped_spec hc⟩

/-- The splitting of queries, with the names from `a` on, comes to an end after some rounds. -/
inductive Run : Names → List Query → List Round → List Query → Prop where
  | whole {a : Names} {qs : List Query} : (∀ q ∈ qs, q.containsFork = false) → Run a qs [] qs
  | stuck {a : Names} {before after : List Query} {q : Query} :
      (∀ x ∈ before, x.containsFork = false) → q.containsFork = true → sites q = [] →
      Run a (before ++ q :: after) [] (before ++ q :: after)
  | cut {a b : Names} {before after new out : List Query} {q : Query} {p : Plan}
      {rest : List Round} :
      (∀ x ∈ before, x.containsFork = false) → q.containsFork = true → plan q a = (some p, b) →
      p.queries q = .ok new → Run b (before ++ new ++ after) rest out →
      Run a (before ++ q :: after) (⟨q, p, new⟩ :: rest) out

/-- Either no query holds a fork, or one is the first that does. -/
theorem first_fork (qs : List Query) :
    let rest := qs.drop (qs.takeWhile fun q => !q.containsFork).length
    (rest = [] ∧ ∀ x ∈ qs, x.containsFork = false) ∨
      ∃ q after, rest = q :: after ∧ q.containsFork = true ∧
        qs = (qs.takeWhile fun q => !q.containsFork) ++ q :: after ∧
        ∀ x ∈ qs.takeWhile fun q => !q.containsFork, x.containsFork = false := by
  induction qs with
  | nil => exact Or.inl ⟨rfl, fun x hx => absurd hx List.not_mem_nil⟩
  | cons q qs ih =>
      cases hq : q.containsFork with
      | true => exact Or.inr ⟨q, qs, by simp [hq], hq, by simp [hq], by simp [hq]⟩
      | false =>
          simp only [List.takeWhile_cons, hq, Bool.not_false, ↓reduceIte, List.length_cons,
            List.drop_succ_cons, List.cons_append, List.cons.injEq, true_and, List.forall_mem_cons]
          exact ih

/-- What a round comes to: no plan and nothing to do, or the queries of a plan. -/
theorem round_eq_ok {q : Query} {a b : Names} {result : Option (List Query)}
    (h : round q a = (.ok result, b)) :
    (result = none ∧ sites q = []) ∨
      ∃ p new, result = some new ∧ plan q a = (some p, b) ∧ p.queries q = .ok new := by
  rw [round] at h
  generalize hplan : plan q a = planned at h
  obtain ⟨p, names⟩ := planned
  cases p with
  | none =>
      obtain ⟨hresult, -⟩ := Prod.mk.inj h
      exact Or.inl ⟨(Except.ok.inj hresult).symm, plan_eq_none_iff.mp (congrArg Prod.fst hplan)⟩
  | some p =>
      obtain ⟨hresult, rfl⟩ := Prod.mk.inj h
      cases hqueries : p.queries q with
      | error e =>
          rw [hqueries] at hresult
          cases hresult
      | ok new =>
          rw [hqueries] at hresult
          exact Or.inr ⟨p, new, (Except.ok.inj hresult).symm, rfl, hqueries⟩

theorem rounds_run {fuel : Nat} {a : Names} {qs out : List Query}
    (h : rounds fuel a qs = .ok out) : ∃ done, Run a qs done out := by
  induction fuel generalizing a qs with
  | zero =>
      unfold rounds at h
      dsimp only at h
      rcases first_fork qs with ⟨hrest, hwhole⟩ | ⟨q, after, hrest, -⟩
      · rw [hrest] at h
        obtain rfl := Except.ok.inj h
        exact ⟨[], .whole hwhole⟩
      · rw [hrest] at h
        cases h
  | succ fuel ih =>
      unfold rounds at h
      dsimp only at h
      rcases first_fork qs with ⟨hrest, hwhole⟩ | ⟨q, after, hrest, hq, hqs, hbefore⟩
      · rw [hrest] at h
        obtain rfl := Except.ok.inj h
        exact ⟨[], .whole hwhole⟩
      · rw [hrest] at h
        dsimp only at h
        split at h
        next => cases h
        next hround =>
          obtain rfl := Except.ok.inj h
          obtain ⟨-, hsites⟩ | ⟨_, _, hnone, -⟩ := round_eq_ok hround
          · rw [hqs]
            exact ⟨[], .stuck hbefore hq hsites⟩
          · cases hnone
        next new b hround =>
          obtain ⟨hnone, -⟩ | ⟨p, new', hnew, hplan, hqueries⟩ := round_eq_ok hround
          · cases hnone
          · obtain rfl := Option.some.inj hnew
            obtain ⟨done, hdone⟩ := ih h
            rw [hqs]
            exact ⟨_, .cut hbefore hq hplan hqueries hdone⟩

/-- What every round keeps holds of the result of a run. -/
theorem Run.invariant {I : Names → List Query → Prop}
    (step : ∀ a b before q after p subs c, q.containsFork = true → plan q a = (some p, b) →
      RoundOf q p subs c → I a (before ++ q :: after) → I b (before ++ (subs ++ [c]) ++ after))
    {a : Names} {qs out : List Query} {done : List Round} (h : Run a qs done out) (hI : I a qs) :
    ∃ b, I b out := by
  induction h with
  | whole => exact ⟨_, hI⟩
  | stuck => exact ⟨_, hI⟩
  | cut _ hq hplan hqueries _ ih =>
      obtain ⟨subs, c, rfl, hround⟩ := queries_spec hqueries
      exact ih (step _ _ _ _ _ _ _ _ hq hplan hround hI)

/-- What passes from the query of each round to those it makes holds of all queries that come up. -/
theorem Run.all_made {P : Query → Prop} {a : Names} {qs out : List Query} {done : List Round}
    (h : Run a qs done out) (hqs : ∀ x ∈ qs, P x)
    (step : ∀ d ∈ done, P d.query → ∀ x ∈ d.queries, P x) :
    ∀ x ∈ qs ++ done.flatMap Round.queries, P x := by
  induction h with
  | whole | stuck => simpa using hqs
  | @cut a b before after new out q p rest _ _ _ _ _ ih =>
      have hnew : ∀ x ∈ new, P x := step ⟨q, p, new⟩ List.mem_cons_self (hqs q (by simp))
      have hall := ih (fun x hx => ?_) fun d hd => step d (List.mem_cons_of_mem _ hd)
      · intro x hx
        simp only [List.flatMap_cons, List.mem_append, List.mem_cons] at hx hall hqs
        rcases hx with hx | hx | hx
        · exact hqs x hx
        · exact hnew x hx
        · exact hall x (Or.inr hx)
      · simp only [List.mem_append] at hx
        rcases hx with (hx | hx) | hx
        · exact hqs x (by simp [hx])
        · exact hnew x hx
        · exact hqs x (by simp [hx])

/-- Every round of a run has a plan and carries it out. -/
theorem Run.planned {a : Names} {qs out : List Query} {done : List Round} (h : Run a qs done out) :
    ∀ d ∈ done, ∃ a b subs c, Planned d.query a b d.plan ∧ RoundOf d.query d.plan subs c ∧
      d.queries = subs ++ [c] := by
  induction h with
  | whole | stuck => exact fun d hd => absurd hd List.not_mem_nil
  | cut _ _ hplan hqueries _ ih =>
      intro d hd
      rcases List.mem_cons.mp hd with rfl | hd
      · obtain ⟨subs, c, rfl, hround⟩ := queries_spec hqueries
        exact ⟨_, _, subs, c, (plan_spec hplan).2, hround, rfl⟩
      · exact ih d hd

theorem Run.query_mem {a : Names} {qs out : List Query} {done : List Round} {d : Round}
    (h : Run a qs done out) (hd : d ∈ done) : d.query ∈ qs ++ done.flatMap Round.queries := by
  induction h with
  | whole | stuck => exact absurd hd List.not_mem_nil
  | cut _ _ _ _ _ ih =>
      rcases List.mem_cons.mp hd with rfl | hd
      · simp
      · have hmem := ih hd
        simp only [List.flatMap_cons, List.mem_append, List.mem_cons] at hmem ⊢
        tauto

/-- A query is split by a run, and its result holds no error. -/
theorem split_run {q : Query} {m : MultiQuery} (h : q.split = .ok m) :
    (∃ done, Run .start [q] done m.queries) ∧
      ∀ q' ∈ m.queries, ∀ e ∈ q'.entries, e.2.formula.errors = [] := by
  rw [Query.split] at h
  obtain ⟨qs, hqs, h⟩ := bind_eq_ok.mp h
  dsimp only at h
  split at h
  next hempty =>
    obtain rfl := Except.ok.inj h
    refine ⟨rounds_run hqs, fun q' hq' e he => ?_⟩
    have hnil := List.flatMap_eq_nil_iff.mp (List.isEmpty_iff.mp hempty) q' hq'
    exact List.flatMap_eq_nil_iff.mp hnil e he
  next => cases h

/-! ## An example -/

/-- Orders with their city, date and sales. -/
def orders : Registry where
  avatars := [⟨"t", "orders"⟩]
  columns :=
    [⟨"city", "t", "city", ⟨.string, false⟩, .none⟩, ⟨"date", "t", "date", ⟨.date, false⟩, .none⟩,
     ⟨"sales", "t", "sales", ⟨.integer, false⟩, .none⟩]

/-- One figure for each value of a field. -/
def figureBy (field : String) (figure : Formula) : QuerySpec :=
  { QuerySpec.empty with
    select := [⟨.field field, none, none⟩, ⟨figure, none, none⟩]
    groupBy := [⟨.field field, none, none⟩] }

/-- The sum of all sales. -/
def sumOfSales : Formula := .call "sum" [.field "sales"]

end FormulaSql.Split
