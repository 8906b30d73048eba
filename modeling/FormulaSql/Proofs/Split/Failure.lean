import FormulaSql.Proofs.Split.Mixing

/-!
# When splitting fails

A run of rounds fails at the first query whose round fails. Rounds keep the aliases of dimensions in
order: sub-queries give new ones, and the cropped query puts columns for a dimension and for what
has its alias alike. So a run fails exactly if it comes to a query that mixes aggregations.

* `Split.rounds_error_iff` says when a run fails
* `Query.split_error_iff` says what its failing comes from
-/

namespace FormulaSql

namespace Split

/-! ## The query at which a run fails -/

/-- After `n` rounds the query `x` is to be cut, with the names from `b` on. -/
inductive Reaches : Nat → Names → List Query → Names → Query → Prop where
  | here {a : Names} {before after : List Query} {q : Query} :
      (∀ x ∈ before, x.containsFork = false) → q.containsFork = true →
      Reaches 0 a (before ++ q :: after) a q
  | cut {n : Nat} {a b c : Names} {before after new : List Query} {q x : Query} {p : Plan} :
      (∀ x ∈ before, x.containsFork = false) → q.containsFork = true → plan q a = (some p, b) →
      p.queries q = .ok new → Reaches n b (before ++ new ++ after) c x →
      Reaches (n + 1) a (before ++ q :: after) c x

section Reaches

variable {n : Nat} {a b c : Names} {before after qs : List Query} {q x : Query}

theorem takeWhile_before (hbefore : ∀ x ∈ before, x.containsFork = false)
    (hq : q.containsFork = true) :
    (before ++ q :: after).takeWhile (fun q => !q.containsFork) = before := by
  rw [List.takeWhile_append_of_pos fun x hx => by simp [hbefore x hx]]
  simp [hq]

theorem drop_before (hbefore : ∀ x ∈ before, x.containsFork = false)
    (hq : q.containsFork = true) : (before ++ q :: after).drop
      ((before ++ q :: after).takeWhile fun q => !q.containsFork).length = q :: after := by
  rw [takeWhile_before hbefore hq, List.drop_left]

/-- There is one way to take a list of queries apart at its first fork. -/
theorem first_fork_unique {before' after' : List Query} {q' : Query}
    (hbefore : ∀ x ∈ before, x.containsFork = false) (hq : q.containsFork = true)
    (hbefore' : ∀ x ∈ before', x.containsFork = false) (hq' : q'.containsFork = true)
    (h : before ++ q :: after = before' ++ q' :: after') :
    before = before' ∧ q = q' ∧ after = after' := by
  have hsame : before = before' := by
    have hw := congrArg (List.takeWhile fun q => !q.containsFork) h
    rwa [takeWhile_before hbefore hq, takeWhile_before hbefore' hq'] at hw
  subst hsame
  exact ⟨rfl, List.cons.inj (List.append_cancel_left h)⟩

theorem Reaches.exists_fork (h : Reaches n a qs b x) : ∃ q ∈ qs, q.containsFork = true := by
  cases h with
  | here _ hq | cut _ hq => exact ⟨_, by simp, hq⟩

/-- The first query with forks is reached, or one after its round. -/
theorem reaches_iff (hbefore : ∀ x ∈ before, x.containsFork = false)
    (hq : q.containsFork = true) :
    Reaches n a (before ++ q :: after) c x ↔ (n = 0 ∧ c = a ∧ x = q) ∨
      ∃ m p b new, n = m + 1 ∧ plan q a = (some p, b) ∧ p.queries q = .ok new ∧
        Reaches m b (before ++ new ++ after) c x := by
  constructor
  · intro h
    generalize hqs : before ++ q :: after = qs at h
    cases h with
    | here hbefore' hq' =>
        obtain ⟨-, rfl, -⟩ := first_fork_unique hbefore hq hbefore' hq' hqs
        exact Or.inl ⟨rfl, rfl, rfl⟩
    | cut hbefore' hq' hplan hqueries hrest =>
        obtain ⟨rfl, rfl, rfl⟩ := first_fork_unique hbefore hq hbefore' hq' hqs
        exact Or.inr ⟨_, _, _, _, rfl, hplan, hqueries, hrest⟩
  · rintro (⟨rfl, rfl, rfl⟩ | ⟨m, p, b, new, rfl, hplan, hqueries, hrest⟩)
    · exact .here hbefore hq
    · exact .cut hbefore hq hplan hqueries hrest

/-- What a round comes to, in terms of its plan. -/
theorem round_cases (q : Query) (a : Names) :
    (∃ b, plan q a = (none, b) ∧ round q a = (.ok none, b)) ∨
      ∃ p b, plan q a = (some p, b) ∧
        ((∃ id message, p.queries q = .error (.split id message) ∧
            round q a = (.error (.split id message), b)) ∨
          ∃ new, p.queries q = .ok new ∧ round q a = (.ok (some new), b)) := by
  have hfails := failsToSplit_round q a
  rcases hplan : plan q a with ⟨_ | p, b⟩
  · exact Or.inl ⟨b, rfl, by simp [round, hplan]⟩
  · have hround : round q a = ((p.queries q).map some, b) := by simp [round, hplan]
    refine Or.inr ⟨p, b, rfl, ?_⟩
    rw [hround] at hfails ⊢
    cases hqueries : p.queries q with
    | error e =>
        obtain ⟨id, message, rfl⟩ := hfails e (by simp [hqueries, Except.map])
        exact Or.inl ⟨id, message, rfl, rfl⟩
    | ok new => exact Or.inr ⟨new, rfl, rfl⟩

/-- A run fails exactly if it reaches a query that cannot be cut, unless it is cut short. -/
theorem rounds_error_iff {fuel : Nat} :
    (∃ id message, rounds fuel a qs = .error (.split id message)) ↔
      ∃ n < fuel, ∃ b x, Reaches n a qs b x ∧
        ∃ p c, plan x b = (some p, c) ∧ ∃ e, p.queries x = .error e := by
  induction fuel generalizing a qs with
  | zero =>
      refine iff_of_false ?_ (by simp)
      rintro ⟨id, message, h⟩
      unfold rounds at h
      dsimp only at h
      split at h <;> cases h
  | succ fuel ih =>
      rcases first_fork qs with ⟨hrest, hnone⟩ | ⟨q, after, -, hq, hqs, hbefore⟩
      · refine iff_of_false ?_ ?_
        · rintro ⟨id, message, h⟩
          unfold rounds at h
          dsimp only at h
          rw [hrest] at h
          cases h
        · rintro ⟨n, -, b, x, hreaches, -⟩
          obtain ⟨q, hq, hfork⟩ := hreaches.exists_fork
          exact absurd (hnone q hq) (by simp [hfork])
      · generalize qs.takeWhile _ = before at hqs hbefore
        subst hqs
        rw [rounds_succ (drop_before hbefore hq), takeWhile_before hbefore hq]
        simp only [reaches_iff hbefore hq]
        obtain ⟨b, hplan, hround⟩ | ⟨p, b, hplan, ⟨id, message, hqueries, hround⟩ |
          ⟨new, hqueries, hround⟩⟩ := round_cases q a <;> rw [hround]
        · refine iff_of_false (by simp) ?_
          rintro ⟨n, -, c, x, (⟨-, rfl, rfl⟩ | ⟨m, p, b', new, -, hplan', -⟩), p', c', hplan'', -⟩
          · cases hplan.symm.trans hplan''
          · cases hplan.symm.trans hplan'
        · refine iff_of_true ⟨id, message, rfl⟩ ?_
          exact ⟨0, by simp, a, q, Or.inl ⟨rfl, rfl, rfl⟩, p, b, hplan, _, hqueries⟩
        · have hsame {p' : Plan} {c : Names} (hplan' : plan q a = (some p', c)) :
              p = p' ∧ b = c := by
            obtain ⟨heq, hbc⟩ := Prod.mk.inj (hplan.symm.trans hplan')
            exact ⟨Option.some.inj heq, hbc⟩
          refine ih.trans ⟨?_, ?_⟩
          · rintro ⟨n, hn, c, x, hreaches, hfails⟩
            exact ⟨n + 1, by omega, c, x,
              Or.inr ⟨n, p, b, new, rfl, hplan, hqueries, hreaches⟩, hfails⟩
          · rintro ⟨n, hn, c, x, (⟨-, rfl, rfl⟩ | ⟨m, p', b', new', rfl, hplan', hqueries',
              hreaches⟩), hfails⟩
            · obtain ⟨p', c', hplan', e, he⟩ := hfails
              obtain ⟨rfl, -⟩ := hsame hplan'
              exact absurd (hqueries.symm.trans he) (by simp)
            · obtain ⟨rfl, rfl⟩ := hsame hplan'
              obtain rfl := Except.ok.inj (hqueries.symm.trans hqueries')
              exact ⟨m, by omega, c, x, hreaches, hfails⟩

/-- What every round keeps holds where a run comes to. -/
theorem Reaches.invariant {I : Names → List Query → Prop}
    (step : ∀ a b before q after p subs c, plan q a = (some p, b) → RoundOf q p subs c →
      I a (before ++ q :: after) → I b (before ++ (subs ++ [c]) ++ after))
    (h : Reaches n a qs b x) (hI : I a qs) : ∃ ys, x ∈ ys ∧ I b ys := by
  induction h with
  | here => exact ⟨_, by simp, hI⟩
  | cut _ _ hplan hqueries _ ih =>
      obtain ⟨subs, c, rfl, hround⟩ := queries_spec hqueries
      exact ih (step _ _ _ _ _ _ _ _ hplan hround hI)

/-- What the queries of a round take over from the query that is cut holds where a run comes to. -/
theorem Reaches.of_round {P : Query → Prop}
    (step : ∀ a b q p subs c, plan q a = (some p, b) → RoundOf q p subs c → P q →
      ∀ y ∈ subs ++ [c], P y)
    (h : Reaches n a qs b x) (hqs : ∀ q ∈ qs, P q) : P x := by
  obtain ⟨ys, hx, hys⟩ := h.invariant (I := fun _ ys => ∀ y ∈ ys, P y)
    (fun a b before q after p subs c hplan hround hI y hy => by
      rcases List.mem_append.mp hy with hy | hy
      · rcases List.mem_append.mp hy with hy | hy
        · exact hI y (List.mem_append_left _ hy)
        · exact step a b q p subs c hplan hround (hI q (by simp)) y hy
      · exact hI y (List.mem_append_right _ (List.mem_cons_of_mem q hy))) hqs
  exact hys x hx

end Reaches

/-! ## Aliases of dimensions -/

section Naming

variable {q x : Query} {m : Mask} {a b : Names}

/-- No filter has a name like those of columns. -/
def FiltersApart (stem : String) (q : Query) : Prop :=
  ∀ e ∈ q.filters, ∀ k : Nat, e.aliasName ≠ some (stem ++ toString k)

theorem exists_alias_of_maskFilters (hm : MaskOf q a b m) {e : Entry} (he : e ∈ maskFilters q m) :
    ∃ e₀ ∈ q.filters, e.aliasName = e₀.aliasName := by
  rcases List.mem_append.mp he with he | he
  · obtain ⟨⟨e', i⟩, hei, rfl⟩ := List.mem_map.mp he
    exact ⟨e', List.fst_mem_of_mem_zipIdx (List.mem_filter.mp hei).1, rfl⟩
  · obtain ⟨e₀, he₀, -, -, rfl⟩ := hm.addFilter e he
    exact ⟨e₀, he₀, rfl⟩

theorem SubqueryOf.filtersApart (hx : SubqueryOf q m x) (hm : MaskOf q a b m) {stem : String}
    (hq : FiltersApart stem q) : FiltersApart stem x := by
  intro e he k
  obtain ⟨e₀, he₀, hname⟩ := exists_alias_of_maskFilters hm (hx.filters ▸ he)
  rw [hname]
  exact hq e₀ he₀ k

/-- In a sub-query the alias of a dimension is new and stands for this dimension only. -/
theorem SubqueryOf.namesDimensions (hx : SubqueryOf q m x) (hm : MaskOf q a b m)
    (hapart : AliasesApart m.cuts m.extras) (hq : FiltersApart a.columns.stem q) :
    x.NamesDimensions := by
  intro part _ hpart e he d hd n hen hdn
  obtain ⟨y, hy, rfl⟩ := List.mem_map.mp (hx.groupBy ▸ hd)
  obtain ⟨hy, -⟩ := List.mem_filter.mp hy
  obtain rfl : y.aliasName = n := Option.some.inj hdn
  have hextra {z : Extra} (hz : z ∈ m.extras) (hname : z.aliasName = y.aliasName) :
      ((extraEntry y).formula == (extraEntry z).formula) = true := by
    obtain rfl := List.inj_on_of_nodup_map hapart.extra hz hy hname
    exact BEq.rfl
  cases part with
  | joinOn => exact absurd rfl hpart
  | select =>
      rcases hx.select_cases he with ⟨c, hc, hentry⟩ | ⟨z, hz, rfl⟩
      · obtain ⟨-, -, -, -, -, hcut⟩ := cutEntry_eq_ok hentry
        exact absurd (Option.some.inj (hcut.symm.trans hen)) (hapart.cut c hc y hy)
      · exact hextra hz (Option.some.inj hen)
  | groupBy =>
      rw [Query.part, hx.groupBy] at he
      obtain ⟨z, hz, rfl⟩ := List.mem_map.mp he
      exact hextra (List.mem_filter.mp hz).1 (Option.some.inj hen)
  | filters =>
      obtain ⟨k, -, -, hk⟩ := (hm.extra y hy).1
      exact absurd (hen.trans (congrArg some hk)) (hx.filtersApart hm hq e he k)
  | orderBy => exact absurd (hx.orderBy ▸ he : e ∈ []) List.not_mem_nil

theorem CroppedOf.filtersApart {masks : List Mask} {base : Mask} {compatible : Bool} {c : Query}
    (hc : CroppedOf q masks base compatible c) {stem : String} (hq : FiltersApart stem q) :
    FiltersApart stem c := by
  intro e' he' k
  obtain ⟨e, i, he, -, hcrop⟩ := hc.filters.origin he'
  rw [(cropEntry_some hcrop).2.1]
  exact hq e (List.mem_of_getElem? he) k

/-- In the cropped query the alias of a dimension stands for a column, wherever it is used. -/
theorem CroppedOf.namesDimensions {masks : List Mask} {base : Mask} {compatible : Bool} {c : Query}
    (hc : CroppedOf q masks base compatible c) (hq : q.NamesDimensions) : c.NamesDimensions := by
  intro part _ hpart e' he' d' hd' n hen hdn
  obtain ⟨e, i, he, -, hcrop⟩ := hc.origin hpart he'
  obtain ⟨d, j, hd, -, hcropd⟩ := hc.origin (p := .groupBy) (by simp) hd'
  obtain ⟨hf, hname, -⟩ := cropEntry_some hcrop
  obtain ⟨hg, hnamed, -⟩ := cropEntry_some hcropd
  rw [hname] at hen
  rw [hnamed] at hdn
  have he := List.mem_of_getElem? he
  have hd : d ∈ q.groupBy := List.mem_of_getElem? hd
  have hsame := hq part (Part.mem_all part) hpart e he d hd n hen hdn
  have halias {y : Entry} (hy : y.aliasName = some n) :
      hasAliasIn (dimensionAliases q) y = true :=
    hasAliasIn_iff.mpr ⟨n, List.mem_filterMap.mpr ⟨d, hd, hdn⟩, hy⟩
  generalize e'.formula = f at hf
  generalize d'.formula = g at hg
  cases hf with
  | constant hconst =>
      cases hg with
      | constant => exact hsame
      | dimension hnot =>
          exact absurd (Formula.constant_of_same (BEq.symm hsame) hconst) (by simp [hnot])
      | incompatible _ hnot | cut _ hnot => exact absurd (halias hdn) (by simp [hnot])
  | @dimension n' hnot _ hn' =>
      cases hg with
      | constant hconst => exact absurd (Formula.constant_of_same hsame hconst) (by simp [hnot])
      | @dimension n'' _ _ hn'' =>
          rw [dimensionColumn_congr hsame] at hn''
          obtain rfl := Option.some.inj (hn'.symm.trans hn'')
          exact columnAt_same hsame n'
      | incompatible _ hnot | cut _ hnot => exact absurd (halias hdn) (by simp [hnot])
  | incompatible _ hnot | cut _ hnot => exact absurd (halias hen) (by simp [hnot])

/-- The names that rounds leave to columns, and what they keep for the sake of these. -/
structure Named (a : Names) (qs : List Query) : Prop where
  stem : a.columns.stem = Names.start.columns.stem
  dimensions : ∀ x ∈ qs, x.NamesDimensions
  filters : ∀ x ∈ qs, FiltersApart Names.start.columns.stem x

theorem Named.step {before after subs : List Query} {c : Query} {p : Plan}
    (hplan : plan q a = (some p, b)) (hround : RoundOf q p subs c)
    (h : Named a (before ++ q :: after)) : Named b (before ++ (subs ++ [c]) ++ after) := by
  obtain ⟨hle, hplanned⟩ := plan_spec hplan
  have hq : q ∈ before ++ q :: after := by simp
  have hfilters : FiltersApart a.columns.stem q := h.stem ▸ h.filters q hq
  have hnew : ∀ x ∈ subs ++ [c], x.NamesDimensions ∧ FiltersApart Names.start.columns.stem x := by
    intro x hx
    rcases List.mem_append.mp hx with hx | hx
    · obtain ⟨m, hm, hsub⟩ := forall₂_exists_left hround.subqueries hx
      have hmask := hplanned.masks.mask m hm
      exact ⟨hsub.namesDimensions hmask (plan_aliasesApart hplan m hm) hfilters,
        hsub.filtersApart hmask (h.filters q hq)⟩
    · obtain rfl := List.mem_singleton.mp hx
      obtain ⟨base, others, -, -, hcropped, -⟩ := hround.cropped
      exact ⟨hcropped.namesDimensions (h.dimensions q hq),
        hcropped.filtersApart (h.filters q hq)⟩
  have hold : ∀ x ∈ before ++ (subs ++ [c]) ++ after,
      x ∈ before ++ q :: after ∨ x ∈ subs ++ [c] := by
    intro x hx
    simp only [List.mem_append, List.mem_cons] at hx ⊢
    tauto
  refine ⟨hle.columnStem.trans h.stem, fun x hx => ?_, fun x hx => ?_⟩
  · exact (hold x hx).elim (h.dimensions x) fun hx => (hnew x hx).1
  · exact (hold x hx).elim (h.filters x) fun hx => (hnew x hx).2

end Naming

end Split

namespace Query

open Split

variable {q : Query}

/-- A query that is split gives an error of splitting only where its rounds do. -/
theorem split_eq_split_iff {id message : String} : q.split = .error (.split id message) ↔
    rounds maxRounds .start [q] = .error (.split id message) := by
  rw [Query.split]
  cases rounds maxRounds .start [q] with
  | error e => simp [bind, Except.bind]
  | ok qs =>
      refine iff_of_false ?_ (by simp)
      intro h
      change (if _ then _ else _) = _ at h
      split at h <;> cases h

/-- The rounds over the query come to one that mixes aggregations. -/
def ComesToMix (q : Query) : Prop :=
  ∃ n < maxRounds, ∃ a x p b, Reaches n .start [q] a x ∧ plan x a = (some p, b) ∧
    MixesAggregates x p

/-- A query of which aliases stand for one dimension each cannot be split exactly if its rounds come
to a query that mixes aggregations. -/
theorem split_error_iff (hq : q.NamesDimensions)
    (hfilters : FiltersApart Names.start.columns.stem q) :
    (∃ id message, q.split = .error (.split id message)) ↔ q.ComesToMix := by
  have hstart : Named .start [q] := by
    refine ⟨rfl, ?_, ?_⟩ <;> simpa
  have hnames {n : Nat} {a : Names} {x : Query} (h : Reaches n .start [q] a x) :
      x.NamesDimensions := by
    obtain ⟨ys, hx, hys⟩ := h.invariant (I := Named)
      (fun _ _ _ _ _ _ _ _ hplan hround hI => hI.step hplan hround) hstart
    exact hys.dimensions x hx
  simp only [split_eq_split_iff]
  rw [rounds_error_iff]
  constructor
  · rintro ⟨n, hn, a, x, hreaches, p, b, hplan, hfails⟩
    exact ⟨n, hn, a, x, p, b, hreaches, hplan,
      (queries_error_iff hplan (hnames hreaches)).mp hfails⟩
  · rintro ⟨n, hn, a, x, p, b, hreaches, hplan, hmixes⟩
    exact ⟨n, hn, a, x, hreaches, p, b, hplan,
      (queries_error_iff hplan (hnames hreaches)).mpr hmixes⟩

end Query

/-! ## How compiling fails -/

/-- Preparing fails because of formulas only: one stage checks dimensions. -/
theorem Query.process_eq_error {q : Query} {s : Settings} {ordering : List Formula}
    {e : QueryError} (h : q.process s ordering = .error e) : ∃ errors, e = .formulas errors := by
  obtain ⟨stage, hstage, x, hfails⟩ := foldlM_eq_error h
  simp only [Pipeline.stages, List.mem_cons, List.not_mem_nil, or_false] at hstage
  rcases hstage with rfl | rfl | rfl | rfl | rfl | rfl | rfl | rfl
  · cases hfails
  · unfold Pipeline.optimize at hfails
    split at hfails <;> cases hfails
  · unfold Pipeline.dropConstantGroups at hfails
    split at hfails <;> cases hfails
  · cases hfails
  · unfold Pipeline.nullifyTotals at hfails
    split at hfails <;> cases hfails
  · have hcheck : ∀ {e : QueryError}, Pipeline.checkTopLevel x = .error e →
        ∃ errors, e = .formulas errors := by
      intro e hcheck
      rw [Pipeline.checkTopLevel] at hcheck
      cases hall : x.entries.forM fun e => Normalize.checkTopLevel e.2.formula x.dimensions with
      | error cause =>
          rw [hall] at hcheck
          exact ⟨[cause], (Except.error.inj hcheck).symm⟩
      | ok =>
          rw [hall] at hcheck
          cases hcheck
    unfold Pipeline.makeForks at hfails
    dsimp only at hfails
    split at hfails
    · rcases bind_eq_error hfails with hfails | ⟨_, -, hfails⟩
      · exact hcheck hfails
      · cases hfails
    · cases hfails
  · cases hfails
  · cases hfails

/-- Compiling fails because of formulas, or because an avatar is not registered. -/
theorem QuerySpec.compile_eq_error {spec : QuerySpec} {r : Registry} {s : Settings}
    {e : QueryError} (h : spec.compile r s = .error e) :
    (∃ errors, e = .formulas errors) ∨ ∃ id, e = .unknownAvatar id := by
  rw [QuerySpec.compile] at h
  dsimp only at h
  split at h
  · exact Or.inl ⟨_, (Except.error.inj h).symm⟩
  · rcases bind_eq_error h with h | ⟨_, -, h⟩
    · obtain ⟨id, -, hfails⟩ := mapM_eq_error h
      rw [Compile.sourceFor] at hfails
      split at hfails
      · cases hfails
      · exact Or.inr ⟨id, (Except.error.inj hfails).symm⟩
    · rcases bind_eq_error h with h | ⟨_, -, h⟩
      · exact Or.inl (Query.process_eq_error h)
      · split at h
        · exact Or.inl ⟨_, (Except.error.inj h).symm⟩
        · cases h

open Split in
/-- A description with aliases of its own for dimensions cannot be split exactly if the rounds over
the compiled query come to one that mixes aggregations. -/
theorem QuerySpec.split_error_iff {spec : QuerySpec} {r : Registry} {s : Settings}
    (haliases : spec.GivesAliases) (hwritten : spec.WritesAlike)
    (hfilters : ∀ item ∈ spec.filters, ∀ k : Nat, item.aliasName ≠ some ("_cp" ++ toString k)) :
    (∃ id message, spec.compileMulti r s = .error (.split id message)) ↔
      ∃ q, spec.compile r s = .ok q ∧ q.ComesToMix := by
  rw [QuerySpec.compileMulti]
  cases hq : spec.compile r s with
  | error e =>
      refine iff_of_false ?_ (by simp)
      rintro ⟨id, message, h⟩
      obtain rfl : e = .split id message := Except.error.inj h
      rcases compile_eq_error hq with ⟨errors, h⟩ | ⟨avatar, h⟩ <;> cases h
  | ok q =>
      have hapart : FiltersApart Names.start.columns.stem q := by
        intro e he k
        obtain ⟨item, hitem, hname⟩ := compile_filterAlias hq he
        rw [hname]
        exact hfilters item hitem k
      exact (Query.split_error_iff (compile_namesDimensions haliases hwritten hq) hapart).trans
        (by simp)

end FormulaSql
