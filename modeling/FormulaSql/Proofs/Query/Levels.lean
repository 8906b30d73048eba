import FormulaSql.Proofs.Query.LevelForks

/-!
# Levels of detail become forks

Lookups are put into forks first, aggregations with a level of detail of their own after that.

* `Query.process_levels` says where the levels of a prepared query have gone
-/

namespace FormulaSql

namespace Formula

/-! ## All rules together -/

/-- What becomes of the levels of detail of a formula of a query with the dimensions `dims`. -/
structure LevelsForked (dims : List Formula) (f g : Formula) : Prop where
  /-- The only levels left are those that lookups read directly. -/
  left : g.LevelsIn fun n l => ∃ l', f.LooksUp n l' ∧ (l' == l) = true
  /-- In the place of any other aggregation with a level there is a fork at the dimensions that it
  has there, or an error. -/
  forked : ∀ p x n l, f.at? p = some x → x.ownLevel? = some (n, l) →
    (∀ a ∈ (f.along p).getLast?, Normalize.lookup? a = none) →
    Settled n (l.resolve (contextDimensions dims (f.along p))) p g

section LevelsForked

variable {f g h : Formula} {dims : List Formula}

theorem LevelsForked.of_same (hfg : LevelsForked dims f g) (hsame : (g == h) = true) :
    LevelsForked dims f h where
  left := by
    refine hfg.left.of_same ?_ hsame
    rintro n l l' hll' ⟨l₀, hlooks, hl⟩
    exact ⟨l₀, hlooks, BEq.trans hl hll'⟩
  forked p x n l hx hown hlast := (hfg.forked p x n l hx hown hlast).of_same hsame

theorem LevelsForked.of_enclosed (hfg : LevelsForked dims f g) (hgh : Enclosed g h) :
    LevelsForked dims f h where
  left x hx n l hown := by
    obtain ⟨y, hy, hown⟩ := hgh.level x hx n l hown
    exact hfg.left y hy n l hown
  forked p x n l hx hown hlast := hgh.settled _ _ _ (hfg.forked p x n l hx hown hlast)

/-- Lookups first, then aggregations. -/
theorem levelsForked_levelOfDetail (hdims : ∀ d ∈ dims, d.Flat) (hf : f.Forkless)
    (hg : g.Regular) (hlooked : LookedUp f f g) :
    LevelsForked dims f (g.transform (Normalize.levelOfDetail dims)) where
  left := by
    refine levelsIn_levelOfDetail ?_ hdims hg fun x hx q hq n l hown => ?_
    · rintro n l l' hll' ⟨l₀, hlooks, hl⟩
      exact ⟨l₀, hlooks, BEq.trans hl hll'⟩
    · exact ⟨l, hlooked.result x hx q hq n l hown, BEq.rfl⟩
  forked p x n l hx hown hlast := by
    have hreads : ∀ a ∈ (f.along p).getLast?, a.readsFirst = false := by
      intro a ha
      have hmem := mem_nodes_of_along (List.mem_of_getLast? ha)
      rw [readsFirst, isFork, hf.fork?_eq_none hmem, hlast a ha]
      rfl
    have hawaits : Awaits n (l.resolve (contextDimensions dims (f.along p))) dims false p f :=
      awaits_of_at? hx hown hreads fun _ => rfl
    refine .of_same (offered_beq_transform _ g)
      ((hlooked.awaits _ _ _ _ _ hawaits).settled hdims hg ?_ rfl ?_)
    · exact fun _ ha => absurd ha List.not_mem_nil
    · exact fun _ _ ha => absurd ha (by simp)

/-- A formula without levels has none to fork. -/
theorem levelsForked_of_levelsIn (hf : f.LevelsIn fun _ _ => False)
    (hg : g.LevelsIn fun _ _ => False) : LevelsForked dims f g where
  left x hx n l hown := (hg x hx n l hown).elim
  forked _ x n l hx hown _ := (hf x (mem_nodes_of_at? hx) n l hown).elim

/-- Lookups alone, in a formula without levels. -/
theorem levelsForked_lookups {allowEmpty : Bool} {lookups : List Rule}
    (hdims : ∀ d ∈ dims, d.Flat) (hf : f.Regular) (hlevels : f.LevelsIn fun _ _ => False)
    (hlookups : lookups = [] ∨ lookups = [Normalize.lookups dims allowEmpty]) :
    (f.transformAll lookups).Regular ∧ LevelsForked dims f (f.transformAll lookups) := by
  rcases hlookups with rfl | rfl
  · exact ⟨hf, levelsForked_of_levelsIn hlevels hlevels⟩
  · refine ⟨(passes_transform (keepsFlat_lookups hdims) hf).regular, ?_⟩
    exact levelsForked_of_levelsIn hlevels
      (levelsIn_lookups (fun _ _ _ _ h => h) hdims hf hlevels)

theorem levelsForked_transformAll {allowEmpty : Bool} {lookups windows : List Rule}
    (hdims : ∀ d ∈ dims, d.Flat) (hf : f.Regular) (hforkless : f.Forkless)
    (hlookups : lookups = [] ∨ lookups = [Normalize.lookups dims allowEmpty])
    (hwindows : windows = [] ∨ windows = [Normalize.windowForks dims]) :
    (f.transformAll (lookups ++ [Normalize.levelOfDetail dims] ++ windows)).Regular ∧
      LevelsForked dims f
        (f.transformAll (lookups ++ [Normalize.levelOfDetail dims] ++ windows)) := by
  have hfirst : (f.transformAll lookups).Regular ∧ LookedUp f f (f.transformAll lookups) := by
    rcases hlookups with rfl | rfl
    · exact ⟨hf, lookedUp_refl (self_mem_nodes f) hforkless⟩
    · exact lookedUp_transform hdims hf hforkless
  have hlevels := levelsForked_levelOfDetail hdims hforkless hfirst.1 hfirst.2
  have hregular := (passes_transform (keepsFlat_levelOfDetail hdims) hfirst.1).regular
  rw [transformAll, List.foldl_append, List.foldl_append]
  rcases hwindows with rfl | rfl
  · exact ⟨hregular, hlevels⟩
  · obtain ⟨hlast, henclosed⟩ := enclosed_transform (keepsFlat_windowForks hdims)
      (fun _ _ _ hr => windowForks_encloses hdims hr) hregular
    exact ⟨hlast, hlevels.of_enclosed henclosed⟩

end LevelsForked

/-! ## Where levels are looked for -/

/-- No level stands below a direction. -/
def Undirected (f : Formula) : Prop :=
  f.All fun g => ∀ e d, g.kind = .ordered e d → e.LevelsIn fun _ _ => False

/-- The search for extended aggregations below a node that is inside another one or not. -/
def extendedSearch (nested : Bool) : Formula → Bool → Bool := recur fun f k inside =>
  f.isExtendedCall || (f.isAggregateCall && nested && inside) ||
    k.autonomous.any fun below => below (inside || f.isAggregateCall)

section Search

variable {f c : Formula} {nested inside : Bool}

theorem extendedSearch_eq (f : Formula) (nested inside : Bool) :
    f.extendedSearch nested inside =
      (f.isExtendedCall || (f.isAggregateCall && nested && inside) ||
        f.autonomous.any fun c => c.extendedSearch nested (inside || f.isAggregateCall)) := by
  rw [extendedSearch, recur_eq, Kind.autonomous_map, List.any_map]
  rfl

theorem isExtendedCall_of_ownLevel? {n : String} {l : Lod Formula}
    (h : f.ownLevel? = some (n, l)) : f.isExtendedCall = true := by
  obtain ⟨c, hk, haggregate, hinherited, -⟩ := ownLevel?_eq_some.mp h
  unfold isExtendedCall
  rw [isAggregateCall_of_kind hk, call?, hk]
  simp [haggregate, hinherited]

/-- The search goes on below all children but those of windows, directions and forks, and those
where only dimensions are expected. -/
theorem mem_autonomous_or_sides (hc : c ∈ f.children) (hwindow : f.isWindowCall = false)
    (hfork : f.isFork = false) (hordered : ∀ e d, f.kind ≠ .ordered e d) :
    c ∈ f.autonomous ∨ c ∈ f.kind.sides := by
  rw [autonomous, Kind.autonomous, Kind.sides]
  rw [isWindowCall, window?] at hwindow
  rw [isFork, fork?] at hfork
  rw [children] at hc
  cases hk : f.kind with
  | call k =>
      rw [hk] at hc
      have hle : (Kind.call k).mainCount ≤ (Kind.call k).autonomousCount := by
        simp only [Kind.mainCount, Kind.autonomousCount]
        split <;> omega
      rw [← List.take_append_drop (Kind.call k).autonomousCount (Kind.call k).children,
        List.mem_append] at hc
      exact hc.imp id fun h => List.drop_subset_drop_left _ hle h
  | window w =>
      rw [hk] at hwindow
      exact absurd hwindow (by simp)
  | fork q =>
      rw [hk] at hfork
      exact absurd hfork (by simp)
  | ordered e d => exact absurd hk (hordered e d)
  | _ =>
      rw [hk] at hc
      exact Or.inl (List.take_length.symm ▸ hc)

/-- A formula in which nothing is found has no levels. -/
theorem levelsIn_of_extendedSearch (hf : f.Regular) (hforkless : f.Forkless)
    (hundirected : f.Undirected) (hwindow : f.All fun g => g.isWindowCall = false)
    (h : f.extendedSearch nested inside = false) : f.LevelsIn fun _ _ => False := by
  induction f using induction_children generalizing inside with
  | step f ih =>
      rw [extendedSearch_eq, Bool.or_eq_false_iff, Bool.or_eq_false_iff] at h
      obtain ⟨⟨hextended, -⟩, hbelow⟩ := h
      refine all_iff.mpr ⟨?_, ?_⟩
      · intro n l hown
        exact absurd (isExtendedCall_of_ownLevel? hown) (by simp [hextended])
      · intro c hc
        by_cases hordered : ∃ e d, f.kind = .ordered e d
        · obtain ⟨e, d, hk⟩ := hordered
          rw [children, hk] at hc
          obtain rfl := List.mem_singleton.mp hc
          exact hundirected f (self_mem_nodes f) c d hk
        · have hplace := mem_autonomous_or_sides hc (hwindow f (self_mem_nodes f))
            hforkless.not_isFork fun e d hk => hordered ⟨e, d, hk⟩
          rcases hplace with hauto | hside
          · have hsearch := List.any_eq_false.mp hbelow c hauto
            exact ih c hc (hf.of_child hc) (hforkless.of_child hc) (hundirected.of_child hc)
              (hwindow.of_child hc) (Bool.not_eq_true _ ▸ hsearch)
          · exact (hf.flat_sides c hside).levelsIn

end Search

end Formula

/-! ## The query -/

/-- The query has something that makes the stage look for levels of detail. -/
def Query.seeksLevels (q : Query) : Bool :=
  (q.anyFormula fun f => f.containsExtended true) || q.anyFormula Formula.containsWindow

/-- Each formula of the second query is regular and has the levels of the formula in its place in
the first query forked. -/
def Query.LevelsForked (q q' : Query) : Prop :=
  ∀ p, List.Forall₂ (fun e e' => e'.formula.Regular ∧
    Formula.LevelsForked q.dimensions e.formula e'.formula) (q.part p) (q'.part p)

section Process

variable {q q' : Query} {s : Settings} {ordering : List Formula}

theorem mapEntry_formula (F : Formula → Formula) (e : Entry) :
    (F e.formula == (Query.mapEntry F e).formula) = true ∧
      ((Query.mapEntry F e).formula = F e.formula ∨
        (Query.mapEntry F e).formula = e.formula) := by
  rw [Query.mapEntry]
  split
  next hsame => exact ⟨hsame, Or.inr rfl⟩
  next => exact ⟨BEq.rfl, Or.inl rfl⟩

/-- The rules of the stage, each of them where there is something to do for it. -/
theorem makeForks_rules (h : Pipeline.makeForks s q = .ok q') :
    q' = Pipeline.applyRules q
      ((if q.anyFormula Formula.containsLookup
          then [Normalize.lookups q.dimensions s.allowEmptyDimensions] else []) ++
        (if q.seeksLevels then [Normalize.levelOfDetail q.dimensions] else []) ++
        if q.anyFormula Formula.containsWindow
          then [Normalize.windowForks q.dimensions] else []) := by
  unfold Pipeline.makeForks at h
  dsimp only at h
  split at h
  · obtain ⟨_, -, h⟩ := bind_eq_ok.mp h
    exact (Except.ok.inj h).symm
  · exact (Except.ok.inj h).symm

/-- The rules for levels come in if levels are looked for. -/
theorem makeForks_eq_ok (h : Pipeline.makeForks s q = .ok q') :
    ∃ lookups windows : List Rule,
      (lookups = [] ∨ lookups = [Normalize.lookups q.dimensions s.allowEmptyDimensions]) ∧
      (windows = [] ∨ windows = [Normalize.windowForks q.dimensions]) ∧
      q' = Pipeline.applyRules q (if q.seeksLevels
        then lookups ++ [Normalize.levelOfDetail q.dimensions] ++ windows else lookups) := by
  have hif {rule : Rule} (b : Bool) :
      (if b then [rule] else []) = [] ∨ (if b then [rule] else []) = [rule] := by
    cases b <;> simp
  refine ⟨_, _, hif (q.anyFormula Formula.containsLookup),
    hif (q.anyFormula Formula.containsWindow), (makeForks_rules h).trans ?_⟩
  cases hseeks : q.seeksLevels with
  | true => rfl
  | false =>
      rw [Query.seeksLevels, Bool.or_eq_false_iff] at hseeks
      simp [hseeks.2]

/-- Where nothing is found, there are no levels. -/
theorem levelsIn_of_seeksLevels (hq : q.Regular) (hseeks : q.seeksLevels = false) {p : Part}
    {e : Entry} (he : e ∈ q.part p) (hundirected : e.formula.Undirected) :
    e.formula.LevelsIn fun _ _ => False := by
  rw [Query.seeksLevels, Bool.or_eq_false_iff, Query.anyFormula, Query.anyFormula,
    List.any_eq_false, List.any_eq_false] at hseeks
  obtain ⟨hregular, hforkless⟩ := hq.formula p (Part.mem_all p) e he
  have hextended : e.formula.extendedSearch true false = false :=
    Bool.not_eq_true _ ▸ hseeks.1 (p, e) (Query.mem_entries he)
  have hwindow := hseeks.2 (p, e) (Query.mem_entries he)
  rw [Bool.not_eq_true, Formula.containsWindow, Formula.any, List.any_eq_false] at hwindow
  refine Formula.levelsIn_of_extendedSearch hregular hforkless hundirected ?_ hextended
  intro g hg
  exact Bool.not_eq_true _ ▸ hwindow g hg

/-- It is enough to look at what the rules do to each formula. -/
theorem Query.LevelsForked.of_rules {rules : List Rule}
    (hbefore : ∀ p, ∀ e ∈ q.part p, e.formula.Regular)
    (hrules : ∀ p, ∀ e ∈ q.part p, (e.formula.transformAll rules).Regular ∧
      Formula.LevelsForked q.dimensions e.formula (e.formula.transformAll rules)) :
    q.LevelsForked (Pipeline.applyRules q rules) := by
  intro p
  rw [Pipeline.applyRules, Query.part_mapFormulas, List.forall₂_map_right_iff]
  apply List.forall₂_same.mpr
  intro e he
  obtain ⟨hregular, hlevels⟩ := hrules p e he
  obtain ⟨hsame, hformula⟩ := mapEntry_formula (fun f => f.transformAll rules) e
  refine ⟨?_, hlevels.of_same hsame⟩
  rcases hformula with heq | heq
  · exact heq ▸ hregular
  · exact heq ▸ hbefore p e he

theorem makeForks_levels (hq : q.Regular)
    (hfound : q.seeksLevels = true ∨ ∀ p, ∀ e ∈ q.part p, e.formula.Undirected)
    (h : Pipeline.makeForks s q = .ok q') : q.LevelsForked q' := by
  obtain ⟨lookups, windows, hlookups, hwindows, rfl⟩ := makeForks_eq_ok h
  refine .of_rules (fun p e he => (hq.formula p (Part.mem_all p) e he).1) fun p e he => ?_
  obtain ⟨hregular, hforkless⟩ := hq.formula p (Part.mem_all p) e he
  cases hseeks : q.seeksLevels with
  | true => exact Formula.levelsForked_transformAll hq.flat hregular hforkless hlookups hwindows
  | false =>
      have hundirected := hfound.resolve_left (by simp [hseeks])
      have hlevels := levelsIn_of_seeksLevels hq hseeks he (hundirected p e he)
      exact Formula.levelsForked_lookups hq.flat hregular hlevels hlookups

theorem Query.LevelsForked.applyRule {q₀ : Query} {rule : Rule} (h : q₀.LevelsForked q)
    (hrule : rule.KeepsFlat)
    (hencloses : ∀ above g r, rule above g = some r → Formula.Encloses g r) :
    q₀.LevelsForked (Pipeline.applyRules q [rule]) := by
  intro p
  rw [Pipeline.applyRules, Query.part_mapFormulas, List.forall₂_map_right_iff]
  refine (h p).imp ?_
  intro e e' he
  obtain ⟨hresult, henclosed⟩ := Formula.enclosed_transform hrule hencloses he.1
  obtain ⟨hsame, hformula⟩ := mapEntry_formula (fun f => f.transformAll [rule]) e'
  refine ⟨?_, (he.2.of_enclosed henclosed).of_same hsame⟩
  rcases hformula with heq | heq
  · exact heq ▸ hresult
  · exact heq ▸ he.1

/-- Of the levels of detail in a query that is prepared, those are left that a lookup reads
directly. In the place of any other one that has not been simplified away there is a fork at the
dimensions that it stands for, or an error. The stage does not look below directions: if it finds
nothing at all in the query, then no level may stand there. -/
theorem Query.process_levels (hq : q.Regular) (hordering : ∀ o ∈ ordering, o.Regular ∧ o.Forkless)
    (h : q.process s ordering = .ok q') :
    ∃ q₀, q.simplified s ordering = .ok q₀ ∧
      ((q₀.seeksLevels = true ∨ ∀ p, ∀ e ∈ q₀.part p, e.formula.Undirected) →
        q₀.LevelsForked q') := by
  rw [Query.process_eq] at h
  obtain ⟨q₀, hq₀, h⟩ := bind_eq_ok.mp h
  obtain ⟨q₁, hq₁, h⟩ := bind_eq_ok.mp h
  obtain ⟨q₂, hq₂, h⟩ := bind_eq_ok.mp h
  obtain rfl := Except.ok.inj hq₂
  obtain rfl := Except.ok.inj h
  refine ⟨q₀, hq₀, fun hfound => ?_⟩
  have hforks := makeForks_levels (hq.simplified hordering hq₀) hfound hq₁
  have hfilters := hforks.applyRule (Formula.keepsFlat_laterFilters q₁.filterIds)
    fun _ _ _ hr => Formula.laterFilters_encloses hr
  exact hfilters.applyRule Formula.keepsFlat_levelTags
    fun _ _ _ hr => Formula.levelTags_encloses hr

end Process

/-! ## Examples -/

namespace Query

/-- The sales of each city as a share of the sales of all cities. -/
def shareOfTotal : Query :=
  let city := Entry.of (.field "city")
  let total := Formula.callWith "sum" [.field "sales"] (.fixed []) NameSet.empty
  { Query.empty "q" with
    select := [city, Entry.of (.binary "/" (.call "sum" [.field "sales"]) total)]
    groupBy := [city]
    sources := [.table "t" "t" "orders"] }

/-- The total is computed by a fork of its own, over all rows. -/
theorem process_levels_shareOfTotal :
    ∃ q' e, shareOfTotal.process .default [] = .ok q' ∧ q'.select[1]? = some e ∧
      Formula.Settled "sum" [] [1] e.formula := by
  have hok : (shareOfTotal.process .default []).toOption.any (fun _ => true) = true := by
    decide +kernel
  have hsimplified : (shareOfTotal.simplified .default []).toOption.any (fun q₀ =>
      q₀.seeksLevels && q₀.select[1]?.any fun e => (e.formula.at? [1]).any fun x =>
        ((e.formula.along [1]).getLast?.all fun a => (Normalize.lookup? a).isNone) &&
          x.ownLevel?.any fun l => l.1 == "sum" &&
            (l.2.resolve (Formula.contextDimensions q₀.dimensions (e.formula.along [1]))).isEmpty) =
      true := by
    decide +kernel
  obtain ⟨q', hq', -⟩ := exists_eq_ok hok
  obtain ⟨q₀, hq₀, htest⟩ := exists_eq_ok hsimplified
  simp only [Bool.and_eq_true, Option.any_eq_true, Option.all_eq_true, Option.isNone_iff_eq_none,
    beq_iff_eq, List.isEmpty_iff] at htest
  obtain ⟨hseeks, e, he, x, hx, hlast, ⟨n, l⟩, hown, rfl, hdims⟩ := htest
  obtain ⟨q₁, hq₁, hlevels⟩ := process_levels (by decide +kernel) (by simp) hq'
  obtain rfl := Except.ok.inj (hq₀.symm.trans hq₁)
  obtain ⟨e', he', -, hforked⟩ :=
    exists_getElem?_of_forall₂ (hlevels (Or.inl hseeks) .select) he
  refine ⟨q', e', hq', he', ?_⟩
  have hsettled := hforked.forked [1] x _ l hx hown hlast
  rwa [hdims] at hsettled

/-- The sales of each city at the date before, where the level of detail leaves out the date. -/
def salesDayBefore : Query :=
  let city := Formula.field "city"
  let date := Formula.field "date"
  let sales := Formula.callWith "sum" [.field "sales"] (.fixed [city]) NameSet.empty
  { Query.empty "q" with
    select := [Entry.of city, Entry.of date, Entry.of (.call "ago" [sales, date])]
    groupBy := [Entry.of city, Entry.of date]
    sources := [.table "t" "t" "orders"] }

/-- There is no fork in the query, and a level of detail is left. -/
theorem process_levels_salesDayBefore :
    (∀ p, ∀ e ∈ salesDayBefore.part p, e.formula.Forkless) ∧
    ∃ q', salesDayBefore.process .default [] = .ok q' ∧
      ∃ e ∈ q'.select, ∃ x ∈ e.formula.nodes, ∃ l, x.ownLevel? = some ("sum", l) := by
  have hok : (salesDayBefore.process .default []).toOption.any (fun q' =>
      q'.select.any fun e => e.formula.nodes.any fun x => x.ownLevel?.any fun l => l.1 == "sum") =
      true := by
    decide +kernel
  constructor
  · intro p
    cases p <;> decide +kernel
  · obtain ⟨q', hq', htest⟩ := exists_eq_ok hok
    simp only [List.any_eq_true, Option.any_eq_true, beq_iff_eq] at htest
    obtain ⟨e, he, x, hx, ⟨n, l⟩, hown, rfl⟩ := htest
    exact ⟨q', hq', e, he, x, hx, l, hown⟩

end Query

end FormulaSql
