import FormulaSql.Proofs.Split.Feasible
import FormulaSql.Proofs.Split.Progress

/-!
# Rounds that cannot be carried out

A query that reads from sub-queries is grouped if the formulas it selects aggregate, and it takes
the rows as they are if none does. A formula that is cut aggregates exactly if an aggregation stands
above a fork that is taken. So a round fails if this holds of some selected formulas and not of
others, and, as long as the alias of a dimension stands for this dimension, for no other reason.

* `Split.queries_error_iff` says so of the plan of a round
-/

namespace FormulaSql

/-- An aggregation stands on the way down, or at its end. -/
def Formula.aggregatesOn (f : Formula) : Path → Bool
  | [] => f.isAggregateCall
  | i :: p => f.isAggregateCall || (f.children[i]?).any fun c => c.aggregatesOn p

namespace Split

open Formula

/-! ## Aggregations in cut formulas -/

section Cut

variable {q : Query} {f g x y : Formula} {forks : List Path} {cuts : List Cut} {path : Path}

theorem aggregatesOn_of_isAggregateCall (h : f.isAggregateCall = true) (p : Path) :
    f.aggregatesOn p = true := by
  cases p <;> simp [aggregatesOn, h]

theorem isAggregateCall_of_fork? {k : Fork Formula} (h : f.fork? = some k) :
    f.isAggregateCall = false := by
  simp [isAggregateCall, call?, kind_of_fork? h]

/-- Where a cut is made, no aggregation stands between the node and a fork below. -/
theorem Visited.not_aggregatesOn_of_cut {c : Cut} {t : Path} (hcuts : CutAlong f forks cuts)
    (hx : Visited f forks c.outer x) (hc : c ∈ cuts) (ht : c.outer ++ t ∈ forks) :
    x.aggregatesOn t = false := by
  have heq := hcuts.eq_of_above hc ht (List.prefix_append _ t)
  obtain rfl : t = [] := by simpa using heq
  rw [List.append_nil] at ht
  obtain ⟨k, hk⟩ := hcuts.fork _ ht
  obtain ⟨x', hx', hfork⟩ := at?_of_mem_outermostForks hk
  obtain rfl := Option.some.inj (hx.at?.symm.trans hx')
  exact isAggregateCall_of_fork? hfork

/-- An aggregation below a node that is none itself is found below one of its children. -/
theorem Visited.containsAggregate_of_children (hcuts : CutAlong f forks cuts)
    (hx : Visited f forks path x) (hp : path ∉ forks) (haggregate : x.isAggregateCall = false)
    (houtline : y.kind.outline = x.kind.outline)
    (hchild : ∀ {i : Nat} {c d : Formula}, x.autonomous[i]? = some c → y.autonomous[i]? = some d →
      (d.containsAggregate = true ↔ ∃ t, path ++ [i] ++ t ∈ forks ∧ c.aggregatesOn t = true)) :
    y.containsAggregate = true ↔ ∃ t, path ++ t ∈ forks ∧ x.aggregatesOn t = true := by
  rw [Formula.containsAggregate_iff, isAggregateCall_eq_of_outline houtline, haggregate]
  constructor
  · rintro (h | ⟨d, hd, hcontains⟩)
    · exact absurd h (by simp)
    · obtain ⟨i, c, hc, hd⟩ := exists_of_outline houtline hd
      obtain ⟨t, ht, haggregates⟩ := (hchild hc hd).mp hcontains
      refine ⟨i :: t, by simpa using ht, ?_⟩
      simp [aggregatesOn, haggregate, (autonomous_getElem?.mp hc).2, haggregates]
  · rintro ⟨t, ht, haggregates⟩
    obtain ⟨t', k, heq, hk⟩ := hx.exists_fork hcuts.fork ht (List.prefix_append path t)
    obtain rfl := List.append_cancel_left heq
    rcases mem_outermostForks_iff.mp hk with ⟨rfl, -⟩ | ⟨-, i, c, t', hc, rfl, -⟩
    · exact absurd (by simpa using ht) hp
    · obtain ⟨d, hd⟩ : ∃ d, y.autonomous[i]? = some d := by
        obtain ⟨hlt, -⟩ := List.getElem?_eq_some_iff.mp hc
        rw [← length_autonomous_of_outline houtline] at hlt
        exact ⟨_, List.getElem?_eq_getElem hlt⟩
      refine Or.inr ⟨d, List.mem_of_getElem? hd, (hchild hc hd).mpr ⟨t', by simpa using ht, ?_⟩⟩
      simpa [aggregatesOn, haggregate, (autonomous_getElem?.mp hc).2] using haggregates

/-- The node that a cut formula has at a place aggregates if an aggregation stands between it and a
fork below. -/
theorem Visited.containsAggregate_iff (hcuts : CutAlong f forks cuts)
    (hg : replaceCuts q cuts f = .ok g) (hx : Visited f forks path x)
    (htop : ∀ c ∈ cuts, c.outer <+: path → c.outer = path) (hy : g.at? path = some y) :
    y.containsAggregate = true ↔ ∃ t, path ++ t ∈ forks ∧ x.aggregatesOn t = true := by
  induction x using induction_children generalizing path y with
  | step x ih =>
      by_cases hcut : ∃ c ∈ cuts, c.outer = path
      · obtain ⟨c, hc, rfl⟩ := hcut
        obtain ⟨c', -, -, hfield⟩ := field?_replaceCuts hg ⟨c, hc, List.prefix_refl _⟩ hy
        have hnot : y.containsAggregate = false :=
          not_containsAggregate_of_perRow (perRow_of_field? hfield)
        refine iff_of_false (by simp [hnot]) ?_
        rintro ⟨t, ht, haggregates⟩
        exact absurd haggregates (by simp [hx.not_aggregatesOn_of_cut hcuts hc ht])
      · have hp : path ∉ forks := fun hp => hcut ((hcuts.cut path).mpr (Or.inl hp))
        have hnone : ∀ c ∈ cuts, ¬ c.outer <+: path := fun c hc hpre =>
          hcut ⟨c, hc, htop c hc hpre⟩
        by_cases habove : ∃ fork ∈ forks, path <+: fork
        · obtain ⟨fork, hfork, hpre⟩ := habove
          obtain ⟨x', hx', houtline⟩ := outline_replaceCuts hg hnone hy
          obtain rfl := Option.some.inj (hx.at?.symm.trans hx')
          cases haggregate : x.isAggregateCall with
          | true =>
              obtain ⟨t, rfl⟩ := hpre
              refine iff_of_true (Formula.containsAggregate_iff.mpr (Or.inl ?_)) ⟨t, hfork, ?_⟩
              · exact (isAggregateCall_eq_of_outline houtline).trans haggregate
              · exact aggregatesOn_of_isAggregateCall haggregate t
          | false =>
              refine hx.containsAggregate_of_children hcuts hp haggregate houtline ?_
              intro i c d hc hd
              refine ih c (mem_children_of_autonomous (List.mem_of_getElem? hc))
                (hx.child hp hfork hpre hc) ?_ ?_
              · intro c' hc' hpre'
                rcases List.prefix_concat_iff.mp hpre' with heq | hpre'
                · exact heq
                · exact absurd hpre' (hnone c' hc')
              · rw [at?_append, hy]
                exact at?_cons_of_child [] (autonomous_getElem?.mp hd).2
        · obtain ⟨hconst, rfl⟩ := hx.constant_of_uncut hcuts hg hnone habove hy
          have hnot := not_containsAggregate_of_perRow (perRow_of_constant hconst)
          refine iff_of_false (by simp [hnot]) ?_
          rintro ⟨t, ht, -⟩
          exact habove ⟨_, ht, List.prefix_append path t⟩

theorem containsAggregate_replaceCuts (hcuts : CutAlong f forks cuts)
    (hg : replaceCuts q cuts f = .ok g) :
    g.containsAggregate = true ↔ ∃ path ∈ forks, f.aggregatesOn path = true :=
  Visited.top.containsAggregate_iff hcuts hg (fun _ _ hpre => List.prefix_nil.mp hpre ▸ rfl) rfl

end Cut

/-! ## What is selected -/

/-- Whether selected formulas aggregate can be told if they agree. -/
theorem exists_selectsAggregates_iff {q : Query} :
    (∃ known, selectsAggregates q = .ok known) ↔ ∀ e ∈ decisive q, ∀ e' ∈ decisive q,
      e.formula.containsAggregate = e'.formula.containsAggregate := by
  constructor
  · rintro ⟨known, hknown⟩ e he e' he'
    obtain ⟨-, hall⟩ := selectsAggregates_spec hknown
    exact Option.some.inj ((hall e he).symm.trans (hall e' he'))
  · intro hagree
    obtain ⟨aggregates, hall⟩ : ∃ aggregates, ∀ e ∈ decisive q,
        e.formula.containsAggregate = aggregates := by
      cases hdecisive : decisive q with
      | nil => exact ⟨true, fun e he => absurd he List.not_mem_nil⟩
      | cons e es =>
          rw [hdecisive] at hagree
          exact ⟨_, fun e' he' => hagree e' he' e List.mem_cons_self⟩
    let P (es : List Entry) (known : Option Bool) : Prop :=
      (∀ e ∈ es, e.formula.containsAggregate = aggregates) ∧
        (known = none ∨ known = some aggregates)
    refine exists_foldlM (P := P) ?_ ⟨hall, Or.inl rfl⟩
    rintro e es known ⟨hes, hknown⟩
    obtain ⟨he, hes⟩ := List.forall_mem_cons.mp hes
    refine ⟨some aggregates, ?_, hes, Or.inr rfl⟩
    rcases hknown with rfl | rfl <;> simp [he]

section Items

variable {q : Query} {a b : Names} {p : Plan} {base : Mask} {others : List Mask}

/-- The selected formula aggregates forks that are taken. -/
def aggregatesForks (q : Query) (i : Nat) (e : Entry) : Bool :=
  (forkPaths q .select i).any e.formula.aggregatesOn

/-- The selected formula is neither a dimension nor constant. -/
structure IsDecisive (q : Query) (i : Nat) (e : Entry) : Prop where
  entry : q.select[i]? = some e
  unnamed : hasAliasIn (dimensionAliases q) e = false
  varying : e.formula.isConstantExpression = false

/-- The selected formula is the column that would be put in its place, and is left out. -/
def IsOwnColumn (p : Plan) (i : Nat) (e : Entry) : Prop :=
  ∃ c ∈ cutsAt p.masks .select i, (.field c.aliasName == e.formula) = true

/-- Some selected formulas aggregate forks that are taken, and others do not. -/
def MixesAggregates (q : Query) (p : Plan) : Prop :=
  p.compatible = true ∧
    (∃ i e, IsDecisive q i e ∧ aggregatesForks q i e = true) ∧
    ∃ i e, IsDecisive q i e ∧ aggregatesForks q i e = false ∧ ¬ IsOwnColumn p i e

/-- A decisive formula is cut along the forks that are taken. -/
theorem IsDecisive.cutAlong {i : Nat} {e : Entry} (h : IsDecisive q i e)
    (hplan : plan q a = (some p, b)) :
    ∃ forks, CutAlong e.formula forks (cutsAt p.masks .select i) ∧
      ∀ path, path ∈ forks ↔ path ∈ forkPaths q .select i := by
  obtain ⟨-, hplanned⟩ := plan_spec hplan
  obtain ⟨forks, hcuts⟩ := hplanned.cuts
  refine ⟨_, hcuts.cutAlong (p := .select) (by simp [Part.splittable]) h.entry h.varying h.unnamed
    (by simp), fun path => hcuts.mem_forkPaths⟩

/-- What becomes of a decisive formula: it is cut, if the dimensions go together. -/
theorem IsDecisive.cropped {i : Nat} {e : Entry} {f : Formula} (h : IsDecisive q i e)
    (hplan : plan q a = (some p, b))
    (hf : Cropped q base (cutsAt p.masks .select i) p.compatible .select e f) :
    (p.compatible = false ∧ f = incompatible) ∨
      (p.compatible = true ∧ CutDown e.formula f ∧
        replaceCuts q (cutsAt p.masks .select i) e.formula = .ok f ∧
        f.containsAggregate = aggregatesForks q i e) := by
  cases hf with
  | constant hconst => exact absurd (h.varying.symm.trans hconst) (by simp)
  | dimension _ halias => exact absurd (h.unnamed.symm.trans halias) (by simp)
  | incompatible _ _ hnot => exact Or.inl ⟨hnot, rfl⟩
  | @cut g _ _ hcompatible hg =>
      obtain ⟨forks, halong, hforks⟩ := h.cutAlong hplan
      refine Or.inr ⟨hcompatible, cutDown_of_replaceCuts halong hg, hg, ?_⟩
      rw [Bool.eq_iff_iff]
      refine (containsAggregate_replaceCuts halong hg).trans ?_
      rw [aggregatesForks, List.any_eq_true]
      simp only [hforks]

/-- A cut at the top leaves nothing but its column. -/
theorem eq_field_of_replaceCuts {cuts : List Cut} {f g : Formula} {c : Cut}
    (hapart : cuts.Pairwise fun c d => PathsApart c.outer d.outer) (hc : c ∈ cuts)
    (htop : c.outer = []) (hg : replaceCuts q cuts f = .ok g) : g = .field c.aliasName := by
  have halone : ∀ d ∈ cuts, d = c := by
    intro d hd
    by_contra hne
    have hsymm : Std.Symm fun c d : Cut => PathsApart c.outer d.outer := ⟨fun _ _ h => h.symm⟩
    obtain ⟨-, hnot⟩ := hapart.forall hd hc hne
    exact hnot (htop ▸ List.nil_prefix)
  cases cuts with
  | nil => exact absurd hc List.not_mem_nil
  | cons d ds =>
      obtain rfl := halone d List.mem_cons_self
      cases ds with
      | nil =>
          obtain ⟨f', hf', hrest⟩ := replaceCuts_cons hg
          rw [htop] at hf'
          exact (Except.ok.inj hrest).symm.trans (Option.some.inj hf').symm
      | cons d' ds =>
          obtain rfl := halone d' (by simp)
          obtain ⟨hnot, -⟩ := (List.pairwise_cons.mp hapart).1 d' List.mem_cons_self
          exact absurd (List.prefix_refl _) hnot

/-- A decisive formula comes out of cutting as it was if it is its own column. -/
theorem IsDecisive.same_iff {i : Nat} {e : Entry} {g : Formula} (h : IsDecisive q i e)
    (hplan : plan q a = (some p, b))
    (hg : replaceCuts q (cutsAt p.masks .select i) e.formula = .ok g) :
    (g == e.formula) = true ↔ IsOwnColumn p i e := by
  obtain ⟨forks, halong, -⟩ := h.cutAlong hplan
  have hapart := cutsAt_apart hplan .select i
  constructor
  · intro hsame
    have hplain : e.formula.isForked = false := by
      rw [← Bool.not_eq_true]
      intro hforked
      have hnot := (cutDown_of_replaceCuts halong hg).not_isForked
      exact absurd (isForked_of_same (BEq.symm hsame) hforked) (by simp [hnot])
    have hnone : forks = [] := by
      refine List.eq_nil_iff_forall_not_mem.mpr fun path hpath => ?_
      obtain ⟨k, hk⟩ := halong.fork path hpath
      exact absurd (isForked_of_mem_outermostForks hk) (by simp [hplain])
    have huncut : [] ∈ e.formula.uncutPaths forks := by
      show [] ∈ e.formula.uncutSearch forks []
      rw [uncutSearch_eq, hnone]
      simp [h.varying]
    obtain ⟨c, hc, htop⟩ := (halong.cut []).mpr (Or.inr huncut)
    exact ⟨c, hc, eq_field_of_replaceCuts hapart hc htop hg ▸ hsame⟩
  · rintro ⟨c, hc, hsame⟩
    have hleaf : e.formula.autonomous = [] :=
      autonomous_of_field? ((field?_eq_of_same hsame).symm : e.formula.field? = some c.aliasName)
    have htop : c.outer = [] := by
      have hwalks := (halong.cases hc).1
      cases houter : c.outer with
      | nil => rfl
      | cons j t =>
          rw [houter] at hwalks
          obtain ⟨d, hd, -⟩ := hwalks
          rw [hleaf] at hd
          exact absurd hd (by simp)
    rw [eq_field_of_replaceCuts hapart hc htop hg]
    exact hsame

/-- If the dimensions go together, a decisive formula is left out if it is its own column. -/
theorem IsDecisive.cropEntry_none_iff {i : Nat} {e : Entry} {o : Option Entry}
    (h : IsDecisive q i e) (hplan : plan q a = (some p, b)) (hcompatible : p.compatible = true)
    (ho : cropEntry q p.masks base p.compatible .select e i = .ok o) :
    o = none ↔ IsOwnColumn p i e := by
  cases o with
  | none =>
      obtain ⟨f, hf, hsame, -⟩ := cropEntry_none ho
      obtain ⟨hnot, -⟩ | ⟨-, -, hg, -⟩ := h.cropped hplan hf
      · exact absurd (hcompatible.symm.trans hnot) (by simp)
      · exact iff_of_true rfl ((h.same_iff hplan hg).mp hsame)
  | some e' =>
      obtain ⟨hf, -, -, hnew⟩ := cropEntry_some ho
      have hnew := hnew.resolve_left (by simp [h.varying])
      obtain ⟨hnot, -⟩ | ⟨-, -, hg, -⟩ := h.cropped hplan hf
      · exact absurd (hcompatible.symm.trans hnot) (by simp)
      · rw [← h.same_iff hplan hg, hnew]
        simp

/-- A formula that aggregates forks is not a column. -/
theorem not_isOwnColumn_of_aggregatesForks {i : Nat} {e : Entry} (he : q.select[i]? = some e)
    (h : aggregatesForks q i e = true) : ¬ IsOwnColumn p i e := by
  rintro ⟨c, -, hsame⟩
  obtain ⟨path, hpath, -⟩ := List.any_eq_true.mp h
  obtain ⟨-, k, hk⟩ := outermostForks_of_mem_forkPaths hpath he
  have hforked := isForked_of_same (BEq.symm hsame) (isForked_of_mem_outermostForks hk)
  have hplain : (Formula.field c.aliasName).isForked = false :=
    not_isForked_of_perRow (perRow_of_field? rfl)
  exact absurd hforked (by simp [hplain])

theorem not_constant_of_cutDown {f g : Formula} (h : CutDown f g)
    (hf : f.isConstantExpression = false) : g.isConstantExpression = false := by
  cases h with
  | column hg =>
      rw [← Bool.not_eq_true]
      intro hconst
      exact absurd (constant_iff.mp hconst g (self_mem_nodes g)).2.1 (by simp [hg])
  | constant hconst => exact absurd (hf.symm.trans hconst) (by simp)
  | node hfork hforked houtline hbelow =>
      exact (CutDown.node hfork hforked houtline hbelow).not_constant hforked

/-- A selected dimension still has the alias of one, if it is not left out. -/
theorem PartCropped.hasAliasIn_of_dimension {groupBy : List Entry} {compatible : Bool}
    {masks : List Mask} (h : PartCropped q masks base compatible .groupBy [] groupBy)
    (hq : q.NamesDimensions) {i : Nat} {e e' : Entry} (he : q.select[i]? = some e)
    (hcrop : cropEntry q masks base compatible .select e i = .ok (some e'))
    (halias : Split.hasAliasIn (dimensionAliases q) e = true) :
    Split.hasAliasIn (groupBy.filterMap Entry.aliasName) e' = true := by
  obtain ⟨hf, hname, -, hnew⟩ := cropEntry_some hcrop
  have hmem : e ∈ q.part .select := List.mem_of_getElem? he
  obtain ⟨d, hd, hdname, hsame⟩ := exists_dimension hq (by simp) hmem halias
  obtain ⟨j, hj⟩ := List.mem_iff_getElem?.mp hd
  rcases h.outcome hj (by simp) with hnone | ⟨d', hd', hsome⟩
  · obtain ⟨f, hf', hf'same, hdconst⟩ := cropEntry_none hnone
    have hconst := not_isConstantExpression_of_same hsame hdconst
    have hdalias : Split.hasAliasIn (dimensionAliases q) d = true := by
      rw [← halias, Split.hasAliasIn, Split.hasAliasIn, hdname]
    have hdchange : ∃ n, dimensionColumn base d.formula = some n ∧ d.formula.field? = some n := by
      cases hf' with
      | constant hconst' => exact absurd (hdconst.symm.trans hconst') (by simp)
      | @dimension n _ _ hn => exact ⟨n, hn, columnAt_same_iff.mp hf'same⟩
      | incompatible _ hnot => exact absurd (hnot.symm.trans hdalias) (by simp)
      | cut _ hnot => exact absurd (hnot.symm.trans hdalias) (by simp)
    obtain ⟨n, hn, hfield⟩ := hdchange
    rw [dimensionColumn_congr hsame] at hn
    rw [field?_eq_of_same hsame] at hfield
    generalize he'formula : e'.formula = g at hf hnew
    cases hf with
    | constant hconst' => exact absurd (hconst.symm.trans hconst') (by simp)
    | @dimension n' _ _ hn' =>
        obtain rfl := Option.some.inj (hn.symm.trans hn')
        have hnew := hnew.resolve_left (by simp [hconst])
        exact absurd (columnAt_same_iff.mpr hfield) (by simp [hnew])
    | incompatible _ hnot => exact absurd (hnot.symm.trans halias) (by simp)
    | cut _ hnot => exact absurd (hnot.symm.trans halias) (by simp)
  · obtain ⟨-, hd'name, -⟩ := cropEntry_some hsome
    obtain ⟨n, -, hn⟩ := hasAliasIn_iff.mp halias
    refine hasAliasIn_iff.mpr ⟨n, List.mem_filterMap.mpr ⟨d', hd', ?_⟩, hname.trans hn⟩
    exact (hd'name.trans hdname).trans hn

/-- The formulas that decide about the grouping come from decisive ones. -/
theorem decisive_iff {c : Query} {e' : Entry} (hplan : plan q a = (some p, b))
    (hq : q.NamesDimensions)
    (hselect : PartCropped q p.masks base p.compatible .select [] c.select)
    (hgroupBy : PartCropped q p.masks base p.compatible .groupBy [] c.groupBy) :
    e' ∈ decisive c ↔ e' ∈ c.select ∧ ∃ i e, IsDecisive q i e ∧
      cropEntry q p.masks base p.compatible .select e i = .ok (some e') := by
  rw [mem_decisive]
  refine and_congr_right fun he' => ⟨?_, ?_⟩
  · rintro ⟨hfree, hvarying⟩
    obtain ⟨e, i, he, -, hcrop⟩ := hselect.origin he'
    refine ⟨i, e, ⟨he, ?_, ?_⟩, hcrop⟩
    · rw [← Bool.not_eq_true]
      intro halias
      have hkept := hgroupBy.hasAliasIn_of_dimension hq he hcrop halias
      exact absurd (hkept.symm.trans hfree) (by simp)
    · rw [← Bool.not_eq_true]
      intro hconst
      obtain ⟨hf, -⟩ := cropEntry_some hcrop
      generalize e'.formula = f at hf hvarying
      cases hf with
      | constant => exact absurd (hvarying.symm.trans hconst) (by simp)
      | dimension hnot | incompatible hnot | cut hnot =>
          exact absurd (hnot.symm.trans hconst) (by simp)
  · rintro ⟨i, e, he, hcrop⟩
    obtain ⟨hf, hname, -⟩ := cropEntry_some hcrop
    constructor
    · rw [← Bool.not_eq_true]
      intro hin
      exact absurd (hgroupBy.hasAliasIn hname hin) (by simp [he.unnamed])
    · rcases he.cropped hplan hf with ⟨-, hincompatible⟩ | ⟨-, hdown, -⟩
      · rw [hincompatible]
        rfl
      · exact not_constant_of_cutDown hdown he.varying

/-- Groups can be dropped or kept once it is known whether what is selected aggregates. -/
theorem exists_dropNeedlessGrouping_iff {c : Query} :
    (∃ c', dropNeedlessGrouping c = .ok c') ↔ ∃ known, selectsAggregates c = .ok known := by
  rw [dropNeedlessGrouping]
  cases selectsAggregates c with
  | error e => exact iff_of_false (by rintro ⟨_, h⟩; cases h) (by rintro ⟨_, h⟩; cases h)
  | ok known =>
      refine iff_of_true ?_ ⟨known, rfl⟩
      rcases known with - | - | - <;> exact ⟨_, rfl⟩

/-- All parts can be cropped, so that only the grouping is left to decide. -/
theorem exists_croppedParts (hplan : plan q a = (some p, b)) (hq : q.NamesDimensions) :
    ∃ base, ∃ c : Query, Split.cropped q p.masks p.compatible = dropNeedlessGrouping c ∧
      PartCropped q p.masks base p.compatible .select [] c.select ∧
      PartCropped q p.masks base p.compatible .groupBy [] c.groupBy := by
  obtain ⟨base, others, hmasks, hbase, -⟩ := plan_shape hplan
  have hpart (part : Part) (hne : part ≠ .joinOn) (without : List Nat) :=
    exists_cropPart hplan hmasks hq hne without
  obtain ⟨select, hselect⟩ := hpart .select (by simp) []
  obtain ⟨groupBy, hgroupBy⟩ := hpart .groupBy (by simp) []
  obtain ⟨orderBy, horderBy⟩ := hpart .orderBy (by simp) []
  obtain ⟨filters, hfilters⟩ := hpart .filters (by simp) base.filterIndices
  obtain ⟨c, hc, hcselect, hcgroupBy⟩ : ∃ c : Query,
      Split.cropped q p.masks p.compatible = dropNeedlessGrouping c ∧ c.select = select ∧
        c.groupBy = groupBy := by
    rw [hmasks] at hselect hgroupBy horderBy hfilters ⊢
    simp only [Split.cropped, hbase, ↓reduceIte, hselect, hgroupBy, horderBy, hfilters, bind,
      Except.bind]
    exact ⟨_, rfl, rfl, rfl⟩
  exact ⟨base, c, hc, hcselect ▸ cropPart_spec hselect, hcgroupBy ▸ cropPart_spec hgroupBy⟩

/-- The query can be cropped unless it mixes aggregations. -/
theorem exists_cropped_iff (hplan : plan q a = (some p, b)) (hq : q.NamesDimensions) :
    (∃ c, Split.cropped q p.masks p.compatible = .ok c) ↔ ¬ MixesAggregates q p := by
  obtain ⟨base, c, hc, hselect, hgroupBy⟩ := exists_croppedParts hplan hq
  have hdecisive (e' : Entry) : e' ∈ decisive c ↔ e' ∈ c.select ∧ ∃ i e, IsDecisive q i e ∧
      cropEntry q p.masks base p.compatible .select e i = .ok (some e') :=
    decisive_iff hplan hq hselect hgroupBy
  rw [hc, exists_dropNeedlessGrouping_iff, exists_selectsAggregates_iff]
  constructor
  · rintro hagree ⟨hcompatible, ⟨i, e, he, hover⟩, j, d, hd, hbeside, hnot⟩
    have hkept {i : Nat} {e : Entry} (he : IsDecisive q i e) (hnot : ¬ IsOwnColumn p i e) :
        ∃ e' ∈ decisive c, e'.formula.containsAggregate = aggregatesForks q i e := by
      rcases hselect.outcome he.entry (by simp) with hnone | ⟨e', he', hsome⟩
      · exact absurd ((he.cropEntry_none_iff hplan hcompatible hnone).mp rfl) hnot
      · refine ⟨e', (hdecisive e').mpr ⟨he', i, e, he, hsome⟩, ?_⟩
        obtain ⟨hincompatible, -⟩ | ⟨-, -, -, hsame⟩ := he.cropped hplan (cropEntry_some hsome).1
        · exact absurd (hcompatible.symm.trans hincompatible) (by simp)
        · exact hsame
    obtain ⟨e', he', hover'⟩ := hkept he (not_isOwnColumn_of_aggregatesForks he.entry hover)
    obtain ⟨d', hd', hbeside'⟩ := hkept hd hnot
    have heq := hagree e' he' d' hd'
    rw [hover', hbeside', hover, hbeside] at heq
    exact absurd heq (by simp)
  · intro hnot e he d hd
    by_contra hne
    wlog hover : e.formula.containsAggregate = true generalizing e d
    · refine this d hd e he (fun heq => hne heq.symm) ?_
      rw [Bool.not_eq_true] at hover
      rw [hover] at hne
      exact (Bool.eq_false_or_eq_true _).resolve_right fun h => hne h.symm
    rw [hover] at hne
    have hbeside : d.formula.containsAggregate = false := by simpa using Ne.symm hne
    obtain ⟨-, i, e₀, he₀, hcrop⟩ := (hdecisive e).mp he
    obtain ⟨-, j, d₀, hd₀, hcrop'⟩ := (hdecisive d).mp hd
    obtain ⟨-, heq⟩ | ⟨hcompatible, -, -, hsame⟩ := he₀.cropped hplan (cropEntry_some hcrop).1
    · rw [heq] at hover
      exact absurd hover (by decide)
    · obtain ⟨hnot', -⟩ | ⟨-, -, -, hsame'⟩ := hd₀.cropped hplan (cropEntry_some hcrop').1
      · exact absurd (hcompatible.symm.trans hnot') (by simp)
      · refine hnot ⟨hcompatible, ⟨i, e₀, he₀, hsame ▸ hover⟩, j, d₀, hd₀, hsame' ▸ hbeside, ?_⟩
        intro hown
        have hnone := (hd₀.cropEntry_none_iff hplan hcompatible hcrop').mpr hown
        exact absurd hnone (by simp)

end Items

/-- A round that has a plan fails exactly if the query mixes aggregations. -/
theorem queries_error_iff {q : Query} {a b : Names} {p : Plan} (hplan : plan q a = (some p, b))
    (hq : q.NamesDimensions) : (∃ e, p.queries q = .error e) ↔ MixesAggregates q p := by
  obtain ⟨subs, hsubs⟩ := exists_mapM fun m hm => exists_subquery hplan (m := m) hm
  rw [← not_iff_not, ← exists_cropped_iff hplan hq, Plan.queries, hsubs]
  change (¬ ∃ e, (Split.cropped q p.masks p.compatible >>= fun c => _) = _) ↔ _
  cases Split.cropped q p.masks p.compatible with
  | error e => exact iff_of_false (fun h => h ⟨e, rfl⟩) (by rintro ⟨_, h⟩; cases h)
  | ok c => exact iff_of_true (by rintro ⟨_, h⟩; cases h) ⟨c, rfl⟩

end Split

end FormulaSql
