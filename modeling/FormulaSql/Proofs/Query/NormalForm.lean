import FormulaSql.Proofs.Query.Heads
import FormulaSql.Proofs.Query.WindowCalls

/-!
# The normal form of a prepared query

Whatever the query is, each window call of the prepared query stands in a tagged parenthesis inside
a fork of a window call, and window calls and forks come before filters that the query has. Lookups
and AMONG groupings are gone, unless they have been pasted along with a dimension: a rule replaces
the calls of a formula, but dimensions are put into forks and groupings as they were before.

* `Query.process_normalForm` is all of this
-/

namespace FormulaSql

namespace Formula

/-! ## Equal formulas -/

section Same

variable {f g : Formula} {available : NameSet} {above above' : List Formula}

theorem isWindowCall_eq_of_same (h : (f == g) = true) : f.isWindowCall = g.isWindowCall := by
  refine eq_of_same isWindowCall (fun x => ?_) h
  rw [isWindowCall, isWindowCall, window?, window?]
  cases x.kind <;> rfl

theorem laterFilters?_eq_of_same (h : (f == g) = true) :
    Normalize.laterFilters? f = Normalize.laterFilters? g := by
  refine eq_of_same Normalize.laterFilters? (fun x => ?_) h
  rw [Normalize.laterFilters?, Normalize.laterFilters?]
  cases x.kind <;> rfl

theorem unwrapped_of_same (h : (f == g) = true) : (f.unwrapped == g.unwrapped) = true := by
  induction f using induction_children generalizing g with
  | step f ih =>
      by_cases hparen : ∃ e, f.kind = .paren e
      · obtain ⟨e, hk⟩ := hparen
        have houtline := outline_eq_of_same h (by simp [hk])
        have hcs := (same_iff.mp h).2.2
        cases hg : g.kind with
        | paren e' =>
            rw [children, children, hk, hg] at hcs
            rw [unwrapped_of_paren hk, unwrapped_of_paren hg]
            refine ih e ?_ (List.forall₂_cons.mp hcs).1
            rw [children, hk]
            exact List.mem_singleton.mpr rfl
        | _ => simp [hk, hg, Kind.outline, Kind.map] at houtline
      · have hg : ∀ e, g.kind ≠ .paren e := by
          intro e hk
          have houtline := outline_eq_of_same (same_symm h) (by simp [hk])
          cases hf : f.kind with
          | paren e' => exact hparen ⟨e', hf⟩
          | _ => simp [hf, hk, Kind.outline, Kind.map] at houtline
        rw [unwrapped_of_not_paren hg, unwrapped_of_not_paren fun e hk => hparen ⟨e, hk⟩]
        exact h

theorem isWindowFork_of_same (h : (f == g) = true) (hf : f.isWindowFork = true) :
    g.isWindowFork = true := by
  obtain ⟨q, hk, hresult⟩ := exists_fork_of_isWindowFork hf
  obtain ⟨q', hq', hsame, -⟩ := exists_fork?_of_same h (show f.fork? = some q by rw [fork?, hk])
  rw [isWindowFork_of_kind (kind_of_fork? hq'), ← isWindowCall_eq_of_same (unwrapped_of_same hsame)]
  exact hresult

theorem WindowForked.of_same (habove : List.Forall₂ (fun a b => (a == b) = true) above above')
    (h : (f == g) = true) (hf : WindowForked above f) : WindowForked above' g := by
  intro hg
  obtain ⟨a, ha, hfork⟩ := List.any_eq_true.mp (hf ((isWindowCall_eq_of_same h).trans hg))
  obtain ⟨b, hb, hab⟩ := forall₂_exists_right habove ha
  exact List.any_eq_true.mpr ⟨b, hb, isWindowFork_of_same hab hfork⟩

theorem FiltersLater.of_same (habove : List.Forall₂ (fun a b => (a == b) = true) above above')
    (h : (f == g) = true) (hf : FiltersLater available above f) :
    FiltersLater available above' g := by
  intro own hown
  rw [← laterFilters?_eq_of_same h] at hown
  refine ⟨(hf own hown).1, fun b hb s hs => ?_⟩
  obtain ⟨a, ha, hab⟩ := forall₂_exists_left habove hb
  exact (hf own hown).2 a ha s ((laterFilters?_eq_of_same hab).trans hs)

theorem isTagged_iff : Normalize.isTagged above = true ↔
    ∃ a e, above.getLast? = some a ∧ a.kind = .paren e ∧ a.level.isSome = true := by
  rw [Normalize.isTagged]
  constructor
  · intro h
    split at h
    next e notes hlast => exact ⟨_, e, hlast, rfl, h⟩
    next => exact absurd h (by simp)
  · rintro ⟨⟨k, notes⟩, e, hlast, rfl, hlevel⟩
    rw [hlast]
    exact hlevel

theorem Tagged.of_same (habove : List.Forall₂ (fun a b => (a == b) = true) above above')
    (h : (f == g) = true) (hf : Tagged above f) : Tagged above' g := by
  intro hg
  obtain ⟨a, e, hlast, hk, hlevel⟩ :=
    isTagged_iff.mp (hf ((isWindowCall_eq_of_same h).trans hg))
  obtain ⟨b, hlast', hab⟩ := exists_getLast?_of_forall₂ habove hlast
  have houtline := outline_eq_of_same hab (by simp [hk])
  cases hb : b.kind with
  | paren e' =>
      exact isTagged_iff.mpr ⟨b, e', hlast', hb, (same_iff.mp hab).2.1 ▸ hlevel⟩
  | _ => simp [hk, hb, Kind.outline, Kind.map] at houtline

end Same

/-! ## Formulas of a prepared query -/

/-- How a node stands in a query with the filters `available`: a window call is in a tagged
parenthesis and inside a fork of a window call, and a window call or a fork comes before all filters
that those around it come before. -/
def InPlace (available : NameSet) (above : List Formula) (f : Formula) : Prop :=
  WindowForked above f ∧ FiltersLater available above f ∧ Tagged above f

section Place

variable {f g : Formula} {available : NameSet} {above : List Formula}

theorem calls_noWindow_iff : f.Calls Head.NoWindow ↔ f.containsWindow = false := by
  rw [containsWindow, any, List.any_eq_false]
  refine forall₂_congr fun g _ => ?_
  show Head.NoWindow g.kind.head ↔ _
  rw [isWindowCall, window?]
  cases g.kind <;> simp [Kind.head, Head.NoWindow]

theorem Calls.windowForked (h : f.Calls Head.NoWindow) : f.Throughout WindowForked above := by
  intro p g hg hwindow
  have hnone := List.any_eq_false.mp (calls_noWindow_iff.mp h) g (mem_nodes_of_at? hg)
  exact absurd hwindow hnone

theorem isLookup_of_ofName? {n : String} (h : Normalize.LookupKind.ofName? n ≠ none) :
    Function.isLookup n = true := by
  have hlower {m : String} (hm : n.toLower = m) (hm' : m.toLower = m)
      (hlookup : Function.isLookup m = true) : Function.isLookup n = true := by
    rw [Function.isLookup, Function.definitions, Function.definitionsIn] at hlookup ⊢
    rwa [hm', ← hm] at hlookup
  unfold Normalize.LookupKind.ofName? at h
  split at h
  next hago => exact hlower hago (by decide +kernel) (by decide +kernel)
  next hdate => exact hlower hdate (by decide +kernel) (by decide +kernel)
  next => exact absurd rfl h

theorem calls_noLookup_of_containsLookup (h : f.containsLookup = false) :
    f.Calls Head.NoLookup := by
  rw [containsLookup, any, List.any_eq_false] at h
  intro g hg
  have hnot := h g hg
  rw [isLookupCall, call?] at hnot
  cases hk : g.kind with
  | call c =>
      rw [hk] at hnot
      by_contra hlookup
      exact hnot (isLookup_of_ofName? hlookup)
  | _ => exact trivial

end Place

end Formula

/-! ## Stages -/

section Stages

variable {q q' : Query} {s : Settings} {ordering : List Formula} {rules : List Rule}

/-- A property that does not tell equal formulas apart can be read off what the rules make. -/
theorem Query.forall_applyRules {P : Formula → Prop}
    (same : ∀ f g, (f == g) = true → P f → P g)
    (h : ∀ part, ∀ e ∈ q.part part, P (e.formula.transformAll rules)) :
    ∀ part, ∀ e ∈ (Pipeline.applyRules q rules).part part, P e.formula := by
  intro part e' he'
  rw [Pipeline.applyRules, Query.part_mapFormulas] at he'
  obtain ⟨e, he, rfl⟩ := List.mem_map.mp he'
  exact same _ _ (mapEntry_formula (fun f => f.transformAll rules) e).1 (h part e he)

theorem Query.filterIds_mapFormulas (q : Query) (F : Part → Formula → Formula) :
    (q.mapFormulas F).filterIds = q.filterIds := by
  have hfield (e : Entry) : (Query.mapEntry (F .filters) e).fieldId = e.fieldId := by
    rw [Query.mapEntry]
    split <;> rfl
  have hmap : (q.filters.map (Query.mapEntry (F .filters))).filterMap Entry.fieldId =
      q.filters.filterMap Entry.fieldId := by
    rw [List.filterMap_map]
    exact congrFun (congrArg _ (funext hfield)) q.filters
  exact congrArg NameSet.ofList hmap

theorem anyFormula_eq_false {p : Formula → Bool} (h : q.anyFormula p = false) (part : Part)
    {e : Entry} (he : e ∈ q.part part) : p e.formula = false :=
  Bool.not_eq_true _ ▸ List.any_eq_false.mp h (part, e) (Query.mem_entries he)

theorem Formula.calls_transformAll {p : Head → Prop} {f : Formula}
    (hrules : ∀ rule ∈ rules, ∀ f : Formula, f.Calls p → (f.transform rule).Calls p)
    (hf : f.Calls p) : (f.transformAll rules).Calls p :=
  transformAll_rel (R := fun f g => f.Calls p → g.Calls p) (fun _ => id)
    (fun _ _ _ hfg hgh => hgh ∘ hfg) hrules f hf

/-- The rules that make forks let nothing in that the query does not call. -/
theorem calls_forkRules {p : Head → Prop} (hp : Head.Mild p) {dims : List Formula}
    (allowEmpty : Bool) (hdims : ∀ d ∈ dims, d.Calls p)
    (hrules : ∀ rule ∈ rules, rule ∈ [Normalize.lookups dims allowEmpty,
      Normalize.levelOfDetail dims, Normalize.windowForks dims]) {f : Formula} (hf : f.Calls p) :
    (f.transformAll rules).Calls p := by
  refine Formula.calls_transformAll (fun rule hrule g hg => ?_) hf
  have hmem := hrules rule hrule
  simp only [List.mem_cons, List.not_mem_nil, or_false] at hmem
  rcases hmem with rfl | rfl | rfl
  · exact Formula.calls_lookups_of_calls hp hdims hg
  · exact Formula.calls_levelOfDetail hp hdims hg
  · exact Formula.calls_windowForks hp hdims hg

theorem mem_of_mem_ite {b : Bool} {x y : Rule} (h : y ∈ if b then [x] else []) : y = x := by
  cases b with
  | true => exact List.mem_singleton.mp h
  | false => exact absurd h List.not_mem_nil

theorem Query.Calls.makeForks {p : Head → Prop} (hp : Head.Mild p) (hq : q.Calls p)
    (h : Pipeline.makeForks s q = .ok q') : q'.Calls p := by
  rw [makeForks_rules h]
  refine Query.forall_applyRules (fun _ _ hsame hf => hf.of_same hsame) fun part e he => ?_
  refine calls_forkRules hp s.allowEmptyDimensions hq.dimension ?_ (hq part e he)
  intro rule hrule
  simp only [List.mem_append] at hrule
  rcases hrule with (hrule | hrule) | hrule <;> rw [mem_of_mem_ite hrule] <;> simp

/-- No lookup is left, be it that there was none. -/
theorem Query.LevelsCall.makeForks (hq : q.LevelsCall Head.NoLookup)
    (h : Pipeline.makeForks s q = .ok q') : q'.Calls Head.NoLookup := by
  cases hlookups : q.anyFormula Formula.containsLookup with
  | false =>
      refine Query.Calls.makeForks Head.mild_noLookup (fun part e he => ?_) h
      exact Formula.calls_noLookup_of_containsLookup (anyFormula_eq_false hlookups part he)
  | true =>
      rw [makeForks_rules h, hlookups]
      refine Query.forall_applyRules (fun _ _ hsame hf => hf.of_same hsame) fun part e he => ?_
      rw [if_pos rfl, List.append_assoc, Formula.transformAll, List.foldl_append]
      refine calls_forkRules Head.mild_noLookup s.allowEmptyDimensions hq.dimension ?_
        (Formula.calls_lookups hq.dimension (hq.level part (Part.mem_all part) e he))
      intro rule hrule
      rcases List.mem_append.mp hrule with hrule | hrule <;> rw [mem_of_mem_ite hrule] <;> simp

/-- Window calls are put into forks where there are any. -/
theorem windowForked_makeForks (h : Pipeline.makeForks s q = .ok q') :
    ∀ part, ∀ e ∈ q'.part part, e.formula.Throughout Formula.WindowForked [] := by
  cases hwindows : q.anyFormula Formula.containsWindow with
  | true =>
      rw [makeForks_rules h, hwindows]
      refine Query.forall_applyRules (fun f g hsame hf => hf.of_same (fun _ _ _ _ => .of_same)
        .nil hsame) fun part e he => ?_
      rw [if_pos rfl, Formula.transformAll, List.foldl_append]
      exact Formula.throughout_windowForks _ _
  | false =>
      have hnone : q.Calls Head.NoWindow := fun part e he =>
        Formula.calls_noWindow_iff.mpr (anyFormula_eq_false hwindows part he)
      exact fun part e he => (hnone.makeForks Head.mild_noWindow h part e he).windowForked

theorem inPlace_tagLevels {q₁ q₂ : Query}
    (hq : ∀ part, ∀ e ∈ q.part part, e.formula.Throughout Formula.WindowForked [])
    (h₁ : Pipeline.normalizeFilters q = .ok q₁) (h₂ : Pipeline.tagLevels q₁ = .ok q₂) :
    ∀ part, ∀ e ∈ q₂.part part, e.formula.Throughout (Formula.InPlace q₂.filterIds) [] := by
  obtain rfl := Except.ok.inj h₁
  obtain rfl := Except.ok.inj h₂
  have hfilters : ∀ part, ∀ e ∈ (Pipeline.applyRules q [Normalize.laterFilters q.filterIds]).part
      part, e.formula.Throughout (fun above g => Formula.WindowForked above g ∧
        Formula.FiltersLater q.filterIds above g) [] := by
    refine Query.forall_applyRules (fun f g hsame hf => hf.of_same (fun _ _ _ _ habove hfg hp =>
      ⟨hp.1.of_same habove hfg, hp.2.of_same habove hfg⟩) .nil hsame) fun part e he => ?_
    exact Formula.throughout_laterFilters q.filterIds (hq part e he)
  have hids : (Pipeline.applyRules (Pipeline.applyRules q [Normalize.laterFilters q.filterIds])
      [Normalize.levelTags]).filterIds = q.filterIds :=
    (Query.filterIds_mapFormulas _ _).trans (Query.filterIds_mapFormulas _ _)
  rw [hids]
  refine Query.forall_applyRules (fun f g hsame hf => hf.of_same (fun _ _ _ _ habove hfg hp =>
    ⟨hp.1.of_same habove hfg, hp.2.1.of_same habove hfg, hp.2.2.of_same habove hfg⟩)
    .nil hsame) fun part e he => ?_
  exact Formula.throughout_levelTags (hfilters part e he)

theorem Query.Calls.tagLevels {p : Head → Prop} {q₁ q₂ : Query} (hp : Head.Mild p)
    (hq : q.Calls p) (h₁ : Pipeline.normalizeFilters q = .ok q₁)
    (h₂ : Pipeline.tagLevels q₁ = .ok q₂) : q₂.Calls p := by
  obtain rfl := Except.ok.inj h₁
  obtain rfl := Except.ok.inj h₂
  have hsame : ∀ f g : Formula, (f == g) = true → f.Calls p → g.Calls p :=
    fun _ _ hsame hf => hf.of_same hsame
  have hfilters : (Pipeline.applyRules q [Normalize.laterFilters q.filterIds]).Calls p :=
    Query.forall_applyRules hsame fun part e he =>
      Formula.calls_laterFilters q.filterIds (hq part e he)
  exact Query.forall_applyRules hsame fun part e he =>
    Formula.calls_levelTags hp (hfilters part e he)

/-- The first stage leaves no AMONG behind. -/
theorem calls_prepare (hdims : ∀ d ∈ q.dimensions, d.Calls Head.NoAmong)
    (h : Pipeline.prepare ordering q = .ok q') : q'.Calls Head.NoAmong := by
  obtain rfl := Except.ok.inj h
  refine Query.forall_applyRules (fun _ _ hsame hf => hf.of_same hsame) fun part e he => ?_
  exact Formula.calls_dropExtraWithin rfl (Formula.calls_amongToWithin hdims)

theorem asCalls_prepare (hq : q.LevelsCall Head.NoLookup)
    (hordering : ∀ o ∈ ordering, o.Calls Head.NoLookup)
    (h : Pipeline.prepare ordering q = .ok q') : q.AsCalls Head.NoLookup q' := by
  obtain rfl := Except.ok.inj h
  have hwindow : ∀ among, Head.NoLookup (.window among) := fun _ => trivial
  refine Query.asCalls_mapFormulas fun part f => Formula.transformAll_rel (.refl _)
    (fun _ _ _ => .trans) ?_ f
  simp only [List.forall_mem_cons]
  refine ⟨?_, ?_, ?_, ?_, fun _ h => absurd h List.not_mem_nil⟩
  · exact Formula.asCalls_transform fun _ _ _ hr =>
      Formula.asCalls_rewindowed hwindow hordering (Normalize.defaultOrdering_cases hr)
  · exact Formula.asCalls_transform fun _ _ _ hr =>
      Formula.asCalls_lookupFilters Head.mild_noLookup hr
  · exact Formula.asCalls_transform fun _ _ _ hr =>
      Formula.asCalls_rewindowed hwindow hq.dimension (Normalize.amongToWithin_cases hr)
  · exact Formula.asCalls_transform fun _ _ _ hr => Formula.asCalls_rewindowed hwindow
      (fun _ h => absurd h List.not_mem_nil) (Normalize.dropExtraWithin_cases hr)

/-- In a prepared query each window call is in its place. No lookup is left if there is none in a
dimension, a level of detail or the ordering, and no AMONG if there is none in a dimension. -/
theorem Query.process_normalForm (h : q.process s ordering = .ok q') :
    (∀ part, ∀ e ∈ q'.part part, e.formula.Throughout (Formula.InPlace q'.filterIds) []) ∧
      (q.LevelsCall Head.NoLookup → (∀ o ∈ ordering, o.Calls Head.NoLookup) →
        q'.Calls Head.NoLookup) ∧
      ((∀ d ∈ q.dimensions, d.Calls Head.NoAmong) → q'.Calls Head.NoAmong) := by
  rw [Query.process_eq] at h
  obtain ⟨q₀, hq₀, h⟩ := bind_eq_ok.mp h
  obtain ⟨q₁, hq₁, h⟩ := bind_eq_ok.mp h
  obtain ⟨q₂, hq₂, hq'⟩ := bind_eq_ok.mp h
  refine ⟨inPlace_tagLevels (windowForked_makeForks hq₁) hq₂ hq', fun hlevels hordering => ?_,
    fun hdims => ?_⟩
  · obtain ⟨q₃, hq₃, hsimplified⟩ := Query.asCalls_simplified Head.mild_noLookup hq₀
    have hprepared := (asCalls_prepare hlevels hordering hq₃).levels hlevels
    exact ((hsimplified.levels hprepared).makeForks hq₁).tagLevels Head.mild_noLookup hq₂ hq'
  · obtain ⟨q₃, hq₃, hsimplified⟩ := Query.asCalls_simplified Head.mild_noAmong hq₀
    have hprepared := hsimplified.calls (calls_prepare hdims hq₃)
    exact (hprepared.makeForks Head.mild_noAmong hq₁).tagLevels Head.mild_noAmong hq₂ hq'

end Stages

/-! ## Examples -/

namespace Query

/-- The rank of the sales of each city among the cities of a date, and the sales at the date
before. -/
def rankedByDate : Query :=
  let city := Formula.field "city"
  let date := Formula.field "date"
  let sales := Formula.call "sum" [.field "sales"]
  let rank := Formula.of (.window
    ⟨"rank", [sales], .among [city], [], NameSet.empty⟩)
  { Query.empty "q" with
    select := [Entry.of city, Entry.of date, Entry.of rank, Entry.of (.call "ago" [sales, date])]
    groupBy := [Entry.of city, Entry.of date]
    sources := [.table "t" "t" "orders"] }

/-- There are a window call and a fork in the query, and no lookup and no AMONG is left. -/
theorem process_normalForm_rankedByDate :
    ∃ q', rankedByDate.process .default [] = .ok q' ∧
      (∀ part, ∀ e ∈ q'.part part, e.formula.Throughout (Formula.InPlace q'.filterIds) []) ∧
      q'.Calls Head.NoLookup ∧ q'.Calls Head.NoAmong ∧
      (q'.select[2]?.any fun e => e.formula.containsWindow) = true := by
  have hok : (rankedByDate.process .default []).toOption.any (fun q' =>
      q'.select[2]?.any fun e => e.formula.containsWindow) = true := by
    decide +kernel
  obtain ⟨q', hq', hwindow⟩ := exists_eq_ok hok
  obtain ⟨hplace, hlookup, hamong⟩ := process_normalForm hq'
  exact ⟨q', hq', hplace, hlookup (by decide +kernel) (by simp), hamong (by decide +kernel),
    hwindow⟩

/-- The sales at the date before, by date and by the best sale at the date before. -/
def salesByBestBefore : Query :=
  let date := Formula.field "date"
  let before (f : String) := Entry.of (.call "ago" [.call f [.field "sales"], date])
  { Query.empty "q" with
    select := [Entry.of date, before "sum"]
    groupBy := [Entry.of date, before "max"]
    sources := [.table "t" "t" "orders"] }

/-- The fork for the lookup is joined on a dimension in which there is still a lookup. -/
theorem process_normalForm_salesByBestBefore :
    ∃ q', salesByBestBefore.process .default [] = .ok q' ∧ ¬ q'.Calls Head.NoLookup := by
  have hok : (salesByBestBefore.process .default []).toOption.any (fun q' =>
      q'.select.any fun e => decide (¬ e.formula.Calls Head.NoLookup)) = true := by
    decide +kernel
  obtain ⟨q', hq', htest⟩ := exists_eq_ok hok
  obtain ⟨e, he, hnot⟩ := List.any_eq_true.mp htest
  exact ⟨q', hq', fun hcalls => of_decide_eq_true hnot (hcalls .select e he)⟩

end Query

end FormulaSql
