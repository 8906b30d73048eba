import FormulaSql.Proofs.Split.References
import FormulaSql.Proofs.Split.Validity

/-!
# Dimensions that do not go together

A round whose sub-queries cannot be joined succeeds: in the cropped query an error stands for what
was cut. The cropped query then has no fork that a round could take, so that it stays as it is, and
when the run comes to an end the error is found. One thing can keep the error away. Where a fork is
in a selected dimension, a column of the base stands for it, as for every dimension. But then the
base has the fork in a dimension that it selects, and it is cut in the next round with the same
outcome, so that the run does not come to an end.

* `Split.RoundOf.incompatible` tells the two cases apart
* `Split.Run.not_forkedDimension` is about runs that do not end
* `Query.split_incompatible` is the result for a query that is split
-/

namespace FormulaSql

/-- A round finds a fork in a dimension that the query selects. -/
def Query.ForkedDimension (q : Query) : Prop :=
  ∃ e ∈ q.select, Split.hasAliasIn (Split.dimensionAliases q) e = true ∧ e.formula.isForked = true

namespace Split

open Formula

/-! ## What becomes of a fork -/

section Crop

variable {q s : Query} {masks : List Mask} {m base : Mask} {cuts : List Cut} {compatible : Bool}
  {part : Part} {e : Entry} {f : Formula}

theorem not_constant_of_isForked (h : f.isForked = true) : f.isConstantExpression = false := by
  rw [← Bool.not_eq_true]
  intro hconst
  exact absurd h (by simp [not_isForked_of_perRow (perRow_of_constant hconst)])

theorem Cropped.exists_column (h : Cropped q base cuts compatible part e f)
    (halias : hasAliasIn (dimensionAliases q) e = true) (hforked : e.formula.isForked = true) :
    ∃ n, dimensionColumn base e.formula = some n := by
  cases h with
  | constant hconst => exact absurd (hconst.symm.trans (not_constant_of_isForked hforked)) (by simp)
  | dimension _ _ hn => exact ⟨_, hn⟩
  | incompatible _ hnot | cut _ hnot => exact absurd (halias.symm.trans hnot) (by simp)

theorem Cropped.eq_incompatible (h : Cropped q base cuts false part e f)
    (halias : hasAliasIn (dimensionAliases q) e = false) (hforked : e.formula.isForked = true) :
    f = Split.incompatible := by
  cases h with
  | constant hconst => exact absurd (hconst.symm.trans (not_constant_of_isForked hforked)) (by simp)
  | dimension _ hsome => exact absurd (halias.symm.trans hsome) (by simp)
  | incompatible => rfl
  | cut _ _ hcompatible => exact absurd hcompatible (by simp)

/-- Where sub-queries are not joined, no fork is left. -/
theorem Cropped.not_isForked (h : Cropped q base cuts false part e f) : f.isForked = false := by
  cases h with
  | constant hconst => exact not_isForked_of_perRow (perRow_of_constant hconst)
  | @dimension n => exact not_isForked_of_perRow (perRow_of_field? (n := n) rfl)
  | incompatible => rfl
  | cut _ _ hcompatible => exact absurd hcompatible (by simp)

theorem CroppedOf.forksConcealed_of_incompatible {c : Query} (h : CroppedOf q masks base false c) :
    c.ForksConcealed := by
  intro part hpart e' he'
  obtain ⟨e, i, -, -, hcrop⟩ := h.origin (Part.ne_joinOn_of_splittable hpart) he'
  exact not_isForked_iff_outermostForks.mp (cropEntry_some hcrop).1.not_isForked

/-- A sub-query that groups by an expression with a fork selects it as a dimension. -/
theorem SubqueryOf.forkedDimension (hs : SubqueryOf q m s) {n : String}
    (hn : dimensionColumn m f = some n) (hforked : f.isForked = true) : s.ForkedDimension := by
  obtain ⟨x, hx, hgroup, hexpr, -⟩ := dimensionColumn_eq_some hn
  obtain ⟨es, -, hselect⟩ := hs.select
  refine ⟨extraEntry x, ?_, hasAliasIn_iff.mpr ⟨x.aliasName, ?_, rfl⟩, ?_⟩
  · rw [hselect]
    exact List.mem_append_right _ (List.mem_map_of_mem hx)
  · have hmem : extraEntry x ∈ s.groupBy := by
      rw [hs.groupBy]
      exact List.mem_map_of_mem (List.mem_filter.mpr ⟨hx, hgroup⟩)
    exact List.mem_filterMap.mpr ⟨_, hmem, rfl⟩
  · exact isForked_of_same (BEq.symm hexpr) hforked

end Crop

/-! ## Rounds -/

section Round

variable {q c : Query} {a b : Names} {p : Plan} {subs : List Query}

/-- The base, which is the first sub-query, gets a dimension as it is. -/
theorem RoundOf.base_forkedDimension {base : Mask} {others : List Mask} {cuts : List Cut}
    {compatible : Bool} {part : Part} {e : Entry} {f : Formula} (h : RoundOf q p subs c)
    (hmasks : p.masks = base :: others) (hf : Cropped q base cuts compatible part e f)
    (halias : hasAliasIn (dimensionAliases q) e = true) (hforked : e.formula.isForked = true) :
    ∃ s rest, subs = s :: rest ∧ s.ForkedDimension := by
  obtain ⟨n, hn⟩ := hf.exists_column halias hforked
  have hsubs := h.subqueries
  rw [hmasks] at hsubs
  cases hsubs with
  | cons hs _ => exact ⟨_, _, rfl, hs.forkedDimension hn hforked⟩

/-- A fork in a selected dimension is never cut out. -/
theorem RoundOf.forkedDimension (h : RoundOf q p subs c) (hq : q.ForkedDimension) :
    ∃ s rest, subs = s :: rest ∧ s.ForkedDimension := by
  obtain ⟨e, he, halias, hforked⟩ := hq
  obtain ⟨i, hi⟩ := List.mem_iff_getElem?.mp he
  obtain ⟨base, others, hmasks, -, hcropped, -⟩ := h.cropped
  obtain ⟨f, hf⟩ := exists_cropped (hcropped.select.outcome hi List.not_mem_nil)
  exact h.base_forkedDimension hmasks hf halias hforked

/-- If the dimensions of a round do not go together, the cropped query is done and holds the error,
unless the base has a fork in a selected dimension. -/
theorem RoundOf.incompatible (h : RoundOf q p subs c) (hplan : plan q a = (some p, b))
    (hp : p.compatible = false) :
    (c.ForksConcealed ∧ ∃ part, ∃ e ∈ c.part part, e.formula = Split.incompatible) ∨
      ∃ s rest, subs = s :: rest ∧ s.ForkedDimension := by
  obtain ⟨base, others, hmasks, -, hcropped, -⟩ := h.cropped
  obtain ⟨base', others', hmasks', hbase⟩ := plan_baseOf hplan
  obtain ⟨rfl, rfl⟩ := List.cons.inj (hmasks.symm.trans hmasks')
  rw [hp] at hcropped
  obtain ⟨s, hs⟩ := List.exists_mem_of_ne_nil _ (taken_ne_nil hplan)
  obtain ⟨hpart, e, he, hfork, -⟩ := mem_sites_iff.mp (mem_sites_of_taken hs)
  have hforked := isForked_of_mem_outermostForks hfork
  have houtcome := hcropped.outcome hpart he (hbase.not_mem_filterIndices hs)
  cases halias : hasAliasIn (dimensionAliases q) e with
  | false =>
      refine Or.inl ⟨hcropped.forksConcealed_of_incompatible, s.part, ?_⟩
      rcases houtcome with hnone | ⟨e', he', hsome⟩
      · obtain ⟨f, hf, hsame, -⟩ := cropEntry_none hnone
        obtain rfl := hf.eq_incompatible halias hforked
        exact absurd (isForked_of_same (BEq.symm hsame) hforked) (by decide)
      · exact ⟨e', he', (cropEntry_some hsome).1.eq_incompatible halias hforked⟩
  | true =>
      obtain ⟨f, hf⟩ := exists_cropped houtcome
      exact Or.inr (h.base_forkedDimension hmasks hf halias hforked)

end Round

/-! ## Runs -/

section Run

variable {q x : Query} {a b c : Names} {p : Plan} {before after qs out : List Query}
  {done : List Round} {n : Nat}

/-- A run goes on with the round of the first query that has forks, if there is a plan for it. -/
theorem Run.cut_first (h : Run a (before ++ q :: after) done out)
    (hbefore : ∀ y ∈ before, y.containsFork = false) (hq : q.containsFork = true)
    (hplan : plan q a = (some p, b)) :
    ∃ new rest, done = ⟨q, p, new⟩ :: rest ∧ p.queries q = .ok new ∧
      Run b (before ++ new ++ after) rest out := by
  generalize hqs : before ++ q :: after = qs at h
  cases h with
  | whole hnone => exact absurd (hnone q (by simp [← hqs])) (by simp [hq])
  | stuck hbefore' hq' hsites =>
      obtain ⟨rfl, rfl, rfl⟩ := first_fork_unique hbefore hq hbefore' hq' hqs
      have hnone : (plan q a).1 = none := plan_eq_none_iff.mpr hsites
      exact absurd (hnone.symm.trans (congrArg Prod.fst hplan)) (by simp)
  | cut hbefore' hq' hplan' hqueries hrest =>
      obtain ⟨rfl, rfl, rfl⟩ := first_fork_unique hbefore hq hbefore' hq' hqs
      obtain ⟨hp, rfl⟩ := Prod.mk.inj (hplan.symm.trans hplan')
      obtain rfl := Option.some.inj hp
      exact ⟨_, _, rfl, hqueries, hrest⟩

/-- A run carries out every round that it comes to. -/
theorem Run.of_reaches (hrun : Run a qs done out) (hreach : Reaches n a qs b x)
    (hplan : plan x b = (some p, c)) :
    ∃ before after new rest, (∀ y ∈ before, y.containsFork = false) ∧ p.queries x = .ok new ∧
      Run c (before ++ new ++ after) rest out := by
  induction hreach generalizing done with
  | here hbefore hq =>
      obtain ⟨new, rest, -, hqueries, hrest⟩ := hrun.cut_first hbefore hq hplan
      exact ⟨_, _, new, rest, hbefore, hqueries, hrest⟩
  | cut hbefore hq hplan' hqueries _ ih =>
      obtain ⟨new, rest, -, hqueries', hrest⟩ := hrun.cut_first hbefore hq hplan'
      obtain rfl := Except.ok.inj (hqueries.symm.trans hqueries')
      exact ih hrest hplan

theorem exists_plan_of_forkedDimension (hq : q.ForkedDimension) (a : Names) :
    q.containsFork = true ∧ ∃ p b, plan q a = (some p, b) := by
  obtain ⟨e, he, -, hforked⟩ := hq
  have hpart : Part.select ∈ Part.splittable := by simp [Part.splittable]
  constructor
  · obtain ⟨g, hg, hfork⟩ := List.any_eq_true.mp hforked
    have hcontains := any_iff.mpr ⟨g, mem_nodes_of_surface hg, hfork⟩
    exact Query.containsFork_iff.mpr ⟨.select, hpart, e, he, hcontains⟩
  · rcases hplan : plan q a with ⟨_ | p, b⟩
    · have hconcealed := sites_eq_nil_iff.mp (plan_eq_none_iff.mp (congrArg Prod.fst hplan))
      have hplain := not_isForked_iff_outermostForks.mpr (hconcealed .select hpart e he)
      exact absurd (hplain.symm.trans hforked) (by simp)
    · exact ⟨p, b, rfl⟩

/-- A run does not end while its first query with forks has one in a selected dimension. -/
theorem Run.not_forkedDimension (h : Run a (before ++ q :: after) done out)
    (hbefore : ∀ y ∈ before, y.containsFork = false) : ¬ q.ForkedDimension := by
  intro hq
  induction done generalizing a before q after with
  | nil =>
      obtain ⟨hfork, p, b, hplan⟩ := exists_plan_of_forkedDimension hq a
      obtain ⟨new, rest, hnil, -⟩ := h.cut_first hbefore hfork hplan
      exact absurd hnil (by simp)
  | cons d done ih =>
      obtain ⟨hfork, p, b, hplan⟩ := exists_plan_of_forkedDimension hq a
      obtain ⟨new, rest, hdone, hqueries, hrest⟩ := h.cut_first hbefore hfork hplan
      obtain ⟨-, rfl⟩ := List.cons.inj hdone
      obtain ⟨subs, c, rfl, hround⟩ := queries_spec hqueries
      obtain ⟨s, others, rfl, hs⟩ := hround.forkedDimension hq
      exact ih (by simpa using hrest) hbefore hs

end Run

theorem mem_errors_incompatible :
    .incompatibleDimensions "LOD dimensions are incompatible" ∈ Split.incompatible.errors :=
  List.mem_filterMap.mpr ⟨_, self_mem_nodes _, rfl⟩

end Split

open Split in
/-- If the rounds over a query come to one whose sub-queries have dimensions that do not go
together, the query is not split, in whichever of its parts and however deep the fork stands. Unless
the rounds themselves fail, the error says that the dimensions are incompatible. -/
theorem Query.split_incompatible {q x : Query} {n : Nat} {b c : Names} {p : Plan}
    (hreach : Reaches n .start [q] b x) (hplan : plan x b = (some p, c))
    (hp : p.compatible = false) :
    ∃ e, q.split = .error e ∧ ∀ errors, e = .formulas errors →
      .incompatibleDimensions "LOD dimensions are incompatible" ∈ errors := by
  rw [Query.split]
  cases hqs : rounds maxRounds .start [q] with
  | error err =>
      refine ⟨err, rfl, ?_⟩
      rintro errors rfl
      rcases rounds_eq_error hqs with h | ⟨y, _, p', _, hplan', hqueries⟩
      · cases h
      · cases queries_eq_error hplan' hqueries
  | ok qs =>
      obtain ⟨done, hrun⟩ := rounds_run hqs
      obtain ⟨before, after, new, rest, hbefore, hqueries, hrest⟩ := hrun.of_reaches hreach hplan
      obtain ⟨subs, y, rfl, hround⟩ := queries_spec hqueries
      rcases hround.incompatible hplan hp with ⟨hconcealed, part, e, he, hformula⟩ |
        ⟨s, others, rfl, hs⟩
      · have hy : y ∈ qs := hrest.keeps_concealed (by simp) hconcealed
        have hmem : .incompatibleDimensions "LOD dimensions are incompatible" ∈
            qs.flatMap fun q => q.entries.flatMap fun e => e.2.formula.errors := by
          refine List.mem_flatMap.mpr ⟨y, hy, List.mem_flatMap.mpr ⟨_, Query.mem_entries he, ?_⟩⟩
          rw [hformula]
          exact mem_errors_incompatible
        refine ⟨.formulas _, ?_, fun errors h => QueryError.formulas.inj h ▸ hmem⟩
        change (if _ then _ else _) = _
        rw [if_neg (by simpa using List.ne_nil_of_mem hmem)]
        rfl
      · exact absurd hs (Run.not_forkedDimension (by simpa using hrest) hbefore)

namespace Query

open Split

/-- Over all rows, the sum of the sales at two levels of detail of which none has the dimensions of
the other. -/
def levelsApart : Query :=
  let sales (field : String) := Formula.fork .left sumOfSales [.same (.field "city")]
    (.fixed [.field "city", .field field])
  { Query.empty "q" with
    select := [Entry.of (.fork .left (.binary "+" (sales "date") (sales "shop"))
      [.same (.int 1)] (.fixed []))]
    sources := [.table "t" "t" "orders"] }

/-- The levels come to light in the second round, over a sub-query. -/
theorem split_incompatible_levelsApart :
    ∃ x b p c, Reaches 1 .start [levelsApart] b x ∧ plan x b = (some p, c) ∧
      p.compatible = false ∧ ∃ e, levelsApart.split = .error e := by
  have hok : (round levelsApart .start).1.toOption.any (fun new => new.any fun qs =>
      qs.head?.any fun x => x.containsFork &&
        (plan x (round levelsApart .start).2).1.any fun p => !p.compatible) = true := by
    decide +kernel
  obtain ⟨qs, b, hround, htest⟩ := exists_round hok
  obtain ⟨hnone, -⟩ | ⟨p₀, new, hnew, hplan₀, hqueries⟩ := round_eq_ok hround
  · cases hnone
  obtain rfl := Option.some.inj hnew
  rw [hround, Option.any_eq_true] at htest
  obtain ⟨x, hx, htest⟩ := htest
  rw [Bool.and_eq_true, Option.any_eq_true] at htest
  obtain ⟨hfork, p, hp, hincompatible⟩ := htest
  obtain ⟨rest, rfl⟩ := List.head?_eq_some_iff.mp hx
  have hplan : plan x b = (some p, (plan x b).2) := Prod.ext hp rfl
  have hp : p.compatible = false := by simpa using hincompatible
  have hfirst : ∀ y ∈ ([] : List Query), y.containsFork = false :=
    fun _ hy => absurd hy List.not_mem_nil
  have hhere : Reaches 0 b ([] ++ x :: (rest ++ [])) b x := .here hfirst hfork
  have hreach : Reaches 1 .start ([] ++ [levelsApart]) b x :=
    .cut hfirst rfl hplan₀ hqueries hhere
  obtain ⟨e, he, -⟩ := split_incompatible hreach hplan hp
  exact ⟨x, b, p, _, hreach, hplan, hp, e, he⟩

end Query

end FormulaSql
