import FormulaSql.Proofs.Query.Compile
import FormulaSql.Proofs.Split.Exposure
import FormulaSql.Proofs.Split.Plain

/-!
# What a query mentions and what it reads

A compiled query mentions columns of the tables it reads. Sub-queries read from the same sources as
the query that is cut, so they mention nothing else. A cropped query reads from the sub-queries of
its round. So a query is out of scope exactly if it mentions what the last round that cropped it
left over.
-/

namespace FormulaSql

/-- The field is a column of a table or a sub-query that the query reads. -/
def Query.Binds (r : Registry) (q : Query) (n : String) : Prop :=
  q.ReadsColumn r n ∨
    ∃ id aliasName queryId columns,
      .subquery id aliasName queryId columns ∈ q.sources ∧ n ∈ columns

/-- The source is a sub-query with such a column, or it is a table. -/
def Source.mayHave (n : String) : Source → Bool
  | .table .. => true
  | .subquery _ _ _ columns => columns.contains n

theorem Query.Binds.exists_source {r : Registry} {q : Query} {n : String} (h : q.Binds r n) :
    ∃ source ∈ q.sources, source.mayHave n = true := by
  rcases h with ⟨_, -, _, _, htable⟩ | ⟨_, _, _, columns, hmem, hn⟩
  · exact ⟨_, htable, rfl⟩
  · exact ⟨_, hmem, List.contains_iff_mem.mpr hn⟩

/-- Everything that the query mentions is bound by what it reads. -/
def Query.Scoped (r : Registry) (q : Query) : Prop := ∀ n, q.Mentions n → q.Binds r n

namespace Split

/-! ## Sources -/

/-- The sub-queries of a plan as sources. -/
def Plan.sources (p : Plan) : List Source :=
  p.masks.map fun m => .subquery m.queryId m.queryId m.queryId m.columns

section Round

variable {r : Registry} {q c x : Query} {p : Plan} {subs : List Query} {a b : Names} {n : String}

theorem RoundOf.sources (h : RoundOf q p subs c) : c.sources = p.sources := by
  obtain ⟨_, _, -, -, hcropped, -⟩ := h.cropped
  exact hcropped.sources

/-- Who reads from the sub-queries of a plan binds their columns and nothing else. -/
theorem binds_iff_isColumn (h : x.sources = p.sources) : x.Binds r n ↔ IsColumn p.masks n := by
  rw [Query.Binds, Query.ReadsColumn, h, Plan.sources]
  constructor
  · rintro (⟨_, -, _, _, htable⟩ | ⟨id, aliasName, queryId, columns, hmem, hn⟩)
    · obtain ⟨m, -, heq⟩ := List.mem_map.mp htable
      cases heq
    · obtain ⟨m, hm, heq⟩ := List.mem_map.mp hmem
      obtain ⟨-, -, -, rfl⟩ := Source.subquery.inj heq
      exact ⟨m, hm, hn⟩
  · rintro ⟨m, hm, hn⟩
    exact Or.inr ⟨_, _, _, _, List.mem_map_of_mem hm, hn⟩

/-- What a query mentions can be traced back to a table that it reads, or to the round from whose
sub-queries it reads. -/
def Traced (r : Registry) (done : List Round) (x : Query) : Prop :=
  (∀ n, x.Mentions n → x.ReadsColumn r n) ∨
    ∃ d ∈ done, x.sources = d.plan.sources ∧
      ∀ n, x.Mentions n → IsColumn d.plan.masks n ∨ Leaves d.query d.plan n

theorem SubqueryOf.traced {done : List Round} {m : Mask} (h : SubqueryOf q m x)
    (hm : MaskOf q a b m) (hq : Traced r done q) : Traced r done x := by
  rcases hq with hread | ⟨d, hd, hsources, hmentions⟩
  · refine Or.inl fun n hn => ?_
    obtain ⟨c, hc, aliasName, table, hmem⟩ := hread n (h.mentions hm hn)
    exact ⟨c, hc, aliasName, table, h.sources ▸ hmem⟩
  · exact Or.inr ⟨d, hd, h.sources.trans hsources, fun n hn => hmentions n (h.mentions hm hn)⟩

end Round

/-! ## Runs -/

section Runs

variable {r : Registry} {a : Names} {qs out : List Query} {done : List Round}

/-- Every round of a run starts with names that its query does not use. -/
theorem Run.rounds (h : Run a qs done out) (hqs : ∀ x ∈ qs, Unused a x) :
    ∀ d ∈ done, ∃ a b subs c, Unused a d.query ∧ Planned d.query a b d.plan ∧
      RoundOf d.query d.plan subs c ∧ d.queries = subs ++ [c] := by
  induction h with
  | whole | stuck => exact fun d hd => absurd hd List.not_mem_nil
  | @cut a b before after new out q p rest _ _ hplan hqueries _ ih =>
      obtain ⟨hle, hplanned⟩ := plan_spec hplan
      obtain ⟨subs, c, rfl, hround⟩ := queries_spec hqueries
      have hq : Unused a q := hqs q (by simp)
      have hnew := hround.unused hle hplanned.masks hq
      intro d hd
      rcases List.mem_cons.mp hd with rfl | hd
      · exact ⟨a, b, subs, c, hq, hplanned, hround, rfl⟩
      · refine ih (fun x hx => ?_) d hd
        simp only [List.mem_append] at hx
        rcases hx with (hx | hx) | hx
        · exact (hqs x (by simp [hx])).later hle
        · exact hnew x (List.mem_append.mpr hx)
        · exact (hqs x (by simp [hx])).later hle

theorem Run.traced (h : Run a qs done out) (hunused : ∀ x ∈ qs, Unused a x)
    (hqs : ∀ x ∈ qs, ∀ n, x.Mentions n → x.ReadsColumn r n) :
    ∀ x ∈ qs ++ done.flatMap Round.queries, Traced r done x := by
  refine h.all_made (fun x hx => Or.inl (hqs x hx)) fun d hd htraced x hx => ?_
  obtain ⟨a, b, subs, c, hq, hplanned, hround, hqueries⟩ := h.rounds hunused d hd
  rw [hqueries] at hx
  rcases List.mem_append.mp hx with hx | hx
  · obtain ⟨m, hm, hsub⟩ := forall₂_exists_left hround.subqueries hx
    exact hsub.traced (hplanned.masks.mask m hm) htraced
  · obtain rfl := List.mem_singleton.mp hx
    refine Or.inr ⟨d, hd, hround.sources, fun n hn => ?_⟩
    by_cases hcolumn : IsColumn d.plan.masks n
    · exact Or.inl hcolumn
    · exact Or.inr ((hround.leaves_iff hplanned hq).mp ⟨hn, hcolumn⟩)

/-- A query that comes up in a run is in scope exactly if it mentions nothing that was left over by
the round from whose sub-queries it reads. -/
theorem Run.scoped_iff (h : Run a qs done out) (hunused : ∀ x ∈ qs, Unused a x)
    (hqs : ∀ x ∈ qs, ∀ n, x.Mentions n → x.ReadsColumn r n) {x : Query}
    (hx : x ∈ qs ++ done.flatMap Round.queries) :
    x.Scoped r ↔ ∀ d ∈ done, x.sources = d.plan.sources →
      ∀ n, Leaves d.query d.plan n → ¬ x.Mentions n := by
  constructor
  · intro hscoped d hd hsources n hleaves hn
    obtain ⟨a, b, subs, c, hq, hplanned, hround, -⟩ := h.rounds hunused d hd
    obtain ⟨-, hcolumn⟩ := (hround.leaves_iff hplanned hq).mpr hleaves
    exact hcolumn ((binds_iff_isColumn hsources).mp (hscoped n hn))
  · intro hnone n hn
    rcases h.traced hunused hqs x hx with hread | ⟨d, hd, hsources, hmentions⟩
    · exact Or.inl (hread n hn)
    · rcases hmentions n hn with hcolumn | hleaves
      · exact (binds_iff_isColumn hsources).mpr hcolumn
      · exact absurd hn (hnone d hd hsources n hleaves)

/-- All queries that come up are in scope exactly if no round leaves anything over. -/
theorem Run.all_scoped_iff (h : Run a qs done out) (hunused : ∀ x ∈ qs, Unused a x)
    (hqs : ∀ x ∈ qs, ∀ n, x.Mentions n → x.ReadsColumn r n) :
    (∀ x ∈ qs ++ done.flatMap Round.queries, x.Scoped r) ↔
      ∀ d ∈ done, ∀ n, ¬ Leaves d.query d.plan n := by
  constructor
  · intro hall d hd n hleaves
    obtain ⟨a, b, subs, c, hq, hplanned, hround, hqueries⟩ := h.rounds hunused d hd
    obtain ⟨hn, hcolumn⟩ := (hround.leaves_iff hplanned hq).mpr hleaves
    have hc : c ∈ d.queries := by simp [hqueries]
    have hscoped := hall c (List.mem_append_right _ (List.mem_flatMap.mpr ⟨d, hd, hc⟩))
    exact hcolumn ((binds_iff_isColumn hround.sources).mp (hscoped n hn))
  · intro hnone x hx
    exact (h.scoped_iff hunused hqs hx).mpr fun d hd _ n hleaves => absurd hleaves (hnone d hd n)

end Runs

/-- All rounds of a run over plain queries cut plain queries. -/
theorem Run.plain {a : Names} {qs out : List Query} {done : List Round} (h : Run a qs done out)
    (hqs : ∀ x ∈ qs, x.Plain) : ∀ d ∈ done, d.query.Plain := by
  have hstep : ∀ d ∈ done, d.query.Plain → ∀ x ∈ d.queries, x.Plain := by
    intro d hd hplain x hx
    obtain ⟨a, b, subs, c, hplanned, hround, hqueries⟩ := h.planned d hd
    exact hround.plain hplanned hplain x (hqueries ▸ hx)
  exact fun d hd => h.all_made hqs hstep d.query (h.query_mem hd)

/-- If no field of the registry has the name of a new column, none is used at the start. -/
theorem unused_start {r : Registry} {q : Query} (hnames : ∀ c ∈ r.columns, ∀ k : Nat,
    c.fieldId ≠ "_cp" ++ toString k) (hq : q.FieldsIn fun n => q.ReadsColumn r n) :
    Unused .start q := by
  rintro n ⟨p, -, e, he, hn⟩ k - rfl
  obtain ⟨c, hc, -⟩ := hq p e he _ hn
  have hid := List.find?_some hc
  exact hnames c (List.mem_of_find?_eq_some hc) k (beq_iff_eq.mp hid)

end Split

open Split in
/-- A compiled query is in scope exactly if it mentions nothing that was left over by the round from
whose sub-queries it reads. All queries that come up are exactly if no round leaves anything over,
and none does if the query to be split is plain. -/
theorem QuerySpec.compileMulti_scoped {spec : QuerySpec} {r : Registry} {s : Settings}
    {m : MultiQuery} (h : spec.compileMulti r s = .ok m) (hordering : spec.defaultOrdering = [])
    (hnames : ∀ c ∈ r.columns, ∀ k : Nat, c.fieldId ≠ "_cp" ++ toString k) :
    ∃ q done, spec.compile r s = .ok q ∧ Run .start [q] done m.queries ∧
      (∀ x ∈ m.queries, x.Scoped r ↔ ∀ d ∈ done, x.sources = d.plan.sources →
        ∀ n, Leaves d.query d.plan n → ¬ x.Mentions n) ∧
      ((∀ x ∈ q :: done.flatMap Round.queries, x.Scoped r) ↔
        ∀ d ∈ done, ∀ n, ¬ Leaves d.query d.plan n) ∧
      (q.Plain → ∀ x ∈ m.queries, x.Scoped r) := by
  obtain ⟨q, hq, hsplit⟩ := bind_eq_ok.mp h
  obtain ⟨⟨done, hrun⟩, -⟩ := split_run hsplit
  obtain ⟨hfields, -⟩ := QuerySpec.compile_reads hq hordering
  have hunused : ∀ x ∈ [q], Unused .start x := fun x hx =>
    List.mem_singleton.mp hx ▸ unused_start hnames hfields
  have hreads : ∀ x ∈ [q], ∀ n, x.Mentions n → x.ReadsColumn r n := by
    rintro x hx n ⟨p, -, e, he, hn⟩
    obtain rfl := List.mem_singleton.mp hx
    exact hfields p e he n hn
  have hall := hrun.all_scoped_iff hunused hreads
  refine ⟨q, done, hq, hrun, fun x hx => ?_, hall, fun hplain x hx => ?_⟩
  · exact hrun.scoped_iff hunused hreads (hrun.mem_made hx)
  · refine hall.mpr (fun d hd n => ?_) x (hrun.mem_made hx)
    refine not_leaves_of_plain (hrun.plain (fun y hy => ?_) d hd)
    exact List.mem_singleton.mp hy ▸ hplain

/-- Whether all sales were made in the city. -/
def onlyInCity : QuerySpec :=
  Split.figureBy "city" (.binary "==" Split.sumOfSales
    (.callWith "sum" [.field "sales"] (.fixed []) NameSet.empty))

theorem QuerySpec.compileMulti_scoped_onlyInCity :
    ∃ m, onlyInCity.compileMulti Split.orders .default = .ok m ∧ m.queries.length = 3 ∧
      ∀ x ∈ m.queries, x.Scoped Split.orders := by
  have hok : ((onlyInCity.compileMulti Split.orders .default).toOption.any
      fun m => m.queries.length == 3) = true := by decide +kernel
  have hplain : ((onlyInCity.compile Split.orders .default).toOption.any
      fun q => decide q.Plain) = true := by decide +kernel
  have hnames : ∀ c ∈ Split.orders.columns, ∀ k : Nat, c.fieldId ≠ "_cp" ++ toString k := by
    have htake : ∀ c ∈ Split.orders.columns,
        c.fieldId.toList.take "_cp".toList.length ≠ "_cp".toList := by decide
    exact fun c hc k => Split.ne_numbered k (htake c hc)
  obtain ⟨m, hm, hlength⟩ := exists_eq_ok hok
  obtain ⟨q, done, hq, -, -, -, hscoped⟩ := QuerySpec.compileMulti_scoped hm rfl hnames
  rw [hq] at hplain
  exact ⟨m, hm, beq_iff_eq.mp hlength, hscoped (of_decide_eq_true hplain)⟩

/-- The rank of the sales of each city, taken city by city. -/
def rankWithinCity : QuerySpec :=
  Split.figureBy "city" (.window "rank"
    [.callWith "sum" [.field "sales"] (.fixed [.field "city"]) NameSet.empty]
    (.within [.field "city"]) [] NameSet.empty)

/-- The grouping of a window call above a fork mentions a column that is not read. -/
theorem QuerySpec.compileMulti_dangling :
    ∃ m, rankWithinCity.compileMulti Split.orders .default = .ok m ∧
      ∃ x ∈ m.queries, ¬ x.Scoped Split.orders := by
  have hfound : ((rankWithinCity.compileMulti Split.orders .default).toOption.any fun m =>
      m.queries.any fun x =>
        (x.select.any fun e => e.formula.any fun g => g.field? == some "city") &&
        x.sources.all fun source => !source.mayHave "city") = true := by decide +kernel
  obtain ⟨m, hm, hany⟩ := exists_eq_ok hfound
  obtain ⟨x, hx, hboth⟩ := List.any_eq_true.mp hany
  obtain ⟨hselect, hsources⟩ := Bool.and_eq_true_iff.mp hboth
  obtain ⟨e, he, hfield⟩ := List.any_eq_true.mp hselect
  obtain ⟨g, hg, hcity⟩ := Formula.any_iff.mp hfield
  refine ⟨m, hm, x, hx, fun hscoped => ?_⟩
  have hbinds := hscoped "city" ⟨.select, by simp, e, he, g, hg, beq_iff_eq.mp hcity⟩
  obtain ⟨source, hsource, hhas⟩ := hbinds.exists_source
  have hnot := List.all_eq_true.mp hsources source hsource
  exact absurd hhas (by simpa using hnot)

end FormulaSql
