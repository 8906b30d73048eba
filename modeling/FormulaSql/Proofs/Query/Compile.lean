import FormulaSql.Proofs.Data.Outcomes
import FormulaSql.Proofs.Formula.Rewriting
import FormulaSql.Proofs.Query.Rules
import FormulaSql.Query.Compile

/-!
# The fields of a compiled query

All fields in the formulas that are asked for are registered, or else compiling fails, and the query
reads from the tables of their avatars. Preparing the query moves fields from one formula to another
but brings in no new ones and leaves the sources alone. So every field of the compiled query is a
column of a table that it reads.
-/

namespace FormulaSql

/-- All formulas of the query are within the allowed fields. -/
def Query.FieldsIn (q : Query) (S : String → Prop) : Prop :=
  ∀ p, ∀ e ∈ q.part p, e.formula.Within S

/-! ## Stages -/

section Stages

variable {S : String → Prop} {q : Query}

theorem Query.FieldsIn.dimension (h : q.FieldsIn S) : ∀ d ∈ q.dimensions, d.Within S := by
  intro d hd
  obtain ⟨e, he, rfl⟩ := List.mem_map.mp hd
  exact h .groupBy e he

theorem Query.FieldsIn.mapFormulas {f : Part → Formula → Formula} (h : q.FieldsIn S)
    (hf : ∀ p g, g.Within S → (f p g).Within S) : (q.mapFormulas f).FieldsIn S := by
  intro p e he
  have hpart : (q.mapFormulas f).part p = (q.part p).map (Query.mapEntry (f p)) := by
    cases p <;> rfl
  obtain ⟨e₀, he₀, rfl⟩ := List.mem_map.mp (hpart ▸ he)
  rw [Query.mapEntry]
  split
  · exact h p e₀ he₀
  · exact hf p _ (h p e₀ he₀)

theorem fieldsIn_applyRules {rules : List Rule} (h : q.FieldsIn S)
    (hrules : ∀ rule ∈ rules, Rule.Keeps S rule) : (Pipeline.applyRules q rules).FieldsIn S :=
  h.mapFormulas fun _ _ hg => within_transformAll hrules hg

/-- The stage brings in no new fields and leaves the sources alone. -/
def StageKeeps (S : String → Prop) (stage : Pipeline.Stage) : Prop :=
  ∀ q q', q.FieldsIn S → stage q = .ok q' → q'.FieldsIn S ∧ q'.sources = q.sources

theorem prepare_keeps {ordering : List Formula} (h : ∀ o ∈ ordering, o.Within S) :
    StageKeeps S (Pipeline.prepare ordering) := by
  intro q q' hq hstage
  obtain rfl := Except.ok.inj hstage
  refine ⟨fieldsIn_applyRules hq ?_, rfl⟩
  simp only [List.forall_mem_cons]
  exact ⟨keeps_defaultOrdering h, keeps_lookupFilters, keeps_amongToWithin hq.dimension,
    keeps_dropExtraWithin, fun _ h => absurd h List.not_mem_nil⟩

theorem optimize_keeps (s : Settings) : StageKeeps S (Pipeline.optimize s) := by
  intro q q' hq hstage
  unfold Pipeline.optimize at hstage
  split at hstage
  · obtain rfl := Except.ok.inj hstage
    exact ⟨hq, rfl⟩
  · obtain rfl := Except.ok.inj hstage
    refine ⟨hq.mapFormulas fun p g hg => ?_, rfl⟩
    split
    · exact within_settle (keeps_filterRules s.dialect) hg
    · exact within_settle (keeps_rules s.dialect) hg

/-- Leaving out entries of one part brings in nothing. -/
theorem Query.FieldsIn.of_subset {q' : Query} (h : q.FieldsIn S)
    (hsub : ∀ p, q'.part p ⊆ q.part p) : q'.FieldsIn S :=
  fun p e he => h p e (hsub p he)

theorem dropConstantGroups_keeps (applicable dialect : Dialects) :
    StageKeeps S (Pipeline.dropConstantGroups applicable dialect) := by
  intro q q' hq hstage
  unfold Pipeline.dropConstantGroups at hstage
  split at hstage
  · obtain rfl := Except.ok.inj hstage
    refine ⟨hq.of_subset fun p => ?_, rfl⟩
    cases p with
    | groupBy => exact List.filter_subset_self _
    | _ => exact List.Subset.refl _
  · obtain rfl := Except.ok.inj hstage
    exact ⟨hq, rfl⟩

theorem dropTrueFilters_keeps : StageKeeps S Pipeline.dropTrueFilters := by
  intro q q' hq hstage
  obtain rfl := Except.ok.inj hstage
  refine ⟨hq.of_subset fun p => ?_, rfl⟩
  cases p with
  | filters => exact List.filter_subset_self _
  | _ => exact List.Subset.refl _

theorem nullifyTotals_keeps : StageKeeps S Pipeline.nullifyTotals := by
  intro q q' hq hstage
  unfold Pipeline.nullifyTotals at hstage
  split at hstage
  · obtain rfl := Except.ok.inj hstage
    refine ⟨hq.mapFormulas fun p g hg => ?_, rfl⟩
    split
    · exact within_literal _ _
    · exact hg
  · obtain rfl := Except.ok.inj hstage
    exact ⟨hq, rfl⟩

theorem makeForks_keeps (s : Settings) : StageKeeps S (Pipeline.makeForks s) := by
  intro q q' hq hstage
  have hrules : ∀ hasLookups hasLevels hasWindows : Bool, ∀ rule ∈
      (if hasLookups then [Normalize.lookups q.dimensions s.allowEmptyDimensions] else []) ++
      (if hasLevels then [Normalize.levelOfDetail q.dimensions] else []) ++
      (if hasWindows then [Normalize.windowForks q.dimensions] else []), Rule.Keeps S rule := by
    intro hasLookups hasLevels hasWindows rule hrule
    simp only [List.mem_append] at hrule
    rcases hrule with (hrule | hrule) | hrule
    · split at hrule
      · exact List.mem_singleton.mp hrule ▸ keeps_lookups hq.dimension
      · exact absurd hrule List.not_mem_nil
    · split at hrule
      · exact List.mem_singleton.mp hrule ▸ keeps_levelOfDetail hq.dimension
      · exact absurd hrule List.not_mem_nil
    · split at hrule
      · exact List.mem_singleton.mp hrule ▸ keeps_windowForks hq.dimension
      · exact absurd hrule List.not_mem_nil
  unfold Pipeline.makeForks at hstage
  dsimp only at hstage
  split at hstage
  · obtain ⟨_, -, hstage⟩ := bind_eq_ok.mp hstage
    obtain rfl := Except.ok.inj hstage
    exact ⟨fieldsIn_applyRules hq (hrules _ _ _), rfl⟩
  · obtain rfl := Except.ok.inj hstage
    exact ⟨fieldsIn_applyRules hq (hrules _ _ _), rfl⟩

theorem normalizeFilters_keeps : StageKeeps S Pipeline.normalizeFilters := by
  intro q q' hq hstage
  obtain rfl := Except.ok.inj hstage
  refine ⟨fieldsIn_applyRules hq fun rule hrule => ?_, rfl⟩
  exact List.mem_singleton.mp hrule ▸ keeps_laterFilters _

theorem tagLevels_keeps : StageKeeps S Pipeline.tagLevels := by
  intro q q' hq hstage
  obtain rfl := Except.ok.inj hstage
  refine ⟨fieldsIn_applyRules hq fun rule hrule => ?_, rfl⟩
  exact List.mem_singleton.mp hrule ▸ keeps_levelTags

/-- Preparing a query brings in no new fields and leaves the sources alone. -/
theorem process_keeps {s : Settings} {ordering : List Formula} {q' : Query}
    (hordering : ∀ o ∈ ordering, o.Within S) (hq : q.FieldsIn S)
    (h : q.process s ordering = .ok q') : q'.FieldsIn S ∧ q'.sources = q.sources := by
  have hstages : ∀ stage ∈ Pipeline.stages s ordering, StageKeeps S stage := by
    simp only [Pipeline.stages, List.forall_mem_cons]
    exact ⟨prepare_keeps hordering, optimize_keeps s, dropConstantGroups_keeps _ _,
      dropTrueFilters_keeps, nullifyTotals_keeps, makeForks_keeps s, normalizeFilters_keeps,
      tagLevels_keeps, fun _ h => absurd h List.not_mem_nil⟩
  refine foldlM_invariant (I := fun _ x => Query.FieldsIn x S ∧ x.sources = q.sources) ?_ []
    ⟨hq, rfl⟩ h
  rintro done stage hstage x x' ⟨hx, hsources⟩ hstep
  obtain ⟨hx', hsources'⟩ := hstages stage hstage x x' hx hstep
  exact ⟨hx', hsources'.trans hsources⟩

end Stages

/-! ## Used fields -/

namespace NameSet

theorem mem_ofList {n : String} {ns : List String} : n ∈ (ofList ns).toList ↔ n ∈ ns := by
  have hfold (s : NameSet) : n ∈ (ns.foldl insert s).toList ↔ n ∈ s.toList ∨ n ∈ ns := by
    induction ns generalizing s with
    | nil => simp
    | cons m ms ih =>
        rw [List.foldl_cons, ih, mem_toList_insert, List.mem_cons]
        tauto
  simpa [ofList, empty] using hfold empty

end NameSet

theorem Formula.mem_usedFieldNames_of_mentions {f : Formula} {n : String} (h : f.Mentions n) :
    n ∈ f.usedFieldNames.toList := by
  obtain ⟨g, hg, hn⟩ := h
  have hmem : g ∈ f.nodes.filter fun g => g.field?.isSome :=
    List.mem_filter.mpr ⟨hg, by rw [hn]; rfl⟩
  obtain ⟨g', hg', hsame⟩ := exists_beq_eraseDups hmem
  refine NameSet.mem_ofList.mpr (List.mem_filterMap.mpr ⟨g', hg', ?_⟩)
  exact (field?_eq_of_same hsame).symm.trans hn

theorem Formula.mem_usedFieldNames_iff {f : Formula} {n : String} :
    n ∈ f.usedFieldNames.toList ↔ f.Mentions n := by
  refine ⟨fun h => ?_, mem_usedFieldNames_of_mentions⟩
  obtain ⟨g, hg, hn⟩ := List.mem_filterMap.mp (NameSet.mem_ofList.mp h)
  exact ⟨g, (List.mem_filter.mp (mem_of_mem_eraseDups hg)).1, hn⟩

/-! ## Sources -/

/-- The field is a column of a table that the query reads. -/
def Query.ReadsColumn (r : Registry) (q : Query) (n : String) : Prop :=
  ∃ c, r.column? n = some c ∧ ∃ aliasName source, .table c.avatarId aliasName source ∈ q.sources

namespace Compile

theorem assignAliases_formulas (known : Formula → Option String) (supply : NameSupply)
    (es : List Entry) :
    (assignAliases known supply es).1.map Entry.formula = es.map Entry.formula := by
  induction es generalizing supply with
  | nil => rfl
  | cons e es ih =>
      rw [assignAliases]
      split
      · exact congrArg (e.formula :: ·) (ih supply)
      · exact congrArg (e.formula :: ·) (ih supply.take.2)

/-- The avatars of an entry are those of the fields in its formula. -/
def HasAvatars (r : Registry) (e : Entry) : Prop :=
  ∀ n c, e.formula.Mentions n → r.column? n = some c → c.avatarId ∈ e.avatarIds.toList

theorem hasAvatars_entryFor (r : Registry) (item : SpecItem) : HasAvatars r (entryFor r item) := by
  intro n c hn hc
  refine NameSet.mem_ofList.mpr (List.mem_map_of_mem (List.mem_filterMap.mpr ⟨n, ?_, hc⟩))
  exact Formula.mem_usedFieldNames_of_mentions hn

theorem hasAvatars_assignAliases {r : Registry} {known : Formula → Option String}
    {supply : NameSupply} {es : List Entry} (h : ∀ e ∈ es, HasAvatars r e) :
    ∀ e ∈ (assignAliases known supply es).1, HasAvatars r e := by
  induction es generalizing supply with
  | nil => exact h
  | cons e es ih =>
      have hrest := fun x hx => h x (List.mem_cons_of_mem e hx)
      have hhead := h e List.mem_cons_self
      rw [assignAliases]
      split
      · exact List.forall_mem_cons.mpr ⟨hhead, ih hrest⟩
      · exact List.forall_mem_cons.mpr ⟨hhead, ih hrest⟩

theorem hasAvatars_build (r : Registry) (spec : QuerySpec) (p : Part) :
    ∀ e ∈ (build r spec).part p, HasAvatars r e := by
  have hitems (items : List SpecItem) : ∀ e ∈ items.map (entryFor r), HasAvatars r e := by
    intro e he
    obtain ⟨item, -, rfl⟩ := List.mem_map.mp he
    exact hasAvatars_entryFor r item
  cases p with
  | select => exact hasAvatars_assignAliases (hitems spec.select)
  | groupBy => exact hasAvatars_assignAliases (hitems spec.groupBy)
  | filters => exact hitems spec.filters
  | orderBy =>
      intro e he
      obtain ⟨item, -, rfl⟩ := List.mem_map.mp he
      exact hasAvatars_entryFor r (orderItem item).1
  | joinOn =>
      intro e he
      obtain ⟨j, -, rfl⟩ := List.mem_map.mp he
      exact hasAvatars_entryFor r ⟨j.formula, none, none⟩

theorem column?_of_no_errors {r : Registry} {s : Settings} {q : Query} (h : errors r s q = [])
    {p : Part} {e : Entry} (he : e ∈ q.part p) {n : String} (hn : e.formula.Mentions n) :
    ∃ c, r.column? n = some c := by
  by_contra hnone
  have hunknown : FormulaError.unknownField n ∈ unknownFields r e.formula := by
    refine List.mem_map_of_mem (List.mem_filter.mpr ⟨?_, ?_⟩)
    · exact Formula.mem_usedFieldNames_of_mentions hn
    · rw [Option.isNone_iff_eq_none, Option.eq_none_iff_forall_ne_some]
      exact fun c hc => hnone ⟨c, hc⟩
  have hmem : FormulaError.unknownField n ∈ errors r s q := by
    rw [errors, List.mem_eraseDups]
    simp only [List.append_assoc, List.mem_append]
    refine Or.inl (List.mem_flatMap.mpr ⟨e.formula, ?_, hunknown⟩)
    exact List.mem_map.mpr ⟨(p, e), Query.mem_entries he, rfl⟩
  rw [h] at hmem
  exact absurd hmem List.not_mem_nil

end Compile

theorem mem_sources_of_avatar {r : Registry} {spec : QuerySpec} {q : Query} {sources : List Source}
    (h : (Compile.avatarIds spec q).mapM (Compile.sourceFor r) = .ok sources) {p : Part}
    {e : Entry} (he : e ∈ q.part p) {id : String} (hid : id ∈ e.avatarIds.toList) :
    ∃ aliasName source, .table id aliasName source ∈ sources := by
  have hmem : id ∈ Compile.avatarIds spec q := by
    rw [Compile.avatarIds, List.mem_eraseDups]
    exact List.mem_append_right _ (List.mem_flatMap.mpr ⟨(p, e), Query.mem_entries he, hid⟩)
  obtain ⟨source, hsource, hfor⟩ := forall₂_exists_right (mapM_eq_ok h) hmem
  rw [Compile.sourceFor] at hfor
  split at hfor
  next a _ => exact ⟨id, a.source, Except.ok.inj hfor ▸ hsource⟩
  next => cases hfor

/-- A compiled query is built without errors, gets its sources and is prepared. -/
theorem QuerySpec.compile_eq_ok {spec : QuerySpec} {r : Registry} {s : Settings} {q : Query}
    (h : spec.compile r s = .ok q) :
    Compile.errors r s (Compile.build r spec) = [] ∧ ∃ sources,
      (Compile.avatarIds spec (Compile.build r spec)).mapM (Compile.sourceFor r) = .ok sources ∧
      Query.process { Compile.build r spec with sources } s spec.defaultOrdering = .ok q := by
  rw [QuerySpec.compile] at h
  dsimp only at h
  split at h
  · cases h
  next hempty =>
    obtain ⟨sources, hsources, h⟩ := bind_eq_ok.mp h
    obtain ⟨q', hprocess, h⟩ := bind_eq_ok.mp h
    obtain rfl : q' = q := by
      split at h
      · cases h
      · exact Except.ok.inj h
    exact ⟨by simpa using hempty, sources, hsources, hprocess⟩

theorem QuerySpec.compile_sources {spec : QuerySpec} {r : Registry} {s : Settings} {q : Query}
    (h : spec.compile r s = .ok q) :
    (Compile.avatarIds spec (Compile.build r spec)).mapM (Compile.sourceFor r) = .ok q.sources := by
  obtain ⟨-, sources, hsources, hprocess⟩ := QuerySpec.compile_eq_ok h
  have hany : Query.FieldsIn { Compile.build r spec with sources } fun _ => True :=
    fun _ _ _ _ _ => trivial
  rw [(process_keeps (fun _ _ _ _ => trivial) hany hprocess).2]
  exact hsources

/-- A compiled query reads from tables only. -/
theorem QuerySpec.compile_tables {spec : QuerySpec} {r : Registry} {s : Settings} {q : Query}
    (h : spec.compile r s = .ok q) : ∀ source ∈ q.sources, source.queryId? = none := by
  intro source hsource
  obtain ⟨id, -, hfor⟩ :=
    forall₂_exists_left (mapM_eq_ok (QuerySpec.compile_sources h)) hsource
  rw [Compile.sourceFor] at hfor
  split at hfor
  · exact Except.ok.inj hfor ▸ rfl
  · cases hfor

/-- Before the query is prepared, its own entries name the avatars. -/
theorem Compile.build_reads {spec : QuerySpec} {r : Registry} {s : Settings} {sources : List Source}
    (herrors : errors r s (build r spec) = [])
    (hsources : (avatarIds spec (build r spec)).mapM (sourceFor r) = .ok sources) :
    Query.FieldsIn { build r spec with sources } fun n =>
      Query.ReadsColumn r { build r spec with sources } n := by
  intro p e he n hn
  have he : e ∈ (build r spec).part p := by cases p <;> exact he
  obtain ⟨c, hc⟩ := column?_of_no_errors herrors he hn
  have havatar := hasAvatars_build r spec p e he n c hn hc
  exact ⟨c, hc, mem_sources_of_avatar hsources he havatar⟩

/-- Every field of a compiled query is a column of a table that it reads, and it reads from tables
only. -/
theorem QuerySpec.compile_reads {spec : QuerySpec} {r : Registry} {s : Settings} {q : Query}
    (h : spec.compile r s = .ok q) (hordering : spec.defaultOrdering = []) :
    (q.FieldsIn fun n => q.ReadsColumn r n) ∧ ∀ source ∈ q.sources, source.queryId? = none := by
  obtain ⟨herrors, sources, hsources, hprocess⟩ := QuerySpec.compile_eq_ok h
  have hbuilt := Compile.build_reads herrors hsources
  obtain ⟨hfields, hsame⟩ := process_keeps
    (fun o ho => absurd (hordering ▸ ho) List.not_mem_nil) hbuilt hprocess
  refine ⟨fun p e he n hn => ?_, QuerySpec.compile_tables h⟩
  obtain ⟨c, hc, aliasName, table, hmem⟩ := hfields p e he n hn
  exact ⟨c, hc, aliasName, table, hsame ▸ hmem⟩

end FormulaSql
