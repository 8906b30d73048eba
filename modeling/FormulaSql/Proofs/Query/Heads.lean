import FormulaSql.Proofs.Query.Contexts
import FormulaSql.Proofs.Query.Levels

/-!
# What is called in a formula

A rule that replaces calls leaves none of them behind, and no rule brings one in from elsewhere as
long as there is none in what it pastes: dimensions, levels of detail and the ordering of the query.

* `Formula.calls_amongToWithin` says that no AMONG is left
* `Formula.calls_lookups` says that no lookup is left
* `Query.Calls` is kept by all stages
-/

namespace FormulaSql

/-- What a node calls. The flag of a window call says that it has an AMONG. -/
inductive Head where
  | call (name : String)
  | window (among : Bool)
  | other

namespace Head

/-- No lookup. -/
def NoLookup : Head → Prop
  | call n => Normalize.LookupKind.ofName? n = none
  | _ => True

/-- No window call with an AMONG. -/
def NoAmong : Head → Prop
  | window among => among = false
  | _ => True

instance : DecidablePred NoLookup
  | call n => inferInstanceAs (Decidable (Normalize.LookupKind.ofName? n = none))
  | window _ => inferInstanceAs (Decidable True)
  | other => inferInstanceAs (Decidable True)

instance : DecidablePred NoAmong
  | call _ => inferInstanceAs (Decidable True)
  | window among => inferInstanceAs (Decidable (among = false))
  | other => inferInstanceAs (Decidable True)

/-- No window call. -/
def NoWindow : Head → Prop
  | window _ => False
  | _ => True

/-- The property holds of all calls that rules make themselves. -/
structure Mild (p : Head → Prop) : Prop where
  other : p .other
  shift : ∀ n ∈ ["dateadd", "day"], p (.call n)

theorem mild_noLookup : Mild NoLookup := ⟨trivial, by simp only [NoLookup]; decide +kernel⟩

theorem mild_noAmong : Mild NoAmong := ⟨trivial, fun _ _ => trivial⟩

theorem mild_noWindow : Mild NoWindow := ⟨trivial, fun _ _ => trivial⟩

end Head

def Grouping.isAmong {α : Type} : Grouping α → Bool
  | .among _ => true
  | _ => false

namespace Kind

variable {α : Type}

def head : Kind α → Head
  | call c => .call c.name
  | window w => .window w.grouping.isAmong
  | _ => .other

/-- The dimensions of the level of detail. -/
def levelDims : Kind α → List α
  | call c => c.lod.dims
  | fork q => q.lod.dims
  | _ => []

theorem head_outline (k : Kind α) : k.outline.head = k.head := by
  cases k with
  | window w =>
      show Head.window (w.grouping.map fun _ => ()).isAmong = .window w.grouping.isAmong
      cases w.grouping <;> rfl
  | _ => rfl

theorem head_shape (k : Kind α) : k.shape.head = k.head := by
  cases k with
  | literal v => rfl
  | _ => exact head_outline _

theorem levelDims_subset {k : Kind α} {d : α} (h : d ∈ k.levelDims) : d ∈ k.children := by
  cases k with
  | call c => simp [children, show d ∈ c.lod.dims from h]
  | fork q => simp [children, show d ∈ q.lod.dims from h]
  | _ => exact absurd h List.not_mem_nil

/-- The dimensions of a level of detail are rebuilt from those before. -/
theorem forall₂_levelDims {R : α → α → Prop} {k : Kind α} {cs : List α}
    (h : List.Forall₂ R k.children cs) :
    List.Forall₂ R k.levelDims (k.withChildren cs).levelDims := by
  have houtline := outline_withChildren k cs
  have hpairs : List.Forall₂ R k.children (k.withChildren cs).children := by
    rwa [children_withChildren k cs h.length_eq.symm]
  cases hk : k with
  | call c =>
      rw [hk] at houtline hpairs
      obtain ⟨c', hk', -, -, -, hdims⟩ := exists_call_of_outline houtline hpairs
      rw [hk']
      exact hdims
  | fork q =>
      rw [hk] at houtline hpairs
      obtain ⟨q', hk', -, -, hdims⟩ := exists_fork_of_outline houtline hpairs
      rw [hk']
      exact hdims
  | _ => exact .nil

end Kind

namespace Formula

/-- All that is called in the formula has the property. -/
def Calls (p : Head → Prop) : Formula → Prop := All fun g => p g.kind.head

/-- All that is called in levels of detail has the property. -/
def LevelsCall (p : Head → Prop) : Formula → Prop := All fun g => ∀ d ∈ g.kind.levelDims, d.Calls p

instance {p : Head → Prop} [DecidablePred p] (f : Formula) : Decidable (f.Calls p) :=
  inferInstanceAs (Decidable (∀ g ∈ f.nodes, p g.kind.head))

instance {p : Head → Prop} [DecidablePred p] (f : Formula) : Decidable (f.LevelsCall p) :=
  inferInstanceAs (Decidable (∀ g ∈ f.nodes, ∀ d ∈ g.kind.levelDims, d.Calls p))

/-- The second formula calls what the first does. -/
structure AsCalls (p : Head → Prop) (f g : Formula) : Prop where
  calls : f.Calls p → g.Calls p
  levels : f.LevelsCall p → g.LevelsCall p

section Calls

variable {p : Head → Prop} {f g r : Formula} {cs dims above given : List Formula}

theorem Calls.head (h : f.Calls p) : p f.kind.head := h f (self_mem_nodes f)

theorem Calls.levels (h : f.Calls p) : f.LevelsCall p := fun _ hg _ hd =>
  (h.of_node hg).of_child (Kind.levelDims_subset hd)

theorem Calls.of_same (hsame : (f == g) = true) (h : f.Calls p) : g.Calls p := by
  intro y hy
  obtain ⟨x, hx, hxy⟩ := exists_node_of_same (same_symm hsame) hy
  have hhead : y.kind.head = x.kind.head := view_eq_of_same Kind.head Kind.head_shape hxy
  exact hhead ▸ h x hx

theorem head_withChildren (f : Formula) (cs : List Formula) :
    (f.withChildren cs).kind.head = f.kind.head := by
  rw [← Kind.head_outline, outline_withChildren, Kind.head_outline]

/-- A node that calls nothing. -/
theorem calls_of_children (hp : Head.Mild p) (hk : r.kind.head = .other)
    (hcs : ∀ c ∈ r.children, c.Calls p) : r.Calls p :=
  all_iff.mpr ⟨hk ▸ hp.other, hcs⟩

theorem calls_of_isError (hp : Head.Mild p) (h : r.isError = true) : r.Calls p := by
  obtain ⟨message, code, hk⟩ := kind_of_isError h
  refine calls_of_children hp (by rw [hk]; rfl) fun c hc => ?_
  rw [children, hk] at hc
  exact absurd hc List.not_mem_nil

theorem calls_call (hp : Head.Mild p) {name : String} {args : List Formula}
    (hname : name ∈ ["dateadd", "day"]) (hargs : ∀ x ∈ args, x.Calls p) :
    (call name args).Calls p := by
  refine all_iff.mpr ⟨hp.shift name hname, fun x hx => hargs x ?_⟩
  simpa [call, callWith, of, children, kind, Kind.children, Lod.dims] using hx

theorem Calls.withChildren (hf : f.Calls p)
    (hcs : List.Forall₂ (fun c d => c.Calls p → d.Calls p) f.children cs) :
    (f.withChildren cs).Calls p :=
  All.withChildren hf (by rw [head_withChildren]; exact hf.head) hcs

/-- A rule that offers what is called already lets nothing else in. -/
theorem calls_transform {rule : Rule}
    (hrule : ∀ above g r, (∀ a ∈ above, a.Calls p) → g.Calls p → rule above g = some r →
      r.Calls p) (hf : f.Calls p) : (f.transform rule).Calls p := by
  refine transform_rel (Q := Calls p) (R := fun f g => f.Calls p → g.Calls p) ?_ ?_ ?_ ?_ hf hf
  · exact fun f hf c hc => hf.of_child hc
  · exact fun f _ hf => hf
  · exact fun f cs _ hcs hf => hf.withChildren hcs
  · exact fun above f g r habove hf hg hr _ => hrule above g r habove (hg hf) hr

theorem calls_contextDimensions (hdims : ∀ d ∈ dims, d.Calls p)
    (habove : ∀ a ∈ above, a.LevelsCall p) : ∀ d ∈ contextDimensions dims above, d.Calls p := by
  apply forall_contextDimensions hdims
  intro a ha lod hlod d hd
  refine habove a ha a (self_mem_nodes a) d ?_
  rw [lod?] at hlod
  split at hlod
  next q hk =>
    obtain rfl := Option.some.inj hlod
    rw [hk]
    exact hd
  next c hk =>
    split at hlod
    next =>
      obtain rfl := Option.some.inj hlod
      rw [hk]
      exact hd
    next => exact absurd hlod (by simp)
  next => exact absurd hlod (by simp)

/-! ## Rules that make forks and tags -/

theorem calls_forkAt (hp : Head.Mild p) {result : Formula} {shared own : List Formula}
    {filters : NameSet} (hresult : result.Calls p) (hshared : ∀ d ∈ shared, d.Calls p)
    (hown : ∀ d ∈ own, d.Calls p) :
    (of (.fork (Normalize.forkAt result shared own filters))).Calls p := by
  apply calls_of_children hp rfl
  intro c hc
  rw [of, children, kind, Normalize.children_forkAt, List.mem_cons, List.mem_append] at hc
  rcases hc with rfl | hc | hc
  · exact hresult
  · exact hshared c hc
  · exact hown c hc

theorem calls_levelOfDetail (hp : Head.Mild p) (hdims : ∀ d ∈ dims, d.Calls p) (hf : f.Calls p) :
    (f.transform (Normalize.levelOfDetail dims)).Calls p := by
  refine calls_transform (fun above g r habove hg hr => ?_) hf
  have hcontext := calls_contextDimensions hdims fun a ha => (habove a ha).levels
  obtain ⟨c, hk, -, herror | rfl⟩ := Normalize.levelOfDetail_cases hr
  · exact calls_of_isError hp herror
  · have hown : ∀ d ∈ c.lod.resolve (contextDimensions dims above), d.Calls p := by
      apply forall_resolve hcontext
      intro d hd
      apply hg.of_child
      rw [children, hk]
      simp [Kind.children, hd]
    refine calls_forkAt hp ?_ (fun d hd => hown d (List.mem_filter.mp hd).1) hown
    have hhead := hg.head
    rw [hk] at hhead
    exact all_iff.mpr ⟨hhead, fun x hx =>
      hg.of_child (Normalize.mem_children_of_inherited hk hx)⟩

theorem calls_windowForks (hp : Head.Mild p) (hdims : ∀ d ∈ dims, d.Calls p) (hf : f.Calls p) :
    (f.transform (Normalize.windowForks dims)).Calls p := by
  refine calls_transform (fun above g r _ hg hr => ?_) hf
  obtain ⟨w, -, rfl⟩ := Normalize.windowForks_cases hr
  exact calls_forkAt hp hg hdims hdims

theorem calls_laterFilters (available : NameSet) (hf : f.Calls p) :
    (f.transform (Normalize.laterFilters available)).Calls p := by
  refine calls_transform (fun above g r _ hg hr => ?_) hf
  have hhead := hg.head
  have hcs : ∀ c ∈ g.children, c.Calls p := fun c hc => hg.of_child hc
  rcases Normalize.laterFilters_cases hr with ⟨w, filters, hk, rfl⟩ | ⟨q, filters, hk, rfl⟩
  · rw [hk] at hhead
    rw [children, hk] at hcs
    exact all_iff.mpr ⟨hhead, hcs⟩
  · rw [hk] at hhead
    rw [children, hk] at hcs
    exact all_iff.mpr ⟨hhead, hcs⟩

theorem calls_levelTags (hp : Head.Mild p) (hf : f.Calls p) :
    (f.transform Normalize.levelTags).Calls p := by
  refine calls_transform (fun above g r _ hg hr => ?_) hf
  obtain ⟨w, notes, -, rfl⟩ := Normalize.levelTags_cases hr
  exact calls_of_children hp rfl fun c hc => List.mem_singleton.mp hc ▸ hg

/-- The fork in the place of a lookup calls what the lookup did, and what shifts its dimension. -/
theorem calls_of_lookups {allowEmpty : Bool} (hp : Head.Mild p)
    (hcontext : ∀ d ∈ contextDimensions dims above, d.Calls p)
    (hcs : ∀ c ∈ g.children, c.Calls p)
    (hr : Normalize.lookups dims allowEmpty above g = some r) : r.Calls p := by
  obtain ⟨c, kind, hlookup, herror | ⟨measure, dimension, rest, hargs, rfl⟩⟩ :=
    Normalize.lookups_cases hr
  · exact calls_of_isError hp herror
  · have hk := Normalize.lookup?_eq_some hlookup
    have hparts : ∀ x ∈ measure :: dimension :: rest, x.Calls p := by
      intro x hx
      apply hcs
      rw [children, hk]
      simp only [Kind.children, hargs, List.mem_append]
      exact Or.inl (Or.inl hx)
    rw [List.forall_mem_cons, List.forall_mem_cons] at hparts
    apply calls_of_children hp rfl
    intro x hx
    rcases List.mem_cons.mp hx with rfl | hx
    · exact hparts.1
    · have hmem : x ∈ (Normalize.lookupJoining (contextDimensions dims above) c.ignored dimension
            (Normalize.lookupConditions dimension rest kind)).flatMap JoinCondition.parts ++
          (Normalize.lookupShifts dimension rest kind).flatMap FilterShift.parts := by
        simpa [Lod.dims] using hx
      exact Normalize.forall_sides_lookupFork (P := Calls p)
        (fun _ hname _ => calls_call hp hname) hcontext hparts.2.1 hparts.2.2 x hmem

theorem calls_lookups_of_calls {allowEmpty : Bool} (hp : Head.Mild p)
    (hdims : ∀ d ∈ dims, d.Calls p) (hf : f.Calls p) :
    (f.transform (Normalize.lookups dims allowEmpty)).Calls p := by
  refine calls_transform (fun above g r habove hg hr => ?_) hf
  exact calls_of_lookups hp (calls_contextDimensions hdims fun a ha => (habove a ha).levels)
    (fun c hc => hg.of_child hc) hr

/-! ## Rules that leave nothing behind -/

/-- No lookup is left. -/
theorem calls_lookups {allowEmpty : Bool} (hdims : ∀ d ∈ dims, d.Calls Head.NoLookup)
    (hf : f.LevelsCall Head.NoLookup) :
    (f.transform (Normalize.lookups dims allowEmpty)).Calls Head.NoLookup := by
  refine transform_all (P := Calls Head.NoLookup) (fun _ _ hsame h => h.of_same hsame) ?_
  intro above x habove hx hcs
  rw [offered]
  cases hr : Normalize.lookups dims allowEmpty above
      (x.transformBelow (Normalize.lookups dims allowEmpty) above) with
  | some r =>
      refine calls_of_lookups Head.mild_noLookup ?_ hcs hr
      exact calls_contextDimensions hdims fun a ha => hf.of_node (habove a ha)
  | none =>
      refine all_iff.mpr ⟨?_, hcs⟩
      rw [Option.getD_none]
      cases hk : (x.transformBelow (Normalize.lookups dims allowEmpty) above).kind with
      | call c =>
          show Normalize.LookupKind.ofName? c.name = none
          cases hname : Normalize.LookupKind.ofName? c.name with
          | none => rfl
          | some kind =>
              rw [Normalize.lookups, lookup?_of_kind hk, hname, Option.map_some,
                Option.bind_eq_bind, Option.bind_some] at hr
              dsimp only at hr
              split at hr
              next => exact absurd hr (by simp)
              next => split at hr <;> exact absurd hr (by simp)
      | _ => exact trivial

/-- No AMONG is left. -/
theorem calls_amongToWithin (hdims : ∀ d ∈ dims, d.Calls Head.NoAmong) :
    (f.transform (Normalize.amongToWithin dims)).Calls Head.NoAmong := by
  refine transform_all (P := Calls Head.NoAmong) (fun _ _ hsame h => h.of_same hsame) ?_
  intro above x _ _ hcs
  rw [offered]
  cases hr : Normalize.amongToWithin dims above
      (x.transformBelow (Normalize.amongToWithin dims) above) with
  | some r =>
      obtain ⟨w, hw, h⟩ := Option.bind_eq_some_iff.mp hr
      split at h
      next ds hgrouping =>
        obtain rfl := Option.some.inj h
        refine all_iff.mpr ⟨rfl, fun c hc => ?_⟩
        obtain ⟨w', w'', hw', heq, -, hfrom⟩ := Normalize.amongToWithin_cases hr
        obtain rfl := Option.some.inj (hw.symm.trans hw')
        rw [Option.getD_some, heq] at hc
        rcases hfrom c hc with hc | hc
        · apply hcs c
          rw [children, kind_of_window? hw]
          exact hc
        · exact hdims c hc
      next => exact absurd h (by simp)
  | none =>
      refine all_iff.mpr ⟨?_, hcs⟩
      rw [Option.getD_none]
      cases hk : (x.transformBelow (Normalize.amongToWithin dims) above).kind with
      | window w =>
          rw [Normalize.amongToWithin, window?, hk, Option.bind_eq_bind, Option.bind_some] at hr
          show w.grouping.isAmong = false
          cases hgrouping : w.grouping with
          | among ds =>
              rw [hgrouping] at hr
              exact absurd hr (by simp)
          | _ => rfl
      | _ => exact trivial

theorem calls_dropExtraWithin (hwithin : p (.window false)) (hf : f.Calls p) :
    (f.transform (Normalize.dropExtraWithin dims)).Calls p := by
  refine calls_transform (fun above g r _ hg hr => ?_) hf
  obtain ⟨w, w', hw, heq, -, hfrom⟩ := Normalize.dropExtraWithin_cases hr
  obtain ⟨w₀, hw₀, h⟩ := Option.bind_eq_some_iff.mp hr
  split at h
  next ds hgrouping =>
    split at h
    next => exact absurd h (by simp)
    next =>
      refine all_iff.mpr ⟨?_, ?_⟩
      · rw [← Option.some.inj h]
        exact hwithin
      · intro c hc
        rw [heq] at hc
        rcases hfrom c hc with hc | hc
        · apply hg.of_child
          rw [children, kind_of_window? hw]
          exact hc
        · exact absurd hc List.not_mem_nil
  next => exact absurd h (by simp)

/-! ## Rules that simplify -/

theorem AsCalls.refl (p : Head → Prop) (f : Formula) : AsCalls p f f := ⟨id, id⟩

theorem AsCalls.trans {h : Formula} (hfg : AsCalls p f g) (hgh : AsCalls p g h) : AsCalls p f h :=
  ⟨hgh.calls ∘ hfg.calls, hgh.levels ∘ hfg.levels⟩

theorem asCalls_withChildren (f : Formula) (cs : List Formula)
    (h : List.Forall₂ (AsCalls p) f.children cs) : AsCalls p f (f.withChildren cs) where
  calls hf := hf.withChildren (h.imp fun _ _ hcd => hcd.calls)
  levels hf := by
    refine All.withChildren hf (fun d hd => ?_) (h.imp fun _ _ hcd => hcd.levels)
    obtain ⟨c, hc, hcd⟩ := forall₂_exists_left (Kind.forall₂_levelDims h) hd
    exact hcd.calls (hf f (self_mem_nodes f) c hc)

theorem asCalls_transform {rule : Rule}
    (hrule : ∀ above f r, rule above f = some r → AsCalls p f r) (f : Formula) :
    AsCalls p f (f.transform rule) :=
  transform_rel (Q := fun _ => True) (fun _ _ _ _ => trivial) (fun f _ => .refl p f)
    (fun f cs _ hcs => asCalls_withChildren f cs hcs)
    (fun above _ g r _ _ hfg hr => hfg.trans (hrule above g r hr)) trivial

theorem Reduced.asCalls (hp : Head.Mild p) (h : Reduced f r) : AsCalls p f r where
  calls hf := by
    refine h.all hf (fun _ _ => hp.other) (fun k _ hk => ?_) fun c args hk _ => ?_
    · cases k with
      | binary | unary | ifBlock | caseBlock => exact hp.other
      | _ => exact absurd hk (by simp [isOperation])
    · have hhead := hf.head
      rw [hk] at hhead
      exact hhead
  levels hf := by
    refine h.all hf (fun _ _ d hd => absurd hd List.not_mem_nil) (fun k _ hk d hd => ?_)
      fun c args hk _ d hd => hf f (self_mem_nodes f) d (by rw [hk]; exact hd)
    cases k with
    | binary | unary | ifBlock | caseBlock => exact absurd hd List.not_mem_nil
    | _ => exact absurd hk (by simp [isOperation])

/-- A window call with other parts, where it does not matter that it is one. -/
theorem asCalls_rewindowed (hwindow : ∀ among, p (.window among))
    (hgiven : ∀ x ∈ given, x.Calls p) (h : Normalize.Rewindowed given f r) : AsCalls p f r := by
  obtain ⟨w, w', hw, rfl, -, hcs⟩ := h
  have hk := kind_of_window? hw
  constructor
  · intro hf
    refine all_iff.mpr ⟨hwindow _, fun c hc => ?_⟩
    rcases hcs c hc with hc | hc
    · exact hf.of_node (mem_nodes_of_kind hk hc)
    · exact hgiven c hc
  · intro hf
    refine all_iff.mpr ⟨fun d hd => absurd hd List.not_mem_nil, fun c hc => ?_⟩
    rcases hcs c hc with hc | hc
    · exact hf.of_node (mem_nodes_of_kind hk hc)
    · exact (hgiven c hc).levels

theorem asCalls_lookupFilters (hp : Head.Mild p)
    (hr : Normalize.lookupFilters above f = some r) : AsCalls p f r := by
  obtain ⟨c, kind, hlookup, herror | ⟨filters, rfl⟩⟩ := Normalize.lookupFilters_cases hr
  · have hcalls := calls_of_isError hp herror
    exact ⟨fun _ => hcalls, fun _ => hcalls.levels⟩
  · have hk := Normalize.lookup?_eq_some hlookup
    constructor
    · intro hf
      have hhead := hf.head
      rw [hk] at hhead
      exact all_iff.mpr ⟨hhead, fun x hx => hf.of_node (mem_nodes_of_kind hk hx)⟩
    · intro hf
      have hown : ∀ d ∈ f.kind.levelDims, d.Calls p := hf f (self_mem_nodes f)
      rw [hk] at hown
      exact all_iff.mpr ⟨hown, fun x hx => hf.of_node (mem_nodes_of_kind hk hx)⟩

theorem asCalls_optimize (hp : Head.Mild p) (f : Formula) (dialect : Dialects) :
    AsCalls p f (f.optimize dialect) :=
  settle_rel (.refl p) (fun _ _ _ => .trans) (fun rule hrule g => asCalls_transform
    (fun above f r hr => (Simplify.rules_reduced rule hrule above f r hr).asCalls hp) g) _ f

theorem asCalls_optimizeFilter (hp : Head.Mild p) (f : Formula) (dialect : Dialects) :
    AsCalls p f (f.optimizeFilter dialect) :=
  settle_rel (.refl p) (fun _ _ _ => .trans) (fun rule hrule g => asCalls_transform
    (fun above f r hr => (Simplify.filterRules_reduced rule hrule above f r hr).asCalls hp) g) _ f

end Calls

end Formula

/-! ## Stages -/

/-- All that is called in the query has the property. -/
def Query.Calls (p : Head → Prop) (q : Query) : Prop :=
  ∀ part, ∀ e ∈ q.part part, e.formula.Calls p

/-- What is called in dimensions and in levels of detail has the property. -/
structure Query.LevelsCall (p : Head → Prop) (q : Query) : Prop where
  dimension : ∀ d ∈ q.dimensions, d.Calls p
  level : ∀ part ∈ Part.all, ∀ e ∈ q.part part, e.formula.LevelsCall p

instance {p : Head → Prop} [DecidablePred p] (q : Query) : Decidable (q.LevelsCall p) :=
  decidable_of_iff ((∀ d ∈ q.dimensions, d.Calls p) ∧
    ∀ part ∈ Part.all, ∀ e ∈ q.part part, e.formula.LevelsCall p)
    ⟨fun h => ⟨h.1, h.2⟩, fun h => ⟨h.1, h.2⟩⟩

section Stages

variable {p : Head → Prop} {q q' : Query} {s : Settings} {ordering : List Formula}

theorem Query.Calls.dimension (h : q.Calls p) : ∀ d ∈ q.dimensions, d.Calls p := by
  intro d hd
  obtain ⟨e, he, rfl⟩ := List.mem_map.mp hd
  exact h .groupBy e he

/-- Each formula of the second query calls what one in the same part of the first does. -/
def Query.AsCalls (p : Head → Prop) (q q' : Query) : Prop :=
  ∀ part, ∀ e' ∈ q'.part part, ∃ e ∈ q.part part, e.formula.AsCalls p e'.formula

theorem Query.AsCalls.calls (h : q.AsCalls p q') (hq : q.Calls p) : q'.Calls p := by
  intro part e' he'
  obtain ⟨e, he, hee'⟩ := h part e' he'
  exact hee'.calls (hq part e he)

theorem Query.AsCalls.levels (h : q.AsCalls p q') (hq : q.LevelsCall p) : q'.LevelsCall p where
  dimension := by
    intro d hd
    obtain ⟨e', he', rfl⟩ := List.mem_map.mp hd
    obtain ⟨e, he, hee'⟩ := h .groupBy e' he'
    exact hee'.calls (hq.dimension e.formula (List.mem_map_of_mem he))
  level part hpart e' he' := by
    obtain ⟨e, he, hee'⟩ := h part e' he'
    exact hee'.levels (hq.level part hpart e he)

theorem Query.AsCalls.trans {q'' : Query} (h : q.AsCalls p q') (h' : q'.AsCalls p q'') :
    q.AsCalls p q'' := by
  intro part e'' he''
  obtain ⟨e', he', h'⟩ := h' part e'' he''
  obtain ⟨e, he, h⟩ := h part e' he'
  exact ⟨e, he, h.trans h'⟩

theorem Query.asCalls_mapFormulas {F : Part → Formula → Formula}
    (hF : ∀ part f, Formula.AsCalls p f (F part f)) : q.AsCalls p (q.mapFormulas F) := by
  intro part e' he'
  rw [Query.part_mapFormulas] at he'
  obtain ⟨e, he, rfl⟩ := List.mem_map.mp he'
  refine ⟨e, he, ?_⟩
  rcases (mapEntry_formula (F part) e).2 with heq | heq
  · exact heq ▸ hF part e.formula
  · exact heq ▸ .refl p _

theorem Query.asCalls_of_subset (hsub : ∀ part, q'.part part ⊆ q.part part) : q.AsCalls p q' :=
  fun part e he => ⟨e, hsub part he, .refl p _⟩

/-- The stages that simplify after the first one. -/
theorem Query.asCalls_simplified (hp : Head.Mild p) (h : q.simplified s ordering = .ok q') :
    ∃ q₁, Pipeline.prepare ordering q = .ok q₁ ∧ q₁.AsCalls p q' := by
  rw [Query.simplified, Pipeline.simplifying, List.foldlM_cons] at h
  obtain ⟨q₁, hq₁, h⟩ := bind_eq_ok.mp h
  refine ⟨q₁, hq₁, ?_⟩
  refine foldlM_invariant (I := fun _ x => q₁.AsCalls p x) ?_ [] ?_ h
  · intro _ stage hstage x x' hx hstep
    refine hx.trans ?_
    simp only [List.mem_cons, List.not_mem_nil, or_false] at hstage
    rcases hstage with rfl | rfl | rfl | rfl
    · unfold Pipeline.optimize at hstep
      split at hstep
      · exact Except.ok.inj hstep ▸ asCalls_of_subset fun _ => List.Subset.refl _
      · obtain rfl := Except.ok.inj hstep
        apply asCalls_mapFormulas
        intro part f
        split
        · exact Formula.asCalls_optimizeFilter hp f _
        · exact Formula.asCalls_optimize hp f _
    · unfold Pipeline.dropConstantGroups at hstep
      split at hstep
      · obtain rfl := Except.ok.inj hstep
        apply asCalls_of_subset
        intro part
        cases part with
        | groupBy => exact List.filter_subset_self _
        | _ => exact List.Subset.refl _
      · exact Except.ok.inj hstep ▸ asCalls_of_subset fun _ => List.Subset.refl _
    · obtain rfl := Except.ok.inj hstep
      apply asCalls_of_subset
      intro part
      cases part with
      | filters => exact List.filter_subset_self _
      | _ => exact List.Subset.refl _
    · unfold Pipeline.nullifyTotals at hstep
      split at hstep
      · obtain rfl := Except.ok.inj hstep
        apply asCalls_mapFormulas
        intro part f
        split
        · exact (Formula.Reduced.literal .null f.notes).asCalls hp
        · exact .refl p f
      · exact Except.ok.inj hstep ▸ asCalls_of_subset fun _ => List.Subset.refl _
  · exact asCalls_of_subset fun _ => List.Subset.refl _

end Stages

end FormulaSql
