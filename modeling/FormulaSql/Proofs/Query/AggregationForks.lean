import FormulaSql.Proofs.Query.Contexts
import FormulaSql.Proofs.Query.LevelForks

/-!
# The shape of forked aggregations

The rule for levels of detail looks at a node whose children are done, but at the nodes above it as
they were. So the dimensions of a fork are found among nodes that may have become forks since. They
are still right: a fork states the dimensions that its aggregation had, and an aggregation that has
stayed takes over those around it.

* `Formula.transform_levelOfDetail` says what a formula without forks looks like afterwards
-/

namespace FormulaSql

/-- The dimensions that a call names, and all of a fork but its result. -/
def Kind.named {α : Type} : Kind α → List α
  | .call c => c.lod.dims ++ c.ignored
  | .fork q => (fork q).children.tail
  | _ => []

namespace Formula

/-- There is no aggregation in the formula. -/
def Unaggregated : Formula → Prop := All fun g => g.isAggregateCall = false

/-- Dimensions that are named have no aggregation in them. -/
def PlainLevels : Formula → Prop := All fun g => ∀ d ∈ g.kind.named, d.Unaggregated

instance (f : Formula) : Decidable f.Unaggregated :=
  inferInstanceAs (Decidable (∀ g ∈ f.nodes, g.isAggregateCall = false))

instance (f : Formula) : Decidable f.PlainLevels :=
  inferInstanceAs (Decidable (∀ g ∈ f.nodes, ∀ d ∈ g.kind.named, d.Unaggregated))

/-- No formula equals a later one. -/
def Distinct (fs : List Formula) : Prop := fs.Pairwise fun f g => (f == g) = false

instance (fs : List Formula) : Decidable (Distinct fs) :=
  inferInstanceAs (Decidable (fs.Pairwise fun f g => (f == g) = false))

/-! ## Dimensions without repetitions -/

section Distinct

variable {fs ds outer : List Formula}

theorem contains_eq_true {f : Formula} :
    fs.contains f = true ↔ ∃ g ∈ fs, (f == g) = true := by
  rw [List.contains_iff_exists_mem_beq]

theorem distinct_concat {f : Formula} (h : Distinct fs) (hf : fs.contains f = false) :
    Distinct (fs ++ [f]) := by
  refine List.pairwise_append.mpr ⟨h, List.pairwise_singleton _ _, ?_⟩
  intro g hg x hx
  obtain rfl := List.mem_singleton.mp hx
  rw [← Bool.not_eq_true]
  intro hsame
  have hmem : fs.contains x = true := contains_eq_true.mpr ⟨g, hg, BEq.symm hsame⟩
  exact absurd (hf.symm.trans hmem) (by simp)

theorem distinct_foldl_pushUnique (h : Distinct fs) : Distinct (ds.foldl pushUnique fs) := by
  induction ds generalizing fs with
  | nil => exact h
  | cons d ds ih =>
      apply ih
      rw [pushUnique]
      split
      next => exact h
      next hnot => exact distinct_concat h (Bool.not_eq_true _ ▸ hnot)

/-- Formulas that are distinct are collected as they are. -/
theorem foldl_pushUnique_eq (h : Distinct (fs ++ ds)) : ds.foldl pushUnique fs = fs ++ ds := by
  induction ds generalizing fs with
  | nil => exact (List.append_nil fs).symm
  | cons d ds ih =>
      have hnew : fs.contains d = false := by
        rw [← Bool.not_eq_true]
        intro hmem
        obtain ⟨g, hg, hsame⟩ := contains_eq_true.mp hmem
        have hne := (List.pairwise_append.mp h).2.2 g hg d List.mem_cons_self
        exact absurd ((BEq.comm (a := g)).trans hsame) (by simp [hne])
      rw [List.foldl_cons, pushUnique, hnew, if_neg Bool.false_ne_true]
      have hrec : Distinct (fs ++ [d] ++ ds) := List.append_cons fs d ds ▸ h
      rw [ih hrec, ← List.append_cons]

theorem resolve_fixed_eq (outer : List Formula) (h : Distinct ds) :
    (Lod.fixed ds).resolve outer = ds := by
  have hnil : Distinct ([] ++ ds) := h
  exact foldl_pushUnique_eq hnil

theorem distinct_resolve {l : Lod Formula} (h : Distinct outer) : Distinct (l.resolve outer) := by
  cases l with
  | inherited | defaultAggregation => exact h
  | fixed ds => exact distinct_foldl_pushUnique List.Pairwise.nil
  | including ds => exact distinct_foldl_pushUnique h
  | excluding ds => exact h.sublist List.filter_sublist

end Distinct

end Formula

namespace Normalize

/-! ## What the rule does at a node -/

section Rule

variable {dims above : List Formula} {f r : Formula} {c : Call Formula}

/-- An aggregation is passed over as the result of a fork or where no fork is needed. -/
theorem levelOfDetail_eq_none (h : levelOfDetail dims above f = none) (hk : f.kind = .call c)
    (haggregate : Function.isAggregate c.name = true) :
    isForkResult above f = true ∨ needsFork above c = false := by
  unfold levelOfDetail at h
  rw [hk] at h
  dsimp only at h
  rw [Formula.isAggregateCall_of_kind hk, haggregate] at h
  split at h
  next => split at h <;> exact absurd h (by simp)
  next hnot =>
    simp only [Bool.true_and, Bool.and_eq_true, Bool.not_eq_true', not_and,
      Bool.not_eq_true] at hnot
    cases hresult : isForkResult above f with
    | true => exact Or.inl rfl
    | false => exact Or.inr (hnot hresult)

theorem levelOfDetail_none_of_isForkResult (h : isForkResult above f = true) :
    levelOfDetail dims above f = none := by
  unfold levelOfDetail
  split
  next => simp [h]
  next => rfl

theorem levelOfDetail_none_of_needsFork (hk : f.kind = .call c) (h : needsFork above c = false) :
    levelOfDetail dims above f = none := by
  unfold levelOfDetail
  rw [hk]
  simp [h]

theorem levelOfDetail_none_of_not_aggregate (h : f.isAggregateCall = false) :
    levelOfDetail dims above f = none := by
  unfold levelOfDetail
  split
  next => simp [h]
  next => rfl

/-- What has become a fork has dimensions that go together with those around it. -/
theorem allIn_of_levelOfDetail (h : levelOfDetail dims above f = some r) (hk : f.kind = .call c)
    (herror : r.isError = false) :
    allIn (c.lod.resolve (Formula.contextDimensions dims above))
        (Formula.contextDimensions dims above) = true ∨
      allIn (Formula.contextDimensions dims above)
        (c.lod.resolve (Formula.contextDimensions dims above)) = true := by
  unfold levelOfDetail at h
  rw [hk] at h
  dsimp only at h
  split at h
  next =>
    split at h
    next =>
      obtain rfl := Option.some.inj h
      exact absurd herror (by simp [Formula.error, Formula.of, Formula.isError, Formula.kind])
    next hcompatible =>
      rw [Bool.and_eq_true, Bool.not_eq_true', Bool.not_eq_true', not_and_or,
        Bool.not_eq_false, Bool.not_eq_false] at hcompatible
      exact hcompatible.symm
  next => exact absurd h (by simp)

theorem alters_levelOfDetail (dims : List Formula) : Rule.Alters (levelOfDetail dims) := by
  apply Rule.alters_of_outline
  intro above g r hr
  obtain ⟨c, hk, -, herror | rfl⟩ := levelOfDetail_cases hr
  · obtain ⟨message, code, hr⟩ := Formula.kind_of_isError herror
    rw [hk, hr]
    exact ⟨by simp, by simp [Kind.outline, Kind.map]⟩
  · rw [hk]
    exact ⟨by simp [Formula.of, Formula.kind],
      by simp [Formula.of, Formula.kind, Kind.outline, Kind.map]⟩

/-! An aggregation further up, and forks between. -/

theorem insideAggregation_concat (above : List Formula) (f : Formula) :
    insideAggregation (above ++ [f]) =
      (!f.isFork && (f.isAggregateCall || insideAggregation above)) := by
  rw [insideAggregation, insideAggregation, List.reverse_append, List.reverse_singleton,
    List.singleton_append, List.takeWhile_cons]
  cases hfork : f.isFork with
  | true => rfl
  | false => simp

theorem needsFork_of_insideAggregation {above' : List Formula}
    (h : insideAggregation above' = true → insideAggregation above = true)
    (hneeds : needsFork above c = false) : needsFork above' c = false := by
  rw [needsFork] at hneeds ⊢
  simp only [Bool.or_eq_false_iff] at hneeds ⊢
  refine ⟨⟨hneeds.1.1, ?_⟩, hneeds.2⟩
  rw [← Bool.not_eq_true]
  intro hinside
  exact absurd (h hinside) (by simp [hneeds.1.2])

theorem not_insideAggregation_of_needsFork (h : needsFork above c = false) :
    insideAggregation above = false := by
  rw [needsFork] at h
  simp only [Bool.or_eq_false_iff] at h
  exact h.1.2

end Rule

end Normalize

namespace Formula

/-! ## What is rebuilt -/

section Rebuilt

variable {dims above : List Formula} {f g : Formula} {c : Call Formula}

theorem rests_of_unaggregated (dims above : List Formula) (h : f.Unaggregated) :
    f.Rests (Normalize.levelOfDetail dims) above := by
  intro p g hg
  exact Normalize.levelOfDetail_none_of_not_aggregate (h g (mem_nodes_of_at? hg))

theorem isAggregateCall_eq_of_outline (h : f.kind.outline = g.kind.outline) :
    f.isAggregateCall = g.isAggregateCall := by
  refine eq_of_outline isAggregateCall (fun x => ?_) h
  rw [isAggregateCall, isAggregateCall, call?, call?]
  cases x.kind <;> rfl

/-- A call is rebuilt with the level of detail that it had. -/
theorem exists_call_rebuilt (hf : ∀ d ∈ f.kind.named, d.Unaggregated) (hk : f.kind = .call c) :
    ∃ c', (f.rebuilt (Normalize.levelOfDetail dims) above).kind = .call c' ∧
      c'.name = c.name ∧ c'.lod = c.lod := by
  obtain ⟨c', hk', hname, hlod, -, hdims⟩ := exists_call_withChildren
    (forall₂_children_rebuilt (Normalize.levelOfDetail dims) above f) hk
  refine ⟨c', hk', hname, Kind.eq_of_dims hlod (eq_of_forall₂_offered hdims ?_)⟩
  intro d hd
  apply rests_of_unaggregated
  apply hf d
  rw [hk]
  exact List.mem_append_left _ hd

theorem exists_call_of_rebuilt (hf : ∀ d ∈ f.kind.named, d.Unaggregated)
    (hk : (f.rebuilt (Normalize.levelOfDetail dims) above).kind = .call c) :
    ∃ c₀, f.kind = .call c₀ ∧ c.name = c₀.name ∧ c.lod = c₀.lod := by
  have houtline := outline_rebuilt (Normalize.levelOfDetail dims) above f
  cases hk₀ : f.kind with
  | call c₀ =>
      obtain ⟨c', hk', hname, hlod⟩ := exists_call_rebuilt hf hk₀
      obtain rfl := Kind.call.inj (hk.symm.trans hk')
      exact ⟨c₀, rfl, hname, hlod⟩
  | _ => exact absurd houtline (by simp [hk, hk₀, Kind.outline, Kind.map])

theorem lod?_rebuilt (hfork : f.isFork = false) (hf : ∀ d ∈ f.kind.named, d.Unaggregated) :
    (f.rebuilt (Normalize.levelOfDetail dims) above).lod? = f.lod? := by
  have houtline := outline_rebuilt (Normalize.levelOfDetail dims) above f
  cases hk : f.kind with
  | call c =>
      obtain ⟨c', hk', hname, hlod⟩ := exists_call_rebuilt hf hk
      rw [lod?_of_call hk', lod?_of_call hk, hname, hlod]
  | fork q =>
      rw [isFork, fork?, hk] at hfork
      exact absurd hfork (by simp)
  | _ =>
      rw [hk] at houtline
      rw [lod?, lod?, hk]
      cases hk' : (f.rebuilt (Normalize.levelOfDetail dims) above).kind <;>
        simp [hk', Kind.outline, Kind.map] at houtline ⊢

/-- Dimensions without aggregations stay so further down. -/
theorem forall_contextDimensions_concat {P : Formula → Prop}
    (h : ∀ d ∈ contextDimensions dims above, P d)
    (hf : ∀ l, f.lod? = some l → ∀ d ∈ l.dims, P d) :
    ∀ d ∈ contextDimensions dims (above ++ [f]), P d := by
  rw [contextDimensions_append]
  refine forall_contextDimensions h fun a ha l hl => hf l ?_
  rwa [List.mem_singleton.mp ha] at hl

theorem mem_named_of_lod? {l : Lod Formula} {d : Formula} (hl : f.lod? = some l)
    (hd : d ∈ l.dims) : d ∈ f.kind.named := by
  rw [lod?] at hl
  split at hl
  next q hk =>
    obtain rfl := Option.some.inj hl
    rw [hk]
    simp [Kind.named, Kind.children, hd]
  next c hk =>
    split at hl
    next =>
      obtain rfl := Option.some.inj hl
      rw [hk]
      exact List.mem_append_left _ hd
    next => exact absurd hl (by simp)
  next => exact absurd hl (by simp)

theorem mem_children_of_named {d : Formula} (h : d ∈ f.kind.named) : d ∈ f.children := by
  rw [children]
  cases hk : f.kind with
  | call c =>
      rw [hk] at h
      rw [Kind.children, List.append_assoc]
      exact List.mem_append_right _ h
  | fork q =>
      rw [hk] at h
      exact List.mem_of_mem_tail h
  | _ =>
      rw [hk] at h
      exact absurd h List.not_mem_nil

end Rebuilt

/-! ## Aggregations in aggregations -/

/-- The node is the result of the fork above it. -/
def ResultOf (above : List Formula) (f : Formula) : Prop :=
  ∃ a q, above.getLast? = some a ∧ a.kind = .fork q ∧ q.result = f

/-- An aggregation has no other one above it, forks apart, and it is the result of a fork if it
needs one. -/
def Apart (above : List Formula) (f : Formula) : Prop :=
  ∀ c, f.kind = .call c → Function.isAggregate c.name = true →
    Normalize.insideAggregation above = false ∧
      (ResultOf above f ∨ Normalize.needsFork above c = false)

/-- Only dimensions without aggregations are named, and of a fork only the result has one. -/
def PlainlyNamed (above : List Formula) (f : Formula) : Prop :=
  (∀ d ∈ f.kind.named, d.Unaggregated) ∧
    ∀ a q, above.getLast? = some a → a.kind = .fork q → q.result = f ∨ f.Unaggregated

/-- How the nodes that were above a node go together with those that are above it now. -/
structure Beneath (dims above above' : List Formula) : Prop where
  plain : ∀ d ∈ contextDimensions dims above, d.Unaggregated
  inside : Normalize.insideAggregation above' = true → Normalize.insideAggregation above = true
  result : ∀ a q, above.getLast? = some a → a.kind = .fork q → ∃ a' q', above'.getLast? = some a' ∧
    a'.kind = .fork q' ∧ q'.result = q.result.offered (Normalize.levelOfDetail dims) above

section Apart

variable {dims above above' : List Formula} {f g r : Formula} {c : Call Formula}

theorem exists_call_of_isAggregateCall (h : f.isAggregateCall = true) :
    ∃ c, f.kind = .call c ∧ Function.isAggregate c.name = true := by
  rw [isAggregateCall] at h
  split at h
  next c hc => exact ⟨c, kind_of_call? hc, h⟩
  next => exact absurd h (by simp)

theorem apart_of_unaggregated (h : f.Unaggregated) : f.Throughout Apart above := by
  intro p g hg c hk haggregate
  have hnot : g.isAggregateCall = false := h g (mem_nodes_of_at? hg)
  rw [isAggregateCall_of_kind hk, haggregate] at hnot
  exact absurd hnot (by simp)

theorem throughout_of_isError {P : List Formula → Formula → Prop} (h : f.isError = true)
    (hroot : P above f) : f.Throughout P above := by
  obtain ⟨message, code, hk⟩ := kind_of_isError h
  refine throughout_iff.mpr ⟨hroot, fun d hd => ?_⟩
  rw [children, hk] at hd
  exact absurd hd List.not_mem_nil

theorem insideAggregation_of_getLast? {a : Formula} (h : above.getLast? = some a)
    (ha : a.isFork = true) : Normalize.insideAggregation above = false := by
  obtain ⟨init, rfl⟩ := List.getLast?_eq_some_iff.mp h
  rw [Normalize.insideAggregation_concat, ha]
  rfl

/-- What the rule has passed over as the result of a fork is that of the fork there is now. -/
theorem Beneath.resultOf (h : Beneath dims above above') (hf : PlainlyNamed above f)
    (hnone : Normalize.levelOfDetail dims above
      (f.rebuilt (Normalize.levelOfDetail dims) above) = none)
    (haggregate : f.isAggregateCall = true)
    (hresult : Normalize.isForkResult above
      (f.rebuilt (Normalize.levelOfDetail dims) above) = true) :
    Normalize.insideAggregation above' = false ∧
      ResultOf above' (f.rebuilt (Normalize.levelOfDetail dims) above) := by
  obtain ⟨a, q, ha, hq, hsame⟩ := isForkResult_iff.mp hresult
  have hk := kind_of_fork? hq
  obtain ⟨a', q', ha', hk', hoffered⟩ := h.result a q ha hk
  have hself : q.result = f := by
    refine (hf.2 a q ha hk).resolve_right fun hplain => ?_
    exact absurd (hplain f (self_mem_nodes f)) (by simp [haggregate])
  have hoff : f.offered (Normalize.levelOfDetail dims) above =
      f.rebuilt (Normalize.levelOfDetail dims) above := by
    rw [offered_eq (Normalize.alters_levelOfDetail dims).renews, hnone]
    rfl
  refine ⟨insideAggregation_of_getLast? ha' (by rw [isFork, fork?, hk']; rfl),
    a', q', ha', hk', ?_⟩
  rw [hoffered, hself, hoff]

theorem Beneath.stay (h : Beneath dims above above') (hf : PlainlyNamed above f)
    (hnone : Normalize.levelOfDetail dims above
      (f.rebuilt (Normalize.levelOfDetail dims) above) = none) :
    Apart above' (f.rebuilt (Normalize.levelOfDetail dims) above) ∧
      Beneath dims (above ++ [f]) (above' ++ [f.rebuilt (Normalize.levelOfDetail dims) above]) := by
  have houtline := outline_rebuilt (Normalize.levelOfDetail dims) above f
  have hagg := isAggregateCall_eq_of_outline houtline
  constructor
  · intro c hk haggregate
    have hf' : f.isAggregateCall = true :=
      hagg.symm.trans ((isAggregateCall_of_kind hk).trans haggregate)
    rcases Normalize.levelOfDetail_eq_none hnone hk haggregate with hresult | hneeds
    · obtain ⟨hinside, hresult⟩ := h.resultOf hf hnone hf' hresult
      exact ⟨hinside, Or.inl hresult⟩
    · have hnot := Normalize.needsFork_of_insideAggregation h.inside hneeds
      exact ⟨Normalize.not_insideAggregation_of_needsFork hnot, Or.inr hnot⟩
  · constructor
    · exact forall_contextDimensions_concat h.plain fun l hl d hd =>
        hf.1 d (mem_named_of_lod? hl hd)
    · rw [Normalize.insideAggregation_concat, Normalize.insideAggregation_concat, hagg,
        isFork_eq_of_outline houtline]
      simp only [Bool.and_eq_true, Bool.or_eq_true]
      exact And.imp_right (Or.imp_right h.inside)
    · intro a q ha hk
      obtain rfl : f = a := by simpa using ha
      obtain ⟨q', hk', -, hresult, -⟩ := exists_fork_withChildren
        (forall₂_children_rebuilt (Normalize.levelOfDetail dims) above f) hk
      exact ⟨_, q', List.getLast?_concat, hk', hresult⟩

theorem Beneath.take (h : Beneath dims above above') (hf : PlainlyNamed above f)
    (hr : Normalize.levelOfDetail dims above
      (f.rebuilt (Normalize.levelOfDetail dims) above) = some r)
    (hchildren : ∀ d ∈ (f.rebuilt (Normalize.levelOfDetail dims) above).children,
      ∀ below, Beneath dims (above ++ [f]) below → d.Throughout Apart below) :
    r.Throughout Apart above' := by
  obtain ⟨c, hk, haggregate, herror | rfl⟩ := Normalize.levelOfDetail_cases hr
  · refine throughout_of_isError herror ?_
    intro c hc
    obtain ⟨message, code, hk⟩ := kind_of_isError herror
    exact absurd (hk.symm.trans hc) (by simp)
  obtain ⟨c₀, hk₀, hname, hlod⟩ := exists_call_of_rebuilt hf.1 hk
  have hplain := forall_contextDimensions_concat h.plain fun l hl d hd =>
    hf.1 d (mem_named_of_lod? hl hd)
  have hown : ∀ d ∈ c.lod.resolve (contextDimensions dims above), d.Unaggregated := by
    rw [contextDimensions_append] at hplain
    simp only [contextDimensions, List.foldl_cons, List.foldl_nil] at hplain
    rw [lod?_of_call hk₀, ← hname, haggregate] at hplain
    rw [hlod]
    exact hplain
  refine throughout_iff.mpr ⟨fun c' hc' => absurd hc' (by simp [of, kind]), fun d hd => ?_⟩
  rw [of, children, kind, Normalize.children_forkAt, List.mem_cons, List.mem_append] at hd
  rcases hd with rfl | hd | hd
  · refine throughout_iff.mpr ⟨fun c' hc' _ => ?_, fun d hd => ?_⟩
    · rw [Normalize.insideAggregation_concat]
      exact ⟨rfl, Or.inl ⟨_, _, List.getLast?_concat, rfl, rfl⟩⟩
    · refine hchildren d (Normalize.mem_children_of_inherited hk hd) _ ⟨hplain, fun _ => ?_, ?_⟩
      · rw [Normalize.insideAggregation_concat, isAggregateCall_of_kind hk₀, ← hname, haggregate,
          isFork, fork?, hk₀]
        rfl
      · intro a q ha hq
        obtain rfl : f = a := by simpa using ha
        exact absurd (hk₀.symm.trans hq) (by simp)
  · exact apart_of_unaggregated (hown d (List.mem_filter.mp hd).1)
  · exact apart_of_unaggregated (hown d hd)

/-- Aggregations are taken apart, and those that need a fork get one. -/
theorem throughout_apart (hdims : ∀ d ∈ dims, d.Unaggregated)
    (hf : f.Throughout PlainlyNamed []) :
    (f.transform (Normalize.levelOfDetail dims)).Throughout Apart [] := by
  rw [transform_eq_offered (Normalize.alters_levelOfDetail dims).renews]
  refine throughout_offered (I := Beneath dims) (Normalize.alters_levelOfDetail dims).renews
    ?_ ?_ hf ?_
  · exact fun above above' g h hg hnone => h.stay hg.root hnone
  · exact fun above above' g r h hg hr hchildren => h.take hg.root hr hchildren
  · exact ⟨hdims, id, fun a q ha => absurd ha (by simp)⟩

/-- Where all aggregations are apart, the rule has nothing left to do. -/
theorem Apart.rests (h : Apart above f) : Normalize.levelOfDetail dims above f = none := by
  cases haggregate : f.isAggregateCall with
  | false => exact Normalize.levelOfDetail_none_of_not_aggregate haggregate
  | true =>
      obtain ⟨c, hk, haggregate⟩ := exists_call_of_isAggregateCall haggregate
      rcases (h c hk haggregate).2 with ⟨a, q, ha, hq, hresult⟩ | hneeds
      · apply Normalize.levelOfDetail_none_of_isForkResult
        exact isForkResult_iff.mpr ⟨a, q, ha, by rw [fork?, hq], hresult ▸ BEq.rfl⟩
      · exact Normalize.levelOfDetail_none_of_needsFork hk hneeds

end Apart

/-! ## The dimensions of forks -/

/-- The fork computes an aggregation, and the dimensions around it are `outer`. It has dimensions of
its own that contain those around it or are among them, and it is joined on what both have. -/
structure IsLevelFork (outer : List Formula) (q : Fork Formula) : Prop where
  result : ∃ c, q.result.kind = .call c ∧ Function.isAggregate c.name = true ∧
    c.lod = .inherited ∧ c.beforeFilterBy = q.beforeFilterBy
  level : ∃ own, q.lod = .fixed own ∧
    (Normalize.allIn own outer = true ∨ Normalize.allIn outer own = true) ∧
    q.joining = (own.filter outer.contains).map .same

/-- A fork goes together with the dimensions around it, and only its result has an aggregation. -/
def LevelForked (dims above : List Formula) (f : Formula) : Prop :=
  ∀ q, f.kind = .fork q →
    IsLevelFork (contextDimensions dims above) q ∧ ∀ d ∈ f.children.tail, d.Unaggregated

/-- The nodes that were above a node and those that are above it now make for the same
dimensions. -/
structure Follows (dims above above' : List Formula) : Prop where
  context : contextDimensions dims above' = contextDimensions dims above
  distinct : Distinct (contextDimensions dims above)
  plain : ∀ d ∈ contextDimensions dims above, d.Unaggregated ∧ d.Forkless

section LevelForked

variable {dims above above' : List Formula} {f g r : Formula} {c : Call Formula}

theorem levelForked_of_forkless (h : f.Forkless) : f.Throughout (LevelForked dims) above := by
  intro p g hg q hk
  have hfork := h.fork?_eq_none (mem_nodes_of_at? hg)
  rw [fork?, hk] at hfork
  exact absurd hfork (by simp)

theorem plain_dims (hf : f.Forkless) (hlevels : ∀ d ∈ f.kind.named, d.Unaggregated)
    {l : Lod Formula} (hl : f.lod? = some l) : ∀ d ∈ l.dims, d.Unaggregated ∧ d.Forkless := by
  intro d hd
  have hmem := mem_named_of_lod? hl hd
  exact ⟨hlevels d hmem, hf.of_child (mem_children_of_named hmem)⟩

theorem distinct_contextDimensions_concat (h : Distinct (contextDimensions dims above)) :
    Distinct (contextDimensions dims (above ++ [f])) := by
  rw [contextDimensions_append]
  simp only [contextDimensions, List.foldl_cons, List.foldl_nil] at h ⊢
  cases f.lod? with
  | none => exact h
  | some l => exact distinct_resolve h

/-- Below a node that has stayed, the dimensions follow from the same level of detail. -/
theorem Follows.rebuilt (h : Follows dims above above') (hf : f.Forkless)
    (hlevels : ∀ d ∈ f.kind.named, d.Unaggregated) :
    Follows dims (above ++ [f])
      (above' ++ [f.rebuilt (Normalize.levelOfDetail dims) above]) where
  context := by
    rw [contextDimensions_append, contextDimensions_append, h.context]
    simp only [contextDimensions, List.foldl_cons, List.foldl_nil,
      lod?_rebuilt hf.not_isFork hlevels]
  distinct := distinct_contextDimensions_concat h.distinct
  plain := forall_contextDimensions_concat h.plain fun _ hl => plain_dims hf hlevels hl

/-- A fork states the dimensions that the aggregation in its place had. -/
theorem Follows.fork {q : Fork Formula} {c' : Call Formula} (h : Follows dims above above')
    (hf : f.Forkless) (hlevels : ∀ d ∈ f.kind.named, d.Unaggregated)
    (hq : q.lod = .fixed (contextDimensions dims (above ++ [f])))
    (hresult : q.result.kind = .call c') (hlod : c'.lod = .inherited) :
    Follows dims (above ++ [f]) (above' ++ [.of (.fork q)] ++ [q.result]) where
  context := by
    have hinherited (outer : List Formula) : contextDimensions outer [q.result] = outer := by
      simp only [contextDimensions, List.foldl_cons, List.foldl_nil]
      rw [lod?_of_call hresult, hlod]
      split <;> rfl
    rw [contextDimensions_append, hinherited, contextDimensions_append]
    simp only [contextDimensions, List.foldl_cons, List.foldl_nil]
    rw [lod?_of_fork rfl, hq]
    exact resolve_fixed_eq (contextDimensions dims above')
      (distinct_contextDimensions_concat h.distinct)
  distinct := distinct_contextDimensions_concat h.distinct
  plain := forall_contextDimensions_concat h.plain fun _ hl => plain_dims hf hlevels hl

theorem Follows.take (h : Follows dims above above') (hf : f.Forkless)
    (hlevels : ∀ d ∈ f.kind.named, d.Unaggregated)
    (hr : Normalize.levelOfDetail dims above
      (f.rebuilt (Normalize.levelOfDetail dims) above) = some r)
    (hchildren : ∀ d ∈ (f.rebuilt (Normalize.levelOfDetail dims) above).children,
      ∀ below, Follows dims (above ++ [f]) below → d.Throughout (LevelForked dims) below) :
    r.Throughout (LevelForked dims) above' := by
  obtain ⟨c, hk, haggregate, herror | hfork⟩ := Normalize.levelOfDetail_cases hr
  · exact levelForked_of_forkless (forkless_of_isError herror)
  obtain ⟨c₀, hk₀, hname, hlod⟩ := exists_call_of_rebuilt hlevels hk
  have hcompatible := Normalize.allIn_of_levelOfDetail hr hk (by rw [hfork]; rfl)
  have hown : c.lod.resolve (contextDimensions dims above) =
      contextDimensions dims (above ++ [f]) := by
    rw [contextDimensions_append]
    simp only [contextDimensions, List.foldl_cons, List.foldl_nil]
    rw [lod?_of_call hk₀, ← hname, haggregate, hlod]
    rfl
  rw [hown] at hcompatible hfork
  have hplain : ∀ d ∈ contextDimensions dims (above ++ [f]), d.Unaggregated ∧ d.Forkless :=
    forall_contextDimensions_concat h.plain fun _ hl => plain_dims hf hlevels hl
  obtain ⟨q, rfl, hlevel, hresult, hjoining, hfilters⟩ : ∃ q, r = .of (.fork q) ∧
      q.lod = .fixed (contextDimensions dims (above ++ [f])) ∧
      q.result.kind = .call { c with lod := .inherited } ∧
      q.joining = ((contextDimensions dims (above ++ [f])).filter
        (contextDimensions dims above).contains).map .same ∧
      q.beforeFilterBy = c.beforeFilterBy := ⟨_, hfork, rfl, rfl, rfl, rfl⟩
  have htail : ∀ d ∈ (Formula.of (.fork q)).children.tail, d.Unaggregated ∧ d.Forkless := by
    intro d hd
    rw [hfork, of, children, kind, Normalize.children_forkAt, List.tail_cons,
      List.mem_append] at hd
    exact hplain d (hd.elim (fun hd => (List.mem_filter.mp hd).1) id)
  refine throughout_iff.mpr ⟨?_, fun d hd => ?_⟩
  · intro q' hq'
    obtain rfl : q = q' := Kind.fork.inj hq'
    refine ⟨⟨⟨_, hresult, haggregate, rfl, hfilters.symm⟩, _, hlevel, ?_, ?_⟩, fun d hd => ?_⟩
    · rw [h.context]
      exact hcompatible
    · rw [h.context]
      exact hjoining
    · exact (htail d hd).1
  · rcases List.mem_cons.mp hd with rfl | hd
    · refine throughout_iff.mpr ⟨fun q' hq' => absurd (hresult.symm.trans hq') (by simp), ?_⟩
      intro d hd
      rw [children, hresult] at hd
      exact hchildren d (Normalize.mem_children_of_inherited hk hd) _
        (h.fork hf hlevels hlevel hresult rfl)
    · exact levelForked_of_forkless (htail d hd).2

/-- Every fork that is made goes together with the dimensions around it now. -/
theorem throughout_levelForked (hdistinct : Distinct dims)
    (hdims : ∀ d ∈ dims, d.Unaggregated ∧ d.Forkless) (hf : f.Forkless) (hlevels : f.PlainLevels) :
    (f.transform (Normalize.levelOfDetail dims)).Throughout (LevelForked dims) [] := by
  have hboth : f.Throughout (fun _ g => g.Forkless ∧ ∀ d ∈ g.kind.named, d.Unaggregated) [] :=
    fun p g hg => ⟨hf.of_node (mem_nodes_of_at? hg), hlevels g (mem_nodes_of_at? hg)⟩
  rw [transform_eq_offered (Normalize.alters_levelOfDetail dims).renews]
  refine throughout_offered (I := Follows dims) (Normalize.alters_levelOfDetail dims).renews
    ?_ ?_ hboth ?_
  · intro above above' g h hg hnone
    obtain ⟨hforkless, hplain⟩ := hg.root
    refine ⟨fun q hq => ?_, h.rebuilt hforkless hplain⟩
    have hfork : g.isFork = true := by
      rw [← isFork_eq_of_outline (outline_rebuilt (Normalize.levelOfDetail dims) above g), isFork,
        fork?, hq]
      rfl
    exact absurd hforkless.not_isFork (by simp [hfork])
  · intro above above' g r h hg hr hchildren
    obtain ⟨hforkless, hplain⟩ := hg.root
    exact h.take hforkless hplain hr hchildren
  · exact ⟨rfl, hdistinct, hdims⟩

end LevelForked

/-! ## The shape of the result -/

/-- The node above the end of a path is one step back. -/
theorem exists_parent {f g : Formula} {p : Path} {a : Formula} (hg : f.at? p = some g)
    (ha : (f.along p).getLast? = some a) :
    ∃ p₀ i, p = p₀ ++ [i] ∧ f.at? p₀ = some a ∧ a.children[i]? = some g := by
  induction p generalizing f with
  | nil => exact absurd ha (by simp [along])
  | cons i p ih =>
      rw [at?] at hg
      split at hg
      next c hc =>
        rw [along_cons hc] at ha
        cases p with
        | nil =>
            obtain rfl := Option.some.inj hg
            obtain rfl : f = a := by simpa [along] using ha
            exact ⟨[], i, rfl, rfl, hc⟩
        | cons j p =>
            have hlast : (c.along (j :: p)).getLast? = some a := by
              rw [List.getLast?_cons] at ha
              cases hbelow : (c.along (j :: p)).getLast? with
              | none =>
                  rw [List.getLast?_eq_none_iff, along] at hbelow
                  split at hbelow <;> exact absurd hbelow (by simp)
              | some b =>
                  rw [hbelow] at ha
                  exact ha
            obtain ⟨p₀, k, hp, hat, hchild⟩ := ih hg hlast
            exact ⟨i :: p₀, k, by rw [hp]; rfl, (at?_cons_of_child p₀ hc).trans hat, hchild⟩
      next => exact absurd hg (by simp)

/-- The formula has all its aggregations in forks where they need one. -/
structure AggregationsForked (dims : List Formula) (f : Formula) : Prop where
  /-- Forks are made for aggregations, at dimensions that go together with those around them. -/
  fork : ∀ p g q, f.at? p = some g → g.kind = .fork q →
    IsLevelFork (contextDimensions dims (f.along p)) q
  /-- Between an aggregation and another one above it there is a fork. -/
  apart : ∀ p g, f.at? p = some g → g.isAggregateCall = true →
    Normalize.insideAggregation (f.along p) = false
  /-- An aggregation of something with a fork in it is the result of a fork. -/
  result : ∀ p g c, f.at? p = some g → g.kind = .call c → Function.isAggregate c.name = true →
    c.args.any containsFork = true → ∃ p₀ a, p = p₀ ++ [0] ∧ f.at? p₀ = some a ∧ a.isFork = true
  /-- Nothing is left to do. -/
  stable : f.transform (Normalize.levelOfDetail dims) = f

section Shape

variable {dims : List Formula} {f g : Formula}

/-- A result of a fork whose other parts are not aggregated is its first child. -/
theorem ResultOf.exists_fork_above {p : Path} (h : f.Throughout (LevelForked dims) [])
    (hg : f.at? p = some g) (haggregate : g.isAggregateCall = true)
    (hresult : ResultOf (f.along p) g) :
    ∃ p₀ a, p = p₀ ++ [0] ∧ f.at? p₀ = some a ∧ a.isFork = true := by
  obtain ⟨a, q, ha, hq, -⟩ := hresult
  obtain ⟨p₀, i, rfl, hat, hchild⟩ := exists_parent hg ha
  have hplain := (h p₀ a hat q hq).2
  cases i with
  | zero => exact ⟨p₀, a, rfl, hat, by rw [isFork, fork?, hq]; rfl⟩
  | succ i =>
      have hmem : g ∈ a.children.tail := by
        rw [← List.getElem?_tail] at hchild
        exact List.mem_of_getElem? hchild
      exact absurd (hplain g hmem g (self_mem_nodes g)) (by simp [haggregate])

theorem aggregationsForked (hapart : f.Throughout Apart [])
    (hforks : f.Throughout (LevelForked dims) []) : AggregationsForked dims f where
  fork p g q hg hk := (hforks p g hg q hk).1
  apart p g hg haggregate := by
    obtain ⟨c, hk, haggregate⟩ := exists_call_of_isAggregateCall haggregate
    exact (hapart p g hg c hk haggregate).1
  result p g c hg hk haggregate hfork := by
    rcases (hapart p g hg c hk haggregate).2 with hresult | hneeds
    · exact hresult.exists_fork_above hforks hg ((isAggregateCall_of_kind hk).trans haggregate)
    · rw [Normalize.needsFork] at hneeds
      simp only [Bool.or_eq_false_iff, List.any_eq_false] at hneeds
      obtain ⟨a, ha, hcontains⟩ := List.any_eq_true.mp hfork
      exact absurd (hneeds.2 a ha) (by simp [hcontains])
  stable := transform_eq_self (hapart.imp fun _ _ hg => hg.rests)

theorem plainlyNamed_of_forkless (hf : f.Forkless) (hlevels : f.PlainLevels) :
    f.Throughout PlainlyNamed [] := by
  intro p g hg
  refine ⟨hlevels g (mem_nodes_of_at? hg), fun a q ha hq => ?_⟩
  have hnot : a.isFork = false := hf a (mem_nodes_of_along (List.mem_of_getLast? ha))
  rw [isFork, fork?, hq] at hnot
  exact absurd hnot (by simp)

/-- Levels of detail without aggregations in a formula without forks: every fork that is made is at
dimensions that go together with those around it now, and a second time changes nothing. -/
theorem transform_levelOfDetail (hdistinct : Distinct dims)
    (hdims : ∀ d ∈ dims, d.Unaggregated ∧ d.Forkless) (hf : f.Forkless) (hlevels : f.PlainLevels) :
    AggregationsForked dims (f.transform (Normalize.levelOfDetail dims)) :=
  aggregationsForked
    (throughout_apart (fun d hd => (hdims d hd).1) (plainlyNamed_of_forkless hf hlevels))
    (throughout_levelForked hdistinct hdims hf hlevels)

/-- The best city and the best single sale, as a share of the sales of all categories. -/
def bestCity : Formula :=
  let city := Formula.field "city"
  let sales := Formula.callWith "sum" [.field "sales"] (.including [city]) NameSet.empty
  let all := Formula.callWith "sum" [.field "sales"] (.excluding [.field "cat"]) NameSet.empty
  .binary "/" (.call "max" [.binary "+" sales (.call "max" [.field "sales"])]) all

/-- There are forks in forks, one at more dimensions than those around it and one at fewer. -/
theorem transform_levelOfDetail_bestCity :
    let dims := [Formula.field "region", Formula.field "cat"]
    let g := bestCity.transform (Normalize.levelOfDetail dims)
    AggregationsForked dims g ∧ (g.at? [0]).any isFork ∧ (g.at? [0, 0, 0, 0]).any isFork ∧
      (g.at? [1]).any isFork :=
  ⟨transform_levelOfDetail (by decide) (by decide) (by decide)
    (by decide), by decide +kernel, by decide +kernel, by decide +kernel⟩

end Shape

end Formula

end FormulaSql
