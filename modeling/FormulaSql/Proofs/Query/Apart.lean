import FormulaSql.Proofs.Query.NormalForm
import FormulaSql.Proofs.Query.Resting

/-!
# Aggregations stay apart

Once aggregations are in forks where they need one, the rule for levels of detail has nothing more
to do. What comes after it makes forks of window calls, moves filters and tags window calls. This
brings no fork below an aggregation if there is no window call inside of one.

* `Formula.apart_transform` says that aggregations stay apart
* `Formula.apart_of_rests` says that they are apart where the rule rests
* `Formula.rests_levelOfDetail_of_same` says that the rule does not tell equal formulas apart
-/

namespace FormulaSql

/-! ## Aggregations apart from each other -/

/-- A rule for window calls and forks, which does nothing to calls of functions. -/
structure Rule.SparesCalls (dims : List Formula) (rule : Rule) : Prop extends rule.Forks dims where
  alters : rule.Alters
  spares : ∀ above g r, rule above g = some r → g.call? = none

namespace Formula

/-- How the nodes that were above a node go together with those that are above it now. -/
structure Under (rule : Rule) (above above' : List Formula) : Prop where
  regular : ∀ a ∈ above, a.Regular
  inside : Normalize.insideAggregation above' = true → Normalize.insideAggregation above = true
  result : ∀ a q, above.getLast? = some a → a.kind = .fork q → ∃ a' q', above'.getLast? = some a' ∧
    a'.kind = .fork q' ∧ q'.result = q.result.offered rule above

section Spares

variable {dims above above' : List Formula} {rule : Rule} {f g r : Formula} {c c' : Call Formula}

theorem sparesCalls_windowForks (hdims : ∀ d ∈ dims, d.Flat) :
    Rule.SparesCalls dims (Normalize.windowForks dims) where
  toForks := forks_windowForks hdims
  alters := alters_windowForks dims
  spares above g r hr := by
    obtain ⟨w, hw, -⟩ := Normalize.windowForks_cases hr
    rw [call?, kind_of_window? hw]

theorem sparesCalls_laterFilters (available : NameSet) :
    Rule.SparesCalls dims (Normalize.laterFilters available) where
  toForks := forks_laterFilters available
  alters := alters_laterFilters available
  spares above g r hr := by
    rcases Normalize.laterFilters_cases hr with ⟨w, filters, hk, -⟩ | ⟨q, filters, hk, -⟩ <;>
      rw [call?, hk]

theorem sparesCalls_levelTags : Rule.SparesCalls dims Normalize.levelTags where
  toForks := forks_levelTags
  alters := alters_levelTags
  spares above g r hr := by
    obtain ⟨w, notes, hw, -⟩ := Normalize.levelTags_cases hr
    rw [call?, kind_of_window? hw]

theorem lenient_true (levels : Prop) : Lenient (fun _ => True) levels :=
  ⟨fun _ _ => trivial, fun _ _ => trivial, fun _ _ => trivial, fun _ _ _ => trivial,
    fun _ _ _ _ => trivial, fun _ _ _ _ => trivial⟩

theorem apart_of_call? (h : f.call? = none) : Apart above f := by
  intro c hk
  rw [call?, hk] at h
  exact absurd h (by simp)

theorem Under.not_inside (h : Under rule above above')
    (hinside : Normalize.insideAggregation above = false) :
    Normalize.insideAggregation above' = false := by
  rw [← Bool.not_eq_true] at hinside ⊢
  exact hinside ∘ h.inside

theorem Under.below {more : List Formula} (h : Under rule above above') (hf : f.Regular)
    (hfork : f.fork? = none) (hinside : Normalize.insideAggregation (above' ++ more) = true →
      Normalize.insideAggregation (above ++ [f]) = true) :
    Under rule (above ++ [f]) (above' ++ more) where
  regular := List.forall_mem_append.mpr ⟨h.regular, List.forall_mem_singleton.mpr hf⟩
  inside := hinside
  result a q ha hk := by
    obtain rfl : f = a := by simpa using ha
    rw [fork?, hk] at hfork
    exact absurd hfork (by simp)

theorem Under.fork {q₀ q : Fork Formula} (h : Under rule above above') (hf : f.Regular)
    (hk₀ : f.kind = .fork q₀) (hk : g.kind = .fork q)
    (hresult : q.result = q₀.result.offered rule (above ++ [f])) :
    Under rule (above ++ [f]) (above' ++ [g]) where
  regular := List.forall_mem_append.mpr ⟨h.regular, List.forall_mem_singleton.mpr hf⟩
  inside hinside := by
    rw [Normalize.insideAggregation_concat, isFork, fork?, hk] at hinside
    exact absurd hinside (by simp)
  result a q₁ ha hk₁ := by
    obtain rfl : f = a := by simpa using ha
    obtain rfl := Kind.fork.inj (hk₀.symm.trans hk₁)
    exact ⟨g, q, List.getLast?_concat, hk, hresult⟩

/-- A window call that stays where it is, with something put around it. -/
theorem Under.window {more : List Formula} (h : Under rule above above') (hf : f.Regular)
    (hwindow : f.isWindowCall = true)
    (hinside : Normalize.insideAggregation (above' ++ more) = true →
      Normalize.insideAggregation above = true) :
    Under rule (above ++ [f]) (above' ++ more) := by
  obtain ⟨w, hw⟩ := Option.isSome_iff_exists.mp hwindow
  have hfork : f.fork? = none := by rw [fork?, kind_of_window? hw]
  refine h.below hf hfork fun hmore => ?_
  rw [Normalize.insideAggregation_concat, isFork, hfork, hinside hmore]
  simp

variable (hrule : rule.SparesCalls dims) (hdims : ∀ d ∈ dims, d.Flat)

include hrule hdims

theorem offer_of_sparesCalls (habove : ∀ a ∈ above, a.Regular) (hf : f.Regular)
    (hr : rule above f = some r) : Offer (fun _ => True) True f r :=
  hrule.offers _ True (lenient_true True) (fun d hd => ⟨hdims d hd, fun _ _ => trivial⟩) above f r
    (fun a ha => ⟨habove a ha, fun _ _ => trivial⟩) hf (fun _ _ => trivial) hr

/-- The rule has nothing to offer where there are no window calls and no forks. -/
theorem skips_of_sparesCalls (habove : ∀ a ∈ above, a.Regular) (hf : f.Regular)
    (hwindow : f.window? = none) (hfork : f.fork? = none) : rule above f = none := by
  apply Option.eq_none_iff_forall_ne_some.mpr
  intro r hr
  have hcall := hrule.spares above f r hr
  have hnot : f.isWindowCall ≠ true := by
    rw [isWindowCall, hwindow]
    simp
  cases offer_of_sparesCalls hrule hdims habove hf hr with
  | error _ hk | lookup hk | level _ hk =>
      rw [call?, hk] at hcall
      exact absurd hcall (by simp)
  | window h | tag h => exact hnot h
  | windowFilters hk => rw [window?, hk] at hwindow; exact absurd hwindow (by simp)
  | forkFilters hk => rw [fork?, hk] at hfork; exact absurd hfork (by simp)

theorem rests_of_sparesCalls (habove : ∀ a ∈ above, a.Regular) (hf : f.Regular)
    (hwindow : f.Calls Head.NoWindow) (hfork : f.containsFork = false) : f.Rests rule above := by
  intro p g hg
  have hmem := mem_nodes_of_at? hg
  refine skips_of_sparesCalls hrule hdims ?_ (hf.of_node hmem) ?_ ?_
  · intro a ha
    rcases List.mem_append.mp ha with ha | ha
    · exact habove a ha
    · exact hf.of_node (mem_nodes_of_along ha)
  · have hhead : Head.NoWindow g.kind.head := hwindow g hmem
    rw [window?]
    cases hk : g.kind with
    | window w => rw [hk] at hhead; exact hhead.elim
    | _ => rfl
  · have hnot := List.any_eq_false.mp hfork g hmem
    rwa [isFork, Bool.not_eq_true, Option.isSome_eq_false_iff, Option.isNone_iff_eq_none] at hnot

/-- An aggregation that needs no fork has no fork and no window call below it, so it stays as it
is. -/
theorem Under.needsFork (h : Under rule above above') (hf : f.Regular)
    (hwindow : f.Calls Head.NoWindow) (hk : f.kind = .call c)
    (hk' : (f.rebuilt rule above).kind = .call c')
    (hneeds : Normalize.needsFork above c = false) : Normalize.needsFork above' c' = false := by
  have hhere : ∀ a ∈ above ++ [f], a.Regular :=
    List.forall_mem_append.mpr ⟨h.regular, List.forall_mem_singleton.mpr hf⟩
  rw [Normalize.needsFork] at hneeds ⊢
  simp only [Bool.or_eq_false_iff, List.any_eq_false, Bool.not_eq_true] at hneeds
  obtain ⟨⟨⟨hlod, hfilters⟩, hinside⟩, hargs⟩ := hneeds
  obtain ⟨c'', hk'', -, hlod', hargs', -⟩ :=
    exists_call_withChildren (forall₂_children_rebuilt rule above f) hk
  obtain rfl := Kind.call.inj (hk'.symm.trans hk'')
  have hsame : c'.args = c.args := by
    refine eq_of_forall₂_offered hargs' fun x hx => ?_
    have hchild : x ∈ f.children := by
      rw [children, hk]
      simp [Kind.children, hx]
    exact rests_of_sparesCalls hrule hdims hhere (hf.of_child hchild) (hwindow.of_child hchild)
      (hargs x hx).1
  have houtline := outline_rebuilt rule above f
  rw [hk, hk'] at houtline
  simp only [Kind.outline, Kind.map, Kind.call.injEq, Call.mk.injEq] at houtline
  rw [← Kind.isInherited_outline, hlod', Kind.isInherited_outline, houtline.2.2.2.2,
    h.not_inside hinside, hsame]
  simp only [Bool.or_eq_false_iff, List.any_eq_false, Bool.not_eq_true]
  exact ⟨⟨⟨hlod, hfilters⟩, trivial⟩, hargs⟩

theorem Under.stay (h : Under rule above above') (hf : f.Regular)
    (hwindow : f.isAggregateCall = true → f.Calls Head.NoWindow) (hapart : Apart above f)
    (hnone : rule above (f.rebuilt rule above) = none) :
    Apart above' (f.rebuilt rule above) ∧
      Under rule (above ++ [f]) (above' ++ [f.rebuilt rule above]) := by
  have houtline := outline_rebuilt rule above f
  have hagg := isAggregateCall_eq_of_outline houtline
  constructor
  · intro c' hk' hname'
    have haggregate : f.isAggregateCall = true :=
      hagg.symm.trans ((isAggregateCall_of_kind hk').trans hname')
    obtain ⟨c, hk, hname⟩ := exists_call_of_isAggregateCall haggregate
    obtain ⟨hinside, ⟨a, q, ha, hq, rfl⟩ | hneeds⟩ := hapart c hk hname
    · obtain ⟨a', q', ha', hq', hresult⟩ := h.result a q ha hq
      refine ⟨h.not_inside hinside, Or.inl ⟨a', q', ha', hq', hresult.trans ?_⟩⟩
      rw [offered_eq hrule.alters.renews, hnone]
      rfl
    · exact ⟨h.not_inside hinside,
        Or.inr (h.needsFork hrule hdims hf (hwindow haggregate) hk hk' hneeds)⟩
  · cases hk : f.kind with
    | fork q =>
        obtain ⟨q', hk', -, hresult, -⟩ := exists_fork_withChildren
          (forall₂_children_rebuilt rule above f) hk
        exact h.fork hf hk hk' hresult
    | _ =>
        refine h.below hf (by rw [fork?, hk]) ?_
        rw [Normalize.insideAggregation_concat, Normalize.insideAggregation_concat, hagg,
          isFork_eq_of_outline houtline]
        simp only [Bool.and_eq_true, Bool.or_eq_true]
        exact And.imp_right (Or.imp_right h.inside)

theorem Under.take (h : Under rule above above') (hf : f.Regular)
    (hr : rule above (f.rebuilt rule above) = some r)
    (hchildren : ∀ d ∈ (f.rebuilt rule above).children, ∀ below,
      Under rule (above ++ [f]) below → d.Throughout Apart below) :
    r.Throughout Apart above' := by
  have hrebuilt : (f.rebuilt rule above).Regular := by
    rw [← transformBelow_eq_rebuilt hrule.alters.renews]
    exact (passes_transformBelow hrule.keepsFlat hf h.regular).regular
  have houtline := outline_rebuilt rule above f
  have hcall := hrule.spares above _ r hr
  have hkept {x : Formula}
      (hw : (f.rebuilt rule above).isWindowCall = true)
      (hinside : Normalize.insideAggregation (above' ++ [x]) = true →
        Normalize.insideAggregation above = true) :
      (f.rebuilt rule above).Throughout Apart (above' ++ [x]) := by
    refine throughout_iff.mpr ⟨apart_of_call? hcall, fun d hd => hchildren d hd _ ?_⟩
    rw [List.append_assoc]
    refine h.window hf ((isWindowCall_eq_of_outline houtline).symm.trans hw) fun hmore => ?_
    rw [← List.append_assoc, Normalize.insideAggregation_concat,
      not_isAggregateCall_of_isWindowCall hw, Bool.false_or, Bool.and_eq_true] at hmore
    exact hinside hmore.2
  cases offer_of_sparesCalls hrule hdims h.regular hrebuilt hr with
  | error _ hk | lookup hk | level _ hk =>
      rw [call?, hk] at hcall
      exact absurd hcall (by simp)
  | @window q notes hw hresult hrest =>
      refine throughout_iff.mpr ⟨apart_of_call? rfl, fun d hd => ?_⟩
      rcases List.mem_cons.mp hd with rfl | hd
      · rw [hresult]
        refine hkept hw fun hinside => ?_
        rw [Normalize.insideAggregation_concat] at hinside
        exact absurd hinside (by simp [isFork, fork?, kind])
      · exact apart_of_unaggregated (hrest d hd).1.unaggregated
  | @tag notes hw =>
      refine throughout_iff.mpr ⟨apart_of_call? rfl, fun d hd => ?_⟩
      obtain rfl := List.mem_singleton.mp hd
      refine hkept hw fun hinside => h.inside ?_
      rw [Normalize.insideAggregation_concat, Bool.and_eq_true] at hinside
      exact hinside.2
  | @windowFilters w filters hk =>
      refine throughout_iff.mpr ⟨apart_of_call? rfl, fun d hd => hchildren d ?_ _ ?_⟩
      · rw [children, hk]
        exact hd
      · refine h.window hf ((isWindowCall_eq_of_outline houtline).symm.trans ?_) fun hinside => ?_
        · rw [isWindowCall, window?, hk]
          rfl
        · rw [Normalize.insideAggregation_concat, Bool.and_eq_true] at hinside
          exact h.inside hinside.2
  | @forkFilters q filters hk =>
      refine throughout_iff.mpr ⟨apart_of_call? rfl, fun d hd => hchildren d ?_ _ ?_⟩
      · rw [children, hk]
        exact hd
      · have hfork : f.isFork = true := by
          rw [← isFork_eq_of_outline houtline, isFork, fork?, hk]
          rfl
        obtain ⟨q₀, hq₀⟩ := Option.isSome_iff_exists.mp hfork
        obtain ⟨q', hk', -, hresult, -⟩ := exists_fork_withChildren
          (forall₂_children_rebuilt rule above f) (kind_of_fork? hq₀)
        obtain rfl := Kind.fork.inj (hk.symm.trans hk')
        exact h.fork hf (kind_of_fork? hq₀) rfl hresult

/-- Aggregations stay apart from each other. There are no window calls inside of them, so no fork of
a window call comes to stand below one. -/
theorem apart_transform (hf : f.Regular)
    (houtside : f.All fun g => g.isAggregateCall = true → g.Calls Head.NoWindow)
    (hapart : f.Throughout Apart []) : (f.transform rule).Throughout Apart [] := by
  have hstart : f.Throughout (fun above g => g.Regular ∧
      (g.isAggregateCall = true → g.Calls Head.NoWindow) ∧ Apart above g) [] := fun p g hg =>
    ⟨hf.of_node (mem_nodes_of_at? hg), houtside g (mem_nodes_of_at? hg), hapart p g hg⟩
  rw [transform_eq_offered hrule.alters.renews]
  refine throughout_offered (I := Under rule) hrule.alters.renews ?_ ?_ hstart
    ⟨fun _ ha => absurd ha List.not_mem_nil, id, fun a q ha => absurd ha (by simp)⟩
  · intro above above' g h hg hnone
    obtain ⟨hregular, hwindow, hapart⟩ := hg.root
    exact h.stay hrule hdims hregular hwindow hapart hnone
  · intro above above' g r h hg hr hchildren
    exact h.take hrule hdims hg.root.1 hr hchildren

end Spares

/-! ## Equal formulas -/

section Same

variable {dims above above' : List Formula} {f g : Formula}

theorem containsFork_of_same (h : (f == g) = true) (hf : f.containsFork = true) :
    g.containsFork = true := by
  obtain ⟨x, hx, hfork⟩ := List.any_eq_true.mp hf
  obtain ⟨y, hy, hxy⟩ := exists_node_of_same h hx
  exact List.any_eq_true.mpr ⟨y, hy, (isFork_eq_of_same hxy).symm.trans hfork⟩

theorem isExtendedCall_eq_of_same (h : (f == g) = true) :
    f.isExtendedCall = g.isExtendedCall := by
  by_cases hliteral : ∃ v, f.kind = .literal v
  · obtain ⟨v, hk⟩ := hliteral
    have hshape := (same_iff.mp h).1
    rw [hk] at hshape
    rw [isExtendedCall, isExtendedCall, call?, call?, hk]
    cases hg : g.kind with
    | call c => simp [hg, Kind.shape, Kind.map] at hshape
    | _ => rfl
  · exact (isExtendedCall_eq_of_outline (outline_eq_of_same h fun v hk => hliteral ⟨v, hk⟩)).symm

theorem extendedSearch_of_same {nested inside : Bool} (h : (f == g) = true)
    (hf : f.extendedSearch nested inside = true) : g.extendedSearch nested inside = true := by
  induction f using induction_children generalizing g inside with
  | step f ih =>
      rw [extendedSearch_eq, Bool.or_eq_true] at hf ⊢
      rw [← isExtendedCall_eq_of_same h, ← isAggregateCall_eq_of_same h]
      refine hf.imp_right fun hany => ?_
      obtain ⟨c, hc, hsearch⟩ := List.any_eq_true.mp hany
      obtain ⟨d, hd, hcd⟩ := forall₂_exists_right (forall₂_autonomous h) hc
      exact List.any_eq_true.mpr ⟨d, hd, ih c (List.mem_of_mem_take hc) hcd hsearch⟩

theorem insideAggregation_eq_of_same
    (h : List.Forall₂ (fun a b => (a == b) = true) above above') :
    Normalize.insideAggregation above = Normalize.insideAggregation above' := by
  rw [Normalize.insideAggregation, Normalize.insideAggregation]
  have hreverse := List.forall₂_reverse_iff.mpr h
  generalize above.reverse = xs, above'.reverse = ys at hreverse
  induction hreverse with
  | nil => rfl
  | cons hab _ ih =>
      rw [List.takeWhile_cons, List.takeWhile_cons, isFork_eq_of_same hab]
      split
      · rw [List.any_cons, List.any_cons, ih, isAggregateCall_eq_of_same hab]
      · rfl

theorem isForkResult_of_same (habove : List.Forall₂ (fun a b => (a == b) = true) above above')
    (h : (f == g) = true) (hf : Normalize.isForkResult above f = true) :
    Normalize.isForkResult above' g = true := by
  obtain ⟨a, q, ha, hq, hresult⟩ := isForkResult_iff.mp hf
  obtain ⟨b, hb, hab⟩ := exists_getLast?_of_forall₂ habove ha
  obtain ⟨q', hq', hqq', -⟩ := exists_fork?_of_same hab hq
  exact isForkResult_iff.mpr ⟨b, q', hb, hq', BEq.trans (BEq.symm hqq') (BEq.trans hresult h)⟩

theorem needsFork_of_same {c c' : Call Formula}
    (habove : List.Forall₂ (fun a b => (a == b) = true) above above') (h : (f == g) = true)
    (hk : f.kind = .call c) (hk' : g.kind = .call c')
    (hneeds : Normalize.needsFork above' c' = true) : Normalize.needsFork above c = true := by
  have houtline : (Kind.call c').outline = (Kind.call c).outline :=
    hk ▸ hk' ▸ outline_eq_of_same h (by simp [hk])
  have hcs := (same_iff.mp h).2.2
  rw [children, hk] at hcs
  obtain ⟨c'', hc'', -, hlod, hargs, -⟩ :=
    Kind.exists_call_of_outline (hk' ▸ houtline : g.kind.outline = _) hcs
  obtain rfl := Kind.call.inj (hk'.symm.trans hc'')
  simp only [Kind.outline, Kind.map, Kind.call.injEq, Call.mk.injEq] at houtline
  rw [Normalize.needsFork, ← Kind.isInherited_outline, hlod, Kind.isInherited_outline,
    houtline.2.2.2.2, ← insideAggregation_eq_of_same habove] at hneeds
  rw [Normalize.needsFork]
  simp only [Bool.or_eq_true, List.any_eq_true] at hneeds ⊢
  refine hneeds.imp_right ?_
  rintro ⟨y, hy, hfound⟩
  obtain ⟨x, hx, hxy⟩ := forall₂_exists_left hargs hy
  have hyx := same_symm hxy
  exact ⟨x, hx, hfound.imp (containsFork_of_same hyx) (extendedSearch_of_same hyx)⟩

/-- The rule for levels of detail does not tell equal formulas apart. -/
theorem rests_levelOfDetail_of_same (h : (f == g) = true)
    (hf : f.Rests (Normalize.levelOfDetail dims) []) :
    g.Rests (Normalize.levelOfDetail dims) [] := by
  refine hf.of_same (fun above above' f g habove h hnone => ?_) .nil h
  cases haggregate : g.isAggregateCall with
  | false => exact Normalize.levelOfDetail_none_of_not_aggregate haggregate
  | true =>
      rw [← isAggregateCall_eq_of_same h] at haggregate
      obtain ⟨c, hk, hname⟩ := exists_call_of_isAggregateCall haggregate
      obtain ⟨c', hk', -⟩ := exists_call_of_same h hk
      rcases Normalize.levelOfDetail_eq_none hnone hk hname with hresult | hneeds
      · exact Normalize.levelOfDetail_none_of_isForkResult (isForkResult_of_same habove h hresult)
      · apply Normalize.levelOfDetail_none_of_needsFork hk'
        rw [← Bool.not_eq_true] at hneeds ⊢
        exact hneeds ∘ needsFork_of_same habove h hk hk'

end Same

/-! ## Where the rule rests -/

section Rests

variable {dims : List Formula} {f : Formula}

theorem mem_sides_of_named {d : Formula} (h : d ∈ f.kind.named) : d ∈ f.kind.sides := by
  cases hk : f.kind with
  | call c =>
      rw [hk] at h
      have hle : (Kind.call c).mainCount ≤ c.args.length := by
        simp only [Kind.mainCount]
        split <;> omega
      rw [Kind.sides, Kind.children, List.append_assoc, List.drop_append_of_le_length hle]
      exact List.mem_append_right _ h
  | fork q =>
      rw [hk] at h
      rw [Kind.sides, Kind.mainCount, List.drop_one]
      exact h
  | _ =>
      rw [hk] at h
      exact absurd h List.not_mem_nil

theorem Regular.plainlyNamed (hf : f.Regular) : f.Throughout PlainlyNamed [] := by
  intro p g hg
  refine ⟨fun d hd => ?_, fun a q ha hk => ?_⟩
  · exact (hf g (mem_nodes_of_at? hg) d (mem_sides_of_named hd)).unaggregated
  · obtain ⟨p₀, i, -, hat, hchild⟩ := exists_parent hg ha
    have hsides := Regular.flat_sides (hf.of_node (mem_nodes_of_at? hat))
    rw [children, hk] at hchild
    rw [hk, Kind.sides, Kind.mainCount, List.drop_one] at hsides
    cases i with
    | zero => exact Or.inl (Option.some.inj hchild)
    | succ i =>
        rw [← List.getElem?_tail] at hchild
        exact Or.inr (hsides g (List.mem_of_getElem? hchild)).unaggregated

/-- Where the rule has nothing left to do, all aggregations are apart. -/
theorem apart_of_rests (hf : f.Regular) (h : f.Rests (Normalize.levelOfDetail dims) []) :
    f.Throughout Apart [] := by
  intro p g hg c hk hname
  rcases Normalize.levelOfDetail_eq_none (h p g hg) hk hname with hresult | hneeds
  · obtain ⟨a, q, ha, hq, -⟩ := isForkResult_iff.mp hresult
    have haggregate : ¬ g.Unaggregated := by
      intro hplain
      have hnot : g.isAggregateCall = false := hplain g (self_mem_nodes g)
      rw [isAggregateCall_of_kind hk, hname] at hnot
      exact absurd hnot (by simp)
    have hself := ((hf.plainlyNamed p g hg).2 a q ha (kind_of_fork? hq)).resolve_right haggregate
    exact ⟨insideAggregation_of_getLast? ha (isFork_of_fork? hq),
      Or.inl ⟨a, q, ha, kind_of_fork? hq, hself⟩⟩
  · exact ⟨Normalize.not_insideAggregation_of_needsFork hneeds, Or.inr hneeds⟩

end Rests

end Formula

end FormulaSql
