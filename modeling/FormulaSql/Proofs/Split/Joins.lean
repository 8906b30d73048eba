import FormulaSql.Proofs.Split.Rounds

/-!
# Joins of lookups

The fork of a lookup is joined to the query around it on a shifted date: one of its join conditions
compares two different expressions. The sub-query of such a fork keeps the condition, and the
cropped query has it among its joins, as long as the sub-query is not the base. The base is what the
others are joined to, so the conditions of a fork that it absorbs are lost. That happens in a round
for window calls alone, where all is merged into the base, because a fork counts as one for a window
call whenever its result is a window call; and in a query without dimensions.
-/

namespace FormulaSql.Split

/-! ## Conditions of a group -/

theorem Signature.agrees_joining {a b : Signature} (h : a.agrees b = true) :
    (a.joining == b.joining) = true := by
  rw [agrees, Bool.and_eq_true] at h
  exact h.2

/-- A site is known by its place. -/
theorem eq_of_cut_eq {q : Query} {s t : Site} {n k : String} (hs : s ∈ sites q) (ht : t ∈ sites q)
    (h : s.cut n = t.cut k) : s = t := by
  obtain ⟨-, e, he, hfork, hlater⟩ := mem_sites_iff.mp hs
  obtain ⟨-, e', he', hfork', hlater'⟩ := mem_sites_iff.mp ht
  obtain ⟨part, index, path, fork, later⟩ := s
  obtain ⟨part', index', path', fork', later'⟩ := t
  obtain ⟨rfl, rfl, rfl, -, -⟩ := Cut.mk.inj h
  obtain rfl := Option.some.inj (he.symm.trans he')
  obtain ⟨g, hg, hgfork⟩ := Formula.at?_of_mem_outermostForks hfork
  obtain ⟨g', hg', hgfork'⟩ := Formula.at?_of_mem_outermostForks hfork'
  obtain rfl := Option.some.inj (hg.symm.trans hg')
  obtain rfl : fork = fork' := Option.some.inj (hgfork.symm.trans hgfork')
  obtain rfl : later = later' := hlater.trans hlater'.symm
  rfl

theorem forkMask_origin {q : Query} {a : Names} {m : Mask} (hm : m ∈ (forkMasks q a).1) :
    ∃ g cut, GroupOf q (taken q) a (forkGroups q (taken q) a).2 g ∧
      m = groupMaskAs q cut (prioritized (sites q)).1 g m.queryId := by
  obtain ⟨-, hgroups, -⟩ := forkGroups_spec q (taken q) a
  obtain ⟨g, hg, heq⟩ := exists_group_of_mask hm
  exact ⟨g, _, hgroups g hg, heq⟩

theorem forkMask_isBase {q : Query} {a : Names} {m : Mask} (hm : m ∈ (forkMasks q a).1) :
    m.isBase = false := by
  obtain ⟨g, cut, -, heq⟩ := forkMask_origin hm
  rw [heq]
  rfl

theorem forkMask_isWindow {q : Query} {a : Names} {m : Mask} (hm : m ∈ (forkMasks q a).1) :
    m.isWindow = (prioritized (sites q)).1 := by
  obtain ⟨g, cut, -, heq⟩ := forkMask_origin hm
  rw [heq]
  rfl

/-- The mask of the group of a fork has the conditions of the fork, in columns of its own. -/
theorem forkMask_joining {q : Query} {a : Names} {m : Mask} {s : Site} {n : String}
    (hm : m ∈ (forkMasks q a).1) (hs : s ∈ taken q) (hcut : s.cut n ∈ m.cuts) :
    m.joinType.isSome = true ∧ ∃ conditions, (conditions == (signatureOf q s).joining) = true ∧
      m.joining = conditions.map (·.map (inColumns m.extras)) := by
  obtain ⟨g, cut, hg, heq⟩ := forkMask_origin hm
  rw [heq] at hcut ⊢
  obtain ⟨-, t, ht, hagrees, hplace⟩ := hg.cut _ hcut
  obtain rfl := eq_of_cut_eq (mem_sites_of_taken hs) (mem_sites_of_taken ht) hplace
  exact ⟨rfl, g.signature.joining, Signature.agrees_joining hagrees, rfl⟩

theorem joining_signatureOf {q : Query} {s : Site} (h : forkDims q s.fork.lod ≠ []) :
    (signatureOf q s).joining = s.fork.joining := by
  simp [signatureOf, h]

theorem joining_signatureOf_nil {q : Query} {s : Site} (h : forkDims q s.fork.lod = []) :
    (signatureOf q s).joining = [.same (.int 1)] := by
  simp [signatureOf, h]

/-- A condition of a fork, as the sub-query of its group has it. -/
theorem forkMask_condition {q : Query} {a : Names} {m : Mask} {s : Site} {n : String}
    {c : JoinCondition Formula} (hm : m ∈ (forkMasks q a).1) (hs : s ∈ taken q)
    (hcut : s.cut n ∈ m.cuts) (hdims : forkDims q s.fork.lod ≠ []) (hc : c ∈ s.fork.joining) :
    ∃ c', (c' == c) = true ∧ c'.map (inColumns m.extras) ∈ m.joining := by
  obtain ⟨-, conditions, hsame, hjoining⟩ := forkMask_joining hm hs hcut
  rw [joining_signatureOf hdims] at hsame
  obtain ⟨c', hc', heq⟩ := exists_beq_of_mem hsame hc
  exact ⟨c', heq, hjoining ▸ List.mem_map_of_mem hc'⟩

theorem not_joinsDirectly {q : Query} {a : Names} {m : Mask} {s : Site} {n : String}
    {e e' : Formula} (hm : m ∈ (forkMasks q a).1) (hs : s ∈ taken q) (hcut : s.cut n ∈ m.cuts)
    (hdims : forkDims q s.fork.lod ≠ []) (hpair : .pair e e' ∈ s.fork.joining) :
    m.joinsDirectly = false := by
  obtain ⟨c, hc, hmem⟩ := forkMask_condition hm hs hcut hdims hpair
  cases c with
  | same x => exact absurd hc (by simp [BEq.beq, JoinCondition.parts, List.beq])
  | pair x x' =>
      rw [← Bool.not_eq_true, Mask.joinsDirectly, List.all_eq_true]
      exact fun hall => absurd (hall _ hmem) (by simp [JoinCondition.map])

/-! ## The base and the others -/

section Base

variable {q : Query} {a : Names}

/-- The base absorbs no lookup of a query with dimensions when it is put in front. -/
theorem withBase_shape :
    ∃ base others, (withBase q (forkMasks q a).1 (forkMasks q a).2).1 = base :: others ∧
      base.isBase = true ∧ (base.isWindow = true → (prioritized (sites q)).1 = true) ∧
      (∀ m ∈ others, m ∈ (forkMasks q a).1) ∧
      ∀ s ∈ taken q, forkDims q s.fork.lod ≠ [] → ∀ e e', .pair e e' ∈ s.fork.joining →
        ∀ n, s.cut n ∈ base.cuts → realDimensions q = [] := by
  rcases withBase_cases q (forkMasks q a).1 (forkMasks q a).2 with
    ⟨i, m, -, hcandidate, hm, heq⟩ | ⟨base, rfl, heq⟩
  · have hmem := List.mem_of_getElem? hm
    refine ⟨_, _, congrArg Prod.fst heq, rfl, fun h => (forkMask_isWindow hmem).symm.trans h,
      fun m hm => List.mem_of_mem_eraseIdx hm, ?_⟩
    intro s hs hdims e e' hpair n hcut
    have hdirect := not_joinsDirectly hmem hs hcut hdims hpair
    refine (of_baseCandidate hcandidate hm).2.resolve_left fun ⟨_, _, h⟩ => ?_
    exact absurd (hdirect.symm.trans h) Bool.false_ne_true
  · obtain ⟨-, huncut, -⟩ := uncutCuts_ensures q ((forkMasks q a).1.flatMap Mask.cuts)
      (forkMasks q a).2
    obtain ⟨-, -, hcuts, hbase, -⟩ := ownBase_ensures q
      (uncutCuts q ((forkMasks q a).1.flatMap Mask.cuts) (forkMasks q a).2).1
      (uncutFilters q (forkMasks q a).1)
      (uncutCuts q ((forkMasks q a).1.flatMap Mask.cuts) (forkMasks q a).2).2
    refine ⟨_, _, congrArg Prod.fst heq, hbase,
      fun h => absurd (show false = true from h) (by simp), fun m hm => hm, ?_⟩
    intro s _ _ e e' _ n hcut
    obtain ⟨-, hinner, -⟩ := huncut _ (hcuts ▸ hcut)
    exact absurd hinner (by simp [Site.cut])

/-- All masks but the base are masks of groups. The base absorbs a lookup of a query with dimensions
only in a round for window calls alone, and then it absorbs everything. -/
theorem plan_shape {b : Names} {p : Plan} (h : plan q a = (some p, b)) :
    ∃ base others, p.masks = base :: others ∧ base.isBase = true ∧
      (∀ m ∈ others, m ∈ (forkMasks q a).1) ∧
      ∀ s ∈ taken q, forkDims q s.fork.lod ≠ [] → ∀ e e', .pair e e' ∈ s.fork.joining →
        ∀ n, s.cut n ∈ base.cuts →
          ((prioritized (sites q)).1 = true ∧ others = []) ∨ realDimensions q = [] := by
  obtain ⟨based, rfl, rfl, -⟩ := plan_eq_some h
  obtain ⟨base, others, heq, hbase, hwindow, hothers, habsorbs⟩ := withBase_shape (q := q) (a := a)
  rw [heq]
  rcases mergeWindows_eq base others with hsame | ⟨other, rfl, hflag, hone⟩
  · rw [hsame]
    refine ⟨_, others, rfl, hbase, hothers, ?_⟩
    intro s hs hdims e e' hpair n hcut
    exact Or.inr (habsorbs s hs hdims e e' hpair n hcut)
  · rw [hone]
    refine ⟨_, [], rfl, hbase, fun m hm => absurd hm List.not_mem_nil, ?_⟩
    intro s hs hdims e e' hpair n hcut
    refine Or.inl ⟨?_, rfl⟩
    rcases Bool.or_eq_true_iff.mp hflag with hflag | hflag
    · exact hwindow hflag
    · exact (forkMask_isWindow (hothers other (by simp))).symm.trans hflag

end Base

/-! ## Join conditions of the cropped query -/

theorem mem_nodes_binary_left {op : String} {l r f : Formula} (h : f ∈ l.nodes) :
    f ∈ (Formula.binary op l r).nodes :=
  Formula.mem_nodes_of_child (by simp [Formula.binary, Formula.of, Formula.children, Formula.kind,
    Kind.children]) h

theorem mem_nodes_binary_right {op : String} {l r f : Formula} (h : f ∈ r.nodes) :
    f ∈ (Formula.binary op l r).nodes :=
  Formula.mem_nodes_of_child (by simp [Formula.binary, Formula.of, Formula.children, Formula.kind,
    Kind.children]) h

theorem mem_nodes_foldl_and {fs : List Formula} {f g : Formula} (h : g ∈ f.nodes ∨ g ∈ fs) :
    g ∈ (fs.foldl (fun a b => .binary "and" a b) f).nodes := by
  induction fs generalizing f with
  | nil => exact h.resolve_right List.not_mem_nil
  | cons x xs ih =>
      refine ih ?_
      rcases h with h | h
      · exact Or.inl (mem_nodes_binary_left h)
      · rcases List.mem_cons.mp h with rfl | h
        · exact Or.inl (mem_nodes_binary_right (Formula.self_mem_nodes g))
        · exact Or.inr h

/-- Every formula that is joined by AND is a node of the whole. -/
theorem exists_conjunction {fs : List Formula} {g : Formula} (hg : g ∈ fs) :
    ∃ f, conjunction fs = some f ∧ g ∈ f.nodes := by
  cases fs with
  | nil => exact absurd hg List.not_mem_nil
  | cons f fs =>
      refine ⟨_, rfl, mem_nodes_foldl_and ?_⟩
      rcases List.mem_cons.mp hg with rfl | hg
      · exact Or.inl (Formula.self_mem_nodes g)
      · exact Or.inr hg

/-- The cropped query joins the sub-query of `m` to the base, and among the conditions is the pair
of expressions, in the columns of the two. -/
def JoinedOn (c : Query) (base m : Mask) (e e' : Formula) : Prop :=
  ∃ j ∈ c.joinOn, (∃ t, j.join = some ⟨base.queryId, m.queryId, t⟩) ∧
    ∃ x x', (x == e) = true ∧ (x' == e') = true ∧
      joinFormula base m (.pair (inColumns m.extras x) (inColumns m.extras x')) ∈ j.formula.nodes

theorem joinFor?_of_condition (base : Mask) {m : Mask} {c : JoinCondition Formula}
    (hc : c ∈ m.joining) (htype : m.joinType.isSome = true) :
    ∃ j, joinFor? base m = some j ∧ (∃ t, j.join = some ⟨base.queryId, m.queryId, t⟩) ∧
      joinFormula base m c ∈ j.formula.nodes := by
  obtain ⟨t, ht⟩ := Option.isSome_iff_exists.mp htype
  obtain ⟨f, hf, hmem⟩ := exists_conjunction (List.mem_map_of_mem (f := joinFormula base m) hc)
  exact ⟨_, by rw [joinFor?, hf, ht]; rfl, ⟨t, rfl⟩, hmem⟩

theorem join_of_joinFor? {base m : Mask} {j : Entry} (h : joinFor? base m = some j) :
    ∃ t, j.join = some ⟨base.queryId, m.queryId, t⟩ := by
  rw [joinFor?] at h
  obtain ⟨f, -, h⟩ := Option.bind_eq_some_iff.mp h
  obtain ⟨t, -, h⟩ := Option.bind_eq_some_iff.mp h
  obtain rfl := Option.some.inj h
  exact ⟨t, rfl⟩

theorem pair_of_beq {c : JoinCondition Formula} {e e' : Formula} (h : (c == .pair e e') = true) :
    ∃ x x', c = .pair x x' ∧ (x == e) = true ∧ (x' == e') = true := by
  cases c with
  | same x => exact absurd h (by simp [BEq.beq, JoinCondition.parts, List.beq])
  | pair x x' =>
      have hparts : ([x, x'] == [e, e']) = true := h
      simp only [List.cons_beq_cons, Bool.and_eq_true] at hparts
      exact ⟨x, x', rfl, hparts.1, hparts.2.1⟩

theorem singleton_same_of_beq {cs : List (JoinCondition Formula)} {e : Formula}
    (h : (cs == [.same e]) = true) : ∃ x, cs = [.same x] ∧ (x == e) = true := by
  match cs with
  | [] => exact absurd h (by simp)
  | [.same x] =>
      have hparts : ([x] == [e]) = true := by
        rw [List.cons_beq_cons, Bool.and_eq_true] at h
        exact h.1
      exact ⟨x, rfl, by simpa using hparts⟩
  | .pair x x' :: _ =>
      rw [List.cons_beq_cons, Bool.and_eq_true] at h
      exact absurd h.1 (by simp [BEq.beq, JoinCondition.parts, List.beq])
  | _ :: _ :: _ =>
      rw [List.cons_beq_cons, Bool.and_eq_true] at h
      exact absurd h.2 (by simp)

/-- What becomes of the shifted condition of a fork that a round takes. The sub-query that computes
the fork is joined on it exactly if it is not the base. It is the base only in a round that merges
all window calls into it, or in a query without dimensions. A fork without dimensions of its own is
joined on the constant alone. -/
theorem lookup_joined {q : Query} {a b : Names} {p : Plan} {qs : List Query}
    (hplan : plan q a = (some p, b)) (hcompatible : p.compatible = true)
    (hqs : p.queries q = .ok qs) {s : Site} (hs : s ∈ taken q) {e e' : Formula}
    (hpair : .pair e e' ∈ s.fork.joining) :
    ∃ base others c, p.masks = base :: others ∧ qs.getLast? = some c ∧
      (∃ m ∈ p.masks, ∃ n, s.cut n ∈ m.cuts) ∧
      ∀ m ∈ p.masks, ∀ n, s.cut n ∈ m.cuts →
        (forkDims q s.fork.lod ≠ [] →
          (JoinedOn c base m e e' ↔ m.isBase = false) ∧
          (m.isBase = true →
            ((prioritized (sites q)).1 = true ∧ others = []) ∨ realDimensions q = [])) ∧
        (forkDims q s.fork.lod = [] → m.isBase = false →
          ∃ x, (x == Formula.int 1) = true ∧ m.joining = [.same (inColumns m.extras x)]) := by
  obtain ⟨base, others, hmasks, hbase, hothers, habsorbs⟩ := plan_shape hplan
  obtain ⟨subs, c, rfl, hround⟩ := queries_spec hqs
  obtain ⟨base', others', hmasks', -, -, hjoinOn⟩ := hround.cropped
  obtain ⟨rfl, rfl⟩ := List.cons.inj (hmasks.symm.trans hmasks')
  obtain ⟨-, hplanned⟩ := plan_spec hplan
  obtain ⟨forks, hcuts⟩ := hplanned.cuts
  rw [hcompatible, if_pos rfl] at hjoinOn
  have hcase : ∀ m ∈ p.masks, m.isBase = false → m ∈ others := by
    intro m hm hnot
    rcases List.mem_cons.mp (hmasks ▸ hm) with rfl | hm
    · exact absurd (hbase.symm.trans hnot) (by simp)
    · exact hm
  refine ⟨base, others, c, hmasks, by simp, ?_, fun m hm n hcut => ?_⟩
  · obtain ⟨n, hn⟩ := hcuts.site s hs
    obtain ⟨m, hm, hcut⟩ := List.mem_flatMap.mp (hcuts.fork_mem _ hn)
    exact ⟨m, hm, n, hcut⟩
  refine ⟨fun hdims => ⟨⟨?_, ?_⟩, ?_⟩, ?_⟩
  · rintro ⟨j, hj, ⟨t, hjoin⟩, -⟩
    obtain ⟨m', hm', hfor⟩ := List.mem_filterMap.mp (hjoinOn ▸ hj)
    obtain ⟨t', hjoin'⟩ := join_of_joinFor? hfor
    have hid : m'.queryId = m.queryId :=
      (JoinSpec.mk.inj (Option.some.inj (hjoin'.symm.trans hjoin))).2.1
    have hmem : m' ∈ p.masks := hmasks ▸ List.mem_cons_of_mem base hm'
    obtain rfl := List.inj_on_of_nodup_map hplanned.masks.nodup hmem hm hid
    exact forkMask_isBase (hothers m' hm')
  · intro hnot
    have hmem := hothers m (hcase m hm hnot)
    obtain ⟨c', hc', hjoining⟩ := forkMask_condition hmem hs hcut hdims hpair
    obtain ⟨x, x', rfl, hx, hx'⟩ := pair_of_beq hc'
    obtain ⟨j, hj, hjoin, hnode⟩ :=
      joinFor?_of_condition base hjoining (forkMask_joining hmem hs hcut).1
    refine ⟨j, ?_, hjoin, x, x', hx, hx', hnode⟩
    rw [hjoinOn]
    exact List.mem_filterMap.mpr ⟨m, hcase m hm hnot, hj⟩
  · intro hisBase
    rcases List.mem_cons.mp (hmasks ▸ hm) with rfl | hm
    · exact habsorbs s hs hdims e e' hpair n hcut
    · exact absurd ((forkMask_isBase (hothers m hm)).symm.trans hisBase) (by simp)
  · intro hdims hnot
    have hmem := hothers m (hcase m hm hnot)
    obtain ⟨-, conditions, hsame, hjoining⟩ := forkMask_joining hmem hs hcut
    rw [joining_signatureOf_nil hdims] at hsame
    obtain ⟨x, rfl, hx⟩ := singleton_same_of_beq hsame
    exact ⟨x, hx, hjoining⟩

/-! ## An example -/

/-- A figure of the day before, for each date. -/
def dayBefore (figure : Formula) : QuerySpec :=
  figureBy "date" (.call "ago" [figure, .field "date"])

/-- The first round over the query succeeds and takes a fork with a shifted condition. -/
def takesLookup (q : Query) : Bool :=
  match (plan q .start).1 with
  | some p =>
    p.compatible && (p.queries q).toOption.isSome &&
      (taken q).any fun s => s.fork.joining.any fun c => c.parts.length == 2
  | none => false

theorem exists_of_takesLookup {q : Query} (h : takesLookup q = true) :
    ∃ p b qs, plan q .start = (some p, b) ∧ p.compatible = true ∧ p.queries q = .ok qs ∧
      ∃ s ∈ taken q, ∃ e e', .pair e e' ∈ s.fork.joining := by
  rw [takesLookup] at h
  split at h
  next p hp =>
    simp only [Bool.and_eq_true, List.any_eq_true] at h
    obtain ⟨⟨hcompatible, hok⟩, s, hs, c, hc, hpair⟩ := h
    obtain ⟨qs, hqs, -⟩ := exists_eq_ok (p := fun _ => true)
      (show (p.queries q).toOption.any (fun _ => true) = true by simpa [Option.any_true] using hok)
    refine ⟨p, (plan q .start).2, qs, Prod.ext hp rfl, hcompatible, hqs, s, hs, ?_⟩
    cases c with
    | same e => exact absurd hpair (by simp [JoinCondition.parts])
    | pair e e' => exact ⟨e, e', hc⟩
  next => exact absurd h (by simp)

theorem lookup_joined_dayBefore :
    ∃ q p b qs c base m e e', (dayBefore sumOfSales).compile orders .default = .ok q ∧
      plan q .start = (some p, b) ∧ p.queries q = .ok qs ∧ qs.getLast? = some c ∧
      m ∈ p.masks ∧ JoinedOn c base m e e' := by
  have hok : (((dayBefore sumOfSales).compile orders .default).toOption.any fun q =>
      takesLookup q && !(prioritized (sites q)).1 && !(realDimensions q).isEmpty &&
        (taken q).all fun s => !(forkDims q s.fork.lod).isEmpty) = true := by decide +kernel
  obtain ⟨q, hq, htest⟩ := exists_eq_ok hok
  simp only [Bool.and_eq_true, Bool.not_eq_true', List.all_eq_true, List.isEmpty_eq_false_iff]
    at htest
  obtain ⟨⟨⟨htakes, hwindow⟩, hreal⟩, hdims⟩ := htest
  obtain ⟨p, b, qs, hplan, hcompatible, hqs, s, hs, e, e', hpair⟩ := exists_of_takesLookup htakes
  obtain ⟨base, others, c, -, hc, ⟨m, hm, n, hcut⟩, hall⟩ :=
    lookup_joined hplan hcompatible hqs hs hpair
  obtain ⟨hjoined, hcause⟩ := (hall m hm n hcut).1 (hdims s hs)
  have hnot : m.isBase = false := by
    rw [← Bool.not_eq_true]
    intro hbase
    rcases hcause hbase with ⟨hflag, -⟩ | hnil
    · exact absurd (hwindow.symm.trans hflag) (by simp)
    · exact hreal hnil
  exact ⟨q, p, b, qs, c, base, m, e, e', hq, hplan, hqs, hc, hm, hjoined.mpr hnot⟩

/-- The rank of the day before is read without a join: its shifted date is lost. -/
theorem lookup_join_lost :
    ∃ q p b qs s e e' c,
      (dayBefore (.window "rank" [sumOfSales] .total [] NameSet.empty)).compile orders .default =
        .ok q ∧
      plan q .start = (some p, b) ∧ p.compatible = true ∧ p.queries q = .ok qs ∧ s ∈ taken q ∧
      .pair e e' ∈ s.fork.joining ∧ qs.getLast? = some c ∧ c.joinOn = [] := by
  have hok : (((dayBefore (.window "rank" [sumOfSales] .total [] NameSet.empty)).compile orders
      .default).toOption.any fun q => takesLookup q && decide (∀ p ∈ (plan q .start).1,
        ∀ qs ∈ (p.queries q).toOption, ∀ c ∈ qs.getLast?, c.joinOn.length = 0)) = true := by
    decide +kernel
  obtain ⟨q, hq, htest⟩ := exists_eq_ok hok
  rw [Bool.and_eq_true, decide_eq_true_eq] at htest
  obtain ⟨p, b, qs, hplan, hcompatible, hqs, s, hs, e, e', hpair⟩ :=
    exists_of_takesLookup htest.1
  obtain ⟨subs, c, rfl, -⟩ := queries_spec hqs
  have hjoinOn := htest.2 p (by rw [hplan]; rfl) (subs ++ [c]) (by rw [hqs]; rfl) c (by simp)
  exact ⟨q, p, b, _, s, e, e', c, hq, hplan, hcompatible, hqs, hs, hpair, by simp,
    List.length_eq_zero_iff.mp hjoinOn⟩

end FormulaSql.Split
