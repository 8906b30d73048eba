import FormulaSql.Proofs.Split.Names
import FormulaSql.Proofs.Split.Sites

/-!
# What the groups of a round are made of

A round draws everything it selects from the query it cuts: the dimensions and join conditions of a
group are nodes of its formulas, up to the constant that stands in for missing dimensions. Every
fork taken in the round is cut by some group, and every cut of a group is there for such a fork.
-/

namespace FormulaSql

/-! ## Nodes of a query -/

/-- The formula is a node of a selected expression, a dimension, a filter or an ordering. -/
def Query.HasNode (q : Query) (f : Formula) : Prop :=
  ∃ p, p ≠ .joinOn ∧ ∃ e ∈ q.part p, f ∈ e.formula.nodes

theorem Query.HasNode.of_node {q : Query} {f g : Formula} (hf : q.HasNode f) (hg : g ∈ f.nodes) :
    q.HasNode g := by
  obtain ⟨p, hp, e, he, hfe⟩ := hf
  exact ⟨p, hp, e, he, Formula.mem_nodes_trans hfe hg⟩

theorem Query.hasNode_dimension {q : Query} {d : Formula} (h : d ∈ q.dimensions) :
    q.HasNode d := by
  obtain ⟨e, he, rfl⟩ := List.mem_map.mp h
  exact ⟨.groupBy, by simp, e, he, Formula.self_mem_nodes _⟩

theorem Part.ne_joinOn_of_splittable {p : Part} (h : p ∈ Part.splittable) : p ≠ .joinOn := by
  rintro rfl
  simp [Part.splittable] at h

theorem mem_foldl_pushUnique {fs ds : List Formula} {d : Formula}
    (h : d ∈ ds.foldl pushUnique fs) : d ∈ fs ∨ d ∈ ds := by
  induction ds generalizing fs with
  | nil => exact Or.inl h
  | cons c ds ih =>
      rcases ih h with h | h
      · rw [pushUnique] at h
        split at h
        · exact Or.inl h
        · rcases List.mem_append.mp h with h | h
          · exact Or.inl h
          · exact Or.inr (List.mem_singleton.mp h ▸ List.mem_cons_self)
      · exact Or.inr (List.mem_cons_of_mem c h)

theorem Lod.mem_resolve {outer : List Formula} {lod : Lod Formula} {d : Formula}
    (h : d ∈ lod.resolve outer) : d ∈ outer ∨ d ∈ lod.dims := by
  cases lod with
  | inherited | defaultAggregation => exact Or.inl h
  | fixed ds => exact Or.inr ((mem_foldl_pushUnique h).resolve_left List.not_mem_nil)
  | including ds => exact mem_foldl_pushUnique h
  | excluding ds => exact Or.inl (List.mem_filter.mp h).1

namespace Split

/-- The forks that the next round over a query takes. -/
def taken (q : Query) : List Site := (prioritized (sites q)).2

/-- A node of the query, or the constant that stands in for missing dimensions. -/
def Drawn (q : Query) (f : Formula) : Prop := f = .int 1 ∨ q.HasNode f

theorem mem_sites_of_taken {q : Query} {s : Site} (h : s ∈ taken q) : s ∈ sites q :=
  mem_of_mem_prioritized h

theorem hasNode_fork_child {q : Query} {s : Site} (hs : s ∈ sites q) {g : Formula}
    (hg : g ∈ (Kind.fork s.fork).children) : q.HasNode g := by
  obtain ⟨hp, e, he, hfork, -⟩ := mem_sites_iff.mp hs
  obtain ⟨f, hf, hkind⟩ := Formula.at?_of_mem_outermostForks hfork
  have hchild : g ∈ f.children := by
    rw [Formula.children, Formula.kind_of_fork? hkind]
    exact hg
  exact ⟨s.part, Part.ne_joinOn_of_splittable hp, e, List.mem_of_getElem? he,
    Formula.mem_nodes_trans (Formula.mem_nodes_of_at? hf)
      (Formula.mem_nodes_of_child hchild (Formula.self_mem_nodes g))⟩

section ForkParts

variable {q : Query} {s : Site} {g : Formula}

theorem hasNode_joining (hs : s ∈ sites q) {c : JoinCondition Formula} (hc : c ∈ s.fork.joining)
    (hg : g ∈ c.parts) : q.HasNode g := by
  refine hasNode_fork_child hs ?_
  simp only [Kind.children, List.cons_append, List.append_assoc, List.mem_cons, List.mem_append,
    List.mem_flatMap]
  exact Or.inr (Or.inl ⟨c, hc, hg⟩)

theorem hasNode_lodDim (hs : s ∈ sites q) (hg : g ∈ s.fork.lod.dims) : q.HasNode g := by
  refine hasNode_fork_child hs ?_
  simp only [Kind.children, List.cons_append, List.append_assoc, List.mem_cons, List.mem_append]
  exact Or.inr (Or.inr (Or.inl hg))

theorem hasNode_shift (hs : s ∈ sites q) {t : FilterShift Formula} (ht : t ∈ s.fork.shifts)
    (hg : g ∈ t.parts) : q.HasNode g := by
  refine hasNode_fork_child hs ?_
  simp only [Kind.children, List.cons_append, List.append_assoc, List.mem_cons, List.mem_append,
    List.mem_flatMap]
  exact Or.inr (Or.inr (Or.inr ⟨t, ht, hg⟩))

theorem hasNode_forkDim (hs : s ∈ sites q) (hg : g ∈ forkDims q s.fork.lod) : q.HasNode g := by
  have hresolve : g ∈ s.fork.lod.resolve q.dimensions ∨ g ∈ s.fork.lod.dims := by
    unfold forkDims at hg
    split at hg
    next dims hlod => exact Or.inr (hlod ▸ hg)
    next => exact Or.inl hg
  rcases hresolve with h | h
  · rcases Lod.mem_resolve h with h | h
    · exact Query.hasNode_dimension h
    · exact hasNode_lodDim hs h
  · exact hasNode_lodDim hs h

/-! ## Signatures -/

theorem drawn_signature_dim (hs : s ∈ sites q) (hg : g ∈ (signatureOf q s).dims) : Drawn q g := by
  simp only [signatureOf] at hg
  split at hg
  · exact Or.inl (List.mem_singleton.mp hg)
  · exact Or.inr (hasNode_forkDim hs hg)

theorem drawn_signature_joining (hs : s ∈ sites q) {c : JoinCondition Formula}
    (hc : c ∈ (signatureOf q s).joining) (hg : g ∈ c.parts) : Drawn q g := by
  simp only [signatureOf] at hc
  split at hc
  · obtain rfl := List.mem_singleton.mp hc
    exact Or.inl (List.mem_singleton.mp hg)
  · exact Or.inr (hasNode_joining hs hc hg)

end ForkParts

theorem sameMembers_refl {α : Type} [BEq α] [ReflBEq α] (xs : List α) :
    sameMembers xs xs = true := by
  simp only [sameMembers, Bool.and_self, List.all_eq_true]
  exact fun x hx => List.contains_iff_exists_mem_beq.mpr ⟨x, hx, BEq.rfl⟩

theorem Signature.agrees_refl (sig : Signature) : sig.agrees sig = true := by
  simp [agrees, sameMembers_refl]

/-! ## Groups -/

/-- The cut at a site, under the name of its column. -/
def Site.cut (s : Site) (aliasName : String) : Cut :=
  ⟨s.part, s.index, s.path, s.path ++ [0], aliasName⟩

/-- A group that forks among `found` were put into while the names from `a` to `b` were taken. -/
structure GroupOf (q : Query) (found : List Site) (a b : Names) (g : ForkGroup) : Prop where
  /-- It was made for the first fork in it. -/
  origin : ∃ s ∈ found, g.signature = signatureOf q s ∧ g.shifts = s.fork.shifts
  extra : ∀ x ∈ g.extras, FreshColumn a b x.aliasName ∧
    (x.expr ∈ g.signature.dims ∨ ∃ c ∈ g.signature.joining, x.expr ∈ c.parts)
  column : ∀ c ∈ g.columns, FreshColumn a b c.2
  cut : ∀ c ∈ g.cuts, FreshColumn a b c.aliasName ∧
    ∃ s ∈ found, g.signature.agrees (signatureOf q s) = true ∧ c = s.cut c.aliasName

theorem GroupOf.widen {q : Query} {found : List Site} {a b c : Names} {g : ForkGroup}
    (hbc : b.Le c) (h : GroupOf q found a b g) : GroupOf q found a c g where
  origin := h.origin
  extra x hx := ⟨(h.extra x hx).1.widen (Names.Le.refl a) hbc, (h.extra x hx).2⟩
  column p hp := (h.column p hp).widen (Names.Le.refl a) hbc
  cut p hp := ⟨(h.cut p hp).1.widen (Names.Le.refl a) hbc, (h.cut p hp).2⟩

theorem selectAll_ensures (ids : NameSet) (isGroupBy : Formula → Bool) (fs : List Formula) :
    Naming.Ensures (selectAll ids isGroupBy fs) fun a b xs =>
      ∀ x ∈ xs, FreshColumn a b x.aliasName ∧ x.expr ∈ fs := by
  have hone : ∀ f ∈ fs, Naming.Ensures (do return (⟨← freshColumn, f, ids, isGroupBy f⟩ : Extra))
      fun a b x => FreshColumn a b x.aliasName ∧ x.expr = f :=
    fun f _ a => ⟨(freshColumn_ensures a).1, (freshColumn_ensures a).2, rfl⟩
  have hwide : ∀ f : Formula, Naming.Wide fun a b (x : Extra) =>
      FreshColumn a b x.aliasName ∧ x.expr = f :=
    fun _ _ _ _ _ _ hab hcd h => ⟨h.1.widen hab hcd, h.2⟩
  refine (Naming.ensures_mapM hwide hone).imp fun a b xs hxs x hx => ?_
  obtain ⟨f, hf, hfresh, rfl⟩ := forall₂_exists_left hxs hx
  exact ⟨hfresh, hf⟩

section Place

variable {q : Query} {found : List Site} {s : Site} {a b : Names}

theorem newGroup_spec (hs : s ∈ found) (hab : a.Le b) :
    b.Le (newGroup q s (signatureOf q s) b).2 ∧
      GroupOf q found a (newGroup q s (signatureOf q s) b).2
        (newGroup q s (signatureOf q s) b).1 ∧
      (newGroup q s (signatureOf q s) b).1.signature = signatureOf q s := by
  obtain ⟨hle, hdims⟩ := selectAll_ensures (sourceIds q) (fun d => !d.isConstantExpression)
    (signatureOf q s).dims b
  obtain ⟨hle', hjoined⟩ := selectAll_ensures (sourceIds q) (fun _ => false)
    (((signatureOf q s).joining.flatMap JoinCondition.parts).filter
      Formula.isAggregateExpression) _
  refine ⟨hle.trans hle', ⟨⟨s, hs, rfl, rfl⟩, ?_, ?_, ?_⟩, rfl⟩
  · intro x hx
    rcases List.mem_append.mp hx with hx | hx
    · exact ⟨(hdims x hx).1.widen hab hle', Or.inl (hdims x hx).2⟩
    · obtain ⟨hfresh, hexpr⟩ := hjoined x hx
      obtain ⟨c, hc, hxc⟩ := List.mem_flatMap.mp (List.mem_filter.mp hexpr).1
      exact ⟨hfresh.widen (hab.trans hle) (Names.Le.refl _), Or.inr ⟨c, hc, hxc⟩⟩
  · exact fun c hc => absurd hc List.not_mem_nil
  · exact fun c hc => absurd hc List.not_mem_nil

theorem addFork_spec {g : ForkGroup} (hs : s ∈ found) (hab : a.Le b) (hg : GroupOf q found a b g)
    (hagrees : g.signature.agrees (signatureOf q s) = true) :
    b.Le (addFork g s b).2 ∧ GroupOf q found a (addFork g s b).2 (addFork g s b).1 ∧
      ∃ n, (addFork g s b).1.cuts = g.cuts ++ [s.cut n] := by
  have hcut : ∀ {c : Names} {n : String}, b.Le c → FreshColumn a c n → ∀ p ∈ g.cuts ++ [s.cut n],
      FreshColumn a c p.aliasName ∧
        ∃ s' ∈ found, g.signature.agrees (signatureOf q s') = true ∧ p = s'.cut p.aliasName := by
    intro c n hbc hn p hp
    rcases List.mem_append.mp hp with hp | hp
    · exact (hg.widen hbc).cut p hp
    · obtain rfl := List.mem_singleton.mp hp
      exact ⟨hn, s, hs, hagrees, rfl⟩
  cases hfind : g.columns.find? fun c => c.1 == s.fork.result with
  | some known =>
      have heq : addFork g s b = ({ g with cuts := g.cuts ++ [s.cut known.2] }, b) := by
        simp only [addFork, hfind]
        rfl
      have hn : FreshColumn a b known.2 := hg.column _ (List.mem_of_find?_eq_some hfind)
      rw [heq]
      exact ⟨Names.Le.refl b, ⟨hg.origin, hg.extra, hg.column, hcut (Names.Le.refl b) hn⟩,
        known.2, rfl⟩
  | none =>
      have heq : addFork g s b =
          ({ g with
             columns := g.columns ++ [(s.fork.result, (freshColumn b).1)]
             cuts := g.cuts ++ [s.cut (freshColumn b).1] }, (freshColumn b).2) := by
        simp only [addFork, hfind]
        rfl
      obtain ⟨hle, hfresh⟩ := freshColumn_ensures b
      have hn : FreshColumn a (freshColumn b).2 (freshColumn b).1 :=
        hfresh.widen hab (Names.Le.refl _)
      have hwide := hg.widen hle
      rw [heq]
      refine ⟨hle, ⟨hwide.origin, hwide.extra, ?_, hcut hle hn⟩, _, rfl⟩
      intro c hc
      rcases List.mem_append.mp hc with hc | hc
      · exact hwide.column c hc
      · obtain rfl := List.mem_singleton.mp hc
        exact hn

/-- Placing a fork adds its cut and keeps the cuts that are there. -/
theorem placeFork_spec {gs : List ForkGroup} (hs : s ∈ found) (hab : a.Le b)
    (hgs : ∀ g ∈ gs, GroupOf q found a b g) :
    b.Le (placeFork q s (signatureOf q s) gs b).2 ∧
      (∀ g ∈ (placeFork q s (signatureOf q s) gs b).1,
        GroupOf q found a (placeFork q s (signatureOf q s) gs b).2 g) ∧
      ∃ n, ∀ c, c ∈ gs.flatMap ForkGroup.cuts ∨ c = s.cut n →
        c ∈ (placeFork q s (signatureOf q s) gs b).1.flatMap ForkGroup.cuts := by
  induction gs with
  | nil =>
      obtain ⟨hle, hnew, hsig⟩ := newGroup_spec (q := q) hs hab
      obtain ⟨hle', hadd, n, hn⟩ := addFork_spec hs (hab.trans hle) hnew
        (hsig ▸ Signature.agrees_refl _)
      refine ⟨hle.trans hle', ?_, n, ?_⟩
      · exact fun g hg => List.mem_singleton.mp hg ▸ hadd
      · rintro c (hc | rfl)
        · exact absurd hc List.not_mem_nil
        · have hmem : s.cut n ∈ (addFork (newGroup q s (signatureOf q s) b).1 s
              (newGroup q s (signatureOf q s) b).2).1.cuts := by
            rw [hn]
            exact List.mem_append_right _ (List.mem_singleton.mpr rfl)
          exact List.mem_flatMap.mpr ⟨_, List.mem_singleton.mpr rfl, hmem⟩
  | cons g gs ih =>
      unfold placeFork
      split
      · next hagrees =>
        obtain ⟨hle, hadd, n, hn⟩ := addFork_spec hs hab (hgs g List.mem_cons_self) hagrees
        refine ⟨hle, ?_, n, ?_⟩
        · intro g' hg'
          rcases List.mem_cons.mp hg' with rfl | hg'
          · exact hadd
          · exact (hgs g' (List.mem_cons_of_mem g hg')).widen hle
        · intro c hc
          change c ∈ (addFork g s b).1.cuts ++ gs.flatMap ForkGroup.cuts
          rw [List.flatMap_cons] at hc
          rw [hn]
          simp only [List.mem_append, List.mem_singleton] at hc ⊢
          tauto
      · obtain ⟨hle, hrest, n, hn⟩ := ih fun g' hg' => hgs g' (List.mem_cons_of_mem g hg')
        refine ⟨hle, ?_, n, ?_⟩
        · intro g' hg'
          rcases List.mem_cons.mp hg' with rfl | hg'
          · exact (hgs _ List.mem_cons_self).widen hle
          · exact hrest g' hg'
        · intro c hc
          change c ∈ g.cuts ++ (placeFork q s (signatureOf q s) gs b).1.flatMap ForkGroup.cuts
          rw [List.flatMap_cons, List.mem_append, or_assoc] at hc
          exact List.mem_append.mpr (hc.imp id (hn c))

end Place

/-- Every fork that was found is cut by some group. -/
theorem forkGroups_spec (q : Query) (found : List Site) (a : Names) :
    a.Le (forkGroups q found a).2 ∧
      (∀ g ∈ (forkGroups q found a).1, GroupOf q found a (forkGroups q found a).2 g) ∧
      ∀ s ∈ found, ∃ n, s.cut n ∈ (forkGroups q found a).1.flatMap ForkGroup.cuts := by
  let I (done : List Site) (a b : Names) (gs : List ForkGroup) : Prop :=
    (∀ g ∈ gs, GroupOf q found a b g) ∧ ∀ s ∈ done, ∃ n, s.cut n ∈ gs.flatMap ForkGroup.cuts
  have hstart : I [] a a [] :=
    ⟨fun g hg => absurd hg List.not_mem_nil, fun s hs => absurd hs List.not_mem_nil⟩
  refine Naming.ensures_foldlM ?_ [] (Names.Le.refl a) hstart
  rintro done s hs a b gs hab ⟨hgs, hdone⟩
  obtain ⟨hle, hplaced, n, hn⟩ := placeFork_spec (q := q) hs hab hgs
  refine ⟨hle, hplaced, fun s' hs' => ?_⟩
  rcases List.mem_append.mp hs' with hs' | hs'
  · obtain ⟨m, hm⟩ := hdone s' hs'
    exact ⟨m, hn _ (Or.inl hm)⟩
  · obtain rfl := List.mem_singleton.mp hs'
    exact ⟨n, hn _ (Or.inr rfl)⟩

end Split

end FormulaSql
