import FormulaSql.Proofs.Split.Coverage

/-!
# What columns for dimensions leave over

Filters get columns for the dimensions in them, from the leaves up. A dimension is recognized only
as long as nothing below it has changed. So one that holds a smaller dimension is not, and what
else it mentions stays.
-/

namespace FormulaSql

namespace Formula

/-! ## Bare fields -/

section Bare

variable {dim : Formula → Prop} {f : Formula} {n : String}

/-- Some node of the formula is a dimension. -/
def Holds (dim : Formula → Prop) (f : Formula) : Prop := ∃ g ∈ f.nodes, dim g

/-- Some node below the formula is a dimension. -/
def HoldsBelow (dim : Formula → Prop) (f : Formula) : Prop := ∃ c ∈ f.children, c.Holds dim

/-- The field stands in the formula, and every dimension around it holds a smaller one. -/
def Bare (dim : Formula → Prop) (f : Formula) (n : String) : Prop :=
  ∃ p, f.fieldAt? p = some n ∧ ∀ a h, a <+: p → f.at? a = some h → dim h → h.HoldsBelow dim

theorem holds_iff : f.Holds dim ↔ dim f ∨ f.HoldsBelow dim :=
  exists_mem_nodes_iff

theorem bare_iff :
    f.Bare dim n ↔
      (dim f → f.HoldsBelow dim) ∧ (f.field? = some n ∨ ∃ c ∈ f.children, c.Bare dim n) := by
  constructor
  · rintro ⟨p, hp, habove⟩
    refine ⟨habove [] f List.nil_prefix rfl, ?_⟩
    cases p with
    | nil => exact Or.inl hp
    | cons i p =>
        obtain ⟨c, hc, hp⟩ := fieldAt?_cons.mp hp
        refine Or.inr ⟨c, List.mem_of_getElem? hc, p, hp, fun a h ha hh => ?_⟩
        refine habove (i :: a) h (List.cons_prefix_cons.mpr ⟨rfl, ha⟩) ?_
        exact (at?_cons_of_child a hc).trans hh
  · rintro ⟨hself, hn | ⟨c, hc, p, hp, habove⟩⟩
    · refine ⟨[], hn, fun a h ha hh => ?_⟩
      obtain rfl := List.prefix_nil.mp ha
      exact Option.some.inj hh ▸ hself
    · obtain ⟨i, hi⟩ := List.mem_iff_getElem?.mp hc
      refine ⟨i :: p, fieldAt?_cons.mpr ⟨c, hi, hp⟩, fun a h ha hh => ?_⟩
      cases a with
      | nil => exact Option.some.inj hh ▸ hself
      | cons j a =>
          obtain ⟨rfl, hap⟩ := List.cons_prefix_cons.mp ha
          exact habove a h hap ((at?_cons_of_child a hi).symm.trans hh)

theorem Bare.mentions (h : f.Bare dim n) : f.Mentions n := by
  obtain ⟨p, hp, -⟩ := h
  exact mentions_iff_fieldAt?.mpr ⟨p, hp⟩

/-- A field that no dimension mentions is bare. -/
theorem bare_of_mentions (hdim : ∀ g ∈ f.nodes, dim g → ¬ g.Mentions n) (h : f.Mentions n) :
    f.Bare dim n := by
  obtain ⟨p, hp⟩ := mentions_iff_fieldAt?.mp h
  refine ⟨p, hp, fun a g ⟨t, ht⟩ hg hdimg => absurd ?_ (hdim g (mem_nodes_of_at? hg) hdimg)⟩
  rw [← ht, fieldAt?, at?_append, hg] at hp
  exact mentions_iff_fieldAt?.mpr ⟨t, hp⟩

theorem bare_iff_mentions (hdim : ¬ f.Holds dim) : f.Bare dim n ↔ f.Mentions n :=
  ⟨Bare.mentions, bare_of_mentions fun g hg hdimg => absurd ⟨g, hg, hdimg⟩ hdim⟩

end Bare

/-! ## Fields of a transformed formula -/

section Transform

variable (rule : Rule) (above : List Formula) {f : Formula} {n : String}

theorem forall₂_of_beq {fs gs : List Formula} (h : (fs == gs) = true) :
    List.Forall₂ (fun f g => f.same g = true) fs gs := by
  induction fs generalizing gs with
  | nil =>
      cases gs with
      | nil => exact .nil
      | cons g gs => cases h
  | cons f fs ih =>
      cases gs with
      | nil => cases h
      | cons g gs =>
          rw [List.cons_beq_cons, Bool.and_eq_true] at h
          exact .cons h.1 (ih h.2)

theorem mentions_iff_of_same {g : Formula} (h : f.same g = true) : f.Mentions n ↔ g.Mentions n :=
  ⟨fun hf => hf.of_same h, fun hg => hg.of_same (same_symm h)⟩

theorem mentions_transformChild_iff :
    (transformChild rule above f).Mentions n ↔
      ((rule above (f.transformBelow rule above)).getD (f.transformBelow rule above)).Mentions n
      := by
  rw [transformChild]
  split
  next hsame => exact (mentions_iff_of_same hsame).symm
  next => exact Iff.rfl

theorem mentions_transform_iff :
    (f.transform rule).Mentions n ↔ (transformChild rule [] f).Mentions n := by
  rw [mentions_transformChild_iff, transform]
  split
  next r hr =>
    rw [hr, Option.getD_some]
    split
    next hsame => exact (mentions_iff_of_same hsame).symm
    next => exact Iff.rfl
  next hr => rw [hr, Option.getD_none]

theorem mentions_transformBelow_iff :
    (f.transformBelow rule above).Mentions n ↔
      f.field? = some n ∨
        ∃ c ∈ f.children, (transformChild rule (above ++ [f]) c).Mentions n := by
  rw [transformBelow_eq]
  dsimp only
  have hmap : (∃ d ∈ f.children.map (transformChild rule (above ++ [f])), d.Mentions n) ↔
      ∃ c ∈ f.children, (transformChild rule (above ++ [f]) c).Mentions n := by
    simp only [List.mem_map, exists_exists_and_eq_and]
  split
  next hsame =>
    have hcs := forall₂_of_beq hsame
    rw [mentions_iff, ← hmap]
    refine or_congr_right ⟨?_, ?_⟩
    · rintro ⟨c, hc, hn⟩
      obtain ⟨d, hd, hdc⟩ := forall₂_exists_left hcs hc
      exact ⟨d, hd, hn.of_same (same_symm hdc)⟩
    · rintro ⟨d, hd, hn⟩
      obtain ⟨c, hc, hdc⟩ := forall₂_exists_right hcs hd
      exact ⟨c, hc, hn.of_same hdc⟩
  next =>
    rw [mentions_iff, field?_withChildren, children_withChildren f _ (List.length_map _), hmap]

end Transform

end Formula

namespace Split

/-! ## Columns for dimensions -/

/-- The expression has a column. -/
def HasColumn (alias? : Formula → Option String) (f : Formula) : Prop := ∃ n, alias? f = some n

/-- The rule that puts a column wherever an expression has one. -/
def columnRule (alias? : Formula → Option String) : Rule := fun _ g => (alias? g).map (columnAt g)

theorem withColumns_eq_transform (alias? : Formula → Option String) (f : Formula) :
    withColumns alias? f = f.transform (columnRule alias?) := rfl

section WithColumns

variable {alias? : Formula → Option String} {f : Formula}

theorem alias?_eq_none (hf : ¬ HasColumn alias? f) : alias? f = none :=
  Option.eq_none_iff_forall_ne_some.mpr fun n hn => hf ⟨n, hn⟩

/-- Without dimensions below it a node stays. -/
theorem transformBelow_eq_self (hf : ¬ f.HoldsBelow (HasColumn alias?)) (above : List Formula) :
    f.transformBelow (columnRule alias?) above = f := by
  induction f using Formula.induction_children generalizing above with
  | step f ih =>
      have hchild : ∀ c ∈ f.children,
          Formula.transformChild (columnRule alias?) (above ++ [f]) c = c := by
        intro c hc
        have hnone : ¬ c.Holds (HasColumn alias?) := fun h => hf ⟨c, hc, h⟩
        rw [Formula.holds_iff, not_or] at hnone
        rw [Formula.transformChild, ih c hc hnone.2, columnRule, alias?_eq_none hnone.1]
        exact ite_self c
      have hcs : f.children.map (Formula.transformChild (columnRule alias?) (above ++ [f])) =
          f.children := by
        rw [List.map_congr_left hchild, List.map_id']
      rw [Formula.transformBelow_eq, hcs]
      exact if_pos BEq.rfl

theorem withColumns_eq_self (hf : ¬ f.Holds (HasColumn alias?)) : withColumns alias? f = f := by
  rw [Formula.holds_iff, not_or] at hf
  rw [withColumns_eq_transform, Formula.transform, transformBelow_eq_self hf.2, columnRule,
    alias?_eq_none hf.1]
  rfl

/-- No expression with a column mentions a column. -/
def ColumnsFresh (alias? : Formula → Option String) : Prop :=
  ∀ f g m, HasColumn alias? f → alias? g = some m → ¬ f.Mentions m

section Fresh

variable (hfresh : ColumnsFresh alias?) (above : List Formula)

include hfresh

/-- A node that mentions a column below gets none itself. -/
theorem mentions_transformChild_of_column {g : Formula} {m n : String} (hm : alias? g = some m)
    (hbelow : (f.transformBelow (columnRule alias?) above).Mentions m) :
    (Formula.transformChild (columnRule alias?) above f).Mentions n ↔
      (f.transformBelow (columnRule alias?) above).Mentions n := by
  have hnone : alias? (f.transformBelow (columnRule alias?) above) = none :=
    alias?_eq_none fun hcolumn => hfresh _ g m hcolumn hm hbelow
  rw [Formula.mentions_transformChild_iff]
  conv_lhs => rw [columnRule, hnone]
  rfl

/-- Where there is a dimension, there is a column in the end. -/
theorem mentions_column_of_holds (hf : f.Holds (HasColumn alias?)) :
    ∃ g m, alias? g = some m ∧
      (Formula.transformChild (columnRule alias?) above f).Mentions m := by
  induction f using Formula.induction_children generalizing above with
  | step f ih =>
      by_cases hbelow : f.HoldsBelow (HasColumn alias?)
      · obtain ⟨c, hc, hholds⟩ := hbelow
        obtain ⟨g, m, hm, hmentions⟩ := ih c hc (above ++ [f]) hholds
        have hbelow : (f.transformBelow (columnRule alias?) above).Mentions m :=
          (Formula.mentions_transformBelow_iff _ above).mpr (Or.inr ⟨c, hc, hmentions⟩)
        exact ⟨g, m, hm, (mentions_transformChild_of_column hfresh above hm hbelow).mpr hbelow⟩
      · obtain ⟨m, hm⟩ := (Formula.holds_iff.mp hf).resolve_right hbelow
        refine ⟨f, m, hm, ?_⟩
        rw [Formula.mentions_transformChild_iff, transformBelow_eq_self hbelow, columnRule, hm]
        exact mentions_columnAt f m

theorem mentions_transformChild_of_holdsBelow (hf : f.HoldsBelow (HasColumn alias?)) {n : String} :
    (Formula.transformChild (columnRule alias?) above f).Mentions n ↔
      f.field? = some n ∨ ∃ c ∈ f.children,
        (Formula.transformChild (columnRule alias?) (above ++ [f]) c).Mentions n := by
  obtain ⟨c, hc, hholds⟩ := hf
  obtain ⟨g, m, hm, hmentions⟩ := mentions_column_of_holds hfresh (above ++ [f]) hholds
  have hbelow : (f.transformBelow (columnRule alias?) above).Mentions m :=
    (Formula.mentions_transformBelow_iff _ above).mpr (Or.inr ⟨c, hc, hmentions⟩)
  rw [mentions_transformChild_of_column hfresh above hm hbelow,
    Formula.mentions_transformBelow_iff]

/-- Bare fields stay, and all others are columns. -/
theorem mentions_transformChild_cases {n : String} :
    (f.Bare (HasColumn alias?) n →
        (Formula.transformChild (columnRule alias?) above f).Mentions n) ∧
      ((Formula.transformChild (columnRule alias?) above f).Mentions n →
        (∃ g, alias? g = some n) ∨ f.Bare (HasColumn alias?) n) := by
  induction f using Formula.induction_children generalizing above with
  | step f ih =>
      by_cases hbelow : f.HoldsBelow (HasColumn alias?)
      · rw [mentions_transformChild_of_holdsBelow hfresh above hbelow, Formula.bare_iff]
        constructor
        · rintro ⟨-, hn | ⟨c, hc, hbare⟩⟩
          · exact Or.inl hn
          · exact Or.inr ⟨c, hc, (ih c hc (above ++ [f])).1 hbare⟩
        · rintro (hn | ⟨c, hc, hmentions⟩)
          · exact Or.inr ⟨fun _ => hbelow, Or.inl hn⟩
          · refine ((ih c hc (above ++ [f])).2 hmentions).imp_right fun hbare => ?_
            exact ⟨fun _ => hbelow, Or.inr ⟨c, hc, hbare⟩⟩
      · rw [Formula.mentions_transformChild_iff, transformBelow_eq_self hbelow, columnRule]
        by_cases hself : HasColumn alias? f
        · obtain ⟨m, hm⟩ := hself
          rw [hm]
          refine ⟨fun hbare => absurd ((Formula.bare_iff.mp hbare).1 ⟨m, hm⟩) hbelow, fun hn => ?_⟩
          exact Or.inl ⟨f, hm.trans (congrArg some (Formula.mentions_field_iff.mp hn).symm)⟩
        · have hnone : ¬ f.Holds (HasColumn alias?) := fun h =>
            (Formula.holds_iff.mp h).elim hself hbelow
          rw [alias?_eq_none hself]
          exact ⟨Formula.Bare.mentions, fun hn => Or.inr ((Formula.bare_iff_mentions hnone).mpr hn)⟩

theorem mentions_withColumns_of_holds (hf : f.Holds (HasColumn alias?)) :
    ∃ g m, alias? g = some m ∧ (withColumns alias? f).Mentions m := by
  obtain ⟨g, m, hm, hmentions⟩ := mentions_column_of_holds hfresh [] hf
  exact ⟨g, m, hm, (Formula.mentions_transform_iff _).mpr hmentions⟩

theorem mentions_withColumns_of_bare {n : String} (h : f.Bare (HasColumn alias?) n) :
    (withColumns alias? f).Mentions n :=
  (Formula.mentions_transform_iff _).mpr ((mentions_transformChild_cases hfresh []).1 h)

theorem bare_of_mentions_withColumns {n : String} (h : (withColumns alias? f).Mentions n) :
    (∃ g, alias? g = some n) ∨ f.Bare (HasColumn alias?) n :=
  (mentions_transformChild_cases hfresh []).2 ((Formula.mentions_transform_iff _).mp h)

end Fresh

end WithColumns

/-! ## Cut formulas -/

/-- The formula is cut at some of its outermost forks and at all that these leave over. -/
structure CutAlong (f : Formula) (forks : List Path) (cuts : List Cut) : Prop where
  fork : ∀ path ∈ forks, ∃ fork, (path, fork) ∈ f.outermostForks
  cut : ∀ path, (∃ c ∈ cuts, c.outer = path) ↔ path ∈ forks ∨ path ∈ f.uncutPaths forks

section CutAlong

variable {f : Formula} {forks : List Path} {cuts : List Cut}

theorem CutAlong.cases (h : CutAlong f forks cuts) {c : Cut} (hc : c ∈ cuts) :
    f.Walks c.outer ∧ (c.outer ∈ forks ∨ ∀ path ∈ forks, ¬ c.outer <+: path) := by
  rcases (h.cut c.outer).mp ⟨c, hc, rfl⟩ with hfork | huncut
  · obtain ⟨fork, hmem⟩ := h.fork _ hfork
    exact ⟨Formula.walks_of_mem_outermostForks hmem, Or.inl hfork⟩
  · obtain ⟨t, ht, hwalks, hcuts⟩ := Formula.of_mem_uncutSearch huncut
    rw [List.nil_append] at ht
    exact ⟨ht ▸ hwalks, Or.inr hcuts⟩

/-- No cut is around a fork. -/
theorem CutAlong.eq_of_above (h : CutAlong f forks cuts) {c : Cut} (hc : c ∈ cuts) {path : Path}
    (hpath : path ∈ forks) (hpre : c.outer <+: path) : c.outer = path := by
  rcases (h.cases hc).2 with hfork | hnone
  · obtain ⟨fork, hmem⟩ := h.fork _ hfork
    obtain ⟨fork', hmem'⟩ := h.fork _ hpath
    exact Formula.eq_of_outermostFork_above hmem hmem' hpre
  · exact absurd hpre (hnone path hpath)

/-- No cut is in a blind spot or around it. -/
theorem CutAlong.beside (h : CutAlong f forks cuts) {a path : Path} {g : Formula} {j : Nat}
    (ha : f.at? a = some g) (hpath : path ∈ forks) (hpre : a <+: path) (hne : a ≠ path)
    (hj : g.kind.autonomousCount ≤ j) {c : Cut} (hc : c ∈ cuts) :
    ¬ c.outer <+: a ++ [j] ∧ ¬ a ++ [j] <+: c.outer := by
  have hbelow : ¬ a ++ [j] <+: c.outer := by
    rintro ⟨t, ht⟩
    have hwalks := (h.cases hc).1
    rw [← ht, List.append_assoc] at hwalks
    exact absurd (hwalks.index_lt ha) (Nat.not_lt.mpr hj)
  refine ⟨fun habove => ?_, hbelow⟩
  rcases List.prefix_concat_iff.mp habove with heq | habove
  · exact hbelow (heq ▸ List.prefix_refl _)
  · have heq := h.eq_of_above hc hpath (habove.trans hpre)
    exact hne (List.IsPrefix.eq_of_length_le hpre (heq ▸ habove.length_le))

variable {q : Query} {g : Formula} {dim : Formula → Prop} {n : String}

/-- A blind spot stays as it is. -/
theorem CutAlong.at?_blind (h : CutAlong f forks cuts) (hg : replaceCuts q cuts f = .ok g)
    {a path : Path} {x d : Formula} {j : Nat} (ha : f.at? a = some x) (hpath : path ∈ forks)
    (hpre : a <+: path) (hne : a ≠ path) (hj : x.kind.autonomousCount ≤ j)
    (hd : x.children[j]? = some d) (t : Path) : g.at? (a ++ j :: t) = d.at? t := by
  have hbeside := at?_replaceCuts hg fun c hc => h.beside ha hpath hpre hne hj hc
  have hspot : g.at? (a ++ [j]) = some d := by
    rw [hbeside, Formula.at?_append, ha]
    exact Formula.at?_cons_of_child [] hd
  rw [List.append_cons, Formula.at?_append, hspot]
  rfl

/-- Fields that are left over stand in blind spots. -/
theorem CutAlong.blind_of_bare (h : CutAlong f forks cuts) (hg : replaceCuts q cuts f = .ok g)
    (hn : ∀ c ∈ cuts, c.aliasName ≠ n) (hbare : g.Bare dim n) :
    ∃ d, f.Blind forks d ∧ d.Bare dim n := by
  obtain ⟨p, hp, habove⟩ := hbare
  have hout : ∀ c ∈ cuts, ¬ c.outer <+: p := by
    intro c hc hin
    obtain ⟨x, hx, hfield⟩ := Option.bind_eq_some_iff.mp hp
    obtain ⟨d, hd, -, hname⟩ := field?_replaceCuts hg ⟨c, hc, hin⟩ hx
    exact hn d hd (Option.some.inj (hname.symm.trans hfield))
  have hfield : f.fieldAt? p = some n := (fieldAt?_replaceCuts hg hout).symm.trans hp
  have hvalid : ∀ t, [] ++ t ∈ forks → (f.at? t).isSome = true := by
    intro t ht
    obtain ⟨fork, hmem⟩ := h.fork t ht
    obtain ⟨x, hx, -⟩ := Formula.at?_of_mem_outermostForks hmem
    rw [hx]
    rfl
  rcases Formula.fieldAt?_cases hvalid hfield with
    ⟨path, hpath, hin⟩ | ⟨u, hu, hin⟩ | ⟨a, x, j, t, rfl, ha, ⟨path, hpath, hpre, hne⟩, hj⟩
  · obtain ⟨c, hc, rfl⟩ := (h.cut path).mpr (Or.inl hpath)
    exact absurd hin (hout c hc)
  · obtain ⟨c, hc, rfl⟩ := (h.cut u).mpr (Or.inr hu)
    exact absurd hin (hout c hc)
  · obtain ⟨d, hd, ht⟩ : ∃ d, x.children[j]? = some d ∧ d.fieldAt? t = some n := by
      rw [Formula.fieldAt?, Formula.at?_append, ha] at hfield
      exact Formula.fieldAt?_cons.mp hfield
    refine ⟨d, ⟨a, x, j, ha, ⟨path, hpath, hpre, hne⟩, hj, hd⟩, t, ht, fun s k hs hk => ?_⟩
    refine habove (a ++ j :: s) k ?_ ((h.at?_blind hg ha hpath hpre hne hj hd s).trans hk)
    exact (List.prefix_append_right_inj a).mpr (List.cons_prefix_cons.mpr ⟨rfl, hs⟩)

/-- Fields in blind spots are left over. -/
theorem CutAlong.bare_of_blind (h : CutAlong f forks cuts) (hg : replaceCuts q cuts f = .ok g)
    (hdim : ∀ c ∈ cuts, ∀ k, dim k → ¬ k.Mentions c.aliasName) {d : Formula}
    (hblind : f.Blind forks d) (hbare : d.Bare dim n) : g.Bare dim n := by
  obtain ⟨a, x, j, ha, ⟨path, hpath, hpre, hne⟩, hj, hd⟩ := hblind
  obtain ⟨t, ht, habove⟩ := hbare
  have hspot := h.at?_blind hg ha hpath hpre hne hj hd
  refine ⟨a ++ j :: t, by rw [Formula.fieldAt?, hspot]; exact ht, fun s k hs hk hdimk => ?_⟩
  have hspotPre : a ++ [j] <+: a ++ j :: t :=
    (List.prefix_append_right_inj a).mpr (List.cons_prefix_cons.mpr ⟨rfl, List.nil_prefix⟩)
  rcases List.prefix_or_prefix_of_prefix hspotPre hs with ⟨s', rfl⟩ | habove'
  · rw [List.append_assoc, List.singleton_append] at hs hk
    have hs' : s' <+: t :=
      (List.cons_prefix_cons.mp ((List.prefix_append_right_inj a).mp hs)).2
    exact habove s' k hs' ((hspot s').symm.trans hk) hdimk
  · rcases List.prefix_concat_iff.mp habove' with rfl | hsa
    · exact habove [] k List.nil_prefix ((hspot []).symm.trans hk) hdimk
    · obtain ⟨r, rfl⟩ := hsa.trans hpre
      obtain ⟨c, hc, hcolumn⟩ := fieldAt?_replaceCuts_outer hg ((h.cut _).mpr (Or.inl hpath))
        fun c hc hin => h.eq_of_above hc hpath hin
      rw [Formula.fieldAt?, Formula.at?_append, hk] at hcolumn
      exact absurd (Formula.mentions_iff_fieldAt?.mpr ⟨r, hcolumn⟩) (hdim c hc k hdimk)

end CutAlong

end Split

end FormulaSql
