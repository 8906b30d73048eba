import FormulaSql.Proofs.Split.Leftover

/-!
# Queries that leave nothing over

Without filters, a round can only leave over what stands beside a fork. If no field stands in a
child that is no expression of its own, then none ever does: sub-queries take nodes as they are,
and columns come to stand where the searches found a fork or an expression.
-/

namespace FormulaSql

namespace Formula

/-- Fields only stand in expressions of their own, apart from the parts of forks. -/
def Plain (f : Formula) : Prop :=
  ∀ g ∈ f.nodes, g.isFork = false → ∀ d ∈ g.children.drop g.kind.autonomousCount,
    ∀ x ∈ d.nodes, x.field? = none

instance (f : Formula) : Decidable f.Plain :=
  inferInstanceAs (Decidable
    (∀ g ∈ f.nodes, g.isFork = false → ∀ d ∈ g.children.drop g.kind.autonomousCount,
      ∀ x ∈ d.nodes, x.field? = none))

theorem Plain.of_node {f g : Formula} (hf : f.Plain) (hg : g ∈ f.nodes) : g.Plain :=
  fun x hx => hf x (mem_nodes_trans hg hx)

theorem plain_of_no_children {f : Formula} (h : f.children = []) : f.Plain := by
  intro g hg _ d hd
  rcases mem_nodes_iff.mp hg with rfl | ⟨c, hc, -⟩
  · rw [h, List.drop_nil] at hd
    exact absurd hd List.not_mem_nil
  · rw [h] at hc
    exact absurd hc List.not_mem_nil

/-- In terms of positions: the way down to a field leaves no expression at a node that is no
fork. -/
theorem plain_iff {f : Formula} :
    f.Plain ↔ ∀ a g j t n, f.at? a = some g → g.isFork = false →
      f.fieldAt? (a ++ j :: t) = some n → j < g.kind.autonomousCount := by
  constructor
  · intro hf a g j t n ha hfork hfield
    rw [fieldAt?, at?_append, ha] at hfield
    obtain ⟨d, hd, ht⟩ := fieldAt?_cons.mp hfield
    by_contra hj
    obtain ⟨x, hx, hn⟩ := mentions_iff_fieldAt?.mpr ⟨t, ht⟩
    have hdrop : d ∈ g.children.drop g.kind.autonomousCount := by
      refine List.mem_of_getElem? (i := j - g.kind.autonomousCount) ?_
      rw [List.getElem?_drop, Nat.add_sub_cancel' (Nat.le_of_not_lt hj)]
      exact hd
    have hnone := hf g (mem_nodes_of_at? ha) hfork d hdrop x hx
    exact absurd (hn.symm.trans hnone) (by simp)
  · intro h g hg hfork d hd x hx
    obtain ⟨a, ha⟩ := exists_at?_of_mem_nodes hg
    obtain ⟨j, hj⟩ := List.mem_iff_getElem?.mp hd
    rw [List.getElem?_drop] at hj
    obtain ⟨t, ht⟩ := exists_at?_of_mem_nodes hx
    by_contra hfield
    obtain ⟨n, hn⟩ := Option.ne_none_iff_exists'.mp hfield
    have hat : f.fieldAt? (a ++ (g.kind.autonomousCount + j) :: t) = some n := by
      rw [fieldAt?, at?_append, ha]
      exact fieldAt?_cons.mpr ⟨d, hj, by rw [fieldAt?, ht]; exact hn⟩
    exact absurd (h a g _ t n ha hfork hat) (by omega)

/-- Above an outermost fork there is no other. -/
theorem not_isFork_above {f g : Formula} {a path : Path} {q : Fork Formula}
    (h : (path, q) ∈ f.outermostForks) (hpre : a <+: path) (hne : a ≠ path)
    (ha : f.at? a = some g) : g.isFork = false := by
  induction f using induction_children generalizing a path with
  | step f ih =>
      rcases mem_outermostForks_iff.mp h with ⟨rfl, -⟩ | ⟨hnone, i, c, path, hc, rfl, hmem⟩
      · exact absurd (List.prefix_nil.mp hpre) hne
      · cases a with
        | nil =>
            obtain rfl := Option.some.inj ha
            exact not_isFork_of_fork? hnone
        | cons j a =>
            obtain ⟨rfl, hbelow⟩ := List.cons_prefix_cons.mp hpre
            have hchild := (autonomous_getElem?.mp hc).2
            rw [at?_cons_of_child a hchild] at ha
            exact ih c (List.mem_of_getElem? hchild) hmem hbelow (fun heq => hne (heq ▸ rfl)) ha

end Formula

/-- The query has no filters, and all its formulas are plain. -/
def Query.Plain (q : Query) : Prop :=
  q.filters = [] ∧ ∀ p ∈ Part.all, p ≠ .joinOn → ∀ e ∈ q.part p, e.formula.Plain

instance (q : Query) : Decidable q.Plain :=
  inferInstanceAs (Decidable (q.filters = [] ∧
    ∀ p ∈ Part.all, p ≠ .joinOn → ∀ e ∈ q.part p, e.formula.Plain))

theorem Query.Plain.of_node {q : Query} {f : Formula} (hq : q.Plain) (hf : q.HasNode f) :
    f.Plain := by
  obtain ⟨p, hp, e, he, hf⟩ := hf
  exact (hq.2 p (Part.mem_all p) hp e he).of_node hf

namespace Split

/-- Nothing stands beside the forks of a plain formula. -/
theorem not_mentions_of_blind {f d : Formula} {forks : List Path} {n : String} (hf : f.Plain)
    (hforks : ∀ path ∈ forks, ∃ fork, (path, fork) ∈ f.outermostForks)
    (hblind : f.Blind forks d) : ¬ d.Mentions n := by
  obtain ⟨a, g, j, ha, ⟨path, hpath, hpre, hne⟩, hj, hd⟩ := hblind
  obtain ⟨fork, hmem⟩ := hforks path hpath
  intro hn
  obtain ⟨t, ht⟩ := Formula.mentions_iff_fieldAt?.mp hn
  have hfield : f.fieldAt? (a ++ j :: t) = some n := by
    rw [Formula.fieldAt?, Formula.at?_append, ha]
    exact Formula.fieldAt?_cons.mpr ⟨d, hd, ht⟩
  have hfork := Formula.not_isFork_above hmem hpre hne ha
  exact absurd (Formula.plain_iff.mp hf a g j t n ha hfork hfield) (Nat.not_lt.mpr hj)

/-- A round over a plain query leaves nothing over. -/
theorem not_leaves_of_plain {q : Query} {p : Plan} {n : String} (hq : q.Plain) :
    ¬ Leaves q p n := by
  rintro ⟨-, base, -, hleft⟩
  cases hleft with
  | @beside part i e d hrewritten hblind hbare =>
      have hforks : ∀ path ∈ forkPaths q part i, ∃ fork,
          (path, fork) ∈ e.formula.outermostForks := fun path hpath =>
        (outermostForks_of_mem_forkPaths hpath hrewritten.entry).2
      obtain ⟨path, hpath⟩ := hblind.exists_cut
      have hp := (outermostForks_of_mem_forkPaths hpath hrewritten.entry).1
      have hplain := hq.2 part (Part.mem_all part) (Part.ne_joinOn_of_splittable hp) e
        (List.mem_of_getElem? hrewritten.entry)
      exact not_mentions_of_blind hplain hforks hblind hbare.mentions
  | @filter i e hrewritten =>
      have hentry := hrewritten.entry
      rw [Query.part, hq.1] at hentry
      cases hentry

/-! ## What a round keeps plain -/

theorem plain_replaceCuts {q : Query} {cuts : List Cut} {f g : Formula} (hf : f.Plain)
    (hcuts : ∀ c ∈ cuts, f.Walks c.outer) (hg : replaceCuts q cuts f = .ok g) : g.Plain := by
  refine Formula.plain_iff.mpr fun a x j t n ha hfork hfield => ?_
  have hout : ∀ c ∈ cuts, ¬ c.outer <+: a := by
    intro c hc hin
    obtain ⟨_, -, -, hname⟩ := field?_replaceCuts hg ⟨c, hc, hin⟩ ha
    rw [Formula.fieldAt?, Formula.at?_append, ha] at hfield
    obtain ⟨d, hd, -⟩ := Formula.fieldAt?_cons.mp hfield
    rw [Formula.children_of_field? hname] at hd
    cases hd
  obtain ⟨y, hy, houtline⟩ := outline_replaceCuts hg hout ha
  rw [Kind.autonomousCount_eq_of_outline houtline]
  by_cases hin : ∃ c ∈ cuts, c.outer <+: a ++ j :: t
  · obtain ⟨z, hz, -⟩ := Option.bind_eq_some_iff.mp hfield
    obtain ⟨c, hc, houter, -⟩ := field?_replaceCuts hg hin hz
    exact (houter ▸ hcuts c hc).index_lt hy
  · rw [fieldAt?_replaceCuts hg fun c hc hpre => hin ⟨c, hc, hpre⟩] at hfield
    have hnot : y.isFork = false := (Formula.isFork_eq_of_outline houtline).symm.trans hfork
    exact Formula.plain_iff.mp hf a y j t n hy hnot hfield

theorem plain_plainAggregate {f : Formula} (hf : f.Plain) : (plainAggregate f).Plain := by
  rcases plainAggregate_cases f with heq | ⟨name, args, hargs, hkind, hchildren⟩
  · rwa [heq]
  · intro g hg hfork d hd
    rcases Formula.mem_nodes_iff.mp hg with rfl | ⟨x, hx, hgx⟩
    · rw [hchildren, hkind] at hd
      simp [Kind.autonomousCount] at hd
    · exact hf g (Formula.mem_nodes_of_child (hargs (hchildren ▸ hx)) hgx) hfork d hd

theorem plain_of_derived {q : Query} (hq : q.Plain) {f : Formula} (h : Derived q f) : f.Plain := by
  cases h with
  | drawn hf =>
      rcases hf with rfl | hf
      · exact Formula.plain_of_no_children rfl
      · exact hq.of_node hf
  | plain hf => exact plain_plainAggregate (hq.of_node hf)
  | shifted he =>
      rw [hq.1] at he
      exact absurd he List.not_mem_nil

section Round

variable {q c : Query} {p : Plan} {subs : List Query} {a b : Names}

theorem SubqueryOf.plain {m : Mask} {s : Query} (h : SubqueryOf q m s) (hm : MaskOf q a b m)
    (hq : q.Plain) : s.Plain := by
  refine ⟨?_, fun p _ hp e he => plain_of_derived hq (h.derived hm hp he)⟩
  rw [h.filters, maskFilters, hq.1]
  refine List.eq_nil_iff_forall_not_mem.mpr fun e he => ?_
  obtain ⟨e₀, he₀, -⟩ := hm.addFilter e (by simpa using he)
  rw [hq.1] at he₀
  exact absurd he₀ List.not_mem_nil

/-- The queries of a round over a plain query are plain. -/
theorem RoundOf.plain (h : RoundOf q p subs c) (hp : Planned q a b p) (hq : q.Plain) :
    ∀ x ∈ subs ++ [c], x.Plain := by
  intro x hx
  rcases List.mem_append.mp hx with hx | hx
  · obtain ⟨m, hm, hsub⟩ := forall₂_exists_left h.subqueries hx
    exact hsub.plain (hp.masks.mask m hm) hq
  · obtain rfl := List.mem_singleton.mp hx
    obtain ⟨base, others, hmasks, -, hcropped, -⟩ := h.cropped
    obtain ⟨forks, hcuts⟩ := hp.cuts
    rw [hmasks] at hcropped hcuts
    have hfilters : x.filters = [] := by
      refine List.eq_nil_iff_forall_not_mem.mpr fun e' he' => ?_
      obtain ⟨e, i, he, -⟩ := hcropped.origin (p := .filters) (by simp) he'
      rw [Query.part, hq.1] at he
      cases he
    refine ⟨hfilters, fun part _ hpart e' he' => ?_⟩
    obtain ⟨e, i, he, -, hcrop⟩ := hcropped.origin hpart he'
    have hplain := hq.2 part (Part.mem_all part) hpart e (List.mem_of_getElem? he)
    obtain ⟨hentry, -⟩ := cropEntry_some hcrop
    generalize e'.formula = f at hentry
    cases hentry with
    | constant => exact hplain
    | dimension | incompatible => exact Formula.plain_of_no_children rfl
    | cut _ _ _ hg =>
        have hcut := plain_replaceCuts hplain (fun cut hcut => hcuts.walks hcut he) hg
        split
        next hp =>
          rw [beq_iff_eq.mp hp, Query.part, hfilters] at he'
          exact absurd he' List.not_mem_nil
        next => exact hcut

end Round

end Split

end FormulaSql
