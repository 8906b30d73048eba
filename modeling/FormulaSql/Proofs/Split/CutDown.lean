import FormulaSql.Proofs.Split.Grades
import FormulaSql.Proofs.Split.Leftover

/-!
# Formulas that are cut down to columns

A formula that is cut keeps the nodes above its forks and its constants; the rest are columns. What
the nodes above forks are decides what is left to compute: without an aggregation among them nothing
is aggregated in the cut formula, and without a window call either it has a value for each row.

* `Split.cutDown_of_replaceCuts` says how a cut formula is built
* `Split.isGraded_of_uncut` says that what is left over beside forks is graded
-/

namespace FormulaSql

namespace Formula

variable {f g : Formula}

theorem containsAggregate_iff :
    f.containsAggregate = true ↔
      f.isAggregateCall = true ∨ ∃ c ∈ f.autonomous, c.containsAggregate = true := by
  conv_lhs => rw [containsAggregate, recur_eq, Kind.autonomous_map, List.any_map]
  rw [Bool.or_eq_true]
  show _ ∨ f.kind.autonomous.any containsAggregate = true ↔ _
  rw [List.any_eq_true]
  rfl

theorem not_containsAggregate_iff :
    f.containsAggregate = false ↔
      f.isAggregateCall = false ∧ ∀ c ∈ f.autonomous, c.containsAggregate = false := by
  rw [← Bool.not_eq_true, containsAggregate_iff, not_or, Bool.not_eq_true]
  simp

theorem gathers_of_field? {n : String} (h : f.field? = some n) : f.gathers = false := by
  rw [field?_eq] at h
  obtain ⟨k, notes⟩ := f
  cases k <;> simp [fieldName?, kind] at h
  rfl

theorem perRow_of_field? {dims : List Formula} {n : String} (h : f.field? = some n) :
    f.PerRow dims := by
  refine .node (gathers_of_field? h) fun c hc => ?_
  rw [autonomous_of_field? h] at hc
  exact absurd hc List.not_mem_nil

theorem not_containsAggregate_of_perRow (h : f.PerRow []) : f.containsAggregate = false := by
  induction f using induction_children with
  | step f ih =>
      obtain ⟨hgathers, hbelow⟩ := (perRow_iff_node (by simp)).mp h
      simp only [gathers, Bool.or_eq_false_iff] at hgathers
      exact not_containsAggregate_iff.mpr
        ⟨hgathers.2, fun c hc => ih c (mem_children_of_autonomous hc) (hbelow c hc)⟩

end Formula

namespace Split

open Formula

/-- The second formula is the first one with columns instead of forks and of what stands beside
them. -/
inductive CutDown : Formula → Formula → Prop where
  | column {f g : Formula} {n : String} : g.field? = some n → CutDown f g
  | constant {f : Formula} : f.isConstantExpression = true → CutDown f f
  | node {f g : Formula} : f.isFork = false → f.isForked = true →
      g.kind.outline = f.kind.outline →
      (∀ (i : Nat) (c d : Formula), f.autonomous[i]? = some c → g.autonomous[i]? = some d →
        CutDown c d) → CutDown f g

section CutDown

variable {f g : Formula}

theorem length_autonomous_of_outline (h : g.kind.outline = f.kind.outline) :
    g.autonomous.length = f.autonomous.length := by
  have hchildren : g.kind.children.length = f.kind.children.length := by
    simpa [Kind.outline, Kind.children_map] using
      congrArg (fun k : Kind Unit => k.children.length) h
  rw [autonomous, autonomous, Kind.autonomous, Kind.autonomous, List.length_take,
    List.length_take, hchildren, Kind.autonomousCount_eq_of_outline h]

/-- Each expression below a node that is kept comes from one below the old node. -/
theorem exists_of_outline {d : Formula} (h : g.kind.outline = f.kind.outline)
    (hd : d ∈ g.autonomous) :
    ∃ (i : Nat) (c : Formula), f.autonomous[i]? = some c ∧ g.autonomous[i]? = some d := by
  obtain ⟨i, hi⟩ := List.mem_iff_getElem?.mp hd
  obtain ⟨hlt, -⟩ := List.getElem?_eq_some_iff.mp hi
  rw [length_autonomous_of_outline h] at hlt
  exact ⟨i, f.autonomous[i], List.getElem?_eq_getElem hlt, hi⟩

/-- No fork is left. -/
theorem CutDown.not_isForked (h : CutDown f g) : g.isForked = false := by
  induction f using induction_children generalizing g with
  | step f ih =>
      cases h with
      | column hg => exact not_isForked_of_perRow (perRow_of_field? hg)
      | constant hconst => exact not_isForked_of_perRow (perRow_of_constant hconst)
      | node hfork _ houtline hbelow =>
          refine not_isForked_iff.mpr ⟨isFork_eq_of_outline houtline ▸ hfork, fun d hd => ?_⟩
          obtain ⟨i, c, hc, hd⟩ := exists_of_outline houtline hd
          exact ih c (mem_children_of_autonomous (List.mem_of_getElem? hc)) (hbelow i c d hc hd)

/-- Without aggregations above forks nothing is aggregated. -/
theorem CutDown.not_containsAggregate (h : CutDown f g)
    (hf : f.standsOver isAggregateCall = false) : g.containsAggregate = false := by
  induction f using induction_children generalizing g with
  | step f ih =>
      cases h with
      | column hg => exact not_containsAggregate_of_perRow (perRow_of_field? hg)
      | constant hconst => exact not_containsAggregate_of_perRow (perRow_of_constant hconst)
      | node hfork hforked houtline hbelow =>
          obtain ⟨htop, hrest⟩ := not_standsOver_iff.mp hf
          refine not_containsAggregate_iff.mpr ⟨?_, fun d hd => ?_⟩
          · rw [isAggregateCall_eq_of_outline houtline]
            by_contra haggregate
            exact absurd (htop (by simpa using haggregate)) (by simp [hforked])
          · obtain ⟨i, c, hc, hd⟩ := exists_of_outline houtline hd
            have hmem := List.mem_of_getElem? hc
            exact ih c (mem_children_of_autonomous hmem) (hbelow i c d hc hd) (hrest hfork c hmem)

/-- If aggregations are above forks at the top only, they are at the top of what is left. -/
theorem CutDown.isAggregateCall_of_contains (h : CutDown f g) (hf : f.isShaped = true)
    (hg : g.containsAggregate = true) : g.isAggregateCall = true := by
  cases h with
  | column hfield =>
      exact absurd hg (by simp [not_containsAggregate_of_perRow (perRow_of_field? hfield)])
  | constant hconst =>
      exact absurd hg (by simp [not_containsAggregate_of_perRow (perRow_of_constant hconst)])
  | node hfork hforked houtline hbelow =>
      refine (containsAggregate_iff.mp hg).resolve_right ?_
      rintro ⟨d, hd, haggregate⟩
      obtain ⟨i, c, hc, hd⟩ := exists_of_outline houtline hd
      have hcalm := not_standsOver_of_isShaped hf hfork (List.mem_of_getElem? hc)
      exact absurd haggregate (by simp [(hbelow i c d hc hd).not_containsAggregate hcalm])

/-- If neither aggregations nor window calls are above forks, there is a value for each row. -/
theorem CutDown.perRow (h : CutDown f g) (haggregate : f.standsOver isAggregateCall = false)
    (hwindow : f.standsOver isWindowCall = false) : g.PerRow [] := by
  induction f using induction_children generalizing g with
  | step f ih =>
      cases h with
      | column hg => exact perRow_of_field? hg
      | constant hconst => exact perRow_of_constant hconst
      | node hfork hforked houtline hbelow =>
          obtain ⟨htop, hrest⟩ := not_standsOver_iff.mp haggregate
          obtain ⟨htop', hrest'⟩ := not_standsOver_iff.mp hwindow
          refine .node ?_ fun d hd => ?_
          · rw [gathers_eq_of_outline houtline, gathers, hfork]
            cases hw : f.isWindowCall with
            | true => exact absurd (htop' hw) (by simp [hforked])
            | false =>
                cases ha : f.isAggregateCall with
                | true => exact absurd (htop ha) (by simp [hforked])
                | false => rfl
          · obtain ⟨i, c, hc, hd⟩ := exists_of_outline houtline hd
            have hmem := List.mem_of_getElem? hc
            exact ih c (mem_children_of_autonomous hmem) (hbelow i c d hc hd)
              (hrest hfork c hmem) (hrest' hfork c hmem)

/-- A formula with forks has columns when it is cut down. -/
theorem CutDown.not_constant (h : CutDown f g) (hf : f.isForked = true) :
    g.isConstantExpression = false := by
  induction f using induction_children generalizing g with
  | step f ih =>
      rw [← Bool.not_eq_true]
      intro hconst
      cases h with
      | column hg => exact absurd (constant_iff.mp hconst g (self_mem_nodes g)).2.1 (by simp [hg])
      | constant => exact absurd (not_isForked_of_perRow (perRow_of_constant hconst)) (by simp [hf])
      | node hfork _ houtline hbelow =>
          obtain ⟨c, hc, hforked⟩ := (isForked_iff.mp hf).resolve_left (by simp [hfork])
          obtain ⟨i, hi⟩ := List.mem_iff_getElem?.mp hc
          obtain ⟨hlt, -⟩ := List.getElem?_eq_some_iff.mp hi
          rw [← length_autonomous_of_outline houtline] at hlt
          have hd := List.getElem?_eq_getElem hlt
          have hnot := ih c (mem_children_of_autonomous hc) (hbelow i c _ hi hd) hforked
          have hbelow := constant_of_autonomous hconst (List.mem_of_getElem? hd)
          exact absurd (hnot.symm.trans hbelow) (by simp)

/-! ## Where the columns are -/

variable {q : Query} {forks : List Path} {cuts : List Cut}

theorem isForked_of_mem_outermostForks {t : Path} {k : Fork Formula}
    (h : (t, k) ∈ f.outermostForks) : f.isForked = true := by
  induction f using induction_children generalizing t with
  | step f ih =>
      rcases mem_outermostForks_iff.mp h with ⟨-, hk⟩ | ⟨-, i, c, t', hc, -, hmem⟩
      · exact isForked_of_isFork (isFork_of_fork? hk)
      · have hmem' := List.mem_of_getElem? hc
        exact isForked_iff.mpr (Or.inr
          ⟨c, hmem', ih c (mem_children_of_autonomous hmem') hmem⟩)

/-- The nodes that the search for what is left over comes to: below a node it goes on as long as
there are forks. -/
inductive Visited (f : Formula) (forks : List Path) : Path → Formula → Prop where
  | top : Visited f forks [] f
  | child {p path : Path} {x c : Formula} {i : Nat} : Visited f forks p x → p ∉ forks →
      path ∈ forks → p <+: path → x.autonomous[i]? = some c → Visited f forks (p ++ [i]) c

section Visited

variable {p path : Path} {x c : Formula} {i : Nat}

theorem Visited.at? (h : Visited f forks p x) : f.at? p = some x := by
  induction h with
  | top => rfl
  | child _ _ _ _ hc ih =>
      rw [at?_append, ih]
      exact at?_cons_of_child [] (autonomous_getElem?.mp hc).2

variable (hforks : ∀ path ∈ forks, ∃ k, (path, k) ∈ f.outermostForks)
include hforks

/-- The forks below a node that is visited are outermost forks of this node. -/
theorem Visited.exists_fork (h : Visited f forks p x) (hpath : path ∈ forks) (hpre : p <+: path) :
    ∃ t k, path = p ++ t ∧ (t, k) ∈ x.outermostForks := by
  induction h with
  | top =>
      obtain ⟨k, hk⟩ := hforks path hpath
      exact ⟨path, k, rfl, hk⟩
  | @child p _ x c i _ _ _ _ hc ih =>
      obtain ⟨t, k, rfl, hk⟩ := ih ((List.prefix_append p [i]).trans hpre)
      rw [List.prefix_append_right_inj] at hpre
      obtain ⟨t', rfl⟩ := hpre
      rcases mem_outermostForks_iff.mp hk with ⟨hnil, -⟩ | ⟨-, j, d, t'', hd, heq, hmem⟩
      · exact absurd hnil (by simp)
      · obtain ⟨rfl, rfl⟩ := List.cons.inj heq
        obtain rfl := Option.some.inj (hc.symm.trans hd)
        exact ⟨t', k, by simp, hmem⟩

theorem Visited.above (h : Visited f forks p x) (hp : p ∉ forks) (hpath : path ∈ forks)
    (hpre : p <+: path) : x.isFork = false ∧ x.isForked = true := by
  obtain ⟨t, k, rfl, hk⟩ := h.exists_fork hforks hpath hpre
  refine ⟨?_, isForked_of_mem_outermostForks hk⟩
  rcases mem_outermostForks_iff.mp hk with ⟨rfl, -⟩ | ⟨hnone, -⟩
  · rw [List.append_nil] at hpath
    exact absurd hpath hp
  · exact not_isFork_of_fork? hnone

/-- What holds at the top and passes down from nodes above forks holds of all nodes that are
visited. -/
theorem Visited.pass {P : Formula → Prop} (h : Visited f forks p x) (htop : P f)
    (hdown : ∀ x, x.isFork = false → x.isForked = true → P x → ∀ c ∈ x.autonomous, P c) : P x := by
  induction h with
  | top => exact htop
  | child hx hp hpath hpre hc ih =>
      obtain ⟨hfork, hforked⟩ := hx.above hforks hp hpath hpre
      exact hdown _ hfork hforked ih _ (List.mem_of_getElem? hc)

omit hforks

theorem uncutSearch_above (hp : p ∉ forks) (hpath : path ∈ forks) (hpre : p <+: path) :
    x.uncutSearch forks p =
      x.autonomous.zipIdx.flatMap fun (c, i) => c.uncutSearch forks (p ++ [i]) := by
  rw [uncutSearch_eq, if_neg (by simpa using hp),
    if_pos (any_isPrefixOf_iff.mpr ⟨path, hpath, hpre⟩)]

/-- What is left over below a node that is visited is found from there. -/
theorem Visited.uncut (h : Visited f forks p x) {u : Path} (hu : p <+: u) :
    u ∈ f.uncutPaths forks ↔ u ∈ x.uncutSearch forks p := by
  induction h with
  | top => rfl
  | @child p _ x c i _ hp hpath hpre hc ih =>
      rw [ih ((List.prefix_append p [i]).trans hu), uncutSearch_above hp hpath hpre,
        List.mem_flatMap]
      constructor
      · rintro ⟨⟨d, j⟩, hd, hmem⟩
        obtain ⟨t, rfl, -⟩ := of_mem_uncutSearch hmem
        have hij : i = j := by
          rw [List.append_assoc, List.prefix_append_right_inj] at hu
          exact (List.cons_prefix_cons.mp hu).1
        subst hij
        obtain rfl := Option.some.inj (hc.symm.trans (List.mem_zipIdx_iff_getElem?.mp hd))
        exact hmem
      · intro hmem
        exact ⟨(c, i), List.mem_zipIdx_iff_getElem?.mpr hc, hmem⟩

/-- What is left over is visited. -/
theorem exists_visited {u : Path} (h : u ∈ f.uncutPaths forks) : ∃ x, Visited f forks u x := by
  have hbelow : ∀ x p, Visited f forks p x → u ∈ x.uncutSearch forks p →
      ∃ y, Visited f forks u y := by
    intro x
    induction x using induction_children with
    | step x ih =>
        intro p hx hu
        by_cases hp : p ∈ forks
        · rw [uncutSearch_eq, if_pos (by simpa using hp)] at hu
          exact absurd hu List.not_mem_nil
        · by_cases habove : ∃ path ∈ forks, p <+: path
          · obtain ⟨path, hpath, hpre⟩ := habove
            rw [uncutSearch_above hp hpath hpre, List.mem_flatMap] at hu
            obtain ⟨⟨c, i⟩, hc, hu⟩ := hu
            have hc := List.mem_zipIdx_iff_getElem?.mp hc
            exact ih c (mem_children_of_autonomous (List.mem_of_getElem? hc)) _
              (hx.child hp hpath hpre hc) hu
          · rw [uncutSearch_eq, if_neg (by simpa using hp),
              if_neg (by rwa [any_isPrefixOf_iff])] at hu
            split at hu
            · exact absurd hu List.not_mem_nil
            · exact List.mem_singleton.mp hu ▸ ⟨x, hx⟩
  exact hbelow f [] .top h

/-- A node without cuts and forks was not worth a column, and it stays. -/
theorem Visited.constant_of_uncut {y : Formula} (hcuts : CutAlong f forks cuts)
    (hg : replaceCuts q cuts f = .ok g) (hx : Visited f forks p x)
    (hnone : ∀ c ∈ cuts, ¬ c.outer <+: p) (hbelow : ¬ ∃ path ∈ forks, p <+: path)
    (hy : g.at? p = some y) : x.isConstantExpression = true ∧ y = x := by
  have hp : p ∉ forks := fun hp => hbelow ⟨p, hp, List.prefix_refl p⟩
  have hsearch : x.uncutSearch forks p = if x.isConstantExpression then [] else [p] := by
    rw [uncutSearch_eq, if_neg (by simpa using hp), if_neg (by rwa [any_isPrefixOf_iff])]
  have hleft : ∀ u, p <+: u → (u ∈ f.uncutPaths forks ↔ u ∈ x.uncutSearch forks p) :=
    fun u hu => hx.uncut hu
  have hconst : x.isConstantExpression = true := by
    by_contra hconst
    rw [if_neg hconst] at hsearch
    obtain ⟨c, hc, rfl⟩ := (hcuts.cut p).mpr
      (Or.inr ((hleft p (List.prefix_refl p)).mpr (by simp [hsearch])))
    exact hnone c hc (List.prefix_refl _)
  rw [if_pos hconst] at hsearch
  have hsame : g.at? p = f.at? p := by
    refine at?_replaceCuts hg fun c hc => ⟨hnone c hc, fun hpre => ?_⟩
    rcases (hcuts.cut c.outer).mp ⟨c, hc, rfl⟩ with hfork | huncut
    · exact hbelow ⟨c.outer, hfork, hpre⟩
    · rw [hleft c.outer hpre, hsearch] at huncut
      exact absurd huncut List.not_mem_nil
  exact ⟨hconst, Option.some.inj ((hsame.symm.trans hy).symm.trans hx.at?)⟩

/-- A formula that is cut along forks is cut down, at each node that the search comes to. -/
theorem Visited.cutDown {y : Formula} (hcuts : CutAlong f forks cuts)
    (hg : replaceCuts q cuts f = .ok g) (hx : Visited f forks p x)
    (htop : ∀ c ∈ cuts, c.outer <+: p → c.outer = p) (hy : g.at? p = some y) : CutDown x y := by
  induction x using induction_children generalizing p y with
  | step x ih =>
      by_cases hcut : ∃ c ∈ cuts, c.outer = p
      · obtain ⟨c, hc, hcp⟩ := hcut
        obtain ⟨c', -, -, hfield⟩ := field?_replaceCuts hg ⟨c, hc, hcp ▸ List.prefix_refl _⟩ hy
        exact .column hfield
      · have hp : p ∉ forks := fun hp => hcut ((hcuts.cut p).mpr (Or.inl hp))
        have hnone : ∀ c ∈ cuts, ¬ c.outer <+: p := fun c hc hpre =>
          hcut ⟨c, hc, htop c hc hpre⟩
        by_cases habove : ∃ path ∈ forks, p <+: path
        · obtain ⟨path, hpath, hpre⟩ := habove
          obtain ⟨hfork, hforked⟩ := hx.above hcuts.fork hp hpath hpre
          obtain ⟨x', hx', houtline⟩ := outline_replaceCuts hg hnone hy
          obtain rfl := Option.some.inj (hx.at?.symm.trans hx')
          refine .node hfork hforked houtline fun i c d hc hd => ?_
          refine ih c (mem_children_of_autonomous (List.mem_of_getElem? hc))
            (hx.child hp hpath hpre hc) ?_ ?_
          · intro b hb hpre'
            rcases List.prefix_concat_iff.mp hpre' with heq | hpre'
            · exact heq
            · exact absurd hpre' (hnone b hb)
          · rw [at?_append, hy]
            exact at?_cons_of_child [] (autonomous_getElem?.mp hd).2
        · obtain ⟨hconst, rfl⟩ := hx.constant_of_uncut hcuts hg hnone habove hy
          exact .constant hconst

end Visited

theorem cutDown_of_replaceCuts (hcuts : CutAlong f forks cuts)
    (hg : replaceCuts q cuts f = .ok g) : CutDown f g :=
  Visited.top.cutDown hcuts hg (fun _ _ hpre => List.prefix_nil.mp hpre ▸ rfl) rfl

/-! ## What is left over is graded -/

theorem isGraded_of_uncut {dims : List Formula} {u : Path}
    (hforks : ∀ path ∈ forks, ∃ k, (path, k) ∈ f.outermostForks)
    (hu : u ∈ f.uncutPaths forks) (hf : f.isGraded dims = true) (hshaped : f.isShaped = true) :
    ∃ x ∈ f.surface, f.at? u = some x ∧ x.isGraded dims = true ∧ x.isShaped = true := by
  obtain ⟨x, hx⟩ := exists_visited hu
  have hsurface : x ∈ f.surface := by
    refine hx.pass (P := fun x => x ∈ f.surface) hforks (self_mem_surface f) ?_
    intro y hfork _ hy c hc
    exact mem_surface_trans hy (mem_surface_of_autonomous hfork hc (self_mem_surface c))
  have hgraded : x.isGraded dims = true ∧ x.isShaped = true := by
    refine hx.pass (P := fun x => x.isGraded dims = true ∧ x.isShaped = true) hforks
      ⟨hf, hshaped⟩ ?_
    rintro y hfork hforked ⟨hgraded, hshaped⟩ c hc
    exact ⟨(isGraded_node hfork hforked).mp hgraded c hc,
      isShaped_of_not_standsOver (not_standsOver_of_isShaped hshaped hfork hc)⟩
  exact ⟨x, hsurface, hx.at?, hgraded⟩

/-- A fork on the surface of a graded formula is graded. -/
theorem isGraded_of_surface {dims : List Formula} (hg : g ∈ f.surface) (hfork : g.isFork = true)
    (hf : f.isGraded dims = true) : g.isGraded dims = true := by
  induction f using induction_children with
  | step f ih =>
      rcases mem_surface_iff.mp hg with rfl | ⟨hnot, c, hc, hg⟩
      · exact hf
      · have hforked : f.isForked = true := isForked_iff.mpr
          (Or.inr ⟨c, hc, List.any_eq_true.mpr ⟨g, hg, hfork⟩⟩)
        exact ih c (mem_children_of_autonomous hc) hg ((isGraded_node hnot hforked).mp hf c hc)

end CutDown

end Split

end FormulaSql
