import FormulaSql.Proofs.Formula.Paths
import FormulaSql.Proofs.Split.Fields

/-!
# What the cuts of a formula cover

A round cuts a formula at its forks and at the largest expressions without a fork. Both searches go
through the children that are expressions of their own. So what they miss is exactly what stands in
the other children of a node above a fork: dimensions of an aggregation, groupings and orderings of
a window call, or an expression with a direction.
-/

namespace FormulaSql

namespace Formula

/-! ## Fields by position -/

/-- The name of the field at a path. -/
def fieldAt? (f : Formula) (p : Path) : Option String := (f.at? p).bind field?

theorem fieldAt?_cons {f : Formula} {i : Nat} {p : Path} {n : String} :
    f.fieldAt? (i :: p) = some n ↔ ∃ c, f.children[i]? = some c ∧ c.fieldAt? p = some n := by
  rw [fieldAt?, at?]
  cases f.children[i]? with
  | none => simp
  | some c => simp [fieldAt?]

theorem children_of_field? {f : Formula} {n : String} (h : f.field? = some n) :
    f.children = [] := by
  rw [field?_eq] at h
  rw [children]
  cases hk : f.kind with
  | field => rfl
  | _ => rw [hk] at h; cases h

theorem mentions_iff_fieldAt? {f : Formula} {n : String} :
    f.Mentions n ↔ ∃ p, f.fieldAt? p = some n := by
  constructor
  · rintro ⟨g, hg, hn⟩
    obtain ⟨p, hp⟩ := exists_at?_of_mem_nodes hg
    exact ⟨p, by rw [fieldAt?, hp]; exact hn⟩
  · rintro ⟨p, hp⟩
    obtain ⟨g, hg, hn⟩ := Option.bind_eq_some_iff.mp hp
    exact ⟨g, mem_nodes_of_at? hg, hn⟩

/-- A replacement changes no field outside of the node that is replaced. -/
theorem fieldAt?_replaceAt? {f r g : Formula} {c p : Path} (h : f.replaceAt? r c = some g)
    (hp : ¬ c <+: p) : g.fieldAt? p = f.fieldAt? p := by
  induction c generalizing f g p with
  | nil => exact absurd List.nil_prefix hp
  | cons i c ih =>
      obtain ⟨x, d, hx, hd, rfl⟩ := replaceAt?_cons h
      cases p with
      | nil => exact field?_withChildren f _
      | cons j p =>
          rw [fieldAt?, fieldAt?, at?, at?, children_withChildren_set]
          by_cases hij : i = j
          · subst hij
            have hi : i < f.children.length := (List.getElem?_eq_some_iff.mp hx).1
            rw [List.getElem?_set_self hi, hx]
            exact ih hd fun hpre => hp (List.cons_prefix_cons.mpr ⟨rfl, hpre⟩)
          · rw [List.getElem?_set_ne hij]

/-- Outside of the node that is replaced all nodes keep their outline. -/
theorem outline_replaceAt? {f r g x : Formula} {c p : Path} (h : f.replaceAt? r c = some g)
    (hp : ¬ c <+: p) (hx : g.at? p = some x) :
    ∃ y, f.at? p = some y ∧ x.kind.outline = y.kind.outline := by
  induction c generalizing f g p with
  | nil => exact absurd List.nil_prefix hp
  | cons i c ih =>
      obtain ⟨y, d, hy, hd, rfl⟩ := replaceAt?_cons h
      cases p with
      | nil =>
          obtain rfl := Option.some.inj hx
          exact ⟨f, rfl, Kind.outline_withChildren f.kind _⟩
      | cons j p =>
          rw [at?, children_withChildren_set] at hx
          rw [at?]
          by_cases hij : i = j
          · subst hij
            have hi : i < f.children.length := (List.getElem?_eq_some_iff.mp hy).1
            rw [List.getElem?_set_self hi] at hx
            rw [hy]
            exact ih hd (fun hpre => hp (List.cons_prefix_cons.mpr ⟨rfl, hpre⟩)) hx
          · rw [List.getElem?_set_ne hij] at hx
            exact ⟨x, hx, rfl⟩

/-! ## The search for what is not cut -/

/-- The search for uncut expressions below a node that stands at a path. -/
def uncutSearch (cuts : List Path) : Formula → Path → List Path := recur fun f k path =>
  if cuts.contains path then []
  else if cuts.any path.isPrefixOf then
    k.autonomous.zipIdx.flatMap fun (below, i) => below (path ++ [i])
  else if f.isConstantExpression then []
  else [path]

theorem uncutPaths_eq_search (f : Formula) (cuts : List Path) :
    f.uncutPaths cuts = f.uncutSearch cuts [] := rfl

theorem uncutSearch_eq (cuts : List Path) (f : Formula) (path : Path) :
    f.uncutSearch cuts path =
      if cuts.contains path then []
      else if cuts.any path.isPrefixOf then
        f.autonomous.zipIdx.flatMap fun (c, i) => c.uncutSearch cuts (path ++ [i])
      else if f.isConstantExpression then []
      else [path] := by
  rw [uncutSearch, recur_eq, Kind.autonomous_map, List.zipIdx_map, List.flatMap_map]
  rfl

theorem uncutPaths_of_no_cut {f : Formula} (h : f.isConstantExpression = false) :
    f.uncutPaths [] = [[]] := by
  rw [uncutPaths_eq_search, uncutSearch_eq]
  simp [h]

theorem any_isPrefixOf_iff {cuts : List Path} {p : Path} :
    cuts.any p.isPrefixOf = true ↔ ∃ c ∈ cuts, p <+: c := by
  simp [List.any_eq_true]

/-! ## Ways down -/

/-- The path goes through children that are expressions of their own. -/
def Walks : Formula → Path → Prop
  | _, [] => True
  | f, i :: p => ∃ c, f.autonomous[i]? = some c ∧ c.Walks p

theorem Walks.index_lt {f h : Formula} {a t : Path} {j : Nat} (hw : f.Walks (a ++ j :: t))
    (ha : f.at? a = some h) : j < h.kind.autonomousCount := by
  induction a generalizing f with
  | nil =>
      obtain rfl := Option.some.inj ha
      obtain ⟨c, hc, -⟩ := hw
      exact (autonomous_getElem?.mp hc).1
  | cons i a ih =>
      obtain ⟨c, hc, hw⟩ := hw
      rw [at?_cons_of_child a (autonomous_getElem?.mp hc).2] at ha
      exact ih hw ha

theorem walks_of_mem_outermostForks {f : Formula} {p : Path} {q : Fork Formula}
    (h : (p, q) ∈ f.outermostForks) : f.Walks p := by
  induction f using induction_children generalizing p with
  | step f ih =>
      rcases mem_outermostForks_iff.mp h with ⟨rfl, -⟩ | ⟨-, i, c, p', hc, rfl, hmem⟩
      · trivial
      · exact ⟨c, hc, ih c (List.mem_of_getElem? (autonomous_getElem?.mp hc).2) hmem⟩

/-- No outermost fork stands inside another. -/
theorem eq_of_outermostFork_above {f : Formula} {p p' : Path} {q q' : Fork Formula}
    (h : (p, q) ∈ f.outermostForks) (h' : (p', q') ∈ f.outermostForks) (hp : p <+: p') :
    p = p' := by
  induction f using induction_children generalizing p p' with
  | step f ih =>
      rcases mem_outermostForks_iff.mp h with ⟨rfl, hfork⟩ | ⟨hnone, i, c, t, hc, rfl, hmem⟩
      · rcases mem_outermostForks_iff.mp h' with ⟨rfl, -⟩ | ⟨hnone, -⟩
        · rfl
        · exact absurd (hfork.symm.trans hnone) (by simp)
      · rcases mem_outermostForks_iff.mp h' with ⟨rfl, -⟩ | ⟨-, j, d, t', hd, rfl, hmem'⟩
        · exact List.prefix_nil.mp hp
        · obtain ⟨rfl, ht⟩ := List.cons_prefix_cons.mp hp
          obtain rfl := Option.some.inj (hc.symm.trans hd)
          have hchild := List.mem_of_getElem? (autonomous_getElem?.mp hc).2
          rw [ih c hchild hmem hmem' ht]

/-- What the search gives can be reached and holds no cut. -/
theorem of_mem_uncutSearch {cuts : List Path} {f : Formula} {path u : Path}
    (h : u ∈ f.uncutSearch cuts path) :
    ∃ t, u = path ++ t ∧ f.Walks t ∧ ∀ c ∈ cuts, ¬ u <+: c := by
  induction f using induction_children generalizing path with
  | step f ih =>
      rw [uncutSearch_eq] at h
      split at h
      · exact absurd h List.not_mem_nil
      · split at h
        · obtain ⟨⟨c, i⟩, hci, hu⟩ := List.mem_flatMap.mp h
          have hc := List.mem_zipIdx_iff_getElem?.mp hci
          obtain ⟨t, rfl, hwalks, hcuts⟩ :=
            ih c (List.mem_of_getElem? (autonomous_getElem?.mp hc).2) hu
          exact ⟨i :: t, by simp, ⟨c, hc, hwalks⟩, hcuts⟩
        · next hpre =>
          split at h
          · exact absurd h List.not_mem_nil
          · obtain rfl := List.mem_singleton.mp h
            refine ⟨[], by simp, trivial, fun c hc hu => hpre ?_⟩
            exact any_isPrefixOf_iff.mpr ⟨c, hc, hu⟩

/-! ## Blind spots -/

/-- An expression that both searches pass by: a child of a node above a cut that is no expression
of its own. -/
def Blind (cuts : List Path) (f d : Formula) : Prop :=
  ∃ a h j, f.at? a = some h ∧ (∃ c ∈ cuts, a <+: c ∧ a ≠ c) ∧ h.kind.autonomousCount ≤ j ∧
    h.children[j]? = some d

theorem Blind.mono {cuts cuts' : List Path} {f d : Formula} (h : f.Blind cuts d)
    (hsub : ∀ c ∈ cuts, c ∈ cuts') : f.Blind cuts' d := by
  obtain ⟨a, g, j, hg, ⟨c, hc, hac⟩, hj, hd⟩ := h
  exact ⟨a, g, j, hg, ⟨c, hsub c hc, hac⟩, hj, hd⟩

theorem Blind.exists_cut {cuts : List Path} {f d : Formula} (h : f.Blind cuts d) :
    ∃ c, c ∈ cuts := by
  obtain ⟨_, _, _, -, ⟨c, hc, -⟩, -⟩ := h
  exact ⟨c, hc⟩

theorem Blind.mem_nodes {cuts : List Path} {f d : Formula} (h : f.Blind cuts d) : d ∈ f.nodes := by
  obtain ⟨a, g, j, hg, -, -, hd⟩ := h
  exact mem_nodes_trans (mem_nodes_of_at? hg)
    (mem_nodes_of_child (List.mem_of_getElem? hd) (self_mem_nodes d))

/-- A field is in a cut, in an expression that the search gives, or it stands in a blind spot. -/
theorem fieldAt?_cases {cuts : List Path} {f : Formula} {path t : Path} {n : String}
    (hcuts : ∀ t', path ++ t' ∈ cuts → (f.at? t').isSome = true) (ht : f.fieldAt? t = some n) :
    (∃ c ∈ cuts, c <+: path ++ t) ∨ (∃ u ∈ f.uncutSearch cuts path, u <+: path ++ t) ∨
      ∃ a h j t', t = a ++ j :: t' ∧ f.at? a = some h ∧
        (∃ c ∈ cuts, path ++ a <+: c ∧ path ++ a ≠ c) ∧ h.kind.autonomousCount ≤ j := by
  induction f using induction_children generalizing path t with
  | step f ih =>
      rw [uncutSearch_eq]
      split
      next hpath => exact Or.inl ⟨path, by simpa using hpath, List.prefix_append path t⟩
      next hpath =>
        split
        next hpre =>
          obtain ⟨c, hc, hpc⟩ := any_isPrefixOf_iff.mp hpre
          have hne : path ≠ c := fun heq => hpath (by simpa [heq] using hc)
          cases t with
          | nil =>
              obtain ⟨t', rfl⟩ := hpc
              cases t' with
              | nil => exact absurd (List.append_nil path).symm hne
              | cons i t' =>
                  have hsome := hcuts (i :: t') hc
                  rw [at?, children_of_field? ht] at hsome
                  exact absurd hsome (by simp)
          | cons j t =>
              obtain ⟨x, hx, ht⟩ := fieldAt?_cons.mp ht
              by_cases hj : f.kind.autonomousCount ≤ j
              · exact Or.inr (Or.inr ⟨[], f, j, t, rfl, rfl,
                  ⟨c, hc, by simpa using hpc, by simpa using hne⟩, hj⟩)
              · have hauto : f.autonomous[j]? = some x :=
                  autonomous_getElem?.mpr ⟨Nat.lt_of_not_le hj, hx⟩
                have hbelow : ∀ t', path ++ [j] ++ t' ∈ cuts → (x.at? t').isSome = true := by
                  intro t' ht'
                  rw [← at?_cons_of_child t' hx]
                  exact hcuts (j :: t') (by simpa using ht')
                have hpath : path ++ j :: t = path ++ [j] ++ t := by simp
                rw [hpath]
                rcases ih x (List.mem_of_getElem? hx) hbelow ht with
                  hcut | ⟨u, hu, hut⟩ | ⟨a, h, k, t', rfl, ha, habove, hk⟩
                · exact Or.inl hcut
                · refine Or.inr (Or.inl ⟨u, List.mem_flatMap.mpr ⟨(x, j), ?_, hu⟩, hut⟩)
                  exact List.mem_zipIdx_iff_getElem?.mpr hauto
                · refine Or.inr (Or.inr ⟨j :: a, h, k, t', rfl, ?_, by simpa using habove, hk⟩)
                  exact (at?_cons_of_child a hx).trans ha
        next hpre =>
          split
          next hconst =>
            exact absurd (mentions_iff_fieldAt?.mpr ⟨t, ht⟩) (not_mentions_of_constant hconst n)
          next => exact Or.inr (Or.inl ⟨path, by simp, List.prefix_append path t⟩)

end Formula

namespace Split

/-! ## Columns at cuts -/

section ReplaceCuts

variable {q : Query} {cuts : List Cut} {f g : Formula} {p : Path}

theorem at?_replaceCuts (h : replaceCuts q cuts f = .ok g)
    (hp : ∀ c ∈ cuts, ¬ c.outer <+: p ∧ ¬ p <+: c.outer) : g.at? p = f.at? p := by
  induction cuts generalizing f with
  | nil => rw [Except.ok.inj h]
  | cons c cs ih =>
      obtain ⟨f', hf', h⟩ := replaceCuts_cons h
      obtain ⟨hcp, hpc⟩ := hp c List.mem_cons_self
      rw [ih h fun d hd => hp d (List.mem_cons_of_mem c hd), Formula.at?_replaceAt? hf' hcp hpc]

/-- Outside of all cuts the fields stay. -/
theorem fieldAt?_replaceCuts (h : replaceCuts q cuts f = .ok g)
    (hp : ∀ c ∈ cuts, ¬ c.outer <+: p) : g.fieldAt? p = f.fieldAt? p := by
  induction cuts generalizing f with
  | nil => rw [Except.ok.inj h]
  | cons c cs ih =>
      obtain ⟨f', hf', h⟩ := replaceCuts_cons h
      rw [ih h fun d hd => hp d (List.mem_cons_of_mem c hd),
        Formula.fieldAt?_replaceAt? hf' (hp c List.mem_cons_self)]

theorem outline_replaceCuts (h : replaceCuts q cuts f = .ok g)
    (hp : ∀ c ∈ cuts, ¬ c.outer <+: p) {x : Formula} (hx : g.at? p = some x) :
    ∃ y, f.at? p = some y ∧ x.kind.outline = y.kind.outline := by
  induction cuts generalizing f with
  | nil => exact ⟨x, Except.ok.inj h ▸ hx, rfl⟩
  | cons c cs ih =>
      obtain ⟨f', hf', hrest⟩ := replaceCuts_cons h
      obtain ⟨z, hz, hzx⟩ := ih hrest fun d hd => hp d (List.mem_cons_of_mem c hd)
      obtain ⟨y, hy, hyz⟩ := Formula.outline_replaceAt? hf' (hp c List.mem_cons_self) hz
      exact ⟨y, hy, hzx.trans hyz⟩

/-- Inside a cut there is only its column, and it stands at the cut. -/
theorem field?_replaceCuts (h : replaceCuts q cuts f = .ok g) (hp : ∃ c ∈ cuts, c.outer <+: p)
    {x : Formula} (hx : g.at? p = some x) :
    ∃ c ∈ cuts, c.outer = p ∧ x.field? = some c.aliasName := by
  induction cuts generalizing f with
  | nil =>
      obtain ⟨c, hc, -⟩ := hp
      exact absurd hc List.not_mem_nil
  | cons c cs ih =>
      obtain ⟨f', hf', hrest⟩ := replaceCuts_cons h
      by_cases hcs : ∃ d ∈ cs, d.outer <+: p
      · obtain ⟨d, hd, hfield⟩ := ih hrest hcs
        exact ⟨d, List.mem_cons_of_mem c hd, hfield⟩
      · obtain ⟨d, hd, t, rfl⟩ := hp
        have hlater : ∀ d' ∈ cs, ¬ d'.outer <+: d.outer ++ t := fun d' hd' hin => hcs ⟨d', hd', hin⟩
        rcases List.mem_cons.mp hd with rfl | hd
        · obtain ⟨y, hy, hxy⟩ := outline_replaceCuts hrest hlater hx
          rw [Formula.at?_replaceAt?_below hf'] at hy
          cases t with
          | nil =>
              obtain rfl := Option.some.inj hy
              refine ⟨d, List.mem_cons_self, (List.append_nil _).symm, ?_⟩
              exact Formula.field?_eq_of_outline hxy
          | cons i t => cases hy
        · exact absurd (List.prefix_append d.outer t) (hlater d hd)

/-- A column stands at every cut that is in no other. -/
theorem fieldAt?_replaceCuts_outer (h : replaceCuts q cuts f = .ok g)
    (hp : ∃ c ∈ cuts, c.outer = p) (halone : ∀ c ∈ cuts, c.outer <+: p → c.outer = p) :
    ∃ c ∈ cuts, g.fieldAt? p = some c.aliasName := by
  induction cuts generalizing f with
  | nil =>
      obtain ⟨c, hc, -⟩ := hp
      exact absurd hc List.not_mem_nil
  | cons c cs ih =>
      obtain ⟨f', hf', hrest⟩ := replaceCuts_cons h
      by_cases hcs : ∃ d ∈ cs, d.outer = p
      · obtain ⟨d, hd, hfield⟩ := ih hrest hcs fun d hd => halone d (List.mem_cons_of_mem c hd)
        exact ⟨d, List.mem_cons_of_mem c hd, hfield⟩
      · obtain ⟨d, hd, rfl⟩ := hp
        rcases List.mem_cons.mp hd with rfl | hd
        · refine ⟨d, List.mem_cons_self, ?_⟩
          rw [fieldAt?_replaceCuts hrest fun d' hd' hin =>
            hcs ⟨d', hd', halone d' (List.mem_cons_of_mem d hd') hin⟩]
          have hfield := Formula.at?_replaceAt?_below hf' []
          rw [List.append_nil] at hfield
          rw [Formula.fieldAt?, hfield]
          rfl
        · exact absurd ⟨d, hd, rfl⟩ hcs

end ReplaceCuts

end Split

end FormulaSql
