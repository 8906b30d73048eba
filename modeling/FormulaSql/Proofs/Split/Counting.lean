import FormulaSql.Proofs.Split.Coverage
import FormulaSql.Proofs.Split.Exposure
import Mathlib.Algebra.GroupWithZero.Nat
import Mathlib.Data.List.Nodup
import Mathlib.Data.List.Perm.Subperm

/-!
# Counting forks

A round hands the forks of a query on to new ones. They are counted by places: a fork of a new query
stands where the old one has a fork, different forks stand at different places, and some place is
left over.

* `Formula.ForksFrom` says that forks of one formula stand where another has them
* `Query.sum_forkCount_lt` counts the forks of formulas that are taken from different places
-/

namespace FormulaSql

namespace Formula

/-! ## Paths of nodes -/

/-- The paths of all nodes, in the order of the nodes. -/
def paths : Formula → List Path := recur fun _ k =>
  [] :: k.children.zipIdx.flatMap fun (below, i) => below.map (i :: ·)

theorem paths_eq (f : Formula) :
    f.paths = [] :: f.children.zipIdx.flatMap fun (c, i) => c.paths.map (i :: ·) := by
  rw [paths, recur_eq, Kind.children_map, List.zipIdx_map, List.flatMap_map]
  rfl

theorem mem_paths_iff {f : Formula} {p : Path} : p ∈ f.paths ↔ (f.at? p).isSome = true := by
  induction f using induction_children generalizing p with
  | step f ih =>
      rw [paths_eq, List.mem_cons, List.mem_flatMap]
      constructor
      · rintro (rfl | ⟨⟨c, i⟩, hci, hp⟩)
        · rfl
        · obtain ⟨p, hbelow, rfl⟩ := List.mem_map.mp hp
          have hc := List.mem_zipIdx_iff_getElem?.mp hci
          rw [at?_cons_of_child p hc]
          exact (ih c (List.mem_of_getElem? hc)).mp hbelow
      · intro hp
        cases p with
        | nil => exact Or.inl rfl
        | cons i p =>
            rw [at?] at hp
            split at hp
            next c hc =>
              refine Or.inr ⟨(c, i), List.mem_zipIdx_iff_getElem?.mpr hc, ?_⟩
              exact List.mem_map_of_mem ((ih c (List.mem_of_getElem? hc)).mpr hp)
            next => exact absurd hp (by simp)

theorem nodup_paths (f : Formula) : f.paths.Nodup := by
  induction f using induction_children with
  | step f ih =>
      rw [paths_eq, List.nodup_cons, List.nodup_flatMap]
      refine ⟨fun hnil => ?_, fun ci hci => ?_, (pairwise_zipIdx f.children).imp fun hne => ?_⟩
      · obtain ⟨ci, -, hnil⟩ := List.mem_flatMap.mp hnil
        obtain ⟨p, -, hp⟩ := List.mem_map.mp hnil
        exact absurd hp (by simp)
      · have hc := List.fst_mem_of_mem_zipIdx hci
        exact (ih ci.1 hc).map fun p p' hp => (List.cons.inj hp).2
      · intro p hp hp'
        obtain ⟨t, -, rfl⟩ := List.mem_map.mp hp
        obtain ⟨t', -, heq⟩ := List.mem_map.mp hp'
        exact hne (List.cons.inj heq).1.symm

theorem filterMap_at?_paths (f : Formula) : f.paths.filterMap f.at? = f.nodes := by
  induction f using induction_children with
  | step f ih =>
      have hchild : ∀ ci ∈ f.children.zipIdx,
          (ci.1.paths.map (ci.2 :: ·)).filterMap f.at? = ci.1.nodes := by
        intro ci hci
        have hc := List.mem_zipIdx_iff_getElem?.mp hci
        rw [List.filterMap_map, ← ih ci.1 (List.mem_of_getElem? hc)]
        exact List.filterMap_congr fun p _ => at?_cons_of_child p hc
      have hfst : f.children.zipIdx.flatMap (fun ci => ci.1.nodes) = f.children.flatMap nodes := by
        rw [← List.flatMap_map, List.zipIdx_map_fst]
      have hroot : f.at? [] = some f := rfl
      rw [paths_eq, nodes_eq, List.filterMap_cons_some hroot, List.filterMap_flatMap, ← hfst]
      exact congrArg (f :: ·) (List.flatMap_congr hchild)

/-! ## Forks by path -/

/-- The number of forks in the formula, those inside of others included. -/
def forkCount (f : Formula) : Nat := f.nodes.countP isFork

/-- A fork stands at the path. -/
def forkAt (f : Formula) (p : Path) : Bool := (f.at? p).any isFork

/-- The paths of all forks. -/
def allForks (f : Formula) : List Path := f.paths.filter f.forkAt

section Forks

variable {f g : Formula} {p : Path}

theorem forkAt_iff : f.forkAt p = true ↔ ∃ x, f.at? p = some x ∧ x.isFork = true := by
  rw [forkAt, Option.any_eq_true]

theorem mem_allForks_iff : p ∈ f.allForks ↔ f.forkAt p = true := by
  rw [allForks, List.mem_filter, mem_paths_iff, and_iff_right_iff_imp, forkAt_iff]
  rintro ⟨x, hx, -⟩
  rw [hx]
  rfl

theorem nodup_allForks (f : Formula) : f.allForks.Nodup := (nodup_paths f).filter _

theorem length_allForks (f : Formula) : f.allForks.length = f.forkCount := by
  rw [forkCount, ← filterMap_at?_paths, List.countP_filterMap, allForks,
    ← List.countP_eq_length_filter]
  refine List.countP_congr fun p _ => ?_
  rw [forkAt]
  cases f.at? p <;> simp

theorem containsFork_iff_forkAt : f.containsFork = true ↔ ∃ p, f.forkAt p = true := by
  rw [containsFork, any, List.any_eq_true]
  constructor
  · rintro ⟨x, hx, hfork⟩
    obtain ⟨p, hp⟩ := exists_at?_of_mem_nodes hx
    exact ⟨p, forkAt_iff.mpr ⟨x, hp, hfork⟩⟩
  · rintro ⟨p, hp⟩
    obtain ⟨x, hx, hfork⟩ := forkAt_iff.mp hp
    exact ⟨x, mem_nodes_of_at? hx, hfork⟩

theorem forkCount_eq_zero (h : f.containsFork = false) : f.forkCount = 0 := by
  rw [containsFork, any, List.any_eq_false] at h
  exact List.countP_eq_zero.mpr h

/-- Every fork of the second formula stands where the first has one, and differs from it in nothing
but the children. -/
def ForksFrom (f g : Formula) : Prop :=
  ∀ p y, g.at? p = some y → y.isFork = true →
    ∃ x, f.at? p = some x ∧ x.kind.outline = y.kind.outline

theorem ForksFrom.refl (f : Formula) : f.ForksFrom f := fun _ y hy _ => ⟨y, hy, rfl⟩

theorem ForksFrom.trans {h : Formula} (hfg : f.ForksFrom g) (hgh : g.ForksFrom h) :
    f.ForksFrom h := by
  intro p z hz hfork
  obtain ⟨y, hy, hyz⟩ := hgh p z hz hfork
  obtain ⟨x, hx, hxy⟩ := hfg p y hy (isFork_eq_of_outline hyz ▸ hfork)
  exact ⟨x, hx, hxy.trans hyz⟩

theorem forksFrom_of_not_containsFork (f : Formula) (h : g.containsFork = false) :
    f.ForksFrom g := by
  intro p y hy hfork
  have hcontains := containsFork_iff_forkAt.mpr ⟨p, forkAt_iff.mpr ⟨y, hy, hfork⟩⟩
  exact absurd (h.symm.trans hcontains) (by simp)

theorem ForksFrom.forkAt (h : f.ForksFrom g) (hp : g.forkAt p = true) : f.forkAt p = true := by
  obtain ⟨y, hy, hfork⟩ := forkAt_iff.mp hp
  obtain ⟨x, hx, hxy⟩ := h p y hy hfork
  exact forkAt_iff.mpr ⟨x, hx, (isFork_eq_of_outline hxy).trans hfork⟩

theorem ForksFrom.not_containsFork (h : f.ForksFrom g) (hf : f.containsFork = false) :
    g.containsFork = false := by
  rw [← Bool.not_eq_true, containsFork_iff_forkAt] at hf ⊢
  exact fun ⟨p, hp⟩ => hf ⟨p, h.forkAt hp⟩

theorem ForksFrom.allForks_subset (h : f.ForksFrom g) : g.allForks ⊆ f.allForks :=
  fun _ hp => mem_allForks_iff.mpr (h.forkAt (mem_allForks_iff.mp hp))

theorem ForksFrom.forkCount_le (h : f.ForksFrom g) : g.forkCount ≤ f.forkCount := by
  rw [← length_allForks, ← length_allForks]
  exact (List.subperm_of_subset (nodup_allForks g) h.allForks_subset).length_le

/-- A fork is lost where the second formula has none. -/
theorem ForksFrom.forkCount_lt (h : f.ForksFrom g) (hf : f.forkAt p = true)
    (hg : g.forkAt p = false) : g.forkCount < f.forkCount := by
  rw [← length_allForks, ← length_allForks]
  have hnodup : (p :: g.allForks).Nodup := by
    refine List.nodup_cons.mpr ⟨fun hmem => ?_, nodup_allForks g⟩
    exact absurd (hg.symm.trans (mem_allForks_iff.mp hmem)) (by simp)
  have hsub : p :: g.allForks ⊆ f.allForks :=
    List.cons_subset.mpr ⟨mem_allForks_iff.mpr hf, h.allForks_subset⟩
  exact (List.subperm_of_subset hnodup hsub).length_le

/-! Rewriting. -/

theorem forksFrom_withChildren (f : Formula) (cs : List Formula)
    (h : List.Forall₂ ForksFrom f.children cs) : f.ForksFrom (f.withChildren cs) := by
  intro p y hy hfork
  cases p with
  | nil =>
      obtain rfl := Option.some.inj hy
      exact ⟨f, rfl, (outline_withChildren f cs).symm⟩
  | cons i p =>
      rw [at?, children_withChildren f cs h.length_eq.symm] at hy
      split at hy
      next d hd =>
        obtain ⟨c, hc, hcd⟩ := exists_getElem?_of_forall₂ h.flip hd
        rw [at?_cons_of_child p hc]
        exact hcd p y hy hfork
      next => exact absurd hy (by simp)

theorem forksFrom_transform {rule : Rule} (f : Formula)
    (hrule : ∀ above g r, rule above g = some r → r.containsFork = false) :
    f.ForksFrom (f.transform rule) := by
  refine transform_rel (Q := fun _ => True) (fun _ _ _ _ => trivial) ?_ ?_ ?_ trivial
  · exact fun f _ => .refl f
  · exact fun f cs _ hcs => forksFrom_withChildren f cs hcs
  · exact fun above f g r _ _ _ hr => forksFrom_of_not_containsFork f (hrule above g r hr)

theorem forksFrom_replaceAt? {r : Formula} (hr : r.containsFork = false)
    (h : f.replaceAt? r p = some g) : f.ForksFrom g :=
  replaceAt?_rel .refl forksFrom_withChildren (fun x _ => forksFrom_of_not_containsFork x hr) h

end Forks

/-! ## Forks in results -/

/-- A fork inside of another one is in its result. -/
def ForksInResults (f : Formula) : Prop :=
  ∀ g ∈ f.nodes, g.isFork = true → ∀ d ∈ g.children.tail, d.containsFork = false

instance (f : Formula) : Decidable f.ForksInResults :=
  inferInstanceAs (Decidable
    (∀ g ∈ f.nodes, g.isFork = true → ∀ d ∈ g.children.tail, d.containsFork = false))

theorem forksInResults_iff {f : Formula} :
    f.ForksInResults ↔ ∀ p i t, f.forkAt p = true → f.forkAt (p ++ i :: t) = true → i = 0 := by
  constructor
  · intro h p i t hp hbelow
    obtain ⟨g, hg, hfork⟩ := forkAt_iff.mp hp
    obtain ⟨x, hx, hxfork⟩ := forkAt_iff.mp hbelow
    rw [at?_append, hg, Option.bind_some, at?] at hx
    split at hx
    next d hd =>
      cases i with
      | zero => rfl
      | succ i =>
          rw [← List.getElem?_tail] at hd
          have hnot := h g (mem_nodes_of_at? hg) hfork d (List.mem_of_getElem? hd)
          have hcontains := containsFork_iff_forkAt.mpr ⟨t, forkAt_iff.mpr ⟨x, hx, hxfork⟩⟩
          exact absurd (hnot.symm.trans hcontains) (by simp)
    next => exact absurd hx (by simp)
  · intro h g hg hfork d hd
    obtain ⟨p, hp⟩ := exists_at?_of_mem_nodes hg
    obtain ⟨i, hi⟩ := List.mem_iff_getElem?.mp hd
    rw [List.getElem?_tail] at hi
    rw [← Bool.not_eq_true, containsFork_iff_forkAt]
    rintro ⟨t, ht⟩
    obtain ⟨x, hx, hxfork⟩ := forkAt_iff.mp ht
    have hbelow : f.forkAt (p ++ (i + 1) :: t) = true := by
      refine forkAt_iff.mpr ⟨x, ?_, hxfork⟩
      rw [at?_append, hp, Option.bind_some, at?_cons_of_child t hi, hx]
    exact absurd (h p (i + 1) t (forkAt_iff.mpr ⟨g, hp, hfork⟩) hbelow) (by simp)

theorem ForksFrom.forksInResults {f g : Formula} (h : f.ForksFrom g) (hf : f.ForksInResults) :
    g.ForksInResults := by
  rw [forksInResults_iff] at hf ⊢
  exact fun p i t hp hbelow => hf p i t (h.forkAt hp) (h.forkAt hbelow)

theorem ForksInResults.of_node {f g : Formula} (hf : f.ForksInResults) (hg : g ∈ f.nodes) :
    g.ForksInResults := fun x hx => hf x (mem_nodes_trans hg hx)

end Formula

/-! ## Places in a query -/

/-- A place in a query: a node of one of its formulas. -/
structure Place where
  part : Part
  index : Nat
  path : Path
  deriving DecidableEq

namespace Place

/-- The second place is the first one or inside of it. -/
def Above (r s : Place) : Prop := r.part = s.part ∧ r.index = s.index ∧ r.path <+: s.path

/-- Neither place is inside of the other. -/
def Beside (r s : Place) : Prop := ¬ r.Above s ∧ ¬ s.Above r

theorem Beside.symm {r s : Place} (h : r.Beside s) : s.Beside r := ⟨h.2, h.1⟩

/-- Nothing is inside of two places that are beside each other. -/
theorem Beside.not_above {r s t : Place} (h : r.Beside s) (hr : r.Above t) : ¬ s.Above t := by
  intro hs
  rcases List.prefix_or_prefix_of_prefix hr.2.2 hs.2.2 with hpre | hpre
  · exact h.1 ⟨hr.1.trans hs.1.symm, hr.2.1.trans hs.2.1.symm, hpre⟩
  · exact h.2 ⟨hs.1.trans hr.1.symm, hs.2.1.trans hr.2.1.symm, hpre⟩

end Place

namespace Query

/-- The node at a place. -/
def nodeAt? (q : Query) (r : Place) : Option Formula :=
  (q.part r.part)[r.index]?.bind fun e => e.formula.at? r.path

/-- The number of forks in the parts that forks are cut out of. -/
def forkCount (q : Query) : Nat :=
  (Part.splittable.map fun p => ((q.part p).map fun e => e.formula.forkCount).sum).sum

/-- The places of all forks. -/
def forkPlaces (q : Query) : List Place :=
  Part.splittable.flatMap fun p => (q.part p).zipIdx.flatMap fun ei =>
    ei.1.formula.allForks.map (Place.mk p ei.2)

/-- The places of the forks in the node at a place. -/
def forksBelow (q : Query) (r : Place) : List Place :=
  ((q.nodeAt? r).elim [] Formula.allForks).map fun p => { r with path := r.path ++ p }

section Places

variable {q : Query} {r s : Place}

theorem nodeAt?_eq_some {f : Formula} : q.nodeAt? r = some f ↔
    ∃ e, (q.part r.part)[r.index]? = some e ∧ e.formula.at? r.path = some f :=
  Option.bind_eq_some_iff

theorem length_forkPlaces (q : Query) : q.forkPlaces.length = q.forkCount := by
  have hpart (p : Part) : ((q.part p).zipIdx.flatMap fun ei =>
      ei.1.formula.allForks.map (Place.mk p ei.2)).length =
        ((q.part p).map fun e => e.formula.forkCount).sum := by
    simp only [List.length_flatMap, List.length_map, Formula.length_allForks]
    conv_rhs => rw [← List.zipIdx_map_fst 0 (q.part p), List.map_map]
    rfl
  rw [forkPlaces, List.length_flatMap, forkCount]
  simp only [hpart]

theorem mem_forkPlaces {f : Formula} (hpart : s.part ∈ Part.splittable)
    (hs : q.nodeAt? s = some f) (hfork : f.isFork = true) : s ∈ q.forkPlaces := by
  obtain ⟨e, he, hf⟩ := nodeAt?_eq_some.mp hs
  refine List.mem_flatMap.mpr ⟨s.part, hpart, List.mem_flatMap.mpr ⟨(e, s.index), ?_, ?_⟩⟩
  · exact List.mem_zipIdx_iff_getElem?.mpr he
  · exact List.mem_map.mpr ⟨s.path, Formula.mem_allForks_iff.mpr
      (Formula.forkAt_iff.mpr ⟨f, hf, hfork⟩), rfl⟩

theorem above_of_mem_forksBelow (h : s ∈ q.forksBelow r) : r.Above s := by
  obtain ⟨p, -, rfl⟩ := List.mem_map.mp h
  exact ⟨rfl, rfl, List.prefix_append r.path p⟩

theorem mem_forkPlaces_of_below (hpart : r.part ∈ Part.splittable) (h : s ∈ q.forksBelow r) :
    s ∈ q.forkPlaces := by
  obtain ⟨p, hp, rfl⟩ := List.mem_map.mp h
  cases hf : q.nodeAt? r with
  | none =>
      rw [hf] at hp
      exact absurd hp List.not_mem_nil
  | some f =>
      rw [hf] at hp
      obtain ⟨x, hx, hfork⟩ := Formula.forkAt_iff.mp (Formula.mem_allForks_iff.mp hp)
      obtain ⟨e, he, hat⟩ := nodeAt?_eq_some.mp hf
      refine mem_forkPlaces hpart (nodeAt?_eq_some.mpr ⟨e, he, ?_⟩) hfork
      rw [Formula.at?_append, hat, Option.bind_some, hx]

theorem nodup_forksBelow (q : Query) (r : Place) : (q.forksBelow r).Nodup := by
  have hnodup : ((q.nodeAt? r).elim [] Formula.allForks).Nodup := by
    cases q.nodeAt? r with
    | none => exact List.nodup_nil
    | some f => exact Formula.nodup_allForks f
  refine hnodup.map fun p p' heq => ?_
  exact List.append_cancel_left (congrArg Place.path heq)

/-- Formulas are taken from places beside each other, and some fork is at none of them. -/
theorem sum_forkCount_lt {rs : List Place} {es : List Entry}
    (hes : List.Forall₂ (fun r e => ∃ f, q.nodeAt? r = some f ∧ f.ForksFrom e.formula) rs es)
    (hparts : ∀ r ∈ rs, r.part ∈ Part.splittable) (hbeside : rs.Pairwise Place.Beside)
    (hs : s ∈ q.forkPlaces) (hnot : ∀ r ∈ rs, ¬ r.Above s) :
    (es.map fun e => e.formula.forkCount).sum < q.forkCount := by
  have hcount : (es.map fun e => e.formula.forkCount).sum ≤
      (rs.map fun r => (q.forksBelow r).length).sum := by
    clear hparts hbeside hnot
    induction hes with
    | nil => exact Nat.le_refl 0
    | cons hre _ ih =>
        obtain ⟨f, hf, hforks⟩ := hre
        rw [List.map_cons, List.sum_cons, List.map_cons, List.sum_cons]
        refine Nat.add_le_add ?_ ih
        rw [forksBelow, hf, List.length_map]
        exact (Formula.length_allForks f).symm ▸ hforks.forkCount_le
  have hnodup : (s :: rs.flatMap q.forksBelow).Nodup := by
    refine List.nodup_cons.mpr ⟨fun hmem => ?_, List.nodup_flatMap.mpr ⟨?_, ?_⟩⟩
    · obtain ⟨r, hr, hbelow⟩ := List.mem_flatMap.mp hmem
      exact hnot r hr (above_of_mem_forksBelow hbelow)
    · exact fun r _ => nodup_forksBelow q r
    · refine hbeside.imp fun hrs t ht ht' => ?_
      exact hrs.not_above (above_of_mem_forksBelow ht) (above_of_mem_forksBelow ht')
  have hsub : s :: rs.flatMap q.forksBelow ⊆ q.forkPlaces := by
    refine List.cons_subset.mpr ⟨hs, fun t ht => ?_⟩
    obtain ⟨r, hr, hbelow⟩ := List.mem_flatMap.mp ht
    exact mem_forkPlaces_of_below (hparts r hr) hbelow
  have hlength := (List.subperm_of_subset hnodup hsub).length_le
  rw [List.length_cons, List.length_flatMap, length_forkPlaces] at hlength
  omega

end Places

end Query

end FormulaSql
