import FormulaSql.Formula.Path
import FormulaSql.Formula.Transform
import FormulaSql.Proofs.Formula.Nodes

/-!
# What rewriting preserves

Both ways of changing a formula, replacing one node at a path and transforming all nodes by a rule,
rebuild the nodes above the change with `withChildren`. So a relation between old and new formulas
holds of the whole as soon as it holds of every replacement and passes from children to a rebuilt
node.

* `Formula.replaceAt?_rel` and `Formula.transform_rel` are the two inductions
* `Formula.onSurface_iff` and `Formula.OnSurface.withChildren` say how a property of the nodes that
  a search for forks meets is proved, and how it passes to a node with other children
-/

namespace FormulaSql.Formula

/-! ## Replacing at a path -/

theorem at?_cons_of_child {f c : Formula} {i : Nat} (p : Path) (h : f.children[i]? = some c) :
    f.at? (i :: p) = c.at? p := by
  rw [at?, h]

theorem mem_nodes_of_at? {f g : Formula} {p : Path} (h : f.at? p = some g) : g ∈ f.nodes := by
  induction p generalizing f with
  | nil =>
      obtain rfl := Option.some.inj h
      exact self_mem_nodes f
  | cons i p ih =>
      rw [at?] at h
      split at h
      next c hc => exact mem_nodes_of_child (List.mem_of_getElem? hc) (ih h)
      next => exact absurd h (by simp)

theorem exists_at?_of_mem_nodes {f g : Formula} (h : g ∈ f.nodes) : ∃ p, f.at? p = some g := by
  induction f using induction_children with
  | step f ih =>
      rcases mem_nodes_iff.mp h with rfl | ⟨c, hc, hg⟩
      · exact ⟨[], rfl⟩
      · obtain ⟨p, hp⟩ := ih c hc hg
        obtain ⟨i, hi⟩ := List.mem_iff_getElem?.mp hc
        exact ⟨i :: p, (at?_cons_of_child p hi).trans hp⟩

theorem replaceAt?_cons {f r g : Formula} {i : Nat} {p : Path}
    (h : f.replaceAt? r (i :: p) = some g) :
    ∃ c d, f.children[i]? = some c ∧ c.replaceAt? r p = some d ∧
      g = f.withChildren (f.children.set i d) := by
  rw [replaceAt?] at h
  split at h
  next c hc =>
    obtain ⟨d, hd, rfl⟩ := Option.map_eq_some_iff.mp h
    exact ⟨c, d, hc, hd, rfl⟩
  next => exact absurd h (by simp)

theorem children_withChildren_set (f d : Formula) (i : Nat) :
    (f.withChildren (f.children.set i d)).children = f.children.set i d :=
  children_withChildren f _ List.length_set

theorem mem_nodes_of_replaceAt? {f r g : Formula} {p : Path} (h : f.replaceAt? r p = some g) :
    r ∈ g.nodes := by
  induction p generalizing f g with
  | nil =>
      obtain rfl := Option.some.inj h
      exact self_mem_nodes r
  | cons i p ih =>
      obtain ⟨c, d, hc, hd, rfl⟩ := replaceAt?_cons h
      have hi : i < f.children.length := (List.getElem?_eq_some_iff.mp hc).1
      refine mem_nodes_of_child ?_ (ih hd)
      rw [children_withChildren_set]
      exact List.mem_set hi d

/-- A relation that passes to rebuilt nodes holds after a replacement if it holds at the path. -/
theorem replaceAt?_rel {R : Formula → Formula → Prop} (refl : ∀ f, R f f)
    (node : ∀ f cs, List.Forall₂ R f.children cs → R f (f.withChildren cs))
    {f r g : Formula} {p : Path} (hr : ∀ x, f.at? p = some x → R x r)
    (h : f.replaceAt? r p = some g) : R f g := by
  induction p generalizing f g with
  | nil =>
      obtain rfl := Option.some.inj h
      exact hr f rfl
  | cons i p ih =>
      obtain ⟨c, d, hc, hd, rfl⟩ := replaceAt?_cons h
      have hcd : R c d := ih (fun x hx => hr x ((at?_cons_of_child p hc).trans hx)) hd
      exact node f _ (forall₂_set refl hc hcd)

/-! ## Transforming by a rule -/

/-- A node that is built again only for other children shows whether the children are others. -/
theorem rebuilt_beq_iff {f : Formula} {cs : List Formula} (hcs : cs.length = f.children.length) :
    ((if cs == f.children then f else f.withChildren cs) == f) = true ↔
      (cs == f.children) = true := by
  split
  next hsame => exact iff_of_true BEq.rfl hsame
  next hchanged =>
    refine iff_of_false (fun hsame => hchanged ?_) hchanged
    have hforall := (same_iff.mp hsame).2.2
    rw [children_withChildren f cs hcs] at hforall
    exact list_beq_iff.mpr hforall

/-- What becomes of one child. -/
def transformChild (rule : Rule) (above : List Formula) (c : Formula) : Formula :=
  let c' := c.transformBelow rule above
  let c' := (rule above c').getD c'
  if c' == c then c else c'

/-- Below the top, every child is transformed, with the nodes above it as they were. -/
theorem transformBelow_eq (rule : Rule) (f : Formula) (above : List Formula) :
    f.transformBelow rule above =
      let cs := f.children.map (transformChild rule (above ++ [f]))
      if cs == f.children then f else f.withChildren cs := by
  rw [transformBelow, recur_eq, Kind.children_map]
  dsimp only
  rw [← children, List.zipWith_map_right, List.zipWith_self]
  rfl

section Rel

variable {Q : Formula → Prop} {R : Formula → Formula → Prop} {rule : Rule}
  (below : ∀ f, Q f → ∀ c ∈ f.children, Q c) (refl : ∀ f, Q f → R f f)
  (node : ∀ f cs, Q f → List.Forall₂ R f.children cs → R f (f.withChildren cs))
  (step : ∀ above f g r, (∀ a ∈ above, Q a) → Q f → R f g → rule above g = some r → R f r)

include below refl node step

theorem transformBelow_rel {f : Formula} (hf : Q f) {above : List Formula}
    (habove : ∀ a ∈ above, Q a) : R f (f.transformBelow rule above) := by
  induction f using induction_children generalizing above with
  | step f ih =>
      have hhere : ∀ a ∈ above ++ [f], Q a := by
        intro a ha
        rcases List.mem_append.mp ha with ha | ha
        · exact habove a ha
        · exact List.mem_singleton.mp ha ▸ hf
      have hchild : ∀ c ∈ f.children, R c (transformChild rule (above ++ [f]) c) := by
        intro c hc
        have hQ := below f hf c hc
        have hbelow := ih c hc hQ hhere
        rw [transformChild]
        split
        · exact refl c hQ
        · cases hr : rule (above ++ [f]) (c.transformBelow rule (above ++ [f])) with
          | none => exact hbelow
          | some r => exact step _ c _ r hhere hQ hbelow hr
      rw [transformBelow_eq]
      dsimp only
      split
      · exact refl f hf
      · refine node f _ hf ?_
        rw [List.forall₂_map_right_iff]
        exact List.forall₂_same.mpr hchild

/-- A relation that passes to rebuilt nodes and that the rule keeps holds between a formula and its
transform. Whatever holds of a formula and of all nodes below may be used of the nodes above. -/
theorem transform_rel {f : Formula} (hf : Q f) : R f (f.transform rule) := by
  have hbelow : R f (f.transformBelow rule []) :=
    transformBelow_rel below refl node step hf fun a ha => absurd ha List.not_mem_nil
  rw [transform]
  split
  next r hr =>
    split
    · exact refl f hf
    · exact step [] f _ r (fun a ha => absurd ha List.not_mem_nil) hf hbelow hr
  next => exact hbelow

end Rel

/-! ## Fields under rewriting -/

/-- All fields that the formula mentions are among those allowed. -/
def Within (S : String → Prop) (f : Formula) : Prop := ∀ n, f.Mentions n → S n

section Within

variable {S : String → Prop}

theorem Within.of_node {f g : Formula} (hf : f.Within S) (hg : g ∈ f.nodes) : g.Within S :=
  fun n hn => hf n (hn.of_node hg)

theorem Within.of_child {f c : Formula} (hf : f.Within S) (hc : c ∈ f.children) : c.Within S :=
  hf.of_node (mem_nodes_of_child hc (self_mem_nodes c))

/-- A node is within the allowed fields if its own name and all its children are. -/
theorem within_iff {f : Formula} :
    f.Within S ↔ (∀ n, f.field? = some n → S n) ∧ ∀ c ∈ f.children, c.Within S := by
  constructor
  · intro hf
    exact ⟨fun n hn => hf n (mentions_iff.mpr (Or.inl hn)), fun c hc => hf.of_child hc⟩
  · rintro ⟨hown, hcs⟩ n hn
    rcases mentions_iff.mp hn with h | ⟨c, hc, h⟩
    · exact hown n h
    · exact hcs c hc n h

theorem field?_withChildren (f : Formula) (cs : List Formula) :
    (f.withChildren cs).field? = f.field? :=
  field?_eq_of_outline (Kind.outline_withChildren f.kind cs)

theorem isFork_withChildren (f : Formula) (cs : List Formula) :
    (f.withChildren cs).isFork = f.isFork :=
  isFork_eq_of_outline (Kind.outline_withChildren f.kind cs)

/-- A node rebuilt from children that stay within the allowed fields stays within them. -/
theorem within_withChildren (f : Formula) (cs : List Formula)
    (hcs : List.Forall₂ (fun c d => c.Within S → d.Within S) f.children cs) (hf : f.Within S) :
    (f.withChildren cs).Within S := by
  rw [within_iff, field?_withChildren, children_withChildren f cs hcs.length_eq.symm]
  refine ⟨(within_iff.mp hf).1, fun d hd => ?_⟩
  obtain ⟨c, hc, hcd⟩ := forall₂_exists_left hcs hd
  exact hcd (hf.of_child hc)

/-- A rule that only offers allowed fields keeps a formula within them. -/
theorem within_transform {rule : Rule}
    (step : ∀ above f r, (∀ a ∈ above, a.Within S) → f.Within S → rule above f = some r →
      r.Within S) {f : Formula} (hf : f.Within S) : (f.transform rule).Within S := by
  refine transform_rel (Q := Within S) (R := fun f g => f.Within S → g.Within S) ?_ ?_ ?_ ?_ hf hf
  · exact fun f hf c hc => hf.of_child hc
  · exact fun f _ hf => hf
  · exact fun f cs _ hcs => within_withChildren f cs hcs
  · exact fun above f g r habove hf hg hr _ => step above g r habove (hg hf) hr

theorem within_replaceAt? {f r g : Formula} {p : Path} (hf : f.Within S) (hr : r.Within S)
    (h : f.replaceAt? r p = some g) : g.Within S :=
  replaceAt?_rel (R := fun f g => f.Within S → g.Within S) (fun _ h => h) within_withChildren
    (fun _ _ _ => hr) h hf

end Within

/-! ## The surface of a formula

Whoever looks for forks goes down through the children that are expressions of their own and stops
at the first fork on each way. The nodes that are met are the surface of the formula. Orderings and
groupings of window calls are not on it, nor are levels of detail. -/

/-- The nodes that are met on the ways down through expressions of their own, up to the first
fork. -/
def surface : Formula → List Formula := recur fun f k =>
  f :: if f.isFork then [] else k.autonomous.flatten

/-- All nodes on the surface have the property. -/
def OnSurface (P : Formula → Prop) (f : Formula) : Prop := ∀ g ∈ f.surface, P g

section Surface

variable {P : Formula → Prop} {f g c : Formula}

theorem mem_children_of_autonomous (h : c ∈ f.autonomous) : c ∈ f.children :=
  List.mem_of_mem_take h

theorem mem_surface_iff :
    g ∈ f.surface ↔ g = f ∨ f.isFork = false ∧ ∃ c ∈ f.autonomous, g ∈ c.surface := by
  rw [surface, recur_eq, Kind.autonomous_map, List.mem_cons]
  refine or_congr_right ?_
  cases f.isFork with
  | true => simp
  | false =>
      simp only [Bool.false_eq_true, if_false, true_and]
      exact List.mem_flatMap

theorem self_mem_surface (f : Formula) : f ∈ f.surface := mem_surface_iff.mpr (Or.inl rfl)

theorem mem_surface_of_autonomous (hfork : f.isFork = false) (hc : c ∈ f.autonomous)
    (hg : g ∈ c.surface) : g ∈ f.surface :=
  mem_surface_iff.mpr (Or.inr ⟨hfork, c, hc, hg⟩)

theorem mem_nodes_of_surface (h : g ∈ f.surface) : g ∈ f.nodes := by
  induction f using induction_children with
  | step f ih =>
      rcases mem_surface_iff.mp h with rfl | ⟨-, c, hc, hg⟩
      · exact self_mem_nodes g
      · have hchild := mem_children_of_autonomous hc
        exact mem_nodes_of_child hchild (ih c hchild hg)

theorem mem_surface_trans (hg : g ∈ f.surface) (hc : c ∈ g.surface) : c ∈ f.surface := by
  induction f using induction_children with
  | step f ih =>
      rcases mem_surface_iff.mp hg with rfl | ⟨hfork, d, hd, hg⟩
      · exact hc
      · exact mem_surface_of_autonomous hfork hd (ih d (mem_children_of_autonomous hd) hg)

/-- A child that is an expression of its own, given by the kind of the node. -/
theorem mem_surface_of_kind {k : Kind Formula} (hk : f.kind = k) (hfork : isForkNode k = false)
    (hc : c ∈ k.autonomous) : c ∈ f.surface := by
  subst hk
  exact mem_surface_of_autonomous ((isFork_eq f).trans hfork) hc (self_mem_surface c)

theorem onSurface_iff :
    f.OnSurface P ↔ P f ∧ (f.isFork = false → ∀ c ∈ f.autonomous, c.OnSurface P) := by
  constructor
  · intro h
    exact ⟨h f (self_mem_surface f), fun hfork c hc g hg =>
      h g (mem_surface_of_autonomous hfork hc hg)⟩
  · rintro ⟨hown, hbelow⟩ g hg
    rcases mem_surface_iff.mp hg with rfl | ⟨hfork, c, hc, hg⟩
    · exact hown
    · exact hbelow hfork c hc g hg

theorem OnSurface.of_mem (h : f.OnSurface P) (hg : g ∈ f.surface) : g.OnSurface P :=
  fun _ hx => h _ (mem_surface_trans hg hx)

theorem OnSurface.root (h : f.OnSurface P) : P f := h f (self_mem_surface f)

/-- The children that are expressions of their own keep their places. -/
theorem exists_autonomous_of_withChildren {R : Formula → Formula → Prop} {cs : List Formula}
    {d : Formula} (hcs : List.Forall₂ R f.children cs) (hd : d ∈ (f.withChildren cs).autonomous) :
    ∃ c ∈ f.autonomous, R c d := by
  have hchildren : (f.withChildren cs).kind.children = cs :=
    children_withChildren f cs hcs.length_eq.symm
  rw [autonomous, Kind.autonomous, hchildren,
    Kind.autonomousCount_eq_of_outline (outline_withChildren f cs)] at hd
  exact forall₂_exists_left (List.forall₂_take f.kind.autonomousCount hcs) hd

/-- A node with other children keeps the property if its own node does, and each child. -/
theorem OnSurface.withChildren {cs : List Formula} (h : f.OnSurface P)
    (hown : P (f.withChildren cs))
    (hcs : List.Forall₂ (fun c d => c.OnSurface P → d.OnSurface P) f.children cs) :
    (f.withChildren cs).OnSurface P := by
  refine onSurface_iff.mpr ⟨hown, fun hfork d hd => ?_⟩
  rw [isFork_withChildren] at hfork
  obtain ⟨c, hc, hcd⟩ := exists_autonomous_of_withChildren hcs hd
  exact hcd ((onSurface_iff.mp h).2 hfork c hc)

end Surface

end FormulaSql.Formula
