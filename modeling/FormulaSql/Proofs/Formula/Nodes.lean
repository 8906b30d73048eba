import FormulaSql.Analysis.Contents
import FormulaSql.Proofs.Formula.Children

/-!
# The nodes of a formula and the fields it mentions

Membership in `nodes` is reachability through children. `Formula.Mentions` says that a field stands
somewhere in a formula, in any child position. The comparison of formulas is an equivalence, and
formulas that compare equal have nodes that compare equal; so they mention the same fields.
-/

namespace FormulaSql

namespace Formula

/-! ## Nodes -/

theorem mem_nodes_iff {f g : Formula} :
    g ∈ f.nodes ↔ g = f ∨ ∃ c ∈ f.children, g ∈ c.nodes := by
  rw [nodes_eq, List.mem_cons, List.mem_flatMap]

@[simp]
theorem self_mem_nodes (f : Formula) : f ∈ f.nodes := mem_nodes_iff.mpr (Or.inl rfl)

theorem mem_nodes_of_child {f g c : Formula} (hc : c ∈ f.children) (hg : g ∈ c.nodes) :
    g ∈ f.nodes :=
  mem_nodes_iff.mpr (Or.inr ⟨c, hc, hg⟩)

theorem exists_mem_nodes_iff {f : Formula} {P : Formula → Prop} :
    (∃ g ∈ f.nodes, P g) ↔ P f ∨ ∃ c ∈ f.children, ∃ g ∈ c.nodes, P g := by
  constructor
  · rintro ⟨g, hg, hP⟩
    rcases mem_nodes_iff.mp hg with rfl | ⟨c, hc, hgc⟩
    · exact Or.inl hP
    · exact Or.inr ⟨c, hc, g, hgc, hP⟩
  · rintro (hP | ⟨c, hc, g, hg, hP⟩)
    · exact ⟨f, self_mem_nodes f, hP⟩
    · exact ⟨g, mem_nodes_of_child hc hg, hP⟩

theorem forall_mem_nodes_iff {f : Formula} {P : Formula → Prop} :
    (∀ g ∈ f.nodes, P g) ↔ P f ∧ ∀ c ∈ f.children, ∀ g ∈ c.nodes, P g := by
  constructor
  · intro h
    exact ⟨h f (self_mem_nodes f), fun c hc g hg => h g (mem_nodes_of_child hc hg)⟩
  · rintro ⟨hown, hcs⟩ g hg
    rcases mem_nodes_iff.mp hg with rfl | ⟨c, hc, hg⟩
    · exact hown
    · exact hcs c hc g hg

theorem mem_nodes_trans {f g h : Formula} (hg : g ∈ f.nodes) (hh : h ∈ g.nodes) :
    h ∈ f.nodes := by
  induction f using induction_children with
  | step f ih =>
      rcases mem_nodes_iff.mp hg with rfl | ⟨c, hc, hgc⟩
      · exact hh
      · exact mem_nodes_of_child hc (ih c hc hgc)

theorem any_iff {f : Formula} {p : Formula → Bool} :
    f.any p = true ↔ ∃ g ∈ f.nodes, p g = true := by
  rw [any, List.any_eq_true]

/-! ## Fields -/

/-- The field stands somewhere in the formula. -/
def Mentions (f : Formula) (n : String) : Prop := ∃ g ∈ f.nodes, g.field? = some n

theorem Mentions.of_node {f g : Formula} {n : String} (hg : g ∈ f.nodes) (h : g.Mentions n) :
    f.Mentions n := by
  obtain ⟨x, hx, hn⟩ := h
  exact ⟨x, mem_nodes_trans hg hx, hn⟩

theorem mentions_iff {f : Formula} {n : String} :
    f.Mentions n ↔ f.field? = some n ∨ ∃ c ∈ f.children, c.Mentions n :=
  exists_mem_nodes_iff

theorem mentions_field_iff {name n : String} {notes : Notes} :
    (mk (.field name) notes).Mentions n ↔ n = name := by
  rw [mentions_iff]
  constructor
  · rintro (h | ⟨c, hc, -⟩)
    · exact (Option.some.inj h).symm
    · exact absurd hc List.not_mem_nil
  · rintro rfl
    exact Or.inl rfl

section Views

variable {f : Formula} {q : Fork Formula} {w : WindowCall Formula}

theorem isFork_of_fork? (h : f.fork? = some q) : f.isFork = true := by
  rw [isFork, h]
  rfl

theorem not_isFork_of_fork? (h : f.fork? = none) : f.isFork = false := by
  rw [isFork, h]
  rfl

theorem isWindowCall_of_window? (h : f.window? = some w) : f.isWindowCall = true := by
  rw [isWindowCall, h]
  rfl

theorem not_isWindowCall_of_window? (h : f.window? = none) : f.isWindowCall = false := by
  rw [isWindowCall, h]
  rfl

end Views

theorem containsFork_iff {f : Formula} :
    f.containsFork = true ↔ f.isFork = true ∨ ∃ c ∈ f.children, c.containsFork = true := by
  simp only [containsFork, any_iff]
  exact exists_mem_nodes_iff

theorem containsFork_of_node {f g : Formula} (hg : g ∈ f.nodes) (h : g.containsFork = true) :
    f.containsFork = true := by
  obtain ⟨x, hx, hfork⟩ := any_iff.mp h
  exact any_iff.mpr ⟨x, mem_nodes_trans hg hx, hfork⟩

/-! ## Constants -/

theorem not_mentions_of_constant {f : Formula} (h : f.isConstantExpression = true) (n : String) :
    ¬ f.Mentions n := by
  rintro ⟨g, hg, hn⟩
  have hany : (f.any fun g => g.field?.isSome || g.isWindowCall || g.isFork || g.isError ||
      g.isAggregateCall) = true := any_iff.mpr ⟨g, hg, by simp [hn]⟩
  rw [isConstantExpression, hany] at h
  exact absurd h (by decide)

/-! ## Comparison -/

theorem allHold_iff {fs gs : List Formula} :
    allHold (fs.map same) gs = true ↔ List.Forall₂ (fun f g => f.same g = true) fs gs := by
  induction fs generalizing gs with
  | nil => cases gs <;> simp [allHold]
  | cons f fs ih => cases gs <;> simp [allHold, ih]

theorem same_iff {f g : Formula} :
    f.same g = true ↔ f.kind.shape = g.kind.shape ∧ f.level = g.level ∧
      List.Forall₂ (fun f g => f.same g = true) f.children g.children := by
  rw [same_eq, Bool.and_eq_true, Bool.and_eq_true, beq_iff_eq, beq_iff_eq, allHold_iff, and_assoc]

theorem same_symm {f g : Formula} (h : f.same g = true) : g.same f = true := by
  induction f using induction_children generalizing g with
  | step f ih =>
      obtain ⟨hshape, hlevel, hcs⟩ := same_iff.mp h
      refine same_iff.mpr ⟨hshape.symm, hlevel.symm, List.Forall₂.flip ?_⟩
      exact forall₂_of_mem hcs fun a ha b _ hab => ih a ha hab

theorem same_trans {f g h : Formula} (hfg : f.same g = true) (hgh : g.same h = true) :
    f.same h = true := by
  induction f using induction_children generalizing g h with
  | step f ih =>
      obtain ⟨hshape, hlevel, hcs⟩ := same_iff.mp hfg
      obtain ⟨hshape', hlevel', hcs'⟩ := same_iff.mp hgh
      refine same_iff.mpr ⟨hshape.trans hshape', hlevel.trans hlevel', ?_⟩
      rw [List.forall₂_iff_get] at hcs hcs' ⊢
      refine ⟨hcs.1.trans hcs'.1, fun i hi hk => ?_⟩
      have hj : i < g.children.length := hcs.1 ▸ hi
      exact ih _ (List.get_mem _ _) (hcs.2 i hi hj) (hcs'.2 i hj hk)

instance : EquivBEq Formula where
  symm h := same_symm h
  trans h h' := same_trans h h'

/-- Views of a node that can be read off its shape agree on formulas that compare equal. -/
theorem view_eq_of_same {β : Type} (view : {α : Type} → Kind α → β)
    (hview : ∀ k : Kind Formula, view k.shape = view k) {f g : Formula} (h : f.same g = true) :
    view f.kind = view g.kind := by
  rw [← hview, ← hview, (same_iff.mp h).1]

/-- The node with the same small formula in all of its gaps. -/
def filled (k : Kind Unit) : Formula := .of (k.map fun _ => .of (.field ""))

/-- What is found out about a node alone is the same for all nodes with its outline. -/
theorem eq_of_outline {β : Type} (view : Formula → β)
    (hview : ∀ f : Formula, view (filled f.kind.outline) = view f) {f g : Formula}
    (h : f.kind.outline = g.kind.outline) : view f = view g := by
  rw [← hview f, h, hview]

/-- What can be found out from the shape of a node is the same for formulas that compare equal. -/
theorem eq_of_same {β : Type} (view : Formula → β)
    (hview : ∀ f : Formula, view (filled f.kind.shape) = view f) {f g : Formula}
    (h : f.same g = true) : view f = view g := by
  rw [← hview f, (same_iff.mp h).1, hview]

theorem forall₂_autonomous {f g : Formula} (h : f.same g = true) :
    List.Forall₂ (fun f g => f.same g = true) f.autonomous g.autonomous := by
  have hview (k : Kind Formula) : k.shape.autonomousCount = k.autonomousCount := by
    have hshape : k.shape.autonomousCount = (k.map fun _ => ()).autonomousCount := by
      cases k <;> rfl
    exact hshape.trans (Kind.autonomousCount_map _ k)
  have hcount := view_eq_of_same Kind.autonomousCount hview h
  rw [autonomous, autonomous, Kind.autonomous, Kind.autonomous, hcount]
  exact List.forall₂_take _ (same_iff.mp h).2.2

/-- The name of a field node. -/
def fieldName? {α : Type} : Kind α → Option String
  | .field n => some n
  | _ => none

theorem field?_eq (f : Formula) : f.field? = fieldName? f.kind := by
  rw [field?]
  cases f.kind <;> rfl

theorem field?_eq_of_same {f g : Formula} (h : f.same g = true) : f.field? = g.field? := by
  rw [field?_eq, field?_eq]
  exact view_eq_of_same fieldName? (fun k => by cases k <;> rfl) h

theorem field?_eq_of_outline {f g : Formula} (h : f.kind.outline = g.kind.outline) :
    f.field? = g.field? := by
  have hview (k : Kind Formula) : fieldName? k.outline = fieldName? k := by cases k <;> rfl
  rw [field?_eq, field?_eq, ← hview, ← hview, h]

/-- The node is a fork. -/
def isForkNode {α : Type} : Kind α → Bool
  | .fork _ => true
  | _ => false

theorem isFork_eq (f : Formula) : f.isFork = isForkNode f.kind := by
  rw [isFork, fork?]
  cases f.kind <;> rfl

theorem isFork_eq_of_same {f g : Formula} (h : f.same g = true) : f.isFork = g.isFork := by
  rw [isFork_eq, isFork_eq]
  exact view_eq_of_same isForkNode (fun k => by cases k <;> rfl) h

theorem isFork_eq_of_outline {f g : Formula} (h : f.kind.outline = g.kind.outline) :
    f.isFork = g.isFork := by
  have hview (k : Kind Formula) : isForkNode k.outline = isForkNode k := by cases k <;> rfl
  rw [isFork_eq, isFork_eq, ← hview, ← hview, h]

theorem exists_node_of_same {f g a : Formula} (h : f.same g = true) (ha : a ∈ f.nodes) :
    ∃ b ∈ g.nodes, a.same b = true := by
  induction f using induction_children generalizing g with
  | step f ih =>
      rcases mem_nodes_iff.mp ha with rfl | ⟨c, hc, hac⟩
      · exact ⟨g, self_mem_nodes g, h⟩
      · obtain ⟨d, hd, hcd⟩ := forall₂_exists_right (same_iff.mp h).2.2 hc
        obtain ⟨b, hb, hab⟩ := ih c hc hcd hac
        exact ⟨b, mem_nodes_of_child hd hb, hab⟩

theorem Mentions.of_same {f g : Formula} {n : String} (h : f.same g = true) (hf : f.Mentions n) :
    g.Mentions n := by
  obtain ⟨a, ha, hn⟩ := hf
  obtain ⟨b, hb, hab⟩ := exists_node_of_same h ha
  exact ⟨b, hb, (field?_eq_of_same hab).symm.trans hn⟩

theorem kind_of_fork? {f : Formula} {q : Fork Formula} (h : f.fork? = some q) :
    f.kind = .fork q := by
  rw [fork?] at h
  split at h
  next q' hk => exact hk.trans (congrArg Kind.fork (Option.some.inj h))
  next => exact absurd h (by simp)

end Formula

/-! ## Comparing lists and levels of detail -/

section Lists

variable {α : Type} [BEq α]

variable [EquivBEq α]

instance instEquivBEqList : EquivBEq (List α) where
  symm h := list_beq_iff.mpr ((list_beq_iff.mp h).flip.imp fun _ _ h => BEq.symm h)
  trans {xs ys zs} h h' := by
    rw [list_beq_iff, List.forall₂_iff_get] at h h' ⊢
    refine ⟨h.1.trans h'.1, fun i hi hk => ?_⟩
    have hj : i < ys.length := h.1 ▸ hi
    exact BEq.trans (h.2 i hi hj) (h'.2 i hj hk)
  rfl {xs} := BEq.rfl

end Lists

instance : ReflBEq (Lod Formula) where
  rfl {l} := Bool.and_eq_true_iff.mpr ⟨BEq.rfl, (BEq.rfl : (l.dims == l.dims) = true)⟩

instance : ReflBEq (JoinCondition Formula) where
  rfl {c} := (BEq.rfl : (c.parts == c.parts) = true)

instance : EquivBEq (Lod Formula) where
  symm h := by
    obtain ⟨hkind, hdims⟩ := Bool.and_eq_true_iff.mp h
    exact Bool.and_eq_true_iff.mpr ⟨BEq.symm hkind, BEq.symm hdims⟩
  trans h h' := by
    obtain ⟨hkind, hdims⟩ := Bool.and_eq_true_iff.mp h
    obtain ⟨hkind', hdims'⟩ := Bool.and_eq_true_iff.mp h'
    exact Bool.and_eq_true_iff.mpr ⟨BEq.trans hkind hkind', BEq.trans hdims hdims'⟩

instance : EquivBEq (JoinCondition Formula) where
  symm {c d} h := (BEq.symm h : (d.parts == c.parts) = true)
  trans {c d e} h h' := (BEq.trans (b := d.parts) h h' : (c.parts == e.parts) = true)

namespace Formula

/-! ## Parts of equal nodes -/

theorem size_eq_of_same {f g : Formula} (h : f.same g = true) : f.size = g.size := by
  induction f using induction_children generalizing g with
  | step f ih =>
      have hcs := (same_iff.mp h).2.2
      have hsizes : f.children.map size = g.children.map size := by
        rw [← List.forall₂_eq_eq_eq, List.forall₂_map_left_iff, List.forall₂_map_right_iff]
        exact forall₂_of_mem hcs fun c hc d _ hcd => ih c hc hcd
      rw [size_eq, size_eq g, hsizes]

theorem outline_eq_of_same {f g : Formula} (h : f.same g = true)
    (hf : ∀ v, f.kind ≠ .literal v) : g.kind.outline = f.kind.outline := by
  have hshape := (same_iff.mp h).1
  cases hk : f.kind with
  | literal v => exact absurd hk (hf v)
  | _ =>
      cases hg : g.kind with
      | literal w => simp [hk, hg, Kind.shape, Kind.map] at hshape
      | _ =>
          rw [hk, hg] at hshape
          exact hshape.symm

theorem lod_beq_of_outline {l l' : Lod Formula} (h : l'.map (fun _ => ()) = l.map fun _ => ())
    (hdims : List.Forall₂ (fun x y => Formula.same x y = true) l.dims l'.dims) :
    (l == l') = true :=
  Bool.and_eq_true_iff.mpr ⟨beq_iff_eq.mpr h.symm, list_beq_iff.mpr hdims⟩

/-- Equal calls call the same function at equal levels of detail. -/
theorem exists_call_of_same {f g : Formula} {c : Call Formula} (h : f.same g = true)
    (hc : f.kind = .call c) :
    ∃ c', g.kind = .call c' ∧ c'.name = c.name ∧
      c'.lod.map (fun _ => ()) = c.lod.map (fun _ => ()) ∧ (c.lod == c'.lod) = true := by
  have houtline : g.kind.outline = (Kind.call c).outline :=
    hc ▸ outline_eq_of_same h (by simp [hc])
  have hcs := (same_iff.mp h).2.2
  rw [children, hc] at hcs
  obtain ⟨c', hk', hname, hlod, -, hdims⟩ := Kind.exists_call_of_outline houtline hcs
  exact ⟨c', hk', hname, hlod, lod_beq_of_outline hlod hdims⟩

/-- Equal forks have equal results and equal levels of detail. -/
theorem exists_fork?_of_same {f g : Formula} {q : Fork Formula} (h : f.same g = true)
    (hq : f.fork? = some q) :
    ∃ q', g.fork? = some q' ∧ (q.result == q'.result) = true ∧ (q.lod == q'.lod) = true := by
  have hk := kind_of_fork? hq
  have houtline : g.kind.outline = (Kind.fork q).outline :=
    hk ▸ outline_eq_of_same h (by simp [hk])
  have hcs := (same_iff.mp h).2.2
  rw [children, hk] at hcs
  obtain ⟨q', hk', hlod, hresult, hdims⟩ := Kind.exists_fork_of_outline houtline hcs
  exact ⟨q', by rw [fork?, hk'], hresult, lod_beq_of_outline hlod hdims⟩

end Formula

end FormulaSql
