import FormulaSql.Formula.Build
import FormulaSql.Proofs.Formula.Children

/-!
# A node is its outline and its children

The outline of a node is all of its kind but the children: two nodes with the same outline and the
same children have them in the same places. What could go wrong is that the children are one list
for all groups of a node, so that a group could end at another place. It cannot: the outline says
how many children each group has.

* `Kind.eq_of_children` puts the kind of a node together again, group by group
* `Formula.withChildren_exchanges` says that other children are all that `withChildren` changes
-/

namespace FormulaSql

namespace Kind

variable {α : Type}

/-! ## One group of children -/

/-- What is in a group can be told from its outline and a list that begins with its children. -/
def Determined {γ δ : Type} (outline : γ → δ) (parts : γ → List α) : Prop :=
  ∀ g g' rest rest', outline g = outline g' → parts g ++ rest = parts g' ++ rest' →
    g = g' ∧ rest = rest'

/-- It is enough that the outline gives the number of children, and both together the group. -/
theorem determined_of_length {γ δ : Type} {outline : γ → δ} {parts : γ → List α}
    (hlength : ∀ g g', outline g = outline g' → (parts g).length = (parts g').length)
    (hparts : ∀ g g', outline g = outline g' → parts g = parts g' → g = g') :
    Determined outline parts := by
  intro g g' rest rest' h hcs
  obtain ⟨hfront, hrest⟩ := List.append_inj hcs (hlength g g' h)
  exact ⟨hparts g g' h hfront, hrest⟩

theorem determined_list : Determined (List.map fun _ : α => ()) (fun xs => xs) :=
  determined_of_length (fun xs ys h => by simpa using congrArg List.length h) fun _ _ _ h => h

theorem determined_lod : Determined (Lod.map fun _ : α => ()) Lod.dims :=
  determined_of_length (fun _ _ h => length_dims_of_outline h.symm) fun _ _ h => eq_of_dims h

theorem determined_grouping : Determined (Grouping.map fun _ : α => ()) Grouping.dims := by
  refine determined_of_length (fun g g' h => ?_) fun g g' h hdims => ?_
  · cases g <;> cases g' <;> simp_all [Grouping.map, Grouping.dims, Grouping.withDims]
  · cases g <;> cases g' <;> simp_all [Grouping.map, Grouping.dims, Grouping.withDims]

theorem determined_branch : Determined (Branch.map fun _ : α => ()) Branch.parts :=
  determined_of_length (fun _ _ _ => rfl) fun b b' _ h => by
    cases b; cases b'; simpa [Branch.parts] using h

theorem determined_shift : Determined (FilterShift.map fun _ : α => ()) FilterShift.parts :=
  determined_of_length (fun _ _ _ => rfl) fun s s' _ h => by
    cases s; cases s'; simpa [FilterShift.parts] using h

theorem determined_join : Determined (JoinCondition.map fun _ : α => ()) JoinCondition.parts := by
  refine determined_of_length (fun j j' h => ?_) fun j j' h hparts => ?_
  · cases j <;> cases j' <;> simp_all [JoinCondition.map, JoinCondition.parts]
  · cases j <;> cases j' <;> simp_all [JoinCondition.map, JoinCondition.parts]

/-- A list of groups is told group by group. -/
theorem Determined.list {γ δ : Type} {outline : γ → δ} {parts : γ → List α}
    (one : Determined outline parts) :
    Determined (List.map outline) (fun gs => gs.flatMap parts) := by
  intro gs
  induction gs with
  | nil =>
      intro gs' rest rest' h hcs
      obtain rfl := List.map_eq_nil_iff.mp h.symm
      exact ⟨rfl, hcs⟩
  | cons g gs ih =>
      intro gs' rest rest' h hcs
      cases gs' with
      | nil => exact absurd h (by simp)
      | cons g' gs' =>
          obtain ⟨hg, hgs⟩ := List.cons.inj h
          simp only [List.flatMap_cons, List.append_assoc] at hcs
          obtain ⟨rfl, htail⟩ := one g g' _ _ hg hcs
          obtain ⟨rfl, hrest⟩ := ih gs' rest rest' hgs htail
          exact ⟨rfl, hrest⟩

/-! ## The whole node -/

/-- A kind is given by its outline and its children. -/
theorem eq_of_children {k l : Kind α} (h : k.outline = l.outline)
    (hcs : k.children = l.children) : k = l := by
  cases k with
  | call c =>
      cases l with
      | call c' =>
          obtain ⟨name, args, lod, ignored, filters⟩ := c
          obtain ⟨name', args', lod', ignored', filters'⟩ := c'
          simp only [outline, map, call.injEq, Call.mk.injEq] at h
          obtain ⟨rfl, hargs, hlod, -, rfl⟩ := h
          simp only [children, List.append_assoc] at hcs
          obtain ⟨rfl, hrest⟩ := determined_list args args' _ _ hargs hcs
          obtain ⟨rfl, rfl⟩ := determined_lod lod lod' _ _ hlod hrest
          rfl
      | _ => exact absurd h (by simp [outline, map])
  | window w =>
      cases l with
      | window w' =>
          obtain ⟨name, args, grouping, ordering, filters⟩ := w
          obtain ⟨name', args', grouping', ordering', filters'⟩ := w'
          simp only [outline, map, window.injEq, WindowCall.mk.injEq] at h
          obtain ⟨rfl, hargs, hgrouping, -, rfl⟩ := h
          simp only [children, List.append_assoc] at hcs
          obtain ⟨rfl, hrest⟩ := determined_list args args' _ _ hargs hcs
          obtain ⟨rfl, rfl⟩ := determined_grouping grouping grouping' _ _ hgrouping hrest
          rfl
      | _ => exact absurd h (by simp [outline, map])
  | ifBlock bs e =>
      cases l with
      | ifBlock bs' e' =>
          simp only [outline, map, ifBlock.injEq] at h
          obtain ⟨rfl, hlast⟩ := determined_branch.list bs bs' _ _ h.1 hcs
          rw [List.singleton_inj.mp hlast]
      | _ => exact absurd h (by simp [outline, map])
  | caseBlock s bs e =>
      cases l with
      | caseBlock s' bs' e' =>
          simp only [outline, map, caseBlock.injEq] at h
          simp only [children, List.cons_append, List.cons.injEq] at hcs
          obtain ⟨rfl, hlast⟩ := determined_branch.list bs bs' _ _ h.2.1 hcs.2
          rw [hcs.1, List.singleton_inj.mp hlast]
      | _ => exact absurd h (by simp [outline, map])
  | fork q =>
      cases l with
      | fork q' =>
          obtain ⟨joinType, result, joining, lod, filters, shifts⟩ := q
          obtain ⟨joinType', result', joining', lod', filters', shifts'⟩ := q'
          simp only [outline, map, fork.injEq, Fork.mk.injEq] at h
          obtain ⟨rfl, -, hjoining, hlod, rfl, hshifts⟩ := h
          simp only [children, List.cons_append, List.append_assoc, List.cons.injEq] at hcs
          obtain ⟨rfl, hjoined⟩ := hcs
          obtain ⟨rfl, hrest⟩ := determined_join.list joining joining' _ _ hjoining hjoined
          obtain ⟨rfl, hlast⟩ := determined_lod lod lod' _ _ hlod hrest
          rw [← List.append_nil (shifts.flatMap _), ← List.append_nil (shifts'.flatMap _)] at hlast
          obtain ⟨rfl, -⟩ := determined_shift.list shifts shifts' _ _ hshifts hlast
          rfl
      | _ => exact absurd h (by simp [outline, map])
  | _ => cases l <;> simp_all [outline, map, children]

end Kind

namespace Formula

variable {f g : Formula} {cs ds : List Formula}

theorem eq_of_children (h : f.kind.outline = g.kind.outline) (hnotes : f.notes = g.notes)
    (hcs : f.children = g.children) : f = g := by
  rw [← mk_kind_notes f, ← mk_kind_notes g, hnotes, Kind.eq_of_children h hcs]

/-- Children that are exchanged twice are those of the second time. -/
theorem withChildren_withChildren (f : Formula) (hcs : cs.length = f.children.length)
    (hds : ds.length = f.children.length) :
    (f.withChildren cs).withChildren ds = f.withChildren ds := by
  have hlength : ds.length = (f.withChildren cs).children.length := by
    rw [children_withChildren f cs hcs, hds, hcs]
  refine eq_of_children ?_ rfl ?_
  · rw [outline_withChildren, outline_withChildren, outline_withChildren]
  · rw [children_withChildren _ ds hlength, children_withChildren f ds hds]

/-- Other children, as many as before, stand in the places of the old ones, and all else stays: the
outline, which is the kind without the children, and the notes. There is no other such formula. With
its own children a formula stays as it is. -/
theorem withChildren_exchanges (f : Formula) (cs : List Formula)
    (h : cs.length = f.children.length) :
    (f.withChildren cs).children = cs ∧
      (f.withChildren cs).kind.outline = f.kind.outline ∧ (f.withChildren cs).notes = f.notes ∧
      (∀ g : Formula, g.children = cs → g.kind.outline = f.kind.outline → g.notes = f.notes →
        g = f.withChildren cs) ∧
      f.withChildren f.children = f := by
  have hchildren := children_withChildren f cs h
  have houtline := outline_withChildren f cs
  refine ⟨hchildren, houtline, rfl, fun g hg hg' hnotes => ?_, withChildren_children f⟩
  exact eq_of_children (hg'.trans houtline.symm) hnotes (hg.trans hchildren.symm)

/-- Sales of a week before, joined back by city and by date. -/
def weekBefore (sales city date week dim source target : Formula) : Formula :=
  .of (.fork ⟨.left, sales, [.same city, .pair date week], .including [dim], NameSet.empty,
    [⟨source, target⟩]⟩)

theorem withChildren_exchanges_weekBefore :
    (["a", "b", "c", "d", "e", "f", "g"].map field).length =
        (weekBefore (field "Sales") (field "City") (field "Date") (field "Week") (field "City")
          (field "Date") (field "Week")).children.length ∧
      weekBefore (field "a") (field "b") (field "c") (field "d") (field "e") (field "f")
          (field "g") =
        (weekBefore (field "Sales") (field "City") (field "Date") (field "Week") (field "City")
          (field "Date") (field "Week")).withChildren
            (["a", "b", "c", "d", "e", "f", "g"].map field) :=
  ⟨rfl, (withChildren_exchanges _ _ rfl).2.2.2.1 _ rfl rfl rfl⟩

end Formula

end FormulaSql
