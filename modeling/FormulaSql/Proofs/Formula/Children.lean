import FormulaSql.Formula.Recursion
import FormulaSql.Proofs.Data.Lists
import Mathlib.Data.List.Forall2

/-!
# Refilling the children of a node

`withChildren` hands a feed of new children to the gaps of a node. With a feed of the right length
the new children are exactly the feed, and whatever the feed is, the node keeps its shape: its
kind, its names and the number of children in each place.
-/

namespace FormulaSql

/-- The conditions and the values of two branches are related. -/
def Branch.Rel {α β : Type} (R : α → β → Prop) (b : Branch α) (b' : Branch β) : Prop :=
  R b.test b'.test ∧ R b.value b'.value

namespace Kind

variable {α β : Type}

/-! ## One gap after another -/

theorem bind_apply {σ γ : Type} (x : StateM σ β) (f : β → StateM σ γ) (s : σ) :
    (x >>= f) s = f (x s).1 (x s).2 := rfl

theorem pure_apply {σ : Type} (b : β) (s : σ) : (pure b : StateM σ β) s = (b, s) := rfl

theorem nextAll_cons (old : α) (olds feed : List α) :
    nextAll (old :: olds) feed =
      ((next old feed).1 :: (nextAll olds (next old feed).2).1,
        (nextAll olds (next old feed).2).2) := by
  rw [nextAll, List.mapM_cons, bind_apply, bind_apply]
  rfl

theorem nextAll_append (olds cs rest : List α) (h : cs.length = olds.length) :
    nextAll olds (cs ++ rest) = (cs, rest) := by
  induction olds generalizing cs with
  | nil =>
      obtain rfl := List.length_eq_zero_iff.mp h
      rfl
  | cons o os ih =>
      cases cs with
      | nil => simp at h
      | cons c cs =>
          rw [nextAll_cons]
          have hrec := ih cs (by simpa using h)
          simp only [List.cons_append, next, hrec]

theorem length_nextAll (olds feed : List α) : (nextAll olds feed).1.length = olds.length := by
  induction olds generalizing feed with
  | nil => rfl
  | cons o os ih =>
      rw [nextAll_cons]
      simp [ih]

theorem nextLod_eq (l : Lod α) (feed : List α) :
    nextLod l feed = (l.withDims (nextAll l.dims feed).1, (nextAll l.dims feed).2) := rfl

theorem nextGrouping_eq (g : Grouping α) (feed : List α) :
    nextGrouping g feed = (g.withDims (nextAll g.dims feed).1, (nextAll g.dims feed).2) := rfl

theorem dims_withDims_lod (l : Lod α) (ds : List β) (h : ds.length = l.dims.length) :
    (l.withDims ds).dims = ds := by
  cases l with
  | inherited | defaultAggregation =>
      exact (List.length_eq_zero_iff.mp h).symm
  | fixed | including | excluding => rfl

theorem dims_withDims_grouping (g : Grouping α) (ds : List β) (h : ds.length = g.dims.length) :
    (g.withDims ds).dims = ds := by
  cases g with
  | total => exact (List.length_eq_zero_iff.mp h).symm
  | within | among => rfl

/-! Groups of children, each group taking as many of the feed as it has parts. -/

theorem nextBranch_append (b : Branch α) (cs rest : List α) (h : cs.length = b.parts.length) :
    (nextBranch b (cs ++ rest)).1.parts = cs ∧ (nextBranch b (cs ++ rest)).2 = rest := by
  match cs, h with
  | [c, d], _ => exact ⟨rfl, rfl⟩

theorem nextJoin_append (j : JoinCondition α) (cs rest : List α) (h : cs.length = j.parts.length) :
    (nextJoin j (cs ++ rest)).1.parts = cs ∧ (nextJoin j (cs ++ rest)).2 = rest := by
  cases j with
  | same e =>
      match cs, h with
      | [c], _ => exact ⟨rfl, rfl⟩
  | pair e e' =>
      match cs, h with
      | [c, d], _ => exact ⟨rfl, rfl⟩

theorem nextShift_append (s : FilterShift α) (cs rest : List α)
    (h : cs.length = s.parts.length) :
    (nextShift s (cs ++ rest)).1.parts = cs ∧ (nextShift s (cs ++ rest)).2 = rest := by
  match cs, h with
  | [c, d], _ => exact ⟨rfl, rfl⟩

/-- A list of groups is refilled group by group. -/
theorem mapM_refill_append {γ : Type} {parts : γ → List α} {refill : γ → StateM (List α) γ}
    (one : ∀ g cs rest, cs.length = (parts g).length →
      parts (refill g (cs ++ rest)).1 = cs ∧ (refill g (cs ++ rest)).2 = rest)
    (gs : List γ) (cs rest : List α) (h : cs.length = (gs.flatMap parts).length) :
    (gs.mapM refill (cs ++ rest)).1.flatMap parts = cs ∧
      (gs.mapM refill (cs ++ rest)).2 = rest := by
  induction gs generalizing cs with
  | nil =>
      obtain rfl := List.length_eq_zero_iff.mp h
      exact ⟨rfl, rfl⟩
  | cons g gs ih =>
      rw [List.flatMap_cons, List.length_append] at h
      have hsplit : cs = cs.take (parts g).length ++ cs.drop (parts g).length :=
        (List.take_append_drop _ cs).symm
      have htake : (cs.take (parts g).length).length = (parts g).length := by
        rw [List.length_take]; omega
      have hdrop : (cs.drop (parts g).length).length = (gs.flatMap parts).length := by
        rw [List.length_drop]; omega
      obtain ⟨hhead, hmid⟩ := one g (cs.take (parts g).length)
        (cs.drop (parts g).length ++ rest) htake
      obtain ⟨htail, hrest⟩ := ih (cs.drop (parts g).length) hdrop
      rw [← List.append_assoc, ← hsplit] at hhead hmid
      rw [List.mapM_cons, bind_apply, bind_apply, pure_apply, hmid]
      refine ⟨?_, hrest⟩
      rw [List.flatMap_cons, hhead, htail]
      exact hsplit.symm

/-! ## The whole node -/

section Refill

variable (feed : List α)

theorem refill_call (c : Call α) :
    (call c).refill feed =
      let args := nextAll c.args feed
      let lod := nextLod c.lod args.2
      let ignored := nextAll c.ignored lod.2
      (call ⟨c.name, args.1, lod.1, ignored.1, c.beforeFilterBy⟩, ignored.2) := rfl

theorem refill_window (w : WindowCall α) :
    (window w).refill feed =
      let args := nextAll w.args feed
      let grouping := nextGrouping w.grouping args.2
      let ordering := nextAll w.ordering grouping.2
      (window ⟨w.name, args.1, grouping.1, ordering.1, w.beforeFilterBy⟩, ordering.2) := rfl

theorem refill_ifBlock (bs : List (Branch α)) (e : α) :
    (ifBlock bs e).refill feed =
      let branches := bs.mapM nextBranch feed
      let otherwise := next e branches.2
      (ifBlock branches.1 otherwise.1, otherwise.2) := rfl

theorem refill_caseBlock (s : α) (bs : List (Branch α)) (e : α) :
    (caseBlock s bs e).refill feed =
      let subject := next s feed
      let branches := bs.mapM nextBranch subject.2
      let otherwise := next e branches.2
      (caseBlock subject.1 branches.1 otherwise.1, otherwise.2) := rfl

theorem refill_fork (q : Fork α) :
    (fork q).refill feed =
      let result := next q.result feed
      let joining := q.joining.mapM nextJoin result.2
      let lod := nextLod q.lod joining.2
      let shifts := q.shifts.mapM nextShift lod.2
      (fork ⟨q.joinType, result.1, joining.1, lod.1, q.beforeFilterBy, shifts.1⟩, shifts.2) := rfl

end Refill

/-- A long enough feed begins with what the first group takes. -/
theorem split_feed (n : Nat) (cs : List α) (h : n ≤ cs.length) :
    ∃ front rest, cs = front ++ rest ∧ front.length = n :=
  ⟨cs.take n, cs.drop n, (List.take_append_drop n cs).symm, List.length_take_of_le h⟩

theorem children_withChildren (k : Kind α) (cs : List α) (h : cs.length = k.children.length) :
    (k.withChildren cs).children = cs := by
  rw [withChildren, StateT.run]
  cases k with
  | field n | literal v | error m c => exact (List.length_eq_zero_iff.mp h).symm
  | paren e | ordered e d | unary op e =>
      match cs, h with
      | [c], _ => rfl
  | binary op l r =>
      match cs, h with
      | [c, d], _ => rfl
  | ternary op a b c =>
      match cs, h with
      | [x, y, z], _ => rfl
  | call c =>
      simp only [children, List.length_append] at h
      obtain ⟨as, rest, rfl, has⟩ := split_feed c.args.length cs (by omega)
      rw [List.length_append] at h
      obtain ⟨ds, is, rfl, hds⟩ := split_feed c.lod.dims.length rest (by omega)
      rw [List.length_append] at h
      have hlast := nextAll_append c.ignored is [] (by omega)
      rw [List.append_nil] at hlast
      rw [refill_call]
      simp only [children, nextLod_eq, nextAll_append c.args as _ has,
        nextAll_append c.lod.dims ds _ hds, hlast, dims_withDims_lod c.lod ds hds,
        List.append_assoc]
  | window w =>
      simp only [children, List.length_append] at h
      obtain ⟨as, rest, rfl, has⟩ := split_feed w.args.length cs (by omega)
      rw [List.length_append] at h
      obtain ⟨ds, os, rfl, hds⟩ := split_feed w.grouping.dims.length rest (by omega)
      rw [List.length_append] at h
      have hlast := nextAll_append w.ordering os [] (by omega)
      rw [List.append_nil] at hlast
      rw [refill_window]
      simp only [children, nextGrouping_eq, nextAll_append w.args as _ has,
        nextAll_append w.grouping.dims ds _ hds, hlast, dims_withDims_grouping w.grouping ds hds,
        List.append_assoc]
  | ifBlock bs e =>
      simp only [children, List.length_append, List.length_singleton] at h
      obtain ⟨ps, rest, rfl, hps⟩ :=
        split_feed ((bs.flatMap Branch.parts).length) cs (by omega)
      rw [List.length_append] at h
      obtain ⟨c, rfl⟩ := List.length_eq_one_iff.mp (show rest.length = 1 by omega)
      obtain ⟨hparts, hrest⟩ := mapM_refill_append nextBranch_append bs ps [c] hps
      rw [refill_ifBlock]
      simp only [children, hparts, hrest, next]
  | caseBlock s bs e =>
      cases cs with
      | nil => simp [children] at h
      | cons c cs =>
          simp only [children, List.cons_append, List.length_cons, List.length_append,
            List.length_nil] at h
          obtain ⟨ps, rest, rfl, hps⟩ :=
            split_feed ((bs.flatMap Branch.parts).length) cs (by omega)
          rw [List.length_append] at h
          obtain ⟨d, rfl⟩ := List.length_eq_one_iff.mp (show rest.length = 1 by omega)
          obtain ⟨hparts, hrest⟩ := mapM_refill_append nextBranch_append bs ps [d] hps
          rw [refill_caseBlock]
          simp only [children, next, hparts, hrest, List.cons_append]
  | fork q =>
      cases cs with
      | nil => simp [children] at h
      | cons c cs =>
          simp only [children, List.cons_append, List.length_cons, List.length_append] at h
          obtain ⟨js, rest, rfl, hjs⟩ :=
            split_feed ((q.joining.flatMap JoinCondition.parts).length) cs (by omega)
          rw [List.length_append] at h
          obtain ⟨ds, ss, rfl, hds⟩ := split_feed q.lod.dims.length rest (by omega)
          rw [List.length_append] at h
          obtain ⟨hj, hjrest⟩ := mapM_refill_append nextJoin_append q.joining js (ds ++ ss) hjs
          obtain ⟨hs, -⟩ := mapM_refill_append nextShift_append q.shifts ss [] (by omega)
          rw [List.append_nil] at hs
          rw [refill_fork]
          simp only [children, next, hj, hjrest, nextLod_eq, nextAll_append q.lod.dims ds ss hds,
            hs, dims_withDims_lod q.lod ds hds, List.cons_append, List.append_assoc]

/-! Nodes whose children are changed one by one. -/

section Each

variable (h : α → α)

theorem mapM_refill_each {γ : Type} {parts : γ → List α} {refill : γ → StateM (List α) γ}
    {each : γ → γ} (one : ∀ g rest, refill g ((parts g).map h ++ rest) = (each g, rest))
    (gs : List γ) (rest : List α) :
    gs.mapM refill ((gs.flatMap parts).map h ++ rest) = (gs.map each, rest) := by
  induction gs with
  | nil => rfl
  | cons g gs ih =>
      rw [List.flatMap_cons, List.map_append, List.append_assoc, List.mapM_cons, bind_apply,
        bind_apply, pure_apply, one, ih, List.map_cons]

theorem nextAll_each (olds rest : List α) :
    nextAll olds (olds.map h ++ rest) = (olds.map h, rest) :=
  nextAll_append olds _ rest (List.length_map h)

theorem nextBranch_each (b : Branch α) (rest : List α) :
    nextBranch b (b.parts.map h ++ rest) = (b.map h, rest) := rfl

theorem nextJoin_each (j : JoinCondition α) (rest : List α) :
    nextJoin j (j.parts.map h ++ rest) = (j.map h, rest) := by
  cases j <;> rfl

theorem nextShift_each (s : FilterShift α) (rest : List α) :
    nextShift s (s.parts.map h ++ rest) = (s.map h, rest) := rfl

theorem nextLod_each (l : Lod α) (rest : List α) :
    nextLod l (l.dims.map h ++ rest) = (l.map h, rest) := by
  rw [nextLod_eq, nextAll_each]
  cases l <;> rfl

theorem nextGrouping_each (g : Grouping α) (rest : List α) :
    nextGrouping g (g.dims.map h ++ rest) = (g.map h, rest) := by
  rw [nextGrouping_eq, nextAll_each]
  cases g <;> rfl

theorem withChildren_each (k : Kind α) : k.withChildren (k.children.map h) = k.map h := by
  have hlast (xs : List α) : nextAll xs (xs.map h) = (xs.map h, []) := by
    have hall := nextAll_each h xs []
    rwa [List.append_nil] at hall
  rw [withChildren, StateT.run]
  cases k with
  | call c =>
      rw [refill_call]
      simp only [children, List.map_append, List.append_assoc, nextAll_each, nextLod_each, hlast,
        map]
  | window w =>
      rw [refill_window]
      simp only [children, List.map_append, List.append_assoc, nextAll_each, nextGrouping_each,
        hlast, map]
  | ifBlock bs e =>
      rw [refill_ifBlock]
      simp only [children, List.map_append, List.map_cons, List.map_nil,
        mapM_refill_each h (nextBranch_each h), next, map]
  | caseBlock s bs e =>
      rw [refill_caseBlock]
      simp only [children, List.map_append, List.map_cons, List.map_nil, List.cons_append, next,
        mapM_refill_each h (nextBranch_each h), map]
  | fork q =>
      have hshifts := mapM_refill_each h (nextShift_each h) q.shifts []
      rw [List.append_nil] at hshifts
      rw [refill_fork]
      simp only [children, List.map_append, List.map_cons, List.cons_append, List.append_assoc,
        next, mapM_refill_each h (nextJoin_each h), nextLod_each, hshifts, map]
  | _ => rfl

end Each

theorem map_id (k : Kind α) : k.map id = k := by
  have hlod (l : Lod α) : l.map id = l := by
    cases l <;> simp [Lod.map, Lod.withDims, Lod.dims]
  have hgrouping (g : Grouping α) : g.map id = g := by
    cases g <;> simp [Grouping.map, Grouping.withDims, Grouping.dims]
  have hjoin (j : JoinCondition α) : j.map id = j := by
    cases j <;> rfl
  cases k <;> simp [map, hlod, hgrouping, hjoin, Branch.map, FilterShift.map]

/-- A node that gets its own children back stays as it is. -/
theorem withChildren_children (k : Kind α) : k.withChildren k.children = k := by
  have heach := withChildren_each id k
  rwa [List.map_id, map_id] at heach

/-! ## Shape -/

/-- The kind with its children left out. -/
def outline (k : Kind α) : Kind Unit := k.map fun _ => ()

theorem map_nextAll (olds feed : List α) :
    (nextAll olds feed).1.map (fun _ => ()) = olds.map fun _ => () := by
  rw [List.map_const', List.map_const', length_nextAll]

theorem outline_nextLod (l : Lod α) (feed : List α) :
    (nextLod l feed).1.map (fun _ => ()) = l.map fun _ => () := by
  have h := map_nextAll l.dims feed
  rw [nextLod_eq]
  cases l with
  | inherited | defaultAggregation => rfl
  | fixed ds => exact congrArg Lod.fixed h
  | including ds => exact congrArg Lod.including h
  | excluding ds => exact congrArg Lod.excluding h

theorem outline_nextGrouping (g : Grouping α) (feed : List α) :
    (nextGrouping g feed).1.map (fun _ => ()) = g.map fun _ => () := by
  have h := map_nextAll g.dims feed
  rw [nextGrouping_eq]
  cases g with
  | total => rfl
  | within ds => exact congrArg Grouping.within h
  | among ds => exact congrArg Grouping.among h

theorem map_mapM_refill {γ δ : Type} {view : γ → δ} {refill : γ → StateM (List α) γ}
    (one : ∀ g feed, view (refill g feed).1 = view g) (gs : List γ) (feed : List α) :
    (gs.mapM refill feed).1.map view = gs.map view := by
  induction gs generalizing feed with
  | nil => rfl
  | cons g gs ih =>
      rw [List.mapM_cons, bind_apply, bind_apply, pure_apply]
      simp only [List.map_cons, one, ih]

theorem outline_nextBranch (b : Branch α) (feed : List α) :
    (nextBranch b feed).1.map (fun _ => ()) = b.map fun _ => () := rfl

theorem outline_nextShift (s : FilterShift α) (feed : List α) :
    (nextShift s feed).1.map (fun _ => ()) = s.map fun _ => () := rfl

theorem outline_nextJoin (j : JoinCondition α) (feed : List α) :
    (nextJoin j feed).1.map (fun _ => ()) = j.map fun _ => () := by
  cases j <;> rfl

/-- Refilling a node changes nothing but its children. -/
theorem outline_withChildren (k : Kind α) (cs : List α) :
    (k.withChildren cs).outline = k.outline := by
  rw [withChildren, StateT.run]
  cases k with
  | call c =>
      rw [refill_call]
      simp only [outline, map, map_nextAll, outline_nextLod]
  | window w =>
      rw [refill_window]
      simp only [outline, map, map_nextAll, outline_nextGrouping]
  | ifBlock bs e =>
      rw [refill_ifBlock]
      simp only [outline, map, map_mapM_refill outline_nextBranch]
  | caseBlock s bs e =>
      rw [refill_caseBlock]
      simp only [outline, map, map_mapM_refill outline_nextBranch]
  | fork q =>
      rw [refill_fork]
      simp only [outline, map, outline_nextLod, map_mapM_refill outline_nextJoin,
        map_mapM_refill outline_nextShift]
  | _ => rfl

/-! Nodes with the same outline whose children are related have related parts. -/

theorem length_dims_of_outline {l : Lod α} {l' : Lod β}
    (h : l'.map (fun _ => ()) = l.map fun _ => ()) : l.dims.length = l'.dims.length := by
  have hmap {γ : Type} (l : Lod γ) : (l.map fun _ => ()).dims.length = l.dims.length := by
    cases l <;> simp [Lod.map, Lod.dims, Lod.withDims]
  rw [← hmap l, ← hmap l', h]

/-- A level of detail is given by its outline and its dimensions. -/
theorem eq_of_dims {l l' : Lod α} (h : l'.map (fun _ => ()) = l.map fun _ => ())
    (hdims : l'.dims = l.dims) : l' = l := by
  cases l <;> cases l' <;> simp_all [Lod.map, Lod.dims, Lod.withDims]

theorem eq_inherited_of_outline {l : Lod α}
    (h : l.map (fun _ => ()) = (Lod.inherited : Lod α).map fun _ => ()) : l = .inherited := by
  cases l <;> simp_all [Lod.map, Lod.withDims]

theorem isInherited_outline (l : Lod α) : (l.map fun _ => ()).isInherited = l.isInherited := by
  cases l <;> rfl

theorem exists_call_of_outline {R : α → β → Prop} {c : Call α} {k : Kind β}
    (h : k.outline = (call c).outline) (hcs : List.Forall₂ R (call c).children k.children) :
    ∃ c', k = call c' ∧ c'.name = c.name ∧
      c'.lod.map (fun _ => ()) = c.lod.map (fun _ => ()) ∧
      List.Forall₂ R c.args c'.args ∧ List.Forall₂ R c.lod.dims c'.lod.dims := by
  cases k with
  | call c' =>
      simp only [outline, map, call.injEq, Call.mk.injEq] at h
      obtain ⟨hname, hargs, hlod, -, -⟩ := h
      have hlength : c.args.length = c'.args.length := by
        simpa using (congrArg List.length hargs).symm
      simp only [children, List.append_assoc] at hcs
      obtain ⟨hcs, hrest⟩ := (forall₂_append_iff hlength).mp hcs
      exact ⟨c', rfl, hname, hlod, hcs,
        ((forall₂_append_iff (length_dims_of_outline hlod)).mp hrest).1⟩
  | _ => exact absurd h (by simp [outline, map])

theorem exists_fork_of_outline {R : α → β → Prop} {q : Fork α} {k : Kind β}
    (h : k.outline = (fork q).outline) (hcs : List.Forall₂ R (fork q).children k.children) :
    ∃ q', k = fork q' ∧ q'.lod.map (fun _ => ()) = q.lod.map (fun _ => ()) ∧
      R q.result q'.result ∧ List.Forall₂ R q.lod.dims q'.lod.dims := by
  cases k with
  | fork q' =>
      simp only [outline, map, fork.injEq, Fork.mk.injEq] at h
      obtain ⟨-, -, hjoining, hlod, -, -⟩ := h
      have hparts {γ : Type} (js : List (JoinCondition γ)) :
          (js.flatMap JoinCondition.parts).length =
            ((js.map (·.map fun _ => ())).flatMap JoinCondition.parts).length := by
        simp only [List.length_flatMap, List.map_map]
        exact congrArg List.sum (List.map_congr_left fun j _ => by cases j <;> rfl)
      have hlength : (q.joining.flatMap JoinCondition.parts).length =
          (q'.joining.flatMap JoinCondition.parts).length := by
        rw [hparts q.joining, hparts q'.joining, hjoining]
      simp only [children, List.cons_append, List.append_assoc, List.forall₂_cons] at hcs
      obtain ⟨hresult, hcs⟩ := hcs
      obtain ⟨-, hrest⟩ := (forall₂_append_iff hlength).mp hcs
      exact ⟨q', rfl, hlod, hresult,
        ((forall₂_append_iff (length_dims_of_outline hlod)).mp hrest).1⟩
  | _ => exact absurd h (by simp [outline, map])

theorem autonomousCount_map (f : α → β) (k : Kind α) :
    (k.map f).autonomousCount = k.autonomousCount := by
  have hlen : (k.map f).children.length = k.children.length := by
    rw [children_map, List.length_map]
  cases k with
  | call c | window w => exact List.length_map f
  | fork q | ordered e d => rfl
  | _ => exact hlen

theorem autonomousCount_eq_of_outline {k l : Kind α} (h : k.outline = l.outline) :
    k.autonomousCount = l.autonomousCount := by
  have hcount := congrArg autonomousCount h
  rwa [outline, outline, autonomousCount_map, autonomousCount_map] at hcount

theorem autonomous_map (f : α → β) (k : Kind α) : (k.map f).autonomous = k.autonomous.map f := by
  rw [autonomous, autonomous, children_map, autonomousCount_map, List.map_take]

end Kind

namespace Formula

theorem children_withChildren (f : Formula) (cs : List Formula)
    (h : cs.length = f.children.length) : (f.withChildren cs).children = cs :=
  Kind.children_withChildren f.kind cs h

theorem withChildren_children (f : Formula) : f.withChildren f.children = f := by
  rw [withChildren, children, Kind.withChildren_children, mk_kind_notes]

theorem outline_withChildren (f : Formula) (cs : List Formula) :
    (f.withChildren cs).kind.outline = f.kind.outline :=
  Kind.outline_withChildren f.kind cs

section Rebuilt

variable {R : Formula → Formula → Prop} {f : Formula} {cs : List Formula}

theorem forall₂_withChildren (h : List.Forall₂ R f.children cs) :
    List.Forall₂ R f.kind.children (f.withChildren cs).kind.children := by
  have hchildren := children_withChildren f cs h.length_eq.symm
  rw [children] at hchildren h
  rwa [hchildren]

/-- Rebuilt from other children, a call calls the same function. -/
theorem exists_call_withChildren {c : Call Formula} (h : List.Forall₂ R f.children cs)
    (hk : f.kind = .call c) :
    ∃ c', (f.withChildren cs).kind = .call c' ∧ c'.name = c.name ∧
      c'.lod.map (fun _ => ()) = c.lod.map (fun _ => ()) ∧
      List.Forall₂ R c.args c'.args ∧ List.Forall₂ R c.lod.dims c'.lod.dims :=
  Kind.exists_call_of_outline (hk ▸ outline_withChildren f cs) (hk ▸ forall₂_withChildren h)

theorem exists_fork_withChildren {q : Fork Formula} (h : List.Forall₂ R f.children cs)
    (hk : f.kind = .fork q) :
    ∃ q', (f.withChildren cs).kind = .fork q' ∧
      q'.lod.map (fun _ => ()) = q.lod.map (fun _ => ()) ∧
      R q.result q'.result ∧ List.Forall₂ R q.lod.dims q'.lod.dims :=
  Kind.exists_fork_of_outline (hk ▸ outline_withChildren f cs) (hk ▸ forall₂_withChildren h)

end Rebuilt

end Formula

end FormulaSql
