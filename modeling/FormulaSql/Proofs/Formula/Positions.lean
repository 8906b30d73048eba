import FormulaSql.Analysis.Dimensions
import FormulaSql.Analysis.Grouping
import FormulaSql.Normalize.LevelTags
import FormulaSql.Proofs.Formula.Rewriting

/-!
# Positions do not matter

A node may carry its position in the text it was read from. Two formulas are written alike if they
differ in nothing else: their bare formulas, without positions, are the same. Formulas are looked at
and rebuilt in a way that does not see positions, so whatever is found out about two formulas that
are written alike is the same, and a rule that offers replacements written alike transforms them
into formulas that are written alike.

* `Formula.recur_bare` says that a recursion whose step does not see positions does not see them
* `Formula.transform_bare` says so of transforming
-/

namespace FormulaSql

/-! ## Changing the children of a node -/

namespace Kind

variable {α β γ : Type}

theorem map_congr {f g : α → β} {k : Kind α} (h : ∀ c ∈ k.children, f c = g c) :
    k.map f = k.map g := by
  have hlist {xs : List α} (hxs : ∀ c ∈ xs, f c = g c) : xs.map f = xs.map g :=
    List.map_congr_left hxs
  have hlod {l : Lod α} (hl : ∀ c ∈ l.dims, f c = g c) : l.map f = l.map g :=
    congrArg l.withDims (hlist hl)
  have hgrouping {l : Grouping α} (hl : ∀ c ∈ l.dims, f c = g c) : l.map f = l.map g :=
    congrArg l.withDims (hlist hl)
  have hbranches {bs : List (Branch α)} (hbs : ∀ c ∈ bs.flatMap Branch.parts, f c = g c) :
      bs.map (·.map f) = bs.map (·.map g) := by
    refine List.map_congr_left fun b hb => ?_
    have hpart {c : α} (hc : c ∈ b.parts) : f c = g c := hbs c (List.mem_flatMap.mpr ⟨b, hb, hc⟩)
    simp_all [Branch.map, Branch.parts]
  cases k with
  | field | literal | error => rfl
  | paren | ordered | unary | binary | ternary => simp_all [map, children]
  | call c =>
      simp only [children, List.mem_append] at h
      rw [map, map, hlist fun c hc => h c (Or.inl (Or.inl hc)),
        hlod fun c hc => h c (Or.inl (Or.inr hc)), hlist fun c hc => h c (Or.inr hc)]
  | window w =>
      simp only [children, List.mem_append] at h
      rw [map, map, hlist fun c hc => h c (Or.inl (Or.inl hc)),
        hgrouping fun c hc => h c (Or.inl (Or.inr hc)), hlist fun c hc => h c (Or.inr hc)]
  | ifBlock bs e =>
      simp only [children, List.mem_append, List.mem_singleton] at h
      rw [map, map, hbranches fun c hc => h c (Or.inl hc), h e (Or.inr rfl)]
  | caseBlock s bs e =>
      simp only [children, List.mem_append, List.mem_cons, List.not_mem_nil, or_false] at h
      rw [map, map, h s (Or.inl (Or.inl rfl)), hbranches fun c hc => h c (Or.inl (Or.inr hc)),
        h e (Or.inr rfl)]
  | fork q =>
      simp only [children, List.mem_append, List.mem_cons] at h
      have hjoining : q.joining.map (·.map f) = q.joining.map (·.map g) := by
        refine List.map_congr_left fun j hj => ?_
        have hpart {c : α} (hc : c ∈ j.parts) : f c = g c :=
          h c (Or.inl (Or.inl (Or.inr (List.mem_flatMap.mpr ⟨j, hj, hc⟩))))
        cases j <;> simp_all [JoinCondition.map, JoinCondition.parts]
      have hshifts : q.shifts.map (·.map f) = q.shifts.map (·.map g) := by
        refine List.map_congr_left fun s hs => ?_
        have hpart {c : α} (hc : c ∈ s.parts) : f c = g c :=
          h c (Or.inr (List.mem_flatMap.mpr ⟨s, hs, hc⟩))
        simp_all [FilterShift.map, FilterShift.parts]
      rw [map, map, h q.result (Or.inl (Or.inl (Or.inl rfl))), hjoining,
        hlod fun c hc => h c (Or.inl (Or.inr hc)), hshifts]

theorem map_map (f : α → β) (g : β → γ) (k : Kind α) : (k.map f).map g = k.map (g ∘ f) := by
  have hlod (l : Lod α) : (l.map f).map g = l.map (g ∘ f) := by
    cases l <;> simp [Lod.map, Lod.withDims, Lod.dims]
  have hgrouping (l : Grouping α) : (l.map f).map g = l.map (g ∘ f) := by
    cases l <;> simp [Grouping.map, Grouping.withDims, Grouping.dims]
  have hjoin (j : JoinCondition α) : (j.map f).map g = j.map fun x => g (f x) := by
    cases j <;> rfl
  cases k <;> simp [map, hlod, hgrouping, hjoin, Function.comp_def, Branch.map, FilterShift.map]

/-! Refilling a node and changing all children can be done in any order. -/

section Refill

variable (h : α → β) (feed : List α)

theorem next_map (old : α) :
    next (h old) (feed.map h) = (h (next old feed).1, (next old feed).2.map h) := by
  cases feed <;> rfl

theorem mapM_refill_map {δ : Type} {m : γ → δ} {refill : γ → StateM (List α) γ}
    {refill' : δ → StateM (List β) δ}
    (one : ∀ g feed, refill' (m g) (feed.map h) =
      (m (refill g feed).1, (refill g feed).2.map h)) (gs : List γ) :
    (gs.map m).mapM refill' (feed.map h) =
      ((gs.mapM refill feed).1.map m, (gs.mapM refill feed).2.map h) := by
  induction gs generalizing feed with
  | nil => rfl
  | cons g gs ih =>
      rw [List.map_cons, List.mapM_cons, List.mapM_cons, bind_apply, bind_apply, pure_apply, one,
        ih, bind_apply, bind_apply, pure_apply, List.map_cons]

theorem nextAll_map (olds : List α) :
    nextAll (olds.map h) (feed.map h) =
      ((nextAll olds feed).1.map h, (nextAll olds feed).2.map h) :=
  mapM_refill_map h feed (fun old feed => next_map h feed old) olds

theorem nextLod_map (l : Lod α) :
    nextLod (l.map h) (feed.map h) = ((nextLod l feed).1.map h, (nextLod l feed).2.map h) := by
  have hdims (l : Lod α) : (l.map h).dims = l.dims.map h := by cases l <;> rfl
  rw [nextLod_eq, nextLod_eq, hdims, nextAll_map]
  cases l <;> rfl

theorem nextGrouping_map (g : Grouping α) :
    nextGrouping (g.map h) (feed.map h) =
      ((nextGrouping g feed).1.map h, (nextGrouping g feed).2.map h) := by
  have hdims (g : Grouping α) : (g.map h).dims = g.dims.map h := by cases g <;> rfl
  rw [nextGrouping_eq, nextGrouping_eq, hdims, nextAll_map]
  cases g <;> rfl

theorem nextBranch_map (b : Branch α) (feed : List α) :
    nextBranch (b.map h) (feed.map h) =
      ((nextBranch b feed).1.map h, (nextBranch b feed).2.map h) := by
  rcases feed with _ | ⟨c, _ | ⟨d, feed⟩⟩ <;> rfl

theorem nextShift_map (s : FilterShift α) (feed : List α) :
    nextShift (s.map h) (feed.map h) =
      ((nextShift s feed).1.map h, (nextShift s feed).2.map h) := by
  rcases feed with _ | ⟨c, _ | ⟨d, feed⟩⟩ <;> rfl

theorem nextJoin_map (j : JoinCondition α) (feed : List α) :
    nextJoin (j.map h) (feed.map h) = ((nextJoin j feed).1.map h, (nextJoin j feed).2.map h) := by
  cases j <;> rcases feed with _ | ⟨c, _ | ⟨d, feed⟩⟩ <;> rfl

theorem withChildren_map (k : Kind α) :
    (k.map h).withChildren (feed.map h) = (k.withChildren feed).map h := by
  rw [withChildren, withChildren, StateT.run, StateT.run]
  cases k with
  | field | literal | error => rfl
  | paren | ordered | unary =>
      rcases feed with _ | ⟨c, feed⟩ <;> rfl
  | binary =>
      rcases feed with _ | ⟨c, _ | ⟨d, feed⟩⟩ <;> rfl
  | ternary =>
      rcases feed with _ | ⟨c, _ | ⟨d, _ | ⟨e, feed⟩⟩⟩ <;> rfl
  | call c =>
      rw [map, refill_call, refill_call]
      simp only [nextAll_map, nextLod_map, map]
  | window w =>
      rw [map, refill_window, refill_window]
      simp only [nextAll_map, nextGrouping_map, map]
  | ifBlock bs e =>
      rw [map, refill_ifBlock, refill_ifBlock]
      simp only [mapM_refill_map h _ (nextBranch_map h), next_map, map]
  | caseBlock s bs e =>
      rw [map, refill_caseBlock, refill_caseBlock]
      simp only [mapM_refill_map h _ (nextBranch_map h), next_map, map]
  | fork q =>
      rw [map, refill_fork, refill_fork]
      simp only [mapM_refill_map h _ (nextJoin_map h), mapM_refill_map h _ (nextShift_map h),
        nextLod_map, next_map, map]

end Refill

end Kind

/-! ## Formulas without positions -/

def Notes.bare (n : Notes) : Notes := ⟨n.level, Option.none⟩

namespace Formula

variable {f g : Formula}

/-- The formula without positions. -/
def bare (f : Formula) : Formula := f.recur fun f k => .mk k f.notes.bare

theorem bare_eq (f : Formula) : f.bare = .mk (f.kind.map bare) f.notes.bare := recur_eq _ f

@[simp]
theorem kind_bare (f : Formula) : f.bare.kind = f.kind.map bare := by rw [bare_eq]; rfl

@[simp]
theorem notes_bare (f : Formula) : f.bare.notes = f.notes.bare := by rw [bare_eq]; rfl

@[simp]
theorem bare_mk (k : Kind Formula) (n : Notes) : (mk k n).bare = mk (k.map bare) n.bare :=
  bare_eq _

@[simp]
theorem bare_of (k : Kind Formula) : (of k).bare = of (k.map bare) := bare_eq _

@[simp]
theorem level_bare (f : Formula) : f.bare.level = f.level := by
  rw [level, notes_bare]
  rfl

@[simp]
theorem children_bare (f : Formula) : f.bare.children = f.children.map bare := by
  rw [children, kind_bare, Kind.children_map]
  rfl

/-- A recursion whose step does not see positions does not see them. -/
theorem recur_bare {β : Type} {step : Formula → Kind β → β}
    (hstep : ∀ f k, step f.bare k = step f k) (f : Formula) :
    f.bare.recur step = f.recur step := by
  induction f using induction_children with
  | step f ih =>
      rw [recur_eq, recur_eq step f, hstep, kind_bare, Kind.map_map]
      exact congrArg (step f) (Kind.map_congr ih)

theorem shape_map {α β : Type} (h : α → β) (k : Kind α) : (k.map h).shape = k.shape := by
  have hmap := Kind.map_map h (fun _ => ()) k
  cases k with
  | literal v => rfl
  | _ => exact hmap

/-- A formula is the same as its bare one. -/
theorem bare_same (f : Formula) : (f.bare == f) = true := by
  induction f using induction_children with
  | step f ih =>
      refine same_iff.mpr ⟨?_, level_bare f, ?_⟩
      · rw [kind_bare, shape_map]
      · rw [children_bare, List.forall₂_map_left_iff]
        exact List.forall₂_same.mpr ih

@[simp]
theorem beq_bare_left (f g : Formula) : (f.bare == g) = (f == g) :=
  Bool.eq_iff_iff.mpr ⟨fun h => BEq.trans (BEq.symm (bare_same f)) h,
    fun h => BEq.trans (bare_same f) h⟩

@[simp]
theorem beq_bare_right (f g : Formula) : (f == g.bare) = (f == g) := by
  rw [BEq.comm, beq_bare_left, BEq.comm]

@[simp]
theorem contains_bare (fs : List Formula) (f : Formula) : fs.contains f.bare = fs.contains f := by
  induction fs with
  | nil => rfl
  | cons g gs ih => rw [List.contains_cons, List.contains_cons, ih, beq_bare_left]

@[simp]
theorem map_bare_contains (fs : List Formula) (f : Formula) :
    (fs.map bare).contains f = fs.contains f := by
  induction fs with
  | nil => rfl
  | cons g gs ih => rw [List.map_cons, List.contains_cons, List.contains_cons, ih, beq_bare_right]

theorem map_bare_beq (fs gs : List Formula) : (fs.map bare == gs.map bare) = (fs == gs) := by
  induction fs generalizing gs with
  | nil => cases gs <;> rfl
  | cons f fs ih =>
      cases gs with
      | nil => rfl
      | cons g gs => rw [List.map_cons, List.map_cons, List.cons_beq_cons, List.cons_beq_cons, ih,
          beq_bare_left, beq_bare_right]

/-- A choice that does not see positions can be made among bare formulas. -/
theorem filter_map_bare {p : Formula → Bool} (hp : ∀ f, p f.bare = p f) (fs : List Formula) :
    (fs.map bare).filter p = (fs.filter p).map bare := by
  rw [List.filter_map]
  exact congrArg (List.map bare) (List.filter_congr fun f _ => hp f)

theorem any_map_bare {p : Formula → Bool} (hp : ∀ f, p f.bare = p f) (fs : List Formula) :
    (fs.map bare).any p = fs.any p := by
  rw [List.any_map]
  exact congrArg (fs.any ·) (funext hp)

theorem all_contains_bare (fs gs : List Formula) :
    (fs.map bare).all (gs.map bare).contains = fs.all gs.contains := by
  rw [List.all_map]
  refine congrArg (fs.all ·) (funext fun f => ?_)
  rw [Function.comp_apply, map_bare_contains, contains_bare]

theorem filter_contains_bare (fs gs : List Formula) :
    (fs.map bare).filter (gs.map bare).contains = (fs.filter gs.contains).map bare := by
  rw [funext (map_bare_contains gs)]
  exact filter_map_bare (contains_bare gs) fs

end Formula

/-! ## Views of nodes -/

section Views

open Formula

/-- The call with bare formulas in its places. -/
def Call.bare (c : Call Formula) : Call Formula :=
  ⟨c.name, c.args.map Formula.bare, c.lod.map Formula.bare, c.ignored.map Formula.bare,
    c.beforeFilterBy⟩

def WindowCall.bare (w : WindowCall Formula) : WindowCall Formula :=
  ⟨w.name, w.args.map Formula.bare, w.grouping.map Formula.bare, w.ordering.map Formula.bare,
    w.beforeFilterBy⟩

def Fork.bare (q : Fork Formula) : Fork Formula :=
  ⟨q.joinType, q.result.bare, q.joining.map (·.map Formula.bare), q.lod.map Formula.bare,
    q.beforeFilterBy, q.shifts.map (·.map Formula.bare)⟩

variable {α β : Type}

theorem Lod.isInherited_map (h : α → β) (l : Lod α) : (l.map h).isInherited = l.isInherited := by
  cases l <;> rfl

namespace Formula

variable (f : Formula)

@[simp]
theorem field?_bare : f.bare.field? = f.field? := by
  rw [field?, field?, kind_bare]
  cases f.kind <;> rfl

@[simp]
theorem literal?_bare : f.bare.literal? = f.literal? := by
  rw [literal?, literal?, kind_bare]
  cases f.kind <;> rfl

@[simp]
theorem call?_bare : f.bare.call? = f.call?.map Call.bare := by
  rw [call?, call?, kind_bare]
  cases f.kind <;> rfl

@[simp]
theorem window?_bare : f.bare.window? = f.window?.map WindowCall.bare := by
  rw [window?, window?, kind_bare]
  cases f.kind <;> rfl

@[simp]
theorem fork?_bare : f.bare.fork? = f.fork?.map Fork.bare := by
  rw [fork?, fork?, kind_bare]
  cases f.kind <;> rfl

@[simp]
theorem isAggregateCall_bare : f.bare.isAggregateCall = f.isAggregateCall := by
  rw [isAggregateCall, isAggregateCall, call?_bare]
  cases f.call? <;> rfl

@[simp]
theorem isLookupCall_bare : f.bare.isLookupCall = f.isLookupCall := by
  rw [isLookupCall, isLookupCall, call?_bare]
  cases f.call? <;> rfl

@[simp]
theorem isWindowCall_bare : f.bare.isWindowCall = f.isWindowCall := by simp [isWindowCall]

@[simp]
theorem isFork_bare : f.bare.isFork = f.isFork := by simp [isFork]

@[simp]
theorem isExtendedCall_bare : f.bare.isExtendedCall = f.isExtendedCall := by
  rw [isExtendedCall, isExtendedCall, call?_bare, isAggregateCall_bare]
  cases f.call? with
  | none => rfl
  | some c => simp [Call.bare, Lod.isInherited_map]

/-! ## What a formula contains -/

@[simp]
theorem isAggregateExpression_bare : f.bare.isAggregateExpression = f.isAggregateExpression :=
  recur_bare (fun f k => by simp) f

theorem nodes_bare : f.bare.nodes = f.nodes.map bare := by
  induction f using induction_children with
  | step f ih =>
      rw [nodes_eq, nodes_eq f, children_bare, List.map_cons, List.flatMap_map, List.map_flatMap]
      exact congrArg (f.bare :: ·) (List.flatMap_congr ih)

theorem any_bare {p : Formula → Bool} (hp : ∀ f, p f.bare = p f) : f.bare.any p = f.any p := by
  rw [any, any, nodes_bare, any_map_bare hp]

@[simp]
theorem containsLookup_bare : f.bare.containsLookup = f.containsLookup :=
  any_bare f isLookupCall_bare

@[simp]
theorem containsWindow_bare : f.bare.containsWindow = f.containsWindow :=
  any_bare f isWindowCall_bare

@[simp]
theorem containsFork_bare : f.bare.containsFork = f.containsFork :=
  any_bare f isFork_bare

@[simp]
theorem containsExtended_bare (nested : Bool) :
    f.bare.containsExtended nested = f.containsExtended nested :=
  congrFun (recur_bare (fun f k => by simp) f) false

@[simp]
theorem text_bare : f.bare.text = f.text := recur_bare (fun _ _ => rfl) f

theorem groupState_bare (dims : List Formula) (nested : Bool) :
    f.bare.groupState dims nested = f.groupState dims nested :=
  congrFun (recur_bare (fun f k => by simp) f) false

@[simp]
theorem windowChain_bare (filters : NameSet) :
    f.bare.windowChain filters = f.windowChain filters := by
  refine recur_bare (fun f k => ?_) f
  rw [kind_bare]
  cases f.kind <;> rfl

theorem unwrapped_bare : f.bare.unwrapped = f.unwrapped.bare := by
  induction f using induction_children with
  | step f ih =>
      rw [unwrapped, unwrapped, recur_eq, recur_eq _ f, kind_bare, Kind.map_map]
      cases hk : f.kind with
      | paren e => exact ih e (by simp [children, hk, Kind.children])
      | _ => rfl

@[simp]
theorem isWindowFork_bare : f.bare.isWindowFork = f.isWindowFork := by
  rw [isWindowFork, isWindowFork, fork?_bare]
  cases f.fork? with
  | none => rfl
  | some q => simp [Fork.bare, unwrapped_bare]

theorem usedFields_bare : f.bare.usedFields.isEmpty = f.usedFields.isEmpty := by
  have hfilter := filter_map_bare (p := fun g => g.field?.isSome) (fun g => by simp) f.nodes
  have hempty (fs : List Formula) : fs.eraseDups.isEmpty = fs.isEmpty := by
    cases fs <;> simp [List.eraseDups_cons]
  rw [usedFields, usedFields, nodes_bare, hfilter, hempty, hempty, List.isEmpty_map]

/-! ## Dimensions -/

@[simp]
theorem lod?_bare : f.bare.lod? = f.lod?.map (Lod.map bare) := by
  rw [lod?, lod?, kind_bare, isAggregateCall_bare]
  cases f.kind with
  | call c =>
      dsimp only [Kind.map]
      split <;> rfl
  | _ => rfl

theorem pushUnique_bare (fs : List Formula) :
    pushUnique (fs.map bare) f.bare = (pushUnique fs f).map bare := by
  rw [pushUnique, pushUnique, map_bare_contains, contains_bare]
  split
  · rfl
  · rw [List.map_append]
    rfl

theorem foldl_pushUnique_bare (fs gs : List Formula) :
    (gs.map bare).foldl pushUnique (fs.map bare) = (gs.foldl pushUnique fs).map bare := by
  induction gs generalizing fs with
  | nil => rfl
  | cons g gs ih => rw [List.map_cons, List.foldl_cons, List.foldl_cons, pushUnique_bare, ih]

theorem resolve_bare (outer : List Formula) (l : Lod Formula) :
    (l.map bare).resolve (outer.map bare) = (l.resolve outer).map bare := by
  cases l with
  | inherited | defaultAggregation => rfl
  | fixed ds => exact foldl_pushUnique_bare [] ds
  | including ds => exact foldl_pushUnique_bare outer ds
  | excluding ds =>
      change (outer.map bare).filter (fun d => !(ds.map bare).contains d) = _
      simp only [map_bare_contains]
      exact filter_map_bare (fun d => by rw [contains_bare]) outer

theorem contextDimensions_bare (dims above : List Formula) :
    contextDimensions (dims.map bare) (above.map bare) =
      (contextDimensions dims above).map bare := by
  rw [contextDimensions, contextDimensions]
  induction above generalizing dims with
  | nil => rfl
  | cons a above ih =>
      rw [List.map_cons, List.foldl_cons, List.foldl_cons, ← ih, lod?_bare]
      cases a.lod? with
      | none => rfl
      | some l => simp [resolve_bare]

end Formula

end Views

/-! ## Transforming -/

/-- On bare formulas the second rule offers the bare form of what the first one offers. -/
def Rule.BareOf (rule rule' : Rule) : Prop :=
  ∀ above f, rule' (above.map Formula.bare) f.bare = (rule above f).map Formula.bare

namespace Formula

variable {rule rule' : Rule}

theorem withChildren_bare (f : Formula) (cs : List Formula) :
    f.bare.withChildren (cs.map bare) = (f.withChildren cs).bare := by
  rw [withChildren, kind_bare, notes_bare, Kind.withChildren_map, withChildren, bare_mk]

theorem transformBelow_bare (hrule : rule.BareOf rule') (f : Formula) (above : List Formula) :
    f.bare.transformBelow rule' (above.map bare) = (f.transformBelow rule above).bare := by
  induction f using induction_children generalizing above with
  | step f ih =>
      have hchild : ∀ c ∈ f.children, transformChild rule' ((above ++ [f]).map bare) c.bare =
          (transformChild rule (above ++ [f]) c).bare := by
        intro c hc
        rw [transformChild, transformChild, ih c hc, hrule]
        cases rule (above ++ [f]) (c.transformBelow rule (above ++ [f])) with
        | none =>
            simp only [Option.map_none, Option.getD_none, beq_bare_left, beq_bare_right]
            split <;> rfl
        | some r =>
            simp only [Option.map_some, Option.getD_some, beq_bare_left, beq_bare_right]
            split <;> rfl
      have hchildren : f.bare.children.map (transformChild rule' (above.map bare ++ [f.bare])) =
          (f.children.map (transformChild rule (above ++ [f]))).map bare := by
        rw [children_bare, List.map_map, List.map_map]
        refine List.map_congr_left fun c hc => ?_
        have h := hchild c hc
        rwa [List.map_append] at h
      rw [transformBelow_eq, transformBelow_eq]
      dsimp only
      rw [hchildren, children_bare, map_bare_beq]
      split
      · rfl
      · exact withChildren_bare f _

/-- Bare formulas are transformed into bare formulas. -/
theorem transform_bare (hrule : rule.BareOf rule') (f : Formula) :
    f.bare.transform rule' = (f.transform rule).bare := by
  have hbelow := transformBelow_bare hrule f []
  have hoffer := hrule [] (f.transformBelow rule [])
  rw [List.map_nil] at hbelow hoffer
  rw [transform, transform, hbelow, hoffer]
  cases rule [] (f.transformBelow rule []) with
  | none => rfl
  | some r =>
      simp only [Option.map_some, beq_bare_left, beq_bare_right]
      split <;> rfl

theorem transformAll_bare {rules rules' : List Rule} (h : List.Forall₂ Rule.BareOf rules rules')
    (f : Formula) : f.bare.transformAll rules' = (f.transformAll rules).bare := by
  rw [transformAll, transformAll]
  induction h generalizing f with
  | nil => rfl
  | cons hrule _ ih =>
      rw [List.foldl_cons, List.foldl_cons, transform_bare hrule]
      exact ih _

theorem settle_bare {rules rules' : List Rule} (h : List.Forall₂ Rule.BareOf rules rules')
    (rounds : Nat) (f : Formula) : settle rules' rounds f.bare = (settle rules rounds f).bare := by
  induction rounds generalizing f with
  | zero => rfl
  | succ rounds ih =>
      rw [settle, settle, transformAll_bare h, beq_bare_left, beq_bare_right]
      split
      · rfl
      · exact ih _

end Formula

end FormulaSql
