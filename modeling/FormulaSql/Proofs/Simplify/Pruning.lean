import FormulaSql.Proofs.Simplify.Folding

/-!
# Pruning branches keeps what a formula means

The rules for conditionals, for aggregations of aggregations and for comparisons of truth values are
sound. A conditional without the branches that are never taken selects the same value, and the
inverse of a comparison is its negation, also where it is NULL.
-/

namespace FormulaSql

namespace Simplify

open Formula

variable {row : String → Value} {fields : String → ValueType} {above : List Formula}
  {f r : Formula}

/-! ## Conditionals -/

section Conditionals

variable {bs : List (Branch Formula)} {e : Formula}

/-- The value of a conditional with the given test. -/
def selected (row : String → Value) (passes : Value → Bool) (bs : List (Branch Formula))
    (e : Formula) : Value :=
  Value.select passes (bs.map (·.map (value row))) (e.value row)

theorem selected_cons (passes : Value → Bool) (b : Branch Formula) (bs : List (Branch Formula))
    (e : Formula) :
    selected row passes (b :: bs) e =
      if passes (b.test.value row) then b.value.value row else selected row passes bs e :=
  Value.select_cons passes _ _ _

/-- Dropping branches that are never taken does not change which one is. -/
theorem selected_pruneBy {known : Formula → Option Bool} {passes : Value → Bool}
    (h : ∀ b ∈ bs, ∀ t, known b.test = some t → passes (b.test.value row) = t) :
    selected row passes (pruneBy known e bs).branches (pruneBy known e bs).otherwise =
      selected row passes bs e := by
  induction bs with
  | nil => rfl
  | cons b bs ih =>
      rw [List.forall_mem_cons] at h
      rw [selected_cons, pruneBy]
      split
      next htaken =>
        rw [if_pos (h.1 true htaken)]
        rfl
      next hdropped => rw [if_neg (by rw [h.1 false hdropped]; exact Bool.false_ne_true), ih h.2]
      next => rw [selected_cons, ih h.2]

theorem isTrue_of_isTrue? {t : Bool} (h : isTrue? f = some t) : (f.value row).isTrue = t := by
  obtain ⟨v, hv, rfl⟩ := Option.map_eq_some_iff.mp h
  rw [value_of_literal? hv]
  cases v with
  | boolean b => cases b <;> rfl
  | _ => rfl

/-- A pattern that is a literal matches a subject that is one if they are the same. -/
theorem same_of_plain {p : ValueType} (hp : p ∈ ValueType.plain) {v w : Literal}
    (hv : v.hasType p = true) (hw : w.hasType p = true) (hnull : v ≠ .null) :
    (Value.equal (.ofLiteral v) (.ofLiteral w)).isTrue = w.same v := by
  have hcomm (v w : Literal) : v.same w = w.same v := by
    rw [Bool.eq_iff_iff, Literal.same, Literal.same, beq_iff_eq, beq_iff_eq]
    exact eq_comm
  have hisTrue (b : Bool) : (Value.boolean b).isTrue = b := by cases b <;> rfl
  simp only [ValueType.plain, List.mem_cons, List.not_mem_nil, or_false] at hp
  rcases hp with rfl | rfl | rfl
  · obtain ⟨b, rfl⟩ := (Literal.cases_boolean hv).resolve_left hnull
    rcases Literal.cases_boolean hw with rfl | ⟨c, rfl⟩
    · rfl
    · rw [Literal.equal_booleans, hisTrue, hcomm]
  · obtain ⟨m, rfl⟩ := (Literal.cases_integer hv).resolve_left hnull
    rcases Literal.cases_integer hw with rfl | ⟨n, rfl⟩
    · rfl
    · rw [Literal.equal_integers, hisTrue, hcomm]
  · obtain ⟨s, rfl⟩ := (Literal.cases_string hv).resolve_left hnull
    rcases Literal.cases_string hw with rfl | ⟨s', rfl⟩
    · rfl
    · rw [Literal.equal_strings, hisTrue, hcomm]

theorem equal_of_isSubject? {p : ValueType} (hp : p ∈ ValueType.plain) {v : Literal}
    (hv : v.hasType p = true) (hnull : v ≠ .null) (hf : f.hasType fields p = true) {t : Bool}
    (h : isSubject? v f = some t) : (Value.equal (.ofLiteral v) (f.value row)).isTrue = t := by
  obtain ⟨w, hw, rfl⟩ := Option.map_eq_some_iff.mp h
  have hwtyped := (hasType_of_literal? hw p).symm.trans hf
  rw [value_of_literal? hw]
  exact same_of_plain hp hv hwtyped hnull

theorem Left.otherwise {p : Pruned} {P : Formula → Prop} (h : Left p bs e)
    (hbs : ∀ b ∈ bs, P b.value) (he : P e) : P p.otherwise := by
  rcases h.2 with h | ⟨b, hb, h⟩
  · exact h ▸ he
  · exact h ▸ hbs b hb

theorem Left.mayBecomeNull {p : Pruned} (h : Left p bs e)
    (hnull : (∃ b ∈ p.branches, b.value.mayBecomeNull = true) ∨ p.otherwise.mayBecomeNull = true) :
    (∃ b ∈ bs, b.value.mayBecomeNull = true) ∨ e.mayBecomeNull = true := by
  rcases hnull with ⟨b, hb, hnull⟩ | hnull
  · exact Or.inl ⟨b, h.1 hb, hnull⟩
  · rcases h.2 with h | ⟨b, hb, h⟩
    · exact Or.inr (h ▸ hnull)
    · exact Or.inl ⟨b, hb, h ▸ hnull⟩

theorem rebuilt_eq_some {p : Pruned} {build : List (Branch Formula) → Formula → Formula}
    (h : rebuilt bs p build = some r) : p.branches.length ≠ bs.length ∧
    ((p.branches = [] ∧ r = p.otherwise) ∨
      p.branches ≠ [] ∧ r = build p.branches p.otherwise) := by
  unfold rebuilt at h
  split at h
  · exact absurd h (by simp)
  next hlength =>
    refine ⟨by simpa using hlength, ?_⟩
    split at h
    next hempty => exact Or.inl ⟨List.isEmpty_iff.mp hempty, (Option.some.inj h).symm⟩
    next hempty => exact Or.inr ⟨by simpa using hempty, (Option.some.inj h).symm⟩

theorem refines_pruneIf {p : Pruned} (hf : f.reading = .conditional bs e) (hleft : Left p bs e)
    (hvalue : selected row Value.isTrue p.branches p.otherwise = selected row Value.isTrue bs e)
    (hr : (p.branches = [] ∧ r = p.otherwise) ∨ r.reading = .conditional p.branches p.otherwise) :
    Refines row fields f r := by
  intro t u htyped hcareful
  obtain ⟨hbstyped, hetyped⟩ := (hasType_conditional hf).mp htyped
  obtain ⟨hbscareful, hecareful⟩ := (careful_conditional hf).mp hcareful
  have htyped := hleft.otherwise (P := fun g => g.hasType fields t = true)
    (fun b hb => (hbstyped b hb).2) hetyped
  have hcareful := hleft.otherwise (P := fun g => g.careful u = true)
    (fun b hb => (hbscareful b hb).2) hecareful
  have hnull := fun hn => (mayBecomeNull_conditional hf).mpr (hleft.mayBecomeNull hn)
  have hf : f.value row = selected row Value.isTrue p.branches p.otherwise :=
    (value_conditional hf).trans hvalue.symm
  rcases hr with ⟨hnone, rfl⟩ | hr
  · refine ⟨htyped, hcareful, fun hn => hnull (Or.inr hn), .of_eq ?_⟩
    rw [hf, hnone]
    rfl
  · refine ⟨(hasType_conditional hr).mpr ⟨fun b hb => hbstyped b (hleft.1 hb), htyped⟩,
      (careful_conditional hr).mpr ⟨fun b hb => hbscareful b (hleft.1 hb), hcareful⟩,
      fun hn => hnull ((mayBecomeNull_conditional hr).mp hn), .of_eq ?_⟩
    rw [hf, value_conditional hr]
    rfl

theorem refines_pruneCase {subject : Formula} {v : Literal}
    (hf : f.reading = .choice subject bs e) (hv : subject.literal? = some v)
    (hr : ((pruneBy (isSubject? v) e bs).branches = [] ∧
        r = (pruneBy (isSubject? v) e bs).otherwise) ∨
      r.reading = .choice subject (pruneBy (isSubject? v) e bs).branches
        (pruneBy (isSubject? v) e bs).otherwise) :
    Refines row fields f r := by
  intro t u htyped hcareful
  obtain ⟨⟨p, hp, hstyped, htests⟩, hvalues, hetyped⟩ := (hasType_choice hf).mp htyped
  obtain ⟨hsnull, hscareful, hbscareful, hecareful⟩ := (careful_choice hf).mp hcareful
  have hleft : Left (pruneBy (isSubject? v) e bs) bs e := left_pruneBy
  have htyped := hleft.otherwise (P := fun g => g.hasType fields t = true) hvalues hetyped
  have hcareful := hleft.otherwise (P := fun g => g.careful u = true)
    (fun b hb => (hbscareful b hb).2) hecareful
  have hnull := fun hn => (mayBecomeNull_choice hf).mpr (hleft.mayBecomeNull hn)
  have hf : f.value row = selected row (fun x => ((subject.value row).equal x).isTrue)
      (pruneBy (isSubject? v) e bs).branches (pruneBy (isSubject? v) e bs).otherwise := by
    rw [value_of_literal? hv]
    have hvtyped := (hasType_of_literal? hv p).symm.trans hstyped
    rw [selected_pruneBy fun b hb t ht => equal_of_isSubject? hp hvtyped
      (ne_null_of_literal? hv hsnull) (htests b hb) ht, ← value_of_literal? hv]
    exact value_choice hf
  rcases hr with ⟨hnone, rfl⟩ | hr
  · refine ⟨htyped, hcareful, fun hn => hnull (Or.inr hn), .of_eq ?_⟩
    rw [hf, hnone]
    rfl
  · refine ⟨(hasType_choice hr).mpr ⟨⟨p, hp, hstyped, fun b hb => htests b (hleft.1 hb)⟩,
        fun b hb => hvalues b (hleft.1 hb), htyped⟩,
      (careful_choice hr).mpr ⟨hsnull, hscareful, fun b hb => hbscareful b (hleft.1 hb), hcareful⟩,
      fun hn => hnull ((mayBecomeNull_choice hr).mp hn), .of_eq ?_⟩
    rw [hf, value_choice hr]
    rfl

theorem branchArgs_parts {α : Type} (bs : List (Branch α)) (e : α) :
    branchArgs (bs.flatMap Branch.parts ++ [e]) = some (bs, e) := by
  induction bs with
  | nil => rfl
  | cons b bs ih =>
      simp only [List.flatMap_cons, Branch.parts, List.cons_append, List.nil_append, branchArgs]
      rw [ih]
      rfl

/-! ### Calls and blocks -/

/-- The same conditional with other branches. -/
def withBranches (f : Formula) (bs : List (Branch Formula)) (e : Formula) : Formula :=
  match f.kind with
  | .call c =>
    let subject := if c.name.toLower = "case" then c.args.take 1 else []
    callWithArgs c (subject ++ bs.flatMap Branch.parts ++ [e])
  | .ifBlock _ _ => .mk (.ifBlock bs e) f.notes
  | .caseBlock s _ _ => .mk (.caseBlock s bs e) f.notes
  | _ => f

section WithBranches

variable {c : Call Formula} {subject : Formula} {args : List Formula}

theorem withBranches_if (hk : f.kind = .call c) (hname : c.name.toLower = "if") :
    withBranches f = fun bs e => callWithArgs c (bs.flatMap Branch.parts ++ [e]) := by
  have hcase : c.name.toLower ≠ "case" := by rw [hname]; decide
  funext bs e
  simp only [withBranches, hk, if_neg hcase, List.nil_append]

theorem withBranches_case (hk : f.kind = .call c) (hname : c.name.toLower = "case")
    (hargs : c.args = subject :: args) :
    withBranches f = fun bs e => callWithArgs c (subject :: bs.flatMap Branch.parts ++ [e]) := by
  funext bs e
  simp only [withBranches, hk, if_pos hname, hargs, List.cons_append, List.take_succ_cons,
    List.take_zero, List.nil_append]

theorem withBranches_ifBlock (hk : f.kind = .ifBlock bs e) :
    withBranches f = fun bs e => .mk (.ifBlock bs e) f.notes := by
  funext bs e
  simp only [withBranches, hk]

theorem withBranches_caseBlock (hk : f.kind = .caseBlock subject bs e) :
    withBranches f = fun bs e => .mk (.caseBlock subject bs e) f.notes := by
  funext bs e
  simp only [withBranches, hk]

theorem reading_withBranches_conditional (hf : f.reading = .conditional bs e)
    (ds : List (Branch Formula)) (d : Formula) :
    (withBranches f ds d).reading = .conditional ds d := by
  rcases kind_of_conditional hf with ⟨c, hk, hname, hargs⟩ | hk
  · have hreading (args : List Formula) :
        (callWithArgs c args).reading = .ofCall { c with args, ignored := [] } := rfl
    simp only [withBranches_if hk hname, hreading, Reading.ofCall, hname, Reading.ofIf,
      branchArgs_parts]
  · rw [withBranches_ifBlock hk]
    rfl

theorem reading_withBranches_choice (hf : f.reading = .choice subject bs e)
    (ds : List (Branch Formula)) (d : Formula) :
    (withBranches f ds d).reading = .choice subject ds d := by
  rcases kind_of_choice hf with ⟨c, hk, hname, hargs⟩ | hk
  · have hreading (args : List Formula) :
        (callWithArgs c args).reading = .ofCall { c with args, ignored := [] } := rfl
    simp only [withBranches_case hk hname hargs, hreading, Reading.ofCall, hname, List.cons_append,
      Reading.ofCase, branchArgs_parts]
  · rw [withBranches_caseBlock hk]
    rfl

/-- The children are the parts and, of a call, the dimensions. -/
theorem children_withBranches_conditional (hf : f.reading = .conditional bs e) :
    ∃ dims dims' : List Formula, dims'.Sublist dims ∧
      f.children = bs.flatMap Branch.parts ++ [e] ++ dims ∧
      ∀ ds d, (withBranches f ds d).children = ds.flatMap Branch.parts ++ [d] ++ dims' := by
  rcases kind_of_conditional hf with ⟨c, hk, hname, hargs⟩ | hk
  · refine ⟨c.lod.dims ++ c.ignored, c.lod.dims, List.sublist_append_left _ _, ?_, ?_⟩
    · rw [children, hk, ← hargs, ← List.append_assoc]
      rfl
    · intro ds d
      rw [withBranches_if hk hname]
      exact List.append_nil _
  · refine ⟨[], [], List.Sublist.refl _, ?_, ?_⟩
    · rw [children, hk, List.append_nil]
      rfl
    · intro ds d
      rw [withBranches_ifBlock hk, List.append_nil]
      rfl

theorem children_withBranches_choice (hf : f.reading = .choice subject bs e) :
    ∃ dims dims' : List Formula, dims'.Sublist dims ∧
      f.children = subject :: (bs.flatMap Branch.parts ++ [e] ++ dims) ∧
      ∀ ds d, (withBranches f ds d).children =
        subject :: (ds.flatMap Branch.parts ++ [d] ++ dims') := by
  rcases kind_of_choice hf with ⟨c, hk, hname, hargs⟩ | hk
  · refine ⟨c.lod.dims ++ c.ignored, c.lod.dims, List.sublist_append_left _ _, ?_, ?_⟩
    · rw [children, hk, ← List.cons_append, ← List.cons_append, ← hargs, ← List.append_assoc]
      rfl
    · intro ds d
      rw [withBranches_case hk hname hargs]
      exact List.append_nil _
  · refine ⟨[], [], List.Sublist.refl _, ?_, ?_⟩
    · rw [children, hk, List.append_nil]
      rfl
    · intro ds d
      rw [withBranches_caseBlock hk, List.append_nil]
      rfl

/-- A conditional is pruned the same way, whether it is a call or a block. -/
theorem conditional_of_reading (hf : f.reading = .conditional bs e) :
    conditional above f = rebuilt bs (pruneIf e bs) (withBranches f) := by
  rcases kind_of_conditional hf with ⟨c, hk, hname, hargs⟩ | hk
  · rw [withBranches_if hk hname]
    simp only [conditional, hk, hname, hargs, branchArgs_parts, Option.bind_eq_bind,
      Option.bind_some]
  · rw [withBranches_ifBlock hk]
    simp only [conditional, hk]

/-- A choice is pruned if its subject is a literal. -/
theorem conditional_of_choice (hf : f.reading = .choice subject bs e) :
    conditional above f =
      subject.literal?.bind fun v => rebuilt bs (pruneCase v e bs) (withBranches f) := by
  rcases kind_of_choice hf with ⟨c, hk, hname, hargs⟩ | hk
  · rw [withBranches_case hk hname hargs]
    simp only [conditional, hk, hname, hargs, List.cons_append, branchArgs_parts,
      Option.bind_eq_bind, Option.bind_some]
  · rw [withBranches_caseBlock hk]
    simp only [conditional, hk, Option.bind_eq_bind]

/-- The rule is about conditionals and about choices by a literal. -/
theorem conditional_cases (h : conditional above f = some r) :
    (∃ bs e, f.reading = .conditional bs e ∧
      rebuilt bs (pruneBy isTrue? e bs) (withBranches f) = some r) ∨
    ∃ subject v bs e, f.reading = .choice subject bs e ∧ subject.literal? = some v ∧
      rebuilt bs (pruneBy (isSubject? v) e bs) (withBranches f) = some r := by
  unfold conditional at h
  simp only [pruneIf_eq, pruneCase_eq] at h
  split at h
  next c hk =>
    split at h
    next hname =>
      obtain ⟨⟨bs, e⟩, hbs, h⟩ := Option.bind_eq_some_iff.mp h
      refine Or.inl ⟨bs, e, ?_, by rwa [withBranches_if hk hname]⟩
      rw [reading_of_kind hk, Kind.reading, Reading.ofCall_if hname, Reading.ofIf, hbs]
    next hname =>
      split at h
      next subject rest hargs =>
        obtain ⟨v, hv, h⟩ := Option.bind_eq_some_iff.mp h
        obtain ⟨⟨bs, e⟩, hbs, h⟩ := Option.bind_eq_some_iff.mp h
        refine Or.inr ⟨subject, v, bs, e, ?_, hv, by rwa [withBranches_case hk hname hargs]⟩
        rw [reading_of_kind hk, Kind.reading, Reading.ofCall_case hname, hargs, Reading.ofCase, hbs]
      next => exact absurd h (by simp)
    next => exact absurd h (by simp)
  next bs e hk =>
    exact Or.inl ⟨bs, e, reading_of_kind hk, by rwa [withBranches_ifBlock hk]⟩
  next subject bs e hk =>
    obtain ⟨v, hv, h⟩ := Option.bind_eq_some_iff.mp h
    exact Or.inr ⟨subject, v, bs, e, reading_of_kind hk, hv, by rwa [withBranches_caseBlock hk]⟩
  next => exact absurd h (by simp)

end WithBranches

end Conditionals

theorem sound_conditional : Sound row fields conditional := by
  intro above f r h
  rcases conditional_cases h with ⟨bs, e, hf, h⟩ | ⟨subject, v, bs, e, hf, hv, h⟩
  · refine refines_pruneIf hf left_pruneBy
      (selected_pruneBy fun _ _ _ => isTrue_of_isTrue?) ((rebuilt_eq_some h).2.imp_right ?_)
    rintro ⟨-, rfl⟩
    exact reading_withBranches_conditional hf _ _
  · refine refines_pruneCase hf hv ((rebuilt_eq_some h).2.imp_right ?_)
    rintro ⟨-, rfl⟩
    exact reading_withBranches_choice hf _ _

/-! ## Aggregations -/

/-- Aggregations are left unread, so they are in no well-typed formula. -/
theorem sound_doubleAggregation : Sound row fields doubleAggregation := by
  intro above f r h t u htyped _
  obtain ⟨outer, houter, h⟩ := Option.bind_eq_some_iff.mp h
  have hunread (hname : collapsible.contains outer.name.toLower = true) : f.reading = .unread := by
    rw [reading_of_kind (kind_of_call? houter), Kind.reading]
    refine Reading.ofCall_unread fun hmem => ?_
    have hdisjoint : ∀ name ∈ ["if", "case", "isnull"], collapsible.contains name = false := by
      decide
    exact Bool.false_ne_true ((hdisjoint _ hmem).symm.trans hname)
  split at h
  next x hargs =>
    obtain ⟨inner, -, h⟩ := Option.bind_eq_some_iff.mp h
    split at h
    next hcond =>
      simp only [Bool.and_eq_true] at hcond
      exact absurd htyped (not_hasType_unread (hunread hcond.1.1.1.1.1))
    next => exact absurd h (by simp)
  next => exact absurd h (by simp)

/-! ## Comparisons of truth values -/

/-- The inverse of a comparison takes the same operands. -/
theorem inversions_signatures {op op' : String} (h : inversions.lookup op = some op') :
    Value.signatures op' = Value.signatures op ∧ isConnective op = false ∧
      isConnective op' = false := by
  have hall : ∀ p ∈ inversions, Value.signatures p.2 = Value.signatures p.1 ∧
      isConnective p.1 = false ∧ isConnective p.2 = false := by decide
  exact hall _ (mem_of_lookup h)

theorem not_onNumbers {test test' : Int → Int → Bool} (h : ∀ m n, (!test m n) = test' m n)
    (a b : Value) :
    (Value.onNumbers (fun m n => .boolean (test m n)) a b).not =
      Value.onNumbers (fun m n => .boolean (test' m n)) a b := by
  unfold Value.onNumbers
  split
  · exact congrArg Value.boolean (h _ _)
  · rfl

/-- The inverse of a comparison is its negation, also where the comparison is NULL. -/
theorem not_binary {op op' : String} (h : inversions.lookup op = some op')
    (htyped : Value.signatures op ≠ []) (a b : Value) :
    (Value.binary op a b).not = Value.binary op' a b := by
  have hmem := mem_of_lookup h
  simp only [inversions, List.mem_cons, Prod.mk.injEq, List.not_mem_nil, or_false] at hmem
  have hequal : (a.equal b).not.not = a.equal b := by
    rcases Value.boolean_cases (Value.equal_hasType a b) with h | ⟨c, h⟩
    · rw [h]; rfl
    · rw [h]; exact congrArg Value.boolean (Bool.not_not c)
  rcases hmem with ⟨rfl, rfl⟩ | ⟨rfl, rfl⟩ | ⟨rfl, rfl⟩ | ⟨rfl, rfl⟩ | ⟨rfl, rfl⟩ | ⟨rfl, rfl⟩ |
    ⟨rfl, rfl⟩ | ⟨rfl, rfl⟩
  · exact not_onNumbers (fun m n => by simp [← decide_not]) a b
  · exact not_onNumbers (fun m n => by simp [← decide_not]) a b
  · exact not_onNumbers (fun m n => by simp [← decide_not]) a b
  · exact not_onNumbers (fun m n => by simp [← decide_not]) a b
  · rfl
  · exact hequal
  · exact absurd rfl htyped
  · exact absurd rfl htyped

theorem boolean_of_signature {op : String} {s : ValueType × ValueType}
    (hop : isConnective op = true ∨ (inversions.lookup op).isSome = true)
    (hs : s ∈ Value.signatures op) : s.2 = .boolean := by
  rcases hop with hop | hop
  · rw [isConnective, Bool.or_eq_true, beq_iff_eq, beq_iff_eq] at hop
    rcases hop with rfl | rfl <;> exact congrArg Prod.snd (List.mem_singleton.mp hs)
  · obtain ⟨op', hop'⟩ := Option.isSome_iff_exists.mp hop
    have hall : ∀ p ∈ inversions, ∀ s ∈ Value.signatures p.1, s.2 = .boolean := by decide
    exact hall _ (mem_of_lookup hop') s hs

/-- A boolean operation gives a truth value, and one whose value counts does not become NULL. -/
theorem booleanOperation_spec (h : isBooleanOperation f = true) {t : ValueType}
    (htyped : f.hasType fields t = true) (hcareful : f.careful .value = true) :
    f.hasType fields .boolean = true ∧ f.mayBecomeNull = false := by
  unfold isBooleanOperation at h
  split at h
  next op left right hk =>
    have hf : f.reading = .binary op left right := reading_of_kind hk
    have hop : isConnective op = true ∨ (inversions.lookup op).isSome = true := by
      rwa [Bool.or_eq_true] at h
    refine ⟨?_, ?_⟩
    · obtain ⟨s, hs, hl, hr, -⟩ := (hasType_binary hf).mp htyped
      refine (hasType_binary hf).mpr ⟨s, hs, hl, hr, ?_⟩
      rw [boolean_of_signature hop hs]
      rfl
    · refine Bool.eq_false_iff.mpr fun hnull => ?_
      obtain ⟨hconnective, hnull⟩ := (mayBecomeNull_binary hf).mp hnull
      obtain ⟨hl, hr⟩ := ((careful_connective hf hconnective).mp hcareful).2.2 rfl
      rcases hnull with hnull | hnull
      · exact Bool.false_ne_true (hl.symm.trans hnull)
      · exact Bool.false_ne_true (hr.symm.trans hnull)
  next => exact absurd h (by simp)

/-- What is offered in place of an operation that has to be false. -/
theorem stands_inverted (row : String → Value) {t : ValueType}
    (ht : ValueType.boolean.within t = true) (htyped : f.hasType fields .boolean = true)
    (hcareful : f.careful .value = true) :
    (inverted f).hasType fields t = true ∧ (inverted f).careful .value = true ∧
      (inverted f).mayBecomeNull = false ∧ (inverted f).value row = (f.value row).not := by
  have hnegated : (Formula.unary "not" f).hasType fields t = true ∧
      (Formula.unary "not" f).careful .value = true ∧
      (Formula.unary "not" f).mayBecomeNull = false ∧
      (Formula.unary "not" f).value row = (f.value row).not := by
    have hreading : (Formula.unary "not" f).reading = .unary "not" f := rfl
    refine ⟨(hasType_unary hreading).mpr ⟨rfl, htyped, ht⟩, ?_, ?_, value_unary hreading⟩
    · rwa [careful_unary hreading]
    · rw [mayBecomeNull_eq, hreading]
      rfl
  unfold inverted
  split
  next op left right hk =>
    split
    next op' hop' =>
      have hf : f.reading = .binary op left right := reading_of_kind hk
      have hreading : (Formula.binary op' left right).reading = .binary op' left right := rfl
      obtain ⟨hsig, hop, hop'⟩ := inversions_signatures hop'
      obtain ⟨s, hs, hl, hr, hst⟩ := (hasType_binary hf).mp htyped
      refine ⟨(hasType_binary hreading).mpr ⟨s, hsig ▸ hs, hl, hr,
        ValueType.within_trans hst ht⟩, ?_, ?_, ?_⟩
      · exact (careful_operator hreading hop').mpr ((careful_operator hf hop).mp hcareful)
      · refine Bool.eq_false_iff.mpr fun hnull => ?_
        exact Bool.false_ne_true (hop'.symm.trans ((mayBecomeNull_binary hreading).mp hnull).1)
      · rw [value_binary hreading, value_binary hf]
        exact (not_binary ‹_› (List.ne_nil_of_mem hs) _ _).symm
    next => exact hnegated
  next => exact hnegated

/-- A comparison of a truth value with a literal that stands for one. -/
theorem equal_zeroOne {x : Formula} {b : Bool} (h : zeroOne? x = some b) {t : ValueType}
    (htyped : x.hasType fields t = true) {v : Value} (hv : v.hasType .boolean = true) :
    v.equal (x.value row) = if b then v else v.not := by
  have hboolean (b : Bool) : v.equal (.boolean b) = if b then v else v.not := by
    rcases Value.boolean_cases hv with rfl | ⟨c, rfl⟩
    · cases b <;> rfl
    · cases b <;> cases c <;> rfl
  have hinteger (b : Bool) : v.equal (.integer (if b then 1 else 0)) = v.equal (.boolean b) := by
    rcases Value.boolean_cases hv with rfl | ⟨c, rfl⟩ <;> rfl
  unfold zeroOne? at h
  split at h
  next c hx =>
    obtain rfl := Option.some.inj h
    rw [value_of_literal? hx]
    exact hboolean c
  next n hx =>
    rw [value_of_literal? hx, ← hboolean, ← hinteger]
    split at h
    next hn =>
      obtain rfl := Option.some.inj h
      rw [beq_iff_eq.mp hn]
      rfl
    next =>
      split at h
      next hn =>
        obtain rfl := Option.some.inj h
        rw [beq_iff_eq.mp hn]
        rfl
      next => exact absurd h (by simp)
  next x' hx =>
    rw [hasType_of_literal? hx] at htyped
    exact absurd htyped (by simp [Literal.hasType])
  next => exact absurd h (by simp)

/-- What a comparison of an operation with a constant is replaced by. -/
def Chosen (operation constant : Formula) (negated : Bool) (r : Formula) : Prop :=
  isBooleanOperation operation = true ∧ ∃ b, zeroOne? constant = some b ∧
    r = if b != negated then operation else inverted operation

theorem zeroOne_cases (h : zeroOne above f = some r) :
    ∃ op left right negated, f.kind = .binary op left right ∧
      ((op = "==" ∧ negated = false) ∨ (op = "!=" ∧ negated = true)) ∧
      (Chosen left right negated r ∨ Chosen right left negated r) := by
  have hchosen {operation constant : Formula} (hoperation : isBooleanOperation operation = true)
      {negated : Bool}
      (h : (((zeroOne? constant).map (operation, ·)).bind fun x =>
        if (x.2 != negated) = true then some x.1 else some (inverted x.1)) = some r) :
      Chosen operation constant negated r := by
    obtain ⟨⟨_, b⟩, hmap, h⟩ := Option.bind_eq_some_iff.mp h
    obtain ⟨b, hb, heq⟩ := Option.map_eq_some_iff.mp hmap
    obtain ⟨rfl, rfl⟩ := Prod.mk.inj heq
    refine ⟨hoperation, b, hb, ?_⟩
    dsimp only at h
    split at h <;> simp_all
  have hoperands {left right : Formula} {negated : Bool}
      (h : (if isBooleanOperation left = true then
          ((zeroOne? right).map (left, ·)).bind fun x =>
            if (x.2 != negated) = true then some x.1 else some (inverted x.1)
        else if isBooleanOperation right = true then
          ((zeroOne? left).map (right, ·)).bind fun x =>
            if (x.2 != negated) = true then some x.1 else some (inverted x.1)
        else none) = some r) : Chosen left right negated r ∨ Chosen right left negated r := by
    split at h
    next hleft => exact Or.inl (hchosen hleft h)
    next =>
      split at h
      next hright => exact Or.inr (hchosen hright h)
      next => exact absurd h (by simp)
  unfold zeroOne at h
  split at h
  next op left right hk =>
    dsimp only at h
    split at h
    · exact ⟨_, left, right, false, hk, Or.inl ⟨rfl, rfl⟩, hoperands h⟩
    · exact ⟨_, left, right, true, hk, Or.inr ⟨rfl, rfl⟩, hoperands h⟩
    · exact absurd h (by simp)
  next => exact absurd h (by simp)

theorem sound_zeroOne (hrow : Conforms row fields) : Sound row fields zeroOne := by
  intro above f r h t u htyped hcareful
  obtain ⟨op, left, right, negated, hk, hop, hchosen⟩ := zeroOne_cases h
  have hf : f.reading = .binary op left right := reading_of_kind hk
  obtain ⟨s, hs, hl, hr, hst⟩ := (hasType_binary hf).mp htyped
  have hconnective : isConnective op = false := by
    rcases hop with ⟨rfl, -⟩ | ⟨rfl, -⟩ <;> rfl
  obtain ⟨hlcareful, hrcareful⟩ := (careful_operator hf hconnective).mp hcareful
  have hboolean : s.2 = .boolean := by
    refine boolean_of_signature (Or.inr ?_) hs
    rcases hop with ⟨rfl, -⟩ | ⟨rfl, -⟩ <;> rfl
  rw [hboolean] at hst
  have hvalue : f.value row = if negated then ((left.value row).equal (right.value row)).not
      else (left.value row).equal (right.value row) := by
    rw [value_binary hf]
    rcases hop with ⟨rfl, rfl⟩ | ⟨rfl, rfl⟩ <;> rfl
  have hoperands : ∃ operation constant, Chosen operation constant negated r ∧
      operation.hasType fields s.1 = true ∧ constant.hasType fields s.1 = true ∧
      operation.careful .value = true ∧
      f.value row = if negated then ((operation.value row).equal (constant.value row)).not
        else (operation.value row).equal (constant.value row) := by
    rcases hchosen with hchosen | hchosen
    · exact ⟨left, right, hchosen, hl, hr, hlcareful, hvalue⟩
    · refine ⟨right, left, hchosen, hr, hl, hrcareful, ?_⟩
      rw [Value.equal_comm]
      exact hvalue
  obtain ⟨operation, constant, ⟨hoperation, b, hb, rfl⟩, htyped, hconstant, hcareful, hvalue⟩ :=
    hoperands
  obtain ⟨htyped, hnull⟩ := booleanOperation_spec hoperation htyped hcareful
  have hx := value_hasType hrow htyped
  rw [equal_zeroOne hb hconstant hx] at hvalue
  have hnotnot : (operation.value row).not.not = operation.value row := by
    rcases Value.boolean_cases hx with h | ⟨c, h⟩
    · rw [h]; rfl
    · rw [h]; exact congrArg Value.boolean (Bool.not_not c)
  obtain ⟨hinverted, hicareful, hinull, hivalue⟩ :=
    stands_inverted row hst htyped hcareful
  have hkeep (hvalue : f.value row = operation.value row) : Stands row fields f operation t u :=
    ⟨hasType_mono hst htyped, careful_of_value hcareful u,
      fun hn => absurd (hnull.symm.trans hn) Bool.false_ne_true, .of_eq hvalue⟩
  have hinvert (hvalue : f.value row = (operation.value row).not) :
      Stands row fields f (inverted operation) t u :=
    ⟨hinverted, careful_of_value hicareful u,
      fun hn => absurd (hinull.symm.trans hn) Bool.false_ne_true,
      .of_eq (hvalue.trans hivalue.symm)⟩
  cases b <;> cases negated
  · exact hinvert hvalue
  · exact hkeep (hvalue.trans hnotnot)
  · exact hkeep hvalue
  · exact hinvert hvalue

end Simplify

end FormulaSql
