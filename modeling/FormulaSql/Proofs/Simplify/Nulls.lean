import FormulaSql.Proofs.Formula.Rewriting
import FormulaSql.Proofs.Simplify.Meaning

/-!
# Where NULL may be taken for FALSE

A connective with a constant operand is simplified as if NULL were FALSE. Where it only counts
whether a formula is true this makes no difference, but below NOT or in a comparison it does. Here
it is checked beforehand that no connective gets NULL for an operand where its value counts.

* `Formula.careful` is that check
* `Formula.Refines` relates a formula to one that stands in for it
* `Formula.refines_of_reading` carries it from the parts to a node
-/

namespace FormulaSql

/-- What is asked of a formula: its value, or only whether it is true. -/
inductive Use where
  | value
  | truth
  deriving DecidableEq

/-- The values are alike in what is asked. -/
def Use.Agree : Use → Value → Value → Prop
  | value, a, b => a = b
  | truth, a, b => a = .boolean true ↔ b = .boolean true

/-- What is known about a formula before it is simplified. -/
structure NullCheck where
  /-- It may become the literal NULL. -/
  mayBecomeNull : Bool
  /-- In what is asked, no NULL is taken for FALSE where this shows. -/
  careful : Use → Bool

def isConnective (op : String) : Bool := op == "and" || op == "or"

namespace Reading

/-- A literal can be left of a connective or a conditional whose other parts are constant. A
parenthesis always stays. -/
def mayBecomeNull : Reading NullCheck → Bool
  | literal v => v == .null
  | binary op l r => isConnective op && (l.mayBecomeNull || r.mayBecomeNull)
  | conditional bs e => bs.any (·.value.mayBecomeNull) || e.mayBecomeNull
  | choice _ bs e => bs.any (·.value.mayBecomeNull) || e.mayBecomeNull
  | _ => false

/-- Conditions are asked for their truth, and branches for what is asked of the whole. The operands
of a connective are asked for the same as the connective; all other operands are asked for their
values. -/
def careful : Reading NullCheck → Use → Bool
  | field _, _ => true
  | literal _, _ => true
  | paren e, u => e.careful u
  | binary op l r, u =>
    if isConnective op then
      l.careful u && r.careful u && (u == .truth || !(l.mayBecomeNull || r.mayBecomeNull))
    else l.careful .value && r.careful .value
  | unary _ e, _ => e.careful .value
  | conditional bs e, u =>
    bs.all (fun b => b.test.careful .truth && b.value.careful u) && e.careful u
  | choice s bs e, u =>
    !s.mayBecomeNull && s.careful .value &&
      bs.all (fun b => b.test.careful .value && b.value.careful u) && e.careful u
  | isNull e, _ => e.careful .value
  | unread, _ => true

end Reading

namespace Formula

def nullCheck (f : Formula) : NullCheck :=
  f.recur fun _ k => ⟨k.reading.mayBecomeNull, k.reading.careful⟩

/-- The formula may be simplified to the literal NULL. -/
def mayBecomeNull (f : Formula) : Bool := f.nullCheck.mayBecomeNull

/-- No connective that is asked for its value has an operand that may become NULL, and neither has
a choice such a subject. -/
def careful (f : Formula) (u : Use) : Bool := f.nullCheck.careful u

theorem nullCheck_eq (f : Formula) :
    f.nullCheck = ⟨(f.reading.map nullCheck).mayBecomeNull, (f.reading.map nullCheck).careful⟩ := by
  rw [nullCheck, recur_eq, Reading.reading_map]
  rfl

theorem mayBecomeNull_eq (f : Formula) :
    f.mayBecomeNull = (f.reading.map nullCheck).mayBecomeNull := by
  rw [mayBecomeNull, nullCheck_eq]

theorem careful_eq (f : Formula) (u : Use) :
    f.careful u = (f.reading.map nullCheck).careful u := by
  rw [careful, nullCheck_eq]

section Checks

variable {f e : Formula} {bs : List (Branch Formula)} {u : Use}

theorem careful_paren (hf : f.reading = .paren e) : f.careful u = e.careful u := by
  rw [careful_eq, hf]
  rfl

theorem careful_connective {op : String} {l r : Formula} (hf : f.reading = .binary op l r)
    (hop : isConnective op = true) :
    f.careful u = true ↔ l.careful u = true ∧ r.careful u = true ∧
      (u = .value → l.mayBecomeNull = false ∧ r.mayBecomeNull = false) := by
  rw [careful_eq, hf, Reading.map, Reading.careful, if_pos hop]
  cases u <;> simp [careful, mayBecomeNull, and_assoc]

theorem careful_operator {op : String} {l r : Formula} (hf : f.reading = .binary op l r)
    (hop : isConnective op = false) :
    f.careful u = true ↔ l.careful .value = true ∧ r.careful .value = true := by
  rw [careful_eq, hf, Reading.map, Reading.careful, if_neg (by simp [hop]), Bool.and_eq_true]
  rfl

theorem careful_unary {op : String} (hf : f.reading = .unary op e) :
    f.careful u = e.careful .value := by
  rw [careful_eq, hf]
  rfl

theorem careful_conditional (hf : f.reading = .conditional bs e) :
    f.careful u = true ↔
      (∀ b ∈ bs, b.test.careful .truth = true ∧ b.value.careful u = true) ∧
        e.careful u = true := by
  rw [careful_eq, hf]
  simp only [Reading.map, Reading.careful, Bool.and_eq_true, List.all_eq_true, List.forall_mem_map,
    Branch.map, careful]

theorem careful_choice {s : Formula} (hf : f.reading = .choice s bs e) :
    f.careful u = true ↔
      s.mayBecomeNull = false ∧ s.careful .value = true ∧
        (∀ b ∈ bs, b.test.careful .value = true ∧ b.value.careful u = true) ∧
        e.careful u = true := by
  rw [careful_eq, hf]
  simp only [Reading.map, Reading.careful, Bool.and_eq_true, List.all_eq_true, List.forall_mem_map,
    Branch.map, careful, mayBecomeNull, Bool.not_eq_true', and_assoc]

theorem careful_isNull (hf : f.reading = .isNull e) : f.careful u = e.careful .value := by
  rw [careful_eq, hf]
  rfl

theorem mayBecomeNull_binary {op : String} {l r : Formula} (hf : f.reading = .binary op l r) :
    f.mayBecomeNull = true ↔
      isConnective op = true ∧ (l.mayBecomeNull = true ∨ r.mayBecomeNull = true) := by
  rw [mayBecomeNull_eq, hf]
  simp only [Reading.map, Reading.mayBecomeNull, Bool.and_eq_true, Bool.or_eq_true, mayBecomeNull]

theorem mayBecomeNull_conditional (hf : f.reading = .conditional bs e) :
    f.mayBecomeNull = true ↔ (∃ b ∈ bs, b.value.mayBecomeNull = true) ∨ e.mayBecomeNull = true := by
  rw [mayBecomeNull_eq, hf]
  simp only [Reading.map, Reading.mayBecomeNull, Bool.or_eq_true, List.any_eq_true, List.mem_map,
    exists_exists_and_eq_and, Branch.map, mayBecomeNull]

theorem mayBecomeNull_choice {s : Formula} (hf : f.reading = .choice s bs e) :
    f.mayBecomeNull = true ↔ (∃ b ∈ bs, b.value.mayBecomeNull = true) ∨ e.mayBecomeNull = true := by
  rw [mayBecomeNull_eq, hf]
  simp only [Reading.map, Reading.mayBecomeNull, Bool.or_eq_true, List.any_eq_true, List.mem_map,
    exists_exists_and_eq_and, Branch.map, mayBecomeNull]

end Checks

/-- What is safe where the value counts is safe where only the truth does. -/
theorem careful_truth {f : Formula} (h : f.careful .value = true) : f.careful .truth = true := by
  induction f using induction_reading with
  | step f ih =>
      cases hf : f.reading with
      | field | literal | unread =>
          rw [careful_eq, hf]
          rfl
      | paren e =>
          rw [hf] at ih
          rw [careful_paren hf] at h ⊢
          exact ih e (by simp [Reading.parts]) h
      | binary op l r =>
          rw [hf] at ih
          cases hop : isConnective op with
          | true =>
              rw [careful_connective hf hop] at h ⊢
              exact ⟨ih l (by simp [Reading.parts]) h.1, ih r (by simp [Reading.parts]) h.2.1,
                fun hu => absurd hu (by decide)⟩
          | false =>
              rw [careful_operator hf hop] at h ⊢
              exact h
      | unary op e =>
          rw [careful_unary hf] at h ⊢
          exact h
      | conditional bs e =>
          rw [hf] at ih
          rw [careful_conditional hf] at h ⊢
          refine ⟨fun b hb => ⟨(h.1 b hb).1, ?_⟩, ih e (by simp [Reading.parts]) h.2⟩
          exact ih b.value (Reading.value_mem_parts hb) (h.1 b hb).2
      | choice s bs e =>
          rw [hf] at ih
          rw [careful_choice hf] at h ⊢
          obtain ⟨hnull, hs, hbs, he⟩ := h
          refine ⟨hnull, hs, fun b hb => ⟨(hbs b hb).1, ?_⟩, ih e (by simp [Reading.parts]) he⟩
          exact ih b.value (List.mem_cons_of_mem s (Reading.value_mem_parts hb)) (hbs b hb).2
      | isNull e =>
          rw [careful_isNull hf] at h ⊢
          exact h

theorem careful_of_value {f : Formula} (h : f.careful .value = true) (u : Use) :
    f.careful u = true := by
  cases u with
  | value => exact h
  | truth => exact careful_truth h

/-- Without a literal NULL there is nothing to be careful about. -/
theorem careful_of_no_null {f : Formula} (h : ∀ g ∈ f.nodes, g.literal? ≠ some .null) (u : Use) :
    f.mayBecomeNull = false ∧ f.careful u = true := by
  induction f using induction_reading generalizing u with
  | step f ih =>
      have hpart : ∀ c ∈ f.reading.parts, ∀ u, c.mayBecomeNull = false ∧ c.careful u = true :=
        fun c hc => ih c hc fun g hg =>
          h g (mem_nodes_of_child (Reading.mem_children_of_parts hc) hg)
      cases hf : f.reading with
      | literal v =>
          have hv : v ≠ .null := fun hv =>
            h f (self_mem_nodes f) (hv ▸ literal?_of_reading hf)
          rw [careful_eq, mayBecomeNull_eq, hf]
          exact ⟨beq_eq_false_iff_ne.mpr hv, rfl⟩
      | field | unread =>
          rw [careful_eq, mayBecomeNull_eq, hf]
          exact ⟨rfl, rfl⟩
      | paren e =>
          rw [hf] at hpart
          rw [careful_paren hf, mayBecomeNull_eq, hf]
          exact ⟨rfl, (hpart e (by simp [Reading.parts]) u).2⟩
      | binary op l r =>
          rw [hf] at hpart
          have hl := hpart l (by simp [Reading.parts])
          have hr := hpart r (by simp [Reading.parts])
          refine ⟨Bool.eq_false_iff.mpr fun hnull => ?_, ?_⟩
          · rcases ((mayBecomeNull_binary hf).mp hnull).2 with hnull | hnull
            · exact absurd hnull (by simp [(hl u).1])
            · exact absurd hnull (by simp [(hr u).1])
          · cases hop : isConnective op with
            | true =>
                rw [careful_connective hf hop]
                exact ⟨(hl u).2, (hr u).2, fun _ => ⟨(hl u).1, (hr u).1⟩⟩
            | false =>
                rw [careful_operator hf hop]
                exact ⟨(hl .value).2, (hr .value).2⟩
      | unary op e =>
          rw [hf] at hpart
          rw [careful_unary hf, mayBecomeNull_eq, hf]
          exact ⟨rfl, (hpart e (by simp [Reading.parts]) .value).2⟩
      | conditional bs e =>
          rw [hf] at hpart
          have he := hpart e (by simp [Reading.parts]) u
          have hvalue := fun b hb => hpart (Branch.value b) (Reading.value_mem_parts hb) u
          rw [careful_conditional hf, ← Bool.not_eq_true, mayBecomeNull_conditional hf]
          refine ⟨?_, fun b hb => ⟨(hpart b.test (Reading.test_mem_parts hb) .truth).2,
            (hvalue b hb).2⟩, he.2⟩
          rintro (⟨b, hb, hnull⟩ | hnull)
          · exact absurd hnull (by simp [(hvalue b hb).1])
          · exact absurd hnull (by simp [he.1])
      | choice s bs e =>
          rw [hf] at hpart
          have hs := hpart s (by simp [Reading.parts]) .value
          have he := hpart e (by simp [Reading.parts]) u
          have hvalue := fun b hb =>
            hpart (Branch.value b) (List.mem_cons_of_mem s (Reading.value_mem_parts hb)) u
          rw [careful_choice hf, ← Bool.not_eq_true, mayBecomeNull_choice hf]
          refine ⟨?_, hs.1, hs.2, fun b hb => ⟨?_, (hvalue b hb).2⟩, he.2⟩
          · rintro (⟨b, hb, hnull⟩ | hnull)
            · exact absurd hnull (by simp [(hvalue b hb).1])
            · exact absurd hnull (by simp [he.1])
          · exact (hpart b.test (List.mem_cons_of_mem s (Reading.test_mem_parts hb)) .value).2
      | isNull e =>
          rw [hf] at hpart
          rw [careful_isNull hf, mayBecomeNull_eq, hf]
          exact ⟨rfl, (hpart e (by simp [Reading.parts]) .value).2⟩

end Formula

/-! ## Standing in for a formula -/

theorem Use.Agree.refl (u : Use) (a : Value) : u.Agree a a := by
  cases u with
  | value => exact Eq.refl a
  | truth => exact Iff.rfl

theorem Use.Agree.of_eq {u : Use} {a b : Value} (h : a = b) : u.Agree a b := h ▸ .refl u a

theorem Use.Agree.trans {u : Use} {a b c : Value} (hab : u.Agree a b) (hbc : u.Agree b c) :
    u.Agree a c := by
  cases u with
  | value => exact Eq.trans hab hbc
  | truth => exact Iff.trans hab hbc

namespace Value

theorem and_eq_true {a b : Value} :
    a.and b = boolean true ↔ a = boolean true ∧ b = boolean true := by
  unfold and
  split <;> simp_all

theorem or_eq_true {a b : Value} :
    a.or b = boolean true ↔ a = boolean true ∨ b = boolean true := by
  unfold or
  split <;> simp_all

/-- Whether a connective is true is decided by whether its operands are. -/
theorem binary_agree {op : String} (hop : isConnective op = true) {a a' b b' : Value}
    (ha : Use.truth.Agree a a') (hb : Use.truth.Agree b b') :
    Use.truth.Agree (binary op a b) (binary op a' b') := by
  rw [isConnective, Bool.or_eq_true, beq_iff_eq, beq_iff_eq] at hop
  rcases hop with rfl | rfl
  · exact and_eq_true.trans ((and_congr ha hb).trans and_eq_true.symm)
  · exact or_eq_true.trans ((or_congr ha hb).trans or_eq_true.symm)

/-- Branches that are selected by the same tests give values that are alike. -/
theorem select_agree {u : Use} {passes passes' : Value → Bool} {bs bs' : List (Branch Value)}
    {e e' : Value}
    (h : List.Forall₂ (fun b b' => passes b.test = passes' b'.test ∧ u.Agree b.value b'.value)
      bs bs') (he : u.Agree e e') : u.Agree (select passes bs e) (select passes' bs' e') := by
  induction h with
  | nil => exact he
  | cons hb _ ih =>
      rw [select_cons, select_cons, hb.1]
      split
      · exact hb.2
      · exact ih

end Value

namespace Formula

/-- One formula stands in for another in what is asked. -/
structure Stands (row : String → Value) (fields : String → ValueType) (f g : Formula)
    (t : ValueType) (u : Use) : Prop where
  typed : g.hasType fields t = true
  careful : g.careful u = true
  null : g.mayBecomeNull = true → f.mayBecomeNull = true
  agree : u.Agree (f.value row) (g.value row)

/-- One formula stands in for another wherever that one is well-typed and can be simplified
safely. -/
def Refines (row : String → Value) (fields : String → ValueType) (f g : Formula) : Prop :=
  ∀ t u, f.hasType fields t = true → f.careful u = true → Stands row fields f g t u

variable {row : String → Value} {fields : String → ValueType} {f g h : Formula}

theorem Refines.refl (f : Formula) : Refines row fields f f :=
  fun _ u htyped hcareful => ⟨htyped, hcareful, id, .refl u _⟩

theorem Refines.trans (hfg : Refines row fields f g) (hgh : Refines row fields g h) :
    Refines row fields f h := by
  intro t u htyped hcareful
  obtain ⟨htyped, hcareful, hnull, hagree⟩ := hfg t u htyped hcareful
  obtain ⟨htyped', hcareful', hnull', hagree'⟩ := hgh t u htyped hcareful
  exact ⟨htyped', hcareful', fun hn => hnull (hnull' hn), hagree.trans hagree'⟩

/-- Branches that stand in for others one by one are selected in the same way. -/
theorem select_branches {u : Use} {passes passes' : Value → Bool} {bs bs' : List (Branch Formula)}
    {e e' : Formula}
    (h : List.Forall₂ (fun b b' => passes (b.test.value row) = passes' (b'.test.value row) ∧
      u.Agree (b.value.value row) (b'.value.value row)) bs bs')
    (he : u.Agree (e.value row) (e'.value row)) :
    u.Agree (.select passes (bs.map (·.map (value row))) (e.value row))
      (.select passes' (bs'.map (·.map (value row))) (e'.value row)) := by
  refine Value.select_agree ?_ he
  rw [List.forall₂_map_left_iff, List.forall₂_map_right_iff]
  exact h

theorem mayBecomeNull_of_branches {bs bs' : List (Branch Formula)} {e e' : Formula}
    (hbs : List.Forall₂ (fun b b' => b'.value.mayBecomeNull = true → b.value.mayBecomeNull = true)
      bs bs') (he : e'.mayBecomeNull = true → e.mayBecomeNull = true)
    (h : (∃ b ∈ bs', b.value.mayBecomeNull = true) ∨ e'.mayBecomeNull = true) :
    (∃ b ∈ bs, b.value.mayBecomeNull = true) ∨ e.mayBecomeNull = true := by
  rcases h with ⟨b', hb', hnull⟩ | hnull
  · obtain ⟨b, hb, hbb⟩ := forall₂_exists_left hbs hb'
    exact Or.inl ⟨b, hb, hbb hnull⟩
  · exact Or.inr (he hnull)

theorem isTrue_eq_of_agree {a b : Value} (h : Use.truth.Agree a b) : a.isTrue = b.isTrue := by
  rw [Bool.eq_iff_iff, Value.isTrue, Value.isTrue, beq_iff_eq, beq_iff_eq]
  exact h

section Parts

variable {bs bs' : List (Branch Formula)} {e e' s s' l l' r r' : Formula} {op : String}

theorem refines_paren (hf : f.reading = .paren e) (hg : g.reading = .paren e')
    (he : Refines row fields e e') : Refines row fields f g := by
  intro t u htyped hcareful
  rw [hasType_paren hf] at htyped
  rw [careful_paren hf] at hcareful
  obtain ⟨htyped, hcareful, -, hagree⟩ := he t u htyped hcareful
  refine ⟨(hasType_paren hg).mpr htyped, (careful_paren hg).trans hcareful, ?_, ?_⟩
  · rw [mayBecomeNull_eq, hg]
    exact fun hnull => absurd hnull Bool.false_ne_true
  · rwa [value_paren hf, value_paren hg]

theorem refines_connective (hop : isConnective op = true) (hf : f.reading = .binary op l r)
    (hg : g.reading = .binary op l' r') (hl : Refines row fields l l')
    (hr : Refines row fields r r') : Refines row fields f g := by
  intro t u htyped hcareful
  obtain ⟨p, hp, hltyped, hrtyped, hpt⟩ := (hasType_binary hf).mp htyped
  obtain ⟨hlcareful, hrcareful, hnulls⟩ := (careful_connective hf hop).mp hcareful
  have hl := hl p.1 u hltyped hlcareful
  have hr := hr p.1 u hrtyped hrcareful
  refine ⟨(hasType_binary hg).mpr ⟨p, hp, hl.typed, hr.typed, hpt⟩,
    (careful_connective hg hop).mpr ⟨hl.careful, hr.careful, fun hu => ?_⟩, ?_, ?_⟩
  · obtain ⟨hlnull, hrnull⟩ := hnulls hu
    exact ⟨Bool.eq_false_iff.mpr fun h => Bool.eq_false_iff.mp hlnull (hl.null h),
      Bool.eq_false_iff.mpr fun h => Bool.eq_false_iff.mp hrnull (hr.null h)⟩
  · rw [mayBecomeNull_binary hf, mayBecomeNull_binary hg]
    exact And.imp_right (Or.imp hl.null hr.null)
  · rw [value_binary hf, value_binary hg]
    cases u with
    | value => exact congrArg₂ _ hl.agree hr.agree
    | truth => exact Value.binary_agree hop hl.agree hr.agree

theorem refines_operator (hop : isConnective op = false) (hf : f.reading = .binary op l r)
    (hg : g.reading = .binary op l' r') (hl : Refines row fields l l')
    (hr : Refines row fields r r') : Refines row fields f g := by
  intro t u htyped hcareful
  obtain ⟨p, hp, hltyped, hrtyped, hpt⟩ := (hasType_binary hf).mp htyped
  obtain ⟨hlcareful, hrcareful⟩ := (careful_operator hf hop).mp hcareful
  have hl := hl p.1 .value hltyped hlcareful
  have hr := hr p.1 .value hrtyped hrcareful
  refine ⟨(hasType_binary hg).mpr ⟨p, hp, hl.typed, hr.typed, hpt⟩,
    (careful_operator hg hop).mpr ⟨hl.careful, hr.careful⟩, fun hnull => ?_, ?_⟩
  · exact absurd ((mayBecomeNull_binary hg).mp hnull).1 (by simp [hop])
  · rw [value_binary hf, value_binary hg]
    exact .of_eq (congrArg₂ _ hl.agree hr.agree)

theorem refines_unary (hf : f.reading = .unary op e) (hg : g.reading = .unary op e')
    (he : Refines row fields e e') : Refines row fields f g := by
  intro t u htyped hcareful
  obtain ⟨hop, htyped, ht⟩ := (hasType_unary hf).mp htyped
  rw [careful_unary hf] at hcareful
  have he := he .boolean .value htyped hcareful
  refine ⟨(hasType_unary hg).mpr ⟨hop, he.typed, ht⟩, (careful_unary hg).trans he.careful, ?_, ?_⟩
  · rw [mayBecomeNull_eq, hg]
    exact fun hnull => absurd hnull Bool.false_ne_true
  · rw [value_unary hf, value_unary hg]
    exact .of_eq (congrArg _ he.agree)

theorem refines_isNull (hf : f.reading = .isNull e) (hg : g.reading = .isNull e')
    (he : Refines row fields e e') : Refines row fields f g := by
  intro t u htyped hcareful
  obtain ⟨⟨s, htyped⟩, ht⟩ := (hasType_isNull hf).mp htyped
  rw [careful_isNull hf] at hcareful
  obtain ⟨htyped, hcareful, -, hagree⟩ := he s .value htyped hcareful
  have hvalue : e.value row = e'.value row := hagree
  refine ⟨(hasType_isNull hg).mpr ⟨⟨s, htyped⟩, ht⟩, (careful_isNull hg).trans hcareful, ?_, ?_⟩
  · rw [mayBecomeNull_eq, hg]
    exact fun hnull => absurd hnull Bool.false_ne_true
  · rw [value_isNull hf, value_isNull hg, hvalue]
    exact .refl u _

theorem refines_conditional (hf : f.reading = .conditional bs e)
    (hg : g.reading = .conditional bs' e')
    (hbs : List.Forall₂ (Branch.Rel (Refines row fields)) bs bs') (he : Refines row fields e e') :
    Refines row fields f g := by
  intro t u htyped hcareful
  obtain ⟨hbstyped, hetyped⟩ := (hasType_conditional hf).mp htyped
  obtain ⟨hbscareful, hecareful⟩ := (careful_conditional hf).mp hcareful
  have he := he t u hetyped hecareful
  have hbs : List.Forall₂ (fun b b' => Stands row fields b.test b'.test .boolean .truth ∧
      Stands row fields b.value b'.value t u) bs bs' :=
    forall₂_of_mem hbs fun b hb b' _ hbb =>
      ⟨hbb.1 _ _ (hbstyped b hb).1 (hbscareful b hb).1,
        hbb.2 _ _ (hbstyped b hb).2 (hbscareful b hb).2⟩
  have hmem : ∀ b' ∈ bs', ∃ b ∈ bs, Stands row fields b.test b'.test .boolean .truth ∧
      Stands row fields b.value b'.value t u := fun b' hb' => forall₂_exists_left hbs hb'
  refine ⟨(hasType_conditional hg).mpr ⟨fun b' hb' => ?_, he.typed⟩,
    (careful_conditional hg).mpr ⟨fun b' hb' => ?_, he.careful⟩, ?_, ?_⟩
  · obtain ⟨b, -, htest, hvalue⟩ := hmem b' hb'
    exact ⟨htest.typed, hvalue.typed⟩
  · obtain ⟨b, -, htest, hvalue⟩ := hmem b' hb'
    exact ⟨htest.careful, hvalue.careful⟩
  · rw [mayBecomeNull_conditional hf, mayBecomeNull_conditional hg]
    exact mayBecomeNull_of_branches (hbs.imp fun _ _ hb => hb.2.null) he.null
  · rw [value_conditional hf, value_conditional hg]
    exact select_branches (hbs.imp fun _ _ hb => ⟨isTrue_eq_of_agree hb.1.agree, hb.2.agree⟩)
      he.agree

theorem refines_choice (hf : f.reading = .choice s bs e) (hg : g.reading = .choice s' bs' e')
    (hs : Refines row fields s s') (hbs : List.Forall₂ (Branch.Rel (Refines row fields)) bs bs')
    (he : Refines row fields e e') : Refines row fields f g := by
  intro t u htyped hcareful
  obtain ⟨⟨p, hp, hstyped, htests⟩, hvalues, hetyped⟩ := (hasType_choice hf).mp htyped
  obtain ⟨hsnull, hscareful, hbscareful, hecareful⟩ := (careful_choice hf).mp hcareful
  have hs := hs p .value hstyped hscareful
  have he := he t u hetyped hecareful
  have hbs : List.Forall₂ (fun b b' => Stands row fields b.test b'.test p .value ∧
      Stands row fields b.value b'.value t u) bs bs' :=
    forall₂_of_mem hbs fun b hb b' _ hbb =>
      ⟨hbb.1 _ _ (htests b hb) (hbscareful b hb).1, hbb.2 _ _ (hvalues b hb) (hbscareful b hb).2⟩
  have hmem : ∀ b' ∈ bs', ∃ b ∈ bs, Stands row fields b.test b'.test p .value ∧
      Stands row fields b.value b'.value t u := fun b' hb' => forall₂_exists_left hbs hb'
  refine ⟨(hasType_choice hg).mpr ⟨⟨p, hp, hs.typed, fun b' hb' => ?_⟩, fun b' hb' => ?_, he.typed⟩,
    (careful_choice hg).mpr ⟨?_, hs.careful, fun b' hb' => ?_, he.careful⟩, ?_, ?_⟩
  · obtain ⟨b, -, htest, -⟩ := hmem b' hb'
    exact htest.typed
  · obtain ⟨b, -, -, hvalue⟩ := hmem b' hb'
    exact hvalue.typed
  · exact Bool.eq_false_iff.mpr fun h => Bool.eq_false_iff.mp hsnull (hs.null h)
  · obtain ⟨b, -, htest, hvalue⟩ := hmem b' hb'
    exact ⟨htest.careful, hvalue.careful⟩
  · rw [mayBecomeNull_choice hf, mayBecomeNull_choice hg]
    exact mayBecomeNull_of_branches (hbs.imp fun _ _ hb => hb.2.null) he.null
  · have hsubject : s.value row = s'.value row := hs.agree
    rw [value_choice hf, value_choice hg, hsubject]
    refine select_branches (hbs.imp fun b b' hb => ⟨?_, hb.2.agree⟩) he.agree
    have htest : b.test.value row = b'.test.value row := hb.1.agree
    rw [htest]

end Parts

/-- What is read is all that counts. -/
theorem refines_of_reading_eq (h : g.reading = f.reading) : Refines row fields f g := by
  intro t u htyped hcareful
  refine ⟨?_, ?_, ?_, .of_eq ?_⟩
  · rwa [hasType_eq, h, ← hasType_eq]
  · rwa [careful_eq, h, ← careful_eq]
  · rw [mayBecomeNull_eq, h, ← mayBecomeNull_eq]
    exact id
  · rw [value_eq, value_eq, h]

/-- A node stands in for another if its parts stand in for those of the other. -/
theorem refines_of_reading (h : Reading.Rel (Refines row fields) f.reading g.reading) :
    Refines row fields f g := by
  generalize hf : f.reading = x at h
  generalize hg : g.reading = y at h
  cases h with
  | field | literal | unread => exact refines_of_reading_eq (hg.trans hf.symm)
  | paren he => exact refines_paren hf hg he
  | binary op hl hr =>
      cases hop : isConnective op with
      | true => exact refines_connective hop hf hg hl hr
      | false => exact refines_operator hop hf hg hl hr
  | unary op he => exact refines_unary hf hg he
  | conditional hbs he => exact refines_conditional hf hg hbs he
  | choice hs hbs he => exact refines_choice hf hg hs hbs he
  | isNull he => exact refines_isNull hf hg he

end Formula

end FormulaSql
