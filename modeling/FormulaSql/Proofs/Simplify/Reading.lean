import FormulaSql.Proofs.Query.Simplification

/-!
# Reading a node

The same conditional can be written as a block or as a call. A reading of a node forgets which of
the two it is, so that what a formula means has to be said only once. Nodes that are not operators,
conditionals or tests for NULL are left unread.
-/

namespace FormulaSql

/-- What a node says. -/
inductive Reading (α : Type) where
  | field (name : String)
  | literal (value : Literal)
  | paren (inner : α)
  | binary (op : String) (left right : α)
  | unary (op : String) (operand : α)
  /-- The value of the first branch whose condition is true. -/
  | conditional (branches : List (Branch α)) (otherwise : α)
  /-- The value of the first branch whose pattern equals the subject. -/
  | choice (subject : α) (branches : List (Branch α)) (otherwise : α)
  | isNull (operand : α)
  | unread

namespace Reading

variable {α β : Type}

def map (f : α → β) : Reading α → Reading β
  | field n => field n
  | literal v => literal v
  | paren e => paren (f e)
  | binary op l r => binary op (f l) (f r)
  | unary op e => unary op (f e)
  | conditional bs e => conditional (bs.map (·.map f)) (f e)
  | choice s bs e => choice (f s) (bs.map (·.map f)) (f e)
  | isNull e => isNull (f e)
  | unread => unread

/-- The parts of the node. -/
def parts : Reading α → List α
  | field _ => []
  | literal _ => []
  | paren e => [e]
  | binary _ l r => [l, r]
  | unary _ e => [e]
  | conditional bs e => bs.flatMap Branch.parts ++ [e]
  | choice s bs e => s :: bs.flatMap Branch.parts ++ [e]
  | isNull e => [e]
  | unread => []

/-- How arguments are read as a conditional. -/
def ofIf (args : List α) : Reading α :=
  match Simplify.branchArgs args with
  | some (bs, otherwise) => conditional bs otherwise
  | none => unread

/-- How arguments are read as a choice. -/
def ofCase : List α → Reading α
  | [] => unread
  | subject :: args =>
    match Simplify.branchArgs args with
    | some (bs, otherwise) => choice subject bs otherwise
    | none => unread

/-- How an argument is read as a test for NULL. -/
def ofIsNull : List α → Reading α
  | [e] => isNull e
  | _ => unread

/-- How a call is read. -/
def ofCall (c : Call α) : Reading α :=
  match c.name.toLower with
  | "if" => ofIf c.args
  | "case" => ofCase c.args
  | "isnull" => ofIsNull c.args
  | _ => unread

end Reading

/-- How a node is read. -/
def Kind.reading {α : Type} : Kind α → Reading α
  | .field n => .field n
  | .literal v => .literal v
  | .paren e => .paren e
  | .binary op l r => .binary op l r
  | .unary op e => .unary op e
  | .ifBlock bs e => .conditional bs e
  | .caseBlock s bs e => .choice s bs e
  | .call c => .ofCall c
  | _ => .unread

def Formula.reading (f : Formula) : Reading Formula := f.kind.reading

namespace Reading

variable {α β : Type}

theorem ofCall_if {c : Call α} (h : c.name.toLower = "if") : ofCall c = ofIf c.args := by
  rw [ofCall, h]
  rfl

theorem ofCall_case {c : Call α} (h : c.name.toLower = "case") : ofCall c = ofCase c.args := by
  rw [ofCall, h]
  rfl

theorem ofCall_isnull {c : Call α} (h : c.name.toLower = "isnull") :
    ofCall c = ofIsNull c.args := by
  rw [ofCall, h]
  rfl

theorem ofCall_unread {c : Call α} (h : c.name.toLower ∉ ["if", "case", "isnull"]) :
    ofCall c = unread := by
  simp only [List.mem_cons, List.not_mem_nil, or_false, not_or] at h
  rw [ofCall]
  split
  next hname => exact absurd hname h.1
  next hname => exact absurd hname h.2.1
  next hname => exact absurd hname h.2.2
  next => rfl

/-- What a call can be read as. -/
theorem ofCall_cases (c : Call α) : ofCall c = unread ∨
    (c.name.toLower = "if" ∧ ∃ bs e, ofCall c = conditional bs e ∧
      c.args = bs.flatMap Branch.parts ++ [e]) ∨
    (c.name.toLower = "case" ∧ ∃ s bs e, ofCall c = choice s bs e ∧
      c.args = s :: bs.flatMap Branch.parts ++ [e]) ∨
    (c.name.toLower = "isnull" ∧ ∃ e, ofCall c = isNull e ∧ c.args = [e]) := by
  rw [ofCall]
  split
  next hname =>
    rw [ofIf]
    split
    next hargs => exact Or.inr (Or.inl ⟨hname, _, _, rfl, (Simplify.branchArgs_eq hargs).symm⟩)
    next => exact Or.inl rfl
  next hname =>
    unfold ofCase
    split
    next => exact Or.inl rfl
    next hargs =>
      split
      next hbs =>
        refine Or.inr (Or.inr (Or.inl ⟨hname, _, _, _, rfl, ?_⟩))
        rw [hargs, ← Simplify.branchArgs_eq hbs]
        rfl
      next => exact Or.inl rfl
  next hname =>
    unfold ofIsNull
    split
    next hargs => exact Or.inr (Or.inr (Or.inr ⟨hname, _, rfl, hargs⟩))
    next => exact Or.inl rfl
  next => exact Or.inl rfl

/-! ## Readings under a function -/

theorem ofIf_map (f : α → β) (args : List α) : ofIf (args.map f) = (ofIf args).map f := by
  rw [ofIf, ofIf, Simplify.branchArgs_map]
  cases Simplify.branchArgs args <;> rfl

theorem ofCase_map (f : α → β) (args : List α) : ofCase (args.map f) = (ofCase args).map f := by
  cases args with
  | nil => rfl
  | cons s args =>
      rw [List.map_cons, ofCase, ofCase, Simplify.branchArgs_map]
      cases Simplify.branchArgs args <;> rfl

theorem ofIsNull_map (f : α → β) (args : List α) :
    ofIsNull (args.map f) = (ofIsNull args).map f := by
  match args with
  | [] | [_] | _ :: _ :: _ => rfl

theorem reading_map (f : α → β) (k : Kind α) : (k.map f).reading = k.reading.map f := by
  cases k with
  | call c =>
      simp only [Kind.map, Kind.reading, ofCall]
      split
      · exact ofIf_map f c.args
      · exact ofCase_map f c.args
      · exact ofIsNull_map f c.args
      · rfl
  | _ => rfl

/-! ## Parts are children -/

theorem value_mem_parts {b : Branch α} {bs : List (Branch α)} {e : α} (hb : b ∈ bs) :
    b.value ∈ bs.flatMap Branch.parts ++ [e] :=
  List.mem_append_left _ (List.mem_flatMap.mpr ⟨b, hb, by simp [Branch.parts]⟩)

theorem test_mem_parts {b : Branch α} {bs : List (Branch α)} {e : α} (hb : b ∈ bs) :
    b.test ∈ bs.flatMap Branch.parts ++ [e] :=
  List.mem_append_left _ (List.mem_flatMap.mpr ⟨b, hb, by simp [Branch.parts]⟩)

theorem mem_args_of_parts {c : Call α} {x : α} (h : x ∈ (ofCall c).parts) : x ∈ c.args := by
  rcases ofCall_cases c with hc | ⟨-, bs, e, hc, hargs⟩ | ⟨-, s, bs, e, hc, hargs⟩ |
    ⟨-, e, hc, hargs⟩
  · rw [hc] at h
    exact absurd h List.not_mem_nil
  all_goals
    rw [hc] at h
    exact hargs ▸ h

theorem mem_children_of_parts {k : Kind α} {x : α} (h : x ∈ k.reading.parts) :
    x ∈ k.children := by
  cases k with
  | call c => exact List.mem_append_left _ (List.mem_append_left _ (mem_args_of_parts h))
  | ternary | window | ordered | fork | error => exact absurd h List.not_mem_nil
  | _ => exact h

theorem ofCall_ne_literal (c : Call α) (v : Literal) : ofCall c ≠ literal v := by
  rcases ofCall_cases c with hc | ⟨-, bs, e, hc, -⟩ | ⟨-, s, bs, e, hc, -⟩ | ⟨-, e, hc, -⟩ <;>
    simp [hc]

/-! ## Readings of rebuilt nodes -/

/-- The two readings differ only in their parts, which are related. -/
inductive Rel (R : α → β → Prop) : Reading α → Reading β → Prop where
  | field (n : String) : Rel R (field n) (field n)
  | literal (v : Literal) : Rel R (literal v) (literal v)
  | paren {e e'} (he : R e e') : Rel R (paren e) (paren e')
  | binary (op : String) {l l' r r'} (hl : R l l') (hr : R r r') :
      Rel R (binary op l r) (binary op l' r')
  | unary (op : String) {e e'} (he : R e e') : Rel R (unary op e) (unary op e')
  | conditional {bs bs' e e'} (hbs : List.Forall₂ (Branch.Rel R) bs bs') (he : R e e') :
      Rel R (conditional bs e) (conditional bs' e')
  | choice {s s' bs bs' e e'} (hs : R s s') (hbs : List.Forall₂ (Branch.Rel R) bs bs')
      (he : R e e') : Rel R (choice s bs e) (choice s' bs' e')
  | isNull {e e'} (he : R e e') : Rel R (isNull e) (isNull e')
  | unread : Rel R unread unread

end Reading

namespace Formula

open Simplify (branchArgs)

variable {R : Formula → Formula → Prop} {f : Formula} {cs : List Formula}

theorem reading_of_kind {k : Kind Formula} (hk : f.kind = k) : f.reading = k.reading :=
  congrArg Kind.reading hk

/-- Only a literal is read as a literal. -/
theorem literal?_of_reading {v : Literal} (h : f.reading = .literal v) : f.literal? = some v := by
  rw [reading] at h
  rw [literal?]
  cases hk : f.kind with
  | literal w =>
      rw [hk] at h
      exact congrArg some (Reading.literal.inj h)
  | call c =>
      rw [hk] at h
      exact absurd h (Reading.ofCall_ne_literal c v)
  | _ =>
      rw [hk] at h
      exact absurd h (by simp [Kind.reading])

/-- A node that is read as a conditional is a call of this name or a block. -/
theorem kind_of_conditional {bs : List (Branch Formula)} {e : Formula}
    (hf : f.reading = .conditional bs e) :
    (∃ c, f.kind = .call c ∧ c.name.toLower = "if" ∧ c.args = bs.flatMap Branch.parts ++ [e]) ∨
      f.kind = .ifBlock bs e := by
  rw [reading] at hf
  cases hk : f.kind with
  | call c =>
      rw [hk, Kind.reading] at hf
      have hcases := Reading.ofCall_cases c
      simp only [hf, reduceCtorEq, false_and, and_false, exists_false, or_false, false_or,
        Reading.conditional.injEq] at hcases
      obtain ⟨hname, bs', e', ⟨rfl, rfl⟩, hargs⟩ := hcases
      exact Or.inl ⟨c, rfl, hname, hargs⟩
  | ifBlock bs' e' =>
      rw [hk] at hf
      injection hf with hbs he
      exact Or.inr (by rw [hbs, he])
  | _ => rw [hk] at hf; exact absurd hf (by simp [Kind.reading])

theorem kind_of_choice {subject : Formula} {bs : List (Branch Formula)} {e : Formula}
    (hf : f.reading = .choice subject bs e) :
    (∃ c, f.kind = .call c ∧ c.name.toLower = "case" ∧
      c.args = subject :: bs.flatMap Branch.parts ++ [e]) ∨ f.kind = .caseBlock subject bs e := by
  rw [reading] at hf
  cases hk : f.kind with
  | call c =>
      rw [hk, Kind.reading] at hf
      have hcases := Reading.ofCall_cases c
      simp only [hf, reduceCtorEq, false_and, and_false, exists_false, or_false, false_or,
        Reading.choice.injEq] at hcases
      obtain ⟨hname, s', bs', e', ⟨rfl, rfl, rfl⟩, hargs⟩ := hcases
      exact Or.inl ⟨c, rfl, hname, hargs⟩
  | caseBlock s' bs' e' =>
      rw [hk] at hf
      injection hf with hs hbs he
      exact Or.inr (by rw [hs, hbs, he])
  | _ => rw [hk] at hf; exact absurd hf (by simp [Kind.reading])

/-- Lists of the same length are both read as branches, or neither is. -/
theorem branchArgs_cases {args args' : List Formula} (h : List.Forall₂ R args args') :
    (branchArgs args = none ∧ branchArgs args' = none) ∨
      ∃ bs bs' e e', branchArgs args = some (bs, e) ∧ branchArgs args' = some (bs', e') ∧
        List.Forall₂ (Branch.Rel R) bs bs' ∧ R e e' := by
  cases h' : branchArgs args' with
  | some p =>
      obtain ⟨bs, e, hbs, hrel, he⟩ := exists_branchArgs h h'
      exact Or.inr ⟨bs, p.1, e, p.2, hbs, rfl, hrel, he⟩
  | none =>
      left
      refine ⟨?_, rfl⟩
      -- read from the other side: branches among the old arguments would be branches among the new
      by_contra hne
      obtain ⟨⟨bs, e⟩, hbs⟩ := Option.ne_none_iff_exists'.mp hne
      obtain ⟨bs', e', hbs', -⟩ := exists_branchArgs (R := fun x y => R y x)
        (List.Forall₂.flip h) hbs
      rw [h'] at hbs'
      exact absurd hbs' (by simp)

theorem ofIf_rel {args args' : List Formula} (h : List.Forall₂ R args args') :
    Reading.Rel R (.ofIf args) (.ofIf args') := by
  unfold Reading.ofIf
  rcases branchArgs_cases h with ⟨h, h'⟩ | ⟨bs, bs', e, e', h, h', hbs, he⟩
  · rw [h, h']
    exact .unread
  · rw [h, h']
    exact .conditional hbs he

theorem ofCase_rel {args args' : List Formula} (h : List.Forall₂ R args args') :
    Reading.Rel R (.ofCase args) (.ofCase args') := by
  cases h with
  | nil => exact .unread
  | cons hs h =>
      rw [Reading.ofCase, Reading.ofCase]
      rcases branchArgs_cases h with ⟨h, h'⟩ | ⟨bs, bs', e, e', h, h', hbs, he⟩
      · rw [h, h']
        exact .unread
      · rw [h, h']
        exact .choice hs hbs he

theorem ofIsNull_rel {args args' : List Formula} (h : List.Forall₂ R args args') :
    Reading.Rel R (.ofIsNull args) (.ofIsNull args') := by
  rcases h with _ | ⟨he, _ | ⟨_, _⟩⟩
  · exact .unread
  · exact .isNull he
  · exact .unread

theorem ofCall_rel {c c' : Call Formula} (hname : c'.name = c.name)
    (hargs : List.Forall₂ R c.args c'.args) :
    Reading.Rel R (.ofCall c) (.ofCall c') := by
  rw [Reading.ofCall, Reading.ofCall, hname]
  split
  · exact ofIf_rel hargs
  · exact ofCase_rel hargs
  · exact ofIsNull_rel hargs
  · exact .unread

/-- Rebuilt from other children, a node is read in the same way. -/
theorem reading_withChildren (h : List.Forall₂ R f.children cs) :
    Reading.Rel R f.reading (f.withChildren cs).reading := by
  cases hk : f.kind with
  | call c =>
      obtain ⟨c', hk', hname, -, hargs, -⟩ := exists_call_withChildren h hk
      rw [reading_of_kind hk, reading_of_kind hk']
      exact ofCall_rel hname hargs
  | ifBlock bs e =>
      obtain ⟨bs', e', hk', hbs, he⟩ := exists_ifBlock_withChildren h hk
      rw [reading_of_kind hk, reading_of_kind hk']
      exact .conditional hbs he
  | caseBlock s bs e =>
      obtain ⟨s', bs', e', hk', hs, hbs, he⟩ := exists_caseBlock_withChildren h hk
      rw [reading_of_kind hk, reading_of_kind hk']
      exact .choice hs hbs he
  | binary op l r =>
      obtain ⟨l', r', hk', hl, hr⟩ := exists_binary_withChildren h hk
      rw [reading_of_kind hk, reading_of_kind hk']
      exact .binary op hl hr
  | paren e =>
      rw [children, hk] at h
      obtain ⟨e', rest, he, -, rfl⟩ := List.forall₂_cons_left_iff.mp h
      rw [reading, reading, withChildren, kind, hk]
      exact .paren he
  | unary op e =>
      rw [children, hk] at h
      obtain ⟨e', rest, he, -, rfl⟩ := List.forall₂_cons_left_iff.mp h
      rw [reading, reading, withChildren, kind, hk]
      exact .unary op he
  | field n =>
      rw [reading, reading, withChildren, kind, hk]
      exact .field n
  | literal v =>
      rw [reading, reading, withChildren, kind, hk]
      exact .literal v
  | _ =>
      rw [reading, reading, withChildren, kind, hk]
      exact .unread

end Formula

end FormulaSql
