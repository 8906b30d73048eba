import FormulaSql.Proofs.Function.Catalogue
import FormulaSql.Proofs.Lowering.Nodes
import FormulaSql.Proofs.Query.AggregationForks
import FormulaSql.Proofs.Simplify.Nulls

/-!
# What may come in the place of a formula

Simplification puts a part in the place of the whole: the other operand in the place of a connective
with a constant one, a value in the place of a conditional with constant conditions, and an
aggregation in the place of one around it. These parts are the heirs of a formula. They depend on
what may be left of other parts, which is estimated beforehand.

* `Formula.heirs`
* `Formula.steady` says that all heirs have the type of the formula that they may come in the place
  of
-/

namespace FormulaSql

/-- What may be left of a formula. -/
structure Prospects where
  /-- It may become a literal. -/
  literal : Bool
  /-- It may become a call of an aggregation. -/
  aggregate : Bool

namespace Reading

variable {α β : Type}

/-- Operators that are computed if both operands are literals. -/
def foldedOperators : List String :=
  Simplify.equalityOperators.map (·.1) ++ ["+", "-", "*", "/"]

/-- A literal that is computed may come in the place of the node. -/
def folds (p : α → Prospects) : Reading α → Bool
  | literal _ => true
  | binary op l r =>
    if isConnective op then (p l).literal || (p r).literal
    else foldedOperators.contains op && (p l).literal && (p r).literal
  | isNull e => (p e).literal
  | _ => false

/-- The parts that may come in the place of the node. -/
def heirs (p : α → Prospects) : Reading α → List α
  | binary op l r =>
    if isConnective op then
      (if (p l).literal then [r] else []) ++ (if (p r).literal then [l] else [])
    else []
  | conditional bs e =>
    if bs.any fun b => (p b.test).literal then bs.map Branch.value ++ [e] else []
  | choice s bs e =>
    if (p s).literal && bs.any fun b => (p b.test).literal then bs.map Branch.value ++ [e] else []
  | _ => []

theorem folds_map (p : β → Prospects) (g : α → β) (x : Reading α) :
    (x.map g).folds p = x.folds (p ∘ g) := by
  cases x <;> rfl

theorem heirs_map (p : β → Prospects) (g : α → β) (x : Reading α) :
    (x.map g).heirs p = (x.heirs (p ∘ g)).map g := by
  cases x with
  | binary op l r =>
      simp only [map, heirs, Function.comp_apply]
      split
      · split <;> split <;> rfl
      · rfl
  | conditional bs e =>
      simp only [map, heirs, List.any_map, Function.comp_def, Branch.map]
      split
      · simp
      · rfl
  | choice s bs e =>
      simp only [map, heirs, List.any_map, Function.comp_def, Branch.map]
      split
      · simp
      · rfl
  | _ => rfl

section Members

variable {p : α → Prospects} {bs : List (Branch α)} {e c : α}

theorem mem_heirs_binary {op : String} {l r : α} : c ∈ (binary op l r).heirs p ↔
    isConnective op = true ∧
      ((p l).literal = true ∧ c = r ∨ (p r).literal = true ∧ c = l) := by
  rw [heirs]
  split
  next hop => simp [hop, List.mem_append]
  next hop => simp [hop]

theorem mem_heirs_conditional : c ∈ (conditional bs e).heirs p ↔
    (∃ b ∈ bs, (p b.test).literal = true) ∧ c ∈ bs.map Branch.value ++ [e] := by
  rw [heirs, ← List.any_eq_true]
  split
  next hliteral => simp only [hliteral, true_and]
  next hliteral => simp only [hliteral, List.not_mem_nil, Bool.false_eq_true, false_and]

theorem mem_heirs_choice {s : α} : c ∈ (choice s bs e).heirs p ↔
    (p s).literal = true ∧ (∃ b ∈ bs, (p b.test).literal = true) ∧
      c ∈ bs.map Branch.value ++ [e] := by
  rw [heirs, ← List.any_eq_true, ← and_assoc, ← Bool.and_eq_true]
  split
  next hliteral => simp only [hliteral, true_and]
  next hliteral => simp only [hliteral, List.not_mem_nil, Bool.false_eq_true, false_and]

theorem mem_parts_of_value (h : c ∈ bs.map Branch.value ++ [e]) :
    c ∈ bs.flatMap Branch.parts ++ [e] := by
  rcases List.mem_append.mp h with h | h
  · obtain ⟨b, hb, rfl⟩ := List.mem_map.mp h
    exact value_mem_parts hb
  · exact List.mem_append_right _ h

theorem mem_parts_of_heirs {x : Reading α} (h : c ∈ x.heirs p) : c ∈ x.parts := by
  cases x with
  | binary op l r =>
      rcases (mem_heirs_binary.mp h).2 with ⟨-, rfl⟩ | ⟨-, rfl⟩ <;> simp [parts]
  | conditional bs e => exact mem_parts_of_value (mem_heirs_conditional.mp h).2
  | choice s bs e =>
      exact List.mem_cons_of_mem s (mem_parts_of_value (mem_heirs_choice.mp h).2.2)
  | _ => exact absurd h List.not_mem_nil

end Members

section Rel

variable {R : α → β → Prop} {p : α → Prospects} {q : β → Prospects} {x : Reading α} {y : Reading β}
  (hliteral : ∀ a b, R a b → (q b).literal = true → (p a).literal = true)

include hliteral

theorem folds_of_rel (h : Rel R x y) (hy : y.folds q = true) : x.folds p = true := by
  cases h with
  | literal => rfl
  | binary op hl hr =>
      have hl := hliteral _ _ hl
      have hr := hliteral _ _ hr
      rw [folds] at hy ⊢
      split at hy
      next hop =>
        rw [if_pos hop]
        simp only [Bool.or_eq_true] at hy ⊢
        exact hy.imp hl hr
      next hop =>
        rw [if_neg hop]
        simp only [Bool.and_eq_true] at hy ⊢
        exact ⟨⟨hy.1.1, hl hy.1.2⟩, hr hy.2⟩
  | isNull he => exact hliteral _ _ he hy
  | _ => exact absurd hy Bool.false_ne_true

/-- If some condition of the one may become a literal, then so may one of the other. -/
theorem exists_test_of_rel {bs : List (Branch α)} {bs' : List (Branch β)}
    (h : List.Forall₂ (Branch.Rel R) bs bs') (hbs' : ∃ b ∈ bs', (q b.test).literal = true) :
    ∃ b ∈ bs, (p b.test).literal = true := by
  obtain ⟨b', hb', hlit⟩ := hbs'
  obtain ⟨b, hb, hrel⟩ := forall₂_exists_left h hb'
  exact ⟨b, hb, hliteral _ _ hrel.1 hlit⟩

/-- The heirs of the one are related to heirs of the other. -/
theorem exists_heir_of_rel (h : Rel R x y) {b : β} (hb : b ∈ y.heirs q) :
    ∃ a ∈ x.heirs p, R a b := by
  have hvalues {bs : List (Branch α)} {bs' : List (Branch β)} {e : α} {e' : β}
      (hbs : List.Forall₂ (Branch.Rel R) bs bs') (he : R e e')
      (hb : b ∈ bs'.map Branch.value ++ [e']) : ∃ a ∈ bs.map Branch.value ++ [e], R a b := by
    refine forall₂_exists_left ?_ hb
    refine List.rel_append ?_ (.cons he .nil)
    rw [List.forall₂_map_left_iff, List.forall₂_map_right_iff]
    exact hbs.imp fun _ _ hrel => hrel.2
  cases h with
  | @binary op l l' r r' hl hr =>
      obtain ⟨hop, ⟨hlit, rfl⟩ | ⟨hlit, rfl⟩⟩ := mem_heirs_binary.mp hb
      · exact ⟨r, mem_heirs_binary.mpr ⟨hop, Or.inl ⟨hliteral _ _ hl hlit, rfl⟩⟩, hr⟩
      · exact ⟨l, mem_heirs_binary.mpr ⟨hop, Or.inr ⟨hliteral _ _ hr hlit, rfl⟩⟩, hl⟩
  | conditional hbs he =>
      obtain ⟨htest, hb⟩ := mem_heirs_conditional.mp hb
      obtain ⟨a, ha, hab⟩ := hvalues hbs he hb
      exact ⟨a, mem_heirs_conditional.mpr ⟨exists_test_of_rel hliteral hbs htest, ha⟩, hab⟩
  | choice hs hbs he =>
      obtain ⟨hsubject, htest, hb⟩ := mem_heirs_choice.mp hb
      obtain ⟨a, ha, hab⟩ := hvalues hbs he hb
      exact ⟨a, mem_heirs_choice.mpr
        ⟨hliteral _ _ hs hsubject, exists_test_of_rel hliteral hbs htest, ha⟩, hab⟩
  | _ => exact absurd hb List.not_mem_nil

end Rel

end Reading

namespace Kind

variable {α β : Type}

/-- The argument of an aggregation that gives back a single value. -/
def collapsible? : Kind α → Option α
  | call c =>
    match c.args with
    | [x] => if Simplify.collapsible.contains c.name.toLower then some x else none
    | _ => none
  | _ => none

/-- The parts that may come in the place of the node. -/
def heirs (p : α → Prospects) (k : Kind α) : List α :=
  k.reading.heirs p ++ (k.collapsible?.filter fun x => (p x).aggregate).toList

theorem collapsible?_map (g : α → β) (k : Kind α) :
    (k.map g).collapsible? = k.collapsible?.map g := by
  cases k with
  | call c =>
      obtain ⟨name, args, lod, ignored, filters⟩ := c
      match args with
      | [] | _ :: _ :: _ => rfl
      | [x] =>
          simp only [map, List.map_cons, List.map_nil, collapsible?]
          split <;> rfl
  | _ => rfl

theorem heirs_map (p : β → Prospects) (g : α → β) (k : Kind α) :
    (k.map g).heirs p = (k.heirs (p ∘ g)).map g := by
  have hfilter (o : Option α) : ((o.map g).filter fun x => (p x).aggregate).toList =
      (o.filter fun x => ((p ∘ g) x).aggregate).toList.map g := by
    cases o with
    | none => rfl
    | some x =>
        simp only [Option.map_some, Option.filter_some, Function.comp_apply]
        split <;> rfl
  rw [heirs, heirs, Reading.reading_map, Reading.heirs_map, collapsible?_map, hfilter,
    List.map_append]

theorem collapsible?_eq_some {k : Kind α} {x : α} : k.collapsible? = some x ↔
    ∃ c, k = .call c ∧ c.args = [x] ∧ Simplify.collapsible.contains c.name.toLower = true := by
  cases k with
  | call c =>
      simp only [collapsible?, call.injEq, exists_eq_left']
      split
      next y hargs => simp [hargs, and_comm]
      next hargs => simpa using fun h => absurd h (hargs x)
  | _ => simp [collapsible?]

theorem mem_heirs {p : α → Prospects} {k : Kind α} {c : α} : c ∈ k.heirs p ↔
    c ∈ k.reading.heirs p ∨ (k.collapsible? = some c ∧ (p c).aggregate = true) := by
  rw [heirs, List.mem_append, Option.mem_toList, Option.filter_eq_some_iff]

/-- Aggregations are left unread, so what is read has no heirs but those of its reading. -/
theorem mem_heirs_of_read {p : α → Prospects} {k : Kind α} {c : α} (h : k.reading ≠ .unread) :
    c ∈ k.heirs p ↔ c ∈ k.reading.heirs p := by
  refine mem_heirs.trans (or_iff_left fun hc => h ?_)
  obtain ⟨call, rfl, -, hname⟩ := collapsible?_eq_some.mp hc.1
  have hdisjoint : ∀ name ∈ ["if", "case", "isnull"], Simplify.collapsible.contains name = false := by
    decide
  exact Reading.ofCall_unread fun hmem => Bool.false_ne_true ((hdisjoint _ hmem).symm.trans hname)

/-- A node that is read is written with its parts. -/
theorem written_of_read {k : Kind α} (h : k.reading ≠ .unread) : k.written = k.reading.parts := by
  cases k with
  | call c =>
      have hcases := Reading.ofCall_cases c
      rw [written, reading]
      rcases hcases with hc | ⟨-, _, _, hc, hargs⟩ | ⟨-, _, _, _, hc, hargs⟩ | ⟨-, _, hc, hargs⟩
      · exact absurd hc h
      all_goals rw [hc, hargs]; rfl
  | ternary | window | ordered | fork | error => exact absurd rfl h
  | _ => rfl

theorem function?_of_conditional {k : Kind α} {bs : List (Branch α)} {e : α}
    (h : k.reading = .conditional bs e) :
    ∃ name, k.function? = some name ∧ name.toLower ∈ ["if", Function.ifBlockName] := by
  cases k with
  | ifBlock => exact ⟨_, rfl, by rw [Function.toLower_names _ (by decide)]; decide⟩
  | call c =>
      have hcases := Reading.ofCall_cases c
      rw [reading] at h
      simp only [h, reduceCtorEq, false_and, and_false, exists_false, or_false, false_or] at hcases
      exact ⟨c.name, rfl, hcases.1 ▸ List.mem_cons_self⟩
  | _ => exact absurd h (by simp [reading])

theorem function?_of_choice {k : Kind α} {s : α} {bs : List (Branch α)} {e : α}
    (h : k.reading = .choice s bs e) :
    ∃ name, k.function? = some name ∧ name.toLower ∈ ["case", Function.caseBlockName] := by
  cases k with
  | caseBlock => exact ⟨_, rfl, by rw [Function.toLower_names _ (by decide)]; decide⟩
  | call c =>
      have hcases := Reading.ofCall_cases c
      rw [reading] at h
      simp only [h, reduceCtorEq, false_and, and_false, exists_false, or_false, false_or] at hcases
      exact ⟨c.name, rfl, hcases.1 ▸ List.mem_cons_self⟩
  | _ => exact absurd h (by simp [reading])

theorem mem_written_of_heirs {p : α → Prospects} {k : Kind α} {c : α} (h : c ∈ k.heirs p) :
    c ∈ k.written := by
  rcases mem_heirs.mp h with h | ⟨h, -⟩
  · have hparts := Reading.mem_parts_of_heirs h
    rw [written_of_read fun hunread => ?_]
    · exact hparts
    · rw [hunread] at h
      exact List.not_mem_nil h
  · obtain ⟨call, rfl, hargs, -⟩ := collapsible?_eq_some.mp h
    rw [written, hargs]
    exact List.mem_cons_self

/-- What has heirs is written through a function, which is not that of arrays. -/
theorem exists_function?_of_heirs {p : α → Prospects} {k : Kind α} {c : α} (h : c ∈ k.heirs p) :
    ∃ name, k.function? = some name ∧ name.toLower ≠ "array" := by
  rcases mem_heirs.mp h with h | ⟨h, -⟩
  · cases k with
    | binary op l r =>
        have hop := (Reading.mem_heirs_binary.mp h).1
        rw [isConnective, Bool.or_eq_true, beq_iff_eq, beq_iff_eq] at hop
        refine ⟨op, rfl, ?_⟩
        rcases hop with rfl | rfl
        all_goals rw [Function.toLower_names _ (by decide)]; decide
    | call c =>
        refine ⟨c.name, rfl, fun hname => ?_⟩
        have hunread : (call c).reading = .unread :=
          Reading.ofCall_unread (by rw [hname]; decide)
        rw [hunread] at h
        exact absurd h List.not_mem_nil
    | ifBlock => exact ⟨_, rfl, by rw [Function.toLower_names _ (by decide)]; decide⟩
    | caseBlock => exact ⟨_, rfl, by rw [Function.toLower_names _ (by decide)]; decide⟩
    | _ => exact absurd h List.not_mem_nil
  · obtain ⟨call, rfl, -, hname⟩ := collapsible?_eq_some.mp h
    refine ⟨call.name, rfl, fun harray => ?_⟩
    rw [harray] at hname
    exact absurd hname (by decide)

end Kind

namespace Formula

def prospects (f : Formula) : Prospects :=
  f.recur fun f k =>
    { literal := k.reading.folds id || (k.heirs id).any (·.literal)
      aggregate := f.isAggregateCall || (k.heirs id).any (·.aggregate) }

/-- The parts that may come in the place of the formula. -/
def heirs (f : Formula) : List Formula := f.kind.heirs prospects

/-- The base type of the expression that the formula is lowered to. -/
def base? (s : Scope) (f : Formula) : Option BaseType :=
  (f.lower s).toOption.map fun a => a.type.base

/-- Every formula that is written has the type of all of its heirs, constness apart. -/
def steady (s : Scope) (f : Formula) : Bool :=
  f.recur fun f k => (f.heirs.all fun c => c.base? s == f.base? s) && k.written.all id

section Nodes

variable {s : Scope} {f c : Formula} {a : TypedSql}

theorem literal_iff : f.prospects.literal = true ↔
    f.reading.folds prospects = true ∨ ∃ c ∈ f.heirs, c.prospects.literal = true := by
  rw [prospects, recur_eq, Bool.or_eq_true, Reading.reading_map, Reading.folds_map, Kind.heirs_map,
    List.any_map, List.any_eq_true]
  rfl

theorem aggregate_iff : f.prospects.aggregate = true ↔
    f.isAggregateCall = true ∨ ∃ c ∈ f.heirs, c.prospects.aggregate = true := by
  rw [prospects, recur_eq, Bool.or_eq_true, Kind.heirs_map, List.any_map, List.any_eq_true]
  rfl

theorem steady_iff : f.steady s = true ↔
    (∀ c ∈ f.heirs, c.base? s = f.base? s) ∧ ∀ c ∈ f.written, c.steady s = true := by
  rw [steady, recur_eq, Bool.and_eq_true, Kind.written_map, List.all_map, List.all_eq_true,
    List.all_eq_true]
  simp only [beq_iff_eq]
  rfl

theorem base?_of_lower (h : f.lower s = .ok a) : f.base? s = some a.type.base := by
  rw [base?, h]
  rfl

theorem literal_of_literal? {v : Literal} (h : f.literal? = some v) :
    f.prospects.literal = true :=
  literal_iff.mpr (Or.inl (by rw [reading_of_kind (kind_of_literal? h)]; rfl))

end Nodes

/-! ## Rebuilt formulas -/

section Rebuilt

variable {R : Formula → Formula → Prop} {f : Formula} {cs : List Formula}

theorem function?_withChildren (f : Formula) (cs : List Formula) :
    (f.withChildren cs).function? = f.function? := by
  rw [function?, function?, ← Kind.function?_map (fun _ => ()), ← Kind.function?_map (fun _ => ())
    f.kind]
  exact congrArg Kind.function? (outline_withChildren f cs)

theorem written_withChildren (h : List.Forall₂ R f.children cs) :
    List.Forall₂ R f.written (f.withChildren cs).written := by
  have hpairs := forall₂_withChildren h
  have houtline := outline_withChildren f cs
  cases hk : f.kind with
  | call c =>
      obtain ⟨c', hk', -, -, hargs, -⟩ := exists_call_withChildren h hk
      rwa [written, written, hk, hk']
  | _ =>
      cases hk' : (f.withChildren cs).kind with
      | call => simp [hk, hk', Kind.outline, Kind.map] at houtline
      | _ =>
          rw [hk, hk'] at hpairs
          rwa [written, written, hk, hk']

/-- The heirs of a rebuilt formula are related to heirs of the one before. -/
theorem exists_heir_withChildren
    (hliteral : ∀ a b, R a b → b.prospects.literal = true → a.prospects.literal = true)
    (haggregate : ∀ a b, R a b → b.prospects.aggregate = true → a.prospects.aggregate = true)
    (h : List.Forall₂ R f.children cs) {d : Formula} (hd : d ∈ (f.withChildren cs).heirs) :
    ∃ c ∈ f.heirs, R c d := by
  rcases Kind.mem_heirs.mp hd with hd | ⟨hd, hprospect⟩
  · obtain ⟨c, hc, hcd⟩ := Reading.exists_heir_of_rel hliteral (reading_withChildren h) hd
    exact ⟨c, Kind.mem_heirs.mpr (Or.inl hc), hcd⟩
  · obtain ⟨c', hk', hargs', hname'⟩ := Kind.collapsible?_eq_some.mp hd
    have houtline := outline_withChildren f cs
    cases hk : f.kind with
    | call c =>
        obtain ⟨c'', hk'', hname, -, hargs, -⟩ := exists_call_withChildren h hk
        obtain rfl := Kind.call.inj (hk'.symm.trans hk'')
        rw [hargs'] at hargs
        obtain ⟨x, nothing, hx, hnothing, hargs⟩ := List.forall₂_cons_right_iff.mp hargs
        obtain rfl := List.forall₂_nil_right_iff.mp hnothing
        refine ⟨x, Kind.mem_heirs.mpr (Or.inr ⟨?_, haggregate x d hx hprospect⟩), hx⟩
        exact Kind.collapsible?_eq_some.mpr ⟨c, hk, hargs, hname ▸ hname'⟩
    | _ => simp [hk, hk', Kind.outline, Kind.map] at houtline

end Rebuilt

end Formula

end FormulaSql
