import FormulaSql.Lowering
import FormulaSql.Proofs.Data.Outcomes
import FormulaSql.Proofs.Formula.Rewriting

/-!
# Lowering node by node

Operators, calls and blocks are all written through a function of their arguments, so lowering has
to be looked at in a few cases only. A formula that is lowered has children that are lowered, but for
the dimensions of calls, which leave no trace in SQL.
-/

namespace FormulaSql

namespace Kind

variable {α β : Type}

/-- The children that a node is written with. -/
def written : Kind α → List α
  | call c => c.args
  | k => k.children

/-- The function that a node is written through. -/
def function? : Kind α → Option String
  | binary op _ _ => some op
  | unary op _ => some op
  | ternary op _ _ _ => some op
  | call c => some c.name
  | ifBlock _ _ => some Function.ifBlockName
  | caseBlock _ _ _ => some Function.caseBlockName
  | _ => none

theorem written_map (f : α → β) (k : Kind α) : (k.map f).written = k.written.map f := by
  have hchildren := children_map f k
  cases k with
  | call c => rfl
  | _ => exact hchildren

theorem function?_map (f : α → β) (k : Kind α) : (k.map f).function? = k.function? := by
  cases k <;> rfl

theorem mem_children_of_written {k : Kind α} {c : α} (h : c ∈ k.written) : c ∈ k.children := by
  cases k with
  | call c => exact List.mem_append_left _ (List.mem_append_left _ h)
  | _ => exact h

end Kind

namespace Lowering

variable {s : Scope} {f : Formula} {k : Kind Result} {name : String}

/-- Operators, calls and blocks are lowered in the same way. -/
theorem step_of_function? (h : k.function? = some name) : step s f k = call s name k.written := by
  cases k with
  | binary op l r | unary op e | ternary op a b c | call c | ifBlock bs e | caseBlock x bs e =>
      obtain rfl := Option.some.inj h
      rfl
  | _ => exact absurd h (by simp [Kind.function?])

theorem all_eq_ok {α : Type} {g : α → Result} {xs : List α} {as : List TypedSql} :
    all (xs.map g) = .ok as ↔ List.Forall₂ (fun x a => g x = .ok a) xs as := by
  constructor
  · intro h
    have hall := mapM_eq_ok h
    rwa [List.forall₂_map_left_iff] at hall
  · intro h
    rw [all]
    induction h with
    | nil => rfl
    | cons hx _ ih =>
        rw [List.map_cons, List.mapM_cons, id_eq, hx, ih]
        rfl

theorem exprs_eq_ok {α : Type} {g : α → Result} {xs : List α} {es : List Sql} :
    exprs (xs.map g) = .ok es ↔
      ∃ as, List.Forall₂ (fun x a => g x = .ok a) xs as ∧ es = as.map TypedSql.sql := by
  rw [exprs, bind_eq_ok]
  simp only [all_eq_ok, pure_eq_ok]

theorem dispatch_eq_ok {isWindow : Bool} {args : List TypedSql} {a : TypedSql} :
    dispatch s name isWindow args = .ok a ↔ ∃ r,
      Function.resolve name (args.map TypedSql.type) isWindow s.dialect s.purposes = .ok r ∧
      ∃ sql, r.variant.emit args = .ok sql ∧
        a = ⟨sql, r.returnType, ((r.definition.returns.paramsSource.bind fun i => args[i]?).map
          TypedSql.params).getD .none⟩ := by
  simp only [dispatch, bind_eq_ok, pure_eq_ok]

end Lowering

namespace Formula

variable {s : Scope} {f c : Formula} {a : TypedSql} {name : String}

def written (f : Formula) : List Formula := f.kind.written

def function? (f : Formula) : Option String := f.kind.function?

theorem lower_eq (f : Formula) (s : Scope) :
    f.lower s = Lowering.step s f (f.kind.map fun c => c.lower s) :=
  recur_eq (Lowering.step s) f

/-- An operator, a call or a block is lowered by lowering its arguments and writing the function. -/
theorem lower_function_eq_ok (h : f.function? = some name) : f.lower s = .ok a ↔
    ∃ as, List.Forall₂ (fun c b => c.lower s = .ok b) f.written as ∧
      Lowering.dispatch s name false as = .ok a := by
  rw [lower_eq, Lowering.step_of_function? ((Kind.function?_map _ _).trans h), Kind.written_map,
    Lowering.call, bind_eq_ok]
  simp only [Lowering.all_eq_ok]
  rfl

theorem lower_field {n : String} (h : f.kind = .field n) :
    f.lower s = .ok a ↔
      ∃ info, s.field? n = some info ∧ a = ⟨info.column, info.type, info.params⟩ := by
  rw [lower_eq, h]
  simp only [Kind.map, Lowering.step]
  cases s.field? n with
  | none => simp
  | some info => simp [eq_comm]

theorem lower_literal {v : Literal} (h : f.kind = .literal v) : f.lower s = .ok v.lower := by
  rw [lower_eq, h]
  rfl

theorem lower_paren {e : Formula} (h : f.kind = .paren e) :
    f.lower s = .ok a ↔ ∃ b, e.lower s = .ok b ∧ a = { b with sql := .grouped b.sql } := by
  rw [lower_eq, h]
  simp only [Kind.map, Lowering.step, bind_eq_ok, pure_eq_ok]

theorem lower_ordered {e : Formula} {d : Direction} (h : f.kind = .ordered e d) :
    f.lower s = .ok a ↔
      ∃ b, e.lower s = .ok b ∧ a = { b with sql := .ordered b.sql (d == .desc) } := by
  rw [lower_eq, h]
  simp only [Kind.map, Lowering.step, bind_eq_ok, pure_eq_ok]

/-- The dimensions of a grouping that has an SQL form. -/
def partition? {α : Type} : Grouping α → Option (List α)
  | .total => some []
  | .within ds => some ds
  | .among _ => none

theorem partition?_eq_some {α : Type} {g : Grouping α} {ds : List α} (h : partition? g = some ds) :
    ds = g.dims := by
  cases g with
  | total | within => exact (Option.some.inj h).symm
  | among => exact absurd h (by simp [partition?])

theorem partition?_map {α β : Type} (f : α → β) (g : Grouping α) :
    partition? (g.map f) = (partition? g).map (·.map f) := by
  cases g <;> rfl

/-- A window call is lowered by lowering all that it is made of and writing the function. -/
theorem lower_window {w : WindowCall Formula} (h : f.kind = .window w) : f.lower s = .ok a ↔
    ∃ dims, partition? w.grouping = some dims ∧ ∃ ps os as r,
      List.Forall₂ (fun c b => c.lower s = .ok b) dims ps ∧
      List.Forall₂ (fun c b => c.lower s = .ok b) w.ordering os ∧
      List.Forall₂ (fun c b => c.lower s = .ok b) w.args as ∧
      Lowering.dispatch s w.name true as = .ok r ∧
      a = { r with sql :=
        Lowering.overWindow (ps.map TypedSql.sql) (os.map TypedSql.sql) r.sql } := by
  rw [lower_eq, h]
  cases hgrouping : w.grouping with
  | total =>
      simp only [Kind.map, Lowering.step, Lowering.window, hgrouping, Grouping.map, Grouping.withDims,
        partition?, pure_bind, bind_eq_ok, pure_eq_ok, Lowering.exprs_eq_ok,
        Lowering.all_eq_ok, Option.some.injEq]
      constructor
      · rintro ⟨_, ⟨os, hos, rfl⟩, as, has, r, hr, rfl⟩
        exact ⟨[], rfl, [], os, as, r, .nil, hos, has, hr, rfl⟩
      · rintro ⟨_, rfl, ps, os, as, r, hps, hos, has, hr, rfl⟩
        cases hps
        exact ⟨_, ⟨os, hos, rfl⟩, as, has, r, hr, rfl⟩
  | within ds =>
      simp only [Kind.map, Lowering.step, Lowering.window, hgrouping, Grouping.map, Grouping.withDims,
        Grouping.dims, partition?, bind_eq_ok, pure_eq_ok, Lowering.exprs_eq_ok,
        Lowering.all_eq_ok, Option.some.injEq]
      constructor
      · rintro ⟨_, ⟨ps, hps, rfl⟩, _, ⟨os, hos, rfl⟩, as, has, r, hr, rfl⟩
        exact ⟨ds, rfl, ps, os, as, r, hps, hos, has, hr, rfl⟩
      · rintro ⟨_, rfl, ps, os, as, r, hps, hos, has, hr, rfl⟩
        exact ⟨_, ⟨ps, hps, rfl⟩, _, ⟨os, hos, rfl⟩, as, has, r, hr, rfl⟩
  | among ds =>
      simp only [Kind.map, Lowering.step, Lowering.window, hgrouping, Grouping.map, Grouping.withDims,
        Grouping.dims, partition?, bind_eq_ok, reduceCtorEq, false_and, exists_false]

/-- What a formula is written with has been lowered with it. -/
theorem exists_lower_of_written (h : f.lower s = .ok a) (hc : c ∈ f.written) :
    ∃ b, c.lower s = .ok b := by
  have hpartner {cs : List Formula} {as : List TypedSql}
      (h : List.Forall₂ (fun c b => c.lower s = .ok b) cs as) (hc : c ∈ cs) :
      ∃ b, c.lower s = .ok b := by
    obtain ⟨b, -, hb⟩ := forall₂_exists_right h hc
    exact ⟨b, hb⟩
  cases hname : f.function? with
  | some name =>
      obtain ⟨as, has, -⟩ := (lower_function_eq_ok hname).mp h
      exact hpartner has hc
  | none =>
      rw [written] at hc
      cases hk : f.kind with
      | paren e =>
          obtain ⟨b, hb, -⟩ := (lower_paren hk).mp h
          rw [hk] at hc
          exact ⟨b, List.mem_singleton.mp hc ▸ hb⟩
      | ordered e d =>
          obtain ⟨b, hb, -⟩ := (lower_ordered hk).mp h
          rw [hk] at hc
          exact ⟨b, List.mem_singleton.mp hc ▸ hb⟩
      | window w =>
          obtain ⟨dims, hdims, ps, os, as, r, hps, hos, has, -⟩ := (lower_window hk).mp h
          rw [hk] at hc
          simp only [Kind.written, Kind.children, List.mem_append] at hc
          rcases hc with (hc | hc) | hc
          · exact hpartner has hc
          · exact hpartner hps (partition?_eq_some hdims ▸ hc)
          · exact hpartner hos hc
      | field | literal | fork | error =>
          rw [lower_eq, hk] at h
          rw [hk] at hc
          first
          | exact absurd hc List.not_mem_nil
          | exact absurd h (by simp [Kind.map, Lowering.step])
      | _ => exact absurd hname (by simp [function?, hk, Kind.function?])

end Formula

end FormulaSql
