import FormulaSql.Analysis.Contents
import FormulaSql.Formula.Build
import FormulaSql.Proofs.Function.Grades
import FormulaSql.Proofs.Lowering.Nodes

/-!
# Constant types

A formula with a constant type is known before the query runs: nothing that is written for it is
read from rows, if no field has a constant type. Two things are not asked about. The dimensions of a
call are not written at all. And an array of constants takes items of type NULL as well, whatever
they are made of.

* `Formula.known_of_isConst`: apart from these, a formula of a constant type is made of constants
-/

namespace FormulaSql

/-- The node has a value for each row or each group of rows: it is a field, a call of an aggregation
or a window call. -/
def Kind.readsRows {α : Type} : Kind α → Bool
  | .field _ => true
  | .call c => Function.isAggregate c.name
  | .window _ => true
  | _ => false

namespace Formula

def readsRows (f : Formula) : Bool := f.kind.readsRows

/-- The node is an array with items. -/
def makesArray (f : Formula) : Bool := f.function?.any fun name => name.toLower == "array"

/-- The formula is lowered to an expression of type NULL. -/
def isNullIn (s : Scope) (f : Formula) : Bool :=
  (f.lower s).toOption.any fun a => a.type.isNull

/-- Nothing that is written for the formula is read from rows, the NULL items of arrays apart. -/
inductive Known (s : Scope) : Formula → Prop where
  | intro {f : Formula} (own : f.readsRows = false)
      (parts : ∀ c ∈ f.written, (f.makesArray = true → c.isNullIn s = false) → Known s c) :
      Known s f

variable {s : Scope} {f : Formula} {a : TypedSql}

theorem readsRows_of_function? {name : String} (h : f.function? = some name)
    (haggregate : Function.isAggregate name = false) : f.readsRows = false := by
  rw [function?] at h
  rw [readsRows]
  cases hk : f.kind with
  | call c =>
      rw [hk] at h
      obtain rfl := Option.some.inj h
      exact haggregate
  | field | window =>
      rw [hk] at h
      exact absurd h (by simp [Kind.function?])
  | _ => rfl

/-- What only one formula is written for is known if that one is. -/
theorem known_of_written_singleton {e : Formula} (hrows : f.readsRows = false)
    (hwritten : f.written = [e]) (he : e.Known s) : f.Known s := by
  refine .intro hrows fun c hc _ => ?_
  rw [hwritten] at hc
  exact List.mem_singleton.mp hc ▸ he

/-- A function gives a constant for known arguments only. -/
theorem known_of_dispatch {name : String} (h : f.function? = some name)
    {as : List TypedSql} (hargs : List.Forall₂ (fun c b => c.lower s = .ok b) f.written as)
    (hdispatch : Lowering.dispatch s name false as = .ok a) (hconst : a.type.isConst = true)
    (ih : ∀ c ∈ f.written, ∀ b, c.lower s = .ok b → b.type.isConst = true → c.Known s) :
    f.Known s := by
  obtain ⟨r, hresolve, _, -, rfl⟩ := Lowering.dispatch_eq_ok.mp hdispatch
  obtain ⟨-, haggregate, htypes⟩ := Function.resolve_isConst hresolve hconst
  refine .intro (readsRows_of_function? h haggregate) fun c hc hitem => ?_
  obtain ⟨b, hb, hlower⟩ := forall₂_exists_right hargs hc
  rcases htypes b.type (List.mem_map_of_mem hb) with hconst | ⟨harray, hnull⟩
  · exact ih c hc b hlower hconst
  · have hmakes : f.makesArray = true := by simp [makesArray, h, harray]
    have hitem := hitem hmakes
    rw [isNullIn, hlower] at hitem
    exact absurd hnull (by simpa [Except.toOption] using hitem)

/-- A formula with a constant type is made of constants, the NULL items of arrays apart. -/
theorem known_of_isConst (hfields : ∀ n info, s.field? n = some info → info.type.isConst = false)
    (h : f.lower s = .ok a) (hconst : a.type.isConst = true) : f.Known s := by
  induction f using induction_children generalizing a with
  | step f ih =>
      have hwritten : ∀ c ∈ f.written, ∀ b, c.lower s = .ok b → b.type.isConst = true → c.Known s :=
        fun c hc b hb hbconst => ih c (Kind.mem_children_of_written hc) hb hbconst
      cases hname : f.function? with
      | some name =>
          obtain ⟨as, hargs, hdispatch⟩ := (lower_function_eq_ok hname).mp h
          exact known_of_dispatch hname hargs hdispatch hconst hwritten
      | none =>
          cases hk : f.kind with
          | field n =>
              obtain ⟨info, hinfo, rfl⟩ := (lower_field hk).mp h
              exact absurd hconst (by simp [hfields n info hinfo])
          | literal v =>
              refine .intro (by rw [readsRows, hk]; rfl) fun c hc => ?_
              rw [written, hk] at hc
              exact absurd hc List.not_mem_nil
          | paren e =>
              obtain ⟨b, hb, rfl⟩ := (lower_paren hk).mp h
              have he : f.written = [e] := by rw [written, hk]; rfl
              exact known_of_written_singleton (by rw [readsRows, hk]; rfl) he
                (hwritten e (he ▸ List.mem_cons_self) b hb hconst)
          | ordered e d =>
              obtain ⟨b, hb, rfl⟩ := (lower_ordered hk).mp h
              have he : f.written = [e] := by rw [written, hk]; rfl
              exact known_of_written_singleton (by rw [readsRows, hk]; rfl) he
                (hwritten e (he ▸ List.mem_cons_self) b hb hconst)
          | window w =>
              obtain ⟨_, -, _, _, _, r, -, -, -, hdispatch, rfl⟩ := (lower_window hk).mp h
              obtain ⟨_, hresolve, _, -, rfl⟩ := Lowering.dispatch_eq_ok.mp hdispatch
              exact absurd (Function.resolve_isConst hresolve hconst).1 (by decide)
          | fork q =>
              rw [lower_eq, hk] at h
              exact absurd h (by simp [Kind.map, Lowering.step])
          | error message code =>
              rw [lower_eq, hk] at h
              exact absurd h (by simp [Kind.map, Lowering.step])
          | _ => exact absurd hname (by simp [function?, hk, Kind.function?])

/-! ## Two formulas -/

/-- Orders with one field. -/
def sales : Scope := { Scope.empty .dummy with
  fields := [("sales", ⟨.column none "sales", .plain .integer, .none⟩)] }

theorem sales_isConst (n : String) (info : FieldInfo) (h : sales.field? n = some info) :
    info.type.isConst = false := by
  obtain ⟨before, after, hfields, -⟩ := List.lookup_eq_some_iff.mp h
  have hmem : (n, info) ∈ sales.fields := by simp [hfields]
  obtain ⟨-, rfl⟩ := Prod.mk.inj (List.mem_singleton.mp hmem)
  rfl

/-- A choice between texts by a comparison of numbers, without a field. -/
def choiceOfTexts : Formula :=
  .ifBlock [⟨.binary "==" (.call "abs" [.int 2]) (.int 2), .call "upper" [.lit (.string "a")]⟩]
    (.lit .null)

theorem known_of_isConst_choiceOfTexts :
    ∃ a, choiceOfTexts.lower sales = .ok a ∧ a.type = .const .string ∧
      choiceOfTexts.Known sales := by
  have hok : ((choiceOfTexts.lower sales).toOption.any fun a => a.type == .const .string) = true := by
    decide +kernel
  obtain ⟨a, ha, htype⟩ := exists_eq_ok hok
  have htype := beq_iff_eq.mp htype
  exact ⟨a, ha, htype, known_of_isConst sales_isConst ha (by rw [htype]; rfl)⟩

/-- An array of a number and the greatest of no values. -/
def arrayOfMaximum : Formula := call "array" [.int 1, call "max" [.lit .null]]

theorem lower_arrayOfMaximum :
    ∃ a, arrayOfMaximum.lower sales = .ok a ∧ a.type = .const .arrayInt := by
  let args : List TypedSql :=
    [⟨.int 1, .const .integer, .none⟩, ⟨.func "MAX" [.null], .plain .null, .none⟩]
  have hargs : List.Forall₂ (fun c b => c.lower sales = .ok b) arrayOfMaximum.written args :=
    .cons rfl (.cons (by with_unfolding_all rfl) .nil)
  have hok : ((Function.resolve "array" (args.map TypedSql.type) false sales.dialect
      sales.purposes).toOption.any fun r =>
        (r.variant.emit args).toOption.any fun _ => r.returnType == .const .arrayInt) = true := by
    -- the sort of several definitions does not reduce, and the catalogue is in their order
    rw [Function.resolve, Function.resolveIn_eq, Function.candidatesIn,
      Function.definitionsIn_catalogue]
    decide +kernel
  obtain ⟨r, hresolve, hr⟩ := exists_eq_ok hok
  obtain ⟨sql, hsql, htype⟩ := exists_eq_ok hr
  exact ⟨_, (lower_function_eq_ok rfl).mpr ⟨args, hargs,
    Lowering.dispatch_eq_ok.mpr ⟨r, hresolve, sql, hsql, rfl⟩⟩, beq_iff_eq.mp htype⟩

/-- A function of a constant, with a level of detail that it has no use for. -/
def fixedNumber : Formula := callWith "abs" [.int 1] (.fixed [.field "sales"]) NameSet.empty

/-- An array with a NULL item has a constant type in spite of the aggregation, and so has a function
of a constant in spite of its dimensions. -/
theorem isConst_of_exceptions :
    (∀ n info, sales.field? n = some info → info.type.isConst = false) ∧
      (∃ a, arrayOfMaximum.lower sales = .ok a ∧ a.type = .const .arrayInt) ∧
      (∃ g ∈ arrayOfMaximum.nodes, g.isAggregateCall = true) ∧
      (∃ a, fixedNumber.lower sales = .ok a ∧ a.type = .const .integer) ∧
      ∃ g ∈ fixedNumber.nodes, g.field? = some "sales" := by
  have hnumber : ((fixedNumber.lower sales).toOption.any fun a => a.type == .const .integer) =
      true := by
    decide +kernel
  obtain ⟨a, ha, htype⟩ := exists_eq_ok hnumber
  refine ⟨sales_isConst, lower_arrayOfMaximum, ⟨call "max" [.lit .null], ?_, by decide +kernel⟩,
    ⟨a, ha, beq_iff_eq.mp htype⟩, .field "sales", ?_, rfl⟩
  · exact mem_nodes_of_child (List.mem_cons_of_mem _ List.mem_cons_self) (self_mem_nodes _)
  · exact mem_nodes_of_child (List.mem_cons_of_mem _ List.mem_cons_self) (self_mem_nodes _)

end Formula

end FormulaSql
