import FormulaSql.Proofs.Formula.Positions
import FormulaSql.Proofs.Function.Dispatch
import FormulaSql.Proofs.Simplify.Pruning

/-!
# Rules of simplification do not see styles

Two formulas can be the same in all that the rules of simplification look at: their notes differ, or
what is a block in one is in the other the call that stands for it. A style says how the one is
written as the other. Each rule offers for the formula in a style what it offers for the formula,
in that style.

* `Simplify.seesNoStyle_rules` says so of all rules
-/

namespace FormulaSql

/-! ## Calls in the place of blocks -/

/-- How blocks are written as calls: by the names of the two functions, in upper or lower case, and
by what becomes of the notes of a block. -/
structure BlockCalls where
  ifName : String
  caseName : String
  notes : Notes → Notes
  ifName_toLower : ifName.toLower = "if"
  caseName_toLower : caseName.toLower = "case"

namespace BlockCalls

variable {α β : Type} (how : BlockCalls)

/-- A block becomes a call with its conditions and values, in this order, as arguments. -/
def kind : Kind α → Kind α
  | .ifBlock bs e =>
    .call ⟨how.ifName, bs.flatMap Branch.parts ++ [e], .inherited, [], NameSet.empty⟩
  | .caseBlock s bs e =>
    .call ⟨how.caseName, s :: bs.flatMap Branch.parts ++ [e], .inherited, [], NameSet.empty⟩
  | k => k

theorem children_kind (k : Kind α) : (how.kind k).children = k.children := by
  cases k with
  | ifBlock bs e | caseBlock s bs e => exact (List.append_nil _).trans (List.append_nil _)
  | _ => rfl

theorem kind_map (f : α → β) (k : Kind α) : how.kind (k.map f) = (how.kind k).map f := by
  cases k with
  | ifBlock bs e =>
      simp only [Kind.map, kind, Simplify.parts_map, List.map_append, List.map_cons, List.map_nil]
      rfl
  | caseBlock s bs e =>
      simp only [Kind.map, kind, Simplify.parts_map, List.map_append, List.map_cons, List.map_nil]
      rfl
  | _ => rfl

theorem kind_kind (k : Kind α) : how.kind (how.kind k) = how.kind k := by
  cases k <;> rfl

end BlockCalls

/-! ## Styles -/

/-- Another way of writing formulas. -/
inductive Style where
  /-- The notes of nodes are changed, but a node without notes gets none. -/
  | noted (change : Notes → Notes) (keeps : change Notes.none = Notes.none)
  /-- Blocks become calls, and notes are dropped. -/
  | called (how : BlockCalls)

namespace Style

variable {α : Type}

def kind (style : Style) (k : Kind α) : Kind α :=
  match style with
  | noted _ _ => k
  | called how => how.kind k

def notes (style : Style) (n : Notes) : Notes :=
  match style with
  | noted change _ => change n
  | called _ => Notes.none

@[simp]
theorem notes_none (style : Style) : style.notes Notes.none = Notes.none := by
  cases style with
  | noted change keeps => exact keeps
  | called how => rfl

@[simp]
theorem kind_binary (style : Style) (op : String) (l r : α) :
    style.kind (.binary op l r) = .binary op l r := by
  cases style <;> rfl

@[simp]
theorem kind_call (style : Style) (c : Call α) : style.kind (.call c) = .call c := by
  cases style <;> rfl

end Style

namespace Formula

variable (style : Style)

/-- The formula in the style. -/
def inStyle (f : Formula) : Formula :=
  f.recur fun f k => .mk (style.kind k) (style.notes f.notes)

theorem inStyle_mk (k : Kind Formula) (n : Notes) :
    (mk k n).inStyle style = mk (style.kind (k.map (inStyle style))) (style.notes n) :=
  recur_eq _ _

theorem kind_inStyle (f : Formula) :
    (f.inStyle style).kind = style.kind (f.kind.map (inStyle style)) := by
  rw [inStyle, recur_eq]
  rfl

theorem notes_inStyle (f : Formula) : (f.inStyle style).notes = style.notes f.notes := by
  rw [inStyle, recur_eq]
  rfl

theorem literal?_inStyle (f : Formula) : (f.inStyle style).literal? = f.literal? := by
  rw [literal?, literal?, kind_inStyle]
  cases style <;> cases f.kind <;> rfl

theorem folded_inStyle (f : Formula) (v : Literal) :
    Simplify.folded (f.inStyle style) v = (Simplify.folded f v).inStyle style := by
  rw [Simplify.folded, Simplify.folded, inStyle_mk, notes_inStyle]
  cases style <;> rfl

end Formula

/-- The call with formulas in the style in its places. -/
def Call.inStyle (style : Style) (c : Call Formula) : Call Formula :=
  ⟨c.name, c.args.map (Formula.inStyle style), c.lod.map (Formula.inStyle style),
    c.ignored.map (Formula.inStyle style), c.beforeFilterBy⟩

/-! ## Calls that stand for blocks -/

namespace Simplify

variable {dialect : Dialects} {above : List Formula} {f : Formula} {c : Call Formula}

/-- The names that blocks have as calls. -/
def conditionalNames : List String := ["if", "case"]

theorem not_isAggregate_conditional (h : c.name.toLower ∈ conditionalNames) :
    Function.isAggregate c.name = false := by
  rw [← Bool.not_eq_true]
  intro haggregate
  obtain ⟨d, hd, hd'⟩ := List.any_eq_true.mp haggregate
  obtain ⟨hmem, hname, -⟩ := Function.mem_definitions.mp hd
  have hlogical : d.category = .logical := by
    refine (catalogue_listed d hmem).logical ?_
    rw [hname]
    rcases List.mem_pair.mp h with h | h <;> rw [h] <;> decide
  rw [Definition.isAggregate, hlogical] at hd'
  exact absurd hd' (by simp)

theorem doubleAggregation_conditional (hk : f.kind = .call c)
    (h : c.name.toLower ∈ conditionalNames) : doubleAggregation above f = none := by
  have hcollapsible : collapsible.contains c.name.toLower = false := by
    rcases List.mem_pair.mp h with h | h <;> rw [h] <;> decide
  refine (Formula.doubleAggregation_eq_none hk).mpr fun x _ => ?_
  rw [hcollapsible]
  cases x.aggregationView <;> rfl

theorem test_conditional (hk : f.kind = .call c) (h : c.name.toLower ∈ conditionalNames) :
    test dialect above f = none := by
  have hname : c.name.toLower ≠ "isnull" := by
    rcases List.mem_pair.mp h with h | h <;> rw [h] <;> decide
  exact (Formula.test_eq_none hk).mpr fun _ _ _ _ => Formula.constantTest?_eq_none hname

end Simplify

namespace Formula

variable (style : Style)

/-- Calls stay, and calls that come in the place of blocks have the name of a conditional. -/
theorem call?_inStyle_cases (f : Formula) :
    (∃ c, f.call? = some c ∧ (f.inStyle style).call? = some (c.inStyle style)) ∨
      f.call? = none ∧ ((f.inStyle style).call? = none ∨
        ∃ c, (f.inStyle style).kind = .call c ∧ c.name.toLower ∈ Simplify.conditionalNames) := by
  rw [call?, call?, kind_inStyle]
  cases style with
  | noted change keeps =>
      cases f.kind with
      | call c => exact Or.inl ⟨c, rfl, rfl⟩
      | _ => exact Or.inr ⟨rfl, Or.inl rfl⟩
  | called how =>
      cases f.kind with
      | call c => exact Or.inl ⟨c, rfl, rfl⟩
      | ifBlock bs e =>
          refine Or.inr ⟨rfl, Or.inr ⟨_, rfl, ?_⟩⟩
          rw [how.ifName_toLower]
          decide
      | caseBlock s bs e =>
          refine Or.inr ⟨rfl, Or.inr ⟨_, rfl, ?_⟩⟩
          rw [how.caseName_toLower]
          decide
      | _ => exact Or.inr ⟨rfl, Or.inl rfl⟩

theorem isAggregateCall_inStyle (f : Formula) :
    (f.inStyle style).isAggregateCall = f.isAggregateCall := by
  rcases call?_inStyle_cases style f with ⟨c, hc, hc'⟩ | ⟨hc, hc' | ⟨c, hk, hname⟩⟩
  · rw [isAggregateCall, isAggregateCall, hc, hc']
    rfl
  · rw [isAggregateCall, isAggregateCall, hc, hc']
  · rw [isAggregateCall_of_kind hk, Simplify.not_isAggregate_conditional hname,
      not_isAggregateCall_of_call? hc]

end Formula

/-! ## Rules do not see styles -/

/-- The rule offers for a formula in the style what it offers for the formula, wherever the two
stand. -/
def Rule.SeesNoStyle (style : Style) (rule : Rule) : Prop :=
  ∀ above above' f, rule above' (f.inStyle style) = (rule above f).map (Formula.inStyle style)

namespace Simplify

open Formula

variable (style : Style)

theorem seesNoStyle_arithmetic : Rule.SeesNoStyle style arithmetic := by
  intro above above' f
  rw [arithmetic, arithmetic, kind_inStyle]
  cases f.kind with
  | binary op l r =>
      simp only [Kind.map, Style.kind_binary, literal?_inStyle, folded_inStyle]
      cases l.literal? with
      | none => rfl
      | some a =>
          cases r.literal? with
          | none => rfl
          | some b => cases hmath : math? op a b <;> simp [hmath]
  | _ => cases style <;> rfl

theorem seesNoStyle_comparison : Rule.SeesNoStyle style comparison := by
  intro above above' f
  rw [comparison, comparison, kind_inStyle]
  cases f.kind with
  | binary op l r =>
      simp only [Kind.map, Style.kind_binary, literal?_inStyle, folded_inStyle]
      cases equalityOperators.lookup op with
      | none => rfl
      | some kind =>
          cases l.literal? with
          | none => rfl
          | some a =>
              cases r.literal? with
              | none => rfl
              | some b => cases hequal : literalsEqual? kind.2 a b <;> simp [hequal]
  | _ => cases style <;> rfl

theorem seesNoStyle_connective : Rule.SeesNoStyle style connective := by
  intro above above' f
  rw [connective, connective, kind_inStyle]
  cases f.kind with
  | binary op l r =>
      simp only [Kind.map, Style.kind_binary, literal?_inStyle, folded_inStyle]
      cases l.literal? with
      | some v =>
          simp only [Option.bind_eq_bind, Option.bind_some]
          split
          next => split <;> rfl
          next => split <;> rfl
          next => rfl
      | none =>
          cases r.literal? with
          | none => rfl
          | some v =>
              simp only [Option.bind_eq_bind, Option.bind_some]
              split
              next => split <;> rfl
              next => split <;> rfl
              next => rfl
  | _ => cases style <;> rfl

theorem seesNoStyle_test (dialect : Dialects) : (test dialect).SeesNoStyle style := by
  intro above above' f
  rcases call?_inStyle_cases style f with ⟨c, hc, hc'⟩ | ⟨hc, hc' | ⟨c, hk, hname⟩⟩
  · rw [test, test, hc, hc']
    obtain ⟨name, args, lod, ignored, filters⟩ := c
    rcases args with _ | ⟨x, _ | ⟨y, rest⟩⟩
    · rfl
    · simp only [Option.bind_eq_bind, Option.bind_some, Call.inStyle, List.map_cons, List.map_nil,
        literal?_inStyle, folded_inStyle]
      cases x.literal? with
      | none => rfl
      | some v => cases constantTest? dialect name <;> rfl
    · rfl
  · rw [test, test, hc, hc']
    rfl
  · rw [test_conditional hk hname, test, hc]
    rfl

theorem seesNoStyle_doubleAggregation : Rule.SeesNoStyle style doubleAggregation := by
  intro above above' f
  rcases call?_inStyle_cases style f with ⟨c, hc, hc'⟩ | ⟨hc, hc' | ⟨c, hk, hname⟩⟩
  · rw [doubleAggregation, doubleAggregation, hc, hc']
    obtain ⟨name, args, lod, ignored, filters⟩ := c
    rcases args with _ | ⟨x, _ | ⟨y, rest⟩⟩
    · rfl
    · simp only [Option.bind_eq_bind, Option.bind_some, Call.inStyle, List.map_cons, List.map_nil,
        isAggregateCall_inStyle, Lod.isInherited_map, List.isEmpty_map]
      rcases call?_inStyle_cases style x with ⟨d, hd, hd'⟩ | ⟨hd, hd' | ⟨d, hk, hname⟩⟩
      · rw [hd, hd']
        simp only [Option.bind_some, Call.inStyle, Lod.isInherited_map]
        split <;> rfl
      · rw [hd, hd']
        rfl
      · rw [hd, not_isAggregateCall_of_call? hd, call?, hk]
        simp
    · rfl
  · rw [doubleAggregation, doubleAggregation, hc, hc']
    rfl
  · rw [doubleAggregation_conditional hk hname, doubleAggregation, hc]
    rfl

/-! ### Conditionals -/

/-- What is left of a conditional, with called formulas. -/
def Pruned.inStyle (p : Pruned) : Pruned :=
  ⟨p.branches.map (·.map (Formula.inStyle style)), p.otherwise.inStyle style⟩

theorem pruneBy_inStyle {known : Formula → Option Bool}
    (h : ∀ f, known (f.inStyle style) = known f) (otherwise : Formula)
    (bs : List (Branch Formula)) :
    pruneBy known (otherwise.inStyle style) (bs.map (·.map (Formula.inStyle style))) =
      (pruneBy known otherwise bs).inStyle style :=
  pruneBy_map h

theorem pruneIf_inStyle (otherwise : Formula) (bs : List (Branch Formula)) :
    pruneIf (otherwise.inStyle style) (bs.map (·.map (Formula.inStyle style))) =
      (pruneIf otherwise bs).inStyle style := by
  rw [pruneIf_eq, pruneIf_eq]
  exact pruneBy_inStyle style (fun f => by rw [isTrue?, isTrue?, literal?_inStyle]) otherwise bs

theorem pruneCase_inStyle (v : Literal) (otherwise : Formula) (bs : List (Branch Formula)) :
    pruneCase v (otherwise.inStyle style) (bs.map (·.map (Formula.inStyle style))) =
      (pruneCase v otherwise bs).inStyle style := by
  rw [pruneCase_eq, pruneCase_eq]
  exact pruneBy_inStyle style (fun f => by rw [isSubject?, isSubject?, literal?_inStyle])
    otherwise bs

theorem rebuilt_inStyle (before : List (Branch Formula)) (p : Pruned)
    {build build' : List (Branch Formula) → Formula → Formula}
    (hbuild : ∀ bs e, build' (bs.map (·.map (Formula.inStyle style))) (e.inStyle style) =
      (build bs e).inStyle style) :
    rebuilt (before.map (·.map (Formula.inStyle style))) (p.inStyle style) build' =
      (rebuilt before p build).map (Formula.inStyle style) := by
  rw [rebuilt, rebuilt]
  simp only [Pruned.inStyle, List.length_map, List.isEmpty_map, hbuild]
  split
  · rfl
  · split <;> rfl

theorem callWithArgs_inStyle (c : Call Formula) (args : List Formula) :
    callWithArgs (c.inStyle style) (args.map (Formula.inStyle style)) =
      (callWithArgs c args).inStyle style := by
  refine Eq.trans ?_ (inStyle_mk style _ _).symm
  rw [Kind.map, Style.kind_call, Style.notes_none]
  rfl

/-- A block is pruned as the call in its place is. -/
theorem seesNoStyle_conditional : Rule.SeesNoStyle style conditional := by
  intro above above' f
  rw [conditional, conditional, kind_inStyle]
  cases f.kind with
  | call c =>
      rw [Kind.map, Style.kind_call]
      simp only
      split
      · rw [branchArgs_map]
        cases branchArgs c.args with
        | none => rfl
        | some p =>
            simp only [Option.map_some, Option.bind_eq_bind, Option.bind_some, pruneIf_inStyle]
            refine rebuilt_inStyle style p.1 _ fun bs e => ?_
            rw [parts_map, ← callWithArgs_inStyle, List.map_append]
            rfl
      · rcases c.args with _ | ⟨subject, rest⟩
        · rfl
        · simp only [List.map_cons, literal?_inStyle, branchArgs_map]
          cases subject.literal? with
          | none => rfl
          | some v =>
              cases branchArgs rest with
              | none => rfl
              | some p =>
                  simp only [Option.map_some, Option.bind_eq_bind, Option.bind_some,
                    pruneCase_inStyle]
                  refine rebuilt_inStyle style p.1 _ fun bs e => ?_
                  rw [parts_map, ← callWithArgs_inStyle, List.map_append]
                  rfl
      · rfl
  | ifBlock bs e =>
      cases style with
      | noted change keeps =>
          simp only [Kind.map, Style.kind, pruneIf_inStyle]
          refine rebuilt_inStyle _ bs _ fun bs e => ?_
          rw [inStyle_mk, notes_inStyle]
          rfl
      | called how =>
          simp only [Kind.map, Style.kind, BlockCalls.kind, how.ifName_toLower, branchArgs_parts,
            Option.bind_eq_bind, Option.bind_some, pruneIf_inStyle]
          refine rebuilt_inStyle _ bs _ fun bs e => ?_
          rw [inStyle_mk]
          rfl
  | caseBlock s bs e =>
      cases style with
      | noted change keeps =>
          simp only [Kind.map, Style.kind, literal?_inStyle]
          cases s.literal? with
          | none => rfl
          | some v =>
              simp only [Option.bind_eq_bind, Option.bind_some, pruneCase_inStyle]
              refine rebuilt_inStyle _ bs _ fun bs e => ?_
              rw [inStyle_mk, notes_inStyle]
              rfl
      | called how =>
          simp only [Kind.map, Style.kind, BlockCalls.kind, how.caseName_toLower, List.cons_append,
            literal?_inStyle, branchArgs_parts, Option.bind_eq_bind, Option.bind_some]
          cases s.literal? with
          | none => rfl
          | some v =>
              simp only [Option.bind_some, pruneCase_inStyle]
              refine rebuilt_inStyle _ bs _ fun bs e => ?_
              rw [inStyle_mk]
              rfl
  | _ => cases style <;> rfl

theorem seesNoStyle_rules (dialect : Dialects) :
    ∀ rule ∈ rules dialect, rule.SeesNoStyle style := by
  simp only [rules, List.forall_mem_cons]
  exact ⟨seesNoStyle_arithmetic style, seesNoStyle_doubleAggregation style,
    seesNoStyle_comparison style, seesNoStyle_connective style, seesNoStyle_test style dialect,
    seesNoStyle_conditional style, fun _ h => absurd h List.not_mem_nil⟩

end Simplify


end FormulaSql
