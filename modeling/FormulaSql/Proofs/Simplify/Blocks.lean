import FormulaSql.Proofs.Lowering.Outcomes
import FormulaSql.Proofs.Simplify.Shrinking
import FormulaSql.Proofs.Simplify.Styles

/-!
# Blocks and calls of IF and CASE

A conditional can be written as a block or as a call of a function. The two are simplified by
different branches of one rule, which keep different notes, and are written through functions of
different names. Still they come to the same: calls without notes are a style, which no rule sees,
and as rules only take nodes away, both are settled after the same number of rounds. A conditional
function is the same under all its names.

* `Formula.called` forgets which of the two a conditional is written as, and all notes
* `Formula.settle_called`: simplifying does not see it
* `Formula.lower_called`: neither does lowering
* `Formula.lower_optimize_withCalls` says that a formula with calls in the place of blocks becomes
  the same SQL
-/

namespace FormulaSql

/-! ## Calls in the place of blocks -/

namespace Formula

variable (how : BlockCalls) {f : Formula}

/-- The node is a block. -/
def isBlock (f : Formula) : Bool :=
  match f.kind with
  | .ifBlock _ _ => true
  | .caseBlock _ _ _ => true
  | _ => false

/-- The formula with a call in the place of every block. -/
def withCalls (f : Formula) : Formula :=
  f.recur fun f k => .mk (how.kind k) (if f.isBlock then how.notes f.notes else f.notes)

/-- The formula with a call in the place of every block, and without notes: a style. -/
def called (f : Formula) : Formula := f.recur fun _ k => of (how.kind k)

theorem called_eq (f : Formula) : f.called how = of (how.kind (f.kind.map (called how))) :=
  recur_eq _ f

theorem called_mk (k : Kind Formula) (n : Notes) :
    (mk k n).called how = of (how.kind (k.map (called how))) :=
  called_eq how _

@[simp]
theorem kind_called (f : Formula) :
    (f.called how).kind = how.kind (f.kind.map (called how)) := by
  rw [called_eq]
  rfl

theorem children_called (f : Formula) :
    (f.called how).children = f.children.map (called how) := by
  rw [children, kind_called, how.children_kind, Kind.children_map]
  rfl

/-- Formulas that differ in how conditionals are written and in their notes. -/
theorem called_withCalls (f : Formula) : (f.withCalls how).called how = f.called how := by
  induction f using induction_children with
  | step f ih =>
      have hkind : (f.withCalls how).kind = how.kind (f.kind.map (withCalls how)) := by
        rw [withCalls, recur_eq]
        rfl
      rw [called_eq, hkind, ← how.kind_map, how.kind_kind, Kind.map_map, called_eq how f]
      exact congrArg (fun k => of (how.kind k)) (Kind.map_congr ih)

theorem size_called (f : Formula) : (f.called how).size = f.size := by
  induction f using induction_children with
  | step f ih =>
      rw [size_eq_sum, size_eq_sum f, children_called, List.map_map]
      exact congrArg (List.sum · + 1) (List.map_congr_left ih)

end Formula

/-! ## Simplifying does not see blocks -/

/-- The rule offers for a formula with calls what it offers for the one with blocks, wherever the
two stand. -/
def Rule.SeesNoBlocks (how : BlockCalls) (rule : Rule) : Prop :=
  ∀ above above' f, rule above' (f.called how) = (rule above f).map (Formula.called how)

theorem Simplify.seesNoBlocks_rules (how : BlockCalls) (dialect : Dialects) :
    ∀ rule ∈ rules dialect, rule.SeesNoBlocks how :=
  seesNoStyle_rules (.called how) dialect

namespace Formula

variable {how : BlockCalls} {rule : Rule} {rules : List Rule}

theorem offered_called (hsees : rule.SeesNoBlocks how) (hrule : rule.Renews) (f : Formula)
    (above above' : List Formula) :
    (f.called how).offered rule above' = (f.offered rule above).called how := by
  induction f using induction_children generalizing above above' with
  | step f ih =>
      have hrebuilt : (f.called how).rebuilt rule above' = (f.rebuilt rule above).called how := by
        rw [rebuilt_eq, rebuilt_eq, called_mk, kind_called, ← how.kind_map, Kind.map_map,
          Kind.map_map, called_eq]
        exact congrArg (fun k => of (how.kind k)) (Kind.map_congr fun c hc => ih c hc _ _)
      rw [offered_eq hrule, offered_eq hrule, hrebuilt, hsees above above', Option.getD_map]

theorem transform_called (hsees : rule.SeesNoBlocks how) (hrule : rule.Shrinks) (f : Formula) :
    (f.called how).transform rule = (f.transform rule).called how := by
  rw [transform_eq_offered hrule.renews, transform_eq_offered hrule.renews,
    offered_called hsees hrule.renews f [] []]

section Settle

variable (hsees : ∀ rule ∈ rules, rule.SeesNoBlocks how) (hrules : ∀ rule ∈ rules, rule.Shrinks)

include hsees hrules

theorem transformAll_called (f : Formula) :
    (f.called how).transformAll rules = (f.transformAll rules).called how := by
  rw [transformAll, transformAll]
  induction rules generalizing f with
  | nil => rfl
  | cons rule rules ih =>
      rw [List.forall_mem_cons] at hsees hrules
      rw [List.foldl_cons, List.foldl_cons, transform_called hsees.1 hrules.1]
      exact ih hsees.2 hrules.2 _

/-- Both ways of writing are settled after the same number of rounds. -/
theorem settle_called (rounds : Nat) (f : Formula) :
    settle rules rounds (f.called how) = (settle rules rounds f).called how := by
  induction rounds generalizing f with
  | zero => rfl
  | succ rounds ih =>
      have hshrunk := shrunk_transformAll hrules f
      have hshrunk' : Shrunk (f.called how) ((f.transformAll rules).called how) := by
        rcases hshrunk with heq | hlt
        · exact Or.inl (congrArg _ heq)
        · right
          rwa [size_called, size_called]
      have hbeq : ((f.transformAll rules).called how == f.called how) =
          (f.transformAll rules == f) := by
        rw [Bool.eq_iff_iff, hshrunk.beq_iff, hshrunk'.beq_iff]
        constructor
        · intro heq
          refine hshrunk.resolve_right fun hlt => ?_
          rw [← size_called how, heq, size_called] at hlt
          exact Nat.lt_irrefl _ hlt
        · exact congrArg _
      rw [settle, settle, transformAll_called hsees hrules, hbeq]
      split
      · rfl
      · exact ih _

end Settle

theorem optimize_called (how : BlockCalls) (f : Formula) (dialect : Dialects) :
    (f.called how).optimize dialect = (f.optimize dialect).called how :=
  settle_called (Simplify.seesNoBlocks_rules how dialect) (Simplify.shrinks_rules dialect)
    maxRounds f

end Formula

/-! ## Lowering does not see blocks -/

namespace Lowering

open FormulaSql.Function

variable {s : Scope} {name name' : String} {as : List TypedSql} {a : TypedSql}

/-- The conditional functions can be used under all their names. -/
theorem exists_conditional : ∀ c ∈ [ifs, cases], ∀ n ∈ c.names, ∃ d ∈ catalogue,
    d.name = n ∧ d.isWindow = false ∧ d.allScopes.contains .explicitUsage = true := by
  decide

/-- A conditional is written in the same way under all its names. -/
theorem dispatch_renamed {c : Conditional} (hc : c ∈ [ifs, cases]) (hname : name.toLower ∈ c.names)
    (hname' : name'.toLower ∈ c.names) (hs : s.purposes = .explicitUsage)
    (h : dispatch s name false as = .ok a) : dispatch s name' false as = .ok a := by
  obtain ⟨r, hr, sql, hsql, rfl⟩ := dispatch_eq_ok.mp h
  have hlength := least_le_of_resolve hc hname hr
  obtain ⟨r₀, hr₀, hdefines, hwrites⟩ := resolve_conditional hc hname hr hlength
  obtain rfl := Except.ok.inj (hr.symm.trans hr₀)
  obtain ⟨d, hd, hdname, hwindow, hscopes⟩ := exists_conditional c hc _ hname'
  obtain ⟨r', hr', hdefines', hwrites'⟩ :=
    resolve_of_conditional s.dialect hc hname' hd hdname hwindow hscopes hlength
  obtain ⟨-, -, htype⟩ := resolve_eq_ok hr
  obtain ⟨-, -, htype'⟩ := resolve_eq_ok hr'
  refine dispatch_eq_ok.mpr ⟨r', hs ▸ hr', sql, ?_, ?_⟩
  · rw [hwrites', ← hwrites]
    exact hsql
  · obtain ⟨_, _, _, hd⟩ := hdefines
    obtain ⟨_, _, _, hd'⟩ := hdefines'
    rw [htype, htype', hd, hd']
    rfl

end Lowering

namespace Formula

variable {how : BlockCalls} {s : Scope} {f : Formula} {a : TypedSql}

/-- A node is written through the function it was written through as a block, or through a
conditional of the same kind. -/
theorem function?_called_cases (how : BlockCalls) (f : Formula) :
    (f.called how).function? = f.function? ∨
      ∃ c ∈ [Function.ifs, Function.cases], ∃ name name', f.function? = some name ∧
        (f.called how).function? = some name' ∧ name.toLower ∈ c.names ∧
        name'.toLower ∈ c.names := by
  rw [function?, function?, kind_called]
  cases f.kind with
  | ifBlock bs e =>
      refine Or.inr ⟨Function.ifs, by simp, _, _, rfl, rfl, by decide +kernel, ?_⟩
      rw [how.ifName_toLower]
      exact List.mem_cons_self
  | caseBlock subject bs e =>
      refine Or.inr ⟨Function.cases, by simp, _, _, rfl, rfl, by decide +kernel, ?_⟩
      rw [how.caseName_toLower]
      exact List.mem_cons_self
  | _ => exact Or.inl rfl

theorem written_called (how : BlockCalls) (f : Formula) :
    (f.called how).written = f.written.map (called how) := by
  have hkind (k : Kind Formula) : (how.kind k).written = k.written := by
    cases k <;> rfl
  rw [written, written, kind_called, hkind, Kind.written_map]

theorem lowered_called {cs : List Formula} {as : List TypedSql}
    (h : ∀ c ∈ cs, ∀ b, (c.called how).lower s = .ok b ↔ c.lower s = .ok b) :
    List.Forall₂ (fun c b => c.lower s = .ok b) (cs.map (called how)) as ↔
      List.Forall₂ (fun c b => c.lower s = .ok b) cs as := by
  rw [List.forall₂_map_left_iff]
  constructor
  · exact fun hcs => forall₂_of_mem hcs fun c hc b _ hb => (h c hc b).mp hb
  · exact fun hcs => forall₂_of_mem hcs fun c hc b _ hb => (h c hc b).mpr hb

theorem lower_function_called {name : String} (hs : s.purposes = .explicitUsage)
    (hname : f.function? = some name)
    (h : ∀ c ∈ f.children, ∀ b, (c.called how).lower s = .ok b ↔ c.lower s = .ok b) :
    (f.called how).lower s = .ok a ↔ f.lower s = .ok a := by
  have hwritten {as : List TypedSql} :
      List.Forall₂ (fun c b => c.lower s = .ok b) (f.written.map (called how)) as ↔
        List.Forall₂ (fun c b => c.lower s = .ok b) f.written as :=
    lowered_called fun c hc => h c (Kind.mem_children_of_written hc)
  rw [lower_function_eq_ok hname]
  rcases function?_called_cases how f with hsame | ⟨c, hc, n, n', hn, hn', hc', hc''⟩
  · rw [lower_function_eq_ok (hsame.trans hname), written_called]
    simp only [hwritten]
  · obtain rfl := Option.some.inj (hname.symm.trans hn)
    rw [lower_function_eq_ok hn', written_called]
    simp only [hwritten]
    refine exists_congr fun as => and_congr_right fun _ => ?_
    exact ⟨Lowering.dispatch_renamed hc hc'' hc' hs, Lowering.dispatch_renamed hc hc' hc'' hs⟩

theorem lower_window_called {w : WindowCall Formula} (hk : f.kind = .window w)
    (h : ∀ c ∈ f.children, ∀ b, (c.called how).lower s = .ok b ↔ c.lower s = .ok b) :
    (f.called how).lower s = .ok a ↔ f.lower s = .ok a := by
  have hk' : (f.called how).kind = .window ⟨w.name, w.args.map (called how),
      w.grouping.map (called how), w.ordering.map (called how), w.beforeFilterBy⟩ := by
    rw [kind_called, hk]
    rfl
  have hchildren : f.children = w.args ++ w.grouping.dims ++ w.ordering := by
    rw [children, hk]
    rfl
  simp only [hchildren, List.mem_append] at h
  rw [lower_window hk, lower_window hk']
  simp only [partition?_map]
  cases hpartition : partition? w.grouping with
  | none => simp
  | some dims =>
      obtain rfl := partition?_eq_some hpartition
      simp only [Option.map_some, Option.some.injEq, exists_eq_left',
        lowered_called fun c hc => h c (Or.inl (Or.inl hc)),
        lowered_called fun c hc => h c (Or.inl (Or.inr hc)),
        lowered_called fun c hc => h c (Or.inr hc)]

/-- A formula is lowered with calls as it is with blocks. -/
theorem lower_called (how : BlockCalls) (hs : s.purposes = .explicitUsage) (f : Formula)
    (a : TypedSql) : (f.called how).lower s = .ok a ↔ f.lower s = .ok a := by
  induction f using induction_children generalizing a with
  | step f ih =>
      have hkind {k : Kind Formula} (hk : f.kind = k) :
          (f.called how).kind = how.kind (k.map (called how)) := by
        rw [kind_called, hk]
      cases hname : f.function? with
      | some name => exact lower_function_called hs hname ih
      | none =>
          cases hk : f.kind with
          | field n => rw [lower_field hk, lower_field (hkind hk)]
          | literal v => rw [lower_literal hk, lower_literal (hkind hk)]
          | paren e =>
              have he := ih e (by simp [children, hk, Kind.children])
              rw [lower_paren hk, lower_paren (hkind hk)]
              simp only [he]
          | ordered e d =>
              have he := ih e (by simp [children, hk, Kind.children])
              rw [lower_ordered hk, lower_ordered (hkind hk)]
              simp only [he]
          | window w => exact lower_window_called hk ih
          | fork q | error message code =>
              rw [lower_eq, lower_eq, hk, hkind hk]
              simp only [Kind.map, BlockCalls.kind, Lowering.step, reduceCtorEq]
          | _ => exact absurd hname (by simp [function?, hk, Kind.function?])

/-- A formula with calls in the place of blocks is simplified and lowered to the same SQL of the
same type, or not at all if the one with blocks is not. -/
theorem lower_optimize_withCalls (how : BlockCalls) (t : Formula) (dialect : Dialects)
    (fields : List (String × FieldInfo)) (a : TypedSql) :
    ((t.withCalls how).optimize dialect).lower ⟨dialect, .explicitUsage, fields⟩ = .ok a ↔
      (t.optimize dialect).lower ⟨dialect, .explicitUsage, fields⟩ = .ok a := by
  rw [← lower_called how rfl ((t.withCalls how).optimize dialect),
    ← lower_called how rfl (t.optimize dialect), ← optimize_called, ← optimize_called,
    called_withCalls]

/-- Calls with names in upper case, which keep the notes of the blocks. -/
def upperCase : BlockCalls := ⟨"IF", "CASE", id, by decide +kernel, by decide +kernel⟩

example : (ifBlock [⟨field "big", int 1⟩] (int 2)).withCalls upperCase =
    call "IF" [field "big", int 1, int 2] := rfl

end Formula

end FormulaSql
