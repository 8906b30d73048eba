import FormulaSql.Formula.Json
import FormulaSql.Proofs.Formula.Nodes
import FormulaSql.Proofs.Json.Abridged

/-!
# Formulas without doubles have exact JSON forms

A value is exact if it holds no doubles and no whole numbers beyond 64 bits. What is written of a
node is exact if its children are, unless the node is a literal with doubles.
-/

namespace FormulaSql

open Json (Exact)

/-- Leaving members out keeps a value exact. -/
theorem Json.Exact.of_abridged {j j' : Json} (hj : Exact j) (h : Json.Abridged j j') :
    Exact j' := by
  induction hj generalizing j' with
  | arr _ ih =>
      obtain ⟨js', rfl, hitems⟩ := h.of_arr
      refine .arr fun i' hi' => ?_
      obtain ⟨i, hi, habridged⟩ := forall₂_exists_left hitems hi'
      exact ih i hi habridged
  | obj _ ih =>
      obtain ⟨ms', rfl, hmembers⟩ := h.of_obj
      refine .obj fun m' hm' => ?_
      obtain ⟨m, hm, habridged⟩ := hmembers.of_mem hm'
      exact ih m hm habridged
  | null => exact h.eq_of_scalar rfl ▸ .null
  | bool b => exact h.eq_of_scalar rfl ▸ .bool b
  | int low high => exact h.eq_of_scalar rfl ▸ .int low high
  | str s => exact h.eq_of_scalar rfl ▸ .str s

/-! ## Parts of nodes -/

@[simp]
theorem exact_int64 (n : Int64) : Exact (.int n.toInt) := by
  refine .int n.minValue_le_toInt (Int.lt_of_le_of_lt n.toInt_le ?_)
  decide

@[simp]
theorem exact_int32 (n : Int32) : Exact (.int n.toInt) := by
  refine .int (Int.le_trans ?_ n.minValue_le_toInt) (Int.lt_of_le_of_lt n.toInt_le ?_)
  · decide
  · decide

@[simp]
theorem exact_uint64 (n : UInt64) : Exact (.int n.toNat) := by
  refine .int (Int.le_trans ?_ (Int.natCast_nonneg _)) (Int.ofNat_lt.mpr n.toNat_lt_size)
  decide

@[simp]
theorem exact_strings (ss : List String) : Exact (Json.strings ss) := by
  simp [Json.strings]

@[simp]
theorem exact_nameSet (s : NameSet) : Exact s.toJson := exact_strings s.toList

/-- The literal is not made of doubles. -/
def Literal.HoldsNoDouble (l : Literal) : Prop := (∀ x, l ≠ .float x) ∧ ∀ xs, l ≠ .arrayFloat xs

theorem exact_literal {l : Literal} (h : l.HoldsNoDouble) : Exact l.toJson := by
  cases l with
  | float x => exact absurd rfl (h.1 x)
  | arrayFloat xs => exact absurd rfl (h.2 xs)
  | _ => simp [Literal.toJson, Literal.typed, Literal.integerJson]

section Parts

theorem exact_lod {l : Lod Json} (h : ∀ j ∈ l.dims, Exact j) : Exact l.toJson := by
  cases l <;> simp_all [Lod.toJson, Lod.dims, dimsJson]

theorem exact_grouping {g : Grouping Json} (h : ∀ j ∈ g.dims, Exact j) : Exact g.toJson := by
  cases g <;> simp_all [Grouping.toJson, Grouping.dims, dimsJson]

theorem exact_branch {testName : String} {b : Branch Json} (h : ∀ j ∈ b.parts, Exact j) :
    Exact (b.toJson testName) := by
  simpa [Branch.toJson, Branch.parts] using h

theorem exact_joinCondition {c : JoinCondition Json} (h : ∀ j ∈ c.parts, Exact j) :
    Exact c.toJson := by
  cases c <;> simpa [JoinCondition.toJson, JoinCondition.parts, Json.tag] using h

theorem exact_filterShift {s : FilterShift Json} (h : ∀ j ∈ s.parts, Exact j) :
    Exact s.toJson := by
  simpa [FilterShift.toJson, FilterShift.parts] using h

/-- A kind is written as an exact value if its children are and it is no literal with doubles. -/
theorem exact_kind {k : Kind Json} (h : ∀ j ∈ k.children, Exact j)
    (hliteral : ∀ l, k = .literal l → l.HoldsNoDouble) : Exact k.toJson := by
  cases k with
  | literal l => simpa [Kind.toJson, Json.tag] using exact_literal (hliteral l rfl)
  | call c =>
      simp only [Kind.children, List.forall_mem_append] at h
      obtain ⟨⟨hargs, hlod⟩, hignored⟩ := h
      simpa [Kind.toJson, Json.tag, Call.toJson, exact_lod hlod] using ⟨hargs, hignored⟩
  | window w =>
      simp only [Kind.children, List.forall_mem_append] at h
      obtain ⟨⟨hargs, hgrouping⟩, hordering⟩ := h
      simpa [Kind.toJson, Json.tag, WindowCall.toJson, exact_grouping hgrouping]
        using ⟨hargs, hordering⟩
  | fork q =>
      simp only [Kind.children, List.forall_mem_append, List.forall_mem_cons,
        List.forall_mem_flatMap] at h
      obtain ⟨⟨⟨hresult, hjoining⟩, hlod⟩, hshifts⟩ := h
      have hjoining : ∀ c ∈ q.joining, Exact c.toJson := fun c hc =>
        exact_joinCondition (hjoining c hc)
      have hshifts : ∀ s ∈ q.shifts, Exact s.toJson := fun s hs =>
        exact_filterShift (hshifts s hs)
      simpa [Kind.toJson, Json.tag, Fork.toJson, JoinType.toJson, hresult, exact_lod hlod]
        using ⟨hjoining, hshifts⟩
  | ifBlock bs e =>
      simp only [Kind.children, List.forall_mem_append, List.forall_mem_flatMap,
        List.forall_mem_singleton] at h
      obtain ⟨hbranches, he⟩ := h
      simpa [Kind.toJson, Json.tag, he] using fun b hb => exact_branch (hbranches b hb)
  | caseBlock s bs e =>
      simp only [Kind.children, List.forall_mem_append, List.forall_mem_cons,
        List.forall_mem_flatMap] at h
      obtain ⟨⟨hs, hbranches⟩, he⟩ := h
      simpa [Kind.toJson, Json.tag, hs, he] using fun b hb => exact_branch (hbranches b hb)
  | _ => simp_all [Kind.toJson, Kind.children, Json.tag, Direction.toJson]

end Parts

/-! ## Notes and trees -/

theorem exact_notes {n : Notes} {m : String × Json} (hm : m ∈ n.members) : Exact m.2 := by
  obtain ⟨level, span⟩ := n
  cases level <;> cases span <;>
    simp_all [Notes.members, Json.present, LevelTag.toJson, Span.toJson]

namespace Formula

theorem toJson_eq (f : Formula) :
    f.toJson = .obj (("kind", (f.kind.map toJson).toJson) :: f.notes.members) :=
  recur_eq _ f

/-- No literal in the formula is made of doubles. -/
def HoldsNoDouble (f : Formula) : Prop :=
  ∀ g ∈ f.nodes, ∀ l, g.kind = .literal l → l.HoldsNoDouble

/-- A formula without doubles is written as an exact value. -/
theorem exact_toJson {f : Formula} (h : f.HoldsNoDouble) : Exact f.toJson := by
  induction f using induction_children with
  | step f ih =>
      have hchildren : ∀ j ∈ (f.kind.map toJson).children, Exact j := by
        rw [Kind.children_map, List.forall_mem_map]
        exact fun c hc => ih c hc fun g hg => h g (mem_nodes_of_child hc hg)
      have hliteral : ∀ l, f.kind.map toJson = .literal l → l.HoldsNoDouble := by
        intro l hl
        refine h f (self_mem_nodes f) l ?_
        cases hk : f.kind <;> rw [hk] at hl <;> cases hl
        rfl
      rw [toJson_eq, Json.exact_obj_iff, List.forall_mem_cons]
      exact ⟨exact_kind hchildren hliteral, fun m hm => exact_notes hm⟩

end Formula

end FormulaSql
