import FormulaSql.Proofs.Formula.Nodes
import FormulaSql.Split.Mask

/-!
# Fresh names

Planning a cut threads two supplies of numbered names. A step never gives a name back, so the names
it hands out lie in the interval between the supplies before it and after it. `Naming.Ensures` is
the triple for such steps: its condition sees the names before, the names after and the result.
-/

namespace FormulaSql.Split

/-! ## Numbered names -/

theorem toString_injective {m n : Nat} (h : toString m = toString n) : m = n := by
  have hdigits : Nat.toDigits 10 m = Nat.toDigits 10 n := by
    rw [← Nat.toList_repr, ← Nat.toList_repr]
    exact congrArg String.toList h
  rw [← Nat.ofDigitChars_ten_toDigits (n := m), hdigits, Nat.ofDigitChars_ten_toDigits]

theorem numbered_injective {stem : String} {m n : Nat}
    (h : stem ++ toString m = stem ++ toString n) : m = n :=
  toString_injective ((String.append_right_inj stem).mp h)

/-- A name that does not begin with the stem is not numbered. -/
theorem ne_numbered {stem n : String} (k : Nat)
    (h : n.toList.take stem.toList.length ≠ stem.toList) : n ≠ stem ++ toString k := by
  rintro rfl
  rw [String.toList_append, List.take_left] at h
  exact h rfl

/-- Some names were taken between `a` and `b`. -/
structure Names.Le (a b : Names) : Prop where
  columnStem : b.columns.stem = a.columns.stem
  columnNext : a.columns.next ≤ b.columns.next
  queryStem : b.queries.stem = a.queries.stem
  queryNext : a.queries.next ≤ b.queries.next

namespace Names.Le

theorem refl (a : Names) : a.Le a := ⟨rfl, Nat.le_refl _, rfl, Nat.le_refl _⟩

theorem trans {a b c : Names} (h : a.Le b) (h' : b.Le c) : a.Le c :=
  ⟨h'.columnStem.trans h.columnStem, Nat.le_trans h.columnNext h'.columnNext,
    h'.queryStem.trans h.queryStem, Nat.le_trans h.queryNext h'.queryNext⟩

end Names.Le

/-- The column name was taken between `a` and `b`. -/
def FreshColumn (a b : Names) (n : String) : Prop :=
  ∃ k, a.columns.next ≤ k ∧ k < b.columns.next ∧ n = a.columns.stem ++ toString k

/-- The name of a sub-query was taken between `a` and `b`. -/
def FreshQuery (a b : Names) (n : String) : Prop :=
  ∃ k, a.queries.next ≤ k ∧ k < b.queries.next ∧ n = a.queries.stem ++ toString k

theorem FreshColumn.widen {a b c d : Names} {n : String} (hab : a.Le b) (hcd : c.Le d)
    (h : FreshColumn b c n) : FreshColumn a d n := by
  obtain ⟨k, hk, hk', rfl⟩ := h
  exact ⟨k, Nat.le_trans hab.columnNext hk, Nat.lt_of_lt_of_le hk' hcd.columnNext,
    by rw [hab.columnStem]⟩

theorem FreshQuery.widen {a b c d : Names} {n : String} (hab : a.Le b) (hcd : c.Le d)
    (h : FreshQuery b c n) : FreshQuery a d n := by
  obtain ⟨k, hk, hk', rfl⟩ := h
  exact ⟨k, Nat.le_trans hab.queryNext hk, Nat.lt_of_lt_of_le hk' hcd.queryNext,
    by rw [hab.queryStem]⟩

/-- Names taken one after another differ. -/
theorem FreshQuery.ne {a b c : Names} {m n : String} (hab : a.Le b)
    (hm : FreshQuery a b m) (hn : FreshQuery b c n) : m ≠ n := by
  obtain ⟨k, -, hk, rfl⟩ := hm
  obtain ⟨l, hl, -, rfl⟩ := hn
  rw [hab.queryStem]
  intro heq
  have := numbered_injective heq
  omega

/-! ## Triples -/

namespace Naming

variable {α β : Type}

/-- From any names on, the step gives names back to nobody, and its result is as described. -/
def Ensures (x : Naming α) (P : Names → Names → α → Prop) : Prop :=
  ∀ a, a.Le (x a).2 ∧ P a (x a).2 (x a).1

/-- The description still holds when more names are taken before or after. -/
def Wide (P : Names → Names → α → Prop) : Prop :=
  ∀ a b c d v, a.Le b → c.Le d → P b c v → P a d v

theorem Ensures.imp {x : Naming α} {P P' : Names → Names → α → Prop} (h : Ensures x P)
    (himp : ∀ a b v, P a b v → P' a b v) : Ensures x P' :=
  fun a => ⟨(h a).1, himp _ _ _ (h a).2⟩

theorem Ensures.bind {x : Naming α} {f : α → Naming β} {P : Names → Names → α → Prop}
    {R : Names → Names → β → Prop} (hx : Ensures x P)
    (hf : ∀ a b v, a.Le b → P a b v → b.Le (f v b).2 ∧ R a (f v b).2 (f v b).1) :
    Ensures (x >>= f) R := by
  intro a
  obtain ⟨hle, hP⟩ := hx a
  obtain ⟨hle', hR⟩ := hf a _ _ hle hP
  exact ⟨hle.trans hle', hR⟩

theorem mapM_nil_apply (f : α → Naming β) (a : Names) : ([].mapM f : Naming (List β)) a = ([], a) :=
  rfl

theorem mapM_cons_apply (f : α → Naming β) (x : α) (xs : List α) (a : Names) :
    ((x :: xs).mapM f : Naming (List β)) a =
      ((f x a).1 :: (xs.mapM f (f x a).2).1, (xs.mapM f (f x a).2).2) := by
  rw [List.mapM_cons]
  rfl

theorem ensures_mapM {f : α → Naming β} {xs : List α} {P : α → Names → Names → β → Prop}
    (hwide : ∀ x, Wide (P x)) (hf : ∀ x ∈ xs, Ensures (f x) (P x)) :
    Ensures (xs.mapM f) fun a b ys => List.Forall₂ (fun x y => P x a b y) xs ys := by
  induction xs with
  | nil => exact fun a => ⟨Names.Le.refl a, .nil⟩
  | cons x xs ih =>
      intro a
      obtain ⟨hle, hP⟩ := hf x List.mem_cons_self a
      obtain ⟨hle', hPs⟩ := ih (fun y hy => hf y (List.mem_cons_of_mem x hy)) (f x a).2
      rw [mapM_cons_apply]
      refine ⟨hle.trans hle', .cons ?_ ?_⟩
      · exact hwide x _ _ _ _ _ (Names.Le.refl a) hle' hP
      · exact hPs.imp fun y v hv => hwide y _ _ _ _ _ hle (Names.Le.refl _) hv

theorem foldlM_cons_apply (f : β → α → Naming β) (acc : β) (x : α) (xs : List α) (a : Names) :
    (x :: xs).foldlM f acc a = xs.foldlM f (f acc x a).1 (f acc x a).2 := by
  rw [List.foldlM_cons]
  rfl

/-- An invariant of the members done so far and the accumulator, kept by every step, holds of all
members at the end. -/
theorem ensures_foldlM {f : β → α → Naming β} {I : List α → Names → Names → β → Prop}
    {xs : List α}
    (hf : ∀ done, ∀ x ∈ xs, ∀ a b acc, a.Le b → I done a b acc →
      b.Le (f acc x b).2 ∧ I (done ++ [x]) a (f acc x b).2 (f acc x b).1)
    (done : List α) {acc : β} {a b : Names} (hab : a.Le b) (h : I done a b acc) :
    b.Le (xs.foldlM f acc b).2 ∧
      I (done ++ xs) a (xs.foldlM f acc b).2 (xs.foldlM f acc b).1 := by
  induction xs generalizing done acc b with
  | nil => exact ⟨Names.Le.refl b, by rwa [List.append_nil]⟩
  | cons x xs ih =>
      obtain ⟨hle, hI⟩ := hf done x List.mem_cons_self a b acc hab h
      rw [foldlM_cons_apply, List.append_cons]
      obtain ⟨hle', hI'⟩ :=
        ih (fun d y hy => hf d y (List.mem_cons_of_mem x hy)) _ (hab.trans hle) hI
      exact ⟨hle.trans hle', hI'⟩

/-- Members that each take the name of a sub-query get different ones. -/
theorem mapM_queries_nodup {f : α → Naming β} {view : β → String}
    (hf : ∀ x, Ensures (f x) fun a b y => FreshQuery a b (view y)) (xs : List α) (a : Names) :
    ((xs.mapM f a).1.map view).Nodup ∧
      ∀ n ∈ (xs.mapM f a).1.map view, FreshQuery a (xs.mapM f a).2 n := by
  have hwide : ∀ x : α, Wide fun a b y => FreshQuery a b (view y) :=
    fun _ _ _ _ _ _ hab hcd h => h.widen hab hcd
  induction xs generalizing a with
  | nil => simp [mapM_nil_apply]
  | cons x xs ih =>
      obtain ⟨hle, hfresh⟩ := hf x a
      have hle' : (f x a).2.Le (xs.mapM f (f x a).2).2 :=
        (ensures_mapM hwide (fun y _ => hf y) _).1
      obtain ⟨hnodup, hall⟩ := ih (f x a).2
      rw [mapM_cons_apply, List.map_cons]
      refine ⟨List.nodup_cons.mpr ⟨fun hmem => ?_, hnodup⟩, ?_⟩
      · exact hfresh.ne hle (hall _ hmem) rfl
      · intro n hn
        rcases List.mem_cons.mp hn with rfl | hn
        · exact hfresh.widen (Names.Le.refl a) hle'
        · exact (hall n hn).widen hle (Names.Le.refl _)

end Naming

theorem freshColumn_ensures : Naming.Ensures freshColumn FreshColumn :=
  fun a => ⟨⟨rfl, Nat.le_succ _, rfl, Nat.le_refl _⟩,
    a.columns.next, Nat.le_refl _, Nat.lt_succ_self _, rfl⟩

theorem freshQuery_ensures : Naming.Ensures freshQuery FreshQuery :=
  fun a => ⟨⟨rfl, Nat.le_refl _, rfl, Nat.le_succ _⟩,
    a.queries.next, Nat.le_refl _, Nat.lt_succ_self _, rfl⟩

end FormulaSql.Split
