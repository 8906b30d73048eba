import FormulaSql.Proofs.Data.Outcomes
import FormulaSql.Proofs.Formula.Rewriting
import FormulaSql.Proofs.Function.Grades

/-!
# Writers and their arguments

A writer can fail: for a missing argument, for a comparison with NULL, or where it needs to read a
literal. It still succeeds after its arguments have firmed, that is after they have become constants
or literals of the types that they had. What it writes is never a literal that other writers read.

* `Function.lenient_catalogue` says so for all definitions
-/

namespace FormulaSql

/-! ## Arguments -/

/-- The expression is no literal that a writer reads. -/
def Sql.Unread (e : Sql) : Prop := e.lowerText? = none ∧ e.int? = none

/-- What can be read of one expression can be read of the other. -/
def Sql.Keeps (e e' : Sql) : Prop :=
  (∀ t, e.lowerText? = some t → e'.lowerText? = some t) ∧ ∀ n, e.int? = some n → e'.int? = some n

theorem Sql.Unread.keeps {e : Sql} (h : e.Unread) (e' : Sql) : e.Keeps e' :=
  ⟨fun t ht => absurd ht (by simp [h.1]), fun n hn => absurd hn (by simp [h.2])⟩

namespace TypedSql

variable {a b c : TypedSql}

/-- An expression of a type that has firmed, and of which as much can be read. -/
def FirmsTo (a b : TypedSql) : Prop := a.type.FirmsTo b.type ∧ a.sql.Keeps b.sql

theorem FirmsTo.refl (a : TypedSql) : a.FirmsTo a := ⟨.refl _, fun _ => id, fun _ => id⟩

theorem FirmsTo.trans (h : a.FirmsTo b) (h' : b.FirmsTo c) : a.FirmsTo c :=
  ⟨h.1.trans h'.1, fun t ht => h'.2.1 t (h.2.1 t ht), fun n hn => h'.2.2 n (h.2.2 n hn)⟩

end TypedSql

namespace Emit

/-! ## Readers -/

/-- What is computed from arguments is still computed after they have firmed. -/
def Persists {β : Type} (F : List TypedSql → Except FormulaError β) : Prop :=
  ∀ as bs, List.Forall₂ TypedSql.FirmsTo as bs → ∀ x, F as = .ok x → ∃ y, F bs = .ok y

/-- The same is computed after the arguments have firmed. -/
def Endures {β : Type} (F : List TypedSql → Except FormulaError β) : Prop :=
  ∀ as bs, List.Forall₂ TypedSql.FirmsTo as bs → ∀ x, F as = .ok x → F bs = .ok x

section Readers

variable {β γ : Type} {F : List TypedSql → Except FormulaError β}

theorem Endures.persists (h : Endures F) : Persists F := fun as bs has x hx => ⟨x, h as bs has x hx⟩

/-- Each argument is missing on both sides or has firmed. -/
theorem getElem?_firms {as bs : List TypedSql} (h : List.Forall₂ TypedSql.FirmsTo as bs) (i : Nat) :
    (as[i]? = none ∧ bs[i]? = none) ∨ ∃ a b, as[i]? = some a ∧ bs[i]? = some b ∧ a.FirmsTo b := by
  induction h generalizing i with
  | nil => exact Or.inl ⟨rfl, rfl⟩
  | @cons a b as bs hab _ ih =>
      cases i with
      | zero => exact Or.inr ⟨a, b, rfl, rfl, hab⟩
      | succ i => exact ih i

theorem persists_arg (i : Nat) : Persists fun args => arg args i := by
  intro as bs h x hx
  rcases getElem?_firms h i with ⟨ha, -⟩ | ⟨a, b, -, hb, -⟩
  · exact absurd hx (by simp [arg, ha])
  · exact ⟨b.sql, by simp [arg, hb]⟩

theorem endures_const (r : Except FormulaError β) : Endures fun _ => r := fun _ _ _ _ hx => hx

theorem Endures.bind {G : β → List TypedSql → Except FormulaError γ} (hF : Endures F)
    (hG : ∀ x, Endures (G x)) : Endures fun args => F args >>= fun x => G x args := by
  intro as bs h y hy
  obtain ⟨x, hx, hy⟩ := bind_eq_ok.mp hy
  exact bind_eq_ok.mpr ⟨x, hF as bs h x hx, hG x as bs h y hy⟩

theorem Endures.bind_persists {G : β → List TypedSql → Except FormulaError γ} (hF : Endures F)
    (hG : ∀ x, Persists (G x)) : Persists fun args => F args >>= fun x => G x args := by
  intro as bs h y hy
  obtain ⟨x, hx, hy⟩ := bind_eq_ok.mp hy
  obtain ⟨y', hy'⟩ := hG x as bs h y hy
  exact ⟨y', bind_eq_ok.mpr ⟨x, hF as bs h x hx, hy'⟩⟩

/-- It does not matter which error there would be. -/
theorem Endures.mapError (hF : Endures F) (g : FormulaError → FormulaError) :
    Endures fun args => (F args).mapError g := by
  intro as bs h x hx
  dsimp only at hx ⊢
  cases hF' : F as with
  | error e => simp [hF', Except.mapError] at hx
  | ok y =>
      rw [hF'] at hx
      rw [hF as bs h y hF']
      exact hx

theorem Persists.map {g : List TypedSql → β → γ} (hF : Persists F) :
    Persists fun args => do return g args (← F args) := by
  intro as bs h _ hy
  obtain ⟨x, hx, -⟩ := bind_eq_ok.mp hy
  obtain ⟨x', hx'⟩ := hF as bs h x hx
  exact ⟨_, bind_eq_ok.mpr ⟨x', hx', rfl⟩⟩

end Readers

/-! ## Writers -/

/-- The writer still succeeds after its arguments have firmed, and what it writes is not read. -/
structure Lenient (w : Writer) : Prop where
  persists : Persists w
  unread : ∀ args e, w args = .ok e → e.Unread

section Lenient

variable {β γ δ : Type} {F : List TypedSql → Except FormulaError β}
  {G : List TypedSql → Except FormulaError γ} {H : List TypedSql → Except FormulaError δ}

theorem lenient_pure {g : List TypedSql → Sql} (hg : ∀ args, (g args).Unread) :
    Lenient fun args => .ok (g args) where
  persists _ bs _ _ _ := ⟨g bs, rfl⟩
  unread args _ h := Except.ok.inj h ▸ hg args

theorem lenient_one {g : List TypedSql → β → Sql} (hF : Persists F)
    (hg : ∀ args x, (g args x).Unread) :
    Lenient fun args => do return g args (← F args) where
  persists as bs h _ he := by
    obtain ⟨x, hx, -⟩ := bind_eq_ok.mp he
    obtain ⟨x', hx'⟩ := hF as bs h x hx
    exact ⟨_, bind_eq_ok.mpr ⟨x', hx', rfl⟩⟩
  unread args e he := by
    obtain ⟨x, -, he⟩ := bind_eq_ok.mp he
    exact Except.ok.inj he ▸ hg args x

theorem lenient_two {g : List TypedSql → β → γ → Sql} (hF : Persists F) (hG : Persists G)
    (hg : ∀ args x y, (g args x y).Unread) :
    Lenient fun args => do return g args (← F args) (← G args) where
  persists as bs h _ he := by
    obtain ⟨x, hx, he⟩ := bind_eq_ok.mp he
    obtain ⟨y, hy, -⟩ := bind_eq_ok.mp he
    obtain ⟨x', hx'⟩ := hF as bs h x hx
    obtain ⟨y', hy'⟩ := hG as bs h y hy
    exact ⟨_, bind_eq_ok.mpr ⟨x', hx', bind_eq_ok.mpr ⟨y', hy', rfl⟩⟩⟩
  unread args e he := by
    obtain ⟨x, -, he⟩ := bind_eq_ok.mp he
    obtain ⟨y, -, he⟩ := bind_eq_ok.mp he
    exact Except.ok.inj he ▸ hg args x y

theorem lenient_three {g : List TypedSql → β → γ → δ → Sql} (hF : Persists F) (hG : Persists G)
    (hH : Persists H) (hg : ∀ args x y z, (g args x y z).Unread) :
    Lenient fun args => do return g args (← F args) (← G args) (← H args) where
  persists as bs h _ he := by
    obtain ⟨x, hx, he⟩ := bind_eq_ok.mp he
    obtain ⟨y, hy, he⟩ := bind_eq_ok.mp he
    obtain ⟨z, hz, -⟩ := bind_eq_ok.mp he
    obtain ⟨x', hx'⟩ := hF as bs h x hx
    obtain ⟨y', hy'⟩ := hG as bs h y hy
    obtain ⟨z', hz'⟩ := hH as bs h z hz
    exact ⟨_, bind_eq_ok.mpr ⟨x', hx', bind_eq_ok.mpr ⟨y', hy', bind_eq_ok.mpr ⟨z', hz', rfl⟩⟩⟩⟩
  unread args e he := by
    obtain ⟨x, -, he⟩ := bind_eq_ok.mp he
    obtain ⟨y, -, he⟩ := bind_eq_ok.mp he
    obtain ⟨z, -, he⟩ := bind_eq_ok.mp he
    exact Except.ok.inj he ▸ hg args x y z

end Lenient

section General

@[simp]
theorem lenient_call (name : String) : Lenient (call name) :=
  lenient_pure fun _ => ⟨rfl, rfl⟩

@[simp]
theorem lenient_infixOp (op : String) : Lenient (infixOp op) :=
  lenient_two (persists_arg 0) (persists_arg 1) fun _ _ _ => ⟨rfl, rfl⟩

@[simp]
theorem lenient_prefixOp (op : String) : Lenient (prefixOp op) :=
  lenient_one (persists_arg 0) fun _ _ => ⟨rfl, rfl⟩

@[simp]
theorem lenient_cast (type : String) : Lenient (cast type) :=
  lenient_one (persists_arg 0) fun _ _ => ⟨rfl, rfl⟩

@[simp]
theorem lenient_notGrouped {w : Writer} (hw : Lenient w) : Lenient (notGrouped w) :=
  lenient_one hw.persists fun _ _ => ⟨rfl, rfl⟩

end General

end Emit

namespace Function

open Emit

/-! ### Operators -/

@[simp]
theorem lenient_comparison (op : String) : Lenient (comparison op) where
  persists as bs h e he := by
    have hnull : (bs.any fun b => b.type.isNull) = as.any fun a => a.type.isNull := by
      clear he
      induction h with
      | nil => rfl
      | cons hab _ ih => rw [List.any_cons, List.any_cons, hab.1.isNull_eq, ih]
    unfold comparison at he ⊢
    rw [hnull]
    split at he
    · exact absurd he (by simp)
    next hnone =>
      rw [if_neg hnone]
      exact (lenient_infixOp op).persists as bs h e he
  unread args e he := by
    unfold comparison at he
    split at he
    · exact absurd he (by simp)
    · exact (lenient_infixOp op).unread args e he

@[simp]
theorem lenient_nullSafeEq : Lenient nullSafeEq :=
  lenient_two (persists_arg 0) (persists_arg 1) fun _ _ _ => ⟨rfl, rfl⟩

@[simp]
theorem lenient_shiftDays (op : String) : Lenient (shiftDays op) :=
  lenient_two (persists_arg 1) (persists_arg 0) fun _ _ _ => ⟨rfl, rfl⟩

@[simp]
theorem lenient_daysBetween : Lenient daysBetween :=
  lenient_two (persists_arg 1) (persists_arg 0) fun _ _ _ => ⟨rfl, rfl⟩

@[simp]
theorem lenient_floatDivision : Lenient floatDivision :=
  lenient_two (persists_arg 0) (persists_arg 1) fun _ _ _ => ⟨rfl, rfl⟩

@[simp]
theorem lenient_membership (negated : Bool) : Lenient (membership negated) := by
  have heq : membership negated = fun args => do
      let item ← arg args 0
      let list ← arg args 1
      return if (listItems list).isEmpty then .literal (.boolean negated)
        else .inList item (listItems list) negated := by
    funext args
    simp only [membership, apply_ite, pure]
  rw [heq]
  refine lenient_two (persists_arg 0) (persists_arg 1) fun _ item list => ?_
  split <;> exact ⟨rfl, rfl⟩

@[simp]
theorem lenient_betweenBounds (negated : Bool) : Lenient (betweenBounds negated) :=
  lenient_three (persists_arg 0) (persists_arg 1) (persists_arg 2) fun _ _ _ _ => ⟨rfl, rfl⟩

/-! ### Conditionals -/

@[simp]
theorem lenient_conditional : Lenient conditional where
  persists as bs h e he := by
    unfold conditional at he ⊢
    rw [← h.length_eq]
    split at he
    · exact absurd he (by simp)
    next hcount => exact ⟨_, if_neg hcount⟩
  unread args e he := by
    unfold conditional at he
    split at he
    · exact absurd he (by simp)
    · exact Except.ok.inj he ▸ ⟨rfl, rfl⟩

@[simp]
theorem lenient_selection : Lenient selection where
  persists as bs h e he := by
    cases h with
    | nil => exact absurd he (by simp [selection, exprs])
    | @cons a b as bs _ h =>
        simp only [selection, exprs, List.map_cons, List.length_cons, ← h.length_eq] at he ⊢
        split at he
        · exact absurd he (by simp)
        next hcount => exact ⟨_, if_neg hcount⟩
  unread args e he := by
    unfold selection at he
    split at he
    · split at he
      · exact absurd he (by simp)
      · exact Except.ok.inj he ▸ ⟨rfl, rfl⟩
    · exact absurd he (by simp)

/-! ### Aggregations -/

@[simp]
theorem lenient_averageDate : Lenient averageDate :=
  lenient_one (persists_arg 0) fun _ _ => ⟨rfl, rfl⟩

@[simp]
theorem lenient_averageDateClickhouse : Lenient averageDateClickhouse :=
  lenient_one (persists_arg 0) fun _ _ => ⟨rfl, rfl⟩

@[simp]
theorem lenient_countRows : Lenient countRows := by
  have heq : countRows = fun args =>
      .ok (.func "COUNT" (if args.isEmpty then [.raw "*"] else exprs args)) := by
    funext args
    unfold countRows
    split <;> rfl
  rw [heq]
  exact lenient_pure fun _ => ⟨rfl, rfl⟩

@[simp]
theorem lenient_countDistinct : Lenient countDistinct := lenient_pure fun _ => ⟨rfl, rfl⟩

@[simp]
theorem lenient_medianWithinGroup : Lenient medianWithinGroup :=
  lenient_one (persists_arg 0) fun _ _ => ⟨rfl, rfl⟩

@[simp]
theorem lenient_aggregateWhere (name : String) : Lenient (aggregateWhere name) :=
  lenient_two (persists_arg 0) (persists_arg 1) fun _ _ _ => ⟨rfl, rfl⟩

@[simp]
theorem lenient_countWhere : Lenient countWhere :=
  lenient_one (persists_arg 0) fun _ _ => ⟨rfl, rfl⟩

/-! ### Lookups -/

@[simp]
theorem lenient_neverWritten : Lenient neverWritten where
  persists _ _ _ _ he := absurd he (by simp [neverWritten])
  unread _ _ he := absurd he (by simp [neverWritten])

/-! ### Texts -/

@[simp]
theorem lenient_matchesPiece (openStart openEnd : Bool) : Lenient (matchesPiece openStart openEnd) :=
  lenient_two (persists_arg 0) (persists_arg 1) fun _ _ _ => ⟨rfl, rfl⟩

@[simp]
theorem lenient_positionIsFound : Lenient positionIsFound :=
  lenient_two (persists_arg 0) (persists_arg 1) fun _ _ _ => ⟨rfl, rfl⟩

/-! ### Dates -/

theorem endures_unitArg (i : Nat) : Endures fun args => unitArg args i := by
  intro as bs h x hx
  dsimp only [unitArg] at hx ⊢
  rcases getElem?_firms h i with ⟨ha, hb⟩ | ⟨a, b, ha, hb, hab⟩
  · rwa [hb, ← ha]
  · rw [ha] at hx
    rw [hb]
    cases ht : a.sql.lowerText? with
    | none => simp [ht] at hx
    | some t => simpa [ht, hab.2.1 t ht] using hx

theorem persists_dateShift : Persists dateShift := by
  intro as bs h x hx
  obtain ⟨value, hvalue, hx⟩ := bind_eq_ok.mp hx
  obtain ⟨value', hvalue'⟩ := persists_arg 0 as bs h value hvalue
  have hdays : ((bs[1]?.filter fun b => b.type.base == .integer).isSome) =
      (as[1]?.filter fun a => a.type.base == .integer).isSome := by
    rcases getElem?_firms h 1 with ⟨ha, hb⟩ | ⟨a, b, ha, hb, hab⟩
    · rw [ha, hb]
    · rw [ha, hb]
      simp [Option.filter, hab.1.1, apply_ite]
  dsimp only at hx
  cases ha : as[1]?.filter fun a => a.type.base == .integer with
  | some a =>
      rw [ha] at hdays
      obtain ⟨b, hb⟩ := Option.isSome_iff_exists.mp hdays
      exact ⟨⟨value', .day, b.sql⟩, bind_eq_ok.mpr ⟨value', hvalue', by simp only [hb]; rfl⟩⟩
  | none =>
      rw [ha] at hdays hx
      dsimp only at hx
      have hb : (bs[1]?.filter fun b => b.type.base == .integer) = none := by
        rw [← Option.not_isSome_iff_eq_none, hdays]
        simp
      obtain ⟨u, hu, -⟩ := bind_eq_ok.mp hx
      refine ⟨⟨value', u, numberArg bs 2⟩, bind_eq_ok.mpr ⟨value', hvalue', ?_⟩⟩
      simp only [hb]
      exact bind_eq_ok.mpr ⟨u, endures_unitArg 1 as bs h u hu, rfl⟩

@[simp]
theorem lenient_shiftByInterval : Lenient shiftByInterval :=
  lenient_one persists_dateShift fun _ _ => ⟨rfl, rfl⟩

@[simp]
theorem lenient_shiftClickhouse : Lenient shiftClickhouse :=
  lenient_one persists_dateShift fun _ _ => ⟨rfl, rfl⟩

@[simp]
theorem lenient_shiftMssql : Lenient shiftMssql :=
  lenient_one persists_dateShift fun _ _ => ⟨rfl, rfl⟩

@[simp]
theorem lenient_truncate : Lenient truncate :=
  lenient_two (endures_unitArg 1).persists (persists_arg 0) fun _ _ _ => ⟨rfl, rfl⟩

@[simp]
theorem lenient_truncateClickhouse : Lenient truncateClickhouse :=
  lenient_two (endures_unitArg 1).persists (persists_arg 0) fun _ _ _ => ⟨rfl, rfl⟩

@[simp]
theorem lenient_extractPart (part : String) : Lenient (extractPart part) :=
  lenient_one (persists_arg 0) fun _ _ => ⟨rfl, rfl⟩

/-! ### Arrays -/

theorem constArray_eq {α : Type} (item : Literal → Option α) (make : List α → Literal)
    (args : List TypedSql) : constArray item make args = .ok (((literalItems item args).map
      fun items => .literal (make items)).getD (.array (exprs args))) := by
  unfold constArray
  cases literalItems item args <;> rfl

theorem lenient_constArray {α : Type} {item : Literal → Option α} {make : List α → Literal}
    (hmake : ∀ items, (Sql.literal (make items)).Unread) : Lenient (constArray item make) := by
  rw [funext (constArray_eq item make)]
  refine lenient_pure fun args => ?_
  cases literalItems item args with
  | none => exact ⟨rfl, rfl⟩
  | some items => exact hmake items

@[simp]
theorem lenient_hasItem : Lenient hasItem :=
  lenient_two (persists_arg 1) (persists_arg 0) fun _ _ _ => ⟨rfl, rfl⟩

@[simp]
theorem lenient_hasNoItemClickhouse : Lenient hasNoItemClickhouse :=
  lenient_one (lenient_call "has").persists fun _ _ => ⟨rfl, rfl⟩

@[simp]
theorem lenient_subscript : Lenient subscript :=
  lenient_two (persists_arg 0) (persists_arg 1) fun _ _ _ => ⟨rfl, rfl⟩

@[simp]
theorem lenient_joinItems : Lenient joinItems :=
  lenient_one (persists_arg 0) fun _ _ => ⟨rfl, rfl⟩

@[simp]
theorem lenient_joinItemsClickhouse : Lenient joinItemsClickhouse :=
  lenient_one (persists_arg 0) fun _ _ => ⟨rfl, rfl⟩

/-! ### Windows -/

theorem endures_directionArg (default : String) :
    Endures fun args => directionArg args default := by
  intro as bs h x hx
  dsimp only [directionArg] at hx ⊢
  rcases getElem?_firms h 1 with ⟨ha, hb⟩ | ⟨a, b, ha, hb, hab⟩
  · rwa [hb, ← ha]
  · rw [ha] at hx
    rw [hb]
    cases ht : a.sql.lowerText? with
    | none => simp [ht, invalidParam] at hx
    | some t => simpa [ht, hab.2.1 t ht] using hx

theorem endures_rowsArg (i : Nat) : Endures fun args => rowsArg args i := by
  intro as bs h x hx
  dsimp only [rowsArg] at hx ⊢
  rcases getElem?_firms h i with ⟨ha, hb⟩ | ⟨a, b, ha, hb, hab⟩
  · rwa [hb, ← ha]
  · rw [ha] at hx
    rw [hb]
    cases hn : a.sql.int? with
    | none => simp [hn, invalidParam] at hx
    | some n => simpa [hn, hab.2.2 n hn] using hx

theorem endures_stretchingFrame : Endures stretchingFrame :=
  (endures_directionArg "asc").bind fun _ => endures_const _

theorem endures_movingFrame : Endures movingFrame :=
  (endures_rowsArg 1).bind fun first => by
    cases first with
    | none => exact endures_const _
    | some first => exact (endures_rowsArg 2).bind fun _ => endures_const _

theorem persists_rankOrder : Persists rankOrder := by
  have horder (descending : Bool) : Persists fun args => do
      return [Sql.ordered (← arg args 0) descending] := (persists_arg 0).map
  unfold rankOrder
  refine (endures_directionArg "desc").bind_persists fun direction => ?_
  dsimp only
  split
  · exact horder false
  · exact horder false
  · exact horder true
  · exact horder true
  · exact (endures_const _).persists

@[simp]
theorem lenient_wholeWindow (name : String) : Lenient (wholeWindow name) :=
  lenient_pure fun _ => ⟨rfl, rfl⟩

@[simp]
theorem lenient_countWindow : Lenient countWindow := by
  have heq : countWindow = fun args => .ok (framed
      (.func "COUNT" (if args.isEmpty then [.raw "*"] else exprs args)) (some .full)) := by
    funext args
    unfold countWindow
    split <;> rfl
  rw [heq]
  exact lenient_pure fun _ => ⟨rfl, rfl⟩

@[simp]
theorem lenient_overStretchingFrame (name : String) : Lenient (overFrame stretchingFrame name) :=
  lenient_two endures_stretchingFrame.persists (persists_arg 0) fun _ _ _ => ⟨rfl, rfl⟩

@[simp]
theorem lenient_overMovingFrame (name : String) : Lenient (overFrame movingFrame name) :=
  lenient_two endures_movingFrame.persists (persists_arg 0) fun _ _ _ => ⟨rfl, rfl⟩

@[simp]
theorem lenient_ranking (name : String) : Lenient (ranking name) :=
  lenient_one persists_rankOrder fun _ _ => ⟨rfl, rfl⟩

@[simp]
theorem lenient_neighbour : Lenient neighbour := by
  have heq : neighbour = fun args => do
      let offset ← rowsArg args 1 |>.mapError fun _ =>
        .unsupportedNode "offset must be a constant integer"
      let value ← arg args 0
      return framed (.func (if offset.getD 1 < 0 then "LEAD" else "LAG")
        ([value, .int (absolute (offset.getD 1))] ++ args[2]?.toList.map TypedSql.sql)) none := by
    funext args
    unfold neighbour rowsArg
    cases args[1]? with
    | none => rfl
    | some a => cases h : a.sql.int? <;> simp only [h] <;> rfl
  rw [heq]
  exact lenient_two ((endures_rowsArg 1).mapError _).persists (persists_arg 0)
    fun _ _ _ => ⟨rfl, rfl⟩

@[simp]
theorem lenient_endOfWindow (name : String) : Lenient (endOfWindow name) :=
  lenient_one (persists_arg 0) fun _ _ => ⟨rfl, rfl⟩

end Function

/-! ## Types of results -/

namespace ReturnType

variable {ts us : List DataType}

/-- The base type of the result depends on the base types of the arguments only. -/
def Blind (r : ReturnType) : Prop :=
  ∀ ts us, List.Forall₂ DataType.FirmsTo ts us → (r.base us).base = (r.base ts).base

theorem map_nonConst_eq (h : List.Forall₂ DataType.FirmsTo ts us) :
    us.map DataType.nonConst = ts.map DataType.nonConst := by
  induction h with
  | nil => rfl
  | cons htu _ ih =>
      rw [List.map_cons, List.map_cons, ih, DataType.nonConst, DataType.nonConst, htu.1]

@[simp]
theorem blind_fixed (t : DataType) : (fixed t).Blind := fun _ _ _ => rfl

theorem base_getElem? (h : List.Forall₂ DataType.FirmsTo ts us) (i : Nat) :
    ((us[i]?).getD (.plain .null)).base = ((ts[i]?).getD (.plain .null)).base := by
  induction h generalizing i with
  | nil => rfl
  | cons htu _ ih =>
      cases i with
      | zero => exact htu.1
      | succ i => exact ih i

@[simp]
theorem blind_ofArg (i : Nat) : (ofArg i).Blind := fun _ _ h => base_getElem? h i

@[simp]
theorem blind_ofArgWithParams (i : Nat) : (ofArgWithParams i).Blind :=
  fun _ _ h => base_getElem? h i

/-- The common type does not depend on constness. -/
theorem common_map_nonConst (ts : List DataType) :
    DataType.common (ts.map DataType.nonConst) = DataType.common ts := by
  have hidem : DataType.nonConst ∘ DataType.nonConst = DataType.nonConst := rfl
  rw [DataType.common, DataType.common, List.map_map, hidem]

theorem common_eq (h : List.Forall₂ DataType.FirmsTo ts us) :
    DataType.common us = DataType.common ts := by
  rw [← common_map_nonConst us, map_nonConst_eq h, common_map_nonConst]

theorem valueTypes_map (isValue : Nat → Bool) (g : DataType → DataType) (ts : List DataType) :
    Function.valueTypes isValue (ts.map g) = (Function.valueTypes isValue ts).map g := by
  rw [Function.valueTypes, Function.valueTypes, List.zipIdx_map, List.filter_map, List.map_map,
    List.map_map, List.length_map]
  rfl

theorem common_valueTypes_eq (h : List.Forall₂ DataType.FirmsTo ts us) (isValue : Nat → Bool) :
    DataType.common (Function.valueTypes isValue us) =
      DataType.common (Function.valueTypes isValue ts) := by
  rw [← common_map_nonConst, ← valueTypes_map, map_nonConst_eq h, valueTypes_map,
    common_map_nonConst]

@[simp]
theorem blind_common : (derived DataType.common).Blind :=
  fun _ _ h => congrArg (fun t => t.nonConst.base) (common_eq h)

@[simp]
theorem blind_ifType : (derived Function.ifType).Blind :=
  fun _ _ h => congrArg (fun t => t.nonConst.base) (common_valueTypes_eq h _)

@[simp]
theorem blind_caseType : (derived Function.caseType).Blind :=
  fun _ _ h => congrArg (fun t => t.nonConst.base) (common_valueTypes_eq h _)

@[simp]
theorem blind_itemType : (derived Function.itemType).Blind := by
  intro ts us h
  cases h with
  | nil => rfl
  | cons htu _ => simp [base, Function.itemType, htu.1]

end ReturnType

/-! ## The catalogue -/

/-- What is known of every definition: its writers are lenient, and its result does not depend on
constness. -/
structure Definition.Lenient (d : Definition) : Prop where
  returns : d.returns.Blind
  writers : ∀ v ∈ d.variants, Emit.Lenient v.emit

theorem Definition.lenient_iff {d : Definition} :
    d.Lenient ↔ d.returns.Blind ∧ ∀ v ∈ d.variants, Emit.Lenient v.emit :=
  ⟨fun h => ⟨h.returns, h.writers⟩, fun h => ⟨h.1, h.2⟩⟩

namespace Function

open Emit

theorem lenient_operators : ∀ d ∈ operators, d.Lenient := by
  simp [operators, comparisons, arithmetics, predicates, comparisonOperator, binaryOperator,
    unaryOperator, arithmetic, predicateOperator, membershipOperator, betweenOperator,
    Definition.lenient_iff, Variant.forAny, Variant.baseline, Variant.forClickhouse]

theorem lenient_logic : ∀ d ∈ logic, d.Lenient := by
  have hisNull : Lenient fun args => do return .isNull (← arg args 0) :=
    lenient_one (persists_arg 0) fun _ _ => ⟨rfl, rfl⟩
  have hzn : Lenient fun args => do return .func "COALESCE" [← arg args 0, .int 0] :=
    lenient_one (persists_arg 0) fun _ _ => ⟨rfl, rfl⟩
  simp [-bind_pure_comp, logic, ifFunction, caseFunction, logicalFunction, Definition.lenient_iff,
    Variant.forAny, hisNull, hzn]

theorem lenient_aggregations : ∀ d ∈ aggregations, d.Lenient := by
  simp [aggregations, aggregation, conditionalAggregation, Definition.lenient_iff, Variant.forAny,
    Variant.baseline, Variant.forClickhouse]

theorem lenient_mathematics : ∀ d ∈ mathematics, d.Lenient := by
  simp [mathematics, mathFunction, Definition.lenient_iff, Variant.forAny, Variant.baseline,
    Variant.forClickhouse]

theorem lenient_conversions : ∀ d ∈ conversions, d.Lenient := by
  simp [conversions, conversion, Definition.lenient_iff, Variant.baseline, Variant.forClickhouse]

theorem lenient_texts : ∀ d ∈ texts, d.Lenient := by
  have hconcat : Lenient fun args => .ok (.func "CONCAT" (asTexts args)) :=
    lenient_pure fun _ => ⟨rfl, rfl⟩
  have hconcatClickhouse : Lenient fun args =>
      .ok (.func "concat" (args.map fun a => .func "toString" [a.sql])) :=
    lenient_pure fun _ => ⟨rfl, rfl⟩
  simp [texts, textFunction, pieceTest, Definition.lenient_iff, Variant.forAny, Variant.baseline,
    Variant.forClickhouse, hconcat, hconcatClickhouse]

theorem lenient_dateFunctions : ∀ d ∈ dateFunctions, d.Lenient := by
  have hkeyword (keyword : String) : Lenient fun _ => .ok (.raw keyword) :=
    lenient_pure fun _ => ⟨rfl, rfl⟩
  have hcall (name : String) : Lenient fun _ => .ok (.func name []) :=
    lenient_pure fun _ => ⟨rfl, rfl⟩
  simp [dateFunctions, datePart, currentMoment, Definition.lenient_iff, Variant.baseline,
    Variant.forClickhouse, hkeyword, hcall]

theorem lenient_arrays : ∀ d ∈ arrays, d.Lenient := by
  have hints : Lenient (constArray intItem .arrayInt) := lenient_constArray fun _ => ⟨rfl, rfl⟩
  have hfloats : Lenient (constArray floatItem .arrayFloat) := lenient_constArray fun _ => ⟨rfl, rfl⟩
  have hstrs : Lenient (constArray strItem .arrayStr) := lenient_constArray fun _ => ⟨rfl, rfl⟩
  have harray : Lenient fun args => .ok (.array (exprs args)) := lenient_pure fun _ => ⟨rfl, rfl⟩
  simp [arrays, makeConstArray, makePlainArray, makeArray, arrayFunction, Definition.lenient_iff,
    Variant.baseline, Variant.forClickhouse, hints, hfloats, hstrs, harray]

theorem lenient_lookups : ∀ d ∈ lookups, d.Lenient := by
  simp [lookups, lookup, Definition.lenient_iff, Variant.forAny]

theorem lenient_windows : ∀ d ∈ windows, d.Lenient := by
  simp [windows, windowFunction, orderedFunction, runningFunction, movingFunction, rankFunction,
    Definition.lenient_iff, Variant.forAny]

theorem lenient_catalogue : ∀ d ∈ catalogue, d.Lenient := by
  simp only [catalogue, List.forall_mem_append]
  exact ⟨⟨⟨⟨⟨⟨⟨⟨⟨lenient_operators, lenient_logic⟩, lenient_aggregations⟩, lenient_mathematics⟩,
    lenient_conversions⟩, lenient_texts⟩, lenient_dateFunctions⟩, lenient_arrays⟩,
    lenient_lookups⟩, lenient_windows⟩

/-- No array fails to be written. -/
theorem exists_emit_array {d : Definition} (hd : d ∈ catalogue) (hname : d.name = "array")
    {v : Variant} (hv : v ∈ d.variants) (args : List TypedSql) : ∃ e, v.emit args = .ok e := by
  have hother : ∀ d ∈ operators ++ logic ++ aggregations ++ mathematics ++ conversions ++ texts ++
      dateFunctions ++ lookups ++ windows, d.name ≠ "array" := by decide +kernel
  have harrays : ∀ d ∈ arrays, d.name = "array" → ∀ v ∈ d.variants, ∃ e, v.emit args = .ok e := by
    simp [arrays, makeConstArray, makePlainArray, makeArray, arrayFunction, Variant.baseline,
      Variant.forClickhouse, constArray_eq, call]
  refine harrays d ?_ hname v hv
  by_contra hnot
  refine hother d ?_ hname
  simp only [catalogue, List.mem_append] at hd ⊢
  tauto

end Function

end FormulaSql
