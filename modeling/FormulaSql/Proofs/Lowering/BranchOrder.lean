import FormulaSql.Proofs.Simplify.Lowered
import Mathlib.Data.List.Perm.Basic

/-!
# Conditionals with reordered branches

The values of an IF or a CASE may have different types, which are joined in the order of the
branches. If they are compatible, the branches may be put into another order, and the values may
even change places with each other: what could be lowered can be lowered, and has the same type.

* `Lowering.dispatch_shuffled`: the function that a conditional is written through
* `Formula.lowersTo_reordered`: types in any order, and conditionals in any order
-/

namespace FormulaSql

/-! ## Branches in another order -/

section Branches

variable {α β : Type} {bs bs' : List (Branch α)} {e e' : α}

/-- The same tests and the same values in whatever order. The value otherwise is among the values. -/
structure Shuffled (bs : List (Branch α)) (e : α) (bs' : List (Branch α)) (e' : α) : Prop where
  tests : (bs'.map Branch.test).Perm (bs.map Branch.test)
  values : (bs'.map Branch.value ++ [e']).Perm (bs.map Branch.value ++ [e])

theorem Shuffled.symm (h : Shuffled bs e bs' e') : Shuffled bs' e' bs e :=
  ⟨h.tests.symm, h.values.symm⟩

theorem Shuffled.map (h : Shuffled bs e bs' e') (g : α → β) :
    Shuffled (bs.map (·.map g)) (g e) (bs'.map (·.map g)) (g e') := by
  have htests (bs : List (Branch α)) :
      (bs.map (·.map g)).map Branch.test = (bs.map Branch.test).map g := by
    rw [List.map_map, List.map_map]
    rfl
  refine ⟨?_, ?_⟩
  · rw [htests, htests]
    exact h.tests.map g
  · rw [← Function.map_values, ← Function.map_values]
    exact h.values.map g

theorem Shuffled.length_eq (h : Shuffled bs e bs' e') : bs'.length = bs.length := by
  simpa using h.tests.length_eq

theorem parts_perm (bs : List (Branch α)) (e : α) :
    (bs.flatMap Branch.parts ++ [e]).Perm (bs.map Branch.test ++ (bs.map Branch.value ++ [e])) := by
  induction bs with
  | nil => exact .refl _
  | cons b bs ih => exact ((ih.cons b.value).trans List.perm_middle.symm).cons b.test

theorem Shuffled.parts (h : Shuffled bs e bs' e') :
    (bs'.flatMap Branch.parts ++ [e']).Perm (bs.flatMap Branch.parts ++ [e]) :=
  ((parts_perm bs' e').trans (h.tests.append h.values)).trans (parts_perm bs e).symm

end Branches

namespace Reading

variable {α : Type} {x y : Reading α}

/-- The values of a conditional, the last of them the value otherwise. -/
def values : Reading α → List α
  | conditional bs e => bs.map Branch.value ++ [e]
  | choice _ bs e => bs.map Branch.value ++ [e]
  | _ => []

/-- Both say the same but for the order of the branches. -/
inductive Reordered : Reading α → Reading α → Prop where
  | conditional {bs bs' e e'} (h : Shuffled bs e bs' e') :
      Reordered (conditional bs e) (conditional bs' e')
  | choice (s : α) {bs bs' e e'} (h : Shuffled bs e bs' e') :
      Reordered (choice s bs e) (choice s bs' e')

theorem Reordered.symm (h : x.Reordered y) : y.Reordered x := by
  cases h with
  | conditional h => exact .conditional h.symm
  | choice s h => exact .choice s h.symm

theorem Reordered.values_perm (h : x.Reordered y) : y.values.Perm x.values := by
  cases h with
  | conditional h => exact h.values
  | choice s h => exact h.values

end Reading

/-! ## Writing the branches -/

namespace Lowering

open FormulaSql.Function

variable {s : Scope} {name : String} {c : Conditional} {xs : List TypedSql}
  {bs bs' : List (Branch TypedSql)} {e e' a : TypedSql}

/-- A conditional has the common type of its values, constness apart. -/
theorem type_of_dispatch (hc : c ∈ [ifs, cases]) (hname : name.toLower ∈ c.names)
    (hxs : xs.length + 3 = c.least)
    (h : dispatch s name false (xs ++ (bs.flatMap Branch.parts ++ [e])) = .ok a) :
    a.type.nonConst = DataType.common ((bs.map Branch.value ++ [e]).map TypedSql.type) := by
  obtain ⟨r, hr, _, -, rfl⟩ := dispatch_eq_ok.mp h
  obtain ⟨r', hr', hdefines, -⟩ := resolve_conditional hc hname hr (least_le_of_resolve hc hname hr)
  obtain rfl := Except.ok.inj (hr'.symm.trans hr)
  obtain ⟨-, -, htype⟩ := resolve_eq_ok hr
  have hbase : r'.returnType.base = _ := htype ▸ (hdefines.returnTypeFor _).1
  rw [type_map_branches hc hxs] at hbase
  exact (congrArg DataType.plain hbase).trans (DataType.nonConst_common _)

/-- A conditional has branches. -/
theorem branches_ne_nil (hc : c ∈ [ifs, cases]) (hname : name.toLower ∈ c.names)
    (hxs : xs.length + 3 = c.least)
    (h : dispatch s name false (xs ++ (bs.flatMap Branch.parts ++ [e])) = .ok a) : bs ≠ [] := by
  obtain ⟨r, hr, -⟩ := dispatch_eq_ok.mp h
  have hleast := least_le_of_resolve hc hname hr
  rintro rfl
  simp at hleast
  omega

/-- With compatible values in another order, a conditional is still written. It is constant if it was
constant before. -/
theorem dispatch_firms_shuffled (hc : c ∈ [ifs, cases]) (hname : name.toLower ∈ c.names)
    (hxs : xs.length + 3 = c.least) (hbs : Shuffled bs e bs' e')
    (hcompatible : DataType.Compatible ((bs.map Branch.value ++ [e]).map TypedSql.type))
    (h : dispatch s name false (xs ++ (bs.flatMap Branch.parts ++ [e])) = .ok a) :
    ∃ b, dispatch s name false (xs ++ (bs'.flatMap Branch.parts ++ [e'])) = .ok b ∧
      a.FirmsTo b := by
  have hpos := List.length_pos_iff.mpr (branches_ne_nil hc hname hxs h)
  rw [← hbs.length_eq] at hpos
  refine dispatch_conditional hc hname h ?_ (hbs.parts.append_left xs).subset
    (exists_emit_branches hc hxs (List.length_pos_iff.mp hpos) e') ?_
  · rw [List.length_append, List.length_append, Formula.length_flatMap_parts,
      List.length_singleton]
    omega
  · rw [type_map_branches hc hxs, hcompatible.common_perm (hbs.values.map _),
      ← type_of_dispatch hc hname hxs h]
    rfl

/-- With compatible values in another order, a conditional is written with the same type. -/
theorem dispatch_shuffled (hc : c ∈ [ifs, cases]) (hname : name.toLower ∈ c.names)
    (hxs : xs.length + 3 = c.least) (hbs : Shuffled bs e bs' e')
    (hcompatible : DataType.Compatible ((bs.map Branch.value ++ [e]).map TypedSql.type))
    (h : dispatch s name false (xs ++ (bs.flatMap Branch.parts ++ [e])) = .ok a) :
    ∃ b, dispatch s name false (xs ++ (bs'.flatMap Branch.parts ++ [e'])) = .ok b ∧
      b.type = a.type := by
  obtain ⟨b, hb, hab⟩ := dispatch_firms_shuffled hc hname hxs hbs hcompatible h
  obtain ⟨a', ha', hba⟩ := dispatch_firms_shuffled hc hname hxs hbs.symm
    (hcompatible.perm (hbs.values.map _)) hb
  obtain rfl := Except.ok.inj (ha'.symm.trans h)
  exact ⟨b, hb, hba.1.antisymm hab.1⟩

end Lowering

/-! ## Conditionals -/

namespace Formula

open FormulaSql.Function (Conditional)

variable {s : Scope} {f g : Formula} {ts : List DataType} {t u : DataType}

/-- The formula is lowered to an expression of this type. -/
def LowersTo (s : Scope) (f : Formula) (t : DataType) : Prop := ∃ a, f.lower s = .ok a ∧ a.type = t

/-- Both are conditionals that are written through the same function, and differ in the order of
their branches only. -/
structure Reordered (f g : Formula) : Prop where
  function : g.function? = f.function?
  reading : f.reading.Reordered g.reading

theorem Reordered.symm (h : f.Reordered g) : g.Reordered f :=
  ⟨h.function.symm, h.reading.symm⟩

theorem map_type_of_lowersTo {l : Formula → TypedSql} {vs : List Formula}
    (hl : ∀ v ∈ vs, v.lower s = .ok (l v)) (h : List.Forall₂ (LowersTo s) vs ts) :
    (vs.map l).map TypedSql.type = ts := by
  rw [List.map_map, ← List.forall₂_eq_eq_eq, List.forall₂_map_left_iff]
  refine forall₂_of_mem h fun v hv t _ ⟨b, hb, hbt⟩ => ?_
  rw [hl v hv] at hb
  rw [← hbt, ← Except.ok.inj hb]
  rfl

/-- With compatible values in another order, a conditional is lowered to the same type. The subject
of a CASE stands before the branches. -/
theorem lowersTo_of_shuffled {c : Conditional} (hc : c ∈ [Function.ifs, Function.cases])
    (xs : List Formula) (hxs : xs.length + 3 = c.least) {name : String}
    (hname : f.function? = some name) (hgname : g.function? = some name)
    (hcname : name.toLower ∈ c.names) {bs bs' : List (Branch Formula)} {e e' : Formula}
    (hbs : Shuffled bs e bs' e') (hf : f.written = xs ++ (bs.flatMap Branch.parts ++ [e]))
    (hg : g.written = xs ++ (bs'.flatMap Branch.parts ++ [e']))
    (hts : List.Forall₂ (LowersTo s) (bs.map Branch.value ++ [e]) ts)
    (hcompatible : DataType.Compatible ts) (hu : f.LowersTo s u) :
    g.LowersTo s u ∧ u.nonConst = DataType.common ts := by
  obtain ⟨a, ha, rfl⟩ := hu
  obtain ⟨as, has, hdispatch⟩ := (lower_function_eq_ok hname).mp ha
  obtain ⟨l, hl, rfl⟩ := Simplify.exists_lowering has
  have htypes : ((bs.map Branch.value ++ [e]).map l).map TypedSql.type = ts :=
    map_type_of_lowersTo
      (fun v hv => hl v (hf ▸ List.mem_append_right xs (Reading.mem_parts_of_value hv))) hts
  have hlength : (xs.map l).length + 3 = c.least := by rwa [List.length_map]
  rw [hf, List.map_append, List.map_append, ← Simplify.parts_map, List.map_singleton] at hdispatch
  rw [Function.map_values] at htypes
  obtain ⟨b, hb, hba⟩ := Lowering.dispatch_shuffled hc hcname hlength (hbs.map l)
    (htypes ▸ hcompatible) hdispatch
  refine ⟨⟨b, (lower_function_eq_ok hgname).mpr ⟨g.written.map l, ?_, ?_⟩, hba⟩, ?_⟩
  · rw [List.forall₂_map_right_iff]
    refine List.forall₂_same.mpr fun v hv => hl v ?_
    rw [hg] at hv
    exact hf ▸ (hbs.parts.append_left xs).subset hv
  · rwa [hg, List.map_append, List.map_append, ← Simplify.parts_map, List.map_singleton]
  · rw [Lowering.type_of_dispatch hc hcname hlength hdispatch, htypes]

theorem LowersTo.reordered (hu : f.LowersTo s u) (h : f.Reordered g)
    (hts : List.Forall₂ (LowersTo s) f.reading.values ts) (hcompatible : DataType.Compatible ts) :
    g.LowersTo s u ∧ u.nonConst = DataType.common ts := by
  obtain ⟨hfunction, hreading⟩ := h
  generalize hf : f.reading = x at hreading hts
  generalize hg : g.reading = y at hreading
  cases hreading with
  | conditional hbs =>
      obtain ⟨name, hname, hif⟩ := Kind.function?_of_conditional hf
      exact lowersTo_of_shuffled List.mem_cons_self [] rfl hname (hfunction.trans hname) hif hbs
        (Simplify.written_of_reading hf (by simp)) (Simplify.written_of_reading hg (by simp)) hts
        hcompatible hu
  | choice subject hbs =>
      obtain ⟨name, hname, hcase⟩ := Kind.function?_of_choice hf
      exact lowersTo_of_shuffled (List.mem_cons_of_mem _ List.mem_cons_self) [subject] rfl hname
        (hfunction.trans hname) hcase hbs (Simplify.written_of_reading hf (by simp))
        (Simplify.written_of_reading hg (by simp)) hts hcompatible hu

/-- A type that all others fit is the common type in every order. A conditional whose values have
compatible types has the same type in every order of its branches: the common type of its values,
constness apart. -/
theorem lowersTo_reordered :
    (∀ (t : DataType) (ts us : List DataType), t.IsWidest ts → us.Perm ts →
      DataType.common us = t) ∧
    ∀ (s : Scope) (f g : Formula) (ts : List DataType), f.Reordered g →
      List.Forall₂ (LowersTo s) f.reading.values ts → DataType.Compatible ts → ∀ u,
        (f.LowersTo s u ↔ g.LowersTo s u) ∧
          (f.LowersTo s u → u.nonConst = DataType.common ts) := by
  refine ⟨fun t ts us ht hperm => (ht.perm hperm).common_eq, ?_⟩
  intro s f g ts h hts hcompatible u
  refine ⟨⟨fun hu => (hu.reordered h hts hcompatible).1, fun hu => ?_⟩,
    fun hu => (hu.reordered h hts hcompatible).2⟩
  obtain ⟨us, hus, hperm⟩ := List.perm_comp_forall₂ h.reading.values_perm hts
  exact (hu.reordered h.symm hus (hcompatible.perm hperm)).1

/-- What is known of an event, and three of its times. -/
def event : Scope := { Scope.empty .dummy with
  fields :=
    [("planned", ⟨.column none "planned", .plain .boolean, .none⟩),
      ("done", ⟨.column none "done", .plain .boolean, .none⟩),
      ("day", ⟨.column none "day", .plain .date, .none⟩),
      ("start", ⟨.column none "start", .plain .datetime, .none⟩),
      ("logged", ⟨.column none "logged", .plain .genericDatetime, .none⟩)] }

/-- The time of an event. A date comes first, which does not fit the date-time. -/
def timeOfEvent : Formula :=
  .ifBlock [⟨.field "planned", .field "day"⟩, ⟨.call "isnull" [.field "done"], .lit .null⟩,
    ⟨.field "done", .field "start"⟩] (.field "logged")

/-- The tests and the values of `timeOfEvent`, both from the last to the first. -/
def reversedTime : Formula :=
  .ifBlock [⟨.field "done", .field "logged"⟩, ⟨.call "isnull" [.field "done"], .field "start"⟩,
    ⟨.field "planned", .lit .null⟩] (.field "day")

theorem reordered_reversedTime : timeOfEvent.Reordered reversedTime :=
  ⟨rfl, .conditional
    ⟨List.reverse_perm [field "planned", call "isnull" [field "done"], field "done"],
      List.reverse_perm [field "day", lit .null, field "start", field "logged"]⟩⟩

/-- Both conditionals give a generic date-time, which the date and the date-time fit. -/
theorem lowersTo_reordered_timeOfEvent :
    (DataType.plain .genericDatetime).IsWidest
        [.plain .date, .const .null, .plain .datetime, .plain .genericDatetime] ∧
      DataType.common [.plain .datetime, .plain .genericDatetime, .const .null, .plain .date] =
        .plain .genericDatetime ∧
      timeOfEvent.Reordered reversedTime ∧
      timeOfEvent.LowersTo event (.plain .genericDatetime) ∧
      reversedTime.LowersTo event (.plain .genericDatetime) := by
  have hwidest : (DataType.plain .genericDatetime).IsWidest
      [.plain .date, .const .null, .plain .datetime, .plain .genericDatetime] :=
    ⟨by decide, rfl, by decide⟩
  have hvalues : List.Forall₂ (LowersTo event) timeOfEvent.reading.values
      [.plain .date, .const .null, .plain .datetime, .plain .genericDatetime] :=
    .cons ⟨_, rfl, rfl⟩ (.cons ⟨_, rfl, rfl⟩ (.cons ⟨_, rfl, rfl⟩ (.cons ⟨_, rfl, rfl⟩ .nil)))
  have hok : ((timeOfEvent.lower event).toOption.any fun a =>
      a.type == .plain .genericDatetime) = true := by
    decide +kernel
  obtain ⟨a, ha, htype⟩ := exists_eq_ok hok
  have htime : timeOfEvent.LowersTo event (.plain .genericDatetime) :=
    ⟨a, ha, beq_iff_eq.mp htype⟩
  refine ⟨hwidest, lowersTo_reordered.1 _ _ _ hwidest (by decide), reordered_reversedTime, htime, ?_⟩
  exact ((lowersTo_reordered.2 _ _ _ _ reordered_reversedTime hvalues (Or.inr ⟨_, hwidest⟩) _).1).mp
    htime

end Formula

end FormulaSql
