import FormulaSql.Proofs.Data.Outcomes
import FormulaSql.Proofs.Formula.Rewriting
import FormulaSql.Proofs.Json.Formulas
import FormulaSql.Query.IndexedRegistry
import FormulaSql.Query.Json
import Mathlib.Data.List.Nodup

/-!
# What registries hold

A registry grows by additions, each of which is accepted or refused. What is accepted goes to the
end of its list, and what is refused leaves no trace. No id is used twice, so all that was accepted
is found again, and the registry can be built anew from its lists, all avatars first.

Columns can be looked up in a map if the order of their fields is kept beside it. An accepted column
changes both. `IndexedRegistry` is a registry that is kept in this way, and its additions change it
step by step.

* `Registry.add_eq_ok_iff`: when an addition is accepted, and what it does
* `Registry.WellFormed`: what holds of all registries that come from additions
* `Indexes.add`: map, order and lists agree on every addition
* `Registry.after_spec`: the registry after any additions
-/

namespace FormulaSql

/-- An addition to a registry. -/
inductive Addition where
  | avatar (a : Avatar)
  | column (c : Column)

namespace Addition

def avatar? : Addition → Option Avatar
  | avatar a => some a
  | column _ => none

def column? : Addition → Option Column
  | avatar _ => none
  | column c => some c

end Addition

namespace Registry

variable {r r' : Registry} {x : Addition} {xs : List Addition}

/-! ## One addition -/

def avatarIds (r : Registry) : List String := r.avatars.map Avatar.id

def fieldIds (r : Registry) : List String := r.columns.map Column.fieldId

def add (r : Registry) : Addition → Except QueryError Registry
  | .avatar a => r.addAvatar a
  | .column c => r.addColumn c

/-- The addition clashes with nothing that is there, and the avatar of a column is there. -/
def Admits (r : Registry) : Addition → Prop
  | .avatar a => a.id ∉ r.avatarIds
  | .column c => c.avatarId ∈ r.avatarIds ∧ c.fieldId ∉ r.fieldIds

/-- The registry with the addition at the end. -/
def extended (r : Registry) : Addition → Registry
  | .avatar a => { r with avatars := r.avatars ++ [a] }
  | .column c => { r with columns := r.columns ++ [c] }

theorem isSome_avatar? (id : String) : (r.avatar? id).isSome = true ↔ id ∈ r.avatarIds := by
  rw [avatar?, List.find?_isSome, avatarIds, List.mem_map]
  simp only [beq_iff_eq]

theorem isSome_column? (id : String) : (r.column? id).isSome = true ↔ id ∈ r.fieldIds := by
  rw [column?, List.find?_isSome, fieldIds, List.mem_map]
  simp only [beq_iff_eq]

theorem column?_extended {c : Column} (hc : (r.column? c.fieldId).isSome = false) (n : String) :
    (r.extended (.column c)).column? n = if c.fieldId = n then some c else r.column? n := by
  show (r.columns ++ [c]).find? _ = _
  rw [List.find?_append]
  split
  next hn =>
    subst hn
    have hnone : r.columns.find? (fun d => d.fieldId == c.fieldId) = none := by
      simpa [column?] using hc
    rw [hnone]
    simp
  next hn =>
    rw [List.find?_cons_of_neg (by simpa using hn)]
    simp [column?]

/-- An addition is accepted exactly if the registry admits it. -/
theorem add_eq_ok_iff : r.add x = .ok r' ↔ r.Admits x ∧ r' = r.extended x := by
  cases x with
  | avatar a =>
      show r.addAvatar a = _ ↔ a.id ∉ r.avatarIds ∧ _
      rw [addAvatar, ← isSome_avatar?]
      by_cases h : (r.avatar? a.id).isSome = true
      · simp [h]
      · simp [h, extended, eq_comm]
  | column c =>
      show r.addColumn c = _ ↔ (c.avatarId ∈ r.avatarIds ∧ c.fieldId ∉ r.fieldIds) ∧ _
      rw [addColumn, ← isSome_avatar?, ← isSome_column?]
      cases h : r.avatar? c.avatarId with
      | none => simp
      | some a =>
          by_cases h' : (r.column? c.fieldId).isSome = true
          · simp [h']
          · simp [h', extended, eq_comm]

/-! ## Well-formed registries -/

/-- Ids of avatars and fields are unique, and all columns are columns of avatars that are there. -/
structure WellFormed (r : Registry) : Prop where
  avatarIds : r.avatarIds.Nodup
  fieldIds : r.fieldIds.Nodup
  avatars : ∀ c ∈ r.columns, c.avatarId ∈ r.avatarIds

theorem WellFormed.empty : empty.WellFormed := ⟨.nil, .nil, nofun⟩

theorem WellFormed.extended (h : r.WellFormed) (hx : r.Admits x) : (r.extended x).WellFormed := by
  cases x with
  | avatar a =>
      refine ⟨nodup_map_append h.avatarIds hx, h.fieldIds, fun c hc => ?_⟩
      have hmem := h.avatars c hc
      show c.avatarId ∈ (r.avatars ++ [a]).map Avatar.id
      rw [List.map_append]
      exact List.mem_append_left _ hmem
  | column c =>
      refine ⟨h.avatarIds, nodup_map_append h.fieldIds hx.2, fun d hd => ?_⟩
      rcases List.mem_append.mp hd with hd | hd
      · exact h.avatars d hd
      · obtain rfl := List.mem_singleton.mp hd
        exact hx.1

/-- The column of a field is the one that was added for it. -/
theorem WellFormed.column?_eq_some_iff (h : r.WellFormed) {n : String} {c : Column} :
    r.column? n = some c ↔ c ∈ r.columns ∧ c.fieldId = n := by
  constructor
  · intro hc
    have hid := List.find?_some hc
    exact ⟨List.mem_of_find?_eq_some hc, beq_iff_eq.mp hid⟩
  · rintro ⟨hc, rfl⟩
    obtain ⟨d, hd⟩ := Option.isSome_iff_exists.mp
      ((isSome_column? c.fieldId).mpr (List.mem_map_of_mem hc))
    have hid := List.find?_some hd
    rw [hd, List.inj_on_of_nodup_map h.fieldIds (List.mem_of_find?_eq_some hd) hc
      (beq_iff_eq.mp hid)]

theorem WellFormed.resolve_eq_ok_iff (h : r.WellFormed) {n : String} {c : Column} :
    r.resolve n = .ok c ↔ c ∈ r.columns ∧ c.fieldId = n := by
  rw [← h.column?_eq_some_iff, resolve]
  cases r.column? n with
  | none => simp
  | some d => simp

/-! ## Sequences of additions -/

/-- The registry after an addition, accepted or refused. -/
def attempt (r : Registry) (x : Addition) : Registry :=
  match r.add x with
  | .ok r' => r'
  | .error _ => r

def after (xs : List Addition) : Registry := xs.foldl attempt empty

/-- Those of the additions that are accepted, one after another. -/
def accepted (r : Registry) : List Addition → List Addition
  | [] => []
  | x :: xs =>
    match r.add x with
    | .ok r' => x :: accepted r' xs
    | .error _ => accepted r xs

theorem attempt_cases (r : Registry) (x : Addition) :
    (r.Admits x ∧ r.add x = .ok (r.extended x) ∧ r.attempt x = r.extended x) ∨
      ∃ e, r.add x = .error e ∧ r.attempt x = r := by
  rw [attempt]
  cases h : r.add x with
  | ok r' =>
      obtain ⟨hx, rfl⟩ := add_eq_ok_iff.mp h
      exact Or.inl ⟨hx, rfl, rfl⟩
  | error e => exact Or.inr ⟨e, rfl, rfl⟩

theorem attempt_of_error {e : QueryError} (h : r.add x = .error e) : r.attempt x = r := by
  rw [attempt, h]

theorem WellFormed.foldl_attempt (h : r.WellFormed) (xs : List Addition) :
    (xs.foldl attempt r).WellFormed := by
  induction xs generalizing r with
  | nil => exact h
  | cons x xs ih =>
      rw [List.foldl_cons]
      rcases r.attempt_cases x with ⟨hx, -, hr⟩ | ⟨e, -, hr⟩
      · rw [hr]
        exact ih (h.extended hx)
      · rw [hr]
        exact ih h

theorem WellFormed.after (xs : List Addition) : (after xs).WellFormed :=
  WellFormed.empty.foldl_attempt xs

/-- What is accepted goes to the end of its list. -/
theorem foldl_attempt_lists (r : Registry) (xs : List Addition) :
    (xs.foldl attempt r).avatars = r.avatars ++ (r.accepted xs).filterMap Addition.avatar? ∧
      (xs.foldl attempt r).columns =
        r.columns ++ (r.accepted xs).filterMap Addition.column? := by
  induction xs generalizing r with
  | nil => exact ⟨(List.append_nil _).symm, (List.append_nil _).symm⟩
  | cons x xs ih =>
      obtain ⟨havatars, hcolumns⟩ := ih (r.attempt x)
      rw [List.foldl_cons, havatars, hcolumns, accepted]
      rcases r.attempt_cases x with ⟨-, hadd, hr⟩ | ⟨e, hadd, hr⟩
      · rw [hr, hadd]
        cases x with
        | avatar a => exact ⟨List.append_assoc _ _ _, rfl⟩
        | column c => exact ⟨rfl, List.append_assoc _ _ _⟩
      · rw [hr, hadd]
        exact ⟨rfl, rfl⟩

/-! ## Building a registry from its lists -/

theorem foldlM_addAvatar {as : List Avatar} (h : ((r.avatars ++ as).map Avatar.id).Nodup) :
    as.foldlM addAvatar r = .ok { r with avatars := r.avatars ++ as } := by
  induction as generalizing r with
  | nil => simp [pure, Except.pure]
  | cons a as ih =>
      have hnew : a.id ∉ r.avatarIds := not_mem_of_nodup_map h
      have hadd : r.add (.avatar a) = .ok (r.extended (.avatar a)) :=
        add_eq_ok_iff.mpr ⟨hnew, rfl⟩
      rw [List.foldlM_cons]
      refine bind_eq_ok.mpr ⟨_, hadd, ?_⟩
      rw [ih]
      · simp [extended]
      · simpa [extended] using h

theorem foldlM_addColumn {cs : List Column} (h : ((r.columns ++ cs).map Column.fieldId).Nodup)
    (havatars : ∀ c ∈ cs, c.avatarId ∈ r.avatarIds) :
    cs.foldlM addColumn r = .ok { r with columns := r.columns ++ cs } := by
  induction cs generalizing r with
  | nil => simp [pure, Except.pure]
  | cons c cs ih =>
      have hnew : c.fieldId ∉ r.fieldIds := not_mem_of_nodup_map h
      have hadd : r.add (.column c) = .ok (r.extended (.column c)) :=
        add_eq_ok_iff.mpr ⟨⟨havatars c List.mem_cons_self, hnew⟩, rfl⟩
      rw [List.foldlM_cons]
      refine bind_eq_ok.mpr ⟨_, hadd, ?_⟩
      rw [ih]
      · simp [extended]
      · simpa [extended] using h
      · exact fun d hd => havatars d (List.mem_cons_of_mem c hd)

/-- All avatars are there before the first column, so no column is refused. -/
theorem WellFormed.ofLists (h : r.WellFormed) : ofLists r.avatars r.columns = .ok r := by
  have havatars : r.avatars.foldlM addAvatar .empty = .ok ⟨r.avatars, []⟩ :=
    foldlM_addAvatar h.avatarIds
  exact bind_eq_ok.mpr ⟨_, havatars, foldlM_addColumn h.fieldIds h.avatars⟩

end Registry

/-! ### JSON form -/

section Json

open Json (Manner Reads reads_scalar reads_record reads_list)

variable {bound : Nat} {m : Manner}

theorem reads_dataType (t : DataType) : Reads bound (DataType.ofJson? m) t.toJson t := by
  have hname : DataType.ofName? t.name = some t := by
    obtain ⟨base, isConst⟩ := t
    cases base <;> cases isConst <;> rfl
  exact reads_scalar rfl hname

theorem reads_typeParams (p : TypeParams) : Reads bound TypeParams.ofJson? p.toJson p := by
  obtain ⟨zone⟩ := p
  refine reads_record (by cases zone <;> simp [Json.present]) fun ms' h => ?_
  have hzone := h.maybe (o := zone) reads_string (by rintro s rfl; simp [Json.present])
    (by rintro rfl; simp [Json.present]) (by decide : "timezone" ∉ _) rfl
  simp [TypeParams.ofJson?, h.members?, hzone]

theorem reads_avatar (a : Avatar) : Reads bound Avatar.ofJson? a.toJson a := by
  refine reads_record (by simp) fun ms' h => ?_
  have hid := h.required (by simp) (reads_string a.id) (by decide : "id" ∉ _)
  have hsource := h.required (by simp) (reads_string a.source) (by decide : "source" ∉ _)
  simp [Avatar.ofJson?, h.members?, hid, hsource]

theorem reads_column (c : Column) : Reads bound (Column.ofJson? m) c.toJson c := by
  refine reads_record (by simp) fun ms' h => ?_
  have hfield := h.required (by simp) (reads_string c.fieldId) (by decide : "field_id" ∉ _)
  have havatar := h.required (by simp) (reads_string c.avatarId) (by decide : "avatar_id" ∉ _)
  have hname := h.required (by simp) (reads_string c.name) (by decide : "column" ∉ _)
  have htype := h.required (by simp) (reads_dataType (m := m) c.type) (by decide : "data_type" ∉ _)
  have hparams := h.optional_kept .none (by simp) (reads_typeParams c.params)
    (by decide : "params" ∉ _)
  simp [Column.ofJson?, h.members?, hfield, havatar, hname, htype, hparams]

theorem Registry.WellFormed.ofJson?_toJson {r : Registry} (h : r.WellFormed) (m : Manner) :
    Registry.ofJson? m r.toJson = some r := by
  have hlists : Registry.listsOfJson? m r.toJson = some (r.avatars, r.columns) := by
    refine reads_record (by simp) (fun ms' h => ?_) r.toJson (.same _) (Nat.lt_succ_self _)
    have havatars := h.optional_kept [] List.mem_cons_self (reads_list fun a _ => reads_avatar a)
      (by decide : "avatars" ∉ _)
    have hcolumns := h.optional_kept [] (List.mem_cons_of_mem _ List.mem_cons_self)
      (reads_list fun c _ => reads_column (m := m) c) (by decide : "columns" ∉ _)
    simp [Registry.listsOfJson?, h.members?, havatars, hcolumns]
  rw [Registry.ofJson?, hlists]
  exact congrArg Except.toOption h.ofLists

end Json

/-! ## Registries with a map -/

namespace IndexedRegistry

def add : Addition → EStateM QueryError IndexedRegistry Unit
  | .avatar a => addAvatar a
  | .column c => addColumn c

/-- The registry after an addition, accepted or refused. -/
def attempt (k : IndexedRegistry) (x : Addition) : IndexedRegistry :=
  match (add x).run k with
  | .ok _ k' => k'
  | .error _ k' => k'

def after (xs : List Addition) : IndexedRegistry := xs.foldl attempt empty

theorem run_addAvatar (k : IndexedRegistry) (a : Avatar) :
    (addAvatar a).run k =
      if (k.avatar? a.id).isSome then .error (.duplicateAvatar a.id) k
      else .ok () { k with avatars := k.avatars ++ [a] } := by
  by_cases h : (k.avatar? a.id).isSome
  · simp [addAvatar, h]
  · simp [addAvatar, h]

theorem run_addColumn (k : IndexedRegistry) (c : Column) :
    (addColumn c).run k =
      if (k.avatar? c.avatarId).isNone then .error (.unknownAvatar c.avatarId) k
      else if k.columns.contains c.fieldId then .error (.duplicateField c.fieldId) k
      else .ok ()
        { k with columns := k.columns.insert c.fieldId c, order := k.order ++ [c.fieldId] } := by
  cases havatar : k.avatar? c.avatarId with
  | none => simp [addColumn, havatar]
  | some a =>
      by_cases hfield : c.fieldId ∈ k.columns
      · simp [addColumn, havatar, hfield]
      · simp [addColumn, havatar, hfield]

end IndexedRegistry

/-- The map and the order beside it hold the columns of the registry. -/
structure Indexes (k : IndexedRegistry) (r : Registry) : Prop where
  avatars : k.avatars = r.avatars
  order : k.order = r.fieldIds
  columns : ∀ n, k.columns[n]? = r.column? n

namespace Indexes

variable {k k' : IndexedRegistry} {r r' : Registry} {x : Addition}

theorem empty : Indexes .empty .empty := ⟨rfl, rfl, fun _ => rfl⟩

/-- The lists of a registry say what is in the map. -/
theorem unique (h : Indexes k r) (h' : Indexes k' r) : k = k' := by
  obtain ⟨avatars, columns, order⟩ := k
  obtain ⟨avatars', columns', order'⟩ := k'
  obtain rfl : avatars = avatars' := h.avatars.trans h'.avatars.symm
  obtain rfl : order = order' := h.order.trans h'.order.symm
  obtain rfl : columns = columns' :=
    Std.ExtTreeMap.ext_getElem? fun n => (h.columns n).trans (h'.columns n).symm
  rfl

/-- A registry with a map accepts the same additions as one without it. What it refuses changes
neither the map nor the order. -/
theorem add (h : Indexes k r) (x : Addition) :
    (∃ k' r', (IndexedRegistry.add x).run k = .ok () k' ∧ r.add x = .ok r' ∧ Indexes k' r') ∨
      ∃ e, (IndexedRegistry.add x).run k = .error e k ∧ r.add x = .error e := by
  have havatar (id : String) : k.avatar? id = r.avatar? id := by
    rw [IndexedRegistry.avatar?, h.avatars, Registry.avatar?]
  cases x with
  | avatar a =>
      show (∃ k' r', (IndexedRegistry.addAvatar a).run k = _ ∧ r.addAvatar a = _ ∧ _) ∨
        ∃ e, (IndexedRegistry.addAvatar a).run k = _ ∧ r.addAvatar a = _
      rw [IndexedRegistry.run_addAvatar, Registry.addAvatar, havatar]
      by_cases hknown : (r.avatar? a.id).isSome = true
      · rw [if_pos hknown, if_pos hknown]
        exact Or.inr ⟨_, rfl, rfl⟩
      · rw [if_neg hknown, if_neg hknown]
        refine Or.inl ⟨_, _, rfl, rfl, ?_, h.order, h.columns⟩
        rw [h.avatars]
  | column c =>
      show (∃ k' r', (IndexedRegistry.addColumn c).run k = _ ∧ r.addColumn c = _ ∧ _) ∨
        ∃ e, (IndexedRegistry.addColumn c).run k = _ ∧ r.addColumn c = _
      have hfield : k.columns.contains c.fieldId = (r.column? c.fieldId).isSome := by
        rw [Std.ExtTreeMap.contains_eq_isSome_getElem?, h.columns]
      rw [IndexedRegistry.run_addColumn, Registry.addColumn, havatar, hfield]
      by_cases hunknown : (r.avatar? c.avatarId).isNone = true
      · rw [if_pos hunknown, if_pos hunknown]
        exact Or.inr ⟨_, rfl, rfl⟩
      · rw [if_neg hunknown, if_neg hunknown]
        by_cases hused : (r.column? c.fieldId).isSome = true
        · rw [if_pos hused, if_pos hused]
          exact Or.inr ⟨_, rfl, rfl⟩
        · rw [if_neg hused, if_neg hused]
          refine Or.inl ⟨_, _, rfl, rfl, h.avatars, ?_, fun n => ?_⟩
          · rw [h.order, Registry.fieldIds, Registry.fieldIds, List.map_append]
            rfl
          · rw [Bool.not_eq_true] at hused
            refine Eq.trans ?_ (Registry.column?_extended hused n).symm
            rw [Std.ExtTreeMap.getElem?_insert, h.columns]
            simp only [Std.LawfulEqCmp.compare_eq_iff_eq]

/-- Each field is found in the map, so that its column is listed in its place. -/
theorem listed (h : Indexes k r) (hr : r.WellFormed) : k.listed = r.columns := by
  have hfound : ∀ c ∈ r.columns, r.column? c.fieldId = some c := fun c hc =>
    hr.column?_eq_some_iff.mpr ⟨hc, rfl⟩
  calc k.listed = r.fieldIds.filterMap r.column? := by
        rw [IndexedRegistry.listed, h.order, funext h.columns]
    _ = r.columns.filterMap some := by
        rw [Registry.fieldIds, List.filterMap_map]
        exact List.filterMap_congr hfound
    _ = r.columns := List.filterMap_some

theorem resolve (h : Indexes k r) (n : String) : k.resolve n = r.resolve n := by
  cases hc : r.column? n with
  | none => simp only [IndexedRegistry.resolve, Registry.resolve, h.columns, hc]
  | some c => simp only [IndexedRegistry.resolve, Registry.resolve, h.columns, hc]

theorem forM {α : Type} {f : α → Addition} {xs : List α} (h : Indexes k r)
    (hxs : xs.foldlM (fun r a => r.add (f a)) r = .ok r') :
    ∃ k', (xs.forM fun a => IndexedRegistry.add (f a)).run k = .ok () k' ∧ Indexes k' r' := by
  induction xs generalizing k r with
  | nil =>
      obtain rfl := Except.ok.inj hxs
      exact ⟨k, rfl, h⟩
  | cons a xs ih =>
      rw [List.foldlM_cons] at hxs
      obtain ⟨r₁, hadd, hrest⟩ := bind_eq_ok.mp hxs
      rcases h.add (f a) with ⟨k₁, r₂, hk, hr, h₁⟩ | ⟨e, -, hr⟩
      · obtain rfl : r₁ = r₂ := Except.ok.inj (hadd.symm.trans hr)
        obtain ⟨k', hk', h'⟩ := ih h₁ hrest
        refine ⟨k', ?_, h'⟩
        show (IndexedRegistry.add (f a) >>= fun _ => xs.forM _).run k = _
        rw [EStateM.run_bind, hk]
        exact hk'
      · exact absurd (hadd.symm.trans hr) (by simp)

/-- The lists of a registry that is kept with a map give the same one again. -/
theorem addLists (h : Indexes k r) (hr : r.WellFormed) :
    (IndexedRegistry.addLists k.avatars k.listed).run .empty = .ok () k := by
  obtain ⟨r₁, havatars, hcolumns⟩ := bind_eq_ok.mp hr.ofLists
  obtain ⟨k₁, hk₁, h₁⟩ := empty.forM (f := Addition.avatar) havatars
  obtain ⟨k₂, hk₂, h₂⟩ := h₁.forM (f := Addition.column) hcolumns
  obtain rfl := h.unique h₂
  rw [h.listed hr, h.avatars]
  have hfirst : (r.avatars.forM IndexedRegistry.addAvatar).run .empty = .ok () k₁ := hk₁
  rw [IndexedRegistry.addLists, EStateM.run_bind, hfirst]
  exact hk₂

theorem attempt (h : Indexes k r) (x : Addition) : Indexes (k.attempt x) (r.attempt x) := by
  rw [IndexedRegistry.attempt, Registry.attempt]
  rcases h.add x with ⟨k', r', hk, hr, h'⟩ | ⟨e, hk, hr⟩
  · rw [hk, hr]
    exact h'
  · rw [hk, hr]
    exact h

theorem foldl_attempt (h : Indexes k r) (xs : List Addition) :
    Indexes (xs.foldl IndexedRegistry.attempt k) (xs.foldl Registry.attempt r) := by
  induction xs generalizing k r with
  | nil => exact h
  | cons x xs ih => exact ih (h.attempt x)

theorem after (xs : List Addition) : Indexes (IndexedRegistry.after xs) (Registry.after xs) :=
  empty.foldl_attempt xs

/-- An addition that is refused changes neither the map nor the order. -/
theorem eq_of_error (h : Indexes k r) {e : QueryError}
    (hadd : (IndexedRegistry.add x).run k = .error e k') : k' = k := by
  rcases h.add x with ⟨k₁, r₁, hk, -⟩ | ⟨e₁, hk, -⟩
  · exact absurd (hadd.symm.trans hk) (by simp)
  · exact (EStateM.Result.error.inj (hadd.symm.trans hk)).2

end Indexes

/-! ## The registry after any additions -/

/-- After any additions, ids are unique and columns have avatars. The lists hold what was accepted,
in this order, and a refused addition changes nothing. Each field is resolved to its column. The
registry can be built anew from its lists and from its JSON form. A registry that looks columns up
in a map is the same. -/
theorem Registry.after_spec (xs : List Addition) :
    (after xs).WellFormed ∧
      (∀ x r, (after xs).add x = .ok r ↔ (after xs).Admits x ∧ r = (after xs).extended x) ∧
      (∀ x e, (after xs).add x = .error e → after (xs ++ [x]) = after xs) ∧
      (after xs).avatars = (empty.accepted xs).filterMap Addition.avatar? ∧
      (after xs).columns = (empty.accepted xs).filterMap Addition.column? ∧
      (after xs).columns.Nodup ∧
      (∀ n c, (after xs).resolve n = .ok c ↔ c ∈ (after xs).columns ∧ c.fieldId = n) ∧
      ofLists (after xs).avatars (after xs).columns = .ok (after xs) ∧
      (∀ m, ofJson? m (after xs).toJson = some (after xs)) ∧
      Indexes (.after xs) (after xs) ∧
      (∀ x e k, (IndexedRegistry.add x).run (.after xs) = .error e k → k = .after xs) ∧
      (IndexedRegistry.after xs).listed = (after xs).columns ∧
      (∀ n, (IndexedRegistry.after xs).resolve n = (after xs).resolve n) ∧
      (IndexedRegistry.addLists (IndexedRegistry.after xs).avatars
        (IndexedRegistry.after xs).listed).run .empty = .ok () (.after xs) := by
  have hwell : (after xs).WellFormed := WellFormed.after xs
  have hindexes : Indexes (.after xs) (after xs) := Indexes.after xs
  obtain ⟨havatars, hcolumns⟩ := empty.foldl_attempt_lists xs
  refine ⟨hwell, fun x r => add_eq_ok_iff, fun x e hadd => ?_, havatars, hcolumns,
    hwell.fieldIds.of_map _, fun n c => hwell.resolve_eq_ok_iff, hwell.ofLists,
    hwell.ofJson?_toJson, hindexes, fun x e k => hindexes.eq_of_error, hindexes.listed hwell,
    hindexes.resolve, hindexes.addLists hwell⟩
  rw [after, List.foldl_append]
  exact attempt_of_error hadd

/-- Sales with their city. A second table with the same id is refused, and so is a column of an
unknown table. -/
def additions : List Addition :=
  [.avatar ⟨"t", "orders"⟩, .column ⟨"sales", "t", "amount", .plain .float, .none⟩,
   .avatar ⟨"t", "returns"⟩, .column ⟨"name", "u", "name", .plain .string, .none⟩,
   .column ⟨"city", "t", "city", .plain .string, ⟨some "UTC"⟩⟩]

/-- A second column for sales is refused as well. -/
theorem Registry.after_spec_additions :
    (after additions).columns.map Column.fieldId = ["sales", "city"] ∧
      ∃ x, (after additions).add (.column x) = .error (.duplicateField "sales") ∧
        after (additions ++ [.column x]) = after additions ∧
        ofJson? .stream (after additions).toJson = some (after additions) := by
  obtain ⟨-, -, hrefused, -, hcolumns, -, -, -, hjson, -⟩ := after_spec additions
  have hadd : (after additions).add (.column ⟨"sales", "t", "price", .plain .integer, .none⟩) =
      .error (.duplicateField "sales") := by decide +kernel
  refine ⟨?_, _, hadd, hrefused _ _ hadd, hjson .stream⟩
  rw [hcolumns]
  decide +kernel

end FormulaSql
