import FormulaSql.Json.Record
import FormulaSql.Proofs.Json.Text
import Mathlib.Data.List.Forall2
import Mathlib.Data.List.Nodup

/-!
# Values without their default members

Some members of records may be left out if they hold their default. A value is abridged by leaving
out any number of such members, anywhere inside it. A reader reads a value in this sense if it gives
the same result for all abridged forms of it.

* `Json.Abridged` says that one value is an abridged form of another
* `Json.Reads` says that all abridged forms of a value are read as the same thing
* `Json.Shortened` is what a record has become; `Shortened.required` and `Shortened.optional` read a
  member of it
-/

namespace FormulaSql.Json

variable {α β : Type} {j j' : Json} {js js' : List Json} {ms ms' : List (String × Json)}
  {n : String} {bound : Nat}

/-! ## Abridged forms -/

/-- The members that may be left out, with their defaults. -/
def defaultMembers : List (String × Json) :=
  [("args", .arr []), ("lod", .obj [("type", .str "inherited")]), ("ignore_dimensions", .arr []),
   ("before_filter_by", .arr []), ("grouping", .obj [("type", .str "total")]),
   ("ordering", .arr []), ("joining", .arr []), ("bfb_filter_mutations", .arr []),
   ("qfork_nesting", .int 0)]

mutual

/-- The second value is the first one, with some members left out that hold their defaults. -/
inductive Abridged : Json → Json → Prop where
  | same (j : Json) : Abridged j j
  | arr {js js' : List Json} (items : AbridgedItems js js') : Abridged (.arr js) (.arr js')
  | obj {ms ms' : List (String × Json)} (members : AbridgedMembers ms ms') :
      Abridged (.obj ms) (.obj ms')

inductive AbridgedItems : List Json → List Json → Prop where
  | nil : AbridgedItems [] []
  | cons {j j' : Json} {js js' : List Json} (item : Abridged j j') (items : AbridgedItems js js') :
      AbridgedItems (j :: js) (j' :: js')

inductive AbridgedMembers : List (String × Json) → List (String × Json) → Prop where
  | nil : AbridgedMembers [] []
  | keep (n : String) {j j' : Json} {ms ms' : List (String × Json)} (value : Abridged j j')
      (members : AbridgedMembers ms ms') : AbridgedMembers ((n, j) :: ms) ((n, j') :: ms')
  | leave {m : String × Json} {ms ms' : List (String × Json)} (default : m ∈ defaultMembers)
      (members : AbridgedMembers ms ms') : AbridgedMembers (m :: ms) ms'

end

theorem AbridgedItems.forall₂ (h : AbridgedItems js js') : List.Forall₂ Abridged js js' := by
  induction js generalizing js' with
  | nil =>
      cases h
      exact .nil
  | cons j js ih =>
      cases h with
      | cons item items => exact .cons item (ih items)

theorem abridgedMembers_refl (ms : List (String × Json)) : AbridgedMembers ms ms := by
  induction ms with
  | nil => exact .nil
  | cons m ms ih => exact .keep m.1 (.same m.2) ih

theorem Abridged.of_arr (h : Abridged (.arr js) j') :
    ∃ js', j' = .arr js' ∧ List.Forall₂ Abridged js js' := by
  cases h with
  | same => exact ⟨js, rfl, List.forall₂_same.mpr fun j _ => .same j⟩
  | arr items => exact ⟨_, rfl, items.forall₂⟩

theorem Abridged.of_obj (h : Abridged (.obj ms) j') :
    ∃ ms', j' = .obj ms' ∧ AbridgedMembers ms ms' := by
  cases h with
  | same => exact ⟨ms, rfl, abridgedMembers_refl ms⟩
  | obj members => exact ⟨_, rfl, members⟩

/-- A scalar has no members to leave out. -/
theorem Abridged.eq_of_scalar (h : Abridged j j') (hscalar : j.depth = 0) : j' = j := by
  cases h with
  | same => rfl
  | arr => exact absurd hscalar (by simp [depth])
  | obj => exact absurd hscalar (by simp [depth])

/-! ### Members -/

/-- Members keep their names and their order. -/
theorem AbridgedMembers.names (h : AbridgedMembers ms ms') :
    (ms'.map Prod.fst).Sublist (ms.map Prod.fst) := by
  induction ms generalizing ms' with
  | nil =>
      cases h
      exact List.Sublist.refl _
  | cons m ms ih =>
      cases h with
      | keep n value members => exact .cons_cons n (ih members)
      | leave default members => exact .cons m.1 (ih members)

/-- No member is new. -/
theorem AbridgedMembers.lookup_eq_none (h : AbridgedMembers ms ms') (hn : n ∉ ms.map Prod.fst) :
    ms'.lookup n = none := by
  rw [List.lookup_eq_none_iff]
  intro m hm
  rw [bne_iff_ne]
  rintro rfl
  exact hn (h.names.subset (List.mem_map_of_mem hm))

/-- A member that is still there is an abridged form of what it was. -/
theorem AbridgedMembers.of_mem (h : AbridgedMembers ms ms') {m' : String × Json} (hm : m' ∈ ms') :
    ∃ m ∈ ms, Abridged m.2 m'.2 := by
  induction ms generalizing ms' with
  | nil =>
      cases h
      exact absurd hm List.not_mem_nil
  | cons m ms ih =>
      cases h with
      | keep n value members =>
          rcases List.mem_cons.mp hm with rfl | hm
          · exact ⟨_, List.mem_cons_self, value⟩
          · exact (ih members hm).imp fun _ h => ⟨List.mem_cons_of_mem _ h.1, h.2⟩
      | leave default members =>
          exact (ih members hm).imp fun _ h => ⟨List.mem_cons_of_mem _ h.1, h.2⟩

/-- Where no name is repeated, a member is still there, or it held its default and is gone. -/
theorem AbridgedMembers.lookup (h : AbridgedMembers ms ms') (hdistinct : (ms.map Prod.fst).Nodup)
    (hmem : (n, j) ∈ ms) :
    (∃ j', ms'.lookup n = some j' ∧ Abridged j j') ∨
      ms'.lookup n = none ∧ (n, j) ∈ defaultMembers := by
  induction ms generalizing ms' with
  | nil => exact absurd hmem List.not_mem_nil
  | cons m ms ih =>
      rw [List.map_cons, List.nodup_cons] at hdistinct
      cases h with
      | keep n' value members =>
          rcases List.mem_cons.mp hmem with heq | htail
          · obtain ⟨rfl, rfl⟩ := Prod.mk.inj heq
            exact Or.inl ⟨_, List.lookup_cons_self, value⟩
          · have hne : n ≠ n' := fun heq =>
              hdistinct.1 (List.mem_map.mpr ⟨(n, j), htail, heq⟩)
            rw [List.lookup_cons, beq_eq_false_iff_ne.mpr hne]
            exact ih members hdistinct.2 htail
      | leave default members =>
          rcases List.mem_cons.mp hmem with rfl | hmem
          · exact Or.inr ⟨members.lookup_eq_none hdistinct.1, default⟩
          · exact ih members hdistinct.2 hmem

/-- A required member is still there. -/
theorem AbridgedMembers.of_required (h : AbridgedMembers ((n, j) :: ms) ms')
    (hn : n ∉ defaultMembers.map Prod.fst) :
    ∃ j' ms'', ms' = (n, j') :: ms'' ∧ Abridged j j' ∧ AbridgedMembers ms ms'' := by
  cases h with
  | keep n value members => exact ⟨_, _, rfl, value, members⟩
  | leave default members => exact absurd (List.mem_map_of_mem default) hn

/-! ## Reading abridged forms -/

/-- All abridged forms of the value are read as `a`, if they are not too deep. -/
def Reads (bound : Nat) (read : Json → Option α) (j : Json) (a : α) : Prop :=
  ∀ j', Abridged j j' → j'.depth < bound → read j' = some a

section Reads

variable {read : Json → Option α} {a : α}

theorem Reads.mono {bound' : Nat} (h : Reads bound' read j a) (hle : bound ≤ bound') :
    Reads bound read j a :=
  fun j' habridged hdepth => h j' habridged (Nat.lt_of_lt_of_le hdepth hle)

theorem reads_scalar (hscalar : j.depth = 0) (h : read j = some a) : Reads bound read j a := by
  intro j' habridged _
  rw [habridged.eq_of_scalar hscalar, h]

theorem Reads.map (f : α → β) (h : Reads bound read j a) :
    Reads bound (fun j => (read j).map f) j (f a) := by
  intro j' habridged hdepth
  exact congrArg (Option.map f) (h j' habridged hdepth)

/-- A value that is not read from NULL. -/
theorem Reads.nullable (h : Reads bound read j a) (hnull : read null = none) :
    Reads bound (nullable? read) j (some a) := by
  intro j' habridged hdepth
  have hj' := h j' habridged hdepth
  cases j' with
  | null => exact absurd (hj'.symm.trans hnull) (Option.some_ne_none a)
  | _ => exact congrArg (Option.map some) hj'

theorem reads_list {write : β → Json} {read : Json → Option β} {as : List β}
    (h : ∀ a ∈ as, Reads bound read (write a) a) :
    Reads bound (list? read) (.arr (as.map write)) as := by
  intro j' habridged hdepth
  obtain ⟨js', rfl, hitems⟩ := habridged.of_arr
  rw [depth] at hdepth
  have hshallow : ∀ j ∈ js', j.depth < bound := by
    intro j hj
    have hle := depth_le_of_mem hj
    omega
  rw [list?]
  clear habridged hdepth
  induction as generalizing js' with
  | nil =>
      cases hitems
      rfl
  | cons a as ih =>
      obtain ⟨j, rest, hitem, hrest, rfl⟩ := List.forall₂_cons_left_iff.mp hitems
      rw [List.forall_mem_cons] at h hshallow
      rw [List.mapM_cons, h.1 j hitem hshallow.1, ih h.2 rest hrest hshallow.2]
      rfl

end Reads

/-! ### Records -/

/-- Members of a record that are left of those it was written with. -/
structure Shortened (bound : Nat) (ms ms' : List (String × Json)) : Prop where
  members : AbridgedMembers ms ms'
  distinct : (ms.map Prod.fst).Nodup
  shallow : ∀ m ∈ ms', m.2.depth < bound

/-- The members of a record are less deep than the record. -/
theorem reads_record_succ {read : Json → Option α} {a : α} (hdistinct : (ms.map Prod.fst).Nodup)
    (h : ∀ ms', Shortened bound ms ms' → read (.obj ms') = some a) :
    Reads (bound + 1) read (.obj ms) a := by
  intro j' habridged hdepth
  obtain ⟨ms', rfl, hmembers⟩ := habridged.of_obj
  refine h ms' ⟨hmembers, hdistinct, fun m hm => ?_⟩
  have hle : m.2.depth ≤ membersDepth ms' := depth_le_of_mem_members (n := m.1) hm
  rw [depth] at hdepth
  omega

theorem reads_record {read : Json → Option α} {a : α} (hdistinct : (ms.map Prod.fst).Nodup)
    (h : ∀ ms', Shortened bound ms ms' → read (.obj ms') = some a) :
    Reads bound read (.obj ms) a :=
  (reads_record_succ hdistinct h).mono (Nat.le_succ bound)

namespace Shortened

variable (h : Shortened bound ms ms')

include h

theorem nodup : (ms'.map Prod.fst).Nodup := h.distinct.sublist h.members.names

/-- No name is repeated, so all members can be read. -/
theorem members? (names : List String) :
    Json.members? names (.obj ms') = some fun n => ms'.lookup n := by
  refine if_pos (List.all_eq_true.mpr fun n _ => decide_eq_true ?_)
  have hcount := List.nodup_iff_count_le_one.mp h.nodup n
  rwa [List.count_eq_length_filter, List.filter_map, List.length_map] at hcount

theorem namedMembers? (names : List String) :
    Json.namedMembers? names (.obj ms') = some fun n => ms'.lookup n :=
  h.members? names

theorem taggedMembers? (m : Manner) (names : List String) :
    Json.taggedMembers? m names (.obj ms') = some fun n => ms'.lookup n := by
  rw [Json.taggedMembers?]
  split
  · exact h.members? names
  · exact h.members? names

variable {read : Json → Option α} {a : α}

theorem lookup (hmem : (n, j) ∈ ms) (hread : Reads bound read j a) :
    (∃ j', ms'.lookup n = some j' ∧ read j' = some a) ∨
      ms'.lookup n = none ∧ (n, j) ∈ defaultMembers := by
  refine (h.members.lookup h.distinct hmem).imp_left ?_
  rintro ⟨j', hlookup, habridged⟩
  obtain ⟨front, back, rfl, -⟩ := List.lookup_eq_some_iff.mp hlookup
  exact ⟨j', hlookup, hread j' habridged (h.shallow (n, j') List.mem_append_cons_self)⟩

theorem required (hmem : (n, j) ∈ ms) (hread : Reads bound read j a)
    (hrequired : n ∉ defaultMembers.map Prod.fst) :
    Members.required (fun n => ms'.lookup n) n read = some a := by
  rcases h.lookup hmem hread with ⟨j', hlookup, hj'⟩ | ⟨-, hdefault⟩
  · rw [Members.required, hlookup]
    exact hj'
  · exact absurd (List.mem_map_of_mem hdefault) hrequired

theorem optional (default : α) (hmem : (n, j) ∈ ms) (hread : Reads bound read j a)
    (hdefault : (n, j) ∈ defaultMembers → a = default) :
    Members.optional (fun n => ms'.lookup n) n default read = some a := by
  rw [Members.optional]
  rcases h.lookup hmem hread with ⟨j', hlookup, hj'⟩ | ⟨hlookup, hmem⟩
  · rw [hlookup]
    exact hj'
  · rw [hlookup, hdefault hmem]

/-- A member that may be left out, but not in abridged forms. -/
theorem optional_kept (default : α) (hmem : (n, j) ∈ ms) (hread : Reads bound read j a)
    (hkept : n ∉ defaultMembers.map Prod.fst) :
    Members.optional (fun n => ms'.lookup n) n default read = some a :=
  h.optional default hmem hread fun hdefault => absurd (List.mem_map_of_mem hdefault) hkept

/-- A member that was not written has the default. -/
theorem optional_absent (hn : n ∉ ms.map Prod.fst) (default : α) :
    Members.optional (fun n => ms'.lookup n) n default read = some default := by
  rw [Members.optional, h.members.lookup_eq_none hn]

/-- A member that was only written when there is a value. -/
theorem maybe {write : α → Json} {o : Option α} (hread : ∀ a, Reads bound read (write a) a)
    (hvalue : ∀ a, o = some a → (n, write a) ∈ ms) (hnone : o = none → n ∉ ms.map Prod.fst)
    (hn : n ∉ defaultMembers.map Prod.fst) (hnull : read null = none) :
    Members.maybe (fun n => ms'.lookup n) n read = some o := by
  cases o with
  | none => exact h.optional_absent (hnone rfl) none
  | some a => exact h.optional_kept none (hvalue a rfl) ((hread a).nullable hnull) hn

end Shortened

/-! ### Choices -/

section Choices

variable {a : α} {m : Manner} {type content : String} {v : Json}

/-- A required tag stays around its value. -/
theorem reads_tag {read : Json → Option α} {name : String}
    (hname : name ∉ defaultMembers.map Prod.fst)
    (h : Reads bound (fun i => read (tag name i)) j a) : Reads bound read (tag name j) a := by
  intro j' habridged hdepth
  obtain ⟨ms', rfl, hmembers⟩ := habridged.of_obj
  obtain ⟨i, rest, rfl, hi, hrest⟩ := hmembers.of_required hname
  cases hrest
  exact h i hi (Nat.lt_of_le_of_lt (depth_le_of_member List.mem_cons_self) hdepth)

theorem type_required : "type" ∉ defaultMembers.map Prod.fst := by decide

theorem reads_bareChoice {k : Choice → Option α} (h : k ⟨type, none, m⟩ = some a) :
    Reads bound (fun j => (j.choice? m content).bind k) (.obj [("type", .str type)]) a := by
  intro j' habridged hdepth
  obtain ⟨ms', rfl, hmembers⟩ := habridged.of_obj
  obtain ⟨i, rest, rfl, hi, hrest⟩ := hmembers.of_required type_required
  cases hrest
  cases hi.eq_of_scalar rfl
  simpa [choice?, bareTag?] using h

theorem reads_choice {k : Choice → Option α} (hcontent : content ∉ defaultMembers.map Prod.fst)
    (h : Reads bound (fun v => k ⟨type, some v, m⟩) v a) :
    Reads bound (fun j => (j.choice? m content).bind k)
      (.obj [("type", .str type), (content, v)]) a := by
  intro j' habridged hdepth
  obtain ⟨ms', rfl, hmembers⟩ := habridged.of_obj
  obtain ⟨i, rest, rfl, hi, hrest⟩ := hmembers.of_required type_required
  obtain ⟨v', rest, rfl, hv', hrest⟩ := hrest.of_required hcontent
  cases hrest
  cases hi.eq_of_scalar rfl
  have hmem : (content, v') ∈ [("type", str type), (content, v')] :=
    List.mem_cons_of_mem _ List.mem_cons_self
  have hread := h v' hv' (Nat.lt_of_le_of_lt (depth_le_of_member hmem) hdepth)
  simpa [choice?, bareTag?] using hread

end Choices

end FormulaSql.Json
