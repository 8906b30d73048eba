import FormulaSql.Proofs.Split.Names
import FormulaSql.Statement.Aliases
import FormulaSql.Text.Uuid
import Mathlib.Data.List.Nodup
import Mathlib.Data.List.Perm.Subperm

/-!
# Table aliases stay and differ

Ids may look like the short names that are given to unreadable ones, and both kinds come in any
order. What carries the proof is the list of what was given out: no id stands in it twice and no
alias does, and a readable id that lost its own name lost it to another id of the list.

* `AliasMap.finds_fresh`: the search for a short name ends at the first one that is not taken
* `AliasMap.aliasesFor_stable`: what is given out for any list of ids
-/

namespace FormulaSql

/-! ## The search for a name -/

namespace NameSupply

/-- What the search for a name that is not taken comes to, however many names are in the way. -/
inductive Finds (isTaken : String → Bool) : NameSupply → String × NameSupply → Prop where
  | free {s : NameSupply} : isTaken s.take.1 = false → Finds isTaken s s.take
  | next {s : NameSupply} {r : String × NameSupply} :
      isTaken s.take.1 = true → Finds isTaken s.take.2 r → Finds isTaken s r

variable {isTaken : String → Bool} {s : NameSupply} {r : String × NameSupply}

theorem Finds.not_taken (h : s.Finds isTaken r) : isTaken r.1 = false := by
  induction h with
  | free hfree => exact hfree
  | next _ _ ih => exact ih

theorem length_names (s : NameSupply) (n : Nat) : (s.names n).length = n := by
  induction n generalizing s with
  | zero => rfl
  | succ n ih => rw [names, List.length_cons, ih]

theorem numbered_of_mem_names {n : Nat} {x : String} (h : x ∈ s.names n) :
    ∃ k, s.next ≤ k ∧ x = s.stem ++ toString k := by
  induction n generalizing s with
  | zero => exact absurd h List.not_mem_nil
  | succ n ih =>
      rcases List.mem_cons.mp h with rfl | h
      · exact ⟨s.next, Nat.le_refl _, rfl⟩
      · obtain ⟨k, hk, rfl⟩ := ih h
        exact ⟨k, Nat.le_of_succ_le hk, rfl⟩

theorem names_nodup (s : NameSupply) (n : Nat) : (s.names n).Nodup := by
  induction n generalizing s with
  | zero => exact List.nodup_nil
  | succ n ih =>
      refine List.nodup_cons.mpr ⟨fun hmem => ?_, ih _⟩
      obtain ⟨k, hk, heq⟩ := numbered_of_mem_names hmem
      have hnext : s.next = k := Split.numbered_injective heq
      exact absurd hk (by simp [take, hnext])

/-- More names than were given out cannot all be taken. -/
theorem exists_free (s : NameSupply) {given : List String} {n : Nat} (hn : given.length < n) :
    ∃ x ∈ s.names n, x ∉ given := by
  by_contra hall
  have hsub : s.names n ⊆ given := fun x hx => by_contra fun hnot => hall ⟨x, hx, hnot⟩
  have hle := (List.subperm_of_subset (names_nodup s n) hsub).length_le
  rw [length_names] at hle
  omega

end NameSupply

namespace AliasMap

variable {m : AliasMap} {isUnreadable : String → Bool} {id a : String} {ids : List String}

theorem finds_freshFrom {isTaken : String → Bool} {s : NameSupply} {n : Nat}
    (h : ∃ x ∈ s.names (n + 1), isTaken x = false) : s.Finds isTaken (freshFrom isTaken n s) := by
  induction n generalizing s with
  | zero =>
      obtain ⟨x, hx, hfree⟩ := h
      obtain rfl := List.mem_singleton.mp hx
      exact .free hfree
  | succ n ih =>
      rw [freshFrom]
      by_cases htaken : isTaken s.take.1 = true
      · rw [if_pos htaken]
        refine .next htaken (ih ?_)
        obtain ⟨x, hx, hfree⟩ := h
        rcases List.mem_cons.mp hx with rfl | hx
        · exact absurd htaken (by simp [hfree])
        · exact ⟨x, hx, hfree⟩
      · rw [if_neg htaken]
        exact .free (Bool.eq_false_iff.mpr htaken)

theorem isTaken_iff : m.isTaken a = true ↔ a ∈ m.given.map Prod.snd := by
  rw [isTaken, List.any_eq_true, List.mem_map]
  simp only [beq_iff_eq]

theorem isTaken_eq_false : m.isTaken a = false ↔ a ∉ m.given.map Prod.snd := by
  rw [← isTaken_iff, Bool.not_eq_true]

/-- The search ends, whatever was given out before. -/
theorem finds_fresh (m : AliasMap) : m.supply.Finds m.isTaken m.fresh := by
  apply finds_freshFrom
  have hlength : (m.given.map Prod.snd).length < m.given.length + 1 := by
    rw [List.length_map]
    exact Nat.lt_succ_self _
  obtain ⟨x, hx, hfree⟩ := m.supply.exists_free hlength
  exact ⟨x, hx, isTaken_eq_false.mpr hfree⟩

/-! ## What was given out -/

/-- No id and no alias was given out twice, and a readable id with another alias than itself found
itself taken by another id. -/
structure Sound (isUnreadable : String → Bool) (m : AliasMap) : Prop where
  ids : (m.given.map Prod.fst).Nodup
  aliases : (m.given.map Prod.snd).Nodup
  own : ∀ g ∈ m.given, isUnreadable g.1 = false →
    g.2 = g.1 ∨ ∃ g' ∈ m.given, g'.1 ≠ g.1 ∧ g'.2 = g.1

theorem sound_empty (isUnreadable : String → Bool) : empty.Sound isUnreadable :=
  ⟨List.nodup_nil, List.nodup_nil, fun _ h => absurd h List.not_mem_nil⟩

theorem alias?_eq_none : m.alias? id = none ↔ id ∉ m.given.map Prod.fst := by
  rw [alias?, List.lookup_eq_none_iff, List.mem_map]
  constructor
  · rintro h ⟨g, hg, rfl⟩
    exact absurd (h g hg) (by simp)
  · intro h g hg
    exact bne_iff_ne.mpr fun heq => h ⟨g, hg, heq.symm⟩

theorem mem_given_of_alias? (h : m.alias? id = some a) : (id, a) ∈ m.given := by
  rw [alias?] at h
  generalize m.given = given at h ⊢
  induction given with
  | nil => exact absurd h (by simp)
  | cons g gs ih =>
      rw [List.lookup_cons] at h
      split at h
      next heq =>
        obtain rfl := Option.some.inj h
        rw [beq_iff_eq.mp heq]
        exact List.mem_cons_self
      next => exact List.mem_cons_of_mem _ (ih h)

/-- An id has its alias already, or it gets one that no id has. -/
theorem aliasFor_cases (isUnreadable : String → Bool) (m : AliasMap) (id : String) :
    (∃ a, (id, a) ∈ m.given ∧ m.aliasFor isUnreadable id = (a, m)) ∨
    ∃ a supply, id ∉ m.given.map Prod.fst ∧ a ∉ m.given.map Prod.snd ∧
      (isUnreadable id = false → a = id ∨ id ∈ m.given.map Prod.snd) ∧
      m.aliasFor isUnreadable id = (a, ⟨(id, a) :: m.given, supply⟩) := by
  rw [aliasFor]
  cases hknown : m.alias? id with
  | some a => exact .inl ⟨a, mem_given_of_alias? hknown, rfl⟩
  | none =>
      have hid := alias?_eq_none.mp hknown
      dsimp only
      split
      next hown =>
        rw [Bool.and_eq_true, Bool.not_eq_true', Bool.not_eq_true', isTaken_eq_false] at hown
        exact .inr ⟨id, m.supply, hid, hown.2, fun _ => .inl rfl, rfl⟩
      next hown =>
        refine .inr ⟨m.fresh.1, m.fresh.2, hid, ?_, fun hreadable => .inr ?_, rfl⟩
        · exact isTaken_eq_false.mp m.finds_fresh.not_taken
        · rw [← isTaken_iff]
          by_contra htaken
          exact hown (by simp [hreadable, htaken])

/-- A call adds at most the alias that it gives. -/
theorem mem_given_aliasFor (isUnreadable : String → Bool) (m : AliasMap) (id : String)
    (g : String × String) : g ∈ (m.aliasFor isUnreadable id).2.given ↔
      g ∈ m.given ∨ g = (id, (m.aliasFor isUnreadable id).1) := by
  rcases aliasFor_cases isUnreadable m id with ⟨a, ha, h⟩ | ⟨a, supply, -, -, -, h⟩
  · rw [h]
    exact ⟨.inl, fun hg => hg.elim (fun hg => hg) fun hg => hg ▸ ha⟩
  · rw [h, List.mem_cons]
    exact or_comm

theorem Sound.aliasFor (h : m.Sound isUnreadable) (id : String) :
    (m.aliasFor isUnreadable id).2.Sound isUnreadable := by
  rcases aliasFor_cases isUnreadable m id with ⟨a, -, heq⟩ | ⟨a, supply, hid, ha, hown, heq⟩
  · rwa [heq]
  · rw [heq]
    refine ⟨List.nodup_cons.mpr ⟨hid, h.ids⟩, List.nodup_cons.mpr ⟨ha, h.aliases⟩, ?_⟩
    intro g hg hreadable
    rcases List.mem_cons.mp hg with rfl | hg
    · rcases hown hreadable with rfl | htaken
      · exact .inl rfl
      · obtain ⟨g', hg', rfl⟩ := List.mem_map.mp htaken
        refine .inr ⟨g', List.mem_cons_of_mem _ hg', fun hsame => ?_, rfl⟩
        exact hid (List.mem_map.mpr ⟨g', hg', hsame⟩)
    · exact (h.own g hg hreadable).imp_right fun ⟨g', hg', hne⟩ =>
        ⟨g', List.mem_cons_of_mem _ hg', hne⟩

/-- After a run every id has the alias that it was given, and nothing else was added. -/
theorem Sound.aliasesFor (h : m.Sound isUnreadable) (ids : List String) :
    (m.aliasesFor isUnreadable ids).2.Sound isUnreadable ∧
      List.Forall₂ (fun id a => (id, a) ∈ (m.aliasesFor isUnreadable ids).2.given) ids
        (m.aliasesFor isUnreadable ids).1 ∧
      m.given ⊆ (m.aliasesFor isUnreadable ids).2.given ∧
      ∀ g ∈ (m.aliasesFor isUnreadable ids).2.given,
        g ∈ m.given ∨ g ∈ ids.zip (m.aliasesFor isUnreadable ids).1 := by
  induction ids generalizing m with
  | nil => exact ⟨h, .nil, fun _ hg => hg, fun _ => .inl⟩
  | cons id ids ih =>
      obtain ⟨hsound, hgiven, hsub, honly⟩ := ih (h.aliasFor id)
      have hadded := mem_given_aliasFor isUnreadable m id
      refine ⟨hsound, .cons (hsub ((hadded _).mpr (.inr rfl))) hgiven, ?_, ?_⟩
      · exact fun g hg => hsub ((hadded g).mpr (.inl hg))
      · intro g hg
        rcases honly g hg with hg | hg
        · exact ((hadded g).mp hg).imp_right fun heq => List.mem_cons.mpr (.inl heq)
        · exact .inr (List.mem_cons_of_mem _ hg)

/-- What comes later does not change what was given before. -/
theorem aliasesFor_take (isUnreadable : String → Bool) (m : AliasMap) (ids : List String)
    (n : Nat) :
    (m.aliasesFor isUnreadable (ids.take n)).1 = (m.aliasesFor isUnreadable ids).1.take n := by
  induction ids generalizing m n with
  | nil => rw [List.take_nil, aliasesFor, List.take_nil]
  | cons id ids ih =>
      cases n with
      | zero => rfl
      | succ n => exact congrArg (List.cons _) (ih _ n)

/-- What a list of ids gets. -/
structure Stable (isUnreadable : String → Bool) (ids aliases : List String) : Prop where
  length : aliases.length = ids.length
  eq_iff : ∀ (i j : Nat) (id id' a a' : String), ids[i]? = some id → ids[j]? = some id' →
    aliases[i]? = some a → aliases[j]? = some a' → (id = id' ↔ a = a')
  /-- An id that can be read is its own alias, unless another id had that alias before. -/
  own : ∀ (i : Nat) (id a : String), ids[i]? = some id → aliases[i]? = some a →
    isUnreadable id = false →
    (∀ j < i, ∀ id', ids[j]? = some id' → aliases[j]? = some id → id' = id) → a = id

/-- In a map without repetitions two entries are the same if their ids are, or their aliases. -/
theorem Sound.eq_iff (h : m.Sound isUnreadable) {g g' : String × String} (hg : g ∈ m.given)
    (hg' : g' ∈ m.given) : g.1 = g'.1 ↔ g.2 = g'.2 :=
  ⟨fun heq => congrArg Prod.snd (List.inj_on_of_nodup_map h.ids hg hg' heq),
    fun heq => congrArg Prod.fst (List.inj_on_of_nodup_map h.aliases hg hg' heq)⟩

/-- Every search for a short name ends, equal ids and no others get equal aliases, and a readable id
that no other id had for an alias before is its own alias. -/
theorem aliasesFor_stable (isUnreadable : String → Bool) (ids : List String) :
    (∀ n, let m := (empty.aliasesFor isUnreadable (ids.take n)).2
      m.supply.Finds m.isTaken m.fresh) ∧
    Stable isUnreadable ids (empty.aliasesFor isUnreadable ids).1 := by
  refine ⟨fun n => finds_fresh _, ?_⟩
  obtain ⟨hsound, hgiven, -, -⟩ := (sound_empty isUnreadable).aliasesFor ids
  have hentry {i : Nat} {id a : String} (hid : ids[i]? = some id)
      (ha : (empty.aliasesFor isUnreadable ids).1[i]? = some a) :
      (id, a) ∈ (empty.aliasesFor isUnreadable ids).2.given := by
    obtain ⟨a', ha', hmem⟩ := exists_getElem?_of_forall₂ hgiven hid
    exact Option.some.inj (ha.symm.trans ha') ▸ hmem
  refine ⟨hgiven.length_eq.symm, fun i j id id' a a' hid hid' ha ha' => ?_, ?_⟩
  · exact hsound.eq_iff (hentry hid ha) (hentry hid' ha')
  · intro i id a hid ha hreadable hearlier
    obtain ⟨hsound, hgiven, -, honly⟩ :=
      (sound_empty isUnreadable).aliasesFor (ids.take (i + 1))
    rw [aliasesFor_take] at hgiven honly
    have hid' : (ids.take (i + 1))[i]? = some id := by
      rwa [List.getElem?_take_of_lt (Nat.lt_succ_self i)]
    obtain ⟨a', ha', hmem⟩ := exists_getElem?_of_forall₂ hgiven hid'
    rw [List.getElem?_take_of_lt (Nat.lt_succ_self i)] at ha'
    obtain rfl := Option.some.inj (ha.symm.trans ha')
    rcases hsound.own _ hmem hreadable with heq | ⟨g, hg, hne, htaken⟩
    · exact heq
    · obtain ⟨j, hzip⟩ := List.mem_iff_getElem?.mp ((honly g hg).resolve_left List.not_mem_nil)
      obtain ⟨hgid, hgalias⟩ := List.getElem?_zip_eq_some.mp hzip
      have hlt : j < i + 1 := by
        have hlength := (List.getElem?_eq_some_iff.mp hgid).1
        rw [List.length_take] at hlength
        omega
      rw [List.getElem?_take_of_lt hlt] at hgid hgalias
      rw [htaken] at hgalias
      rcases Nat.lt_succ_iff_lt_or_eq.mp hlt with hlt | heq
      · exact absurd (hearlier j hlt g.1 hgid hgalias) hne
      · rw [heq, hid] at hgid
        exact absurd (Option.some.inj hgid).symm hne

/-- A readable id that looks like a short name, after the short name was given out and before it. -/
example : (empty.aliasesFor Text.isUuid ["0c1e3f6a-8b2d-4f71-9a55-6d0e4c2b7a31", "t1", "t3",
    "7b1e3f6a-8b2d-4f71-9a55-6d0e4c2b7a31"]).1 = ["t1", "t2", "t3", "t4"] := by
  decide

end AliasMap

end FormulaSql
