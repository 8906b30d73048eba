import FormulaSql.Proofs.Query.Compile
import FormulaSql.Proofs.Split.Names
import Mathlib.Data.List.Count
import Mathlib.Data.List.Nodup
import Mathlib.Data.Option.Basic

/-!
# Numbered aliases

Selected formulas and dimensions get an alias if they have none: a dimension takes that of a
selected formula that is the same, and all others are numbered one after another. Numbering does not
look at the aliases that are given. So the aliases that are given and the numbered ones together are
all aliases, and two of them clash only if a given alias is one of the numbers.

* `Compile.assignAliases_perm`: the aliases are the given ones and the next numbers
* `Compile.build_aliases`: when the aliases of a query do not clash
-/

namespace FormulaSql

namespace NameSupply

variable {s : NameSupply} {m n : Nat} {a : String}

/-- The supply after some names were taken. -/
def skip (s : NameSupply) (n : Nat) : NameSupply := { s with next := s.next + n }

theorem names_eq (s : NameSupply) (n : Nat) :
    s.names n = (List.range' s.next n).map fun k => s.stem ++ toString k := by
  induction n generalizing s with
  | zero => rfl
  | succ n ih =>
      rw [names, ih, List.range'_succ, List.map_cons]
      rfl

theorem mem_names : a ∈ s.names n ↔
    ∃ k, s.next ≤ k ∧ k < s.next + n ∧ a = s.stem ++ toString k := by
  rw [names_eq, List.mem_map]
  constructor
  · rintro ⟨k, hk, rfl⟩
    obtain ⟨hle, hlt⟩ := List.mem_range'_1.mp hk
    exact ⟨k, hle, hlt, rfl⟩
  · rintro ⟨k, hle, hlt, rfl⟩
    exact ⟨k, List.mem_range'_1.mpr ⟨hle, hlt⟩, rfl⟩

theorem nodup_names (s : NameSupply) (n : Nat) : (s.names n).Nodup := by
  rw [names_eq]
  exact (List.nodup_range').map fun _ _ => Split.numbered_injective

theorem names_add (s : NameSupply) (m n : Nat) :
    s.names (m + n) = s.names m ++ (s.skip m).names n := by
  have hskip : (s.skip m).names n =
      (List.range' (s.next + m) n).map fun k => s.stem ++ toString k := names_eq _ _
  rw [hskip, names_eq, names_eq, ← List.map_append, List.range'_append_1]

/-- Names that are taken later are other names. -/
theorem not_mem_names_of_skip (ha : a ∈ (s.skip m).names n) : a ∉ s.names m := by
  have hnodup := s.nodup_names (m + n)
  rw [names_add] at hnodup
  exact fun hmem => (List.nodup_append.mp hnodup).2.2 a hmem a ha rfl

end NameSupply

namespace Compile

/-! ## Giving aliases -/

section Assign

variable {known : Formula → Option String} {supply : NameSupply} {es : List Entry}

/-- The alias of an entry before one is numbered. -/
def givenAlias (known : Formula → Option String) (e : Entry) : Option String :=
  e.aliasName.or (known e.formula)

/-- How many entries get a number. -/
def unnamed (known : Formula → Option String) (es : List Entry) : Nat :=
  es.countP fun e => (givenAlias known e).isNone

theorem assignAliases_supply (known : Formula → Option String) (supply : NameSupply)
    (es : List Entry) : (assignAliases known supply es).2 = supply.skip (unnamed known es) := by
  induction es generalizing supply with
  | nil => rfl
  | cons e es ih =>
      rw [assignAliases, unnamed, List.countP_cons, givenAlias]
      cases hn : e.aliasName.or (known e.formula) with
      | some n => exact ih supply
      | none =>
          refine (ih supply.take.2).trans ?_
          simp only [NameSupply.skip, NameSupply.take, Option.isNone_none, if_pos, unnamed]
          rw [Nat.add_assoc, Nat.add_comm 1]

/-- The aliases are those that are given and the next numbers, in some order. -/
theorem assignAliases_perm (known : Formula → Option String) (supply : NameSupply)
    (es : List Entry) : ((assignAliases known supply es).1.map Entry.aliasName).Perm
      ((es.filterMap (givenAlias known) ++ supply.names (unnamed known es)).map some) := by
  induction es generalizing supply with
  | nil => exact List.Perm.refl _
  | cons e es ih =>
      rw [assignAliases, unnamed, List.countP_cons]
      cases hn : e.aliasName.or (known e.formula) with
      | some n =>
          have hgiven : givenAlias known e = some n := hn
          rw [List.filterMap_cons_some hgiven, hgiven]
          exact (ih supply).cons (some n)
      | none =>
          have hgiven : givenAlias known e = none := hn
          rw [List.filterMap_cons_none hgiven, hgiven]
          refine ((ih supply.take.2).cons (some supply.take.1)).trans ?_
          rw [← List.map_cons]
          exact (List.perm_middle (a := supply.take.1)).symm.map some

/-- An entry and what it becomes: it keeps its formula, and its alias is given or a number. -/
structure Assigned (known : Formula → Option String) (numbers : List String) (e e' : Entry) :
    Prop where
  formula : e'.formula = e.formula
  given : ∃ n, e'.aliasName = some n ∧ (givenAlias known e = some n ∨ n ∈ numbers)

theorem assignAliases_spec (known : Formula → Option String) (supply : NameSupply)
    (es : List Entry) : List.Forall₂ (Assigned known (supply.names (unnamed known es))) es
      (assignAliases known supply es).1 := by
  induction es generalizing supply with
  | nil => exact .nil
  | cons e es ih =>
      rw [assignAliases, unnamed, List.countP_cons, givenAlias]
      cases hn : e.aliasName.or (known e.formula) with
      | some n => exact .cons ⟨rfl, n, rfl, Or.inl hn⟩ (ih supply)
      | none =>
          refine .cons ⟨rfl, _, rfl, Or.inr List.mem_cons_self⟩ ((ih supply.take.2).imp ?_)
          rintro _ _ ⟨hformula, n, hn, h⟩
          exact ⟨hformula, n, hn, h.imp_right (List.mem_cons_of_mem _)⟩

/-- Entries with the same alias are one entry, if the alias is not a given one. -/
theorem eq_of_numbered {x y : Entry} {n : String}
    (hgiven : ∀ e ∈ es, givenAlias known e ≠ some n)
    (hx : x ∈ (assignAliases known supply es).1) (hy : y ∈ (assignAliases known supply es).1)
    (hxn : x.aliasName = some n) (hyn : y.aliasName = some n) : x = y := by
  have hcount : ((assignAliases known supply es).1.map Entry.aliasName).count (some n) ≤ 1 := by
    rw [(assignAliases_perm known supply es).count_eq, List.count_map_of_injective _ _
      (Option.some_injective _), List.count_append, List.count_eq_zero.mpr, Nat.zero_add]
    · exact List.nodup_iff_count_le_one.mp (supply.nodup_names _) n
    · intro hmem
      obtain ⟨e, he, hen⟩ := List.mem_filterMap.mp hmem
      exact hgiven e he hen
  rw [List.count, List.countP_map] at hcount
  exact eq_of_countP_le_one hcount hx hy (beq_iff_eq.mpr hxn) (beq_iff_eq.mpr hyn)

end Assign

/-- The alias of the first entry that is the same. -/
theorem aliasOf_eq_some {es : List Entry} {f : Formula} {n : String} (h : aliasOf es f = some n) :
    ∃ e ∈ es, (e.formula == f) = true ∧ e.aliasName = some n := by
  obtain ⟨e, he, hn⟩ := Option.bind_eq_some_iff.mp h
  have hsame := List.find?_some he
  exact ⟨e, List.mem_of_find?_eq_some he, hsame, hn⟩

theorem aliasOf_isNone {es : List Entry} (hes : ∀ e ∈ es, ∃ n, e.aliasName = some n)
    (f : Formula) : (aliasOf es f).isNone = !(es.map Entry.formula).any (· == f) := by
  rw [aliasOf, List.any_map]
  cases hfind : es.find? fun e => e.formula == f with
  | none => simpa using hfind
  | some e =>
      obtain ⟨n, hn⟩ := hes e (List.mem_of_find?_eq_some hfind)
      have hsame := List.find?_some hfind
      have hany : es.any ((· == f) ∘ Entry.formula) = true :=
        List.any_eq_true.mpr ⟨e, List.mem_of_find?_eq_some hfind, hsame⟩
      rw [Option.bind_some, hn, hany]
      rfl

end Compile

/-! ## The aliases of a query -/

namespace QuerySpec

/-- The aliases that are given to selected formulas and to dimensions. -/
def columnAliases (spec : QuerySpec) : List String :=
  (spec.select ++ spec.groupBy).filterMap SpecItem.aliasName

/-- How many selected formulas have no alias. -/
def unnamedFormulas (spec : QuerySpec) : Nat := spec.select.countP fun x => x.aliasName.isNone

/-- How many dimensions have no alias and are not selected. -/
def unnamedDimensions (spec : QuerySpec) : Nat :=
  spec.groupBy.countP fun d =>
    d.aliasName.isNone && !(spec.select.map SpecItem.formula).any (· == d.formula)

/-- The numbered aliases of selected formulas. -/
def formulaNumbers (spec : QuerySpec) : List String :=
  (NameSupply.start Compile.aliasStem).names spec.unnamedFormulas

/-- The numbered aliases of dimensions. -/
def dimensionNumbers (spec : QuerySpec) : List String :=
  ((NameSupply.start Compile.aliasStem).skip spec.unnamedFormulas).names spec.unnamedDimensions

end QuerySpec

namespace Compile

section Build

variable {r : Registry} {spec : QuerySpec} {x y d e : Entry} {n : String}

theorem givenAlias_none (r : Registry) :
    givenAlias (fun _ => none) ∘ entryFor r = SpecItem.aliasName :=
  funext fun _ => Option.or_none

theorem unnamed_select (r : Registry) (spec : QuerySpec) :
    unnamed (fun _ => none) (spec.select.map (entryFor r)) = spec.unnamedFormulas := by
  rw [unnamed, List.countP_map]
  exact congrArg (spec.select.countP ·) (congrArg (Option.isNone ∘ ·) (givenAlias_none r))

/-- The aliases of selected formulas are those that are given and the first numbers. -/
theorem select_aliases_perm (r : Registry) (spec : QuerySpec) :
    ((build r spec).select.map Entry.aliasName).Perm
      ((spec.select.filterMap SpecItem.aliasName ++ spec.formulaNumbers).map some) := by
  have hperm := assignAliases_perm (fun _ => none) (.start aliasStem) (spec.select.map (entryFor r))
  rwa [List.filterMap_map, givenAlias_none, unnamed_select] at hperm

theorem exists_alias_of_select (hx : x ∈ (build r spec).select) : ∃ n, x.aliasName = some n := by
  have hmem := (select_aliases_perm r spec).subset (List.mem_map_of_mem hx)
  obtain ⟨n, -, hn⟩ := List.mem_map.mp hmem
  exact ⟨n, hn.symm⟩

/-- What the aliases of dimensions are numbered from. -/
theorem groupBy_eq (r : Registry) (spec : QuerySpec) :
    (build r spec).groupBy = (assignAliases (aliasOf (build r spec).select)
      ((NameSupply.start aliasStem).skip spec.unnamedFormulas)
      (spec.groupBy.map (entryFor r))).1 := by
  rw [← unnamed_select r spec, ← assignAliases_supply]
  rfl

theorem unnamed_groupBy (r : Registry) (spec : QuerySpec) :
    unnamed (aliasOf (build r spec).select) (spec.groupBy.map (entryFor r)) =
      spec.unnamedDimensions := by
  have hselected : (build r spec).select.map Entry.formula = spec.select.map SpecItem.formula :=
    (assignAliases_formulas _ _ _).trans (List.map_map)
  rw [unnamed, List.countP_map]
  refine congrArg (spec.groupBy.countP ·) (funext fun item => ?_)
  have halias : ∀ e ∈ (build r spec).select, ∃ n, e.aliasName = some n :=
    fun e he => exists_alias_of_select he
  have hknown := aliasOf_isNone halias item.formula
  rw [hselected] at hknown
  rw [← hknown, ← Option.isNone_or]
  rfl

theorem select_cases (hx : x ∈ (build r spec).select) (hn : x.aliasName = some n) :
    ∃ item ∈ spec.select, x.formula = item.formula ∧
      (item.aliasName = some n ∨ n ∈ spec.formulaNumbers) := by
  have hall := assignAliases_spec (fun _ => none) (.start aliasStem)
    (spec.select.map (entryFor r))
  rw [unnamed_select] at hall
  obtain ⟨e, he, hformula, m, hm, hgiven⟩ := forall₂_exists_left hall hx
  obtain ⟨item, hitem, rfl⟩ := List.mem_map.mp he
  obtain rfl := Option.some.inj (hm.symm.trans hn)
  refine ⟨item, hitem, hformula, hgiven.imp_left fun hgiven => ?_⟩
  exact (congrFun (givenAlias_none r) item).symm.trans hgiven

theorem groupBy_cases (hd : d ∈ (build r spec).groupBy) (hn : d.aliasName = some n) :
    ∃ item ∈ spec.groupBy, d.formula = item.formula ∧ (item.aliasName = some n ∨
      (∃ x ∈ (build r spec).select, (x.formula == d.formula) = true ∧ x.aliasName = some n) ∨
      n ∈ spec.dimensionNumbers) := by
  have hall := assignAliases_spec (aliasOf (build r spec).select)
    ((NameSupply.start aliasStem).skip spec.unnamedFormulas) (spec.groupBy.map (entryFor r))
  rw [unnamed_groupBy, ← groupBy_eq] at hall
  obtain ⟨e, he, hformula, m, hm, hgiven⟩ := forall₂_exists_left hall hd
  obtain ⟨item, hitem, rfl⟩ := List.mem_map.mp he
  obtain rfl := Option.some.inj (hm.symm.trans hn)
  refine ⟨item, hitem, hformula, ?_⟩
  rcases hgiven with hgiven | hnumber
  · rcases Option.or_eq_some_iff.mp hgiven with hitem | ⟨-, hknown⟩
    · exact Or.inl hitem
    · exact Or.inr (Or.inl (hformula ▸ aliasOf_eq_some hknown))
  · exact Or.inr (Or.inr hnumber)

/-- Selected formulas have different aliases exactly if no alias that is given to one is the number
of another. -/
theorem select_aliases_nodup_iff (r : Registry)
    (hgiven : (spec.select.filterMap SpecItem.aliasName).Nodup) :
    ((build r spec).select.map Entry.aliasName).Nodup ↔
      ∀ n ∈ spec.select.filterMap SpecItem.aliasName, n ∉ spec.formulaNumbers := by
  rw [(select_aliases_perm r spec).nodup_iff, List.nodup_map_iff (Option.some_injective _),
    List.nodup_append]
  constructor
  · rintro ⟨-, -, hapart⟩ n hn hnumber
    exact hapart n hn n hnumber rfl
  · intro hapart
    refine ⟨hgiven, NameSupply.nodup_names _ _, ?_⟩
    rintro n hn _ hnumber rfl
    exact hapart n hn hnumber

end Build

end Compile

/-! ## Aliases that do not clash -/

/-- The aliases that are given are different ones, and no other formula has one as its number. -/
structure QuerySpec.AliasesApart (spec : QuerySpec) : Prop where
  nodup : spec.columnAliases.Nodup
  formulas : ∀ n ∈ spec.columnAliases, n ∉ spec.formulaNumbers
  dimensions : ∀ n ∈ spec.columnAliases, n ∉ spec.dimensionNumbers

namespace Compile

section Apart

variable {r : Registry} {spec : QuerySpec} {x y d : Entry} {n : String}

theorem mem_columnAliases_of_select {item : SpecItem} (hitem : item ∈ spec.select)
    (hn : item.aliasName = some n) : n ∈ spec.columnAliases :=
  List.mem_filterMap.mpr ⟨item, List.mem_append_left _ hitem, hn⟩

theorem mem_columnAliases_of_groupBy {item : SpecItem} (hitem : item ∈ spec.groupBy)
    (hn : item.aliasName = some n) : n ∈ spec.columnAliases :=
  List.mem_filterMap.mpr ⟨item, List.mem_append_right _ hitem, hn⟩

variable (h : spec.AliasesApart)

include h

theorem select_aliases_nodup : ((build r spec).select.map Entry.aliasName).Nodup := by
  have hgiven : (spec.select.filterMap SpecItem.aliasName).Nodup := by
    refine h.nodup.sublist ?_
    exact (List.sublist_append_left _ _).filterMap _
  refine (select_aliases_nodup_iff r hgiven).mpr fun n hn => h.formulas n ?_
  obtain ⟨item, hitem, hname⟩ := List.mem_filterMap.mp hn
  exact mem_columnAliases_of_select hitem hname

theorem eq_of_select (hx : x ∈ (build r spec).select) (hy : y ∈ (build r spec).select)
    (hxn : x.aliasName = some n) (hyn : y.aliasName = some n) : x = y := by
  exact List.inj_on_of_nodup_map (select_aliases_nodup h) hx hy (hxn.trans hyn.symm)

theorem same_of_select_groupBy (hx : x ∈ (build r spec).select) (hd : d ∈ (build r spec).groupBy)
    (hxn : x.aliasName = some n) (hdn : d.aliasName = some n) :
    (x.formula == d.formula) = true := by
  obtain ⟨item, hitem, hformula, hcase⟩ := select_cases hx hxn
  obtain ⟨item', hitem', hformula', hgiven' | ⟨y, hy, hsame, hyn⟩ | hnumber'⟩ :=
    groupBy_cases hd hdn
  · rcases hcase with hgiven | hnumber
    · obtain rfl := eq_of_nodup_filterMap h.nodup (List.mem_append_left _ hitem)
        (List.mem_append_right _ hitem') hgiven hgiven'
      rw [hformula, hformula']
      exact BEq.rfl
    · exact absurd hnumber (h.formulas n (mem_columnAliases_of_groupBy hitem' hgiven'))
  · obtain rfl := eq_of_select h hx hy hxn hyn
    exact hsame
  · rcases hcase with hgiven | hnumber
    · exact absurd hnumber' (h.dimensions n (mem_columnAliases_of_select hitem hgiven))
    · exact absurd hnumber (NameSupply.not_mem_names_of_skip hnumber')

theorem same_of_groupBy (hx : x ∈ (build r spec).groupBy) (hd : d ∈ (build r spec).groupBy)
    (hxn : x.aliasName = some n) (hdn : d.aliasName = some n) :
    (x.formula == d.formula) = true := by
  obtain ⟨item, hitem, hformula, hgiven | ⟨y, hy, hsame, hyn⟩ | hnumber⟩ := groupBy_cases hx hxn
  · obtain ⟨item', hitem', hformula', hgiven' | ⟨y, hy, hsame, hyn⟩ | hnumber'⟩ :=
      groupBy_cases hd hdn
    · obtain rfl := eq_of_nodup_filterMap h.nodup (List.mem_append_right _ hitem)
        (List.mem_append_right _ hitem') hgiven hgiven'
      rw [hformula, hformula']
      exact BEq.rfl
    · exact BEq.trans (BEq.symm (same_of_select_groupBy h hy hx hyn hxn)) hsame
    · exact absurd hnumber' (h.dimensions n (mem_columnAliases_of_groupBy hitem hgiven))
  · exact BEq.trans (BEq.symm hsame) (same_of_select_groupBy h hy hd hyn hdn)
  · have hgiven : ∀ e ∈ spec.groupBy.map (entryFor r),
        givenAlias (aliasOf (build r spec).select) e ≠ some n := by
      intro e he hen
      obtain ⟨item, hitem, rfl⟩ := List.mem_map.mp he
      rcases Option.or_eq_some_iff.mp hen with hitem' | ⟨-, hknown⟩
      · exact h.dimensions n (mem_columnAliases_of_groupBy hitem hitem') hnumber
      · obtain ⟨y, hy, -, hyn⟩ := aliasOf_eq_some hknown
        obtain ⟨item', hitem', -, hgiven' | hnumber'⟩ := select_cases hy hyn
        · exact h.dimensions n (mem_columnAliases_of_select hitem' hgiven') hnumber
        · exact NameSupply.not_mem_names_of_skip hnumber hnumber'
    rw [groupBy_eq] at hx hd
    rw [eq_of_numbered hgiven hx hd hxn hdn]
    exact BEq.rfl

omit h in
/-- Let the aliases that are given be different. Then selected formulas have different aliases
exactly if none that is given to one is the number of another. And if no given alias is a number of
some selected formula or dimension, a selected formula has the alias of a dimension only if it is
the same. -/
theorem build_aliases (r : Registry) (hnodup : spec.columnAliases.Nodup) :
    (((build r spec).select.map Entry.aliasName).Nodup ↔
        ∀ n ∈ spec.select.filterMap SpecItem.aliasName, n ∉ spec.formulaNumbers) ∧
      ((∀ n ∈ spec.columnAliases, n ∉ spec.formulaNumbers ∧ n ∉ spec.dimensionNumbers) →
        ((build r spec).select.map Entry.aliasName).Nodup ∧
        ∀ x ∈ (build r spec).select, ∃ n, x.aliasName = some n ∧
          ∀ d ∈ (build r spec).groupBy, d.aliasName = some n → (x.formula == d.formula) = true) := by
  refine ⟨select_aliases_nodup_iff r
    (hnodup.sublist ((List.sublist_append_left _ _).filterMap _)), fun hnumbers => ?_⟩
  have h : spec.AliasesApart :=
    ⟨hnodup, fun n hn => (hnumbers n hn).1, fun n hn => (hnumbers n hn).2⟩
  refine ⟨select_aliases_nodup h, fun x hx => ?_⟩
  obtain ⟨n, hn⟩ := exists_alias_of_select hx
  exact ⟨n, hn, fun d hd hdn => same_of_select_groupBy h hx hd hn hdn⟩

end Apart

/-- Two selected formulas and three dimensions; one of the dimensions is selected. -/
def cityAndDate : QuerySpec :=
  { QuerySpec.empty with
    select := [⟨.field "date", none, none⟩, ⟨.field "city", none, some "city"⟩]
    groupBy := [⟨.field "date", none, none⟩, ⟨.field "city", none, some "town"⟩,
      ⟨.field "cat", none, none⟩] }

theorem build_aliases_cityAndDate :
    cityAndDate.columnAliases.Nodup ∧
      (∀ n ∈ cityAndDate.columnAliases,
        n ∉ cityAndDate.formulaNumbers ∧ n ∉ cityAndDate.dimensionNumbers) ∧
      ((build .empty cityAndDate).select.map Entry.aliasName).Nodup :=
  have hnodup : cityAndDate.columnAliases.Nodup := by decide
  have hnumbers : ∀ n ∈ cityAndDate.columnAliases,
      n ∉ cityAndDate.formulaNumbers ∧ n ∉ cityAndDate.dimensionNumbers := by decide
  ⟨hnodup, hnumbers, ((build_aliases .empty hnodup).2 hnumbers).1⟩

/-- The alias that is given to the second formula is the number of the first. -/
def cityFirst : QuerySpec :=
  { QuerySpec.empty with
    select := [⟨.field "date", none, none⟩, ⟨.field "city", none, some "res_1"⟩] }

theorem build_aliases_cityFirst :
    cityFirst.columnAliases.Nodup ∧
      (build .empty cityFirst).select.map Entry.aliasName = [some "res_1", some "res_1"] := by
  decide

end Compile

end FormulaSql
