import FormulaSql.Proofs.Data.Outcomes
import FormulaSql.Proofs.Formula.Rewriting
import FormulaSql.Proofs.Sql.Precedence
import FormulaSql.Statement.Text

/-!
# The conditions of a statement and its text

The filters of a clause are written with AND between them and without parentheses. If they are
legible there, the text of the statement tells their conjunction. An OR among several filters is
not: its sides are read apart, and the other filters go with one of them only.

* `MultiStatement.conjunction_iff_of_text_eq`: conditions of statements with the same text
* `MultiStatement.conjunction_not_iff`: an OR among other filters
-/

namespace FormulaSql

/-! ## Clauses -/

namespace Sql

/-- All conditions can stand in one clause. An OR has to be alone there. -/
def allLegible (es : List Sql) : Bool :=
  es.all (legible (if es.length = 1 then 2 else 1))

variable {u : Sql → Prop} {v : String → Prop} {es es' : List Sql}

/-- Conditions with AND between them are read as their conjunction. -/
theorem reading_clause (hne : es ≠ []) (h : allLegible es = true) :
    Condition.Reading v (Condition.piecesOf (" AND ".intercalate (es.map text)).toList) ↔
      ∀ e ∈ es, e.holds fun a => v a.text := by
  rw [allLegible, List.all_eq_true] at h
  match es, hne with
  | [e], _ => simpa using (reads_of_legible (h e List.mem_cons_self)).reading
  | e :: e' :: es, _ => exact (reads_conjunction h).reading

/-- The truth of a text, if it is that of some atoms. -/
def truthIn (as : List Sql) (u : Sql → Prop) (text : String) : Prop :=
  ∃ a ∈ as, a.text = text ∧ u a

/-- Where atoms with the same text have the same truth, the truth of conditions goes by texts. -/
theorem conjunction_iff_truthIn {as : List Sql} (hes : es.flatMap atoms ⊆ as)
    (hu : ∀ a ∈ as, ∀ b ∈ as, a.text = b.text → (u a ↔ u b)) :
    (∀ e ∈ es, e.holds u) ↔ ∀ e ∈ es, e.holds fun a => truthIn as u a.text := by
  refine forall₂_congr fun e he => holds_congr fun a ha => ?_
  have hmem : a ∈ as := hes (List.mem_flatMap.mpr ⟨e, he, ha⟩)
  constructor
  · exact fun h => ⟨a, hmem, rfl, h⟩
  · rintro ⟨b, hb, htext, h⟩
    exact (hu b hb a hmem htext).mp h

end Sql

namespace Statement

/-- The clauses whose conditions all have to hold. -/
inductive FilterClause where
  | rows
  | groups

/-- The statement with other conditions in a clause. -/
def withFilters (s : Statement) (es : List Sql) : FilterClause → Statement
  | .rows => { s with rowFilters := es }
  | .groups => { s with groupFilters := es }

variable {s : Statement} {es es' : List Sql}

theorem clause_ne_empty {keyword separator : String} (hne : es ≠ []) (hkeyword : keyword ≠ "") :
    clause keyword separator es ≠ "" := by
  cases es with
  | nil => exact absurd rfl hne
  | cons e es => simp [clause, hkeyword]

/-- Conditions that make the same clause have the same conjunction. -/
theorem conjunction_iff_of_clause_eq {v : String → Prop} {keyword : String}
    (hkeyword : keyword ≠ "") (hes : Sql.allLegible es = true) (hes' : Sql.allLegible es' = true)
    (h : clause keyword " AND " es = clause keyword " AND " es') :
    (∀ e ∈ es, e.holds fun a => v a.text) ↔ ∀ e ∈ es', e.holds fun a => v a.text := by
  by_cases hne : es = []
  · subst hne
    by_cases hne' : es' = []
    · rw [hne']
    · exact absurd h.symm (clause_ne_empty hne' hkeyword)
  · by_cases hne' : es' = []
    · subst hne'
      exact absurd h (clause_ne_empty hne hkeyword)
    · have htexts :
          " AND ".intercalate (es.map Sql.text) = " AND ".intercalate (es'.map Sql.text) := by
        simpa [clause, hne, hne'] using h
      rw [← Sql.reading_clause hne hes, ← Sql.reading_clause hne' hes', htexts]

/-- Only the clause with other conditions differs after the FROM clause. -/
theorem clause_eq_of_tail_eq {k : FilterClause}
    (h : (s.withFilters es k).tail = (s.withFilters es' k).tail) :
    ∃ keyword, keyword ≠ "" ∧ clause keyword " AND " es = clause keyword " AND " es' := by
  cases k with
  | rows => exact ⟨" WHERE ", by decide, by simpa [tail, withFilters] using h⟩
  | groups => exact ⟨" HAVING ", by decide, by simpa [tail, withFilters] using h⟩

/-! ## Statements -/

/-- The text of a statement up to its FROM clause. -/
def heading (inner : String → Except QueryError String) (s : Statement) :
    Except QueryError String := do
  let root ← s.root.text inner
  let joins ← s.joins.mapM (Join.text inner)
  return "SELECT " ++ ", ".intercalate (s.select.map SelectItem.text) ++ " FROM " ++ root ++
    String.join joins

variable {inner inner' : String → Except QueryError String} {t u : String}

theorem text_eq_ok : s.text inner = .ok t ↔ ∃ u, s.heading inner = .ok u ∧ u ++ s.tail = t := by
  constructor
  · intro h
    obtain ⟨root, hroot, h⟩ := bind_eq_ok.mp h
    obtain ⟨joins, hjoins, h⟩ := bind_eq_ok.mp h
    exact ⟨_, bind_eq_ok.mpr ⟨root, hroot, bind_eq_ok.mpr ⟨joins, hjoins, rfl⟩⟩, Except.ok.inj h⟩
  · rintro ⟨u, h, ht⟩
    obtain ⟨root, hroot, h⟩ := bind_eq_ok.mp h
    obtain ⟨joins, hjoins, h⟩ := bind_eq_ok.mp h
    rw [← Except.ok.inj h] at ht
    exact bind_eq_ok.mpr ⟨root, hroot, bind_eq_ok.mpr ⟨joins, hjoins, congrArg _ ht⟩⟩

theorem heading_withFilters (k : FilterClause) :
    (s.withFilters es k).heading inner = s.heading inner := by
  cases k <;> rfl

/-- The heading stays as it is if more statements can be written. -/
theorem heading_mono (hinner : ∀ id t, inner id = .ok t → inner' id = .ok t)
    (h : s.heading inner = .ok u) : s.heading inner' = .ok u := by
  have hitem {i : FromItem} {t : String} (h : i.text inner = .ok t) : i.text inner' = .ok t := by
    cases i with
    | table => exact h
    | subquery id aliasName =>
        obtain ⟨text, htext, h⟩ := bind_eq_ok.mp h
        exact bind_eq_ok.mpr ⟨text, hinner _ _ htext, h⟩
  have hjoin {j : Join} {t : String} (h : j.text inner = .ok t) : j.text inner' = .ok t := by
    obtain ⟨source, hsource, h⟩ := bind_eq_ok.mp h
    exact bind_eq_ok.mpr ⟨source, hitem hsource, h⟩
  obtain ⟨root, hroot, h⟩ := bind_eq_ok.mp h
  obtain ⟨joins, hjoins, h⟩ := bind_eq_ok.mp h
  have hjoins' : s.joins.mapM (Join.text inner') = .ok joins :=
    mapM_of_forall₂ ((mapM_eq_ok hjoins).imp fun _ _ => hjoin)
  exact bind_eq_ok.mpr ⟨root, hitem hroot, bind_eq_ok.mpr ⟨joins, hjoins', h⟩⟩

theorem text_mono (hinner : ∀ id t, inner id = .ok t → inner' id = .ok t)
    (h : s.text inner = .ok t) : s.text inner' = .ok t := by
  obtain ⟨u, hu, ht⟩ := text_eq_ok.mp h
  exact text_eq_ok.mpr ⟨u, heading_mono hinner hu, ht⟩

end Statement

namespace MultiStatement

variable {m m' : MultiStatement} {init : List Statement} {s s' : Statement} {n n' : Nat}
  {id t u : String}

theorem textOf_succ_eq_ok : m.textOf (n + 1) id = .ok t ↔
    ∃ s, m.statement? id = some s ∧ s.text (m.textOf n) = .ok t := by
  rw [textOf]
  split
  next s hs => simp [hs]
  next hnone => simp [hnone]

theorem textOf_succ (h : m.textOf n id = .ok t) : m.textOf (n + 1) id = .ok t := by
  induction n generalizing id t with
  | zero => exact absurd h (by simp [textOf])
  | succ n ih =>
      obtain ⟨s, hs, htext⟩ := textOf_succ_eq_ok.mp h
      exact textOf_succ_eq_ok.mpr ⟨s, hs, Statement.text_mono (fun _ _ => ih) htext⟩

/-- A statement that is written is written in the same way at a greater depth. -/
theorem textOf_mono (hn : n ≤ n') (h : m.textOf n id = .ok t) : m.textOf n' id = .ok t := by
  induction hn with
  | refl => exact h
  | step _ ih => exact textOf_succ ih

/-! ### The last statement -/

/-- What is not looked up as the last statement does not depend on it. -/
theorem statement?_concat {x : Statement}
    (h : (⟨init ++ [s]⟩ : MultiStatement).statement? id = some x) :
    x = s ∨ (⟨init ++ [s']⟩ : MultiStatement).statement? id = some x := by
  rw [statement?, List.find?_append] at h ⊢
  cases hinit : init.find? fun s => s.id == id with
  | some y =>
      rw [hinit] at h
      exact .inr h
  | none =>
      rw [hinit, Option.none_or] at h
      exact .inl (List.mem_singleton.mp (List.mem_of_find?_eq_some h))

/-- Where the last statement cannot be written, it is not part of what can. -/
theorem textOf_concat
    (hs : ∀ j < n, ∀ t, s.text ((⟨init ++ [s]⟩ : MultiStatement).textOf j) ≠ .ok t)
    (h : (⟨init ++ [s]⟩ : MultiStatement).textOf n id = .ok t) :
    (⟨init ++ [s']⟩ : MultiStatement).textOf n id = .ok t := by
  induction n generalizing id t with
  | zero => exact absurd h (by simp [textOf])
  | succ n ih =>
      obtain ⟨x, hx, htext⟩ := textOf_succ_eq_ok.mp h
      rcases statement?_concat hx with rfl | hx'
      · exact absurd htext (hs n (Nat.lt_succ_self n) t)
      · have hinner : ∀ id t, (⟨init ++ [s]⟩ : MultiStatement).textOf n id = .ok t →
            (⟨init ++ [s']⟩ : MultiStatement).textOf n id = .ok t :=
          fun _ _ => ih fun j hj => hs j (Nat.lt_succ_of_lt hj)
        exact textOf_succ_eq_ok.mpr ⟨x, hx', Statement.text_mono hinner htext⟩

/-- What comes before the clauses of the last statement is the same for another statement with this
heading: at the least depth at which it can be written, it is not part of itself. -/
theorem heading_concat (hheading : ∀ inner, s'.heading inner = s.heading inner)
    (h : s.heading ((⟨init ++ [s]⟩ : MultiStatement).textOf n) = .ok u) :
    s'.heading ((⟨init ++ [s']⟩ : MultiStatement).textOf n) = .ok u := by
  induction n using Nat.strongRecOn generalizing u with
  | ind n ih =>
      by_cases hearlier : ∃ j < n, ∃ u',
          s.heading ((⟨init ++ [s]⟩ : MultiStatement).textOf j) = .ok u'
      · obtain ⟨j, hj, u', hu'⟩ := hearlier
        have hsame := Statement.heading_mono (fun _ _ => textOf_mono (Nat.le_of_lt hj)) hu'
        obtain rfl := Except.ok.inj (h.symm.trans hsame)
        exact Statement.heading_mono (fun _ _ => textOf_mono (Nat.le_of_lt hj)) (ih j hj hu')
      · rw [hheading]
        refine Statement.heading_mono (fun id t => textOf_concat fun j hj t ht => ?_) h
        obtain ⟨u', hu', -⟩ := Statement.text_eq_ok.mp ht
        exact hearlier ⟨j, hj, u', hu'⟩

theorem text_concat : (⟨init ++ [s]⟩ : MultiStatement).text =
    s.text ((⟨init ++ [s]⟩ : MultiStatement).textOf (init.length + 1)) := by
  simp [text, top?]

/-- Two statements that differ in the conditions of one clause only: if the conditions are legible
and the texts are equal, the conjunctions of the conditions are equivalent. Atoms of the same text
cannot be told apart, so they have to have the same truth. -/
theorem conjunction_iff_of_text_eq (k : Statement.FilterClause) {es es' : List Sql}
    (hes : Sql.allLegible es = true) (hes' : Sql.allLegible es' = true) (v : Sql → Prop)
    (hv : ∀ a ∈ (es ++ es').flatMap Sql.atoms, ∀ b ∈ (es ++ es').flatMap Sql.atoms,
      a.text = b.text → (v a ↔ v b))
    (h : (⟨init ++ [s.withFilters es k]⟩ : MultiStatement).text = .ok t)
    (h' : (⟨init ++ [s.withFilters es' k]⟩ : MultiStatement).text = .ok t) :
    (∀ e ∈ es, e.holds v) ↔ ∀ e ∈ es', e.holds v := by
  rw [text_concat] at h h'
  obtain ⟨u, hu, ht⟩ := Statement.text_eq_ok.mp h
  obtain ⟨u', hu', ht'⟩ := Statement.text_eq_ok.mp h'
  have hheading : (s.withFilters es' k).heading
      ((⟨init ++ [s.withFilters es' k]⟩ : MultiStatement).textOf (init.length + 1)) = .ok u :=
    heading_concat
      (fun inner => by rw [Statement.heading_withFilters, Statement.heading_withFilters]) hu
  obtain rfl := Except.ok.inj (hu'.symm.trans hheading)
  have htail := (String.append_right_inj u').mp (ht.trans ht'.symm)
  obtain ⟨keyword, hkeyword, hclause⟩ := Statement.clause_eq_of_tail_eq htail
  have hsub : es.flatMap Sql.atoms ⊆ (es ++ es').flatMap Sql.atoms := by
    rw [List.flatMap_append]
    exact List.subset_append_left _ _
  have hsub' : es'.flatMap Sql.atoms ⊆ (es ++ es').flatMap Sql.atoms := by
    rw [List.flatMap_append]
    exact List.subset_append_right _ _
  rw [Sql.conjunction_iff_truthIn hsub hv, Sql.conjunction_iff_truthIn hsub' hv]
  exact Statement.conjunction_iff_of_clause_eq hkeyword hes hes' hclause

/-! ### Orders that are paid, sent or of this year -/

def paid : Sql := .column (some "t") "paid"

def sent : Sql := .column (some "t") "sent"

def recent : Sql := .between (.column (some "t") "year") (.int 2024) (.int 2025) false

/-- The cities of all orders. -/
def cities : Statement where
  id := "qq"
  select := [⟨.column (some "t") "city", some "res_1", .plain .string⟩]
  groupBy := []
  rowFilters := []
  groupFilters := []
  orderBy := []
  root := .table "orders" "t"
  joins := []

/-- The cities of the orders with some conditions. -/
def citiesWhere (es : List Sql) : MultiStatement := ⟨[] ++ [cities.withFilters es .rows]⟩

theorem conjunction_iff_regrouped :
    (citiesWhere [.and (.grouped (.or paid sent)) recent, sent]).text =
        .ok ("SELECT t.\"city\" AS \"res_1\" FROM \"orders\" AS t WHERE " ++
          "(t.\"paid\" OR t.\"sent\") AND t.\"year\" BETWEEN 2024 AND 2025 AND t.\"sent\"") ∧
      ∀ v : String → Prop,
        (∀ e ∈ [Sql.and (.grouped (.or paid sent)) recent, sent], e.holds fun a => v a.text) ↔
          ∀ e ∈ [Sql.grouped (.or paid sent), .and recent sent], e.holds fun a => v a.text := by
  have htext : (citiesWhere [.and (.grouped (.or paid sent)) recent, sent]).text =
      .ok ("SELECT t.\"city\" AS \"res_1\" FROM \"orders\" AS t WHERE " ++
        "(t.\"paid\" OR t.\"sent\") AND t.\"year\" BETWEEN 2024 AND 2025 AND t.\"sent\"") := by
    rfl
  refine ⟨htext, fun v => ?_⟩
  exact conjunction_iff_of_text_eq .rows (by decide) (by decide)
    (fun a => v a.text) (fun _ _ _ _ h => by rw [h]) htext rfl

/-- Two conditions, one of which is an OR, are written like one condition that has the other in a
side of the OR. -/
theorem conjunction_not_iff :
    (citiesWhere [.or paid sent, recent]).text = (citiesWhere [.or paid (.and sent recent)]).text ∧
      (∃ t, (citiesWhere [.or paid sent, recent]).text = .ok t) ∧
      ∃ v : Sql → Prop, ¬ ((∀ e ∈ [Sql.or paid sent, recent], e.holds v) ↔
        ∀ e ∈ [Sql.or paid (.and sent recent)], e.holds v) := by
  have hrecent : recent ≠ paid := by simp [recent, paid]
  refine ⟨rfl, ⟨_, rfl⟩, (· = paid), fun h => ?_⟩
  have hsecond : ∀ e ∈ [Sql.or paid (.and sent recent)], e.holds (· = paid) :=
    List.forall_mem_singleton.mpr (.inl rfl)
  exact hrecent (h.mpr hsecond recent (List.mem_cons_of_mem _ List.mem_cons_self))

end MultiStatement

end FormulaSql
