import FormulaSql.Formula.Build
import FormulaSql.Proofs.Data.Outcomes
import FormulaSql.Proofs.Formula.Nodes
import FormulaSql.Proofs.Formula.Rewriting
import FormulaSql.Statement.Build

/-!
# Statements have everything that their queries have

Each clause of a statement is made of the entries of one part of its query, in their order. Filters
go to two clauses, by whether they are on groups. A join condition stands with the source on its
right side. The first source is joined to nothing, so a condition with that source on its right side
is passed over.

* `MultiQuery.statements_cover`: the clauses of all statements
* `MultiQuery.statements_pass_over`: a join condition that is in no statement
-/

namespace FormulaSql

/-! ## Conditions and their parts -/

/-- What has to hold if the whole condition holds: one side of an AND, or a part of it. -/
inductive Sql.Conjunct (c : Sql) : Sql → Prop where
  | self : Conjunct c c
  | left {a b : Sql} : Conjunct c a → Conjunct c (.and a b)
  | right {a b : Sql} : Conjunct c b → Conjunct c (.and a b)

namespace Sql

variable {c p : Sql} {ps : List Sql}

theorem Conjunct.foldl (h : c.Conjunct p) (ps : List Sql) : c.Conjunct (ps.foldl Sql.and p) := by
  induction ps generalizing p with
  | nil => exact h
  | cons q ps ih => exact ih h.left

/-- All parts that are put together stay parts. -/
theorem conjunct_foldl (h : c ∈ p :: ps) : c.Conjunct (ps.foldl Sql.and p) := by
  induction ps generalizing p with
  | nil =>
      obtain rfl := List.mem_singleton.mp h
      exact .self
  | cons q ps ih =>
      rcases List.mem_cons.mp h with rfl | h
      · exact Conjunct.foldl (.left .self) ps
      · rcases List.mem_cons.mp h with rfl | h
        · exact Conjunct.foldl (.right .self) ps
        · exact ih (List.mem_cons_of_mem _ h)

end Sql

/-! ## Statements and queries -/

/-- The formula of the entry is written as `x`. -/
def Entry.Writes (scope : Scope) (e : Entry) (x : Sql) : Prop :=
  ∃ a, e.formula.lower scope = .ok a ∧ x = a.sql

/-- The source has this place in a FROM clause. -/
def Source.ReadAs : Source → FromItem → Prop
  | .table _ _ source, item => ∃ aliasName, item = .table source aliasName
  | .subquery _ aliasName queryId _, item => item = .subquery queryId aliasName

/-- The conditions that a source is joined on. -/
def Query.joinsTo (q : Query) (id : String) : List Entry :=
  q.joinOn.filter fun e => e.join.any fun j => j.rightId == id

/-- What a statement has of its query when formulas are written in `scope`. -/
structure Statement.Covers (s : Statement) (scope : Scope) (q : Query) : Prop where
  id : s.id = q.id
  select : List.Forall₂ (fun e i => ∃ a, e.formula.lower scope = .ok a ∧
    i = ⟨a.sql, e.aliasName, a.type⟩) q.select s.select
  groupBy : List.Forall₂ (Entry.Writes scope) q.groupBy s.groupBy
  rowFilters : List.Forall₂ (Entry.Writes scope)
    (q.filters.filter fun e => !e.formula.isAggregateExpression) s.rowFilters
  groupFilters : List.Forall₂ (Entry.Writes scope)
    (q.filters.filter fun e => e.formula.isAggregateExpression) s.groupFilters
  orderBy : List.Forall₂ (fun e x => ∃ a, e.formula.lower scope = .ok a ∧
    x = .ordered a.sql (e.direction == some .desc)) q.orderBy s.orderBy
  froms : List.Forall₂ Source.ReadAs q.sources s.froms
  /-- A source is joined on all its conditions together, and there is one at least. -/
  joins : List.Forall₂ (fun source j => ∃ p ps,
    List.Forall₂ (Entry.Writes scope) (q.joinsTo source.id) (p :: ps) ∧
      j.condition = ps.foldl Sql.and p) q.sources.tail s.joins

/-- A join condition is part of the condition of the source on its right side. -/
theorem Statement.Covers.conjunct {s : Statement} {scope : Scope} {q : Query}
    (h : s.Covers scope q) {e : Entry} (he : e ∈ q.joinOn) {spec : JoinSpec}
    (hspec : e.join = some spec) {i : Nat} {source : Source}
    (hsource : q.sources.tail[i]? = some source) (hright : spec.rightId = source.id) :
    ∃ j x, s.joins[i]? = some j ∧ e.Writes scope x ∧ x.Conjunct j.condition := by
  obtain ⟨hi, rfl⟩ := List.getElem?_eq_some_iff.mp hsource
  have hjoin := h.joins.get hi (h.joins.length_eq ▸ hi)
  obtain ⟨p, ps, hparts, hcondition⟩ := hjoin
  have hmem : e ∈ q.joinsTo q.sources.tail[i].id := by
    refine List.mem_filter.mpr ⟨he, ?_⟩
    rw [hspec, Option.any_some, beq_iff_eq]
    exact hright
  obtain ⟨x, hx, hwrites⟩ := forall₂_exists_right hparts hmem
  refine ⟨_, x, List.getElem?_eq_getElem (h.joins.length_eq ▸ hi), hwrites, ?_⟩
  rw [List.get_eq_getElem] at hcondition
  rw [hcondition]
  exact Sql.conjunct_foldl hx

namespace Statement

variable {r : Registry} {dialect : Dialects} {scope : Scope} {q : Query} {s : Statement}
  {earlier : List Statement} {aliases aliases' : AliasMap} {bound : List Bound}

/-! ## Clauses -/

/-- How formulas of a query are written, with the errors of the query. -/
def lowerIn (scope : Scope) (id : String) : Lower := fun f =>
  (f.lower scope).mapError (.lowering id)

theorem lowerIn_eq_ok {id : String} {f : Formula} {a : TypedSql} :
    lowerIn scope id f = .ok a ↔ f.lower scope = .ok a := by
  rw [lowerIn]
  cases f.lower scope with
  | error => simp [Except.mapError]
  | ok b => simp [Except.mapError]

theorem writes_of_lowerIn {id : String} {e : Entry} {x : Sql}
    (h : (do return (← lowerIn scope id e.formula).sql : Except QueryError Sql) = .ok x) :
    e.Writes scope x := by
  obtain ⟨a, ha, h⟩ := bind_eq_ok.mp h
  exact ⟨a, lowerIn_eq_ok.mp ha, (Except.ok.inj h).symm⟩

/-- The filters of one kind, and what they are written as. -/
theorem forall₂_filters {id : String} {es : List Entry} {fs : List (Sql × Bool)}
    (h : List.Forall₂ (fun e f => filterItem (lowerIn scope id) e = .ok f) es fs)
    (isChosen : Bool → Bool) :
    List.Forall₂ (Entry.Writes scope)
      (es.filter fun e => isChosen e.formula.isAggregateExpression)
      ((fs.filter fun f => isChosen f.2).map (·.1)) := by
  induction h with
  | nil => exact .nil
  | @cons e f es fs he _ ih =>
      obtain ⟨a, ha, hf⟩ := bind_eq_ok.mp he
      obtain rfl := Except.ok.inj hf
      rw [List.filter_cons, List.filter_cons]
      split
      · exact .cons ⟨a, lowerIn_eq_ok.mp ha, rfl⟩ ih
      · exact ih

/-- The conditions for a source are those that have it on their right side. -/
theorem map_conditionsFor (q : Query) (id : String) :
    (conditionsFor q id).map (·.2) = (q.joinsTo id).map Entry.formula := by
  rw [conditionsFor, Query.joinsTo]
  induction q.joinOn with
  | nil => rfl
  | cons e es ih =>
      rw [List.filterMap_cons, List.filter_cons]
      cases e.join with
      | none => exact ih
      | some j =>
          rw [Option.bind_some, Option.any_some]
          by_cases hj : (j.rightId == id) = true
          · rw [if_pos hj, if_pos hj, List.map_cons, List.map_cons, ih]
          · rw [if_neg hj, if_neg hj]
            exact ih

theorem joinTo_eq_ok {b : Bound} {j : Join} (h : joinTo (lowerIn scope q.id) q b = .ok j) :
    j.source = b.item ∧ ∃ p ps,
      List.Forall₂ (Entry.Writes scope) (q.joinsTo b.id) (p :: ps) ∧
        j.condition = ps.foldl Sql.and p := by
  obtain ⟨parts, hparts, h⟩ := bind_eq_ok.mp h
  have hwrites : List.Forall₂ (Entry.Writes scope) (q.joinsTo b.id) parts := by
    have hformulas : List.Forall₂ (fun f x => ∃ a, f.lower scope = .ok a ∧ x = a.sql)
        ((conditionsFor q b.id).map (·.2)) parts := by
      rw [List.forall₂_map_left_iff]
      refine (mapM_eq_ok hparts).imp fun c x hx => ?_
      obtain ⟨a, ha, hx⟩ := bind_eq_ok.mp hx
      exact ⟨a, lowerIn_eq_ok.mp ha, (Except.ok.inj hx).symm⟩
    rwa [map_conditionsFor, List.forall₂_map_left_iff] at hformulas
  cases parts with
  | nil => exact absurd h (by simp [throw, throwThe, MonadExceptOf.throw])
  | cons p ps =>
      obtain rfl := Except.ok.inj h
      exact ⟨rfl, p, ps, hwrites, rfl⟩

/-! ## Sources -/

theorem readAs_of_bind {source : Source} {b : Bound}
    (h : bind r earlier aliases source = .ok (b, aliases')) :
    b.id = source.id ∧ source.ReadAs b.item := by
  cases source with
  | table id aliasName table =>
      obtain ⟨rfl, -⟩ := Prod.mk.inj (Except.ok.inj h)
      exact ⟨rfl, _, rfl⟩
  | subquery id aliasName queryId columns =>
      rw [bind] at h
      split at h
      · exact absurd h (by simp)
      · obtain ⟨fields, -, h⟩ := bind_eq_ok.mp h
        obtain ⟨rfl, -⟩ := Prod.mk.inj (Except.ok.inj h)
        exact ⟨rfl, rfl⟩

theorem readAs_of_bindAll {sources : List Source}
    (h : bindAll r earlier aliases sources = .ok (bound, aliases')) :
    List.Forall₂ (fun source b => b.id = source.id ∧ source.ReadAs b.item) sources bound := by
  induction sources generalizing aliases bound with
  | nil =>
      obtain ⟨rfl, -⟩ := Prod.mk.inj (Except.ok.inj h)
      exact .nil
  | cons source sources ih =>
      obtain ⟨⟨b, next⟩, hb, h⟩ := bind_eq_ok.mp h
      obtain ⟨⟨bs, last⟩, hbs, h⟩ := bind_eq_ok.mp h
      obtain ⟨rfl, rfl⟩ := Prod.mk.inj (Except.ok.inj h)
      exact .cons (readAs_of_bind hb) (ih hbs)

/-! ## Statements -/

/-- A statement reads the sources of its query and has all of its entries. -/
theorem ofQuery_covers (h : ofQuery r dialect earlier aliases q = .ok (s, aliases')) :
    ∃ bound, bindAll r earlier aliases q.sources = .ok (bound, aliases') ∧
      s.Covers (scopeOf dialect bound) q := by
  obtain ⟨⟨bound, next⟩, hbound, h⟩ := bind_eq_ok.mp h
  have hsources := readAs_of_bindAll hbound
  cases bound with
  | nil => exact absurd h (by simp [throw, throwThe, MonadExceptOf.throw])
  | cons root others =>
      obtain ⟨joins, hjoins, h⟩ := bind_eq_ok.mp h
      obtain ⟨select, hselect, h⟩ := bind_eq_ok.mp h
      obtain ⟨groupBy, hgroupBy, h⟩ := bind_eq_ok.mp h
      obtain ⟨filters, hfilters, h⟩ := bind_eq_ok.mp h
      obtain ⟨orderBy, horderBy, h⟩ := bind_eq_ok.mp h
      obtain ⟨rfl, rfl⟩ := Prod.mk.inj (Except.ok.inj h)
      obtain ⟨first, rest, hroot, hothers, hq⟩ := List.forall₂_cons_right_iff.mp hsources
      have hjoined := forall₂_through hothers
        ((mapM_eq_ok hjoins).imp fun _ _ => joinTo_eq_ok)
      refine ⟨_, hbound, {
        id := rfl
        select := (mapM_eq_ok hselect).imp fun e i hi => ?_
        groupBy := (mapM_eq_ok hgroupBy).imp fun _ _ => writes_of_lowerIn
        rowFilters := forall₂_filters (mapM_eq_ok hfilters) not
        groupFilters := forall₂_filters (mapM_eq_ok hfilters) fun b => b
        orderBy := (mapM_eq_ok horderBy).imp fun e x hx => ?_
        froms := ?_
        joins := ?_ }⟩
      · obtain ⟨a, ha, hi⟩ := bind_eq_ok.mp hi
        exact ⟨a, lowerIn_eq_ok.mp ha, (Except.ok.inj hi).symm⟩
      · obtain ⟨a, ha, hx⟩ := bind_eq_ok.mp hx
        exact ⟨a, lowerIn_eq_ok.mp ha, (Except.ok.inj hx).symm⟩
      · rw [hq, froms]
        refine .cons hroot.2 (List.forall₂_map_right_iff.mpr (hjoined.imp ?_))
        rintro source j ⟨b, hb, hj, -⟩
        rw [hj]
        exact hb.2
      · rw [hq, List.tail_cons]
        refine hjoined.imp ?_
        rintro source j ⟨b, hb, -, hcondition⟩
        rwa [hb.1] at hcondition

/-- Each query gets its statement, in which those of the queries before it are looked up. -/
theorem ofQueries_eq_ok {done ss : List Statement} {qs : List Query}
    (h : ofQueries r dialect done aliases qs = .ok ss) :
    ∃ made, ss = done ++ made ∧ made.length = qs.length ∧
      ∀ i q s, qs[i]? = some q → made[i]? = some s → ∃ aliases aliases',
        ofQuery r dialect (done ++ made.take i) aliases q = .ok (s, aliases') := by
  induction qs generalizing done aliases with
  | nil =>
      obtain rfl := Except.ok.inj h
      exact ⟨[], (List.append_nil _).symm, rfl, fun i q s hq => absurd hq (by simp)⟩
  | cons q qs ih =>
      obtain ⟨⟨s, next⟩, hs, h⟩ := bind_eq_ok.mp h
      obtain ⟨made, rfl, hlength, hmade⟩ := ih h
      refine ⟨s :: made, List.append_cons _ _ _ |>.symm, congrArg (· + 1) hlength, ?_⟩
      intro i q' s' hq' hs'
      cases i with
      | zero =>
          obtain rfl := Option.some.inj hq'
          obtain rfl := Option.some.inj hs'
          rw [List.take_zero, List.append_nil]
          exact ⟨_, _, hs⟩
      | succ i =>
          rw [List.take_succ_cons, List.append_cons]
          exact hmade i q' s' hq' hs'

end Statement

namespace MultiQuery

/-- Every query of a multi-query that has statements is covered by its own: the entries of each part
are written in their order, filters on groups apart from the others, all sources are read, and a
join condition stands with each source but the first that it has on its right side. -/
theorem statements_cover {m : MultiQuery} {r : Registry} {dialect : Dialects} {ms : MultiStatement}
    (h : m.statements r dialect = .ok ms) :
    ms.statements.length = m.queries.length ∧
      ∀ i q s, m.queries[i]? = some q → ms.statements[i]? = some s →
        ∃ aliases bound aliases',
          Statement.bindAll r (ms.statements.take i) aliases q.sources = .ok (bound, aliases') ∧
          s.Covers (Statement.scopeOf dialect bound) q ∧
          ∀ e ∈ q.joinOn, ∀ spec, e.join = some spec → ∀ (k : Nat) source,
            q.sources.tail[k]? = some source → spec.rightId = source.id →
              ∃ j x, s.joins[k]? = some j ∧ e.Writes (Statement.scopeOf dialect bound) x ∧
                x.Conjunct j.condition := by
  obtain ⟨ss, hss, h⟩ := bind_eq_ok.mp h
  obtain rfl := Except.ok.inj h
  obtain ⟨made, rfl, hlength, hmade⟩ := Statement.ofQueries_eq_ok hss
  refine ⟨hlength, fun i q s hq hs => ?_⟩
  obtain ⟨aliases, aliases', hquery⟩ := hmade i q s hq hs
  obtain ⟨bound, hbound, hcovers⟩ := Statement.ofQuery_covers hquery
  exact ⟨aliases, bound, aliases', hbound, hcovers,
    fun e he spec hspec k source hsource hright => hcovers.conjunct he hspec hsource hright⟩

/-! ### Two tables that are joined to one another -/

/-- The columns of two tables. -/
def clients : Registry where
  avatars := [⟨"t", "orders"⟩, ⟨"u", "clients"⟩]
  columns :=
    [⟨"client", "t", "client", .plain .string, .none⟩, ⟨"city", "t", "city", .plain .string, .none⟩,
     ⟨"name", "u", "name", .plain .string, .none⟩, ⟨"home", "u", "home", .plain .string, .none⟩]

/-- The condition that has the first table on its right side. -/
def backward : Entry :=
  { Entry.of (.binary "==" (.field "home") (.field "city")) with join := some ⟨"u", "t", .inner⟩ }

/-- Clients with several orders in the city that they live in. -/
def localClients : Query :=
  { Query.empty "qq" with
    select := [{ Entry.of (.field "client") with aliasName := some "client" }]
    groupBy := [Entry.of (.field "client")]
    filters :=
      [Entry.of (.binary ">" (.call "count" [.field "city"]) (.int 1)),
       Entry.of (.binary "!=" (.field "name") (.lit (.string "")))]
    orderBy := [{ Entry.of (.field "client") with direction := some .desc }]
    joinOn :=
      [{ Entry.of (.binary "==" (.field "client") (.field "name")) with
         join := some ⟨"t", "u", .inner⟩ }, backward]
    sources := [.table "t" "t" "orders", .table "u" "u" "clients"] }

theorem statements_cover_localClients :
    ∃ ms s, (⟨[localClients]⟩ : MultiQuery).statements clients .dummy = .ok ms ∧
      ms.statements = [s] ∧ s.rowFilters.length = 1 ∧ s.groupFilters.length = 1 ∧
      ∃ scope, s.Covers scope localClients ∧
        ∃ j x, s.joins[0]? = some j ∧
          Entry.Writes scope (Entry.of (.binary "==" (.field "client") (.field "name"))) x ∧
          x.Conjunct j.condition := by
  have hok : (((⟨[localClients]⟩ : MultiQuery).statements clients .dummy).toOption.any
      fun ms => ms.statements.length == 1) = true := by decide +kernel
  obtain ⟨ms, hms, hone⟩ := exists_eq_ok hok
  obtain ⟨s, hs⟩ := List.length_eq_one_iff.mp (beq_iff_eq.mp hone)
  obtain ⟨-, hcover⟩ := statements_cover hms
  obtain ⟨aliases, bound, aliases', -, hcovers, hjoins⟩ :=
    hcover 0 localClients s rfl (by rw [hs]; rfl)
  refine ⟨ms, s, hms, hs, ?_, ?_, _, hcovers, ?_⟩
  · rw [← hcovers.rowFilters.length_eq]
    decide +kernel
  · rw [← hcovers.groupFilters.length_eq]
    decide +kernel
  · exact hjoins _ List.mem_cons_self ⟨"t", "u", .inner⟩ rfl 0 (.table "u" "u" "clients") rfl rfl

/-- The expression compares these columns. -/
def compares (left right : String × String) : Sql → Bool
  | .binary op (.column (some t) a) (.column (some u) b) =>
    op == "=" && (t, a) == left && (u, b) == right
  | _ => false

theorem compares_iff {left right : String × String} {x : Sql} : compares left right x = true ↔
    x = .binary "=" (.column (some left.1) left.2) (.column (some right.1) right.2) := by
  constructor
  · intro h
    unfold compares at h
    split at h
    next op t a u b =>
      simp only [Bool.and_eq_true, beq_iff_eq] at h
      obtain ⟨⟨rfl, rfl⟩, rfl⟩ := h
      rfl
    next => exact absurd h Bool.false_ne_true
  · rintro rfl
    simp [compares]

/-- A comparison has no parts. -/
theorem eq_of_conjunct_comparison {x l r : Sql} (h : x.Conjunct (.binary "=" l r)) :
    x = .binary "=" l r := by
  generalize hc : Sql.binary "=" l r = c at h
  cases h with
  | self => rfl
  | left => exact absurd (Sql.binary.inj hc).1 (by decide)
  | right => exact absurd (Sql.binary.inj hc).1 (by decide)

/-- The condition that has the first table on its right side can be written, but the statement does
not have it. -/
theorem statements_pass_over :
    ∃ ms s, (⟨[localClients]⟩ : MultiQuery).statements clients .dummy = .ok ms ∧
      ms.statements = [s] ∧ backward ∈ localClients.joinOn ∧
      (∃ source ∈ localClients.sources, backward.join.map JoinSpec.rightId = some source.id) ∧
      ∃ bound aliases x, Statement.bindAll clients [] .empty localClients.sources =
          .ok (bound, aliases) ∧
        backward.Writes (Statement.scopeOf .dummy bound) x ∧
        ∀ j ∈ s.joins, ¬ x.Conjunct j.condition := by
  have hok : (((⟨[localClients]⟩ : MultiQuery).statements clients .dummy).toOption.any
      fun ms => ms.statements.length == 1 && ms.statements.all fun s => s.joins.all fun j =>
        compares ("t", "client") ("u", "name") j.condition) = true := by decide +kernel
  have hbackward : ((Statement.bindAll clients [] .empty localClients.sources).toOption.any
      fun b => (backward.formula.lower (Statement.scopeOf .dummy b.1)).toOption.any
        fun a => compares ("u", "home") ("t", "city") a.sql) = true := by decide +kernel
  obtain ⟨ms, hms, hone⟩ := exists_eq_ok hok
  rw [Bool.and_eq_true] at hone
  obtain ⟨s, hs⟩ := List.length_eq_one_iff.mp (beq_iff_eq.mp hone.1)
  obtain ⟨⟨bound, aliases⟩, hbound, hlower⟩ := exists_eq_ok hbackward
  obtain ⟨a, ha, hsql⟩ := exists_eq_ok hlower
  refine ⟨ms, s, hms, hs, ?_, ?_, bound, aliases, a.sql, hbound, ⟨a, ha, rfl⟩, fun j hj h => ?_⟩
  · exact List.mem_cons_of_mem _ List.mem_cons_self
  · exact ⟨_, List.mem_cons_self, rfl⟩
  · have hj := List.all_eq_true.mp (List.all_eq_true.mp hone.2 s (hs ▸ List.mem_cons_self)) j hj
    rw [compares_iff.mp hj, compares_iff.mp hsql] at h
    exact absurd (eq_of_conjunct_comparison h) (by simp)

end MultiQuery

end FormulaSql
