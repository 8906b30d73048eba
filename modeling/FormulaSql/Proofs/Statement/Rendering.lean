import FormulaSql.Proofs.Statement.Clauses
import FormulaSql.Proofs.Statement.Conditions

/-!
# Every multi-statement can be written

Writing a statement looks up the statements that it reads among all statements, by id, and writes
them in its place. When it was made, they were looked up among the earlier ones. Both find the first
statement with the id, so a statement reads earlier ones only, and writing comes to an end even if
ids are given several times.

* `MultiStatement.Written`: what a statement is written as, however deep statements nest
* `MultiQuery.statements_text`: statements that were made can be written
-/

namespace FormulaSql

/-! ## What a statement reads -/

/-- The id of the statement that is read. -/
def FromItem.query? : FromItem → Option String
  | table _ _ => none
  | subquery queryId _ => some queryId

/-- The ids of the statements that are read. -/
def Statement.reads (s : Statement) : List String := s.froms.filterMap FromItem.query?

section Text

variable {inner inner' : String → Except QueryError String} {s : Statement}

theorem FromItem.text_congr {i : FromItem} (h : ∀ id, i.query? = some id → inner id = inner' id) :
    i.text inner = i.text inner' := by
  cases i with
  | table => rfl
  | subquery queryId aliasName => rw [text, text, h queryId rfl]

theorem Join.text_congr {j : Join}
    (h : ∀ id, j.source.query? = some id → inner id = inner' id) :
    j.text inner = j.text inner' := by
  rw [text, text, FromItem.text_congr h]

/-- The text of a statement depends on the texts of those that it reads. -/
theorem Statement.text_congr (h : ∀ id ∈ s.reads, inner id = inner' id) :
    s.text inner = s.text inner' := by
  have hitem {i : FromItem} (hi : i ∈ s.froms) (id : String) (hid : i.query? = some id) :
      inner id = inner' id := h id (List.mem_filterMap.mpr ⟨i, hi, hid⟩)
  have hjoins : s.joins.mapM (Join.text inner) = s.joins.mapM (Join.text inner') := by
    refine mapM_congr fun j hj => Join.text_congr (hitem ?_)
    exact List.mem_cons_of_mem _ (List.mem_map_of_mem hj)
  rw [text, text, hjoins, FromItem.text_congr (hitem List.mem_cons_self)]

theorem FromItem.exists_text (texts : String → String) (i : FromItem) :
    ∃ t, i.text (fun id => .ok (texts id)) = .ok t := by
  cases i with
  | table | subquery => exact ⟨_, rfl⟩

/-- A statement can be written if those that it reads can. -/
theorem Statement.exists_text (texts : String → String) (s : Statement) :
    ∃ t, s.text (fun id => .ok (texts id)) = .ok t := by
  obtain ⟨root, hroot⟩ := s.root.exists_text texts
  obtain ⟨joins, hjoins⟩ : ∃ ts, s.joins.mapM (Join.text fun id => .ok (texts id)) = .ok ts := by
    induction s.joins with
    | nil => exact ⟨[], rfl⟩
    | cons j js ih =>
        obtain ⟨ts, hts⟩ := ih
        obtain ⟨t, ht⟩ := j.source.exists_text texts
        rw [List.mapM_cons]
        exact ⟨_, bind_eq_ok.mpr ⟨_, bind_eq_ok.mpr ⟨t, ht, rfl⟩, bind_eq_ok.mpr ⟨ts, hts, rfl⟩⟩⟩
  exact ⟨_, bind_eq_ok.mpr ⟨root, hroot, bind_eq_ok.mpr ⟨joins, hjoins, rfl⟩⟩⟩

end Text

namespace MultiStatement

variable {m : MultiStatement} {s : Statement} {t t' id : String} {i : Nat}

/-- What a statement is written as: those that it reads are looked up and written in its place,
however deep they nest. -/
inductive Written (m : MultiStatement) : Statement → String → Prop where
  | of {s : Statement} {t : String} (read : String → Statement) (texts : String → String)
      (lookup : ∀ id ∈ s.reads, m.statement? id = some (read id))
      (written : ∀ id ∈ s.reads, Written m (read id) (texts id))
      (text : s.text (fun id => .ok (texts id)) = .ok t) : Written m s t

/-- There is one text at most. -/
theorem Written.unique (h : m.Written s t) (h' : m.Written s t') : t = t' := by
  induction h generalizing t' with
  | @of s t read texts hread hwritten htext ih =>
      obtain ⟨read', texts', hread', hwritten', htext'⟩ := h'
      have hsame : ∀ id ∈ s.reads,
          (.ok (texts id) : Except QueryError String) = .ok (texts' id) := by
        intro id hid
        have hsource : read' id = read id :=
          Option.some.inj ((hread' id hid).symm.trans (hread id hid))
        exact congrArg Except.ok (ih id hid (hsource ▸ hwritten' id hid))
      rw [Statement.text_congr hsame, htext'] at htext
      exact (Except.ok.inj htext).symm

/-- Each statement reads earlier ones only: the first statement with the id comes before it. -/
def Ordered (m : MultiStatement) : Prop :=
  ∀ (i : Nat) (s : Statement), m.statements[i]? = some s → ∀ id ∈ s.reads,
    ∃ (j : Nat) (s' : Statement), j < i ∧ m.statements[j]? = some s' ∧ m.statement? id = some s'

/-- In ordered statements, each is written at a depth that does not exceed its place. -/
theorem Ordered.written (h : m.Ordered) (hs : m.statements[i]? = some s) :
    ∃ t, m.Written s t ∧ s.text (m.textOf i) = .ok t := by
  induction i using Nat.strongRecOn generalizing s with
  | ind i ih =>
      have hread : ∀ id ∈ s.reads, ∃ s' t, m.statement? id = some s' ∧ m.Written s' t ∧
          m.textOf i id = .ok t := by
        intro id hid
        obtain ⟨j, s', hj, hs', hlookup⟩ := h i s hs id hid
        obtain ⟨t, hwritten, htext⟩ := ih j hj hs'
        exact ⟨s', t, hlookup, hwritten,
          textOf_mono hj (textOf_succ_eq_ok.mpr ⟨s', hlookup, htext⟩)⟩
      have : Nonempty Statement := ⟨s⟩
      choose! read texts hlookup hwritten htexts using hread
      obtain ⟨t, ht⟩ := s.exists_text texts
      refine ⟨t, .of read texts hlookup hwritten ht, ?_⟩
      rw [Statement.text_congr htexts, ht]

end MultiStatement

namespace Statement

variable {r : Registry} {dialect : Dialects} {earlier : List Statement}
  {aliases aliases' : AliasMap} {bound : List Bound} {sources : List Source}

/-! ## Statements that were made -/

/-- A statement that is read was found among the earlier ones. -/
theorem exists_find?_of_bindAll (h : bindAll r earlier aliases sources = .ok (bound, aliases'))
    {id aliasName queryId : String} {columns : List String}
    (hsource : .subquery id aliasName queryId columns ∈ sources) :
    ∃ s, earlier.find? (fun s => s.id == queryId) = some s := by
  induction sources generalizing aliases bound with
  | nil => exact absurd hsource List.not_mem_nil
  | cons source sources ih =>
      obtain ⟨⟨b, next⟩, hb, h⟩ := bind_eq_ok.mp h
      obtain ⟨⟨bs, last⟩, hbs, h⟩ := bind_eq_ok.mp h
      obtain ⟨rfl, rfl⟩ := Prod.mk.inj (Except.ok.inj h)
      rcases List.mem_cons.mp hsource with rfl | hsource
      · rw [bind] at hb
        split at hb
        next => exact absurd hb (by simp)
        next s hs => exact ⟨s, hs⟩
      · exact ih hbs hsource

theorem exists_find?_of_ofQuery {q : Query} {s : Statement} {id : String}
    (h : ofQuery r dialect earlier aliases q = .ok (s, aliases')) (hid : id ∈ s.reads) :
    ∃ s', earlier.find? (fun s => s.id == id) = some s' := by
  obtain ⟨bound, hbound, hcovers⟩ := ofQuery_covers h
  obtain ⟨item, hitem, hquery⟩ := List.mem_filterMap.mp hid
  obtain ⟨source, hsource, hreads⟩ := forall₂_exists_left hcovers.froms hitem
  cases source with
  | table =>
      obtain ⟨_, rfl⟩ := hreads
      exact absurd hquery (by simp [FromItem.query?])
  | subquery =>
      obtain rfl := hreads
      obtain rfl := Option.some.inj hquery
      exact exists_find?_of_bindAll hbound hsource

end Statement

namespace MultiQuery

variable {m : MultiQuery} {r : Registry} {dialect : Dialects} {ms : MultiStatement}

theorem statements_ordered (h : m.statements r dialect = .ok ms) : ms.Ordered := by
  obtain ⟨ss, hss, h⟩ := bind_eq_ok.mp h
  obtain rfl := Except.ok.inj h
  obtain ⟨made, rfl, hlength, hmade⟩ := Statement.ofQueries_eq_ok hss
  intro i s hs id hid
  obtain ⟨q, hq⟩ : ∃ q, m.queries[i]? = some q := by
    have hi := (List.getElem?_eq_some_iff.mp hs).1
    exact ⟨_, List.getElem?_eq_getElem (hlength ▸ hi)⟩
  obtain ⟨aliases, aliases', hquery⟩ := hmade i q s hq hs
  obtain ⟨s', hs'⟩ := Statement.exists_find?_of_ofQuery hquery hid
  rw [List.nil_append] at hs'
  obtain ⟨j, hj⟩ := List.mem_iff_getElem?.mp (List.mem_of_find?_eq_some hs')
  have hlt : j < i := by
    have hlength := (List.getElem?_eq_some_iff.mp hj).1
    rw [List.length_take] at hlength
    omega
  rw [List.getElem?_take_of_lt hlt] at hj
  refine ⟨j, s', hlt, hj, ?_⟩
  change ss.find? _ = _
  rw [← List.take_append_drop i ss, List.find?_append, hs', Option.some_or]

/-- If statements were made for the queries and there is one at least, the last one can be written:
each lookup that writing needs leads to an earlier statement, so the answer is a text that is made
in finitely many steps, and the only one. Ids may be given several times. -/
theorem statements_text (h : m.statements r dialect = .ok ms) (hne : ms.statements ≠ []) :
    ms.Ordered ∧ ∃ s t, ms.top? = some s ∧ ms.text = .ok t ∧ ∀ t', ms.Written s t' ↔ t' = t := by
  have hordered := statements_ordered h
  have htop : ms.statements[ms.statements.length - 1]? = some (ms.statements.getLast hne) := by
    rw [← List.getLast?_eq_getElem?, List.getLast?_eq_getLast_of_ne_nil hne]
  obtain ⟨t, hwritten, htext⟩ := hordered.written htop
  have hlast : ms.top? = some (ms.statements.getLast hne) := List.getLast?_eq_getLast_of_ne_nil hne
  refine ⟨hordered, _, t, hlast, ?_, fun t' => ⟨fun h => h.unique hwritten, ?_⟩⟩
  · rw [MultiStatement.text, hlast]
    exact Statement.text_mono (fun _ _ => MultiStatement.textOf_mono (Nat.sub_le _ 1)) htext
  · rintro rfl
    exact hwritten

/-- The cities of all orders. -/
def orderCities : Query :=
  { Query.empty "q1" with
    select := [{ Entry.of (.field "city") with aliasName := some "c" }]
    sources := [.table "t" "t" "orders"] }

/-- What the query with the same id selects. -/
def orderCitiesAgain : Query :=
  { Query.empty "q1" with
    select := [{ Entry.of (.field "c") with aliasName := some "c" }]
    sources := [.subquery "s" "s" "q1" ["c"]] }

theorem statements_text_sameId :
    ∃ ms, (⟨[orderCities, orderCitiesAgain]⟩ : MultiQuery).statements clients .dummy = .ok ms ∧
      ms.statements.map Statement.id = ["q1", "q1"] ∧ ms.Ordered ∧
      ∃ s t, ms.top? = some s ∧ ms.text = .ok t ∧ (∀ t', ms.Written s t' ↔ t' = t) ∧
        t = "SELECT s.\"c\" AS \"c\" FROM " ++
          "(SELECT t.\"city\" AS \"c\" FROM \"orders\" AS t) AS s" := by
  have hok : (((⟨[orderCities, orderCitiesAgain]⟩ : MultiQuery).statements clients
      .dummy).toOption.any fun ms => ms.statements.map Statement.id == ["q1", "q1"] &&
        ms.text.toOption == some ("SELECT s.\"c\" AS \"c\" FROM " ++
          "(SELECT t.\"city\" AS \"c\" FROM \"orders\" AS t) AS s")) = true := by decide
  obtain ⟨ms, hms, hone⟩ := exists_eq_ok hok
  rw [Bool.and_eq_true, beq_iff_eq, beq_iff_eq] at hone
  obtain ⟨hids, htexts⟩ := hone
  have hne : ms.statements ≠ [] := by
    intro h
    rw [h] at hids
    exact absurd hids (by simp)
  obtain ⟨hordered, s, t, htop, htext, hwritten⟩ := statements_text hms hne
  rw [htext] at htexts
  exact ⟨ms, hms, hids, hordered, s, t, htop, htext, hwritten, Option.some.inj htexts⟩

end MultiQuery

end FormulaSql
