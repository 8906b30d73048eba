import FormulaSql.Proofs.Json.Dates
import FormulaSql.Proofs.Json.Exactness

/-!
# Formulas read from their JSON form

Reading what was written gives the formula again, with its notes, however freely choices are read.
Members that hold their defaults can be left out of what was written, anywhere in it, and nothing
changes.

Every part of a node has a lemma that says this about the part, for children that are written and
read in any way. The main result, `Formula.ofJson?_abridged`, puts the parts together along the
nesting of nodes.
-/

namespace FormulaSql

open Json (Manner Reads reads_scalar reads_list reads_record reads_choice reads_bareChoice
  reads_tag)

variable {α : Type} {bound : Nat} {m : Manner}

/-! ## Plain values -/

section Plain

theorem reads_bool (b : Bool) : Reads bound Json.bool? (.bool b) b :=
  reads_scalar rfl rfl

theorem reads_double (x : Double) : Reads bound Json.double? (.real x) x :=
  reads_scalar rfl rfl

theorem reads_string (s : String) : Reads bound Json.string? (.str s) s :=
  reads_scalar rfl rfl

theorem intWithin?_int {low high n : Int} (hlow : low ≤ n) (hhigh : n ≤ high) :
    Json.intWithin? low high (.int n) = some n := by
  rw [Json.intWithin?, if_pos]
  simp [hlow, hhigh]

theorem reads_int64 (n : Int64) : Reads bound Json.int64? (Literal.integerJson n) n := by
  refine reads_scalar rfl ?_
  rw [Literal.integerJson, Json.int64?, intWithin?_int n.minValue_le_toInt n.toInt_le]
  exact congrArg some n.ofInt_toInt

theorem reads_int32 (n : Int32) : Reads bound Json.int32? (.int n.toInt) n := by
  refine reads_scalar rfl ?_
  rw [Json.int32?, intWithin?_int n.minValue_le_toInt n.toInt_le]
  exact congrArg some n.ofInt_toInt

theorem reads_uint64 (n : UInt64) : Reads bound Json.uint64? (.int n.toNat) n := by
  refine reads_scalar rfl ?_
  have hhigh : (n.toNat : Int) ≤ UInt64.size - 1 := by
    have hlt := n.toNat_lt_size
    omega
  rw [Json.uint64?, intWithin?_int (Int.natCast_nonneg _) hhigh]
  exact congrArg some n.ofNat_toNat

end Plain

/-! ## Sets of names -/

namespace NameSet

theorem place_eq_append {n : String} {ms : List String} (h : ∀ m ∈ ms, m < n) :
    place n ms = ms ++ [n] := by
  induction ms with
  | nil => rfl
  | cons m ms ih =>
      rw [List.forall_mem_cons] at h
      have hlt : ¬ n < m := String.lt_asymm h.1
      have hne : n ≠ m := by
        rintro rfl
        exact hlt h.1
      rw [place, if_neg hlt, if_neg hne, ih h.2]
      rfl

theorem toList_foldl_insert {ns : List String} {s : NameSet}
    (h : (s.toList ++ ns).Pairwise (· < ·)) : (ns.foldl insert s).toList = s.toList ++ ns := by
  induction ns generalizing s with
  | nil => simp
  | cons n ns ih =>
      have hplace : (s.insert n).toList = s.toList ++ [n] :=
        place_eq_append fun m hm => (List.pairwise_append.mp h).2.2 m hm n List.mem_cons_self
      rw [List.append_cons, ← hplace] at h ⊢
      exact ih h

@[simp]
theorem ofList_toList (s : NameSet) : ofList s.toList = s := by
  have htoList : (ofList s.toList).toList = s.toList := toList_foldl_insert s.sorted
  cases hs : ofList s.toList
  cases s
  simp_all

theorem eq_empty_of_toList {s : NameSet} (h : s.toList = []) : s = empty := by
  cases s
  cases h
  rfl

end NameSet

theorem reads_nameSet (s : NameSet) : Reads bound NameSet.ofJson? s.toJson s := by
  have hlist : Reads bound (Json.list? Json.string?) s.toJson s.toList :=
    reads_list fun n _ => reads_string n
  have hset := hlist.map NameSet.ofList
  rwa [NameSet.ofList_toList] at hset

/-! ## Literals -/

section Literals

theorem reads_date (d : Date) :
    Reads bound (fun j => do return Literal.date (← Date.read? (← j.string?))) (.str d.text)
      (.date d) := by
  refine reads_scalar rfl ?_
  simp [Json.string?, Date.read?_text]

theorem reads_dateTime (dt : DateTime) :
    Reads bound Literal.dateTime? (.str (dt.text 'T')) dt := by
  refine reads_scalar rfl ?_
  simp [Literal.dateTime?, Json.string?, DateTime.read?_text]

theorem reads_zoned (dt : DateTime) (zone : String) :
    Reads bound (Literal.ofTyped? "datetime_tz")
      (.obj [("value", .str (dt.text 'T')), ("timezone", .str zone)]) (.datetimeTz dt zone) := by
  refine reads_record (by simp) fun ms' h => ?_
  have hvalue := h.required (by simp) (reads_dateTime dt) (by decide : "value" ∉ _)
  have hzone := h.required (by simp) (reads_string zone) (by decide : "timezone" ∉ _)
  exact Option.bind_eq_some_iff.mpr ⟨_, h.namedMembers? _, by simp [hvalue, hzone]⟩

/-- A literal with its type beside it is read by its type. -/
theorem reads_typed {type : String} {v : Json} {l : Literal} (hnull : type ≠ "null")
    (h : Reads bound (Literal.ofTyped? type) v l) :
    Reads bound (Literal.ofJson? m) (Literal.typed type v) l := by
  refine reads_choice (by decide) ?_
  simpa using h

theorem reads_literal (l : Literal) : Reads bound (Literal.ofJson? m) l.toJson l := by
  cases l with
  | null => exact reads_bareChoice rfl
  | integer n => exact reads_typed (by decide) ((reads_int64 n).map _)
  | float x => exact reads_typed (by decide) ((reads_double x).map _)
  | boolean b => exact reads_typed (by decide) ((reads_bool b).map _)
  | string s => exact reads_typed (by decide) ((reads_string s).map _)
  | date d => exact reads_typed (by decide) (reads_date d)
  | datetime dt => exact reads_typed (by decide) ((reads_dateTime dt).map _)
  | datetimeTz dt zone => exact reads_typed (by decide) (reads_zoned dt zone)
  | genericDatetime dt => exact reads_typed (by decide) ((reads_dateTime dt).map _)
  | geopoint s => exact reads_typed (by decide) ((reads_string s).map _)
  | geopolygon s => exact reads_typed (by decide) ((reads_string s).map _)
  | uuid s => exact reads_typed (by decide) ((reads_string s).map _)
  | arrayInt xs => exact reads_typed (by decide) ((reads_list fun n _ => reads_int64 n).map _)
  | arrayFloat xs => exact reads_typed (by decide) ((reads_list fun x _ => reads_double x).map _)
  | arrayStr xs => exact reads_typed (by decide) ((reads_list fun s _ => reads_string s).map _)
  | treeStr xs => exact reads_typed (by decide) ((reads_list fun s _ => reads_string s).map _)

end Literals

/-! ## Default members -/

section Defaults

variable {write : α → Json} {n : String}

theorem eq_nil_of_default {as : List α} (h : (n, .arr (as.map write)) ∈ Json.defaultMembers) :
    as = [] := by
  have hitems : ∀ m ∈ Json.defaultMembers, ∀ js, m.2 = .arr js → js = [] := by
    simp [Json.defaultMembers]
  exact List.map_eq_nil_iff.mp (hitems _ h _ rfl)

theorem eq_empty_of_default {s : NameSet} (h : (n, s.toJson) ∈ Json.defaultMembers) :
    s = NameSet.empty :=
  NameSet.eq_empty_of_toList (eq_nil_of_default h)

theorem eq_inherited_of_default {l : Lod α}
    (h : ("lod", (l.map write).toJson) ∈ Json.defaultMembers) : l = .inherited := by
  cases l <;>
    simp [Json.defaultMembers, Lod.map, Lod.withDims, Lod.toJson, dimsJson] at h ⊢

theorem eq_total_of_default {g : Grouping α}
    (h : ("grouping", (g.map write).toJson) ∈ Json.defaultMembers) : g = .total := by
  cases g <;>
    simp [Json.defaultMembers, Grouping.map, Grouping.withDims, Grouping.toJson, dimsJson] at h ⊢

end Defaults

/-! ## Parts of nodes -/

theorem reads_direction (d : Direction) : Reads bound (Direction.ofJson? m) d.toJson d := by
  cases d <;> exact reads_scalar rfl rfl

theorem reads_joinType (t : JoinType) : Reads bound (JoinType.ofJson? m) t.toJson t := by
  cases t <;> exact reads_scalar rfl rfl

section Parts

theorem reads_fieldName (child : Manner → Json → Option α) (n : String) :
    Reads bound (Kind.ofTagged? child m "field") (.obj [("name", .str n)]) (.field n) := by
  refine reads_record (by simp) fun ms' h => ?_
  have hname := h.required (by simp) (reads_string n) (by decide : "name" ∉ _)
  exact Option.bind_eq_some_iff.mpr ⟨_, h.taggedMembers? _ _, by simp [hname]⟩

theorem reads_error (child : Manner → Json → Option α) (message code : String) :
    Reads bound (Kind.ofTagged? child m "error")
      (.obj [("message", .str message), ("code", .str code)]) (.error message code) := by
  refine reads_record (by simp) fun ms' h => ?_
  have hmessage := h.required (by simp) (reads_string message) (by decide : "message" ∉ _)
  have hcode := h.required (by simp) (reads_string code) (by decide : "code" ∉ _)
  exact Option.bind_eq_some_iff.mpr ⟨_, h.taggedMembers? _ _, by simp [hmessage, hcode]⟩

variable {write : α → Json} {child : Manner → Json → Option α}
  (hchild : ∀ m a, Reads bound (child m) (write a) a)

include hchild

theorem reads_children (as : List α) :
    Reads bound (Json.list? (child m)) (.arr (as.map write)) as :=
  reads_list fun a _ => hchild m a

theorem reads_lod (l : Lod α) : Reads bound (Lod.ofJson? child m) (l.map write).toJson l := by
  cases l with
  | inherited => exact reads_bareChoice rfl
  | defaultAggregation => exact reads_bareChoice rfl
  | fixed ds => exact reads_choice (by decide) ((reads_children hchild ds).map _)
  | including ds => exact reads_choice (by decide) ((reads_children hchild ds).map _)
  | excluding ds => exact reads_choice (by decide) ((reads_children hchild ds).map _)

theorem reads_grouping (g : Grouping α) :
    Reads bound (Grouping.ofJson? child m) (g.map write).toJson g := by
  cases g with
  | total => exact reads_bareChoice rfl
  | within ds => exact reads_choice (by decide) ((reads_children hchild ds).map _)
  | among ds => exact reads_choice (by decide) ((reads_children hchild ds).map _)

theorem reads_branch {testName : String} (b : Branch α) (hthen : testName ≠ "then")
    (htest : testName ∉ Json.defaultMembers.map Prod.fst) :
    Reads bound (Branch.ofJson? testName (child m)) ((b.map write).toJson testName) b := by
  refine reads_record (by simpa using hthen) fun ms' h => ?_
  have htest := h.required (by simp [Branch.map]) (hchild m b.test) htest
  have hvalue := h.required (by simp [Branch.map]) (hchild m b.value) (by decide : "then" ∉ _)
  simp [Branch.ofJson?, h.members?, htest, hvalue]

theorem reads_branches (testName : String) (bs : List (Branch α)) (hthen : testName ≠ "then")
    (htest : testName ∉ Json.defaultMembers.map Prod.fst) :
    Reads bound (Json.list? (Branch.ofJson? testName (child m)))
      (.arr ((bs.map (·.map write)).map (Branch.toJson testName))) bs := by
  rw [List.map_map]
  exact reads_list fun b _ => reads_branch hchild b hthen htest

theorem reads_joinCondition (c : JoinCondition α) :
    Reads bound (JoinCondition.ofJson? (child m) m) (c.map write).toJson c := by
  cases c with
  | same e =>
      refine reads_tag (by decide) (reads_record (by simp) fun ms' h => ?_)
      have he := h.required (by simp) (hchild m e) (by decide : "expr" ∉ _)
      simp [JoinCondition.ofJson?, Json.tagged?, Json.tag, h.taggedMembers?, he]
  | pair e e' =>
      refine reads_tag (by decide) (reads_record (by simp) fun ms' h => ?_)
      have he := h.required (by simp) (hchild m e) (by decide : "expr" ∉ _)
      have he' := h.required (by simp) (hchild m e') (by decide : "fork_expr" ∉ _)
      simp [JoinCondition.ofJson?, Json.tagged?, Json.tag, h.taggedMembers?, he, he']

theorem reads_joining (cs : List (JoinCondition α)) :
    Reads bound (Json.list? (JoinCondition.ofJson? (child m) m))
      (.arr ((cs.map (·.map write)).map JoinCondition.toJson)) cs := by
  rw [List.map_map]
  exact reads_list fun c _ => reads_joinCondition hchild c

theorem reads_filterShift (s : FilterShift α) :
    Reads bound (FilterShift.ofJson? (child m)) (s.map write).toJson s := by
  refine reads_record (by simp) fun ms' h => ?_
  have hsource := h.required (by simp [FilterShift.map]) (hchild m s.source)
    (by decide : "original" ∉ _)
  have htarget := h.required (by simp [FilterShift.map]) (hchild m s.target)
    (by decide : "replacement" ∉ _)
  simp [FilterShift.ofJson?, h.members?, hsource, htarget]

theorem reads_shifts (ss : List (FilterShift α)) :
    Reads bound (Json.list? (FilterShift.ofJson? (child m)))
      (.arr ((ss.map (·.map write)).map FilterShift.toJson)) ss := by
  rw [List.map_map]
  exact reads_list fun s _ => reads_filterShift hchild s

theorem reads_call (c : Call α) :
    Reads bound (Call.ofJson? child m)
      (Call.toJson ⟨c.name, c.args.map write, c.lod.map write, c.ignored.map write,
        c.beforeFilterBy⟩) c := by
  refine reads_record (by simp) fun ms' h => ?_
  have hname := h.required (by simp) (reads_string c.name) (by decide : "name" ∉ _)
  have hargs := h.optional (n := "args") [] (by simp) (reads_children (m := m) hchild c.args)
    eq_nil_of_default
  have hlod := h.optional (n := "lod") .inherited (by simp) (reads_lod (m := m) hchild c.lod)
    eq_inherited_of_default
  have hignored := h.optional (n := "ignore_dimensions") [] (by simp)
    (reads_children (m := m) hchild c.ignored) eq_nil_of_default
  have hfilters := h.optional (n := "before_filter_by") NameSet.empty (by simp)
    (reads_nameSet c.beforeFilterBy) eq_empty_of_default
  simp [Call.ofJson?, h.members?, hname, hargs, hlod, hignored, hfilters]

theorem reads_windowCall (w : WindowCall α) :
    Reads bound (WindowCall.ofJson? child m)
      (WindowCall.toJson ⟨w.name, w.args.map write, w.grouping.map write, w.ordering.map write,
        w.beforeFilterBy⟩) w := by
  refine reads_record (by simp) fun ms' h => ?_
  have hname := h.required (by simp) (reads_string w.name) (by decide : "name" ∉ _)
  have hargs := h.optional (n := "args") [] (by simp) (reads_children (m := m) hchild w.args)
    eq_nil_of_default
  have hgrouping := h.optional (n := "grouping") .total (by simp)
    (reads_grouping (m := m) hchild w.grouping) eq_total_of_default
  have hordering := h.optional (n := "ordering") [] (by simp)
    (reads_children (m := m) hchild w.ordering) eq_nil_of_default
  have hfilters := h.optional (n := "before_filter_by") NameSet.empty (by simp)
    (reads_nameSet w.beforeFilterBy) eq_empty_of_default
  simp [WindowCall.ofJson?, h.members?, hname, hargs, hgrouping, hordering, hfilters]

theorem reads_fork (q : Fork α) :
    Reads bound (Fork.ofJson? child m)
      (Fork.toJson ⟨q.joinType, write q.result, q.joining.map (·.map write), q.lod.map write,
        q.beforeFilterBy, q.shifts.map (·.map write)⟩) q := by
  refine reads_record (by simp) fun ms' h => ?_
  have hjoinType := h.required (by simp) (reads_joinType (m := m) q.joinType)
    (by decide : "join_type" ∉ _)
  have hresult := h.required (by simp) (hchild m q.result) (by decide : "result_expr" ∉ _)
  have hjoining := h.optional (n := "joining") [] (by simp)
    (reads_joining (m := m) hchild q.joining)
    fun hdefault => List.map_eq_nil_iff.mp (eq_nil_of_default hdefault)
  have hlod := h.optional (n := "lod") .inherited (by simp) (reads_lod (m := m) hchild q.lod)
    eq_inherited_of_default
  have hfilters := h.optional (n := "before_filter_by") NameSet.empty (by simp)
    (reads_nameSet q.beforeFilterBy) eq_empty_of_default
  have hshifts := h.optional (n := "bfb_filter_mutations") [] (by simp)
    (reads_shifts (m := m) hchild q.shifts)
    fun hdefault => List.map_eq_nil_iff.mp (eq_nil_of_default hdefault)
  simp [Fork.ofJson?, h.members?, hjoinType, hresult, hjoining, hlod, hfilters, hshifts]

theorem reads_binary (op : String) (l r : α) :
    Reads bound (Kind.ofTagged? child m "binary")
      (.obj [("name", .str op), ("left", write l), ("right", write r)]) (.binary op l r) := by
  refine reads_record (by simp) fun ms' h => ?_
  have hname := h.required (by simp) (reads_string op) (by decide : "name" ∉ _)
  have hleft := h.required (by simp) (hchild m l) (by decide : "left" ∉ _)
  have hright := h.required (by simp) (hchild m r) (by decide : "right" ∉ _)
  exact Option.bind_eq_some_iff.mpr ⟨_, h.taggedMembers? _ _, by simp [hname, hleft, hright]⟩

theorem reads_unary (op : String) (e : α) :
    Reads bound (Kind.ofTagged? child m "unary") (.obj [("name", .str op), ("expr", write e)])
      (.unary op e) := by
  refine reads_record (by simp) fun ms' h => ?_
  have hname := h.required (by simp) (reads_string op) (by decide : "name" ∉ _)
  have he := h.required (by simp) (hchild m e) (by decide : "expr" ∉ _)
  exact Option.bind_eq_some_iff.mpr ⟨_, h.taggedMembers? _ _, by simp [hname, he]⟩

theorem reads_ternary (op : String) (a b c : α) :
    Reads bound (Kind.ofTagged? child m "ternary")
      (.obj [("name", .str op), ("first", write a), ("second", write b), ("third", write c)])
      (.ternary op a b c) := by
  refine reads_record (by simp) fun ms' h => ?_
  have hname := h.required (by simp) (reads_string op) (by decide : "name" ∉ _)
  have ha := h.required (by simp) (hchild m a) (by decide : "first" ∉ _)
  have hb := h.required (by simp) (hchild m b) (by decide : "second" ∉ _)
  have hc := h.required (by simp) (hchild m c) (by decide : "third" ∉ _)
  exact Option.bind_eq_some_iff.mpr ⟨_, h.taggedMembers? _ _, by simp [hname, ha, hb, hc]⟩

theorem reads_ifBlock (bs : List (Branch α)) (e : α) :
    Reads bound (Kind.ofTagged? child m "if_block")
      (.obj [("branches", .arr ((bs.map (·.map write)).map (Branch.toJson "cond"))),
        ("else_expr", write e)]) (.ifBlock bs e) := by
  refine reads_record (by simp) fun ms' h => ?_
  have hbranches := h.required (by simp)
    (reads_branches (m := m) hchild "cond" bs (by decide) (by decide)) (by decide : "branches" ∉ _)
  have he := h.required (by simp) (hchild m e) (by decide : "else_expr" ∉ _)
  exact Option.bind_eq_some_iff.mpr ⟨_, h.taggedMembers? _ _, by simp [hbranches, he]⟩

theorem reads_caseBlock (s : α) (bs : List (Branch α)) (e : α) :
    Reads bound (Kind.ofTagged? child m "case_block")
      (.obj [("case_expr", write s),
        ("branches", .arr ((bs.map (·.map write)).map (Branch.toJson "when"))),
        ("else_expr", write e)]) (.caseBlock s bs e) := by
  refine reads_record (by simp) fun ms' h => ?_
  have hs := h.required (by simp) (hchild m s) (by decide : "case_expr" ∉ _)
  have hbranches := h.required (by simp)
    (reads_branches (m := m) hchild "when" bs (by decide) (by decide)) (by decide : "branches" ∉ _)
  have he := h.required (by simp) (hchild m e) (by decide : "else_expr" ∉ _)
  exact Option.bind_eq_some_iff.mpr ⟨_, h.taggedMembers? _ _, by simp [hs, hbranches, he]⟩

theorem reads_ordered (e : α) (d : Direction) :
    Reads bound (Kind.ofTagged? child m "ordered")
      (.obj [("expr", write e), ("direction", d.toJson)]) (.ordered e d) := by
  refine reads_record (by simp) fun ms' h => ?_
  have he := h.required (by simp) (hchild m e) (by decide : "expr" ∉ _)
  have hd := h.required (by simp) (reads_direction (m := m) d) (by decide : "direction" ∉ _)
  exact Option.bind_eq_some_iff.mpr ⟨_, h.taggedMembers? _ _, by simp [he, hd]⟩

/-- A kind is read again if its children are. -/
theorem reads_kind (k : Kind α) : Reads bound (Kind.ofJson? child m) (k.map write).toJson k := by
  cases k with
  | field n => exact reads_tag (by decide) (reads_fieldName child n)
  | literal l => exact reads_tag (by decide) ((reads_literal l).map _)
  | paren e => exact reads_tag (by decide) ((hchild m e).map _)
  | call c => exact reads_tag (by decide) ((reads_call hchild c).map _)
  | window w => exact reads_tag (by decide) ((reads_windowCall hchild w).map _)
  | binary op l r => exact reads_tag (by decide) (reads_binary hchild op l r)
  | unary op e => exact reads_tag (by decide) (reads_unary hchild op e)
  | ternary op a b c => exact reads_tag (by decide) (reads_ternary hchild op a b c)
  | ifBlock bs e => exact reads_tag (by decide) (reads_ifBlock hchild bs e)
  | caseBlock s bs e => exact reads_tag (by decide) (reads_caseBlock hchild s bs e)
  | ordered e d => exact reads_tag (by decide) (reads_ordered hchild e d)
  | fork q => exact reads_tag (by decide) ((reads_fork hchild q).map _)
  | error msg code => exact reads_tag (by decide) (reads_error child msg code)

end Parts

/-! ## Notes -/

theorem reads_levelTag (t : LevelTag) : Reads bound LevelTag.ofJson? t.toJson t := by
  refine reads_record (by simp) fun ms' h => ?_
  have hfilters := h.required (by simp) (reads_nameSet t.filters) (by decide : "bfb_names" ∉ _)
  have hfunc := h.required (by simp) (reads_int32 t.funcNesting) (by decide : "func_nesting" ∉ _)
  have hfork := h.optional (n := "qfork_nesting") 0 (by simp) (reads_int32 t.forkNesting)
    fun hdefault => Int32.toInt_inj.mp (by simpa [Json.defaultMembers] using hdefault)
  simp [LevelTag.ofJson?, h.members?, hfilters, hfunc, hfork]

theorem reads_span (s : Span) : Reads bound Span.ofJson? s.toJson s := by
  refine reads_record (by simp) fun ms' h => ?_
  have hstart := h.required (by simp) (reads_uint64 s.start) (by decide : "start" ∉ _)
  have hstop := h.required (by simp) (reads_uint64 s.stop) (by decide : "end" ∉ _)
  simp [Span.ofJson?, h.members?, hstart, hstop]

theorem reads_notes (n : Notes) :
    Reads bound Notes.ofJson?
      (.obj (Json.present "level_tag" (n.level.map LevelTag.toJson) ++
        Json.present "position" (n.span.map Span.toJson))) n := by
  obtain ⟨level, span⟩ := n
  refine reads_record (by cases level <;> cases span <;> simp [Json.present]) fun ms' h => ?_
  have hlevel := h.maybe (o := level) reads_levelTag (by rintro t rfl; simp [Json.present])
    (by rintro rfl; cases span <;> simp [Json.present]) (by decide : "level_tag" ∉ _) rfl
  have hspan := h.maybe (o := span) reads_span (by rintro s rfl; simp [Json.present])
    (by rintro rfl; cases level <;> simp [Json.present]) (by decide : "position" ∉ _) rfl
  simp [Notes.ofJson?, h.members?, hlevel, hspan]

theorem Notes.members_cases (n : Notes) :
    n.members = [] ∧ n = none ∨
      n.members = [("meta", .obj (Json.present "level_tag" (n.level.map LevelTag.toJson) ++
        Json.present "position" (n.span.map Span.toJson)))] := by
  obtain ⟨level, span⟩ := n
  cases level with
  | some => exact Or.inr rfl
  | none =>
      cases span with
      | some => exact Or.inr rfl
      | none => exact Or.inl ⟨rfl, rfl⟩

/-! ## Trees -/

namespace Formula

/-- The fuel is more than the depth of the value, and nodes are nested less deeply. -/
theorem reads_read? (fuel : Nat) (m : Manner) (f : Formula) :
    Reads fuel (read? fuel m) f.toJson f := by
  induction fuel generalizing m f with
  | zero => exact fun j' _ hdepth => absurd hdepth (Nat.not_lt_zero _)
  | succ fuel ih =>
      rw [toJson_eq]
      have hmembers := f.notes.members_cases
      refine Json.reads_record_succ ?_ fun ms' h => ?_
      · rcases hmembers with ⟨hms, -⟩ | hms <;> simp [hms]
      · have hkind := h.required (by simp) (reads_kind (m := m) ih f.kind) (by decide : "kind" ∉ _)
        have hnotes : Json.Members.optional (fun n => ms'.lookup n) "meta" Notes.none
            Notes.ofJson? = some f.notes := by
          rcases hmembers with ⟨hms, hnone⟩ | hms
          · rw [hnone]
            exact h.optional_absent (by simp [hms]) Notes.none
          · have hmeta : "meta" ∉ Json.defaultMembers.map Prod.fst := by decide
            exact h.optional Notes.none (by simp [hms]) (reads_notes f.notes) fun hdefault =>
              absurd (List.mem_map_of_mem hdefault) hmeta
        simp [read?, h.members?, hkind, hnotes]

/-- What was written is read again, and members that hold their defaults may be left out of it. A
formula without doubles is also read from the text of what was written. -/
theorem ofJson?_abridged (m : Manner) (f : Formula) :
    ofJson? m f.toJson = some f ∧
      ∀ j, Json.Abridged f.toJson j →
        ofJson? m j = some f ∧
          (f.HoldsNoDouble → (Json.parse? j.text).bind (ofJson? m) = some f) := by
  have hread (j : Json) (hj : Json.Abridged f.toJson j) : ofJson? m j = some f :=
    reads_read? _ m f j hj (Nat.lt_succ_self j.depth)
  refine ⟨hread f.toJson (.same _), fun j hj => ⟨hread j hj, fun hf => ?_⟩⟩
  rw [Json.parse?_text ((exact_toJson hf).of_abridged hj), Option.bind_some, hread j hj]

/-- A call whose arguments are all that is not default, and a nesting of forks that is. -/
theorem ofJson?_abridged_sum :
    let sales := of (.field "sales")
    let sum := mk (.call ⟨"sum", [sales], .inherited, [], .empty⟩) ⟨some ⟨.empty, 1, 0⟩, none⟩
    let name (n : String) := Json.obj [("name", .str n)]
    let short := Json.obj
      [("kind", Json.tag "func_call" (.obj [("name", .str "sum"),
          ("args", .arr [.obj [("kind", Json.tag "field" (name "sales"))]])])),
        ("meta", .obj [("level_tag", .obj [("bfb_names", .arr []), ("func_nesting", .int 1)])])]
    Json.Abridged sum.toJson short ∧ ofJson? .tree short = some sum ∧
      (Json.parse? short.text).bind (ofJson? .stream) = some sum := by
  intro sales sum name short
  have hnames : ("before_filter_by", NameSet.empty.toJson) ∈ Json.defaultMembers := by
    simp [Json.defaultMembers, NameSet.toJson, NameSet.empty, Json.strings]
  have hnesting : ("qfork_nesting", Json.int (0 : Int32).toInt) ∈ Json.defaultMembers := by
    simp [Json.defaultMembers]
  have hcall : Json.Abridged (Call.toJson ⟨"sum", [sales.toJson], .inherited, [], .empty⟩)
      (.obj [("name", .str "sum"), ("args", .arr [sales.toJson])]) :=
    .obj (.keep "name" (.same _) (.keep "args" (.same _)
      (.leave (by simp [Json.defaultMembers, Lod.toJson])
        (.leave (by simp [Json.defaultMembers]) (.leave hnames .nil)))))
  have hlevel : Json.Abridged (LevelTag.toJson ⟨.empty, 1, 0⟩)
      (.obj [("bfb_names", .arr []), ("func_nesting", .int 1)]) :=
    .obj (.keep "bfb_names" (.same _) (.keep "func_nesting" (.same _) (.leave hnesting .nil)))
  have hshort : Json.Abridged sum.toJson short :=
    .obj (.keep "kind" (.obj (.keep "func_call" hcall .nil))
      (.keep "meta" (.obj (.keep "level_tag" hlevel .nil)) .nil))
  have hnodes : sum.nodes = [sum, sales] := rfl
  have hdouble : sum.HoldsNoDouble := by
    intro g hg l hl
    rw [hnodes, List.mem_cons, List.mem_singleton] at hg
    rcases hg with rfl | rfl <;> cases hl
  obtain ⟨-, hread⟩ := ofJson?_abridged .tree sum
  obtain ⟨-, hstream⟩ := ofJson?_abridged .stream sum
  exact ⟨hshort, (hread short hshort).1, (hstream short hshort).2 hdouble⟩

end Formula

end FormulaSql
