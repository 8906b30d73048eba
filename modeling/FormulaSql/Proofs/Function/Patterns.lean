import FormulaSql.Formula.Build
import FormulaSql.Proofs.Function.Grades
import FormulaSql.Proofs.Lowering.Nodes

/-!
# Searches for a piece of text

A text is searched for a constant piece by a LIKE pattern. The piece may hold characters that mean
something in patterns, at its ends too. None of them keeps that meaning: apart from the marks at its
open ends, the pattern stands for the piece and for nothing else.

* `Like` says how patterns are read
* `Function.flatMap_escapePatternChar`: how a piece is escaped
* `Function.like_piecePattern`: which texts the pattern of a piece matches
* `Function.pieceSearch_literal`: the three searches for a constant, from their patterns to the
  calls that are written with them
-/

namespace FormulaSql

/-! ## Patterns -/

/-- The text is like the pattern. A percent sign stands for any text, an underscore for any
character, and a backslash makes the character after it stand for itself. -/
inductive Like : List Char → List Char → Prop where
  | nil : Like [] []
  | anyText {p s : List Char} (t : List Char) : Like p s → Like ('%' :: p) (t ++ s)
  | anyChar {p s : List Char} (c : Char) : Like p s → Like ('_' :: p) (c :: s)
  | escaped {p s : List Char} (c : Char) : Like p s → Like ('\\' :: c :: p) (c :: s)
  | plain {p s : List Char} {c : Char} : c ≠ '%' → c ≠ '_' → c ≠ '\\' → Like p s →
      Like (c :: p) (c :: s)

namespace Like

variable {p s : List Char} {c : Char}

theorem nil_iff : Like [] s ↔ s = [] := by
  constructor
  · intro h
    cases h
    rfl
  · rintro rfl
    exact .nil

theorem anyText_iff : Like ('%' :: p) s ↔ ∃ t u, s = t ++ u ∧ Like p u := by
  constructor
  · intro h
    generalize hq : '%' :: p = q at h
    cases h with
    | nil => cases hq
    | anyText t h =>
        obtain ⟨-, rfl⟩ := List.cons.inj hq
        exact ⟨t, _, rfl, h⟩
    | anyChar => exact absurd (List.cons.inj hq).1 (by decide)
    | escaped => exact absurd (List.cons.inj hq).1 (by decide)
    | plain hpercent => exact absurd (List.cons.inj hq).1.symm hpercent
  · rintro ⟨t, u, rfl, h⟩
    exact .anyText t h

theorem escaped_iff : Like ('\\' :: c :: p) s ↔ ∃ u, s = c :: u ∧ Like p u := by
  constructor
  · intro h
    generalize hq : '\\' :: c :: p = q at h
    cases h with
    | nil => cases hq
    | anyText => exact absurd (List.cons.inj hq).1 (by decide)
    | anyChar => exact absurd (List.cons.inj hq).1 (by decide)
    | escaped d h =>
        obtain ⟨rfl, rfl⟩ := List.cons.inj (List.cons.inj hq).2
        exact ⟨_, rfl, h⟩
    | plain _ _ hbackslash => exact absurd (List.cons.inj hq).1.symm hbackslash
  · rintro ⟨u, rfl, h⟩
    exact .escaped c h

theorem plain_iff (hpercent : c ≠ '%') (hunderscore : c ≠ '_') (hbackslash : c ≠ '\\') :
    Like (c :: p) s ↔ ∃ u, s = c :: u ∧ Like p u := by
  constructor
  · intro h
    generalize hq : c :: p = q at h
    cases h with
    | nil => cases hq
    | anyText => exact absurd (List.cons.inj hq).1 hpercent
    | anyChar => exact absurd (List.cons.inj hq).1 hunderscore
    | escaped => exact absurd (List.cons.inj hq).1 hbackslash
    | plain _ _ _ h =>
        obtain ⟨rfl, rfl⟩ := List.cons.inj hq
        exact ⟨_, rfl, h⟩
  · rintro ⟨u, rfl, h⟩
    exact .plain hpercent hunderscore hbackslash h

end Like

namespace Function

variable {p s : List Char}

/-! ## The pattern of a constant -/

/-- The text with a backslash before every `c` in it. -/
def guarded (c : Char) (cs : List Char) : List Char :=
  cs.flatMap fun d => if d = c then ['\\', d] else [d]

theorem guarded_cons (c d : Char) (cs : List Char) :
    guarded c (d :: cs) = (if d = c then ['\\', d] else [d]) ++ guarded c cs :=
  List.flatMap_cons

/-- One character after another, the three kinds of characters are guarded all over the text. The
backslashes come first, for they must not be taken for those that guard the others. -/
theorem flatMap_escapePatternChar (cs : List Char) :
    cs.flatMap escapePatternChar = guarded '_' (guarded '%' (guarded '\\' cs)) := by
  induction cs with
  | nil => rfl
  | cons c cs ih =>
      rw [List.flatMap_cons, ih, guarded_cons]
      unfold escapePatternChar
      by_cases hbackslash : c = '\\'
      · simp [hbackslash, guarded_cons]
      · by_cases hpercent : c = '%'
        · simp [hpercent, guarded_cons]
        · by_cases hunderscore : c = '_'
          · simp [hunderscore, guarded_cons]
          · simp [hbackslash, hpercent, hunderscore, guarded_cons]

theorem like_escapePatternChar (c : Char) :
    Like (escapePatternChar c ++ p) s ↔ ∃ u, s = c :: u ∧ Like p u := by
  unfold escapePatternChar
  split
  · exact Like.escaped_iff
  next hc =>
    simp only [Bool.or_eq_true, decide_eq_true_eq, not_or] at hc
    obtain ⟨⟨hbackslash, hpercent⟩, hunderscore⟩ := hc
    exact Like.plain_iff hpercent hunderscore hbackslash

/-- An escaped text stands for itself, whatever comes after it. -/
theorem like_escaped_append (cs : List Char) :
    Like (cs.flatMap escapePatternChar ++ p) s ↔ ∃ u, s = cs ++ u ∧ Like p u := by
  induction cs generalizing s with
  | nil => simp
  | cons c cs ih =>
      rw [List.flatMap_cons, List.append_assoc, like_escapePatternChar]
      simp only [ih]
      constructor
      · rintro ⟨_, rfl, u, rfl, h⟩
        exact ⟨u, rfl, h⟩
      · rintro ⟨u, rfl, h⟩
        exact ⟨cs ++ u, rfl, u, rfl, h⟩

/-- The pattern for a piece of text, open at the start or at the end. -/
def piecePattern (openStart : Bool) (piece : String) (openEnd : Bool) : String :=
  wildcard openStart ++ escapePattern piece ++ wildcard openEnd

theorem like_open_start (openStart : Bool) :
    Like ((wildcard openStart).toList ++ p) s ↔
      ∃ t u, s = t ++ u ∧ (openStart = false → t = []) ∧ Like p u := by
  cases openStart with
  | false =>
      constructor
      · intro h
        exact ⟨[], s, rfl, fun _ => rfl, h⟩
      · rintro ⟨t, u, rfl, ht, h⟩
        rw [ht rfl]
        exact h
  | true =>
      refine Like.anyText_iff.trans ?_
      simp

theorem like_open_end (openEnd : Bool) :
    Like (wildcard openEnd).toList s ↔ (openEnd = false → s = []) := by
  cases openEnd with
  | false => simpa [wildcard] using Like.nil_iff
  | true =>
      constructor
      · intro _ h
        exact absurd h (by decide)
      · intro _
        exact Like.anyText_iff.mpr ⟨s, [], (List.append_nil s).symm, .nil⟩

/-- The pattern matches the texts with the piece in them, from their start or to their end if the
pattern is not open there. -/
theorem like_piecePattern (openStart : Bool) (piece : String) (openEnd : Bool) :
    Like (piecePattern openStart piece openEnd).toList s ↔
      ∃ t u, s = t ++ piece.toList ++ u ∧ (openStart = false → t = []) ∧
        (openEnd = false → u = []) := by
  rw [piecePattern, escapePattern, String.toList_append, String.toList_append,
    String.toList_ofList, List.append_assoc, like_open_start]
  simp only [like_escaped_append, like_open_end]
  constructor
  · rintro ⟨t, _, rfl, ht, u, rfl, hu⟩
    exact ⟨t, u, (List.append_assoc _ _ _).symm, ht, hu⟩
  · rintro ⟨t, u, rfl, ht, hu⟩
    exact ⟨t, piece.toList ++ u, List.append_assoc _ _ _, ht, u, rfl, hu⟩

/-! ## The searches -/

/-- A search for a piece of text: the sides on which its pattern is open, and how the piece stands
to the texts that are found. -/
structure PieceSearch where
  name : String
  openStart : Bool
  openEnd : Bool
  Finds : List Char → List Char → Prop

def pieceSearches : List PieceSearch :=
  [⟨"contains", true, true, fun piece s => piece <:+: s⟩,
   ⟨"startswith", false, true, fun piece s => piece <+: s⟩,
   ⟨"endswith", true, false, fun piece s => piece <:+ s⟩]

theorem finds_iff {x : PieceSearch} (hx : x ∈ pieceSearches) (piece : List Char) :
    x.Finds piece s ↔ ∃ t u, s = t ++ piece ++ u ∧ (x.openStart = false → t = []) ∧
      (x.openEnd = false → u = []) := by
  simp only [pieceSearches, List.mem_cons, List.not_mem_nil, or_false] at hx
  rcases hx with rfl | rfl | rfl
  · simp [List.IsInfix, eq_comm]
  · simp [List.IsPrefix, eq_comm]
  · simp [List.IsSuffix, eq_comm]

/-! ## Calls of the searches -/

/-- Dialects other than ClickHouse get the pattern. -/
theorem variantFor?_pieceTest {name : String} {general clickhouse : Emit.Writer}
    {dialect : Dialects} (h : Dialects.clickhouse.contains dialect = false) :
    (pieceTest name general clickhouse).variantFor? dialect = some (.baseline general) := by
  have hbaseline : Dialects.dummy.contains .dummy = true := by decide
  have hserves : Dialects.clickhouse.serves dialect = false := by
    rw [Dialects.serves, h]
    decide
  show (Definition.narrowest ([Variant.baseline general, .forClickhouse clickhouse].filter fun v =>
    !v.dialects.contains .dummy && v.dialects.serves dialect)).or
      ([Variant.baseline general, .forClickhouse clickhouse].find? fun v =>
        v.dialects.contains .dummy) = _
  rw [List.filter_cons_of_neg, List.filter_cons_of_neg, List.filter_nil, List.find?_cons_of_pos]
  · rfl
  · exact hbaseline
  · simp [Variant.forClickhouse, hserves]
  · simp [Variant.baseline, hbaseline]

theorem exists_pieceTest {x : PieceSearch} (hx : x ∈ pieceSearches) : ∃ clickhouse,
    pieceTest x.name (matchesPiece x.openStart x.openEnd) clickhouse ∈ catalogue := by
  have htexts : ∃ clickhouse,
      pieceTest x.name (matchesPiece x.openStart x.openEnd) clickhouse ∈ texts := by
    simp only [pieceSearches, List.mem_cons, List.not_mem_nil, or_false] at hx
    rcases hx with rfl | rfl | rfl
    · exact ⟨_, List.mem_of_getElem? (i := 5) rfl⟩
    · exact ⟨_, List.mem_of_getElem? (i := 7) rfl⟩
    · exact ⟨_, List.mem_of_getElem? (i := 8) rfl⟩
  obtain ⟨clickhouse, h⟩ := htexts
  refine ⟨clickhouse, ?_⟩
  simp only [catalogue, List.mem_append]
  tauto

/-- A search of something that can be a text is resolved to the definition for texts. -/
theorem resolve_pieceSearch {x : PieceSearch} (hx : x ∈ pieceSearches) {name : String}
    (hname : name.toLower = x.name) {t : DataType}
    (ht : t.castsToAny TypeFamily.strings = true) {dialect : Dialects}
    (hdialect : Dialects.clickhouse.contains dialect = false) {scopes : Scopes}
    (hscopes : Scopes.usual.contains scopes = true) :
    ∃ r, resolve name [t, .const .string] false dialect scopes = .ok r ∧
      r.variant.emit = matchesPiece x.openStart x.openEnd := by
  obtain ⟨clickhouse, hmem⟩ := exists_pieceTest hx
  have hcandidate : pieceTest x.name (matchesPiece x.openStart x.openEnd) clickhouse ∈
      candidatesIn catalogue name 2 false scopes :=
    mem_candidatesIn.mpr ⟨hmem, hname.symm, rfl, hscopes, rfl⟩
  have haccepts : (pieceTest x.name (matchesPiece x.openStart x.openEnd) clickhouse).accepts
      [t, .const .string] = true := by
    show ((t.castsToAny TypeFamily.strings && _) || false) = true
    rw [ht]
    decide
  obtain ⟨d, hd⟩ := exists_find? hcandidate haccepts
  obtain ⟨hdmem, hdname, hdwindow, -⟩ := mem_candidatesIn.mp (List.mem_of_find?_eq_some hd)
  have hpriority := rank_le_of_find? Definition.priority (candidatesIn_sorted 2) hd hcandidate
    haccepts
  obtain rfl := catalogue_unique hdmem hmem (hdname.trans hname) hdwindow
    (Nat.le_zero.mp hpriority) (List.find?_some (p := (Definition.accepts · _)) hd) haccepts
  exact ⟨_, resolve_of_find? hd (variantFor?_pieceTest hdialect), rfl⟩

/-- A call of a search for a constant is written with the pattern of the constant. -/
theorem lower_pieceSearch {x : PieceSearch} (hx : x ∈ pieceSearches) {f subject constant : Formula}
    {name piece : String} (hcall : f.function? = some name) (hname : name.toLower = x.name)
    (hargs : f.written = [subject, constant]) (hconstant : constant.kind = .literal (.string piece))
    {scope : Scope} (hdialect : Dialects.clickhouse.contains scope.dialect = false)
    (hpurposes : Scopes.usual.contains scope.purposes = true) {a : TypedSql}
    (hsubject : subject.lower scope = .ok a)
    (htype : a.type.castsToAny TypeFamily.strings = true) :
    ∃ r, f.lower scope = .ok r ∧
      r.sql = .binary "LIKE" a.sql (.str (piecePattern x.openStart piece x.openEnd)) := by
  obtain ⟨r, hr, hemit⟩ := resolve_pieceSearch hx hname htype hdialect hpurposes
  refine ⟨_, (Formula.lower_function_eq_ok hcall).mpr ⟨[a, Literal.lower (.string piece)], ?_,
    Lowering.dispatch_eq_ok.mpr ⟨r, hr, _, ?_, rfl⟩⟩, rfl⟩
  · rw [hargs]
    exact .cons hsubject (.cons (Formula.lower_literal hconstant) .nil)
  · rw [hemit]
    rfl

/-- The pattern for a constant is the piece of text with its special characters guarded, between
the marks of the open ends. It matches exactly the texts in which the search finds the piece, and
calls of the search are written with it. -/
theorem pieceSearch_literal {x : PieceSearch} (hx : x ∈ pieceSearches) (piece : String) :
    ∃ pattern, likePattern x.openStart (.str piece) x.openEnd = .str pattern ∧
      pattern.toList = (wildcard x.openStart).toList ++
        guarded '_' (guarded '%' (guarded '\\' piece.toList)) ++ (wildcard x.openEnd).toList ∧
      (∀ s : String, Like pattern.toList s.toList ↔ x.Finds piece.toList s.toList) ∧
      ∀ (f subject constant : Formula) (name : String) (scope : Scope) (a : TypedSql),
        f.function? = some name → name.toLower = x.name → f.written = [subject, constant] →
        constant.kind = .literal (.string piece) →
        Dialects.clickhouse.contains scope.dialect = false →
        Scopes.usual.contains scope.purposes = true → subject.lower scope = .ok a →
        a.type.castsToAny TypeFamily.strings = true →
        ∃ r, f.lower scope = .ok r ∧ r.sql = .binary "LIKE" a.sql (.str pattern) := by
  refine ⟨piecePattern x.openStart piece x.openEnd, rfl, ?_, ?_, ?_⟩
  · rw [piecePattern, escapePattern, String.toList_append, String.toList_append,
      String.toList_ofList, flatMap_escapePatternChar]
  · intro s
    rw [like_piecePattern, finds_iff hx]
  · intro f subject constant name scope a hcall hname hargs hconstant hdialect hpurposes hsubject
      htype
    exact lower_pieceSearch hx hcall hname hargs hconstant hdialect hpurposes hsubject htype

/-- A search for a code that ends in characters with a meaning in patterns. -/
def endsWithShare : Formula :=
  .call "EndsWith" [.field "code", .lit (.string "5%\\_")]

/-- Codes in PostgreSQL. -/
def codes : Scope :=
  (Scope.empty (.single .postgresql94)).withField "code"
    ⟨.column none "code", .plain .string, .none⟩

theorem pieceSearch_literal_endsWithShare : ∃ x ∈ pieceSearches,
    endsWithShare.function? = some "EndsWith" ∧ "EndsWith".toLower = x.name ∧
      ∃ pattern, pattern = "%5\\%\\\\\\_" ∧
        Like pattern.toList "15%\\_".toList ∧ ¬ Like pattern.toList "5%\\_a".toList ∧
          ∃ r, endsWithShare.lower codes = .ok r ∧
            r.sql = .binary "LIKE" (.column none "code") (.str pattern) := by
  have hx : (⟨"endswith", true, false, fun piece s => piece <:+ s⟩ : PieceSearch) ∈ pieceSearches :=
    List.mem_of_getElem? (i := 2) rfl
  have hname : "EndsWith".toLower = "endswith" := by decide +kernel
  obtain ⟨pattern, hpattern, -, hfinds, hcalls⟩ := pieceSearch_literal hx "5%\\_"
  refine ⟨_, hx, rfl, hname, pattern, ?_, (hfinds _).mpr ?_, fun h => ?_, ?_⟩
  · have hwritten : piecePattern true "5%\\_" false = pattern :=
      Literal.string.inj (Sql.literal.inj hpattern)
    rw [← hwritten]
    decide +kernel
  · decide
  · exact absurd ((hfinds _).mp h) (by decide)
  · exact hcalls endsWithShare _ _ _ codes _ rfl hname rfl rfl (by decide) (by decide)
      ((Formula.lower_field rfl).mpr ⟨_, rfl, rfl⟩) (by decide)

end Function

end FormulaSql
