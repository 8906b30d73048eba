import FormulaSql.Literal
import Mathlib.Data.List.Basic

/-!
# Texts in the SQL of literals

A reader of SQL takes what stands between single quotes for a text, in which two quotes stand for
one. The texts that a literal holds should all be found there, and nothing of them outside. This is
so for all literals but those of places, which are written as they are, and those of moments in a
time zone whose name has a quote.

* `Literal.sealed_iff`: the literals whose texts stay in their quotes
* `Literal.not_sealed_zone`: a time zone that ends its quotes
-/

namespace FormulaSql

/-! ## Reading -/

/-- What a reader of SQL finds: characters outside of quotes, and texts in quotes. -/
inductive Lexeme where
  | char (c : Char)
  | quoted (s : List Char)
  deriving DecidableEq

namespace Lexeme

/-- The lexeme without what stands in the quotes. -/
def shape : Lexeme → Lexeme
  | char c => char c
  | quoted _ => quoted []

def text? : Lexeme → Option String
  | char _ => none
  | quoted s => some (String.ofList s)

/-- Reads a text from outside of quotes, or from inside after some characters. There is no answer if
it ends in quotes. -/
def read : Option (List Char) → List Char → Option (List Lexeme)
  | none, [] => some []
  | some _, [] => none
  | none, c :: cs => if c = '\'' then read (some []) cs else (read none cs).map (char c :: ·)
  | some s, '\'' :: '\'' :: cs => read (some (s ++ ['\''])) cs
  | some s, c :: cs =>
    if c = '\'' then (read none cs).map (quoted s :: ·) else read (some (s ++ [c])) cs

/-- A text as it stands in quotes. -/
def doubled (s : List Char) : List Char :=
  s.flatMap fun c => if c = '\'' then ['\'', c] else [c]

variable {c : Char} {cs s t rest : List Char} {ls : List Lexeme}

theorem read_quote : read none ('\'' :: cs) = read (some []) cs :=
  if_pos rfl

theorem read_char (h : c ≠ '\'') : read none (c :: cs) = (read none cs).map (char c :: ·) :=
  if_neg h

theorem readIn_char (h : c ≠ '\'') : read (some s) (c :: cs) = read (some (s ++ [c])) cs := by
  rw [read, if_neg h]
  rintro _ rfl
  exact absurd rfl h

theorem readIn_quotes : read (some s) ('\'' :: '\'' :: cs) = read (some (s ++ ['\''])) cs := rfl

theorem readIn_quote (h : cs.head? ≠ some '\'') :
    read (some s) ('\'' :: cs) = (read none cs).map (quoted s :: ·) := by
  rw [read, if_pos rfl]
  rintro cs' - rfl
  exact absurd rfl h

/-- Characters outside of quotes are found one by one. -/
theorem read_append (h : '\'' ∉ cs) :
    read none (cs ++ rest) = (read none rest).map (cs.map char ++ ·) := by
  induction cs with
  | nil => simp
  | cons c cs ih =>
      rw [List.mem_cons, not_or] at h
      rw [List.cons_append, read_char (Ne.symm h.1), ih h.2, Option.map_map]
      rfl

theorem doubled_quote : doubled ('\'' :: s) = '\'' :: '\'' :: doubled s := by
  rw [doubled, List.flatMap_cons, if_pos rfl]
  rfl

theorem doubled_char (h : c ≠ '\'') : doubled (c :: s) = c :: doubled s := by
  rw [doubled, List.flatMap_cons, if_neg h]
  rfl

/-- A text that stands in quotes is found whole. -/
theorem readIn_doubled (h : rest.head? ≠ some '\'') :
    read (some t) (doubled s ++ '\'' :: rest) = (read none rest).map (quoted (t ++ s) :: ·) := by
  induction s generalizing t with
  | nil =>
      rw [List.append_nil]
      exact readIn_quote h
  | cons c s ih =>
      rw [List.append_cons t c s]
      by_cases hc : c = '\''
      · subst hc
        rw [doubled_quote, List.cons_append, List.cons_append, readIn_quotes, ih]
      · rw [doubled_char hc, List.cons_append, readIn_char hc, ih]

theorem read_doubled (h : rest.head? ≠ some '\'') :
    read none ('\'' :: doubled s ++ '\'' :: rest) = (read none rest).map (quoted s :: ·) := by
  rw [List.cons_append, read_quote, readIn_doubled h, List.nil_append]

theorem doubled_eq_self (h : '\'' ∉ s) : doubled s = s := by
  induction s with
  | nil => rfl
  | cons c s ih =>
      rw [List.mem_cons, not_or] at h
      rw [doubled_char (Ne.symm h.1), ih h.2]

/-- A text with quotes does not stand in quotes as it is. -/
theorem not_mem_of_doubled_eq_self (h : doubled s = s) : '\'' ∉ s := by
  have hcount (s : List Char) : (doubled s).count '\'' = 2 * s.count '\'' := by
    induction s with
    | nil => rfl
    | cons c s ih =>
        by_cases hc : c = '\''
        · subst hc
          rw [doubled_quote, List.count_cons_self, List.count_cons_self, List.count_cons_self, ih]
          omega
        · rw [doubled_char hc, List.count_cons_of_ne hc, List.count_cons_of_ne hc, ih]
  have hs := hcount s
  rw [h] at hs
  exact List.count_eq_zero.mp (by omega)

/-- From inside of quotes a text is found first. It goes on with its quotes doubled. -/
theorem exists_of_readIn (h : read (some t) cs = some ls) :
    ∃ s rest ls', ls = quoted (t ++ s) :: ls' ∧ cs = doubled s ++ '\'' :: rest ∧
      read none rest = some ls' := by
  generalize hstart : some t = start at h
  fun_induction read start cs generalizing t with
  | case1 => exact absurd hstart (by simp)
  | case2 => exact absurd h (by simp)
  | case3 => exact absurd hstart (by simp)
  | case4 => exact absurd hstart (by simp)
  | case5 s₀ cs ih =>
      obtain ⟨s, rest, ls', hls, hcs, hrest⟩ := ih rfl h
      obtain rfl := Option.some.inj hstart
      refine ⟨'\'' :: s, rest, ls', ?_, ?_, hrest⟩
      · rw [hls, List.append_assoc, List.singleton_append]
      · rw [hcs, doubled_quote, List.cons_append, List.cons_append]
  | case6 s₀ cs hquotes ih =>
      obtain ⟨ls', hls', hls⟩ := Option.map_eq_some_iff.mp h
      obtain rfl := Option.some.inj hstart
      exact ⟨[], cs, ls', by rw [List.append_nil, hls], rfl, hls'⟩
  | case7 s₀ c cs hquotes hc ih =>
      obtain ⟨s, rest, ls', hls, hcs, hrest⟩ := ih rfl h
      obtain rfl := Option.some.inj hstart
      refine ⟨c :: s, rest, ls', ?_, ?_, hrest⟩
      · rw [hls, List.append_assoc, List.singleton_append]
      · rw [hcs, doubled_char hc, List.cons_append]

/-- Where nothing is found, there is nothing. -/
theorem eq_nil_of_read (h : read none cs = some []) : cs = [] := by
  cases cs with
  | nil => rfl
  | cons c cs =>
      by_cases hc : c = '\''
      · subst hc
        rw [read_quote] at h
        obtain ⟨s, rest, ls', hls, -⟩ := exists_of_readIn h
        exact absurd hls (by simp)
      · rw [read_char hc] at h
        obtain ⟨ls', -, hls⟩ := Option.map_eq_some_iff.mp h
        exact absurd hls (by simp)

/-- Only a text without quotes is found between two quotes as it is. -/
theorem not_mem_of_read (h : read none ('\'' :: s ++ ['\'']) = some [quoted s]) : '\'' ∉ s := by
  rw [List.cons_append, read_quote] at h
  obtain ⟨s', rest, ls', hls, hcs, hrest⟩ := exists_of_readIn h
  obtain ⟨hs, rfl⟩ := List.cons.inj hls
  obtain rfl := eq_nil_of_read hrest
  obtain rfl : s = s' := Lexeme.quoted.inj hs
  exact not_mem_of_doubled_eq_self (List.append_cancel_right hcs).symm

end Lexeme

/-! ## Numbers and moments -/

theorem quote_not_mem_toDigits (n : Nat) : '\'' ∉ Nat.toDigits 10 n := fun h =>
  absurd (Nat.isDigit_of_mem_toDigits (by decide) (by decide) h) (by decide)

theorem quote_not_mem_padded (width n : Nat) : '\'' ∉ padded width n := by
  simp [padded, quote_not_mem_toDigits]

theorem Date.quote_not_mem_chars (d : Date) : '\'' ∉ d.chars := by
  have hyear : '\'' ∉ yearChars d.year := by
    rw [yearChars]
    split
    · exact quote_not_mem_padded 4 _
    · split <;> simp [quote_not_mem_padded]
  simp [chars, hyear, quote_not_mem_padded]

theorem Time.quote_not_mem_chars (t : Time) : '\'' ∉ t.chars := by
  have hfraction (n : Nat) : '\'' ∉ fractionChars n := by
    rw [fractionChars]
    split
    · simp
    · split
      · simp [quote_not_mem_padded]
      · split <;> simp [quote_not_mem_padded]
  simp [chars, hfraction, quote_not_mem_padded]

theorem DateTime.quote_not_mem_text (dt : DateTime) : '\'' ∉ (dt.text ' ').toList := by
  simp [text, dt.date.quote_not_mem_chars, dt.time.quote_not_mem_chars]

theorem quote_not_mem_int (n : Int) : '\'' ∉ (toString n).toList := by
  rw [Int.toString_eq_repr, Int.repr_eq_if]
  split <;> simp [Nat.repr, quote_not_mem_toDigits]

namespace Double

theorem quote_not_mem_shortest (d : Double) : '\'' ∉ d.shortest.1 := by
  rw [shortest]
  split
  next c place _ =>
    intro h
    have h : '\'' ∈ (Nat.toDigits 10 c).reverse.dropWhile (· == '0') := List.mem_reverse.mp h
    have h := (List.dropWhile_sublist _).subset h
    exact quote_not_mem_toDigits c (List.mem_reverse.mp h)
  next => decide

variable {ds : List Char}

theorem quote_not_mem_positional (h : '\'' ∉ ds) (point : Int) :
    '\'' ∉ positional ds point := by
  have htake (n : Nat) : '\'' ∉ ds.take n := fun hc => h (List.mem_of_mem_take hc)
  have hdrop (n : Nat) : '\'' ∉ ds.drop n := fun hc => h (List.mem_of_mem_drop hc)
  unfold positional
  split
  · simp [h]
  · dsimp only
    split <;> simp [htake, hdrop]

theorem quote_not_mem_scientific (h : '\'' ∉ ds) (point : Int) :
    '\'' ∉ scientific ds point := by
  have htake (n : Nat) : '\'' ∉ ds.take n := fun hc => h (List.mem_of_mem_take hc)
  have hdrop (n : Nat) : '\'' ∉ ds.drop n := fun hc => h (List.mem_of_mem_drop hc)
  have hrest : '\'' ∉ (if (ds.drop 1).isEmpty then [] else '.' :: ds.drop 1) := by
    split
    · simp
    · rw [List.mem_cons, not_or]
      exact ⟨by decide, hdrop 1⟩
  rw [scientific, List.mem_append, List.mem_append, List.mem_cons, not_or, not_or, not_or]
  exact ⟨⟨htake 1, hrest⟩, by decide, quote_not_mem_int _⟩

theorem quote_not_mem_text (d : Double) : '\'' ∉ d.text.toList := by
  have hds := d.quote_not_mem_shortest
  have hsign : '\'' ∉ (if d.isNegative then "-" else "").toList := by
    split <;> decide
  unfold text
  dsimp only
  generalize (if d.isNegative then "-" else "") = sign at hsign
  split
  · decide
  · split
    · simp [hsign]
    · split
      · simp [hsign]
      · rw [String.toList_append, List.mem_append, not_or, String.toList_ofList]
        refine ⟨hsign, ?_⟩
        split
        · exact quote_not_mem_positional hds _
        · exact quote_not_mem_scientific hds _

end Double

/-! ## Literals -/

namespace Literal

/-- The texts that a literal was given. -/
def texts : Literal → List String
  | string s | geopoint s | geopolygon s | uuid s => [s]
  | datetimeTz _ zone => [zone]
  | arrayStr xs | treeStr xs => xs
  | _ => []

/-- The literal with empty texts in the place of its own. -/
def blank : Literal → Literal
  | string _ => string ""
  | geopoint _ => geopoint ""
  | geopolygon _ => geopolygon ""
  | uuid _ => uuid ""
  | datetimeTz dt _ => datetimeTz dt ""
  | arrayStr xs => arrayStr (xs.map fun _ => "")
  | treeStr xs => treeStr (xs.map fun _ => "")
  | l => l

/-- The date and time of a literal, which is shown as a text. -/
def moments : Literal → List String
  | date d => [d.text]
  | datetime dt | genericDatetime dt | datetimeTz dt _ => [dt.text ' ']
  | _ => []

/-- A reader of the SQL finds all texts of the literal in quotes. What is outside of quotes is the
same as for empty texts, so no character of a text is there. -/
def Sealed (l : Literal) : Prop :=
  ∃ ls ls₀, Lexeme.read none l.sqlText.toList = some ls ∧
    Lexeme.read none l.blank.sqlText.toList = some ls₀ ∧
    ls.map Lexeme.shape = ls₀.map Lexeme.shape ∧
    ls.filterMap Lexeme.text? = l.moments ++ l.texts

/-- The texts are written with their quotes doubled, or there are no quotes in them. -/
def isGuarded : Literal → Bool
  | datetimeTz _ zone => !zone.toList.contains '\''
  | geopoint _ | geopolygon _ => false
  | _ => true

/-- What is found in a text that shows no quotes. -/
def plain (s : String) : List Lexeme := s.toList.map Lexeme.char

/-- What is found in a list of texts. -/
def items (xs : List String) : List Lexeme :=
  (plain ", ").intercalate (xs.map fun x => [.quoted x.toList])

/-- What is found in the SQL of a literal that is guarded. -/
def lexemes : Literal → List Lexeme
  | string s | uuid s => [.quoted s.toList]
  | date d => plain "DATE " ++ [.quoted d.text.toList]
  | datetime dt | genericDatetime dt => plain "TIMESTAMP " ++ [.quoted (dt.text ' ').toList]
  | datetimeTz dt zone => plain "TIMESTAMP " ++ .quoted (dt.text ' ').toList ::
      plain " AT TIME ZONE " ++ [.quoted zone.toList]
  | arrayStr xs | treeStr xs => plain "ARRAY[" ++ items xs ++ plain "]"
  | l => plain l.sqlText

open Lexeme

variable {l : Literal} {s : String} {xs : List String} {rest : List Char}

theorem toList_singleQuoted (s : String) :
    (singleQuoted '\'' s).toList = '\'' :: doubled s.toList ++ ['\''] := by
  rw [singleQuoted, String.toList_ofList]
  rfl

/-- A text in its quotes, doubled inside. -/
theorem read_singleQuoted (h : rest.head? ≠ some '\'') :
    read none ((singleQuoted '\'' s).toList ++ rest) =
      (read none rest).map (quoted s.toList :: ·) := by
  rw [toList_singleQuoted, List.append_assoc]
  exact read_doubled h

/-- A text without quotes in its quotes. -/
theorem read_between (hs : '\'' ∉ s.toList) (h : rest.head? ≠ some '\'') :
    read none ('\'' :: s.toList ++ '\'' :: rest) = (read none rest).map (quoted s.toList :: ·) := by
  rw [← read_doubled h, doubled_eq_self hs]

theorem read_items (h : rest.head? ≠ some '\'') :
    read none ([',', ' '].intercalate (xs.map fun x => (singleQuoted '\'' x).toList) ++ rest) =
      (read none rest).map (items xs ++ ·) := by
  induction xs with
  | nil => simp [items]
  | cons x xs ih =>
      cases xs with
      | nil =>
          rw [items, List.map_singleton, List.map_singleton, List.intercalate_singleton,
            List.intercalate_singleton, read_singleQuoted h]
          rfl
      | cons y ys =>
          rw [List.map_cons] at ih
          rw [List.map_cons, List.map_cons, List.intercalate_cons_cons, List.append_assoc,
            List.append_assoc, read_singleQuoted (by simp), read_append (by decide), ih,
            Option.map_map, Option.map_map]
          refine congrFun (congrArg _ (funext fun ls => ?_)) _
          simp only [items, List.map_cons, List.intercalate_cons_cons, Function.comp_apply]
          rfl

theorem read_plain (h : '\'' ∉ s.toList) : read none s.toList = some (plain s) := by
  have hread : read none (s.toList ++ []) = (read none []).map (s.toList.map Lexeme.char ++ ·) :=
    read_append h
  rwa [List.append_nil, Lexeme.read, Option.map_some, List.append_nil] at hread

/-- The text of a date or of a time, and what is written before it. -/
theorem read_moment {keyword : String} (hkeyword : '\'' ∉ keyword.toList) (hs : '\'' ∉ s.toList)
    (h : rest.head? ≠ some '\'') :
    read none (keyword.toList ++ ('\'' :: s.toList ++ '\'' :: rest)) =
      (read none rest).map (plain keyword ++ quoted s.toList :: ·) := by
  rw [read_append hkeyword, read_between hs h, Option.map_map]
  rfl

/-- Of a moment in a time zone all is found but what the name of the zone makes of its quotes. -/
theorem read_zoned (dt : DateTime) (zone : String) :
    read none (datetimeTz dt zone).sqlText.toList =
      (read none ('\'' :: zone.toList ++ ['\''])).map
        (plain "TIMESTAMP " ++ quoted (dt.text ' ').toList :: plain " AT TIME ZONE " ++ ·) := by
  have htext : (datetimeTz dt zone).sqlText.toList = "TIMESTAMP ".toList ++
      ('\'' :: (dt.text ' ').toList ++ '\'' ::
        (" AT TIME ZONE ".toList ++ ('\'' :: zone.toList ++ ['\'']))) := by
    change ("TIMESTAMP '" ++ dt.text ' ' ++ "' AT TIME ZONE '" ++ zone ++ "'").toList = _
    simp
  rw [htext, read_moment (by decide) dt.quote_not_mem_text (by simp), read_append (by decide),
    Option.map_map]
  refine congrFun (congrArg _ (funext fun ls => ?_)) _
  simp only [plain, Function.comp_apply, List.append_assoc, List.cons_append]

theorem read_array (xs : List String) :
    read none ("ARRAY" ++ Text.bracketed (xs.map (singleQuoted '\''))).toList =
      some (plain "ARRAY[" ++ items xs ++ plain "]") := by
  have htext : ("ARRAY" ++ Text.bracketed (xs.map (singleQuoted '\''))).toList = "ARRAY[".toList ++
      ([',', ' '].intercalate (xs.map fun x => (singleQuoted '\'' x).toList) ++ "]".toList) := by
    simp [Text.bracketed, Function.comp_def]
  rw [htext, read_append (by decide), read_items (by decide), read_plain (by decide)]
  simp [plain]

theorem quote_not_mem_numbers {ns : List String} (h : ∀ n ∈ ns, '\'' ∉ n.toList) :
    '\'' ∉ ("ARRAY" ++ Text.bracketed ns).toList := by
  have hnumbers : '\'' ∉ [',', ' '].intercalate (ns.map String.toList) := by
    induction ns with
    | nil => simp
    | cons n ns ih =>
        rw [List.forall_mem_cons] at h
        cases ns with
        | nil => simpa using h.1
        | cons m ns =>
            have hrest := ih h.2
            rw [List.map_cons] at hrest
            rw [List.map_cons, List.map_cons, List.intercalate_cons_cons]
            simp [h.1, hrest]
  simp [Text.bracketed, hnumbers]

/-- Of a guarded literal everything is found. -/
theorem read_sqlText (h : l.isGuarded = true) :
    read none l.sqlText.toList = some l.lexemes := by
  cases l with
  | null => exact read_plain (by decide)
  | integer n => exact read_plain (quote_not_mem_int n.toInt)
  | float x => exact read_plain x.quote_not_mem_text
  | boolean b => cases b <;> exact read_plain (by decide)
  | string s | uuid s =>
      have hread : read none ((singleQuoted '\'' s).toList ++ []) =
          (read none []).map (quoted s.toList :: ·) := read_singleQuoted (by simp)
      rwa [List.append_nil] at hread
  | date d =>
      have htext : (date d).sqlText.toList =
          "DATE ".toList ++ ('\'' :: d.text.toList ++ ['\'']) := by
        change ("DATE '" ++ d.text ++ "'").toList = _
        simp
      have hd : '\'' ∉ d.text.toList := by
        rw [Date.text, String.toList_ofList]
        exact d.quote_not_mem_chars
      rw [htext, read_moment (by decide) hd (by simp)]
      rfl
  | datetime dt | genericDatetime dt =>
      have htext : (datetime dt).sqlText.toList =
          "TIMESTAMP ".toList ++ ('\'' :: (dt.text ' ').toList ++ ['\'']) := by
        change ("TIMESTAMP '" ++ dt.text ' ' ++ "'").toList = _
        simp
      exact (congrArg _ htext).trans (read_moment (by decide) dt.quote_not_mem_text (by simp))
  | datetimeTz dt zone =>
      have hzone : '\'' ∉ zone.toList := by simpa [isGuarded] using h
      rw [read_zoned, read_between hzone (by simp)]
      rfl
  | geopoint | geopolygon => exact absurd h (by simp [isGuarded])
  | arrayInt xs =>
      refine read_plain (quote_not_mem_numbers fun x hx => ?_)
      obtain ⟨n, -, rfl⟩ := List.mem_map.mp hx
      exact quote_not_mem_int n.toInt
  | arrayFloat xs =>
      refine read_plain (quote_not_mem_numbers fun x hx => ?_)
      obtain ⟨y, -, rfl⟩ := List.mem_map.mp hx
      exact y.quote_not_mem_text
  | arrayStr xs | treeStr xs => exact read_array xs

theorem isGuarded_blank (h : l.isGuarded = true) : l.blank.isGuarded = true := by
  cases l with
  | geopoint | geopolygon => exact absurd h (by simp [isGuarded])
  | _ => rfl

theorem map_shape_plain (s : String) : (plain s).map shape = plain s := by
  rw [plain, List.map_map]
  rfl

theorem filterMap_text?_plain (s : String) : (plain s).filterMap text? = [] := by
  rw [plain, List.filterMap_map]
  exact List.filterMap_eq_nil_iff.mpr fun c _ => rfl

/-- The texts of a list are found in their order. -/
theorem filterMap_text?_items (xs : List String) : (items xs).filterMap text? = xs := by
  induction xs with
  | nil => rfl
  | cons x xs ih =>
      cases xs with
      | nil => simp [items, text?]
      | cons y ys =>
          simp only [items, List.map_cons, List.intercalate_cons_cons] at ih ⊢
          rw [List.filterMap_append, List.filterMap_append, ih, filterMap_text?_plain]
          simp [text?]

theorem map_shape_items (xs : List String) :
    (items xs).map shape = (items (xs.map fun _ => "")).map shape := by
  induction xs with
  | nil => rfl
  | cons x xs ih =>
      cases xs with
      | nil => rfl
      | cons y ys =>
          simp only [items, List.map_cons, List.intercalate_cons_cons] at ih ⊢
          rw [List.map_append, List.map_append, List.map_append, List.map_append, ih]
          rfl

theorem filterMap_text?_lexemes (h : l.isGuarded = true) :
    l.lexemes.filterMap text? = l.moments ++ l.texts := by
  cases l with
  | string s | uuid s => simp [lexemes, text?, moments, texts]
  | date d => simp [lexemes, text?, moments, texts, filterMap_text?_plain]
  | datetime dt | genericDatetime dt =>
      simp [lexemes, text?, moments, texts, filterMap_text?_plain]
  | datetimeTz dt zone => simp [lexemes, text?, moments, texts, filterMap_text?_plain]
  | arrayStr xs | treeStr xs =>
      simp [lexemes, moments, texts, filterMap_text?_plain, filterMap_text?_items]
  | geopoint | geopolygon => exact absurd h (by simp [isGuarded])
  | _ => exact filterMap_text?_plain _

theorem map_shape_lexemes (h : l.isGuarded = true) :
    l.lexemes.map shape = l.blank.lexemes.map shape := by
  cases l with
  | datetimeTz dt zone => simp [lexemes, blank, map_shape_plain, shape]
  | arrayStr xs | treeStr xs =>
      simp only [lexemes, blank, List.map_append, map_shape_items xs]
  | geopoint | geopolygon => exact absurd h (by simp [isGuarded])
  | _ => rfl

theorem sealed_of_isGuarded (h : l.isGuarded = true) : l.Sealed :=
  ⟨l.lexemes, l.blank.lexemes, read_sqlText h, read_sqlText (isGuarded_blank h),
    map_shape_lexemes h, filterMap_text?_lexemes h⟩

/-- A time zone whose name has a quote gets out of its quotes. -/
theorem not_sealed_of_zone {dt : DateTime} {zone : String} (h : '\'' ∈ zone.toList) :
    ¬ (datetimeTz dt zone).Sealed := by
  rintro ⟨ls, ls₀, hread, hblank, hshape, htexts⟩
  rw [read_zoned] at hread
  obtain ⟨zs, hzs, rfl⟩ := Option.map_eq_some_iff.mp hread
  rw [read_sqlText (l := (datetimeTz dt zone).blank) (by rfl)] at hblank
  obtain rfl := Option.some.inj hblank
  have hone : zs.map shape = [quoted []] := by
    simpa [lexemes, blank, map_shape_plain, shape] using hshape
  obtain ⟨z, rfl⟩ : ∃ z, zs = [z] := List.length_eq_one_iff.mp (by
    rw [← List.length_map shape, hone]
    rfl)
  cases z with
  | char c => exact absurd hone (by simp [shape])
  | quoted s =>
      have hs : s = zone.toList := by
        have : String.ofList s = zone := by
          simpa [text?, moments, texts, filterMap_text?_plain] using htexts
        rw [← this, String.toList_ofList]
      rw [hs] at hzs
      exact not_mem_of_read hzs h

/-- A place that is written as it is does not stand in quotes. -/
theorem not_sealed_of_bare (hblank : l.blank.sqlText = "") (htexts : l.texts = [s]) :
    ¬ l.Sealed := by
  rintro ⟨ls, ls₀, -, hblank', hshape, hfound⟩
  rw [hblank] at hblank'
  obtain rfl : ls₀ = [] := by simpa [Lexeme.read] using hblank'.symm
  obtain rfl : ls = [] := List.map_eq_nil_iff.mp hshape
  rw [htexts] at hfound
  exact absurd hfound (by simp)

/-- The texts of a literal stay in quotes exactly if the literal is guarded: it is no place, and if
it has a time zone, the name of that has no quote. -/
theorem sealed_iff (l : Literal) : l.Sealed ↔ l.isGuarded = true := by
  refine ⟨fun hsealed => ?_, sealed_of_isGuarded⟩
  by_contra hguarded
  cases l with
  | datetimeTz dt zone =>
      refine not_sealed_of_zone ?_ hsealed
      simpa [isGuarded] using hguarded
  | geopoint s | geopolygon s => exact not_sealed_of_bare rfl rfl hsealed
  | _ => exact hguarded rfl

/-- A moment in a time zone whose name goes on as SQL. -/
def opened : Literal :=
  datetimeTz ⟨⟨2020, 1, 2, by decide⟩, ⟨3, 4, 5, 0, by decide⟩⟩ "UTC' OR '1'='1"

theorem not_sealed_zone :
    opened.sqlText = "TIMESTAMP '2020-01-02 03:04:05' AT TIME ZONE 'UTC' OR '1'='1'" ∧
      ¬ opened.Sealed :=
  ⟨by decide +kernel, not_sealed_of_zone (by decide +kernel)⟩

end Literal

end FormulaSql
