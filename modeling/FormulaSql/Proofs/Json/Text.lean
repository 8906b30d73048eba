import FormulaSql.Json.Reader
import Mathlib.Data.List.TakeWhile
import Mathlib.Tactic.SplitIfs

/-!
# Values are read back from their text

The text of a value is the text of its parts with marks between them. Characters become tokens
piece by piece: a piece with a mark behind it is read as the same tokens wherever it stands. The
tokens of a value then complete that value in whatever is still open.

Doubles are left out; their text is a decimal, which is rounded when it is read.

* `Json.Exact` says which values have a text of their own
* `Json.scan?_text` and `Json.parse?_text` are the results
-/

namespace FormulaSql.Json

variable {c : Char} {cs ds rest : List Char} {us vs : List Token}

/-- A value without doubles, whose whole numbers have at most 64 bits. -/
inductive Exact : Json → Prop where
  | null : Exact null
  | bool (b : Bool) : Exact (bool b)
  | int {n : Int} (low : Int64.minValue.toInt ≤ n) (high : n < UInt64.size) : Exact (int n)
  | str (s : String) : Exact (str s)
  | arr {js : List Json} (items : ∀ j ∈ js, Exact j) : Exact (arr js)
  | obj {ms : List (String × Json)} (members : ∀ m ∈ ms, Exact m.2) : Exact (obj ms)

@[simp]
theorem exact_null : Exact null := .null

@[simp]
theorem exact_bool (b : Bool) : Exact (bool b) := .bool b

@[simp]
theorem exact_str (s : String) : Exact (str s) := .str s

@[simp]
theorem exact_arr_iff {js : List Json} : Exact (arr js) ↔ ∀ j ∈ js, Exact j :=
  ⟨fun h => by cases h; assumption, .arr⟩

@[simp]
theorem exact_obj_iff {ms : List (String × Json)} : Exact (obj ms) ↔ ∀ m ∈ ms, Exact m.2 :=
  ⟨fun h => by cases h; assumption, .obj⟩

/-! ## Depth -/

section Depth

variable {n : String} {j : Json} {js : List Json} {ms : List (String × Json)}

theorem depth_le_of_mem (h : j ∈ js) : j.depth ≤ itemsDepth js := by
  induction js with
  | nil => exact absurd h List.not_mem_nil
  | cons i js ih =>
      rw [itemsDepth]
      rcases List.mem_cons.mp h with rfl | h
      · exact Nat.le_max_left _ _
      · exact Nat.le_trans (ih h) (Nat.le_max_right _ _)

theorem depth_le_of_mem_members (h : (n, j) ∈ ms) : j.depth ≤ membersDepth ms := by
  induction ms with
  | nil => exact absurd h List.not_mem_nil
  | cons m ms ih =>
      rw [membersDepth]
      rcases List.mem_cons.mp h with rfl | h
      · exact Nat.le_max_left _ _
      · exact Nat.le_trans (ih h) (Nat.le_max_right _ _)

theorem depth_le_of_member (h : (n, j) ∈ ms) : j.depth ≤ (obj ms).depth :=
  Nat.le_trans (depth_le_of_mem_members h) (Nat.le_add_left _ 1)

end Depth

/-! ## Characters -/

/-- The text ends here, or a mark follows. -/
def AtMark (rest : List Char) : Prop := ∀ c ∈ rest.head?, isMark c = true

theorem atMark_nil : AtMark [] := fun _ h => absurd h (by simp)

theorem atMark_cons (hc : isMark c = true) (cs : List Char) : AtMark (c :: cs) :=
  fun _ hd => Option.some.inj hd ▸ hc

/-- These characters are read as these tokens if they end where a mark follows. -/
def Lexed (cs : List Char) (us : List Token) : Prop :=
  ∀ rest, AtMark rest → tokensFrom .between (cs ++ rest) = (tokensFrom .between rest).map (us ++ ·)

theorem lexed_nil : Lexed [] [] := by
  intro rest _
  simp

theorem tokensFrom_cons {m m' : Mode} {ts : List Token} (h : m.step c = some (m', ts)) :
    tokensFrom m (c :: cs) = (tokensFrom m' cs).map (ts ++ ·) := by
  rw [tokensFrom, h]
  exact Option.map_eq_bind.symm

theorem tokensFrom_cons_nil {m m' : Mode} (h : m.step c = some (m', [])) :
    tokensFrom m (c :: cs) = tokensFrom m' cs := by
  simp [tokensFrom_cons h]

/-- A mark is neither a blank nor part of a word or a number. -/
theorem other_of_isMark (hc : isMark c = true) :
    isSpace c = false ∧ c.isLower = false ∧ isNumberChar c = false := by
  simp only [isMark, Bool.or_eq_true, beq_iff_eq] at hc
  rcases hc with ((((rfl | rfl) | rfl) | rfl) | rfl) | rfl <;> decide

theorem fromBetween_mark (hc : isMark c = true) : fromBetween c = some (.between, [.mark c]) := by
  rw [fromBetween, (other_of_isMark hc).1, hc]
  rfl

theorem tokensFrom_mark (hc : isMark c = true) (cs : List Char) :
    tokensFrom .between (c :: cs) = (tokensFrom .between cs).map (.mark c :: ·) :=
  tokensFrom_cons (m := .between) (fromBetween_mark hc)

theorem Lexed.mark (hc : isMark c = true) (h : Lexed cs us) :
    Lexed (c :: cs) (.mark c :: us) := by
  intro rest hrest
  rw [List.cons_append, tokensFrom_mark hc, h rest hrest, Option.map_map]
  rfl

theorem Lexed.append_mark (h : Lexed cs us) (hc : isMark c = true) (h' : Lexed ds vs) :
    Lexed (cs ++ c :: ds) (us ++ .mark c :: vs) := by
  intro rest hrest
  rw [List.append_assoc, List.cons_append, h _ (atMark_cons hc _), ← List.cons_append,
    h'.mark hc rest hrest, Option.map_map]
  simp [Function.comp_def]

/-! ### Words and numbers -/

section Scalars

variable {v : Json} {mode : List Char → Mode}

/-- A word or a number ends where a mark follows. -/
theorem tokensFrom_atMark {m : Mode} (hfinish : m.finish = some [.scalar v])
    (hstep : ∀ c, isMark c = true → m.step c = some (.between, [.scalar v, .mark c]))
    (hrest : AtMark rest) :
    tokensFrom m rest = (tokensFrom .between rest).map (.scalar v :: ·) := by
  cases rest with
  | nil => exact hfinish
  | cons c rest =>
      have hc : isMark c = true := hrest c rfl
      rw [tokensFrom_cons (hstep c hc), tokensFrom_mark hc, Option.map_map]
      rfl

/-- The characters of a word or a number are collected. -/
theorem tokensFrom_collect (hstep : ∀ cs, ∀ d ∈ ds, (mode cs).step d = some (mode (d :: cs), [])) :
    tokensFrom (mode cs) (ds ++ rest) = tokensFrom (mode (ds.reverse ++ cs)) rest := by
  induction ds generalizing cs with
  | nil => rfl
  | cons d ds ih =>
      rw [List.cons_append, tokensFrom_cons_nil (hstep cs d List.mem_cons_self),
        ih fun cs e he => hstep cs e (List.mem_cons_of_mem _ he), List.reverse_cons,
        List.append_assoc]
      rfl

theorem lexed_word (hbegin : fromBetween c = some (.word [c], []))
    (hds : ds.all Char.isLower = true) (hv : word? (c :: ds) = some v) :
    Lexed (c :: ds) [.scalar v] := by
  intro rest hrest
  have hreverse : (ds.reverse ++ [c]).reverse = c :: ds := by simp
  rw [List.cons_append, tokensFrom_cons_nil (m := .between) hbegin,
    tokensFrom_collect fun cs d hd => by
      rw [Mode.step, if_pos (List.all_eq_true.mp hds d hd)]]
  refine tokensFrom_atMark (by rw [Mode.finish, hreverse, hv]; rfl) (fun d hd => ?_) hrest
  rw [Mode.step, (other_of_isMark hd).2.1, hreverse, hv, fromBetween_mark hd]
  rfl

theorem lexed_number (hbegin : fromBetween c = some (.number [c], []))
    (hds : ∀ d ∈ ds, isNumberChar d = true) (hv : number? (c :: ds) = some v) :
    Lexed (c :: ds) [.scalar v] := by
  intro rest hrest
  have hreverse : (ds.reverse ++ [c]).reverse = c :: ds := by simp
  rw [List.cons_append, tokensFrom_cons_nil (m := .between) hbegin,
    tokensFrom_collect fun cs d hd => by rw [Mode.step, if_pos (hds d hd)]]
  refine tokensFrom_atMark (by rw [Mode.finish, hreverse, hv]; rfl) (fun d hd => ?_) hrest
  rw [Mode.step, (other_of_isMark hd).2.2, hreverse, hv, fromBetween_mark hd]
  rfl

theorem lexed_null : Lexed (text null).toList [.scalar null] :=
  lexed_word rfl rfl rfl

theorem lexed_bool (b : Bool) : Lexed (text (bool b)).toList [.scalar (bool b)] := by
  cases b with
  | true => exact lexed_word rfl rfl rfl
  | false => exact lexed_word rfl rfl rfl

end Scalars

/-! ### Whole numbers -/

section Digits

variable {n : Nat}

/-- Only zero begins with a zero. -/
theorem head?_toDigits (hn : 0 < n) : (Nat.toDigits 10 n).head? ≠ some '0' := by
  induction n using Nat.strongRecOn with
  | ind n ih =>
      by_cases hbase : n < 10
      · have hdigit : ∀ n < 10, 0 < n → [Nat.digitChar n].head? ≠ some '0' := by decide
        rw [Nat.toDigits_of_lt_base hbase]
        exact hdigit n hbase hn
      · have hhigher := ih (n / 10) (by omega) (by omega)
        obtain ⟨d, ds, hds⟩ :=
          List.exists_cons_of_ne_nil (Nat.toDigits_ne_nil (b := 10) (n := n / 10))
        rw [hds] at hhigher
        rw [Nat.toDigits_of_base_le (by decide) (by omega), hds]
        exact hhigher

theorem isWholePart_toDigits (n : Nat) : isWholePart (Nat.toDigits 10 n) = true := by
  by_cases hn : n = 0
  · rw [hn]
    rfl
  · have hhead := head?_toDigits (Nat.pos_of_ne_zero hn)
    cases hds : Nat.toDigits 10 n with
    | nil => exact absurd hds Nat.toDigits_ne_nil
    | cons d ds =>
        rw [hds, List.head?_cons, ne_eq, Option.some_inj] at hhead
        rw [isWholePart]
        · exact bne_iff_ne.mpr hhead
        · rintro rfl -
          exact hhead rfl

theorem isDigit_of_mem_toDigits (hc : c ∈ Nat.toDigits 10 n) : c.isDigit = true :=
  Nat.isDigit_of_mem_toDigits (by decide) (by decide) hc

theorem takeWhile_toDigits (n : Nat) :
    (Nat.toDigits 10 n).takeWhile Char.isDigit = Nat.toDigits 10 n := by
  rw [List.takeWhile_eq_self_iff]
  exact fun c hc => isDigit_of_mem_toDigits hc

theorem digitsValue_toDigits (n : Nat) : digitsValue (Nat.toDigits 10 n) = n :=
  Nat.ofDigitChars_ten_toDigits

theorem number?_toDigits (h : n < UInt64.size) :
    number? (Nat.toDigits 10 n) = some (int n) := by
  have htake := takeWhile_toDigits n
  have hwhole := isWholePart_toDigits n
  have hvalue := digitsValue_toDigits n
  have hsign : ∀ cs, Nat.toDigits 10 n ≠ '-' :: cs := fun cs hcs =>
    absurd (isDigit_of_mem_toDigits (hcs ▸ List.mem_cons_self)) (by decide)
  generalize Nat.toDigits 10 n = ds at *
  rw [number?.eq_def]
  simp [htake, hwhole, fractionPart, exponentPart, hvalue, h]

theorem number?_negative (hpos : 0 < n) (h : n ≤ Int64.minValue.toInt.natAbs) :
    number? ('-' :: Nat.toDigits 10 n) = some (int (-n)) := by
  have h : n ≤ 9223372036854775808 := h
  simp [number?, takeWhile_toDigits, isWholePart_toDigits, fractionPart, exponentPart,
    digitsValue_toDigits, hpos, Nat.not_lt.mpr h]

end Digits

theorem isNumberChar_of_isDigit (h : c.isDigit = true) : isNumberChar c = true := by
  rw [isNumberChar, h]
  rfl

theorem fromBetween_digit (h : c.isDigit = true) : fromBetween c = some (.number [c], []) := by
  have hne (d : Char) (hd : d.isDigit = false) : c ≠ d := by
    rintro rfl
    exact Bool.false_ne_true (hd.symm.trans h)
  simp (disch := decide) [fromBetween, isSpace, isMark, hne, h]

theorem lexed_int {n : Int} (low : Int64.minValue.toInt ≤ n) (high : n < UInt64.size) :
    Lexed (text (int n)).toList [.scalar (int n)] := by
  have hchars (k : Nat) : ∀ d ∈ Nat.toDigits 10 k, isNumberChar d = true := fun d hd =>
    isNumberChar_of_isDigit (isDigit_of_mem_toDigits hd)
  rw [text, Int.toString_eq_repr, Int.repr_eq_if]
  split
  next hpos =>
    have hvalue := number?_toDigits (n := n.toNat) (by omega)
    have hchars := hchars n.toNat
    obtain ⟨d, ds, hds⟩ :=
      List.exists_cons_of_ne_nil (Nat.toDigits_ne_nil (b := 10) (n := n.toNat))
    have hdigit : d.isDigit = true := isDigit_of_mem_toDigits (hds ▸ List.mem_cons_self)
    rw [hds] at hvalue hchars
    rw [Int.toNat_of_nonneg hpos] at hvalue
    rw [Nat.toList_repr, hds]
    exact lexed_number (fromBetween_digit hdigit) (List.forall_mem_cons.mp hchars).2 hvalue
  next hneg =>
    have hmin : Int64.minValue.toInt = -9223372036854775808 := rfl
    have hvalue := number?_negative (n := (-n).toNat) (by omega) (by omega)
    rw [Int.toNat_of_nonneg (by omega), Int.neg_neg] at hvalue
    rw [String.toList_append, Nat.toList_repr]
    exact lexed_number rfl (hchars _) hvalue

/-! ### Texts -/

theorem hexValue?_hexDigit : ∀ n < 16, hexValue? (Text.hexDigit n) = some n := by
  decide

theorem step_hex {read : Option (List Char)} {value missing n : Nat} (hn : n < 16)
    (hmissing : 1 < missing) :
    (Mode.hex read none value missing).step (Text.hexDigit n) =
      some (.hex read none (16 * value + n) (missing - 1), []) := by
  simp [Mode.step, hexValue?_hexDigit n hn, Nat.not_le.mpr hmissing]

theorem tokensFrom_fourHex {read : Option (List Char)} {n : Nat} (hn : n < 0x20) :
    tokensFrom (.hex read none 0 4) (fourHex n ++ rest) =
      tokensFrom (.text (addChar read n)) rest := by
  have hlast : (Mode.hex read none (n / 16) 1).step (Text.hexDigit (n % 16)) =
      some (.text (addChar read n), []) := by
    have hvalue : 16 * (n / 16) + n % 16 = n := by omega
    have hlow : ¬ 0xD800 ≤ n := by omega
    have hhigh : ¬ 0xDC00 ≤ n := by omega
    simp [Mode.step, hexValue?_hexDigit (n % 16) (by omega), hvalue, afterHex, hlow, hhigh]
  have hfirst : n / 0x1000 % 16 = 0 := by omega
  have hsecond : n / 0x100 % 16 = 0 := by omega
  have hthird : n / 16 % 16 = n / 16 := by omega
  rw [fourHex, hfirst, hsecond, hthird]
  simp only [List.cons_append, List.nil_append]
  rw [tokensFrom_cons_nil (step_hex (by decide) (by decide)),
    tokensFrom_cons_nil (step_hex (by decide) (by decide)),
    tokensFrom_cons_nil (step_hex (by omega) (by decide))]
  simpa using tokensFrom_cons_nil hlast

/-- An escape of one letter adds the character that it stands for. -/
theorem tokensFrom_escape {read : List Char} {letter : Char}
    (h : fromEscape (some read) letter = some (.text (some (c :: read)), [])) :
    tokensFrom (.text (some read)) ('\\' :: letter :: rest) =
      tokensFrom (.text (some (c :: read))) rest := by
  have hbackslash : (Mode.text (some read)).step '\\' = some (.escape (some read), []) := rfl
  rw [tokensFrom_cons_nil hbackslash, tokensFrom_cons_nil (m := .escape (some read)) h]

/-- However a character is written in a text, it is read back. -/
theorem tokensFrom_escapeChar (read : List Char) (c : Char) :
    tokensFrom (.text (some read)) (escapeChar c ++ rest) =
      tokensFrom (.text (some (c :: read))) rest := by
  have hadd : addChar (some read) c.toNat = some (c :: read) := by
    rw [addChar, Option.map_some, Char.ofNat_toNat]
  have hofNat {n : Nat} (hn : c.toNat = n) : c = Char.ofNat n := by
    rw [← hn, Char.ofNat_toNat]
  rw [escapeChar]
  split_ifs with hquote hslash hline hreturn htab hback hfeed hcontrol
  · subst hquote
    exact tokensFrom_escape rfl
  · subst hslash
    exact tokensFrom_escape rfl
  · subst hline
    exact tokensFrom_escape rfl
  · subst hreturn
    exact tokensFrom_escape rfl
  · subst htab
    exact tokensFrom_escape rfl
  · rw [hofNat hback]
    exact tokensFrom_escape rfl
  · rw [hofNat hfeed]
    exact tokensFrom_escape rfl
  · have hbackslash : (Mode.text (some read)).step '\\' = some (.escape (some read), []) := rfl
    have hletter : (Mode.escape (some read)).step 'u' = some (.hex (some read) none 0 4, []) := rfl
    rw [List.cons_append, List.cons_append, tokensFrom_cons_nil hbackslash,
      tokensFrom_cons_nil hletter, tokensFrom_fourHex hcontrol, hadd]
  · have hstep : (Mode.text (some read)).step c = some (.text (some (c :: read)), []) := by
      rw [Mode.step, fromText, if_neg hquote, if_neg hslash, if_neg hcontrol, hadd]
    exact tokensFrom_cons_nil hstep

theorem tokensFrom_escaped (read cs : List Char) :
    tokensFrom (.text (some read)) (cs.flatMap escapeChar ++ '"' :: rest) =
      (tokensFrom .between rest).map (.text (some (String.ofList (read.reverse ++ cs))) :: ·) := by
  induction cs generalizing read with
  | nil =>
      have hstep : (Mode.text (some read)).step '"' =
          some (.between, [.text (some (String.ofList read.reverse))]) := rfl
      rw [List.append_nil]
      exact tokensFrom_cons hstep
  | cons c cs ih =>
      rw [List.flatMap_cons, List.append_assoc, tokensFrom_escapeChar, ih, List.reverse_cons,
        List.append_assoc]
      rfl

theorem lexed_stringText (s : String) : Lexed (stringText s).toList [.text (some s)] := by
  intro rest _
  have hstep : Mode.between.step '"' = some (.text (some []), []) := rfl
  rw [stringText, String.toList_ofList, List.append_assoc, List.cons_append,
    tokensFrom_cons_nil hstep]
  simpa using tokensFrom_escaped [] s.toList

/-! ## Tokens -/

/-- These tokens complete a value wherever one may begin. -/
def Builds (us : List Token) (j : Json) : Prop :=
  ∀ limit stack e, (e = .value ∨ e = .firstItem) → (∀ n ∈ limit, stack.length + j.depth < n) →
    us.foldlM (Partial.step limit) ⟨stack, e⟩ = some (Partial.complete stack j)

/-- The text of the value is read as tokens that complete it. -/
def Spelled (j : Json) : Prop := ∃ us, Lexed (text j).toList us ∧ Builds us j

theorem builds_scalar (v : Json) : Builds [.scalar v] v := by
  intro limit stack e he _
  rcases he with rfl | rfl <;> rfl

theorem builds_text (s : String) : Builds [.text (some s)] (str s) := by
  intro limit stack e he _
  rcases he with rfl | rfl <;> rfl

section Arrays

variable {js : List Json}

theorem spelled_items (hne : js ≠ []) (h : ∀ j ∈ js, Spelled j) :
    ∃ us, Lexed (",".intercalate (itemTexts js)).toList us ∧
      ∀ limit stack done e, (e = .value ∨ e = .firstItem) →
        (∀ n ∈ limit, stack.length + 1 + itemsDepth js < n) →
        us.foldlM (Partial.step limit) ⟨.arr done :: stack, e⟩ =
          some ⟨.arr (js.reverse ++ done) :: stack, .separator⟩ := by
  induction js with
  | nil => exact absurd rfl hne
  | cons j js ih =>
      rw [List.forall_mem_cons] at h
      obtain ⟨us, hlexed, hbuilds⟩ := h.1
      have hitem (limit : Option Nat) (stack : List Frame) (done : List Json) (e : Expected)
          (he : e = .value ∨ e = .firstItem)
          (hlimit : ∀ n ∈ limit, stack.length + 1 + itemsDepth (j :: js) < n) :
          us.foldlM (Partial.step limit) ⟨.arr done :: stack, e⟩ =
            some ⟨.arr (j :: done) :: stack, .separator⟩ := by
        refine hbuilds limit (.arr done :: stack) e he fun n hn => ?_
        exact Nat.lt_of_le_of_lt (Nat.add_le_add_left (Nat.le_max_left _ _) _) (hlimit n hn)
      cases js with
      | nil => exact ⟨us, by simpa [itemTexts] using hlexed, hitem⟩
      | cons j' js =>
          obtain ⟨vs, hlexed', hbuilds'⟩ := ih (List.cons_ne_nil _ _) h.2
          refine ⟨us ++ .mark ',' :: vs, ?_, ?_⟩
          · have htext : (",".intercalate (itemTexts (j :: j' :: js))).toList =
                (text j).toList ++ ',' :: (",".intercalate (itemTexts (j' :: js))).toList := by
              simp [itemTexts, String.intercalate_cons_cons]
            rw [htext]
            exact hlexed.append_mark rfl hlexed'
          · intro limit stack done e he hlimit
            rw [List.foldlM_append, hitem limit stack done e he hlimit, List.reverse_cons,
              List.append_assoc]
            refine hbuilds' limit stack (j :: done) .value (Or.inl rfl) fun n hn => ?_
            exact Nat.lt_of_le_of_lt (Nat.add_le_add_left (Nat.le_max_right _ _) _) (hlimit n hn)

theorem toList_text_arr (js : List Json) :
    (text (arr js)).toList = '[' :: ((",".intercalate (itemTexts js)).toList ++ [']']) := by
  simp [text]

theorem allows_of_depth {limit : Option Nat} {stack : List Frame} {d : Nat}
    (h : ∀ n ∈ limit, stack.length + (1 + d) < n) : Partial.allows limit stack = true := by
  cases limit with
  | none => rfl
  | some n =>
      have hlt := h n rfl
      exact decide_eq_true (by omega)

/-- An array is put together from its items, or it is empty. -/
theorem spelled_arr (h : ∀ j ∈ js, Spelled j) : Spelled (arr js) := by
  by_cases hne : js = []
  · refine ⟨[.mark '[', .mark ']'], ?_, ?_⟩
    · rw [hne]
      exact (lexed_nil.mark rfl).mark rfl
    · intro limit stack e he hlimit
      have hallows := allows_of_depth hlimit
      rcases he with rfl | rfl <;>
        simp [hne, Partial.step, Partial.begin, Partial.close, hallows]
  · obtain ⟨us, hlexed, hbuilds⟩ := spelled_items hne h
    refine ⟨.mark '[' :: (us ++ [.mark ']']), ?_, ?_⟩
    · rw [toList_text_arr]
      exact (hlexed.append_mark rfl lexed_nil).mark rfl
    · intro limit stack e he hlimit
      have hallows := allows_of_depth hlimit
      have hbegin : Partial.step limit ⟨stack, e⟩ (.mark '[') =
          some ⟨.arr [] :: stack, .firstItem⟩ := by
        rcases he with rfl | rfl <;> rfl
      have hitems := hbuilds limit stack [] .firstItem (Or.inr rfl) fun n hn => by
        rw [Nat.add_assoc]
        exact hlimit n hn
      have hclose : Partial.step limit ⟨.arr js.reverse :: stack, .separator⟩ (.mark ']') =
          some (Partial.complete stack (arr js)) := by
        simp [Partial.step, Partial.close, hallows]
      rw [List.append_nil] at hitems
      simp [List.foldlM_append, hbegin, hitems, hclose]

end Arrays

section Objects

variable {ms : List (String × Json)}

/-- A name with its value is read in any object that waits for a name. -/
theorem spelled_member {m : String × Json} (h : Spelled m.2) :
    ∃ us, Lexed (memberText m).toList us ∧
      ∀ limit stack done last e, (e = .name ∨ e = .firstName) →
        (∀ n ∈ limit, stack.length + 1 + m.2.depth < n) →
        us.foldlM (Partial.step limit) ⟨.obj done last true :: stack, e⟩ =
          some ⟨.obj (m :: done) m.1 true :: stack, .separator⟩ := by
  obtain ⟨name, v⟩ := m
  obtain ⟨us, hlexed, hbuilds⟩ := h
  refine ⟨.text (some name) :: .mark ':' :: us, ?_, ?_⟩
  · have htext : (memberText (name, v)).toList =
        (stringText name).toList ++ ':' :: (text v).toList := by
      simp [memberText]
    rw [htext]
    exact (lexed_stringText name).append_mark rfl hlexed
  · intro limit stack done last e he hlimit
    have hname : Partial.step limit ⟨.obj done last true :: stack, e⟩ (.text (some name)) =
        some ⟨.obj done name true :: stack, .colon⟩ := by
      rcases he with rfl | rfl <;> rfl
    have hcolon : Partial.step limit ⟨.obj done name true :: stack, .colon⟩ (.mark ':') =
        some ⟨.obj done name true :: stack, .value⟩ := rfl
    have hvalue := hbuilds limit (.obj done name true :: stack) .value (Or.inl rfl) hlimit
    simp [hname, hcolon, hvalue, Partial.complete]

theorem spelled_members (hne : ms ≠ []) (h : ∀ m ∈ ms, Spelled m.2) :
    ∃ us, Lexed (",".intercalate (memberTexts ms)).toList us ∧
      ∀ limit stack done last e, (e = .name ∨ e = .firstName) →
        (∀ n ∈ limit, stack.length + 1 + membersDepth ms < n) →
        ∃ last', us.foldlM (Partial.step limit) ⟨.obj done last true :: stack, e⟩ =
          some ⟨.obj (ms.reverse ++ done) last' true :: stack, .separator⟩ := by
  induction ms with
  | nil => exact absurd rfl hne
  | cons m ms ih =>
      rw [List.forall_mem_cons] at h
      obtain ⟨us, hlexed, hmember⟩ := spelled_member h.1
      have hfirst {n stack : Nat} (hn : stack + 1 + membersDepth (m :: ms) < n) :
          stack + 1 + m.2.depth < n := by
        have hle : m.2.depth ≤ membersDepth (m :: ms) :=
          depth_le_of_mem_members (n := m.1) List.mem_cons_self
        omega
      cases ms with
      | nil =>
          refine ⟨us, by simpa [memberTexts] using hlexed, ?_⟩
          intro limit stack done last e he hlimit
          exact ⟨m.1, hmember limit stack done last e he fun n hn => hfirst (hlimit n hn)⟩
      | cons m' ms =>
          obtain ⟨vs, hlexed', hmembers⟩ := ih (List.cons_ne_nil _ _) h.2
          refine ⟨us ++ .mark ',' :: vs, ?_, ?_⟩
          · have htext : (",".intercalate (memberTexts (m :: m' :: ms))).toList =
                (memberText m).toList ++
                  ',' :: (",".intercalate (memberTexts (m' :: ms))).toList := by
              simp [memberTexts]
            rw [htext]
            exact hlexed.append_mark rfl hlexed'
          · intro limit stack done last e he hlimit
            rw [List.foldlM_append, hmember limit stack done last e he fun n hn =>
              hfirst (hlimit n hn), List.reverse_cons, List.append_assoc]
            refine hmembers limit stack (m :: done) m.1 .name (Or.inl rfl) fun n hn => ?_
            exact Nat.lt_of_le_of_lt (Nat.add_le_add_left (Nat.le_max_right _ _) _) (hlimit n hn)

theorem spelled_obj (h : ∀ m ∈ ms, Spelled m.2) : Spelled (obj ms) := by
  have htext : (text (obj ms)).toList =
      '\x7b' :: ((",".intercalate (memberTexts ms)).toList ++ ['\x7d']) := by
    simp [text]
  by_cases hne : ms = []
  · refine ⟨[.mark '\x7b', .mark '\x7d'], ?_, ?_⟩
    · rw [hne]
      exact (lexed_nil.mark rfl).mark rfl
    · intro limit stack e he hlimit
      have hallows := allows_of_depth hlimit
      rcases he with rfl | rfl <;>
        simp [hne, Partial.step, Partial.begin, Partial.close, hallows]
  · obtain ⟨us, hlexed, hbuilds⟩ := spelled_members hne h
    refine ⟨.mark '\x7b' :: (us ++ [.mark '\x7d']), ?_, ?_⟩
    · rw [htext]
      exact (hlexed.append_mark rfl lexed_nil).mark rfl
    · intro limit stack e he hlimit
      have hallows := allows_of_depth hlimit
      have hbegin : Partial.step limit ⟨stack, e⟩ (.mark '\x7b') =
          some ⟨.obj [] "" true :: stack, .firstName⟩ := by
        rcases he with rfl | rfl <;> rfl
      obtain ⟨last, hmembers⟩ := hbuilds limit stack [] "" .firstName (Or.inr rfl) fun n hn => by
        rw [Nat.add_assoc]
        exact hlimit n hn
      have hclose : Partial.step limit ⟨.obj ms.reverse last true :: stack, .separator⟩
          (.mark '\x7d') = some (Partial.complete stack (obj ms)) := by
        simp [Partial.step, Partial.close, hallows]
      rw [List.append_nil] at hmembers
      simp [List.foldlM_append, hbegin, hmembers, hclose]

end Objects

/-! ## Texts of values -/

theorem Exact.spelled {j : Json} (h : Exact j) : Spelled j := by
  induction h with
  | null => exact ⟨_, lexed_null, builds_scalar .null⟩
  | bool b => exact ⟨_, lexed_bool b, builds_scalar (.bool b)⟩
  | int low high => exact ⟨_, lexed_int low high, builds_scalar _⟩
  | str s => exact ⟨_, lexed_stringText s, builds_text s⟩
  | arr _ ih => exact spelled_arr ih
  | obj _ ih => exact spelled_obj ih

theorem itemsReadable_of {js : List Json} (h : ∀ j ∈ js, j.isReadable = true) :
    itemsReadable js = true := by
  induction js with
  | nil => rfl
  | cons j js ih =>
      rw [List.forall_mem_cons] at h
      rw [itemsReadable, h.1, ih h.2]
      rfl

theorem membersReadable_of {ms : List (String × Json)} (h : ∀ m ∈ ms, m.2.isReadable = true) :
    membersReadable ms = true := by
  induction ms with
  | nil => rfl
  | cons m ms ih =>
      rw [List.forall_mem_cons] at h
      rw [membersReadable, memberReadable, h.1, ih h.2]
      rfl

theorem Exact.isReadable {j : Json} (h : Exact j) : j.isReadable = true := by
  induction h with
  | arr _ ih => exact itemsReadable_of ih
  | obj _ ih => exact membersReadable_of ih
  | _ => rfl

/-- A value that nests less deep than the limit is read back from its text. -/
theorem scan?_text {limit : Option Nat} {j : Json} (h : Exact j)
    (hdepth : ∀ n ∈ limit, j.depth < n) : scan? limit j.text = some j := by
  obtain ⟨us, hlexed, hbuilds⟩ := h.spelled
  have htokens : tokens j.text = some us := by
    have hread := hlexed [] atMark_nil
    rwa [List.append_nil, tokensFrom, Mode.finish, Option.map_some, List.append_nil] at hread
  have hrun := hbuilds limit [] .value (Or.inl rfl) (by simpa using hdepth)
  simp [scan?, htokens, ofTokens, hrun, Partial.complete]

theorem parse?_text {j : Json} (h : Exact j) : parse? j.text = some j := by
  rw [parse?, scan?_text h (by simp), Option.filter_some, if_pos h.isReadable]

end FormulaSql.Json
