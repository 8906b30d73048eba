import FormulaSql.Calendar
import Mathlib.Algebra.GroupWithZero.Nat
import Mathlib.Data.List.Infix

/-!
# Dates are read back from their text

A field of a date or a time of day is filled with zeros up to its width, so a reader that takes as
many digits as the field is wide stops where it ends. Years outside `0 … 9999` have a sign, after
which digits are read up to the next mark. A leap second is written as the second 60 and read as a
second more in the nanoseconds of the second 59.

* `Calendar.number_append` is what the reader does with digits that are followed by something else
* `Date.read?_text` and `DateTime.read?_text` read back what was written
-/

namespace FormulaSql

open Text (isBlank dropBlanks)

/-! ## Digits -/

section Digits

variable {c : Char} {w n : Nat}

theorem isDigit_of_mem_padded (h : c ∈ padded w n) : c.isDigit = true := by
  rcases List.mem_append.mp h with h | h
  · exact List.eq_of_mem_replicate h ▸ by decide
  · exact Nat.isDigit_of_mem_toDigits (by decide) (by decide) h

theorem padded_ne_nil (w n : Nat) : padded w n ≠ [] :=
  List.append_ne_nil_of_right_ne_nil _ Nat.toDigits_ne_nil

/-- A number that fits is filled up to the width. -/
theorem length_padded (hw : 0 < w) (h : n < 10 ^ w) : (padded w n).length = w := by
  have hle : (Nat.toDigits 10 n).length ≤ w := (Nat.length_toDigits_le_iff (by decide) hw).mpr h
  rw [padded, List.length_append, List.length_replicate]
  omega

theorem digitsValue_padded (w n : Nat) : Calendar.digitsValue (padded w n) = n := by
  have hvalue : Calendar.digitsValue (padded w n) = Nat.ofDigitChars 10 (padded w n) 0 := rfl
  rw [hvalue, padded, Nat.ofDigitChars_append, Nat.ofDigitChars_replicate_zero, Nat.mul_zero,
    Nat.ofDigitChars_ten_toDigits]

theorem not_isBlank_of_isDigit (h : c.isDigit = true) : isBlank c = false := by
  obtain ⟨hlow, hhigh⟩ := Char.isDigit_iff_toNat.mp h
  have hlow : 48 ≤ c.toNat := hlow
  have hhigh : c.toNat ≤ 57 := hhigh
  rw [← Bool.not_eq_true]
  simp only [isBlank, Bool.or_eq_true, Bool.and_eq_true, decide_eq_true_eq, beq_iff_eq]
  omega

theorem dropBlanks_cons (h : isBlank c = false) (cs : List Char) : dropBlanks (c :: cs) = c :: cs :=
  List.dropWhile_cons_of_neg (by simp [h])

theorem dropBlanks_padded (w n : Nat) (rest : List Char) :
    dropBlanks (padded w n ++ rest) = padded w n ++ rest := by
  obtain ⟨c, cs, hcs⟩ := List.exists_cons_of_ne_nil (padded_ne_nil w n)
  have hc : c ∈ padded w n := hcs ▸ List.mem_cons_self
  rw [hcs, List.cons_append]
  exact dropBlanks_cons (not_isBlank_of_isDigit (isDigit_of_mem_padded hc)) _

end Digits

namespace Calendar

/-- What follows does not go on with a digit. -/
def EndsDigits (rest : List Char) : Prop := ∀ c ∈ rest.head?, c.isDigit = false

theorem endsDigits_nil : EndsDigits [] := fun _ h => absurd h (by simp)

theorem endsDigits_cons {c : Char} {cs : List Char} (h : c.isDigit = false) :
    EndsDigits (c :: cs) := by
  intro d hd
  exact Option.some.inj hd ▸ h

theorem takeWhile_digits {ds rest : List Char} (hds : ∀ c ∈ ds, c.isDigit = true)
    (hrest : EndsDigits rest) : (ds ++ rest).takeWhile Char.isDigit = ds := by
  rw [List.takeWhile_append_of_pos hds]
  cases rest with
  | nil => exact List.append_nil ds
  | cons c cs =>
      have hc : c.isDigit = false := hrest c rfl
      rw [List.takeWhile_cons_of_neg (by simp [hc]), List.append_nil]

/-! ## Fields -/

/-- A number ends where its digits do, or where it is as wide as it may be. -/
theorem number_append {width : Nat} {ds rest : List Char} (hds : ∀ c ∈ ds, c.isDigit = true)
    (hne : ds ≠ []) (hwidth : ds.length ≤ width) (hend : ds.length = width ∨ EndsDigits rest) :
    number width (ds ++ rest) = some (digitsValue ds, rest) := by
  have htake : ((ds ++ rest).take width).takeWhile Char.isDigit = ds := by
    rw [List.take_append, List.take_of_length_le hwidth]
    refine takeWhile_digits hds ?_
    rcases hend with hwide | hend
    · rw [hwide, Nat.sub_self, List.take_zero]
      exact endsDigits_nil
    · intro c hc
      rw [List.head?_take] at hc
      split at hc
      · exact absurd hc (by simp)
      · exact hend c hc
  have hisEmpty : ¬ ds.isEmpty = true := by rwa [List.isEmpty_iff]
  rw [number, htake, if_neg hisEmpty, List.drop_left]

/-- A number that fills its width is read back, whatever follows. -/
theorem number_padded {w n : Nat} (hw : 0 < w) (h : n < 10 ^ w) (rest : List Char) :
    number w (padded w n ++ rest) = some (n, rest) := by
  have hlength := length_padded hw h
  rw [number_append (fun _ => isDigit_of_mem_padded) (padded_ne_nil w n) (Nat.le_of_eq hlength)
    (Or.inl hlength), digitsValue_padded]

/-- After a sign a number is read up to the end of its digits. -/
theorem number_signed {w n : Nat} {rest : List Char} (hrest : EndsDigits rest) :
    number (padded w n ++ rest).length (padded w n ++ rest) = some (n, rest) := by
  have hle : (padded w n).length ≤ (padded w n ++ rest).length := by
    rw [List.length_append]
    exact Nat.le_add_right _ _
  rw [number_append (fun _ => isDigit_of_mem_padded) (padded_ne_nil w n) hle (Or.inr hrest),
    digitsValue_padded]

theorem field_padded {n : Nat} (h : n < 100) (rest : List Char) :
    field (padded 2 n ++ rest) = some (n, rest) := by
  rw [field, dropBlanks_padded]
  exact number_padded (by decide) h rest

theorem skip_cons {mark : Char} (h : isBlank mark = false) (rest : List Char) :
    skip mark (mark :: rest) = some rest := by
  rw [skip, dropBlanks_cons h]
  exact if_pos rfl

/-! ## Dates -/

theorem year_chars (y : Int) {rest : List Char} (hrest : EndsDigits rest) :
    year (Date.yearChars y ++ rest) = some (y, rest) := by
  rw [Date.yearChars]
  split
  next hbounds =>
    rw [Bool.and_eq_true, decide_eq_true_eq, decide_eq_true_eq] at hbounds
    obtain ⟨c, cs, hcs⟩ := List.exists_cons_of_ne_nil (padded_ne_nil 4 y.natAbs)
    have hdigit : c.isDigit = true := isDigit_of_mem_padded (hcs ▸ List.mem_cons_self)
    have hnumber := number_padded (w := 4) (n := y.natAbs) (by decide) (by omega) rest
    rw [year, dropBlanks_padded]
    rw [hcs, List.cons_append] at hnumber ⊢
    split
    next heq => exact absurd (List.cons.inj heq).1 (by rintro rfl; exact absurd hdigit (by decide))
    next heq => exact absurd (List.cons.inj heq).1 (by rintro rfl; exact absurd hdigit (by decide))
    next =>
      rw [hnumber, Option.map_some]
      exact congrArg (fun y => some (y, rest)) (by omega)
  next hbounds =>
    rw [Bool.and_eq_true, decide_eq_true_eq, decide_eq_true_eq] at hbounds
    rw [List.cons_append, year]
    by_cases hneg : y < 0
    · rw [if_pos hneg, dropBlanks_cons (by decide)]
      simp only [number_signed hrest, Option.map_some]
      exact congrArg (fun y => some (y, rest)) (by omega)
    · rw [if_neg hneg, dropBlanks_cons (by decide)]
      simp only [number_signed hrest, Option.map_some]
      exact congrArg (fun y => some (y, rest)) (by omega)

theorem daysInMonth_le (y : Int) (m : Nat) : daysInMonth y m ≤ 31 := by
  unfold daysInMonth
  split
  · split <;> decide
  all_goals decide

theorem date_chars (d : Date) (rest : List Char) : date (d.chars ++ rest) = some (d, rest) := by
  have hday := d.isDay
  simp only [Date.IsDay, Bool.and_eq_true, decide_eq_true_eq] at hday
  have hmonth : d.month < 100 := by omega
  have hday : d.day < 100 := by
    have hle := daysInMonth_le d.year d.month
    omega
  have hdash : isBlank '-' = false := by decide
  rw [Date.chars, date]
  simp only [List.append_assoc, List.cons_append,
    year_chars d.year (endsDigits_cons (c := '-') rfl), skip_cons hdash, field_padded hmonth,
    field_padded hday, Option.bind_eq_bind, Option.bind_some, Date.of?, d.isDay, dif_pos]
  rfl

/-! ## Times of day -/

/-- A fraction is written with as few digits as it needs. -/
theorem fraction_chars {nano : Nat} (h : nano < 1000000000) :
    fraction (Time.fractionChars nano) = some (nano, []) := by
  have hdigits {w n : Nat} (hw : 0 < w) (hn : n < 10 ^ w) (hle : w ≤ 9) :
      fraction ('.' :: padded w n) = some (n * 10 ^ (9 - w), []) := by
    have hlength := length_padded hw hn
    have htake : (padded w n).takeWhile Char.isDigit = padded w n := by
      have hall := takeWhile_digits (fun _ => isDigit_of_mem_padded (w := w) (n := n))
        endsDigits_nil
      rwa [List.append_nil] at hall
    have hisEmpty : ¬ (padded w n).isEmpty = true := by
      rw [List.isEmpty_iff]
      exact padded_ne_nil w n
    have hkept : (padded w n).take 9 = padded w n := List.take_of_length_le (by omega)
    rw [fraction, htake, if_neg hisEmpty, hkept]
    dsimp only
    rw [digitsValue_padded, hlength, List.drop_of_length_le (Nat.le_of_eq hlength)]
    rfl
  rw [Time.fractionChars]
  split
  next hzero => rw [hzero, fraction]; simp
  next =>
    split
    next hmilli =>
      rw [hdigits (by decide) (by omega) (by decide)]
      exact congrArg (fun n => some (n, [])) (by omega)
    next =>
      split
      next hmicro =>
        rw [hdigits (by decide) (by omega) (by decide)]
        exact congrArg (fun n => some (n, [])) (by omega)
      next =>
        rw [hdigits (by decide) (by omega) (by decide)]
        exact congrArg (fun n => some (n, [])) (by omega)

/-- The second 60 is the second 59 with a second more of nanoseconds. -/
theorem time_fields {h m s n : Nat} (hh : h < 100) (hm : m < 100) (hs : s < 100)
    (hn : n < 1000000000) :
    time (padded 2 h ++ ':' :: padded 2 m ++ ':' :: padded 2 s ++ Time.fractionChars n) =
      (if s = 60 then Time.of? h m 59 (n + 1000000000) else Time.of? h m s n).map (·, []) := by
  have hcolon : isBlank ':' = false := by decide
  simp only [time, List.append_assoc, List.cons_append, field_padded hh, field_padded hm,
    field_padded hs, skip_cons hcolon, fraction_chars hn, Option.bind_eq_bind, Option.bind_some]
  split
  · cases Time.of? h m 59 (n + 1000000000) <;> rfl
  · cases Time.of? h m s n <;> rfl

theorem time_chars (t : Time) : time t.chars = some (t, []) := by
  have hmoment := t.isMoment
  simp only [Time.IsMoment, Bool.and_eq_true, Bool.or_eq_true, decide_eq_true_eq,
    beq_iff_eq] at hmoment
  rw [Time.chars]
  by_cases hleap : 1000000000 ≤ t.nano
  · have hsecond : t.second = 59 := by omega
    have hnano : t.nano - 1000000000 + 1000000000 = t.nano := by omega
    have hof : Time.of? t.hour t.minute 59 t.nano = some t := by
      rw [← hsecond]
      exact dif_pos t.isMoment
    simp only [hleap, if_true]
    rw [time_fields (by omega) (by omega) (by omega) (by omega), hsecond, if_pos rfl, hnano, hof]
    rfl
  · have hsecond : t.second ≠ 60 := by omega
    have hof : Time.of? t.hour t.minute t.second t.nano = some t := dif_pos t.isMoment
    simp only [hleap, if_false]
    rw [time_fields (by omega) (by omega) (by omega) (by omega), if_neg hsecond, hof]
    rfl

end Calendar

open Calendar

/-- A date is read back from its text. -/
theorem Date.read?_text (d : Date) : Date.read? d.text = some d := by
  have hdate := date_chars d []
  rw [List.append_nil] at hdate
  rw [Date.read?, Date.text, String.toList_ofList, hdate]
  rfl

/-- A date-time is read back from its text, the letter T standing between its parts. -/
theorem DateTime.read?_text (dt : DateTime) : DateTime.read? (dt.text 'T') = some dt := by
  have hmark : isBlank 'T' = false := by decide
  rw [DateTime.read?, DateTime.text, String.toList_ofList, date_chars]
  simp only [Option.bind_eq_bind, Option.bind_some, skip_cons hmark, time_chars]
  rfl

end FormulaSql
