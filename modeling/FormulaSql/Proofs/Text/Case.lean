import FormulaSql.Text.Case
import Mathlib.Data.List.Basic

/-!
# Lower case of ASCII letters

The lower case of a text is the same, whether all letters are lowered or only those of ASCII, as
long as what comes out are ASCII letters. There is one exception: the lower case of the sign for
Kelvin is the letter k.

* `Text.lower_eq_iff` says so of whole texts
-/

namespace FormulaSql.Text

/-- The number of the character is one of ASCII. -/
def IsAscii (c : Char) : Prop := c.toNat < 128

instance (c : Char) : Decidable (IsAscii c) := inferInstanceAs (Decidable (_ < _))

variable {c x : Char} {cs xs before : List Char} {s t : String}

/-! ## Characters -/

theorem isAscii_of_toLower (h : IsAscii c.toLower) : IsAscii c := by
  unfold Char.toLower at h
  split at h
  next hupper =>
    have hle : c.toNat ≤ 90 := hupper.2
    exact Nat.lt_of_le_of_lt hle (by decide)
  next => exact h

/-- The capital letters of ASCII. -/
def capitals : CaseRun := ⟨0x41, 0x5A, 1, 32⟩

theorem shiftBy_of_isAscii (h : IsAscii c) : shiftBy lowerRuns c = shiftBy [capitals] c := by
  have hruns : lowerRuns = capitals :: lowerRuns.tail := rfl
  have habove : ∀ r ∈ lowerRuns.tail, 128 ≤ r.first := by decide +kernel
  have hnone : lowerRuns.tail.find? (·.covers c.toNat) = none := by
    refine List.find?_eq_none.mpr fun r hr hcovers => ?_
    rw [CaseRun.covers, Bool.and_eq_true, Bool.and_eq_true, decide_eq_true_eq] at hcovers
    exact absurd h (Nat.not_lt.mpr (Nat.le_trans (habove r hr) hcovers.1.1))
  rw [hruns, shiftBy, shiftBy, List.find?_cons, List.find?_cons, hnone, List.find?_nil]

theorem lowerChar_of_isAscii (h : IsAscii c) : lowerChar c = [c.toLower] := by
  have hall : ∀ n < 128, shiftBy [capitals] (Char.ofNat n) = (Char.ofNat n).toLower := by
    decide +kernel
  have hc := hall c.toNat h
  rw [Char.ofNat_toNat] at hc
  have hne : c.toNat ≠ 0x130 := Nat.ne_of_lt (Nat.lt_trans h (by decide))
  rw [lowerChar, if_neg hne, shiftBy_of_isAscii h, hc]

/-- A run of letters is one of ASCII, it is the sign for Kelvin, or what it gives is not ASCII. -/
theorem lowerRuns_cases : ∀ r ∈ lowerRuns, r.last < 128 ∨
    (r.first = 0x212A ∧ r.last = 0x212A ∧ r.shift = -8383) ∨
    (128 ≤ r.first + r.shift ∧ r.last + r.shift < 0xD800) ∨
    (0xE000 ≤ r.first + r.shift ∧ r.last + r.shift < 0x110000) := by
  decide +kernel

theorem not_isAscii_ofNat {n : Nat} (h : 128 ≤ n) (hn : n.isValidChar) :
    ¬ IsAscii (Char.ofNat n) := by
  have hnumber : (Char.ofNat n).toNat = n := by
    rw [Char.ofNat, dif_pos hn]
    rfl
  rw [IsAscii, hnumber]
  omega

theorem not_isAscii_shiftBy (hc : ¬ IsAscii c) (hk : shiftBy lowerRuns c ≠ 'k') :
    ¬ IsAscii (shiftBy lowerRuns c) := by
  unfold shiftBy at hk ⊢
  cases hfind : lowerRuns.find? (·.covers c.toNat) with
  | none => exact hc
  | some r =>
      have hcovers := List.find?_some hfind
      simp only [CaseRun.covers, Bool.and_eq_true, decide_eq_true_eq] at hcovers
      obtain ⟨⟨hfirst, hlast⟩, -⟩ := hcovers
      have hnot : ¬ c.toNat < 128 := hc
      rcases lowerRuns_cases r (List.mem_of_find?_eq_some hfind) with h | ⟨hf, hl, hs⟩ | h | h
      · omega
      · have hkelvin : c.toNat = 0x212A := by omega
        rw [hfind] at hk
        dsimp only [CaseRun.apply] at hk
        rw [hkelvin, hs] at hk
        exact absurd rfl hk
      · exact not_isAscii_ofNat (by omega) (Or.inl (by omega))
      · exact not_isAscii_ofNat (by omega) (Or.inr ⟨by omega, by omega⟩)

theorem lowerChar_cases (c : Char) :
    lowerChar c = ['i', Char.ofNat 0x307] ∨ lowerChar c = [shiftBy lowerRuns c] := by
  rw [lowerChar]
  split
  · exact Or.inl rfl
  · exact Or.inr rfl

/-! ## Texts -/

theorem lowerAfter_of_isAscii (h : ∀ c ∈ cs, IsAscii c) :
    lowerAfter before cs = cs.map Char.toLower := by
  induction cs generalizing before with
  | nil => rfl
  | cons c cs ih =>
      rw [List.forall_mem_cons] at h
      have hsigma : c ≠ capitalSigma := by
        rintro rfl
        exact absurd h.1 (by decide)
      rw [lowerAfter, if_neg hsigma, lowerChar_of_isAscii h.1, ih h.2]
      rfl

/-- What comes out as ASCII letters other than k has come in as such letters. -/
theorem map_toLower_of_lowerAfter (h : lowerAfter before cs = xs)
    (hxs : ∀ x ∈ xs, IsAscii x ∧ x ≠ 'k') : cs.map Char.toLower = xs := by
  induction cs generalizing before xs with
  | nil => exact h
  | cons c cs ih =>
      rw [lowerAfter] at h
      subst h
      rw [List.forall_mem_append] at hxs
      obtain ⟨hlow, hrest⟩ := hxs
      split at hlow
      next =>
        have hsigma := (hlow _ (List.mem_singleton_self _)).1
        split at hsigma <;> exact absurd hsigma (by decide)
      next hsigma =>
        rw [if_neg hsigma, List.map_cons, ih rfl hrest]
        rcases lowerChar_cases c with hc | hc
        · rw [hc] at hlow
          exact absurd (hlow (Char.ofNat 0x307) (by simp)).1 (by decide)
        · rw [hc] at hlow
          obtain ⟨hascii, hk⟩ := hlow _ (List.mem_singleton_self _)
          have hc' : IsAscii c := by
            by_contra hnot
            exact not_isAscii_shiftBy hnot hk hascii
          rw [lowerChar_of_isAscii hc']
          rfl

/-- A text becomes the same ASCII letters, whether other letters are lowered as well or not. -/
theorem lower_eq_iff (ht : ∀ c ∈ t.toList, IsAscii c ∧ c ≠ 'k') :
    lower s = t ↔ s.toLower = t := by
  have htoLower : s.toLower.toList = s.toList.map Char.toLower := String.toList_map
  rw [← String.toList_inj, ← String.toList_inj, htoLower, lower, String.toList_ofList]
  constructor
  · exact fun h => map_toLower_of_lowerAfter h ht
  · intro h
    rw [← h]
    refine lowerAfter_of_isAscii fun c hc => isAscii_of_toLower ?_
    exact (ht _ (h ▸ List.mem_map_of_mem hc)).1

end FormulaSql.Text
