/-!
# Sets of names

A finite set of texts, kept as a list without repetitions in code point order. Two sets with the
same members are equal, and listing a set shows its members in that order.
-/

namespace FormulaSql

/-- A finite set of names. -/
structure NameSet where
  toList : List String
  sorted : toList.Pairwise (· < ·)
  deriving DecidableEq

namespace NameSet

/-- Puts a name into its place in an ordered list, unless it is there. -/
def place (n : String) : List String → List String
  | [] => [n]
  | m :: ms => if n < m then n :: m :: ms else if n = m then m :: ms else m :: place n ms

theorem mem_place {n x : String} {ms : List String} : x ∈ place n ms ↔ x = n ∨ x ∈ ms := by
  induction ms with
  | nil => simp [place]
  | cons m ms ih =>
    unfold place
    split
    · simp
    · split
      · next h => subst h; simp
      · simp only [List.mem_cons, ih]
        constructor
        · rintro (h | h | h) <;> simp [h]
        · rintro (h | h | h) <;> simp [h]

theorem sorted_place {n : String} {ms : List String} (h : ms.Pairwise (· < ·)) :
    (place n ms).Pairwise (· < ·) := by
  induction ms with
  | nil => simp [place]
  | cons m ms ih =>
    obtain ⟨hm, hms⟩ := List.pairwise_cons.mp h
    unfold place
    split
    · next hlt =>
      refine List.pairwise_cons.mpr ⟨?_, h⟩
      intro x hx
      rcases List.mem_cons.mp hx with rfl | hx
      · exact hlt
      · exact String.lt_trans hlt (hm x hx)
    · split
      · exact h
      · next hlt hne =>
        refine List.pairwise_cons.mpr ⟨?_, ih hms⟩
        intro x hx
        rcases mem_place.mp hx with rfl | hx
        · exact Decidable.byContradiction fun hgt =>
            hne (String.le_antisymm (String.not_lt.mp hgt) (String.not_lt.mp hlt))
        · exact hm x hx

def empty : NameSet := ⟨[], List.Pairwise.nil⟩

instance : Inhabited NameSet := ⟨empty⟩

def insert (s : NameSet) (n : String) : NameSet := ⟨place n s.toList, sorted_place s.sorted⟩

def ofList (ns : List String) : NameSet := ns.foldl insert empty

def isEmpty (s : NameSet) : Bool := s.toList.isEmpty

def contains (s : NameSet) (n : String) : Bool := s.toList.contains n

def union (s t : NameSet) : NameSet := t.toList.foldl insert s

/-- The members for which `p` holds. -/
def filter (s : NameSet) (p : String → Bool) : NameSet :=
  ⟨s.toList.filter p, s.sorted.sublist List.filter_sublist⟩

/-- Every member of `s` is a member of `t`. -/
def subset (s t : NameSet) : Bool := s.toList.all t.contains

def size (s : NameSet) : Nat := s.toList.length

@[simp]
theorem mem_toList_insert {s : NameSet} {n x : String} :
    x ∈ (s.insert n).toList ↔ x = n ∨ x ∈ s.toList := mem_place

@[simp]
theorem contains_iff {s : NameSet} {n : String} : s.contains n = true ↔ n ∈ s.toList := by
  simp [contains]

end NameSet

end FormulaSql
