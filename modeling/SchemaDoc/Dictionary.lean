/-!
# Dictionaries

Text keys with values, listed by increasing key. `Sorted` says so; the operations keep it, and
their laws are stated through `find?`.
-/

namespace SchemaDoc

/-- Keys and their values, to be listed by increasing key. -/
abbrev Dictionary (α : Type) := List (String × α)

namespace Dictionary

variable {α : Type}

/-- The value of a key. -/
def find? (key : String) : Dictionary α → Option α
  | [] => none
  | (k, v) :: d => if k = key then some v else find? key d

/-- Whether a key has a value. -/
def contains (key : String) (d : Dictionary α) : Bool := (find? key d).isSome

/-- Gives a key a value, in place of any it had. -/
def insert (key : String) (value : α) : Dictionary α → Dictionary α
  | [] => [(key, value)]
  | (k, v) :: d =>
    if key = k then (key, value) :: d
    else if key < k then (key, value) :: (k, v) :: d
    else (k, v) :: insert key value d

/-- Takes a key and its value away. -/
def erase (key : String) : Dictionary α → Dictionary α
  | [] => []
  | (k, v) :: d => if k = key then d else (k, v) :: erase key d

/-- The keys in order. -/
def keys (d : Dictionary α) : List String := d.map Prod.fst

/-- The dictionary of some members, of which the last of one key counts. -/
def ofList (members : List (String × α)) : Dictionary α :=
  members.foldl (fun d (k, v) ↦ insert k v d) []

/-- The keys are strictly increasing. -/
def Sorted (d : Dictionary α) : Prop := d.keys.Pairwise (· < ·)

/-! ## Laws -/

/-- The empty dictionary is sorted. -/
theorem sorted_nil : Sorted ([] : Dictionary α) := List.Pairwise.nil

/-- A key that was just given a value has it, and no other key is touched. -/
theorem find?_insert (key other : String) (value : α) (d : Dictionary α) :
    find? other (insert key value d) = if key = other then some value else find? other d := by
  induction d with
  | nil => rfl
  | cons m d ih =>
    obtain ⟨k, v⟩ := m
    by_cases hk : key = k
    · subst hk
      by_cases ho : key = other <;> simp [insert, find?, ho]
    · by_cases hl : key < k
      · simp [insert, hk, hl, find?]
      · by_cases ho : k = other
        · subst ho
          simp [insert, hk, hl, find?]
        · simp [insert, hk, hl, find?, ho, ih]

/-- The keys after an insertion are the key and those before. -/
theorem mem_keys_insert {key other : String} {value : α} {d : Dictionary α} :
    other ∈ keys (insert key value d) ↔ other = key ∨ other ∈ keys d := by
  induction d with
  | nil => simp [insert, keys]
  | cons m d ih =>
    obtain ⟨k, v⟩ := m
    simp only [keys] at ih
    by_cases hk : key = k
    · subst hk
      simp [insert, keys]
    · by_cases hl : key < k
      · simp [insert, keys, hk, hl]
      · simp only [insert, keys, hk, hl, if_false, List.map_cons, List.mem_cons, ih]
        grind

/-- A member after an insertion is the one inserted or was there before. -/
theorem mem_insert {key : String} {value : α} {d : Dictionary α} {m : String × α}
    (h : m ∈ insert key value d) : m = (key, value) ∨ m ∈ d := by
  induction d with
  | nil => simpa [insert] using h
  | cons n d ih =>
    obtain ⟨k, v⟩ := n
    by_cases hk : key = k
    · simp only [insert, hk, if_true, List.mem_cons] at h
      grind
    · by_cases hl : key < k
      · simpa [insert, hk, hl] using h
      · simp only [insert, hk, hl, if_false, List.mem_cons] at h
        grind

/-- Insertion keeps the order. -/
theorem Sorted.insert {d : Dictionary α} (h : Sorted d) (key : String) (value : α) :
    Sorted (insert key value d) := by
  induction d with
  | nil => exact List.pairwise_singleton _ _
  | cons m d ih =>
    obtain ⟨k, v⟩ := m
    obtain ⟨hlt, hd⟩ := List.pairwise_cons.mp h
    by_cases hk : key = k
    · subst hk
      rw [Dictionary.insert, if_pos rfl]
      exact h
    · by_cases hl : key < k
      · simp only [Dictionary.insert, hk, hl, if_false, if_true]
        refine List.pairwise_cons.mpr ⟨fun other ho ↦ ?_, h⟩
        rcases List.mem_cons.mp ho with rfl | ho
        · exact hl
        · exact String.lt_trans hl (hlt other ho)
      · simp only [Dictionary.insert, hk, hl, if_false]
        refine List.pairwise_cons.mpr ⟨fun other ho ↦ ?_, ih hd⟩
        rcases mem_keys_insert.mp ho with rfl | ho
        · exact Std.lt_of_le_of_ne (String.not_lt.mp hl) (Ne.symm hk)
        · exact hlt other ho

/-- A dictionary made of members is sorted. -/
theorem sorted_ofList (members : List (String × α)) : Sorted (ofList members) := by
  have : ∀ d : Dictionary α, Sorted d →
      Sorted (members.foldl (fun d m ↦ Dictionary.insert m.1 m.2 d) d) := by
    induction members with
    | nil => exact fun _ h ↦ h
    | cons m members ih => exact fun d h ↦ ih _ (h.insert _ _)
  exact this [] sorted_nil

/-- An absent key of a list of members is none of their keys. -/
theorem find?_eq_none_iff {key : String} {d : Dictionary α} :
    find? key d = none ↔ key ∉ keys d := by
  induction d with
  | nil => simp [find?, keys]
  | cons m d ih =>
    obtain ⟨k, v⟩ := m
    simp only [keys] at ih
    by_cases hk : k = key
    · simp [find?, keys, hk]
    · simp [find?, keys, hk, ih, Ne.symm hk]

private theorem find?_eq_none_of_lt {key : String} {d : Dictionary α} (h : ∀ k ∈ keys d, key < k) :
    find? key d = none :=
  find?_eq_none_iff.mpr fun hm ↦ String.lt_irrefl _ (h key hm)

private theorem Sorted.not_lt_head {key k : String} {v : α} {d : Dictionary α}
    (h : Sorted ((k, v) :: d)) (hf : find? key ((k, v) :: d) ≠ none) : ¬key < k := by
  intro hlt
  refine hf (find?_eq_none_of_lt fun l hl ↦ ?_)
  rcases List.mem_cons.mp hl with rfl | hl
  · exact hlt
  · exact String.lt_trans hlt ((List.pairwise_cons.mp h).1 l hl)

/-- Sorted dictionaries with the same values are the same. -/
theorem Sorted.eq_of_find? {d e : Dictionary α} (hd : Sorted d) (he : Sorted e)
    (h : ∀ key, find? key d = find? key e) : d = e := by
  induction d generalizing e with
  | nil =>
    cases e with
    | nil => rfl
    | cons m e => simpa [find?] using h m.1
  | cons m d ih =>
    obtain ⟨k, v⟩ := m
    cases e with
    | nil => simpa [find?] using h k
    | cons n e =>
      obtain ⟨l, w⟩ := n
      have hkl : k = l := by
        refine String.le_antisymm (String.not_lt.mp fun hl ↦ ?_) (String.not_lt.mp fun hl ↦ ?_)
        · exact hd.not_lt_head (by rw [h]; simp [find?]) hl
        · exact he.not_lt_head (by rw [← h]; simp [find?]) hl
      subst hkl
      have hvw : v = w := by simpa [find?] using h k
      subst hvw
      obtain ⟨hd₁, hd₂⟩ := List.pairwise_cons.mp hd
      obtain ⟨he₁, he₂⟩ := List.pairwise_cons.mp he
      rw [ih hd₂ he₂ fun key ↦ ?_]
      by_cases hk : k = key
      · subst hk
        rw [find?_eq_none_of_lt hd₁, find?_eq_none_of_lt he₁]
      · simpa [find?, hk] using h key

/-- A key that was erased is gone, and no other key is touched. -/
theorem find?_erase {d : Dictionary α} (h : Sorted d) (key other : String) :
    find? other (erase key d) = if key = other then none else find? other d := by
  induction d with
  | nil => simp [erase, find?]
  | cons m d ih =>
    obtain ⟨k, v⟩ := m
    obtain ⟨hlt, hd⟩ := List.pairwise_cons.mp h
    by_cases hk : k = key
    · subst hk
      by_cases ho : k = other
      · subst ho
        simp [erase, find?_eq_none_of_lt hlt]
      · simp [erase, find?, ho]
    · by_cases ho : k = other
      · subst ho
        simp [erase, find?, hk, Ne.symm hk]
      · simp [erase, find?, hk, ho, ih hd]

/-- Erasing leaves some of the members in their order. -/
theorem erase_sublist (key : String) (d : Dictionary α) : (erase key d).Sublist d := by
  induction d with
  | nil => exact List.Sublist.refl _
  | cons m d ih =>
    obtain ⟨k, v⟩ := m
    by_cases hk : k = key
    · simp [erase, hk]
    · simpa [erase, hk] using ih

/-- Erasing keeps the order. -/
theorem Sorted.erase {d : Dictionary α} (h : Sorted d) (key : String) : Sorted (erase key d) :=
  List.Pairwise.sublist ((erase_sublist key d).map _) h

end Dictionary

end SchemaDoc
