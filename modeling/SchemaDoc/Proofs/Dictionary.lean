import SchemaDoc.Dictionary

/-!
# Laws of sorted dictionaries

A sorted dictionary is the finite map of its members: a key has the value of the one member that
carries it. Making a dictionary of members that are sorted already changes nothing.
-/

namespace SchemaDoc.Dictionary

variable {α : Type}

private theorem Sorted.head_lt {m n : String × α} {d : Dictionary α} (h : Sorted (m :: d))
    (hn : n ∈ d) : m.1 < n.1 :=
  (List.pairwise_cons.mp h).1 n.1 (List.mem_map_of_mem hn)

private theorem Sorted.tail {m : String × α} {d : Dictionary α} (h : Sorted (m :: d)) : Sorted d :=
  (List.pairwise_cons.mp h).2

/-- Members of one key are the same member. -/
theorem Sorted.eq_of_mem {d : Dictionary α} (h : Sorted d) {m n : String × α} (hm : m ∈ d)
    (hn : n ∈ d) (hk : m.1 = n.1) : m = n := by
  induction d with
  | nil => cases hm
  | cons o d ih =>
    rcases List.mem_cons.mp hm with rfl | hm'
    · rcases List.mem_cons.mp hn with rfl | hn'
      · rfl
      · exact absurd (hk ▸ h.head_lt hn') (String.lt_irrefl _)
    · rcases List.mem_cons.mp hn with rfl | hn'
      · exact absurd (hk ▸ h.head_lt hm') (String.lt_irrefl _)
      · exact ih h.tail hm' hn'

/-- A member with a key below that of another stands before it. -/
theorem Sorted.mem_of_lt {before after : List (String × α)} {m n : String × α}
    (h : Sorted (before ++ m :: after)) (hn : n ∈ before ++ m :: after) (hlt : n.1 < m.1) :
    n ∈ before := by
  rcases List.mem_append.mp hn with hb | hn
  · exact hb
  · rw [Sorted, keys, List.map_append] at h
    have behind : Sorted (m :: after) := (List.pairwise_append.mp h).2.1
    rcases List.mem_cons.mp hn with rfl | ha
    · exact absurd hlt (String.lt_irrefl _)
    · exact absurd (behind.head_lt ha) (String.lt_asymm hlt)

/-- A key that has a value is that of a member. -/
theorem mem_of_find? {key : String} {v : α} {d : Dictionary α} (h : find? key d = some v) :
    (key, v) ∈ d := by
  induction d with
  | nil => simp [find?] at h
  | cons m d ih =>
    obtain ⟨k, w⟩ := m
    by_cases hk : k = key
    · simp_all [find?]
    · simp only [find?, hk, if_false] at h
      exact List.mem_cons_of_mem _ (ih h)

/-- The values of a sorted dictionary are those of its members. -/
theorem Sorted.find?_eq_some_iff {d : Dictionary α} (h : Sorted d) {key : String} {v : α} :
    find? key d = some v ↔ (key, v) ∈ d := by
  constructor
  · exact mem_of_find?
  · intro hm
    cases hf : find? key d with
    | none => exact absurd (List.mem_map_of_mem hm) (find?_eq_none_iff.mp hf)
    | some w => rw [h.eq_of_mem (mem_of_find? hf) hm rfl |> Prod.mk.inj |>.2]

/-- A key has in a dictionary of changed values the changed value. -/
theorem find?_map {β : Type} (f : α → β) (key : String) (d : Dictionary α) :
    find? key (d.map fun m ↦ (m.1, f m.2)) = (find? key d).map f := by
  induction d with
  | nil => rfl
  | cons m d ih =>
    rw [List.map_cons, find?, find?, ih]
    split <;> rfl

/-- A key has a value if it is among the keys. -/
theorem contains_eq_true_iff {key : String} {d : Dictionary α} :
    contains key d = true ↔ key ∈ keys d := by
  have h : find? key d = none ↔ key ∉ keys d := find?_eq_none_iff
  rw [contains]
  cases hf : find? key d with
  | none => simpa [hf] using h
  | some v => simpa [hf] using h

/-- A dictionary has no other members than those it was made of. -/
theorem mem_of_mem_ofList {members : List (String × α)} {m : String × α}
    (h : m ∈ ofList members) : m ∈ members := by
  have all (before : Dictionary α)
      (hm : m ∈ members.foldl (fun d m ↦ insert m.1 m.2 d) before) : m ∈ before ∨ m ∈ members := by
    clear h
    induction members generalizing before with
    | nil => exact .inl hm
    | cons n members ih =>
      rcases ih _ hm with hi | hi
      · rcases mem_insert hi with rfl | hb
        · exact .inr List.mem_cons_self
        · exact .inl hb
      · exact .inr (List.mem_cons_of_mem _ hi)
  simpa using all [] h

/-- The keys of a dictionary are those that it was built from. -/
theorem mem_keys_ofList {members : List (String × α)} {key : String} :
    key ∈ keys (ofList members) ↔ key ∈ keys members := by
  have all (before : Dictionary α) :
      key ∈ keys (members.foldl (fun d m ↦ insert m.1 m.2 d) before) ↔
        key ∈ keys members ∨ key ∈ keys before := by
    induction members generalizing before with
    | nil => simp [keys]
    | cons m members ih =>
      rw [List.foldl_cons, ih, mem_keys_insert]
      simp only [keys, List.map_cons, List.mem_cons]
      rw [← or_assoc, or_comm (a := key ∈ members.map Prod.fst)]
  exact (all []).trans (by simp [keys])

private theorem insert_of_lt {key : String} {d : Dictionary α} (h : ∀ k ∈ keys d, k < key)
    (value : α) :
    insert key value d = d ++ [(key, value)] := by
  induction d with
  | nil => rfl
  | cons m d ih =>
    obtain ⟨k, v⟩ := m
    have hlt : k < key := h k List.mem_cons_self
    have hne : key ≠ k := fun he ↦ String.lt_irrefl k (he ▸ hlt)
    rw [insert, if_neg hne, if_neg (String.lt_asymm hlt),
      ih fun l hl ↦ h l (List.mem_cons_of_mem _ hl)]
    rfl

/-- A sorted list of members is the dictionary of them. -/
theorem Sorted.ofList_eq {d : Dictionary α} (h : Sorted d) : ofList d = d := by
  -- The members that were inserted so far stand in front of those that are still to come.
  have all (members before : List (String × α)) (hs : Sorted (before ++ members)) :
      members.foldl (fun d m ↦ Dictionary.insert m.1 m.2 d) before = before ++ members := by
    induction members generalizing before with
    | nil => simp
    | cons m members ih =>
      have hb : ∀ k ∈ keys before, k < m.1 := by
        intro k hk
        rw [Sorted, keys, List.map_append] at hs
        exact (List.pairwise_append.mp hs).2.2 k hk m.1 List.mem_cons_self
      rw [List.foldl_cons, insert_of_lt hb, ih _ (by simpa using hs)]
      simp
  exact all d [] h

/-- In the dictionary of members of different keys every key has the value given for it. -/
theorem find?_ofList_of_nodup {members : List (String × α)} (h : (keys members).Nodup)
    {key : String} {v : α} : find? key (ofList members) = some v ↔ (key, v) ∈ members := by
  -- A key that is still to come has no value from the members that were inserted so far.
  have all (before : Dictionary α) :
      find? key (members.foldl (fun d m ↦ insert m.1 m.2 d) before) = some v ↔
        (key, v) ∈ members ∨ key ∉ keys members ∧ find? key before = some v := by
    induction members generalizing before with
    | nil => simp [keys]
    | cons m members ih =>
      obtain ⟨k, w⟩ := m
      obtain ⟨absent, rest⟩ := List.nodup_cons.mp h
      rw [List.foldl_cons, ih rest, find?_insert]
      by_cases hk : k = key
      · subst hk
        have gone : k ∉ keys members := absent
        have none : (k, v) ∉ members := fun hm ↦ gone (List.mem_map_of_mem hm)
        have here : k ∈ keys ((k, w) :: members) := List.mem_cons_self
        simp [none, gone, here, eq_comm]
      · simp [keys, hk, Ne.symm hk]
  exact (all []).trans (by simp [find?])

/-- Values of different keys are inserted in any order. -/
theorem Sorted.insert_insert {d : Dictionary α} (h : Sorted d) {a b : String} (hne : a ≠ b)
    (v w : α) :
    Dictionary.insert b w (Dictionary.insert a v d) =
      Dictionary.insert a v (Dictionary.insert b w d) := by
  apply Sorted.eq_of_find? ((h.insert a v).insert b w) ((h.insert b w).insert a v)
  intro key
  simp only [find?_insert]
  by_cases ha : a = key
  · simp [ha, ha ▸ hne.symm]
  · simp [ha]

/-- A key is erased before or after another is given a value. -/
theorem Sorted.erase_insert {d : Dictionary α} (h : Sorted d) {a b : String} (hne : a ≠ b)
    (v : α) :
    Dictionary.erase b (Dictionary.insert a v d) =
      Dictionary.insert a v (Dictionary.erase b d) := by
  apply Sorted.eq_of_find? ((h.insert a v).erase b) ((h.erase b).insert a v)
  intro key
  simp only [find?_insert, find?_erase h, find?_erase (h.insert a v)]
  by_cases ha : a = key
  · simp [ha, ha ▸ hne.symm]
  · simp [ha]

/-- Different keys are erased in any order. -/
theorem Sorted.erase_erase {d : Dictionary α} (h : Sorted d) (a b : String) :
    Dictionary.erase b (Dictionary.erase a d) = Dictionary.erase a (Dictionary.erase b d) := by
  apply Sorted.eq_of_find? ((h.erase a).erase b) ((h.erase b).erase a)
  intro key
  simp only [find?_erase h, find?_erase (h.erase a), find?_erase (h.erase b)]
  by_cases ha : a = key <;> simp [ha]

end SchemaDoc.Dictionary
