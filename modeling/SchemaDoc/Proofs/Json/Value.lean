import SchemaDoc.Json.Value
import SchemaDoc.Proofs.Dictionary

/-!
# Laws of values

What is said of a list or table is said of its items or members one by one. Two views of a value
are added here: whether it has a double anywhere, and its blur, in which all doubles look alike.
-/

namespace SchemaDoc.Value

/-- A property of all values, shown from the items to the list and from the members to the
table. -/
@[elab_as_elim]
theorem induct {motive : Value → Prop} (null : motive null) (bool : ∀ b, motive (bool b))
    (number : ∀ n, motive (number n)) (string : ∀ s, motive (string s))
    (list : ∀ items, (∀ v ∈ items, motive v) → motive (list items))
    (table : ∀ members, (∀ m ∈ members, motive m.2) → motive (table members))
    (v : Value) : motive v := by
  cases v with
  | null => exact null
  | bool b => exact bool b
  | number n => exact number n
  | string s => exact string s
  | list items =>
    apply list
    intro v hv
    have : sizeOf v < sizeOf items := List.sizeOf_lt_of_mem hv
    exact induct null bool number string list table v
  | table members =>
    apply table
    intro m hm
    have : sizeOf m.2 < sizeOf members :=
      Nat.lt_trans (by cases m; simp +arith) (List.sizeOf_lt_of_mem hm)
    exact induct null bool number string list table m.2
termination_by sizeOf v
decreasing_by all_goals simp +arith; omega

/-! ## Normal values -/

/-- Items are normal if each of them is. -/
theorem normalItems_iff {items : List Value} : NormalItems items ↔ ∀ v ∈ items, Normal v := by
  induction items with
  | nil => simp [NormalItems]
  | cons v items ih => simp [NormalItems, ih]

/-- A normal value is its own normal form. -/
theorem Normal.normalize_eq {v : Value} (h : Normal v) : normalize v = v := by
  induction v using Value.induct with
  | null | bool | number | string => rfl
  | list items ih =>
    have each : items.map normalize = items.map id :=
      List.map_congr_left fun v hv ↦ ih v hv (normalItems_iff.mp h v hv)
    rw [normalize, normalizeItems_eq_map, each, List.map_id]
  | table members ih =>
    have each : members.map (fun m ↦ (m.1, normalize m.2)) = members.map id :=
      List.map_congr_left fun m hm ↦
        Prod.ext rfl (ih m hm (normalMembers_iff.mp h.2 m hm))
    rw [normalize, normalizeMembers_eq_map, each, List.map_id, h.1.ofList_eq]

/-! ## Nesting -/

/-- Items are nested no more deeply than the deepest of them. -/
theorem nestingItems_le_iff {items : List Value} {n : Nat} :
    nestingItems items ≤ n ↔ ∀ v ∈ items, nesting v ≤ n := by
  induction items with
  | nil => simp [nestingItems]
  | cons v items ih => rw [nestingItems, Nat.max_le, ih, List.forall_mem_cons]

/-- Members are nested no more deeply than the value of the deepest of them. -/
theorem nestingMembers_le_iff {members : List (String × Value)} {n : Nat} :
    nestingMembers members ≤ n ↔ ∀ m ∈ members, nesting m.2 ≤ n := by
  induction members with
  | nil => simp [nestingMembers]
  | cons m members ih => rw [nestingMembers, Nat.max_le, ih, List.forall_mem_cons]

/-! ## Doubles -/

mutual
/-- There is no double anywhere in the value. -/
def DoubleFree : Value → Prop
  | number (.double _) => False
  | null | bool _ | number (.integer _) | string _ => True
  | list items => DoubleFreeItems items
  | table members => DoubleFreeMembers members
termination_by structural v => v

/-- There is no double in any item. -/
def DoubleFreeItems : List Value → Prop
  | [] => True
  | v :: items => DoubleFree v ∧ DoubleFreeItems items
termination_by structural items => items

/-- There is no double in the value of any member. -/
def DoubleFreeMembers : List (String × Value) → Prop
  | [] => True
  | (_, v) :: members => DoubleFree v ∧ DoubleFreeMembers members
termination_by structural members => members
end

mutual
/-- The value with zero for every double. Values of one blur differ in their doubles at most. -/
def blur : Value → Value
  | number (.double _) => number (.double (.zero false))
  | null => null
  | bool b => bool b
  | number (.integer i) => number (.integer i)
  | string s => string s
  | list items => list (blurItems items)
  | table members => table (blurMembers members)
termination_by structural v => v

/-- Blurs each item. -/
def blurItems : List Value → List Value
  | [] => []
  | v :: items => blur v :: blurItems items
termination_by structural items => items

/-- Blurs the value of each member. -/
def blurMembers : List (String × Value) → List (String × Value)
  | [] => []
  | (k, v) :: members => (k, blur v) :: blurMembers members
termination_by structural members => members
end

/-- Items have no double if none of them has one. -/
theorem doubleFreeItems_iff {items : List Value} :
    DoubleFreeItems items ↔ ∀ v ∈ items, DoubleFree v := by
  induction items with
  | nil => simp [DoubleFreeItems]
  | cons v items ih => simp [DoubleFreeItems, ih]

/-- Members have no double if none of their values has one. -/
theorem doubleFreeMembers_iff {members : List (String × Value)} :
    DoubleFreeMembers members ↔ ∀ m ∈ members, DoubleFree m.2 := by
  induction members with
  | nil => simp [DoubleFreeMembers]
  | cons m members ih => simp [DoubleFreeMembers, ih]

/-- A normal form has no double if the value has none. -/
theorem DoubleFree.normalize {v : Value} (h : DoubleFree v) : DoubleFree (normalize v) := by
  induction v using Value.induct with
  | null | bool | number | string => exact h
  | list items ih =>
    rw [Value.normalize, normalizeItems_eq_map]
    apply doubleFreeItems_iff.mpr
    intro w hw
    obtain ⟨v, hv, rfl⟩ := List.mem_map.mp hw
    exact ih v hv (doubleFreeItems_iff.mp h v hv)
  | table members ih =>
    rw [Value.normalize, normalizeMembers_eq_map]
    apply doubleFreeMembers_iff.mpr
    intro w hw
    obtain ⟨m, hm, rfl⟩ := List.mem_map.mp (Dictionary.mem_of_mem_ofList hw)
    exact ih m hm (doubleFreeMembers_iff.mp h m hm)

/-- Blurring goes through a list item by item. -/
theorem blurItems_eq_map (items : List Value) : blurItems items = items.map blur := by
  induction items with
  | nil => rfl
  | cons v items ih => simp [blurItems, ih]

/-- Blurring goes through a table member by member. -/
theorem blurMembers_eq_map (members : List (String × Value)) :
    blurMembers members = members.map fun m ↦ (m.1, blur m.2) := by
  induction members with
  | nil => rfl
  | cons m members ih => simp [blurMembers, ih]

private theorem DoubleFree.blur_eq {v : Value} (h : DoubleFree v) : blur v = v := by
  induction v using Value.induct with
  | null | bool | string => rfl
  | number n =>
    cases n with
    | integer i => rfl
    | double x => exact False.elim h
  | list items ih =>
    have each : items.map blur = items.map id :=
      List.map_congr_left fun v hv ↦ ih v hv (doubleFreeItems_iff.mp h v hv)
    rw [blur, blurItems_eq_map, each, List.map_id]
  | table members ih =>
    have each : members.map (fun m ↦ (m.1, blur m.2)) = members.map id :=
      List.map_congr_left fun m hm ↦ Prod.ext rfl (ih m hm (doubleFreeMembers_iff.mp h m hm))
    rw [blur, blurMembers_eq_map, each, List.map_id]

private theorem doubleFree_of_blur {v : Value} (h : DoubleFree (blur v)) : DoubleFree v := by
  induction v using Value.induct with
  | null | bool | string => trivial
  | number n =>
    cases n with
    | integer i => trivial
    | double x => exact h
  | list items ih =>
    rw [blur, blurItems_eq_map] at h
    exact doubleFreeItems_iff.mpr fun v hv ↦
      ih v hv (doubleFreeItems_iff.mp h (blur v) (List.mem_map_of_mem hv))
  | table members ih =>
    rw [blur, blurMembers_eq_map] at h
    exact doubleFreeMembers_iff.mpr fun m hm ↦
      ih m hm (doubleFreeMembers_iff.mp h (m.1, blur m.2) (List.mem_map_of_mem hm))

/-- A value without doubles is alone with its blur. -/
theorem DoubleFree.eq_of_blur_eq {v w : Value} (h : DoubleFree v) (he : blur w = blur v) :
    w = v := by
  have hw : DoubleFree w := doubleFree_of_blur (by rwa [he, h.blur_eq])
  rw [← hw.blur_eq, he, h.blur_eq]

private theorem keys_blurMembers (members : List (String × Value)) :
    Dictionary.keys (blurMembers members) = Dictionary.keys members := by
  simp [Dictionary.keys, blurMembers_eq_map]

/-- A value is normal if its blur is. -/
theorem normal_blur_iff {v : Value} : Normal (blur v) ↔ Normal v := by
  induction v using Value.induct with
  | null | bool | string => rfl
  | number n => cases n <;> rfl
  | list items ih =>
    rw [blur, Normal, Normal, normalItems_iff, normalItems_iff, blurItems_eq_map,
      List.forall_mem_map]
    exact forall₂_congr ih
  | table members ih =>
    rw [blur, Normal, Normal, normalMembers_iff, normalMembers_iff, Dictionary.Sorted,
      keys_blurMembers, blurMembers_eq_map, List.forall_mem_map]
    exact and_congr_right fun _ ↦ forall₂_congr ih

/-! ## Nested lists -/

/-- Every list around a value nests it by one. -/
theorem nesting_nest (v : Value) (n : Nat) : (v.nest n).nesting = v.nesting + n := by
  induction n generalizing v with
  | zero => rfl
  | succ n ih =>
    have one : (list [v]).nesting = v.nesting + 1 := by simp [nesting, nestingItems]
    rw [nest, ih, one]
    omega

/-- Lists around a value add no double. -/
theorem DoubleFree.nest {v : Value} (h : v.DoubleFree) (n : Nat) : (v.nest n).DoubleFree := by
  induction n generalizing v with
  | zero => exact h
  | succ n ih => exact ih (v := list [v]) ⟨h, trivial⟩

/-- Lists around a normal value are normal. -/
theorem Normal.nest {v : Value} (h : v.Normal) (n : Nat) : (v.nest n).Normal := by
  induction n generalizing v with
  | zero => exact h
  | succ n ih => exact ih (v := list [v]) ⟨h, trivial⟩

end SchemaDoc.Value
