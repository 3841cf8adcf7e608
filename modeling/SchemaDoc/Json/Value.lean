import SchemaDoc.Dictionary
import SchemaDoc.Number.Basic

/-!
# JSON values

A value is what a JSON text says. As it is read from a text, a table lists its members in the
order of the text and may repeat a key; `normalize` makes each table a dictionary, and `Normal`
says of a value that it is so already. The payload of a document is a normal value.
-/

namespace SchemaDoc

/-- A JSON value. -/
inductive Value where
  /-- The value `null`. -/
  | null
  /-- A truth value. -/
  | bool (b : Bool)
  /-- A number. -/
  | number (n : Number)
  /-- A text. -/
  | string (s : String)
  /-- An array. -/
  | list (items : List Value)
  /-- An object. -/
  | table (members : List (String × Value))
deriving Repr, Inhabited

namespace Value

/-- What a value is, in the words of a schema. -/
def typeName : Value → String
  | null => "null"
  | bool _ => "bool"
  | number _ => "number"
  | string _ => "string"
  | list _ => "list"
  | table _ => "table"

mutual
/-- The value with every table made a dictionary, the last member of one key counting. -/
def normalize : Value → Value
  | null => null
  | bool b => bool b
  | number n => number n
  | string s => string s
  | list items => list (normalizeItems items)
  | table members => table (Dictionary.ofList (normalizeMembers members))
termination_by structural v => v

/-- Normalizes each item. -/
def normalizeItems : List Value → List Value
  | [] => []
  | v :: items => normalize v :: normalizeItems items
termination_by structural items => items

/-- Normalizes the value of each member. -/
def normalizeMembers : List (String × Value) → List (String × Value)
  | [] => []
  | (k, v) :: members => (k, normalize v) :: normalizeMembers members
termination_by structural members => members
end

mutual
/-- Every table in the value is sorted by key. -/
def Normal : Value → Prop
  | null | bool _ | number _ | string _ => True
  | list items => NormalItems items
  | table members => Dictionary.Sorted members ∧ NormalMembers members
termination_by structural v => v

/-- Every item is normal. -/
def NormalItems : List Value → Prop
  | [] => True
  | v :: items => Normal v ∧ NormalItems items
termination_by structural items => items

/-- Every member has a normal value. -/
def NormalMembers : List (String × Value) → Prop
  | [] => True
  | (_, v) :: members => Normal v ∧ NormalMembers members
termination_by structural members => members
end

mutual
/-- The number of brackets that stand open at the innermost place. -/
def nesting : Value → Nat
  | null | bool _ | number _ | string _ => 0
  | list items => nestingItems items + 1
  | table members => nestingMembers members + 1
termination_by structural v => v

/-- The deepest nesting of some items. -/
def nestingItems : List Value → Nat
  | [] => 0
  | v :: items => max (nesting v) (nestingItems items)
termination_by structural items => items

/-- The deepest nesting of the values of some members. -/
def nestingMembers : List (String × Value) → Nat
  | [] => 0
  | (_, v) :: members => max (nesting v) (nestingMembers members)
termination_by structural members => members
end

/-- The value inside `n` lists of one item. -/
def nest (v : Value) : Nat → Value
  | 0 => v
  | n + 1 => nest (list [v]) n

/-! ## Equality -/

mutual
/-- Decides whether two values are the same. -/
def decEq : (v w : Value) → Decidable (v = w)
  | null, null => isTrue rfl
  | bool a, bool b => if h : a = b then isTrue (by rw [h]) else isFalse (by simpa using h)
  | number m, number n => if h : m = n then isTrue (by rw [h]) else isFalse (by simpa using h)
  | string s, string t => if h : s = t then isTrue (by rw [h]) else isFalse (by simpa using h)
  | list vs, list ws =>
    match decEqItems vs ws with
    | isTrue h => isTrue (by rw [h])
    | isFalse h => isFalse (by simpa using h)
  | table ms, table ns =>
    match decEqMembers ms ns with
    | isTrue h => isTrue (by rw [h])
    | isFalse h => isFalse (by simpa using h)
  | null, bool _ | null, number _ | null, string _ | null, list _ | null, table _
  | bool _, null | bool _, number _ | bool _, string _ | bool _, list _ | bool _, table _
  | number _, null | number _, bool _ | number _, string _ | number _, list _
  | number _, table _
  | string _, null | string _, bool _ | string _, number _ | string _, list _
  | string _, table _
  | list _, null | list _, bool _ | list _, number _ | list _, string _ | list _, table _
  | table _, null | table _, bool _ | table _, number _ | table _, string _
  | table _, list _ => isFalse (by simp)
termination_by structural v => v

/-- Decides whether two lists of items are the same. -/
def decEqItems : (vs ws : List Value) → Decidable (vs = ws)
  | [], [] => isTrue rfl
  | [], _ :: _ | _ :: _, [] => isFalse (by simp)
  | v :: vs, w :: ws =>
    match decEq v w, decEqItems vs ws with
    | isTrue h, isTrue hs => isTrue (by rw [h, hs])
    | isFalse h, _ => isFalse (by simp [h])
    | _, isFalse h => isFalse (by simp [h])
termination_by structural vs => vs

/-- Decides whether two lists of members are the same. -/
def decEqMembers : (ms ns : List (String × Value)) → Decidable (ms = ns)
  | [], [] => isTrue rfl
  | [], _ :: _ | _ :: _, [] => isFalse (by simp)
  | (k, v) :: ms, (l, w) :: ns =>
    if hk : k = l then
      match decEq v w, decEqMembers ms ns with
      | isTrue h, isTrue hs => isTrue (by rw [hk, h, hs])
      | isFalse h, _ => isFalse (by simp [h])
      | _, isFalse h => isFalse (by simp [h])
    else isFalse (by simp [hk])
termination_by structural ms => ms
end

instance : DecidableEq Value := decEq

/-! ## Laws -/

/-- Members are normal if each of their values is. -/
theorem normalMembers_iff {members : List (String × Value)} :
    NormalMembers members ↔ ∀ m ∈ members, Normal m.2 := by
  induction members with
  | nil => simp [NormalMembers]
  | cons m members ih => simp [NormalMembers, ih]

/-- A normal value in a dictionary of normal values leaves them normal. -/
theorem NormalMembers.insert {d : Dictionary Value} (h : NormalMembers d) (key : String)
    {v : Value} (hv : Normal v) : NormalMembers (Dictionary.insert key v d) := by
  rw [normalMembers_iff] at h ⊢
  intro m hm
  rcases Dictionary.mem_insert hm with rfl | hm
  · exact hv
  · exact h m hm

private theorem normalMembers_ofList {members : List (String × Value)} (h : NormalMembers members) :
    NormalMembers (Dictionary.ofList members) := by
  have : ∀ d : Dictionary Value, NormalMembers d →
      NormalMembers (members.foldl (fun d m ↦ Dictionary.insert m.1 m.2 d) d) := by
    induction members with
    | nil => exact fun _ hd ↦ hd
    | cons m members ih => exact fun d hd ↦ ih h.2 _ (hd.insert m.1 h.1)
  exact this [] trivial

/-- Normalizing goes through a list item by item. -/
theorem normalizeItems_eq_map (items : List Value) :
    normalizeItems items = items.map normalize := by
  induction items with
  | nil => rfl
  | cons v items ih => simp [normalizeItems, ih]

/-- Normalizing goes through a table member by member. -/
theorem normalizeMembers_eq_map (members : List (String × Value)) :
    normalizeMembers members = members.map fun m ↦ (m.1, normalize m.2) := by
  induction members with
  | nil => rfl
  | cons m members ih => simp [normalizeMembers, ih]

mutual
/-- A value is normal once it was normalized. -/
theorem normal_normalize : (v : Value) → Normal (normalize v)
  | null | bool _ | number _ | string _ => trivial
  | list items => normalItems_normalizeItems items
  | table members =>
    ⟨Dictionary.sorted_ofList _, normalMembers_ofList (normalMembers_normalizeMembers members)⟩

private theorem normalItems_normalizeItems :
    (items : List Value) → NormalItems (normalizeItems items)
  | [] => trivial
  | v :: items => ⟨normal_normalize v, normalItems_normalizeItems items⟩

private theorem normalMembers_normalizeMembers :
    (members : List (String × Value)) → NormalMembers (normalizeMembers members)
  | [] => trivial
  | (_, v) :: members => ⟨normal_normalize v, normalMembers_normalizeMembers members⟩
end

end Value

end SchemaDoc
