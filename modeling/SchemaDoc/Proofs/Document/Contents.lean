import Mathlib.Data.Finmap
import Mathlib.Data.Finset.Sort
import Mathlib.Data.String.Basic
import SchemaDoc.Proofs.Dictionary
import SchemaDoc.Proofs.Document.Payload

/-!
# Sequences and finite maps

What a document is about: a sequence of values, or a finite map from keys to values. A payload
stands for contents of its shape, and what is done to payloads is done to the contents that they
stand for.
-/

namespace SchemaDoc

/-- A finite map from keys to values. -/
abbrev ValueMap := Finmap fun _ : String ↦ Value

namespace ValueMap

/-- The finite map of some members, of which the last of one key counts. -/
def ofMembers (members : List (String × Value)) : ValueMap :=
  members.foldl (fun m (key, v) ↦ m.insert key v) ∅

/-- The members of a finite map by increasing key. -/
def members (m : ValueMap) : List (String × Value) :=
  m.keys.sort.filterMap fun key ↦ (m.lookup key).map (key, ·)

variable {d : Dictionary Value} {key : String}

private theorem lookup_foldl (members : List (String × Value)) {m : ValueMap}
    (h : ∀ key, m.lookup key = Dictionary.find? key d) (key : String) :
    (members.foldl (fun m (key, v) ↦ m.insert key v) m).lookup key =
      Dictionary.find? key (members.foldl (fun d (key, v) ↦ Dictionary.insert key v d) d) := by
  induction members generalizing m d with
  | nil => exact h key
  | cons n members ih =>
    refine ih fun other ↦ ?_
    rw [Dictionary.find?_insert, ← h other]
    by_cases same : n.1 = other
    · rw [if_pos same, ← same, Finmap.lookup_insert]
    · rw [if_neg same, Finmap.lookup_insert_of_ne _ (Ne.symm same)]

private theorem lookup_ofMembers_eq_find?_ofList (members : List (String × Value)) (key : String) :
    (ofMembers members).lookup key = Dictionary.find? key (Dictionary.ofList members) :=
  lookup_foldl members (fun _ ↦ rfl) key

/-- What is found in the finite map of a dictionary is what is found in the dictionary. -/
theorem lookup_ofMembers (h : Dictionary.Sorted d) (key : String) :
    (ofMembers d).lookup key = Dictionary.find? key d := by
  rw [lookup_ofMembers_eq_find?_ofList, h.ofList_eq]

private theorem ofMembers_ofList (members : List (String × Value)) :
    ofMembers (Dictionary.ofList members) = ofMembers members := by
  apply Finmap.ext_lookup
  intro key
  rw [lookup_ofMembers (Dictionary.sorted_ofList members), lookup_ofMembers_eq_find?_ofList]

/-- Inserting into a dictionary inserts into its finite map. -/
theorem ofMembers_insert (h : Dictionary.Sorted d) (key : String) (v : Value) :
    ofMembers (Dictionary.insert key v d) = (ofMembers d).insert key v := by
  apply Finmap.ext_lookup
  intro other
  rw [lookup_ofMembers (h.insert key v), Dictionary.find?_insert]
  by_cases same : key = other
  · rw [if_pos same, ← same, Finmap.lookup_insert]
  · rw [if_neg same, Finmap.lookup_insert_of_ne _ (Ne.symm same), lookup_ofMembers h]

/-- Erasing from a dictionary erases from its finite map. -/
theorem ofMembers_erase (h : Dictionary.Sorted d) (key : String) :
    ofMembers (Dictionary.erase key d) = (ofMembers d).erase key := by
  apply Finmap.ext_lookup
  intro other
  rw [lookup_ofMembers (h.erase key), Dictionary.find?_erase h]
  by_cases same : key = other
  · rw [if_pos same, ← same, Finmap.lookup_erase]
  · rw [if_neg same, Finmap.lookup_erase_ne (Ne.symm same), lookup_ofMembers h]

private theorem nodup_keys (h : Dictionary.Sorted d) : (Dictionary.keys d).Nodup :=
  h.imp fun hlt ↦ ne_of_lt hlt

private theorem keys_ofMembers (h : Dictionary.Sorted d) :
    (ofMembers d).keys = (Dictionary.keys d).toFinset := by
  ext key
  rw [Finmap.mem_keys, ← Finmap.lookup_isSome, lookup_ofMembers h, List.mem_toFinset,
    Option.isSome_iff_ne_none, Ne, Dictionary.find?_eq_none_iff, not_not]

private theorem card_keys_ofMembers (h : Dictionary.Sorted d) :
    (ofMembers d).keys.card = d.length := by
  rw [keys_ofMembers h, List.toFinset_card_of_nodup (nodup_keys h), Dictionary.keys,
    List.length_map]

private theorem members_ofMembers (h : Dictionary.Sorted d) : members (ofMembers d) = d := by
  have sorted : (Dictionary.keys d).toFinset.sort = Dictionary.keys d :=
    (List.toFinset_sort _ (nodup_keys h)).mpr (h.imp fun hlt ↦ le_of_lt hlt)
  rw [members, keys_ofMembers h, sorted, Dictionary.keys, List.filterMap_map]
  have each : ∀ m ∈ d, (fun m : String × Value ↦ ((ofMembers d).lookup m.1).map (m.1, ·)) m =
      some m := by
    intro m hm
    have found : Dictionary.find? m.1 d = some m.2 := h.find?_eq_some_iff.mpr hm
    simp only [lookup_ofMembers h, found, Option.map_some]
  exact (List.filterMap_congr each).trans List.filterMap_some

end ValueMap

/-- What a document is about: a sequence of values, or a finite map from keys to values. -/
abbrev Contents : Shape → Type
  | .list => List Value
  | .table => ValueMap

namespace Contents

variable {s : Shape}

/-- No items or no members. -/
def empty : (s : Shape) → Contents s
  | .list => []
  | .table => ∅

/-- The contents that a payload stands for. -/
def ofPayload : {s : Shape} → s.Payload → Contents s
  | .list, items => items
  | .table, members => ValueMap.ofMembers members

/-- The contents of a payload that is handed over, each value in its normal form. -/
def ofGiven : {s : Shape} → s.Payload → Contents s
  | .list, items => items.map Value.normalize
  | .table, members => ValueMap.ofMembers (members.map fun (key, v) ↦ (key, v.normalize))

/-- The contents as a value, members by increasing key. -/
def toValue : {s : Shape} → Contents s → Value
  | .list, items => .list items
  | .table, m => .table (ValueMap.members m)

/-- The number of items or of keys. -/
def length : {s : Shape} → Contents s → Nat
  | .list, items => List.length items
  | .table, m => m.keys.card

/-- The empty payload stands for the empty contents. -/
theorem ofPayload_empty (s : Shape) : ofPayload (Payload.empty s) = empty s := by
  cases s <;> rfl

/-- The normal form of a payload stands for the contents that were handed over. -/
theorem ofPayload_normalize (p : s.Payload) : ofPayload (Payload.normalize p) = ofGiven p := by
  cases s with
  | list => exact Value.normalizeItems_eq_map p
  | table =>
    exact (ValueMap.ofMembers_ofList _).trans
      (congrArg ValueMap.ofMembers (Value.normalizeMembers_eq_map p))

/-- A normal payload is the same value as its contents. -/
theorem toValue_ofPayload {p : s.Payload} (h : Payload.Normal p) :
    toValue (ofPayload p) = Payload.toValue p := by
  cases s with
  | list => rfl
  | table => exact congrArg Value.table (ValueMap.members_ofMembers h.1)

/-- A normal payload has as many items or members as its contents. -/
theorem length_ofPayload {p : s.Payload} (h : Payload.Normal p) :
    length (ofPayload p) = Payload.length p := by
  cases s with
  | list => rfl
  | table => exact ValueMap.card_keys_ofMembers h.1

end Contents

end SchemaDoc
