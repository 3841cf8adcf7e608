import SchemaDoc.Proofs.Dictionary
import SchemaDoc.Proofs.Schema.Conformance
import SchemaDoc.Schema.Check

/-!
# How far a check looks

A check goes down the schema and no further. Whatever stands in a value below the levels of the
schema is not looked at, not even whether there is anything, so that the same is found in two values
that agree above. With every list and table emptied there a value agrees with itself.
-/

namespace SchemaDoc

namespace Value

/-- The value with nothing in the lists and tables that stand `n` levels below it. -/
def cut : Nat → Value → Value
  | 0, list _ => list []
  | 0, table _ => table []
  | n + 1, list items => list (items.map (cut n))
  | n + 1, table members => table (members.map fun m ↦ (m.1, cut n m.2))
  | _, null => null
  | _, bool b => bool b
  | _, number x => number x
  | _, string s => string s

/-- The first `n` levels of the value, with `null` for whatever stands below them. -/
def firstLevels : Nat → Value → Value
  | 0, _ => null
  | n + 1, list items => list (items.map (firstLevels n))
  | n + 1, table members => table (members.map fun m ↦ (m.1, firstLevels n m.2))
  | _ + 1, null => null
  | _ + 1, bool b => bool b
  | _ + 1, number x => number x
  | _ + 1, string s => string s

private theorem firstLevels_cut (n : Nat) (v : Value) :
    (v.cut n).firstLevels n = v.firstLevels n := by
  induction n generalizing v with
  | zero => rfl
  | succ n ih =>
    cases v with
    | list items =>
      rw [cut, firstLevels, firstLevels, List.map_map]
      exact congrArg list (List.map_congr_left fun v _ ↦ ih v)
    | table members =>
      rw [cut, firstLevels, firstLevels, List.map_map]
      exact congrArg table (List.map_congr_left fun m _ ↦ Prod.ext rfl (ih m.2))
    | null | bool | number | string => rfl

end Value

namespace Schema

/-! ## Levels -/

private theorem depth_le_depthOfFields {fields : List (String × Schema)} {f : String × Schema}
    (hf : f ∈ fields) : f.2.depth ≤ depthOfFields fields := by
  induction fields with
  | nil => cases hf
  | cons g fields ih =>
    rw [depthOfFields]
    rcases List.mem_cons.mp hf with rfl | hf
    · exact Nat.le_max_left _ _
    · exact Nat.le_trans (ih hf) (Nat.le_max_right _ _)

/-! ## Loops -/

private theorem checkItems_map {checkItem : Value → String → Verdict} {f : Value → Value}
    (h : ∀ v path, checkItem (f v) path = checkItem v path) (path : String) (index : Nat)
    (items : List Value) :
    checkItems checkItem path index (items.map f) = checkItems checkItem path index items := by
  induction items generalizing index with
  | nil => rfl
  | cons v items ih => rw [List.map_cons, checkItems, checkItems, h, ih]

private theorem checkKeys_map (fields : Dictionary Schema) (path : String) (f : Value → Value)
    (members : Dictionary Value) :
    checkKeys fields path (members.map fun m ↦ (m.1, f m.2)) = checkKeys fields path members := by
  induction members with
  | nil => rfl
  | cons m members ih => rw [List.map_cons, checkKeys, checkKeys, ih]

private theorem checkFields_map {fields : List (String × Schema)} {f : Value → Value}
    (h : ∀ g ∈ fields, ∀ v path, g.2.checkAt (f v) path = g.2.checkAt v path)
    (members : Dictionary Value) (path : String) :
    checkFields fields (members.map fun m ↦ (m.1, f m.2)) path =
      checkFields fields members path := by
  induction fields with
  | nil => rfl
  | cons g fields ih =>
    have later := ih fun k hk ↦ h k (List.mem_cons_of_mem _ hk)
    rw [checkFields, checkFields, Dictionary.find?_map, later]
    cases Dictionary.find? g.1 members with
    | none => rfl
    | some v =>
      dsimp only [Option.map_some]
      rw [h g List.mem_cons_self]

/-! ## Checks -/

private theorem checkAt_firstLevels {s : Schema} {n : Nat} (h : s.depth ≤ n) (v : Value)
    (path : String) :
    s.checkAt (v.firstLevels n) path = s.checkAt v path := by
  induction s using Schema.induct generalizing n v path with
  | table fields ih =>
    rw [depth] at h
    obtain ⟨n, rfl⟩ : ∃ k, n = k + 1 := ⟨n - 1, by omega⟩
    -- A cut keeps the keys and the number of items, and leaves one level less of each part.
    cases v with
    | table members =>
      have each : ∀ f ∈ fields, ∀ v path,
          f.2.checkAt (v.firstLevels n) path = f.2.checkAt v path := by
        intro f hf
        have := depth_le_depthOfFields hf
        exact ih f hf (by omega)
      rw [Value.firstLevels, checkAt, checkAt, checkKeys_map, checkFields_map each]
    | null | bool | number | string | list => rfl
  | list element bound ih =>
    rw [depth] at h
    obtain ⟨n, rfl⟩ : ∃ k, n = k + 1 := ⟨n - 1, by omega⟩
    cases v with
    | list items =>
      have each : ∀ v path, element.checkAt (v.firstLevels n) path = element.checkAt v path :=
        ih (by omega)
      rw [Value.firstLevels, checkAt, checkAt, checkListWith, checkListWith, List.length_map,
        checkItems_map each]
    | null | bool | number | string | table => rfl
  | number | bool | string =>
    rw [depth] at h
    obtain ⟨n, rfl⟩ : ∃ k, n = k + 1 := ⟨n - 1, by omega⟩
    cases v <;> rfl
  | any => rfl

private theorem check_eq_of_firstLevels_eq {s : Schema} {n : Nat} (h : s.depth ≤ n) {v w : Value}
    (hv : v.firstLevels n = w.firstLevels n) : s.check v = s.check w := by
  rw [check, check, ← checkAt_firstLevels h v, hv, checkAt_firstLevels h w]

/-- A check finds the same in a value as in what a cut at or below the levels of the schema leaves
of it. Values that agree in those levels are not told apart. -/
theorem check_looks_no_deeper_than_schema (s : Schema) (v : Value) :
    (∀ n, s.depth ≤ n → s.check v = s.check (v.cut n) ∧ s.accepts v = s.accepts (v.cut n)) ∧
      ∀ w : Value, v.firstLevels s.depth = w.firstLevels s.depth →
        s.check v = s.check w ∧ s.accepts v = s.accepts w := by
  constructor
  · intro n h
    have same : s.check v = s.check (v.cut n) :=
      check_eq_of_firstLevels_eq h (Value.firstLevels_cut n v).symm
    exact ⟨same, by rw [accepts, accepts, same]⟩
  · intro w h
    have same : s.check v = s.check w := check_eq_of_firstLevels_eq (Nat.le_refl _) h
    exact ⟨same, by rw [accepts, accepts, same]⟩

/-- In a list of tables without fields a key is refused whatever its value is, which is below the
two levels of the schema. -/
theorem values_of_undeclared_keys_are_not_looked_at :
    (Schema.list (.table []) 1).check (.list [.table [("a", .list [.bool true])]]) =
        (Schema.list (.table []) 1).check (.list [.table [("a", .list [])]]) ∧
      (Schema.list (.table []) 1).check (.list [.table [("a", .list [.bool true])]]) =
        (Schema.list (.table []) 1).check (.list [.table [("a", .string "b")]]) ∧
      (Schema.list (.table []) 1).check (.list [.table [("a", .list [.bool true])]]) =
        .error (.extraField "$root[0].a") := by
  have looks := check_looks_no_deeper_than_schema (.list (.table []) 1)
    (.list [.table [("a", .list [.bool true])]])
  exact ⟨(looks.1 2 (by decide)).1, (looks.2 (.list [.table [("a", .string "b")]]) rfl).1, rfl⟩

end Schema

end SchemaDoc
