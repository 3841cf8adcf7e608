import SchemaDoc.Proofs.Json.Printed
import SchemaDoc.Proofs.Schema.Reader
import SchemaDoc.Proofs.Schema.Settling

/-!
# Schemas that are written and read again

The text of a schema is read as the schema with its bounds settled, as long as its brackets may all
stand open at once: one for each list and scalar, and two for each table.
-/

namespace SchemaDoc

/-! ## Brackets -/

namespace Schema

mutual
/-- The number of brackets that stand open at the innermost place of the text of a schema. -/
def levels : Schema → Nat
  | table fields => levelsOfFields fields + 2
  | list element _ => levels element + 1
  | number | string _ | bool | any => 1
termination_by structural s => s

/-- The number of brackets that stand open at the innermost place of the texts of some fields. -/
def levelsOfFields : List (String × Schema) → Nat
  | [] => 0
  | (_, s) :: fields => max (levels s) (levelsOfFields fields)
termination_by structural fields => fields
end

private theorem nestingMembers_boundMember (bound : Int64) :
    Value.nestingMembers (boundMember bound) = 0 := by
  rw [boundMember]
  split <;> rfl

/-- The levels of a schema are the brackets of its text. -/
theorem nesting_toValue (s : Schema) : s.toValue.nesting = s.levels := by
  induction s using Schema.induct with
  | table fields ih =>
    have each : Value.nestingMembers (valuesOfFields fields) = levelsOfFields fields := by
      induction fields with
      | nil => rfl
      | cons f fields ihf =>
        rw [valuesOfFields, Value.nestingMembers, levelsOfFields, ih f List.mem_cons_self,
          ihf fun g hg ↦ ih g (List.mem_cons_of_mem _ hg)]
    simp [toValue, kindMember, Value.nesting, Value.nestingMembers, each, levels]
  | list element bound ih =>
    simp [toValue, kindMember, Value.nesting, Value.nestingMembers, ih,
      nestingMembers_boundMember, levels]
  | string bound =>
    simp [toValue, kindMember, Value.nesting, Value.nestingMembers, nestingMembers_boundMember,
      levels]
  | number | bool | any => rfl

/-- A schema has at most two brackets for each of its levels. -/
theorem levels_le (s : Schema) : s.levels ≤ 2 * s.depth := by
  induction s using Schema.induct with
  | table fields ih =>
    have each : levelsOfFields fields ≤ 2 * depthOfFields fields := by
      induction fields with
      | nil => exact Nat.le_refl 0
      | cons f fields ihf =>
        have head := ih f List.mem_cons_self
        have tail := ihf fun g hg ↦ ih g (List.mem_cons_of_mem _ hg)
        rw [levelsOfFields, depthOfFields]
        omega
    rw [levels, depth]
    omega
  | list element bound ih =>
    rw [levels, depth]
    omega
  | number | string | bool | any => exact Nat.le_succ 1

/-- There is no double in the text of a schema. -/
theorem doubleFree_toValue (s : Schema) : s.toValue.DoubleFree := by
  have bounds (bound : Int64) : Value.DoubleFreeMembers (boundMember bound) := by
    rw [boundMember]
    split
    · exact ⟨trivial, trivial⟩
    · trivial
  induction s using Schema.induct with
  | table fields ih =>
    have each : Value.DoubleFreeMembers (valuesOfFields fields) := by
      induction fields with
      | nil => trivial
      | cons f fields ihf =>
        exact ⟨ih f List.mem_cons_self, ihf fun g hg ↦ ih g (List.mem_cons_of_mem _ hg)⟩
    exact ⟨trivial, each, trivial⟩
  | list element bound ih => exact ⟨trivial, ih, bounds bound⟩
  | string bound => exact ⟨trivial, bounds bound⟩
  | number | bool | any => exact ⟨trivial, trivial⟩

/-! ## Members -/

/-- The members of a schema beside its kind. -/
def ownMembers : Schema → List (String × Value)
  | table fields => [("fields", .table (valuesOfFields fields))]
  | list element bound => ("element", element.toValue) :: boundMember bound
  | string bound => boundMember bound
  | number | bool | any => []

private theorem toValue_eq (s : Schema) :
    s.toValue = .table (kindMember s.kind :: s.ownMembers) := by
  cases s <;> rfl

private theorem split_kindMember (s : Schema) :
    Kind.split none (kindMember s.kind :: s.ownMembers) = some (s.kind, s.ownMembers) := by
  have named (k : Kind) : Kind.named? (kindMember k).2 = some k := k.ofName?_name
  have others : Kind.split (some s.kind) s.ownMembers = some (s.kind, s.ownMembers) := by
    cases s with
    | table | number | bool | any => simp [ownMembers, Kind.split]
    | list element bound | string bound =>
      by_cases h : 0 < bound.toInt <;> simp [ownMembers, boundMember, Kind.split, h]
  exact Kind.split_cons_eq_some_iff.mpr (.inl ⟨rfl, rfl, _, named _, others⟩)

/-! ## Reading -/

private theorem boundOfValue_ofInt64 (bound : Int64) :
    boundOfValue (.number (.integer (.ofInt64 bound))) = .ok bound := by
  have small : (Integer.ofInt64 bound).val < 0x8000000000000000 := bound.toInt_lt
  rw [boundOfValue, dif_pos small]
  exact congrArg Except.ok bound.ofIntLE_toInt

private theorem ofMembers_boundMember {kind : Kind} (hk : kind = .list ∨ kind = .string)
    (bound : Int64) {parts : Parts} (hb : parts.bound? = none) :
    ∃ bound?, bound?.getD 0 = settled bound ∧
      ofMembers kind parts (boundMember bound) = { parts with bound? := bound? }.finish kind := by
  rw [boundMember, settled]
  by_cases h : 0 < bound.toInt
  · refine ⟨some bound, by rw [if_pos h]; rfl, ?_⟩
    rw [if_pos h, ofMembers]
    simp [hk, hb, boundOfValue_ofInt64, ofMembers]
  · refine ⟨none, by rw [if_neg h]; rfl, ?_⟩
    rw [if_neg h, ofMembers, ← hb]

private theorem fieldsOfMembers_valuesOfFields {fields : List (String × Schema)}
    (each : ∀ f ∈ fields, ofValue f.2.toValue = .ok f.2.settleBounds) (before : Dictionary Schema) :
    fieldsOfMembers before (valuesOfFields fields) =
      .ok ((settleBoundsOfFields fields).foldl (fun d f ↦ Dictionary.insert f.1 f.2 d) before) := by
  induction fields generalizing before with
  | nil => rfl
  | cons f fields ih =>
    rw [valuesOfFields, fieldsOfMembers, each f List.mem_cons_self]
    exact ih (fun g hg ↦ each g (List.mem_cons_of_mem _ hg)) _

private theorem ofValue_toValue {s : Schema} (hs : s.Normal) :
    ofValue s.toValue = .ok s.settleBounds := by
  induction s using Schema.induct with
  | table fields ih =>
    -- Fields are inserted one by one, which leaves them as they are since they are sorted.
    have sorted : Dictionary.Sorted (settleBoundsOfFields fields) := by
      rw [Dictionary.Sorted, keys_settleBoundsOfFields]
      exact hs.1
    have read := fieldsOfMembers_valuesOfFields
      (fun f hf ↦ ih f hf (normalFields_iff.mp hs.2 f hf)) []
    have known : fieldsOfValue (.table (valuesOfFields fields)) =
        .ok (settleBoundsOfFields fields) := by
      rw [fieldsOfValue, read]
      exact congrArg Except.ok sorted.ofList_eq
    rw [toValue_eq, ofValue_of_split (split_kindMember _), Draft.finish]
    change ofMembers .table {} [("fields", .table (valuesOfFields fields))] = _
    simp [ofMembers, known, Parts.finish, settleBounds]
  | list element bound ih =>
    obtain ⟨bound?, hb, read⟩ := @ofMembers_boundMember .list (.inl rfl) bound
      { element? := some element.settleBounds } rfl
    rw [toValue_eq, ofValue_of_split (split_kindMember _), Draft.finish]
    change ofMembers .list {} (("element", element.toValue) :: boundMember bound) = _
    rw [ofMembers, ih hs, settleBounds_list, ← hb]
    exact read
  | string bound =>
    rw [toValue_eq, ofValue_of_split (split_kindMember _), Draft.finish]
    obtain ⟨bound?, hb, read⟩ := @ofMembers_boundMember .string (.inr rfl) bound {} rfl
    change ofMembers .string {} (boundMember bound) = _
    rw [read, settleBounds_string, ← hb]
    rfl
  | number | bool | any => rfl

/-- A text of a schema says it with its bounds settled. -/
theorem ofJson_of_spells {s : Schema} (hs : s.Normal) {t : Bytes}
    (h : Json.Spells Json.depthLimit s.toValue t) : ofJson t = .ok s.settleBounds := by
  have said := h.parse
  rw [toValue_eq] at said
  rw [ofJson_of_split said s.split_kindMember, ← toValue_eq, ofValue_toValue hs]
  rfl

/-- A text of a schema is refused for its nesting if it opens too many brackets at once. -/
theorem ofJson_of_spells_of_lt_levels {limit : Nat} {s : Schema} (hl : Json.depthLimit < s.levels)
    {t : Bytes} (h : Json.Spells limit s.toValue t) :
    ∃ e, ofJson t = .error e ∧ e.cause = .tooDeep := by
  rw [← nesting_toValue] at hl
  rw [toValue_eq] at h hl
  exact ofJson_of_spells_deep h s.split_kindMember hl

/-! ## There and back -/

/-- A schema that another is read back as. -/
structure Restores (s t : Schema) : Prop where
  /-- Every bound that bounds nothing is zero. -/
  settled : t = s.settleBounds
  /-- The compact text is the same. -/
  compact : t.toJson = s.toJson
  /-- The pretty text is the same. -/
  pretty : t.toPrettyJson = s.toPrettyJson
  /-- The depth is the same. -/
  depth : t.depth = s.depth
  /-- The verdict on every value is the same, with the same violation. -/
  verdict : ∀ v, t.check v = s.check v

private theorem restores_settleBounds (s : Schema) : Restores s s.settleBounds := by
  refine ⟨rfl, ?_, ?_, s.depth_settleBounds, fun v ↦ s.checkAt_settleBounds v _⟩
  · rw [toJson, toJson, toValue_settleBounds]
  · rw [toPrettyJson, toPrettyJson, toValue_settleBounds]

/-- A schema is read back from its compact and its pretty text, with zero for every bound that
bounds nothing, if its text has no more brackets open at once than a reader allows: one for each
scalar and list and two for each table, and so at most two for each level of the schema. -/
theorem schema_is_restored_from_its_texts {s : Schema} (hs : s.Normal) :
    s.toValue.nesting = s.levels ∧ (s.depth ≤ 63 → s.levels ≤ Json.depthLimit) ∧
    (s.levels ≤ Json.depthLimit →
      ∃ t, ofJson s.toJson = .ok t ∧ ofJson s.toPrettyJson = .ok t ∧ Restores s t) := by
  refine ⟨s.nesting_toValue, ?_, ?_⟩
  · intro hd
    have := s.levels_le
    rw [Json.depthLimit]
    omega
  · intro hl
    have hn : s.toValue.nesting ≤ Json.depthLimit := s.nesting_toValue ▸ hl
    refine ⟨s.settleBounds, ?_, ?_, s.restores_settleBounds⟩
    · exact ofJson_of_spells hs (Json.spells_print s.doubleFree_toValue hn)
    · exact ofJson_of_spells hs (Json.spells_printPretty 0 s.doubleFree_toValue hn)

/-- A table with a list of short texts, whose own bound bounds nothing. -/
theorem table_of_unbounded_list_is_restored :
    ofJson (table [("tags", .list (.string 8) (-1))]).toJson =
        .ok (table [("tags", .list (.string 8) 0)]) ∧
      ofJson (table [("tags", .list (.string 8) (-1))]).toPrettyJson =
        .ok (table [("tags", .list (.string 8) 0)]) := by
  obtain ⟨-, enough, restored⟩ := @schema_is_restored_from_its_texts
    (table [("tags", .list (.string 8) (-1))])
    ⟨by unfold Dictionary.Sorted; decide, trivial, trivial⟩
  obtain ⟨t, compact, pretty, restores⟩ := restored (enough (by decide))
  obtain rfl : t = table [("tags", .list (.string 8) 0)] := restores.settled
  exact ⟨compact, pretty⟩

end Schema

end SchemaDoc
