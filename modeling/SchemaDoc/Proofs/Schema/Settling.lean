import SchemaDoc.Proofs.Schema.Conformance
import SchemaDoc.Schema.Printer

/-!
# Bounds that bound nothing

A bound that is not positive bounds nothing, and its text is left out. With zero for every such
bound a schema is another one, but nothing tells the two apart: they have the same text and the same
depth, and they find the same fault in every value.
-/

namespace SchemaDoc.Schema

/-! ## Bounds -/

/-- A bound as a text keeps it. -/
def settled (bound : Int64) : Int64 := if 0 < bound.toInt then bound else 0

private theorem effective?_settled (bound : Int64) :
    effective? (settled bound) = effective? bound := by
  rw [settled]
  split
  · rfl
  · next h => rw [effective?, effective?, if_neg h, if_neg (by decide)]

private theorem boundMember_settled (bound : Int64) :
    boundMember (settled bound) = boundMember bound := by
  rw [settled]
  split
  · rfl
  · next h => rw [boundMember, boundMember, if_neg h, if_neg (by decide)]

/-- The bound of a list is settled, and its element. -/
theorem settleBounds_list (element : Schema) (bound : Int64) :
    (list element bound).settleBounds = list element.settleBounds (settled bound) := by
  rw [settleBounds, settled]

/-- The bound of a text is settled. -/
theorem settleBounds_string (bound : Int64) :
    (string bound).settleBounds = string (settled bound) := by
  rw [settleBounds, settled]

/-! ## Texts and depths -/

/-- The text of a schema leaves out the bounds that bound nothing. -/
theorem toValue_settleBounds (s : Schema) : s.settleBounds.toValue = s.toValue := by
  induction s using Schema.induct with
  | table fields ih =>
    have each : valuesOfFields (settleBoundsOfFields fields) = valuesOfFields fields := by
      induction fields with
      | nil => rfl
      | cons f fields ihf =>
        rw [settleBoundsOfFields, valuesOfFields, valuesOfFields, ih f List.mem_cons_self,
          ihf fun g hg ↦ ih g (List.mem_cons_of_mem _ hg)]
    rw [settleBounds, toValue, toValue, each]
  | list element bound ih =>
    rw [settleBounds_list, toValue, toValue, ih, boundMember_settled]
  | string bound => rw [settleBounds_string, toValue, toValue, boundMember_settled]
  | number | bool | any => rfl

/-- Bounds have no levels. -/
theorem depth_settleBounds (s : Schema) : s.settleBounds.depth = s.depth := by
  induction s using Schema.induct with
  | table fields ih =>
    have each : depthOfFields (settleBoundsOfFields fields) = depthOfFields fields := by
      induction fields with
      | nil => rfl
      | cons f fields ihf =>
        rw [settleBoundsOfFields, depthOfFields, depthOfFields, ih f List.mem_cons_self,
          ihf fun g hg ↦ ih g (List.mem_cons_of_mem _ hg)]
    rw [settleBounds, depth, depth, each]
  | list element bound ih => rw [settleBounds_list, depth, depth, ih]
  | string bound => rw [settleBounds_string, depth, depth]
  | number | bool | any => rfl

/-! ## Verdicts -/

/-- The same names are declared. -/
theorem keys_settleBoundsOfFields (fields : List (String × Schema)) :
    Dictionary.keys (settleBoundsOfFields fields) = Dictionary.keys fields := by
  induction fields with
  | nil => rfl
  | cons f fields ih => simpa [settleBoundsOfFields, Dictionary.keys] using ih

private theorem checkKeys_settleBoundsOfFields (fields : List (String × Schema)) (path : String)
    (members : Dictionary Value) :
    checkKeys (settleBoundsOfFields fields) path members = checkKeys fields path members := by
  have declared (key : String) : Dictionary.contains key (settleBoundsOfFields fields) =
      Dictionary.contains key fields := by
    apply Bool.eq_iff_iff.mpr
    rw [Dictionary.contains_eq_true_iff, Dictionary.contains_eq_true_iff,
      keys_settleBoundsOfFields]
  induction members with
  | nil => rfl
  | cons m members ih => rw [checkKeys, checkKeys, declared, ih]

/-- The first violation found is the same in every value. -/
theorem checkAt_settleBounds (s : Schema) (v : Value) (path : String) :
    s.settleBounds.checkAt v path = s.checkAt v path := by
  induction s using Schema.induct generalizing v path with
  | table fields ih =>
    rw [settleBounds]
    cases v with
    | table members =>
      have each : checkFields (settleBoundsOfFields fields) members path =
          checkFields fields members path := by
        induction fields with
        | nil => rfl
        | cons f fields ihf =>
          rw [settleBoundsOfFields, checkFields, checkFields,
            ihf fun g hg ↦ ih g (List.mem_cons_of_mem _ hg)]
          simp only [ih f List.mem_cons_self]
      rw [checkAt, checkAt, checkKeys_settleBoundsOfFields, each]
    | null | bool | number | string | list => rfl
  | list element bound ih =>
    have same : element.settleBounds.checkAt = element.checkAt :=
      funext fun v ↦ funext fun path ↦ ih v path
    rw [settleBounds_list]
    cases v with
    | list items =>
      rw [checkAt, checkAt, same, checkListWith, checkListWith, checkLength, checkLength,
        effective?_settled]
    | null | bool | number | string | table => rfl
  | string bound =>
    rw [settleBounds_string]
    cases v with
    | string text => rw [checkAt, checkAt, effective?_settled]
    | null | bool | number | list | table => rfl
  | number | bool | any => rfl

end SchemaDoc.Schema
