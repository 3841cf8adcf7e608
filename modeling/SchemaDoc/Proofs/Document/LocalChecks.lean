import SchemaDoc.Proofs.Document.Conforming

/-!
# Changes that are checked by themselves

A set field and an added item are checked by themselves, at the place where they will stand. In a
payload without violation that is as good as checking the whole changed payload, since whatever else
stands there passes. Only the order differs: a whole list is measured before its items are looked
at, and an added item is looked at before the list is measured. An item that is broken and finds no
room is therefore reported for what is broken in it.
-/

namespace SchemaDoc

namespace Schema

/-! ## A field among others -/

private theorem passes_of_checkAt_table {fields : List (String × Schema)}
    {members : Dictionary Value}
    {path : String} (h : (table fields).checkAt (.table members) path = .ok ()) :
    (∀ m ∈ members, checkKey fields path m = .ok ()) ∧
      ∀ f ∈ fields, checkField members path f = .ok () := by
  rw [checkAt] at h
  split at h
  · cases h
  · next hk =>
    rw [checkKeys_eq_forM] at hk
    rw [checkFields_eq_forM] at h
    exact ⟨forM_eq_ok_iff.mp hk, forM_eq_ok_iff.mp h⟩

private theorem checkAt_insert {fields : List (String × Schema)} (hs : Dictionary.Sorted fields)
    {members : Dictionary Value} {path : String}
    (h : (table fields).checkAt (.table members) path = .ok ()) (key : String) (v : Value) :
    (table fields).checkAt (.table (Dictionary.insert key v members)) path =
      match Dictionary.find? key fields with
      | none => .error (.extraField (Path.field path key))
      | some field => field.checkAt v (Path.field path key) := by
  obtain ⟨keys, each⟩ := passes_of_checkAt_table h
  have value (other : String) : Dictionary.find? other (Dictionary.insert key v members) =
      if key = other then some v else Dictionary.find? other members :=
    Dictionary.find?_insert key other v members
  have hk : checkKeys fields path (Dictionary.insert key v members) =
      checkKey fields path (key, v) := by
    rw [checkKeys_eq_forM]
    apply forM_eq_of_others
    · apply Dictionary.mem_of_find?
      rw [value, if_pos rfl]
    · intro m hm hne
      rcases Dictionary.mem_insert hm with rfl | hm
      · exact absurd rfl hne
      · exact keys m hm
  rw [checkAt, hk, checkKey, Dictionary.contains]
  cases hf : Dictionary.find? key fields with
  | none => rfl
  | some field =>
    have hm : (key, field) ∈ fields := Dictionary.mem_of_find? hf
    have hv : checkFields fields (Dictionary.insert key v members) path =
        checkField (Dictionary.insert key v members) path (key, field) := by
      rw [checkFields_eq_forM]
      apply forM_eq_of_others hm
      intro f hff hne
      -- The names of fields are unique, so another field looks at another key.
      have hk : key ≠ f.1 := fun he ↦ hne (hs.eq_of_mem hff hm he.symm)
      rw [checkField, value, if_neg hk]
      exact each f hff
    dsimp only [Option.isSome_some]
    rw [if_pos rfl]
    dsimp only
    rw [hv, checkField, value, if_pos rfl]

/-! ## An item behind others -/

private theorem checkItems_append (checkItem : Value → String → Verdict) (path : String)
    (index : Nat) (items others : List Value) : checkItems checkItem path index (items ++ others) =
      (checkItems checkItem path index items >>= fun () ↦
        checkItems checkItem path (index + items.length) others) := by
  induction items generalizing index with
  | nil => rfl
  | cons v items ih =>
    rw [List.cons_append, checkItems, checkItems, ih, List.length_cons, Nat.add_comm items.length,
      ← Nat.add_assoc]
    cases checkItem v (Path.item path index) <;> rfl

private theorem checkAt_append {element : Schema} {bound : Int64} {items : List Value}
    {path : String} (h : (list element bound).checkAt (.list items) path = .ok ()) (v : Value) :
    (list element bound).checkAt (.list (items ++ [v])) path =
      (checkLength bound (items.length + 1) path >>= fun () ↦
        element.checkAt v (Path.item path items.length)) := by
  have passed : checkItems (checkAt element) path 0 items = .ok () := by
    rw [checkAt, checkListWith] at h
    split at h
    · cases h
    · exact h
  have last : checkItems (checkAt element) path 0 (items ++ [v]) =
      element.checkAt v (Path.item path items.length) := by
    rw [checkItems_append, passed, Nat.zero_add]
    change checkItems (checkAt element) path items.length [v] = _
    rw [checkItems, checkItems]
    cases element.checkAt v (Path.item path items.length) <;> rfl
  rw [checkAt, checkListWith, last, List.length_append, List.length_singleton]
  cases checkLength bound (items.length + 1) path <;> rfl

/-- A list of a length that its bound does not let grow. -/
def Full (bound : Int64) (length : Nat) : Prop := 0 < bound.toInt ∧ bound.toInt ≤ length

private theorem full_iff {bound : Int64} {length : Nat} :
    Full bound length ↔ ¬Within bound (length + 1) := by
  unfold Full Within
  omega

end Schema

namespace CheckedDocument

private theorem check_insert {schema : Schema} (hs : schema.Normal) {members : Dictionary Value}
    (h : schema.check (.table members) = .ok ()) (key : String) (v : Value) :
    schema.check (.table (Dictionary.insert key v members)) = checkSet schema key v := by
  cases schema with
  | table fields => exact Schema.checkAt_insert hs.1 h key v
  | any => rfl
  | list | number | string | bool => cases h

/-- A list of some length is full, and an item to be added has a violation of its own. -/
def Crowded (schema : Schema) (length : Nat) (v : Value) (violation : Violation) : Prop :=
  ∃ element bound, schema = .list element bound ∧ Schema.Full bound length ∧
    element.checkAt v (Path.item Path.root length) = .error violation

private theorem Crowded.verdicts {schema : Schema} {items : List Value} {v : Value}
    {violation : Violation}
    (h : Crowded schema items.length v violation) (passed : schema.check (.list items) = .ok ()) :
    checkAppend schema items.length v = .error violation ∧ ∃ max, schema.maxLength? = some max ∧
      schema.check (.list (items ++ [v])) =
        .error (.tooLong Path.root max (items.length + 1)) := by
  obtain ⟨element, bound, rfl, full, broken⟩ := h
  have beyond : ¬Schema.Within bound (items.length + 1) := Schema.full_iff.mp full
  constructor
  · rw [checkAppend_list, broken]
    rfl
  · refine ⟨bound.toInt.toNat, (Schema.effective?_of_not_within beyond).1, ?_⟩
    rw [Schema.check, Schema.checkAt_append passed]
    rcases Schema.checkLength_eq bound (items.length + 1) Path.root with ⟨hw, -⟩ | ⟨-, hc⟩
    · exact absurd hw beyond
    · rw [hc]
      rfl

private theorem check_append {schema : Schema} {items : List Value} {v : Value}
    (passed : schema.check (.list items) = .ok ())
    (h : ∀ violation, ¬Crowded schema items.length v violation) :
    schema.check (.list (items ++ [v])) = checkAppend schema items.length v := by
  cases schema with
  | list element bound =>
    rw [checkAppend_list, Schema.check, Schema.checkAt_append passed]
    rcases Schema.checkLength_eq bound (items.length + 1) Path.root with ⟨-, hc⟩ | ⟨hw, hc⟩
    · rw [hc]
      cases element.checkAt v (Path.item Path.root items.length) <;> rfl
    · cases broken : element.checkAt v (Path.item Path.root items.length) with
      | ok u =>
        rw [hc]
        rfl
      | error violation =>
        exact absurd ⟨element, bound, rfl, Schema.full_iff.mpr hw, broken⟩ (h violation)
  | any => rfl
  | table | number | string | bool => cases passed

/-! ## Set fields -/

/-- In a table without violation a field is set exactly if the whole table with it has none. That
table, in which no other key is touched, is then the payload; otherwise its violation is reported
and nothing changes. -/
theorem set_is_checked_as_whole_table {c : CheckedDocument .table} (hs : c.schema.Normal)
    {members : Dictionary Value} (read : (decode.run c).answer = .ok members)
    (passed : c.schema.check (.table members) = .ok ()) (key : String) (v : Value) :
    ((set key v).result c =
      match c.schema.check (.table (Dictionary.insert key v.normalize members)) with
      | .ok () => (.ok (), ⟨.decoded (Dictionary.insert key v.normalize members), c.schema⟩)
      | .error violation => (.error (.violation violation), c)) ∧
    ∀ other, Dictionary.find? other (Dictionary.insert key v.normalize members) =
      if key = other then some v.normalize else Dictionary.find? other members := by
  constructor
  · rw [answer_decode] at read
    rw [result_set, check_insert hs passed]
    cases checkSet c.schema key v.normalize with
    | ok u => simp only [read]
    | error violation => rfl
  · intro other
    exact Dictionary.find?_insert key other v.normalize members

/-- Raw bytes under a schema of two fields: a list that breaks in its second item is reported there,
and one that does not is set beside the field that the bytes say. -/
theorem broken_item_of_field_is_found :
    ∃ c : CheckedDocument .table, c.document.state = .raw ∧
      (set "b" (.list [.bool true, .null])).result c =
        (.error (.violation (.wrongType "b[1]" "bool" "null")), c) ∧
      (set "b" (.list [.bool true])).result c =
        (.ok (), ⟨.decoded [("a", .string "x"), ("b", .list [.bool true])], c.schema⟩) := by
  let c : CheckedDocument .table :=
    ⟨.raw (Json.asciiBytes ['\x7b', '"', 'a', '"', ':', '"', 'x', '"', '\x7d']),
      .table [("a", .string 1), ("b", .list .bool 0)]⟩
  have normal : c.schema.Normal := ⟨by unfold Dictionary.Sorted; decide, trivial, trivial, trivial⟩
  have read : (decode.run c).answer = .ok [("a", .string "x")] := by rfl
  have refused := set_is_checked_as_whole_table normal read (by rfl) "b"
    (.list [.bool true, .null])
  have taken := set_is_checked_as_whole_table normal read (by rfl) "b" (.list [.bool true])
  exact ⟨c, rfl, refused.1, taken.1⟩

/-! ## Added items -/

/-- What comes of adding an item to a list of some items, compared with a check of the whole list
with the item behind them. -/
structure AddedAsWhole (c : CheckedDocument .list) (items : List Value) (v : Value) : Prop where
  /-- The item is added exactly if the whole list has no violation. -/
  accepted : ((append v).run c).answer = .ok () ↔
    c.schema.check (.list (items ++ [v.normalize])) = .ok ()
  /-- An item that is added stands behind the others, and nothing else changes. -/
  added : ((append v).run c).answer = .ok () →
    (decode.run ((append v).run c).state).answer = .ok (items ++ [v.normalize] : List Value)
  /-- An item that is refused leaves the items as they are. -/
  refused : ∀ e, ((append v).run c).answer = .error e →
    (decode.run ((append v).run c).state).answer = .ok items
  /-- What is reported is the violation of the whole list, unless the item is broken and finds no
  room. -/
  reported : (∀ violation, ¬Crowded c.schema items.length v.normalize violation) →
    ((append v).run c).answer =
      (c.schema.check (.list (items ++ [v.normalize]))).mapError .violation
  /-- In that case it is the violation of the item, where the whole list is too long. -/
  crowded : ∀ violation, Crowded c.schema items.length v.normalize violation →
    ((append v).run c).answer = .error (.violation violation) ∧
      ∃ max, c.schema.maxLength? = some max ∧
        c.schema.check (.list (items ++ [v.normalize])) =
          .error (.tooLong Path.root max (items.length + 1))

/-- The document behind a run of items that are added one after the other, each if it can be. -/
def appendAll (c : CheckedDocument .list) (vs : List Value) : CheckedDocument .list :=
  vs.foldl (fun c v ↦ ((append v).run c).state) c

variable {c : CheckedDocument .list} {items : List Value}

private theorem answer_append (read : c.document.reading = .ok items) (v : Value) :
    ((append v).run c).answer =
      (checkAppend c.schema items.length v.normalize).mapError .violation := by
  change ((append v).result c).1 = _
  rw [result_append, read]
  dsimp only
  cases checkAppend c.schema (List.length items) v.normalize <;> rfl

private theorem reading_append (read : c.document.reading = .ok items) (v : Value) :
    ((append v).run c).state.document.reading =
      match checkAppend c.schema items.length v.normalize with
      | .ok () => .ok (items ++ [v.normalize] : List Value)
      | .error _ => .ok items := by
  change ((append v).result c).2.document.reading = _
  rw [result_append, read]
  dsimp only
  cases checkAppend c.schema (List.length items) v.normalize with
  | ok u => rfl
  | error violation => exact (Document.reading_afterReading c.document).trans read

private theorem answer_append_eq_ok_iff (read : c.document.reading = .ok items) {v : Value} :
    ((append v).run c).answer = .ok () ↔
      checkAppend c.schema items.length v.normalize = .ok () := by
  rw [answer_append read]
  cases checkAppend c.schema items.length v.normalize with
  | ok u => exact iff_of_true rfl rfl
  | error violation => constructor <;> intro h <;> cases h

private theorem addedAsWhole (read : c.document.reading = .ok items)
    (passed : c.schema.check (.list items) = .ok ()) (v : Value) : AddedAsWhole c items v := by
  have own : ((append v).run c).answer = .ok () ↔ _ := answer_append_eq_ok_iff read
  constructor
  · by_cases h : ∃ violation, Crowded c.schema items.length v.normalize violation
    · obtain ⟨violation, crowded⟩ := h
      obtain ⟨broken, max, -, whole⟩ := crowded.verdicts passed
      rw [own, broken, whole]
      constructor <;> intro h <;> cases h
    · rw [own, check_append passed fun violation crowded ↦ h ⟨violation, crowded⟩]
  · intro added
    rw [answer_decode, reading_append read, own.mp added]
  · intro e refused
    rw [answer_decode, reading_append read]
    cases h : checkAppend c.schema items.length v.normalize with
    | ok u =>
      rw [own.mpr h] at refused
      cases refused
    | error violation => rfl
  · intro h
    rw [answer_append read, check_append passed h]
  · intro violation crowded
    obtain ⟨broken, whole⟩ := crowded.verdicts passed
    refine ⟨?_, whole⟩
    rw [answer_append read, broken]
    rfl

private theorem answer_append_of_unbounded {element : Schema} {bound : Int64}
    (hs : c.schema = .list element bound) (hb : bound.toInt ≤ 0)
    (read : c.document.reading = .ok items) (v : Value) : ((append v).run c).answer =
      (element.checkAt v.normalize (Path.item Path.root items.length)).mapError .violation := by
  have room : Schema.Within bound (items.length + 1) := fun h ↦ absurd h (Int.not_lt.mpr hb)
  rw [answer_append read, hs, checkAppend_list]
  rcases Schema.checkLength_eq bound (items.length + 1) Path.root with ⟨-, hc⟩ | ⟨hw, -⟩
  · rw [hc]
    cases element.checkAt v.normalize (Path.item Path.root items.length) <;> rfl
  · exact absurd room hw

private theorem within_append {element : Schema} {bound : Int64}
    (hs : c.schema = .list element bound)
    (read : c.document.reading = .ok items) (h : Schema.Within bound items.length) (v : Value) :
    ∃ others : List Value, ((append v).run c).state.document.reading = .ok others ∧
      Schema.Within bound others.length := by
  rw [reading_append read, hs]
  cases hc : checkAppend (.list element bound) items.length v.normalize with
  | ok u =>
    refine ⟨items ++ [v.normalize], rfl, ?_⟩
    rw [List.length_append, List.length_singleton]
    exact (checkAppend_list_eq_ok_iff.mp hc).2
  | error violation => exact ⟨items, rfl, h⟩

private theorem within_appendAll {element : Schema} {bound : Int64} (vs : List Value)
    (hs : c.schema = .list element bound) (read : c.document.reading = .ok items)
    (h : Schema.Within bound items.length) : ∃ others : List Value,
      (appendAll c vs).document.reading = .ok others ∧ Schema.Within bound others.length := by
  induction vs generalizing c items with
  | nil => exact ⟨items, read, h⟩
  | cons v vs ih =>
    obtain ⟨others, read', h'⟩ := within_append hs read h v
    have hs' : ((append v).run c).state.schema = .list element bound :=
      (schema_reply (.append v) c).trans hs
    exact ih hs' read' h'

/-- In a list without violation an item is added exactly if the whole list with it has none, and a
violation of the whole list is reported, unless an item that is broken itself finds no room. Where
nothing bounds the length it never refuses an item, and a bound is kept in every run of items that
are to be added to an empty list. -/
theorem append_is_checked_as_whole_list :
    (∀ (c : CheckedDocument .list) (items : List Value), (decode.run c).answer = .ok items →
      c.schema.check (.list items) = .ok () → ∀ v, AddedAsWhole c items v) ∧
    ∀ (c : CheckedDocument .list) (element : Schema) (bound : Int64),
      c.schema = .list element bound →
      (bound.toInt ≤ 0 → ∀ items : List Value, (decode.run c).answer = .ok items → ∀ v,
        ((append v).run c).answer = (element.checkAt v.normalize
          (Path.item Path.root items.length)).mapError .violation) ∧
      (0 < bound.toInt → (decode.run c).answer = .ok ([] : List Value) → ∀ vs,
        ∃ items : List Value, (decode.run (appendAll c vs)).answer = .ok items ∧
          (items.length : Int) ≤ bound.toInt) := by
  constructor
  · intro c items read passed v
    rw [answer_decode] at read
    exact addedAsWhole read passed v
  · intro c element bound hs
    constructor
    · intro hb items read v
      rw [answer_decode] at read
      exact answer_append_of_unbounded hs hb read v
    · intro hb read vs
      rw [answer_decode] at read
      have empty : Schema.Within bound ([] : List Value).length := fun h ↦ Int.le_of_lt h
      obtain ⟨items, there, within⟩ := within_appendAll vs hs read empty
      refine ⟨items, ?_, within hb⟩
      rw [answer_decode]
      exact there

/-- A full list refuses an item that is broken for what is broken in it, and any other item for its
length; and of two items that are to be added to an empty list with room for one, one is. -/
theorem full_list_refuses_items :
    (∃ c : CheckedDocument .list, AddedAsWhole c [.bool true] .null ∧
      ((append .null).run c).answer = .error (.violation (.wrongType "$root[1]" "bool" "null")) ∧
      ((append (.bool false)).run c).answer = .error (.violation (.tooLong "$root" 1 2))) ∧
    ∃ items : List Value, (decode.run (appendAll (.empty (.list .bool 1))
      [.bool true, .bool false])).answer = .ok items ∧ (items.length : Int) ≤ 1 := by
  constructor
  · let c : CheckedDocument .list :=
      ⟨.raw (Json.asciiBytes ['[', 't', 'r', 'u', 'e', ']']), .list .bool 1⟩
    have added := append_is_checked_as_whole_list.1 c [.bool true] (by rfl) (by rfl)
    refine ⟨c, added .null, ?_, ?_⟩
    · exact ((added .null).crowded _ ⟨.bool, 1, rfl, ⟨by decide, by decide⟩, rfl⟩).1
    · refine (added (.bool false)).reported fun violation crowded ↦ ?_
      obtain ⟨element, bound, he, -, broken⟩ := crowded
      cases he
      cases broken
  · exact (append_is_checked_as_whole_list.2 (.empty (.list .bool 1)) .bool 1 rfl).2 (by decide)
      (by rfl) [.bool true, .bool false]

end CheckedDocument

end SchemaDoc
