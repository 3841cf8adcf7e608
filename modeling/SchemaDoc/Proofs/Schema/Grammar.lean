import Mathlib.Logic.Relation
import SchemaDoc.Proofs.Schema.Reader

/-!
# The values that describe schemas

A value describes a schema if it is an object that names its kind once and gives each part that the
kind has at most once; other members do not count. Every value that describes a schema is read as
it. Two more forms are read as schemas: an array with the kind in front, and below the top an object
whose kind is given by its place among all kinds. In a value without these forms, what is read is
what is described.
-/

namespace SchemaDoc

/-- The values of the members of a key, in order. -/
def valuesOf (key : String) (members : List (String × Value)) : List Value :=
  (members.filter fun m ↦ m.1 = key).map Prod.snd

variable {key : String} {v : Value} {vs : List Value} {members : List (String × Value)}

/-- A member in front with the key gives the first value. -/
theorem valuesOf_cons_self (key : String) (v : Value) (members : List (String × Value)) :
    valuesOf key ((key, v) :: members) = v :: valuesOf key members := by
  simp [valuesOf]

/-- A member in front with another key gives no value. -/
theorem valuesOf_cons_of_ne {other : String} (h : other ≠ key) :
    valuesOf key ((other, v) :: members) = valuesOf key members := by
  simp [valuesOf, h]

private theorem mem_of_mem_valuesOf (h : v ∈ valuesOf key members) : (key, v) ∈ members := by
  obtain ⟨m, hm, rfl⟩ := List.mem_map.mp h
  obtain ⟨hm, hk⟩ := List.mem_filter.mp hm
  have hk : m.1 = key := by simpa using hk
  rwa [← hk]

namespace Schema

/-! ## Describing schemas -/

/-- The values given for a bound, of which there is at most one, say the bound: a whole number of 64
bits, or zero if there is none. -/
inductive DescribesBound : List Value → Int64 → Prop
  /-- No bound is given. -/
  | absent : DescribesBound [] 0
  /-- One bound is given. -/
  | given {i : Integer} {bound : Int64} (value : bound.toInt = i.val) :
    DescribesBound [.number (.integer i)] bound

mutual
/-- A value describes a schema. -/
inductive Describes : Value → Schema → Prop
  /-- A table with the fields that an object describes, of which the last of one name counts. -/
  | table {members inner : List (String × Value)} {fields : List (String × Schema)}
    (kind : valuesOf "kind" members = [.string "table"])
    (given : valuesOf "fields" members = [.table inner]) (each : DescribesFields inner fields) :
    Describes (.table members) (.table (Dictionary.ofList fields))
  /-- A table without fields. -/
  | bareTable {members : List (String × Value)}
    (kind : valuesOf "kind" members = [.string "table"])
    (absent : valuesOf "fields" members = []) : Describes (.table members) (.table [])
  /-- A list of items of a schema. -/
  | list {members : List (String × Value)} {u : Value} {element : Schema} {bound : Int64}
    (kind : valuesOf "kind" members = [.string "list"])
    (given : valuesOf "element" members = [u]) (item : Describes u element)
    (bounded : DescribesBound (valuesOf "max_length" members) bound) :
    Describes (.table members) (.list element bound)
  /-- A text. -/
  | string {members : List (String × Value)} {bound : Int64}
    (kind : valuesOf "kind" members = [.string "string"])
    (bounded : DescribesBound (valuesOf "max_length" members) bound) :
    Describes (.table members) (.string bound)
  /-- A number. -/
  | number {members : List (String × Value)}
    (kind : valuesOf "kind" members = [.string "number"]) : Describes (.table members) .number
  /-- A truth value. -/
  | bool {members : List (String × Value)}
    (kind : valuesOf "kind" members = [.string "bool"]) : Describes (.table members) .bool
  /-- Anything. -/
  | any {members : List (String × Value)}
    (kind : valuesOf "kind" members = [.string "any"]) : Describes (.table members) .any

/-- The values of some members describe the schemas of fields of the same names. -/
inductive DescribesFields : List (String × Value) → List (String × Schema) → Prop
  /-- There are no more members. -/
  | nil : DescribesFields [] []
  /-- The first member is the first field. -/
  | cons {name : String} {v : Value} {s : Schema} {members : List (String × Value)}
    {fields : List (String × Schema)} (first : Describes v s)
    (rest : DescribesFields members fields) :
    DescribesFields ((name, v) :: members) ((name, s) :: fields)
end

/-! ## What a row of members is read as -/

/-- Of the values given for a part, which may be given once, the part is read: `new?` is the part
afterwards, `old?` the one before. -/
def TakesOne {α : Type} (read : Value → Except Json.Cause α) (old? : Option α) (vs : List Value)
    (new? : Option α) : Prop :=
  vs = [] ∧ new? = old? ∨ old? = none ∧ ∃ v a, vs = [v] ∧ read v = .ok a ∧ new? = some a

variable {α : Type} {read : Value → Except Json.Cause α} {old? new? : Option α} {a : α}

/-- Without a value the old one stays. -/
theorem takesOne_nil : TakesOne read old? [] new? ↔ new? = old? := by
  simp [TakesOne]

/-- The first value is read, and there are no others. -/
theorem takesOne_cons : TakesOne read old? (v :: vs) new? ↔
    old? = none ∧ ∃ a, read v = .ok a ∧ TakesOne read (some a) vs new? := by
  constructor
  · rintro (⟨h, -⟩ | ⟨rfl, u, a, h, hr, rfl⟩)
    · cases h
    · obtain ⟨rfl, rfl⟩ := List.cons.inj h
      exact ⟨rfl, a, hr, .inl ⟨rfl, rfl⟩⟩
  · rintro ⟨rfl, a, hr, ⟨rfl, rfl⟩ | ⟨h, -⟩⟩
    · exact .inr ⟨rfl, v, a, rfl, hr, rfl⟩
    · cases h

/-- A part that has to be there is read of the one value that is given. -/
theorem takesOne_some : TakesOne read none vs (some a) ↔ ∃ v, vs = [v] ∧ read v = .ok a := by
  constructor
  · rintro (⟨-, h⟩ | ⟨-, v, b, rfl, hr, h⟩)
    · cases h
    · cases h
      exact ⟨v, rfl, hr⟩
  · rintro ⟨v, rfl, hr⟩
    exact .inr ⟨rfl, v, a, rfl, hr, rfl⟩

/-- A part that is not there afterwards was not given. -/
theorem takesOne_none : TakesOne read none vs none ↔ vs = [] := by
  constructor
  · rintro (⟨absent, -⟩ | ⟨-, _, _, -, -, h⟩)
    · exact absent
    · cases h
  · rintro rfl
    exact takesOne_nil.mpr rfl

private theorem kind_ofMembers_eq_ok_iff {found? : Option Kind} {kind : Kind} :
    Kind.ofMembers found? members = .ok kind ↔
      TakesOne Kind.ofValue found? (valuesOf "kind" members) (some kind) := by
  induction members generalizing found? with
  | nil =>
    rw [valuesOf, List.filter_nil, List.map_nil, takesOne_nil]
    cases found? <;> simp [Kind.ofMembers, eq_comm]
  | cons m members ih =>
    obtain ⟨key, v⟩ := m
    rw [Kind.ofMembers]
    by_cases hk : key = "kind"
    · subst hk
      rw [if_pos rfl, valuesOf_cons_self, takesOne_cons]
      cases found? with
      | some k => simp
      | none =>
        cases hv : Kind.ofValue v with
        | error e => simp
        | ok k => simp [ih]
    · rw [if_neg hk, valuesOf_cons_of_ne hk, ih]

/-- The parts that the members of an object give to a schema of a kind. -/
structure Gives (kind : Kind) (members : List (String × Value)) (old new : Parts) : Prop where
  /-- A list has a schema for its items. -/
  element : TakesOne ofValue old.element?
    (if kind = .list then valuesOf "element" members else []) new.element?
  /-- A list or a text has a bound. -/
  bound : TakesOne boundOfValue old.bound?
    (if kind = .list ∨ kind = .string then valuesOf "max_length" members else []) new.bound?
  /-- A table has fields. -/
  fields : TakesOne fieldsOfValue old.fields?
    (if kind = .table then valuesOf "fields" members else []) new.fields?

variable {kind : Kind} {parts new : Parts}

private theorem gives_nil : Gives kind [] parts new ↔ new = parts := by
  have none (key : String) : valuesOf key [] = [] := rfl
  constructor
  · rintro ⟨element, bound, fields⟩
    simp only [none, ite_self, takesOne_nil] at element bound fields
    cases new
    cases parts
    simp_all
  · rintro rfl
    constructor <;> simp [none, takesOne_nil]

private theorem gives_element_cons : Gives .list (("element", v) :: members) parts new ↔
    parts.element? = none ∧ ∃ s, ofValue v = .ok s ∧
      Gives .list members { parts with element? := some s } new := by
  have bounds : valuesOf "max_length" (("element", v) :: members) =
      valuesOf "max_length" members := valuesOf_cons_of_ne (by decide)
  constructor
  · rintro ⟨element, bound, fields⟩
    rw [if_pos rfl, valuesOf_cons_self, takesOne_cons] at element
    obtain ⟨free, s, hs, element⟩ := element
    rw [bounds] at bound
    exact ⟨free, s, hs, by rwa [if_pos rfl], bound, fields⟩
  · rintro ⟨free, s, hs, element, bound, fields⟩
    rw [if_pos rfl] at element
    refine ⟨?_, by rwa [bounds], fields⟩
    rw [if_pos rfl, valuesOf_cons_self, takesOne_cons]
    exact ⟨free, s, hs, element⟩

private theorem gives_bound_cons (hk : kind = .list ∨ kind = .string) :
    Gives kind (("max_length", v) :: members) parts new ↔
      parts.bound? = none ∧ ∃ bound, boundOfValue v = .ok bound ∧
        Gives kind members { parts with bound? := some bound } new := by
  have elements : valuesOf "element" (("max_length", v) :: members) =
      valuesOf "element" members := valuesOf_cons_of_ne (by decide)
  have fields_eq : valuesOf "fields" (("max_length", v) :: members) =
      valuesOf "fields" members := valuesOf_cons_of_ne (by decide)
  constructor
  · rintro ⟨element, bound, fields⟩
    rw [if_pos hk, valuesOf_cons_self, takesOne_cons] at bound
    obtain ⟨free, b, hb, bound⟩ := bound
    rw [elements] at element
    rw [fields_eq] at fields
    exact ⟨free, b, hb, element, by rwa [if_pos hk], fields⟩
  · rintro ⟨free, b, hb, element, bound, fields⟩
    rw [if_pos hk] at bound
    refine ⟨by rwa [elements], ?_, by rwa [fields_eq]⟩
    rw [if_pos hk, valuesOf_cons_self, takesOne_cons]
    exact ⟨free, b, hb, bound⟩

private theorem gives_fields_cons : Gives .table (("fields", v) :: members) parts new ↔
    parts.fields? = none ∧ ∃ fields, fieldsOfValue v = .ok fields ∧
      Gives .table members { parts with fields? := some fields } new := by
  constructor
  · rintro ⟨element, bound, fields⟩
    rw [if_pos rfl, valuesOf_cons_self, takesOne_cons] at fields
    obtain ⟨free, fs, hf, fields⟩ := fields
    exact ⟨free, fs, hf, element, bound, by rwa [if_pos rfl]⟩
  · rintro ⟨free, fs, hf, element, bound, fields⟩
    rw [if_pos rfl] at fields
    refine ⟨element, bound, ?_⟩
    rw [if_pos rfl, valuesOf_cons_self, takesOne_cons]
    exact ⟨free, fs, hf, fields⟩

private theorem gives_other_cons (element : ¬(kind = .list ∧ key = "element"))
    (bound : ¬((kind = .list ∨ kind = .string) ∧ key = "max_length"))
    (fields : ¬(kind = .table ∧ key = "fields")) :
    Gives kind ((key, v) :: members) parts new ↔ Gives kind members parts new := by
  have passed (name : String) (p : Prop) [Decidable p] (h : ¬(p ∧ key = name)) :
      (if p then valuesOf name ((key, v) :: members) else []) =
        if p then valuesOf name members else [] := by
    split
    · next hp => exact valuesOf_cons_of_ne fun he ↦ h ⟨hp, he⟩
    · rfl
  constructor
  · rintro ⟨he, hb, hf⟩
    exact ⟨passed _ _ element ▸ he, passed _ _ bound ▸ hb, passed _ _ fields ▸ hf⟩
  · rintro ⟨he, hb, hf⟩
    exact ⟨(passed _ _ element).symm ▸ he, (passed _ _ bound).symm ▸ hb,
      (passed _ _ fields).symm ▸ hf⟩

private theorem ofMembers_eq_ok_iff {s : Schema} : ofMembers kind parts members = .ok s ↔
    ∃ given, Gives kind members parts given ∧ given.finish kind = .ok s := by
  induction members generalizing parts with
  | nil => simp [ofMembers, gives_nil]
  | cons m members ih =>
    obtain ⟨key, v⟩ := m
    rw [ofMembers]
    split
    · next element =>
      obtain ⟨rfl, rfl⟩ := element
      simp only [gives_element_cons]
      cases parts.element? with
      | some e => simp
      | none => cases ofValue v <;> simp [ih]
    next element =>
    split
    · next bound =>
      obtain ⟨hk, rfl⟩ := bound
      simp only [gives_bound_cons hk]
      cases parts.bound? with
      | some b => simp
      | none => cases boundOfValue v <;> simp [ih]
    next bound =>
    split
    · next fields =>
      obtain ⟨rfl, rfl⟩ := fields
      simp only [gives_fields_cons]
      cases parts.fields? with
      | some fs => simp
      | none => cases fieldsOfValue v <;> simp [ih]
    next fields =>
    simp only [gives_other_cons element bound fields, ih]

/-! ## What each kind asks of its members -/

private theorem boundOfValue_eq_ok_iff {bound : Int64} : boundOfValue v = .ok bound ↔
    ∃ i : Integer, v = .number (.integer i) ∧ bound.toInt = i.val := by
  constructor
  · intro h
    unfold boundOfValue at h
    split at h
    · next i =>
      split at h
      · cases h
        exact ⟨i, rfl, Int64.toInt_ofIntLE⟩
      · cases h
    · cases h
  · rintro ⟨i, rfl, hb⟩
    have lt : bound.toInt < 0x8000000000000000 := bound.toInt_lt
    simp only [boundOfValue, ← hb, dif_pos lt, Int64.ofIntLE_toInt]

private theorem describesBound_iff {bound : Int64} : DescribesBound vs bound ↔
    ∃ bound?, TakesOne boundOfValue none vs bound? ∧ bound?.getD 0 = bound := by
  constructor
  · intro h
    cases h with
    | absent => exact ⟨none, takesOne_nil.mpr rfl, rfl⟩
    | @given i bound value =>
      have read := boundOfValue_eq_ok_iff.mpr ⟨i, rfl, value⟩
      exact ⟨some bound, takesOne_some.mpr ⟨_, rfl, read⟩, rfl⟩
  · rintro ⟨bound?, taken, rfl⟩
    cases bound? with
    | none =>
      obtain rfl := takesOne_none.mp taken
      exact .absent
    | some bound =>
      obtain ⟨v, rfl, read⟩ := takesOne_some.mp taken
      obtain ⟨i, rfl, value⟩ := boundOfValue_eq_ok_iff.mp read
      exact .given value

private theorem ofMembers_list_eq_ok_iff {s : Schema} : ofMembers .list {} members = .ok s ↔
    ∃ u element bound, valuesOf "element" members = [u] ∧ ofValue u = .ok element ∧
      DescribesBound (valuesOf "max_length" members) bound ∧ s = .list element bound := by
  rw [ofMembers_eq_ok_iff]
  constructor
  · rintro ⟨⟨element?, bound?, fields?⟩, ⟨element, bound, -⟩, h⟩
    rw [if_pos rfl] at element
    rw [if_pos (.inl rfl)] at bound
    cases element? with
    | none => cases h
    | some e =>
      obtain ⟨u, given, hu⟩ := takesOne_some.mp element
      cases h
      exact ⟨u, e, _, given, hu, describesBound_iff.mpr ⟨bound?, bound, rfl⟩, rfl⟩
  · rintro ⟨u, e, b, given, hu, bound, rfl⟩
    obtain ⟨bound?, taken, rfl⟩ := describesBound_iff.mp bound
    refine ⟨⟨some e, bound?, none⟩, ⟨?_, ?_, ?_⟩, rfl⟩
    · rw [if_pos rfl]
      exact takesOne_some.mpr ⟨u, given, hu⟩
    · rwa [if_pos (.inl rfl)]
    · exact takesOne_nil.mpr rfl

private theorem ofMembers_string_eq_ok_iff {s : Schema} : ofMembers .string {} members = .ok s ↔
    ∃ bound, DescribesBound (valuesOf "max_length" members) bound ∧ s = .string bound := by
  rw [ofMembers_eq_ok_iff]
  constructor
  · rintro ⟨⟨element?, bound?, fields?⟩, ⟨-, bound, -⟩, h⟩
    rw [if_pos (.inr rfl)] at bound
    cases h
    exact ⟨_, describesBound_iff.mpr ⟨bound?, bound, rfl⟩, rfl⟩
  · rintro ⟨b, bound, rfl⟩
    obtain ⟨bound?, taken, rfl⟩ := describesBound_iff.mp bound
    refine ⟨⟨none, bound?, none⟩, ⟨?_, ?_, ?_⟩, rfl⟩
    · exact takesOne_nil.mpr rfl
    · rwa [if_pos (.inr rfl)]
    · exact takesOne_nil.mpr rfl

private theorem ofMembers_table_eq_ok_iff {s : Schema} : ofMembers .table {} members = .ok s ↔
    valuesOf "fields" members = [] ∧ s = .table [] ∨
      ∃ u fields, valuesOf "fields" members = [u] ∧ fieldsOfValue u = .ok fields ∧
        s = .table fields := by
  rw [ofMembers_eq_ok_iff]
  constructor
  · rintro ⟨⟨element?, bound?, fields?⟩, ⟨-, -, fields⟩, h⟩
    rw [if_pos rfl] at fields
    cases h
    rcases fields with ⟨absent, rfl⟩ | ⟨-, u, fs, given, hu, rfl⟩
    · exact .inl ⟨absent, rfl⟩
    · exact .inr ⟨u, fs, given, hu, rfl⟩
  · intro h
    have taken : ∃ fields?, TakesOne fieldsOfValue none (valuesOf "fields" members) fields? ∧
        s = .table (fields?.getD []) := by
      rcases h with ⟨absent, rfl⟩ | ⟨u, fs, given, hu, rfl⟩
      · exact ⟨none, .inl ⟨absent, rfl⟩, rfl⟩
      · exact ⟨some fs, takesOne_some.mpr ⟨u, given, hu⟩, rfl⟩
    obtain ⟨fields?, taken, rfl⟩ := taken
    refine ⟨⟨none, none, fields?⟩, ⟨takesOne_nil.mpr rfl, takesOne_nil.mpr rfl, ?_⟩, rfl⟩
    rwa [if_pos rfl]

private theorem ofMembers_bare (hl : kind ≠ .list) (hs : kind ≠ .string) (ht : kind ≠ .table)
    (members : List (String × Value)) : ofMembers kind {} members = Parts.finish {} kind := by
  have none : ¬(kind = .list ∨ kind = .string) := by simp [hl, hs]
  induction members with
  | nil => rfl
  | cons m members ih =>
    rw [ofMembers, if_neg (fun h ↦ hl h.1), if_neg (fun h ↦ none h.1), if_neg (fun h ↦ ht h.1), ih]

private theorem ofValue_table_eq_ok_iff {s : Schema} : ofValue (.table members) = .ok s ↔
    ∃ tag kind, valuesOf "kind" members = [tag] ∧ Kind.ofValue tag = .ok kind ∧
      ofMembers kind {} members = .ok s := by
  rw [ofValue]
  constructor
  · intro h
    cases hk : Kind.ofMembers none members with
    | error e => simp [hk] at h
    | ok kind =>
      obtain ⟨tag, given, ht⟩ := takesOne_some.mp (kind_ofMembers_eq_ok_iff.mp hk)
      exact ⟨tag, kind, given, ht, by simpa [hk] using h⟩
  · rintro ⟨tag, kind, given, ht, h⟩
    have hk := kind_ofMembers_eq_ok_iff.mpr (takesOne_some.mpr ⟨tag, given, ht⟩)
    simp [hk, h]

/-! ## What is described is read -/

mutual
/-- A value that describes a schema is read as it. -/
theorem Describes.ofValue : ∀ {v : Value} {s : Schema}, Describes v s → ofValue v = .ok s
  | _, _, .table kind given each => by
    have fields : fieldsOfValue (.table _) = .ok (Dictionary.ofList _) := each.fieldsOfMembers []
    exact ofValue_table_eq_ok_iff.mpr ⟨_, .table, kind, rfl,
      ofMembers_table_eq_ok_iff.mpr (.inr ⟨_, _, given, fields, rfl⟩)⟩
  | _, _, .bareTable kind absent =>
    ofValue_table_eq_ok_iff.mpr ⟨_, .table, kind, rfl,
      ofMembers_table_eq_ok_iff.mpr (.inl ⟨absent, rfl⟩)⟩
  | _, _, .list kind given item bounded =>
    ofValue_table_eq_ok_iff.mpr ⟨_, .list, kind, rfl,
      ofMembers_list_eq_ok_iff.mpr ⟨_, _, _, given, item.ofValue, bounded, rfl⟩⟩
  | _, _, .string kind bounded =>
    ofValue_table_eq_ok_iff.mpr ⟨_, .string, kind, rfl,
      ofMembers_string_eq_ok_iff.mpr ⟨_, bounded, rfl⟩⟩
  | _, _, .number kind =>
    ofValue_table_eq_ok_iff.mpr ⟨_, .number, kind, rfl,
      ofMembers_bare (by decide) (by decide) (by decide) _⟩
  | _, _, .bool kind =>
    ofValue_table_eq_ok_iff.mpr ⟨_, .bool, kind, rfl,
      ofMembers_bare (by decide) (by decide) (by decide) _⟩
  | _, _, .any kind =>
    ofValue_table_eq_ok_iff.mpr ⟨_, .any, kind, rfl,
      ofMembers_bare (by decide) (by decide) (by decide) _⟩

/-- Members that describe fields are read as them. -/
theorem DescribesFields.fieldsOfMembers : ∀ {members : List (String × Value)}
    {fields : List (String × Schema)}, DescribesFields members fields →
    ∀ before, fieldsOfMembers before members =
      .ok (fields.foldl (fun d f ↦ Dictionary.insert f.1 f.2 d) before)
  | _, _, .nil, _ => rfl
  | _, _, .cons first rest, before => by
    rw [Schema.fieldsOfMembers, first.ofValue]
    exact rest.fieldsOfMembers _
end

/-! ## Forms that do not describe a schema -/

/-- A value stands right below another where a schema is expected: for the items of a list, or for a
field of a table. -/
inductive Part : Value → Value → Prop
  /-- The schema of the items of a list. -/
  | item {members : List (String × Value)} {u : Value}
    (kind : valuesOf "kind" members = [.string "list"]) (given : u ∈ valuesOf "element" members) :
    Part (.table members) u
  /-- The schema of a field of a table. -/
  | field {members inner : List (String × Value)} {m : String × Value}
    (kind : valuesOf "kind" members = [.string "table"])
    (given : .table inner ∈ valuesOf "fields" members) (mem : m ∈ inner) :
    Part (.table members) m.2

/-- The value is an array. -/
def IsList (v : Value) : Prop := ∃ items, v = .list items

/-- The value is an object that gives its kind by its place among all kinds. -/
def IsIndexed (v : Value) : Prop :=
  ∃ members, ∃ i : Integer, ∃ kind : Kind, v = .table members ∧
    .number (.integer i) ∈ valuesOf "kind" members ∧ i.val = kind.index

/-- Wherever a schema is expected there is no array, and below the top no object that gives its kind
by its place. -/
structure InForm (v : Value) : Prop where
  /-- There is no array. -/
  not_list : ∀ w, Relation.ReflTransGen Part v w → ¬IsList w
  /-- No kind below the top is given by its place. -/
  not_indexed : ∀ w, Relation.TransGen Part v w → ¬IsIndexed w

/-- What holds everywhere below a value holds below its parts. -/
theorem InForm.part {u : Value} (h : InForm v) (hp : Part v u) : InForm u ∧ ¬IsIndexed u where
  left :=
    ⟨fun w hw ↦ h.not_list w (.head hp hw), fun w hw ↦ h.not_indexed w (.head hp hw)⟩
  right := h.not_indexed u (.single hp)

private theorem inForm_of_parts (top : ¬IsList v)
    (parts : ∀ u, Part v u → InForm u ∧ ¬IsIndexed u) :
    InForm v where
  not_list w hw := by
    rcases hw.cases_head with rfl | ⟨u, hp, hw⟩
    · exact top
    · exact (parts u hp).1.not_list w hw
  not_indexed w hw := by
    obtain ⟨u, hp, hw⟩ := Relation.TransGen.head'_iff.mp hw
    rcases Relation.reflTransGen_iff_eq_or_transGen.mp hw with rfl | hw
    · exact (parts w hp).2
    · exact (parts u hp).1.not_indexed w hw

/-- An object that names its kind does not give it by its place. -/
theorem not_isIndexed_of_kind {name : String} (h : valuesOf "kind" members = [.string name]) :
    ¬IsIndexed (.table members) := by
  rintro ⟨_, i, kind, he, hi, -⟩
  cases he
  simp [h] at hi

/-- An object that names a kind without parts is in form. -/
theorem inForm_of_bare_kind {kind : Kind} (h : valuesOf "kind" members = [.string kind.name])
    (hl : kind ≠ .list) (ht : kind ≠ .table) : InForm (.table members) := by
  refine inForm_of_parts nofun fun u hp ↦ ?_
  cases hp with
  | item given =>
    rw [h] at given
    cases kind <;> simp_all [Kind.name]
  | field given =>
    rw [h] at given
    cases kind <;> simp_all [Kind.name]

/-- A list is in form if the schema of its items is and names its kind. -/
theorem inForm_of_list (h : valuesOf "kind" members = [.string "list"])
    (items : ∀ u ∈ valuesOf "element" members, InForm u ∧ ¬IsIndexed u) :
    InForm (.table members) := by
  refine inForm_of_parts nofun fun u hp ↦ ?_
  cases hp with
  | item kind given => exact items u given
  | field kind => simp [h] at kind

private theorem cases_of_kind_ofValue {tag : Value} (h : Kind.ofValue tag = .ok kind) :
    tag = .string kind.name ∨ ∃ i, tag = .number (.integer i) ∧ i.val = kind.index := by
  unfold Kind.ofValue at h
  split at h
  · next name =>
    left
    rw [Kind.ofText, Kind.ofName?] at h
    cases hf : Kind.all.find? fun k ↦ k.name = name with
    | none => simp [hf] at h
    | some k =>
      simp only [hf, Except.ok.injEq] at h
      subst h
      simpa [eq_comm] using List.find?_some hf
  · next i =>
    right
    split at h
    · cases h
    next positive =>
    split at h
    · next k found =>
      cases h
      refine ⟨i, rfl, ?_⟩
      have place : i.val.toNat = kind.index := by
        obtain ⟨lt, at_place⟩ := List.getElem?_eq_some_iff.mp found
        rw [Kind.index, ← at_place]
        exact (List.Nodup.idxOf_getElem (by decide) _ lt).symm
      omega
    · cases h
  · cases h

private theorem describesFields_of_fieldsOfMembers {inner : List (String × Value)}
    {before fields : Dictionary Schema} (h : fieldsOfMembers before inner = .ok fields)
    (each : ∀ m ∈ inner, ∀ s, ofValue m.2 = .ok s → Describes m.2 s) :
    ∃ given, DescribesFields inner given ∧
      fields = given.foldl (fun d f ↦ Dictionary.insert f.1 f.2 d) before := by
  induction inner generalizing before with
  | nil =>
    cases h
    exact ⟨[], .nil, rfl⟩
  | cons m inner ih =>
    obtain ⟨name, v⟩ := m
    obtain ⟨first, each⟩ := List.forall_mem_cons.mp each
    rw [fieldsOfMembers] at h
    cases hv : ofValue v with
    | error e => simp [hv] at h
    | ok s =>
      simp only [hv] at h
      obtain ⟨given, rest, rfl⟩ := ih h each
      exact ⟨(name, s) :: given, .cons (first s hv) rest, rfl⟩

private theorem describes_of_members {s : Schema}
    (given : valuesOf "kind" members = [.string kind.name]) (h : ofMembers kind {} members = .ok s)
    (parts : ∀ u, Part (.table members) u → ∀ s, ofValue u = .ok s → Describes u s) :
    Describes (.table members) s := by
  cases kind with
  | table =>
    rcases ofMembers_table_eq_ok_iff.mp h with ⟨absent, rfl⟩ | ⟨u, fields, hu, hf, rfl⟩
    · exact .bareTable given absent
    · cases u with
      | table inner =>
        have inside : .table inner ∈ valuesOf "fields" members := by simp [hu]
        obtain ⟨typed, described, rfl⟩ := describesFields_of_fieldsOfMembers hf
          fun m hm ↦ parts m.2 (.field given inside hm)
        exact .table given hu described
      | null | bool | number | string | list => cases hf
  | list =>
    obtain ⟨u, element, bound, hu, he, bounded, rfl⟩ := ofMembers_list_eq_ok_iff.mp h
    exact .list given hu (parts u (.item given (by simp [hu])) element he) bounded
  | string =>
    obtain ⟨bound, bounded, rfl⟩ := ofMembers_string_eq_ok_iff.mp h
    exact .string given bounded
  | number =>
    rw [ofMembers_bare (by decide) (by decide) (by decide)] at h
    cases h
    exact .number given
  | bool =>
    rw [ofMembers_bare (by decide) (by decide) (by decide)] at h
    cases h
    exact .bool given
  | any =>
    rw [ofMembers_bare (by decide) (by decide) (by decide)] at h
    cases h
    exact .any given

/-- A value in form is read only as the schema that it describes. -/
theorem InForm.describes {s : Schema} (form : InForm v) (named : ¬IsIndexed v)
    (h : Schema.ofValue v = .ok s) : Describes v s := by
  -- The fields of a table are two steps below it, so what is shown of a value is shown of the
  -- values inside it as well.
  suffices hv : (∀ s, InForm v → ¬IsIndexed v → Schema.ofValue v = .ok s → Describes v s) ∧
      ∀ inner, v = .table inner → ∀ m ∈ inner, ∀ s, InForm m.2 → ¬IsIndexed m.2 →
        Schema.ofValue m.2 = .ok s → Describes m.2 s from hv.1 s form named h
  clear form named h s
  induction v using Value.induct with
  | null | bool | number | string => exact ⟨fun s _ _ h ↦ (by cases h), nofun⟩
  | list items => exact ⟨fun s form _ _ ↦ absurd ⟨items, rfl⟩ (form.not_list _ .refl), nofun⟩
  | table members ih =>
    refine ⟨?_, fun inner he m hm ↦ (ih m (Value.table.inj he ▸ hm)).1⟩
    intro s form named h
    obtain ⟨tag, kind, given, ht, h⟩ := ofValue_table_eq_ok_iff.mp h
    rcases cases_of_kind_ofValue ht with rfl | ⟨i, rfl, place⟩
    · refine describes_of_members given h fun u hp s hs ↦ ?_
      obtain ⟨form, named⟩ := form.part hp
      cases hp with
      | item _ given => exact (ih _ (mem_of_mem_valuesOf given)).1 s form named hs
      | @field _ inner m _ given hm =>
        exact (ih _ (mem_of_mem_valuesOf given)).2 inner rfl m hm s form named hs
    · exact absurd ⟨members, i, kind, rfl, by simp [given], place⟩ named

end Schema

end SchemaDoc
