import SchemaDoc.Proofs.Json.Value
import SchemaDoc.Schema.Check

/-!
# Conformance

What it means that a value is as a schema describes it, and every way in which it can fail to be.
Neither is said through the checker. `Inhabits` is the meaning of a schema. `Breaks` lists the
rules that a value breaks, each with the place where it does. Places are ordered as a reader goes
down a value: the whole before its parts, undeclared keys before declared fields, keys by name and
items by index.
-/

namespace SchemaDoc

namespace Schema

/-- A property of all schemas, shown from the fields to the table and from the element to the
list. -/
@[elab_as_elim]
theorem induct {motive : Schema → Prop}
    (table : ∀ fields, (∀ f ∈ fields, motive f.2) → motive (table fields))
    (list : ∀ element bound, motive element → motive (list element bound))
    (number : motive number) (string : ∀ bound, motive (string bound)) (bool : motive bool)
    (any : motive any) (s : Schema) : motive s := by
  cases s with
  | table fields =>
    apply table
    intro f hf
    have : sizeOf f.2 < sizeOf fields :=
      Nat.lt_trans (by cases f; simp +arith) (List.sizeOf_lt_of_mem hf)
    exact induct table list number string bool any f.2
  | list element bound =>
    apply list
    exact induct table list number string bool any element
  | number => exact number
  | string bound => exact string bound
  | bool => exact bool
  | any => exact any
termination_by sizeOf s
decreasing_by all_goals simp +arith; try omega

/-- A length is within a bound, of which one that is not positive bounds nothing. -/
def Within (bound : Int64) (length : Nat) : Prop :=
  0 < bound.toInt → (length : Int) ≤ bound.toInt

/-- Fields are normal if each of their schemas is. -/
theorem normalFields_iff {fields : List (String × Schema)} :
    NormalFields fields ↔ ∀ f ∈ fields, Normal f.2 := by
  induction fields with
  | nil => simp [NormalFields]
  | cons f fields ih => simp [NormalFields, ih]

end Schema

/-- A value is of a kind. -/
def Kind.Covers : Kind → Value → Prop
  | .table, .table _ | .list, .list _ | .number, .number _ | .string, .string _
  | .bool, .bool _ | .any, _ => True
  | _, _ => False

/-- A value is as a schema describes it. -/
inductive Inhabits : Schema → Value → Prop where
  /-- Anything is anything. -/
  | any (v : Value) : Inhabits .any v
  /-- Any number. -/
  | number (n : Number) : Inhabits .number (.number n)
  /-- Any truth value. -/
  | bool (b : Bool) : Inhabits .bool (.bool b)
  /-- A text of no more characters than its bound. -/
  | string {bound : Int64} {s : String} (length : Schema.Within bound s.length) :
    Inhabits (.string bound) (.string s)
  /-- A list of no more items than its bound, each as the element describes it. -/
  | list {element : Schema} {bound : Int64} {items : List Value}
    (length : Schema.Within bound items.length) (each : ∀ v ∈ items, Inhabits element v) :
    Inhabits (.list element bound) (.list items)
  /-- A table of declared keys, each with a value as its field describes it. -/
  | table {fields : List (String × Schema)} {members : List (String × Value)}
    (declared : ∀ m ∈ members, m.1 ∈ Dictionary.keys fields)
    (each : ∀ f ∈ fields, ∀ m ∈ members, f.1 = m.1 → Inhabits f.2 m.2) :
    Inhabits (.table fields) (.table members)

/-! ## Places -/

/-- A step from a value to a part of it. -/
inductive Visit where
  /-- To a key that is not among the fields. -/
  | undeclared (key : String)
  /-- To the value of a field. -/
  | field (name : String)
  /-- To the item at an index. -/
  | item (index : Nat)
deriving DecidableEq, Repr

namespace Visit

/-- The path of the part, from the path of the value. -/
def path (path : String) : Visit → String
  | undeclared key | field key => if path = "$root" then key else s!"{path}.{key}"
  | item index => s!"{path}[{index}]"

/-- The order in which the parts of one value are visited. -/
inductive Before : Visit → Visit → Prop where
  /-- Undeclared keys by name. -/
  | undeclared {k l : String} (h : k < l) : Before (undeclared k) (undeclared l)
  /-- Undeclared keys before all fields. -/
  | declared (key name : String) : Before (undeclared key) (field name)
  /-- Fields by name. -/
  | field {m n : String} (h : m < n) : Before (field m) (field n)
  /-- Items by index. -/
  | item {i j : Nat} (h : i < j) : Before (item i) (item j)

end Visit

/-- A place in a value, as the steps that lead to it. -/
abbrev Place := List Visit

namespace Place

/-- The path of a place, from the path of the value that it is in. -/
def pathFrom (path : String) (place : Place) : String := place.foldl Visit.path path

/-- The path of a place in a whole value. -/
def path (place : Place) : String := place.pathFrom "$root"

/-- One place is visited before another: a value before its parts, and these in their order. -/
abbrev Before : Place → Place → Prop := List.Lex Visit.Before

end Place

/-! ## Breaches -/

/-- A rule of a schema that a value does not keep. -/
inductive Breach where
  /-- The value is not of the kind. -/
  | wrongType (expected : Kind) (actual : String)
  /-- A list has more items than its bound. -/
  | tooManyItems (bound length : Nat)
  /-- A text has more characters than its bound. -/
  | tooManyCharacters (bound length : Nat)
  /-- A key is not among the fields. -/
  | undeclared
deriving DecidableEq, Repr

namespace Breach

/-- What a report calls the values of a kind. -/
def asked : Kind → String
  | .table => "table"
  | .list => "list"
  | .number => "number"
  | .string => "string"
  | .bool => "bool"
  | .any => "any"

/-- What a report calls a value. -/
def found : Value → String
  | .null => "null"
  | .bool _ => "bool"
  | .number _ => "number"
  | .string _ => "string"
  | .list _ => "list"
  | .table _ => "table"

/-- What is said of a breach at a path: the path, what the schema asks and what stands there. -/
def violation (path : String) : Breach → Violation
  | wrongType expected actual => ⟨path, asked expected, actual⟩
  | tooManyItems bound length => ⟨path, s!"at most {bound} entries", s!"{length} entries"⟩
  | tooManyCharacters bound length =>
    ⟨path, s!"at most {bound} characters", s!"{length} characters"⟩
  | undeclared => ⟨path, "no undeclared fields", "undeclared field present"⟩

end Breach

/-- At a place in a value a rule of its schema is broken. -/
inductive Breaks : Schema → Value → Place → Breach → Prop where
  /-- The value itself is not of the kind. -/
  | wrongType {s : Schema} {v : Value} (h : ¬s.kind.Covers v) :
    Breaks s v [] (.wrongType s.kind (Breach.found v))
  /-- The list itself is too long. -/
  | tooManyItems {element : Schema} {bound : Int64} {items : List Value}
    (h : ¬Schema.Within bound items.length) :
    Breaks (.list element bound) (.list items) []
      (.tooManyItems bound.toInt.toNat items.length)
  /-- The text itself is too long. -/
  | tooManyCharacters {bound : Int64} {s : String} (h : ¬Schema.Within bound s.length) :
    Breaks (.string bound) (.string s) [] (.tooManyCharacters bound.toInt.toNat s.length)
  /-- The table itself has a key that is not declared. -/
  | undeclared {fields : List (String × Schema)} {members : List (String × Value)}
    {m : String × Value} (hm : m ∈ members) (h : m.1 ∉ Dictionary.keys fields) :
    Breaks (.table fields) (.table members) [.undeclared m.1] .undeclared
  /-- A rule is broken in the value of a field. -/
  | field {fields : List (String × Schema)} {members : List (String × Value)}
    {f : String × Schema} {m : String × Value} {place : Place} {breach : Breach}
    (hf : f ∈ fields) (hm : m ∈ members) (hk : f.1 = m.1) (h : Breaks f.2 m.2 place breach) :
    Breaks (.table fields) (.table members) (.field f.1 :: place) breach
  /-- A rule is broken in an item. -/
  | item {element : Schema} {bound : Int64} {items : List Value} {index : Nat} {v : Value}
    {place : Place} {breach : Breach} (hv : items[index]? = some v)
    (h : Breaks element v place breach) :
    Breaks (.list element bound) (.list items) (.item index :: place) breach

/-- What is broken first: no rule is broken at a place that is visited before. -/
def BreaksFirst (s : Schema) (v : Value) (place : Place) (breach : Breach) : Prop :=
  Breaks s v place breach ∧
    ∀ earlier other, Breaks s v earlier other → ¬earlier.Before place

/-- At a place in a value stands a part of it, with the schema that describes the part. -/
inductive Part : Schema → Value → Place → Schema → Value → Prop where
  /-- The value itself. -/
  | whole (s : Schema) (v : Value) : Part s v [] s v
  /-- A part of the value of a field. -/
  | field {fields : List (String × Schema)} {members : List (String × Value)}
    {f : String × Schema} {m : String × Value} {place : Place} {t : Schema} {w : Value}
    (hf : f ∈ fields) (hm : m ∈ members) (hk : f.1 = m.1) (h : Part f.2 m.2 place t w) :
    Part (.table fields) (.table members) (.field f.1 :: place) t w
  /-- A part of an item. -/
  | item {element : Schema} {bound : Int64} {items : List Value} {index : Nat} {v : Value}
    {place : Place} {t : Schema} {w : Value} (hv : items[index]? = some v)
    (h : Part element v place t w) :
    Part (.list element bound) (.list items) (.item index :: place) t w

/-! ## Laws -/

/-- A value that breaks a rule is not as its schema describes it. -/
theorem Breaks.not_inhabits {s : Schema} {v : Value} {place : Place} {breach : Breach}
    (h : Breaks s v place breach) : ¬Inhabits s v := by
  induction h with
  | wrongType h =>
    intro hi
    apply h
    cases hi <;> trivial
  | tooManyItems h =>
    intro hi
    cases hi with
    | list length each => exact h length
  | tooManyCharacters h =>
    intro hi
    cases hi with
    | string length => exact h length
  | undeclared hm h =>
    intro hi
    cases hi with
    | table declared each => exact h (declared _ hm)
  | field hf hm hk h ih =>
    intro hi
    cases hi with
    | table declared each => exact ih (each _ hf _ hm hk)
  | item hv h ih =>
    intro hi
    cases hi with
    | list length each => exact ih (each _ (List.mem_of_getElem? hv))

/-- Of two breaches of one schema in one value either one is visited before the other or they are
the same. -/
theorem Breaks.trichotomy {s : Schema} {v : Value} (hs : s.Normal) (hv : v.Normal)
    {p q : Place} {b c : Breach} (hp : Breaks s v p b) (hq : Breaks s v q c) :
    p.Before q ∨ q.Before p ∨ p = q ∧ b = c := by
  -- Two breaches of different fields or items are told apart by where they are; only two in the
  -- same part need the induction.
  induction hp generalizing q c with
  | wrongType h =>
    cases hq with
    | wrongType h' => exact .inr (.inr ⟨rfl, rfl⟩)
    | tooManyItems | tooManyCharacters | undeclared | field | item => exact absurd trivial h
  | tooManyItems h =>
    cases hq with
    | wrongType h' => exact absurd trivial h'
    | tooManyItems h' => exact .inr (.inr ⟨rfl, rfl⟩)
    | item hv h' => exact .inl .nil
  | tooManyCharacters h =>
    cases hq with
    | wrongType h' => exact absurd trivial h'
    | tooManyCharacters h' => exact .inr (.inr ⟨rfl, rfl⟩)
  | @undeclared fields members m hm h =>
    cases hq with
    | wrongType h' => exact absurd trivial h'
    | @undeclared _ _ n hn h' =>
      rcases Std.lt_trichotomy m.1 n.1 with hlt | heq | hgt
      · exact .inl (.rel (.undeclared hlt))
      · exact .inr (.inr ⟨by rw [heq], rfl⟩)
      · exact .inr (.inl (.rel (.undeclared hgt)))
    | field hf hn hk h' => exact .inl (.rel (.declared _ _))
  | @field fields members f m place breach hf hm hk h ih =>
    cases hq with
    | wrongType h' => exact absurd trivial h'
    | undeclared hn h' => exact .inr (.inl (.rel (.declared _ _)))
    | @field _ _ g n place' _ hg hn hk' h' =>
      rcases Std.lt_trichotomy f.1 g.1 with hlt | heq | hgt
      · exact .inl (.rel (.field hlt))
      · obtain rfl : f = g := hs.1.eq_of_mem hf hg heq
        obtain rfl : m = n := hv.1.eq_of_mem hm hn (hk.symm.trans hk')
        rcases ih (Schema.normalFields_iff.mp hs.2 f hf) (Value.normalMembers_iff.mp hv.2 m hm) h'
          with hlt | hgt | ⟨rfl, rfl⟩
        · exact .inl (.cons hlt)
        · exact .inr (.inl (.cons hgt))
        · exact .inr (.inr ⟨rfl, rfl⟩)
      · exact .inr (.inl (.rel (.field hgt)))
  | @item element bound items index w place breach hw h ih =>
    cases hq with
    | wrongType h' => exact absurd trivial h'
    | tooManyItems h' => exact .inr (.inl .nil)
    | @item _ _ _ other u place' _ hu h' =>
      rcases Nat.lt_trichotomy index other with hlt | rfl | hgt
      · exact .inl (.rel (.item hlt))
      · obtain rfl : w = u := Option.some.inj (hw.symm.trans hu)
        have hn : w.Normal := Value.normalItems_iff.mp hv w (List.mem_of_getElem? hw)
        rcases ih hs hn h' with hlt | hgt | ⟨rfl, rfl⟩
        · exact .inl (.cons hlt)
        · exact .inr (.inl (.cons hgt))
        · exact .inr (.inr ⟨rfl, rfl⟩)
      · exact .inr (.inl (.rel (.item hgt)))

/-- The parts of a normal value and their schemas are normal. -/
theorem Part.normal {s t : Schema} {v w : Value} {place : Place} (h : Part s v place t w)
    (hs : s.Normal) (hv : v.Normal) : t.Normal ∧ w.Normal := by
  induction h with
  | whole => exact ⟨hs, hv⟩
  | field hf hm hk h ih =>
    exact ih (Schema.normalFields_iff.mp hs.2 _ hf) (Value.normalMembers_iff.mp hv.2 _ hm)
  | item hw h ih => exact ih hs (Value.normalItems_iff.mp hv _ (List.mem_of_getElem? hw))

/-- What is broken in a part is broken in the whole. -/
theorem Part.breaks {s t : Schema} {v w : Value} {place inner : Place} {breach : Breach}
    (h : Part s v place t w) (hb : Breaks t w inner breach) :
    Breaks s v (place ++ inner) breach := by
  induction h with
  | whole => exact hb
  | field hf hm hk h ih => exact .field hf hm hk (ih hb)
  | item hv h ih => exact .item hv (ih hb)

/-- A part that is visited before a place, and is not around it, has all of its parts visited
before. -/
theorem Place.append_before {earlier place : Place} (h : earlier.Before place)
    (ha : ¬earlier <+: place) (inner : Place) : Place.Before (earlier ++ inner) place := by
  induction h with
  | nil => exact absurd List.nil_prefix ha
  | rel h => exact .rel h
  | cons h ih => exact .cons (ih fun hp ↦ ha (List.cons_prefix_cons.mpr ⟨rfl, hp⟩))

end SchemaDoc
