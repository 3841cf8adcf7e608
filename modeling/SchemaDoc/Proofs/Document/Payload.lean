import SchemaDoc.Document.Shape
import SchemaDoc.Proofs.Json.Box
import SchemaDoc.Proofs.Json.Printed

/-!
# Laws of payloads

Every payload that a text says is normal and has no box in it. The text of a normal payload without
doubles says that payload if it is nested no more deeply than the reader allows and nothing in it is
marked, and no other payload unless a box is in it. With a double in it the text may say nothing,
and else says a payload that differs in its doubles at most.
-/

namespace SchemaDoc.Payload

variable {s : Shape}

/-- Payloads of one shape that are the same value are the same. -/
theorem toValue_injective {p q : s.Payload} (h : toValue p = toValue q) : p = q := by
  cases s with
  | list => exact Value.list.inj h
  | table => exact Value.table.inj h

/-- Normalizing a payload normalizes its value. -/
theorem toValue_normalize (p : s.Payload) : toValue (normalize p) = (toValue p).normalize := by
  cases s <;> rfl

/-- A payload is in its normal form. -/
def Normal (p : s.Payload) : Prop := (toValue p).Normal

/-- A payload has no double. -/
def DoubleFree (p : s.Payload) : Prop := (toValue p).DoubleFree

/-- A payload has no more brackets open at once than a reader allows. -/
def Shallow (p : s.Payload) : Prop := (toValue p).nesting ≤ Json.depthLimit

/-- `P` holds of every item, or of the value of every member. -/
def Each (P : Value → Prop) : {s : Shape} → s.Payload → Prop
  | .list, items => ∀ v ∈ items, P v
  | .table, members => ∀ m ∈ members, P m.2

/-- Nothing in the payload starts with the key of a box. What the payload itself starts with has no
part in this: it is read as a list or a table. -/
def Unmarked (p : s.Payload) : Prop := Each Value.Unmarked p

/-- Nothing in the payload is a box. -/
def Boxless (p : s.Payload) : Prop := Each Value.Boxless p

/-- Neither the payload nor anything in it has the key of a box. -/
def Keyless (p : s.Payload) : Prop := (toValue p).Keyless

/-- The payload without items or members is normal. -/
theorem normal_empty : Normal (empty s) := by
  cases s with
  | list => trivial
  | table => exact ⟨.nil, trivial⟩

/-- The payload without items or members has no double. -/
theorem doubleFree_empty : DoubleFree (empty s) := by
  cases s <;> trivial

/-- A normal form is normal. -/
theorem normal_normalize (p : s.Payload) : Normal (normalize p) := by
  rw [Normal, toValue_normalize]
  exact Value.normal_normalize _

/-- A payload is checked as the value that it is. -/
theorem check_eq (schema : Schema) (p : s.Payload) :
    check schema p = schema.check (toValue p) := by
  cases s <;> cases schema <;> rfl

/-! ## Boxes -/

private theorem Each.imp {P Q : Value → Prop} {p : s.Payload} (h : Each P p)
    (weaker : ∀ v, P v → Q v) :
    Each Q p := by
  cases s with
  | list => exact fun v hv ↦ weaker v (h v hv)
  | table => exact fun m hm ↦ weaker m.2 (h m hm)

private theorem each_empty (P : Value → Prop) : Each P (empty s) := by
  cases s with
  | list => exact fun v hv ↦ absurd hv List.not_mem_nil
  | table => exact fun m hm ↦ absurd hm List.not_mem_nil

private theorem Unmarked.boxless {p : s.Payload} (h : Unmarked p) : Boxless p :=
  Each.imp h fun _ ↦ Value.Unmarked.boxless

/-- A payload that has the key of a box nowhere has nothing marked in it. -/
theorem Keyless.unmarked {p : s.Payload} (h : Keyless p) : Unmarked p := by
  cases s with
  | list => exact fun v hv ↦ Value.Keyless.unmarked (Value.allItems_iff.mp h.2 v hv)
  | table => exact fun m hm ↦ Value.Keyless.unmarked (Value.allMembers_iff.mp h.2 m hm)

/-- Opening a payload opens the parts of its value. -/
theorem opened_eq_ok_iff {unbox : Bytes → Except Json.Error Value} {p q : s.Payload} :
    opened unbox p = .ok q ↔ (toValue p).partsOpened unbox = .ok (toValue q) := by
  cases s with
  | list => simp [toValue, Value.partsOpened_list_eq_ok_iff, opened]
  | table => simp [toValue, Value.partsOpened_table_eq_ok_iff, opened]

/-- Opening the parts of a payload gives a payload. -/
theorem exists_toValue_of_partsOpened {unbox : Bytes → Except Json.Error Value} {p : s.Payload}
    {v : Value} (h : (toValue p).partsOpened unbox = .ok v) : ∃ q : s.Payload, v = toValue q := by
  cases s with
  | list =>
    obtain ⟨ws, -, rfl⟩ := Value.partsOpened_list_eq_ok_iff.mp h
    exact ⟨ws, rfl⟩
  | table =>
    obtain ⟨ns, -, rfl⟩ := Value.partsOpened_table_eq_ok_iff.mp h
    exact ⟨ns, rfl⟩

/-- A payload with nothing marked in it is left as it is. -/
theorem Unmarked.opened_eq {unbox : Bytes → Except Json.Error Value} {p : s.Payload}
    (h : Unmarked p) : opened unbox p = .ok p := by
  cases s with
  | list => exact Value.openedItems_of_unmarked h
  | table => exact Value.openedMembers_of_unmarked h

private theorem Boxless.unmarked_of_opened {unbox : Bytes → Except Json.Error Value}
    {p q : s.Payload} (h : Boxless p) (ho : opened unbox p = .ok q) : Unmarked p := by
  cases s with
  | list => exact Value.unmarked_of_openedItems h ho
  | table => exact Value.unmarked_of_openedMembers h ho

private theorem unmarked_of_opened {p q : s.Payload} (ho : opened Json.unbox p = .ok q) :
    Unmarked q := by
  cases s with
  | list => exact Value.unmarked_items_of_opened (fun _ _ ↦ Json.unmarked_of_unbox) ho
  | table => exact Value.unmarked_members_of_opened (fun _ _ ↦ Json.unmarked_of_unbox) ho

private theorem Each.normalize {P : Value → Prop} {p : s.Payload}
    (h : Each (fun v ↦ P v.normalize) p) :
    Each P (Payload.normalize p) := by
  cases s with
  | list =>
    intro v hv
    rw [Payload.normalize, Value.normalizeItems_eq_map] at hv
    obtain ⟨w, hw, rfl⟩ := List.mem_map.mp hv
    exact h w hw
  | table =>
    intro m hm
    have hm := Dictionary.mem_of_mem_ofList hm
    rw [Value.normalizeMembers_eq_map] at hm
    obtain ⟨n, hn, rfl⟩ := List.mem_map.mp hm
    exact h n hn

/-- A normal form has no box in it if nothing in the payload is marked. -/
theorem Unmarked.boxless_normalize {p : s.Payload} (h : Unmarked p) : Boxless (normalize p) :=
  Each.normalize (Each.imp h fun _ ↦ Value.Unmarked.boxless_normalize)

private theorem each_of_blur {P : Value → Prop} (same : ∀ v : Value, P v.blur ↔ P v)
    {p q : s.Payload} (h : (toValue q).blur = (toValue p).blur) : Each P q ↔ Each P p := by
  cases s with
  | list =>
    have blurred := Value.list.inj h
    rw [Value.blurItems_eq_map, Value.blurItems_eq_map] at blurred
    have each (items : List Value) :
        Each P (s := .list) items ↔ ∀ v ∈ items.map Value.blur, P v := by
      simp [Each, same]
    rw [each, each, blurred]
  | table =>
    have blurred := Value.table.inj h
    rw [Value.blurMembers_eq_map, Value.blurMembers_eq_map] at blurred
    have each (members : Dictionary Value) : Each P (s := .table) members ↔
        ∀ m ∈ members.map (fun m ↦ (m.1, m.2.blur)), P m.2 := by
      simp only [Each, List.forall_mem_map, same]
    rw [each, each, blurred]

/-! ## Changes -/

private theorem Each.append {P : Value → Prop} {items : List Value} (h : Each P (s := .list) items)
    {v : Value} (hv : P v) : Each P (s := .list) (items ++ [v] : List Value) := by
  intro w hw
  rcases List.mem_append.mp hw with hw | hw
  · exact h w hw
  · rw [List.mem_singleton.mp hw]
    exact hv

private theorem Each.insert {P : Value → Prop} {members : Dictionary Value}
    (h : Each P (s := .table) members) (key : String) {v : Value} (hv : P v) :
    Each P (s := .table) (Dictionary.insert key v members) := by
  intro m hm
  rcases Dictionary.mem_insert hm with rfl | hm
  · exact hv
  · exact h m hm

private theorem Each.erase {P : Value → Prop} {members : Dictionary Value}
    (h : Each P (s := .table) members) (key : String) :
    Each P (s := .table) (Dictionary.erase key members) :=
  fun m hm ↦ h m ((Dictionary.erase_sublist key members).subset hm)

/-- A normal list with a normal item added is normal. -/
theorem Normal.append {items : List Value} (h : Normal (s := .list) items) {v : Value}
    (hv : v.Normal) : Normal (s := .list) (items ++ [v] : List Value) := by
  apply Value.normalItems_iff.mpr
  intro w hw
  rcases List.mem_append.mp hw with hw | hw
  · exact Value.normalItems_iff.mp h w hw
  · rw [List.mem_singleton.mp hw]
    exact hv

/-- A normal table with a normal field set is normal. -/
theorem Normal.insert {members : Dictionary Value} (h : Normal (s := .table) members)
    (key : String) {v : Value} (hv : v.Normal) :
    Normal (s := .table) (Dictionary.insert key v members) :=
  ⟨h.1.insert key v, h.2.insert key hv⟩

/-- A normal table without one of its keys is normal. -/
theorem Normal.erase {members : Dictionary Value} (h : Normal (s := .table) members)
    (key : String) : Normal (s := .table) (Dictionary.erase key members) :=
  ⟨h.1.erase key, Value.normalMembers_iff.mpr fun m hm ↦
    Value.normalMembers_iff.mp h.2 m ((Dictionary.erase_sublist key members).subset hm)⟩

/-- A list with an item added has no double if neither has one. -/
theorem DoubleFree.append {items : List Value} (h : DoubleFree (s := .list) items) {v : Value}
    (hv : v.DoubleFree) : DoubleFree (s := .list) (items ++ [v] : List Value) := by
  apply Value.doubleFreeItems_iff.mpr
  intro w hw
  rcases List.mem_append.mp hw with hw | hw
  · exact Value.doubleFreeItems_iff.mp h w hw
  · rw [List.mem_singleton.mp hw]
    exact hv

/-- A table with a field set has no double if neither has one. -/
theorem DoubleFree.insert {members : Dictionary Value} (h : DoubleFree (s := .table) members)
    (key : String) {v : Value} (hv : v.DoubleFree) :
    DoubleFree (s := .table) (Dictionary.insert key v members) := by
  apply Value.doubleFreeMembers_iff.mpr
  intro m hm
  rcases Dictionary.mem_insert hm with rfl | hm
  · exact hv
  · exact Value.doubleFreeMembers_iff.mp h m hm

/-- A table without one of its keys has no double if the table has none. -/
theorem DoubleFree.erase {members : Dictionary Value} (h : DoubleFree (s := .table) members)
    (key : String) : DoubleFree (s := .table) (Dictionary.erase key members) :=
  Value.doubleFreeMembers_iff.mpr fun m hm ↦
    Value.doubleFreeMembers_iff.mp h m ((Dictionary.erase_sublist key members).subset hm)

/-- A normal form has no double if the payload has none. -/
theorem DoubleFree.normalize {p : s.Payload} (h : DoubleFree p) :
    DoubleFree (Payload.normalize p) := by
  rw [DoubleFree, toValue_normalize]
  exact Value.DoubleFree.normalize h

/-! ## Reading -/

private theorem read_eq_ok_iff {limit depth : Nat} {bs left : Bytes} {p : s.Payload} :
    read s limit depth bs = .ok (p, left) ↔
      Json.readValueWith limit (Json.partReader? limit depth) bs = .ok (toValue p, left) := by
  cases s with
  | list => exact Json.readListOnly_eq_ok_iff
  | table => exact Json.readTableOnly_eq_ok_iff

private theorem exists_of_partsOpened {unbox : Bytes → Except Json.Error Value} {v : Value}
    {p : s.Payload} (h : v.partsOpened unbox = .ok (toValue p)) :
    ∃ q : s.Payload, v = toValue q := by
  cases v with
  | list items =>
    obtain ⟨ws, -, he⟩ := Value.partsOpened_list_eq_ok_iff.mp h
    cases s with
    | list => exact ⟨items, rfl⟩
    | table => cases he
  | table members =>
    obtain ⟨ns, -, he⟩ := Value.partsOpened_table_eq_ok_iff.mp h
    cases s with
    | list => cases he
    | table => exact ⟨members, rfl⟩
  | null | bool | number | string => cases s <;> cases h

/-- A text of some payload says it as it is written, with the boxes in it opened. -/
theorem decode_eq_ok_iff {input : Bytes} {p : s.Payload} : decode s input = .ok p ↔
    ∃ q : s.Payload, Json.parse input = .ok (toValue q) ∧
      ∃ r, opened Json.unbox q = .ok r ∧ normalize r = p := by
  have written (r : s.Payload) :
      Json.readWhole (fun limit ↦ read s limit Json.depthLimit) input = .ok r ↔
        ∃ q : s.Payload, Json.parse input = .ok (toValue q) ∧ opened Json.unbox q = .ok r := by
    simp only [Json.parse, Json.readWhole_eq_ok_iff, read_eq_ok_iff, Json.readParts_eq_ok_iff,
      opened_eq_ok_iff]
    constructor
    · rintro ⟨left, ⟨v, hv, ho⟩, blank⟩
      obtain ⟨q, rfl⟩ := exists_of_partsOpened ho
      exact ⟨q, ⟨left, hv, blank⟩, ho⟩
    · rintro ⟨q, ⟨left, hv, blank⟩, ho⟩
      exact ⟨left, ⟨_, hv, ho⟩, blank⟩
  constructor
  · intro h
    obtain ⟨r, hr, rfl⟩ := Json.eq_ok_of_map_eq_ok h
    obtain ⟨q, hq, ho⟩ := (written r).mp hr
    exact ⟨q, hq, r, ho, rfl⟩
  · rintro ⟨q, hq, r, ho, rfl⟩
    rw [decode, (written r).mpr ⟨q, hq, ho⟩]
    rfl

/-- A payload that was decoded is normal. -/
theorem normal_of_decode {input : Bytes} {p : s.Payload} (h : decode s input = .ok p) :
    Normal p := by
  obtain ⟨q, -, r, -, rfl⟩ := decode_eq_ok_iff.mp h
  exact normal_normalize r

private theorem boxless_of_decode {input : Bytes} {p : s.Payload} (h : decode s input = .ok p) :
    Boxless p := by
  obtain ⟨q, -, r, ho, rfl⟩ := decode_eq_ok_iff.mp h
  exact (unmarked_of_opened ho).boxless_normalize

/-! ## Settled payloads -/

/-- A payload is as decoding leaves it: normal and without boxes. -/
structure Settled (p : s.Payload) : Prop where
  /-- The payload is normal. -/
  normal : Normal p
  /-- The payload has no box in it. -/
  boxless : Boxless p

/-- What was decoded is settled. -/
theorem settled_of_decode {input : Bytes} {p : s.Payload} (h : decode s input = .ok p) :
    Settled p := ⟨normal_of_decode h, boxless_of_decode h⟩

/-- The empty payload is settled. -/
theorem settled_empty : Settled (empty s) := ⟨normal_empty, each_empty _⟩

/-- A payload that is handed over is settled if the normal forms of its values have no boxes. -/
theorem settled_normalize {p : s.Payload} (h : Each (fun v ↦ v.normalize.Boxless) p) :
    Settled (normalize p) := ⟨normal_normalize p, Each.normalize h⟩

namespace Settled

/-- A settled list with another item is settled, if there is no box in the item. -/
theorem append {items : List Value} (h : Settled (s := .list) items) {v : Value}
    (hv : v.normalize.Boxless) :
    Settled (s := .list) (items ++ [v.normalize] : List Value) :=
  ⟨h.normal.append (Value.normal_normalize v), Each.append h.boxless hv⟩

/-- A settled table with another member is settled, if there is no box in the member. -/
theorem insert {members : Dictionary Value} (h : Settled (s := .table) members) (key : String)
    {v : Value} (hv : v.normalize.Boxless) :
    Settled (s := .table) (Dictionary.insert key v.normalize members) :=
  ⟨h.normal.insert key (Value.normal_normalize v), Each.insert h.boxless key hv⟩

/-- A settled table without one of its members is settled. -/
theorem erase {members : Dictionary Value} (h : Settled (s := .table) members) (key : String) :
    Settled (s := .table) (Dictionary.erase key members) :=
  ⟨h.normal.erase key, Each.erase h.boxless key⟩

end Settled

/-! ## Reading back -/

/-- The text of a payload starts with the byte of the shape. -/
theorem head?_encode (p : s.Payload) : (encode p).head? = some s.opening := by
  cases s <;> rfl

/-- The text of a payload without doubles that is not nested too deeply says what comes out of the
payload when its boxes are opened. -/
theorem decode_encode_eq_ok_iff {p q : s.Payload} (hf : DoubleFree p) (hs : Shallow p) :
    decode s (encode p) = .ok q ↔ ∃ r, opened Json.unbox p = .ok r ∧ normalize r = q := by
  have written := (Json.spells_print hf hs).parse
  rw [decode_eq_ok_iff]
  constructor
  · rintro ⟨p', hp, opens⟩
    obtain rfl := toValue_injective (Except.ok.inj (written.symm.trans hp))
    exact opens
  · rintro opens
    exact ⟨p, written, opens⟩

private theorem read_encode {depth : Nat} {p : s.Payload} (hf : DoubleFree p) (hu : Unmarked p)
    (hn : (toValue p).nesting ≤ depth) :
    read s (encode p).length depth (encode p) = .ok (p, []) := by
  have opened : Payload.opened Json.unbox p = .ok p := hu.opened_eq
  have parts := opened_eq_ok_iff.mp opened
  exact read_eq_ok_iff.mpr
    (Json.readParts_eq_ok_iff.mpr ⟨_, Json.readValue_print hf hn, parts⟩)

/-- The text of a list of one box says what the text in the box says. -/
theorem decode_encode_box {text : String} {v : Value} (h : Json.unbox (Utf8.encode text) = .ok v) :
    decode .list (encode (s := .list) [.table [(Json.boxKey, .string text)]]) =
      .ok ([v.normalize] : List Value) := by
  have opens : Value.openedItems Json.unbox [.table [(Json.boxKey, .string text)]] = .ok [v] :=
    Value.openedItems_cons_eq_ok_iff.mpr
      ⟨v, [], (Value.opened_marked_eq_ok_iff rfl).mpr ⟨text, rfl, h⟩, rfl, rfl⟩
  have doubleFree : DoubleFree (s := .list) [.table [(Json.boxKey, .string text)]] :=
    ⟨⟨trivial, trivial⟩, trivial⟩
  refine (decode_encode_eq_ok_iff doubleFree ?_).mpr ⟨[v], opens, rfl⟩
  simp [Shallow, toValue, Value.nesting, Value.nestingItems, Value.nestingMembers, Json.depthLimit]

/-- The text of a settled payload says a payload that differs in its doubles at most, or fails
because of a double, of its nesting or of something marked in it. -/
theorem decode_encode_cases {p : s.Payload} (h : Settled p) :
    (∃ q, decode s (encode p) = .ok q ∧ (toValue q).blur = (toValue p).blur ∧
      Shallow p ∧ Unmarked p) ∨
      (∃ e, decode s (encode p) = .error e) ∧ ¬(DoubleFree p ∧ Shallow p ∧ Unmarked p) := by
  cases hd : decode s (encode p) with
  | error e =>
    refine .inr ⟨⟨e, rfl⟩, ?_⟩
    rintro ⟨hf, hs, hu⟩
    have back : decode s (encode p) = .ok (normalize p) :=
      (decode_encode_eq_ok_iff hf hs).mpr ⟨p, hu.opened_eq, rfl⟩
    rw [hd] at back
    cases back
  | ok r =>
    obtain ⟨q, hq, r, ho, rfl⟩ := decode_eq_ok_iff.mp hd
    obtain ⟨same, shallow⟩ := Json.blur_of_parse_print hq
    have boxless : Boxless q := (each_of_blur (fun _ ↦ Value.boxless_blur_iff) same).mpr h.boxless
    have unmarked := boxless.unmarked_of_opened ho
    obtain rfl := Except.ok.inj (ho.symm.trans unmarked.opened_eq)
    have normal : (toValue r).Normal := by
      rw [← Value.normal_blur_iff, same]
      exact Value.normal_blur_iff.mpr h.normal
    refine .inl ⟨_, rfl, ?_, shallow, ?_⟩
    · rw [toValue_normalize, normal.normalize_eq, same]
    · exact (each_of_blur (fun _ ↦ Value.unmarked_blur_iff) same).mp unmarked

/-- The text of a settled payload without doubles says nothing but that payload. -/
theorem eq_of_decode_encode {p q : s.Payload} (hp : Settled p) (hf : DoubleFree p)
    (h : decode s (encode p) = .ok q) : q = p := by
  rcases decode_encode_cases hp with ⟨q', hq, same, -⟩ | ⟨⟨e, he⟩, -⟩
  · obtain rfl := Except.ok.inj (h.symm.trans hq)
    exact toValue_injective (hf.eq_of_blur_eq same)
  · rw [h] at he
    cases he

/-- The text of a normal payload without doubles says that payload, unless it is nested too deeply
or something in it is marked. -/
theorem decode_encode_iff {p : s.Payload} (hp : Normal p) (hf : DoubleFree p) :
    decode s (encode p) = .ok p ↔ Shallow p ∧ Unmarked p := by
  constructor
  · intro h
    rcases decode_encode_cases ⟨hp, boxless_of_decode h⟩ with ⟨q, -, -, both⟩ | ⟨⟨e, he⟩, -⟩
    · exact both
    · rw [h] at he
      cases he
  · rintro ⟨hs, hu⟩
    rcases decode_encode_cases ⟨hp, hu.boxless⟩ with ⟨q, hq, -⟩ | ⟨-, hn⟩
    · rw [hq, eq_of_decode_encode ⟨hp, hu.boxless⟩ hf hq]
    · exact absurd ⟨hf, hs, hu⟩ hn

/-- Payloads without doubles have texts of their own. -/
theorem encode_inj {p q : s.Payload} (hp : DoubleFree p) (hq : DoubleFree q)
    (h : encode p = encode q) : p = q :=
  toValue_injective (Json.print_inj hp hq h)

/-! ## Nesting -/

private theorem narrower_read (limit : Nat) {depth deeper : Nat} (hd : depth ≤ deeper) :
    Json.Narrower (read s limit depth) (read s limit deeper) := by
  have parts := Json.narrower_partReader? limit hd
  cases s with
  | list => exact Json.narrower_readListOnly limit parts
  | table => exact Json.narrower_readTableOnly limit parts

/-- The text of a payload that is nested too deeply is refused for that, if there are no doubles and
nothing marked in it. -/
theorem decode_encode_of_not_shallow {p : s.Payload} (hf : DoubleFree p) (hu : Unmarked p)
    (hd : ¬Shallow p) : ∃ e, decode s (encode p) = .error e ∧ e.cause = .tooDeep := by
  have deep := Nat.le_max_left Json.depthLimit (toValue p).nesting
  have wide := read_encode hf hu (Nat.le_max_right Json.depthLimit (toValue p).nesting)
  rcases narrower_read (s := s) (encode p).length deep (encode p) with same | ⟨f, hr, hc⟩
  · -- Then the text would say the payload.
    have whole : Json.readWhole (fun limit ↦ read s limit Json.depthLimit) (encode p) = .ok p :=
      Json.readWhole_eq_ok_iff.mpr ⟨[], same.trans wide, Json.blank_nil⟩
    obtain ⟨q, hq, -⟩ := decode_eq_ok_iff.mp (show decode s (encode p) = .ok (normalize p) by
      rw [decode, whole]; rfl)
    exact absurd (Json.blur_of_parse_print hq).2 hd
  · refine ⟨.ofFault (encode p) f, ?_, hc⟩
    rw [decode, Json.readWhole, Json.readWholeAs, hr]
    rfl

end SchemaDoc.Payload
