import SchemaDoc.Json.Box
import SchemaDoc.Proofs.Json.Value

/-!
# Boxes in values

An object is marked if it starts with the key of a box, and it is a box if it has no other member
and a text behind the key. A value in which nothing is marked is left as it is when boxes are
opened, and no other value is: an object that is marked and no box cannot be opened, and what comes
out of the text of a box has nothing marked in it. So nothing in a value whose boxes were opened is
a box, once the value is normalized.
-/

namespace SchemaDoc.Value

variable {P Q : Value → Prop} {unbox : Bytes → Except Json.Error Value} {v w : Value}
  {items ws : List Value} {members ns : List (String × Value)}

/-! ## What holds of a value and of all in it -/

mutual
/-- `P` holds of the value and of everything in it. -/
def All (P : Value → Prop) : Value → Prop
  | null => P null
  | bool b => P (bool b)
  | number n => P (number n)
  | string s => P (string s)
  | list items => P (list items) ∧ AllItems P items
  | table members => P (table members) ∧ AllMembers P members
termination_by structural v => v

/-- `P` holds of the items and of everything in them. -/
def AllItems (P : Value → Prop) : List Value → Prop
  | [] => True
  | v :: items => All P v ∧ AllItems P items
termination_by structural items => items

/-- `P` holds of the values of the members and of everything in them. -/
def AllMembers (P : Value → Prop) : List (String × Value) → Prop
  | [] => True
  | (_, v) :: members => All P v ∧ AllMembers P members
termination_by structural members => members
end

/-- What holds of all items and all in them. -/
theorem allItems_iff : AllItems P items ↔ ∀ v ∈ items, All P v := by
  induction items with
  | nil => simp [AllItems]
  | cons v items ih => simp [AllItems, ih]

/-- What holds of the values of all members and all in them. -/
theorem allMembers_iff : AllMembers P members ↔ ∀ m ∈ members, All P m.2 := by
  induction members with
  | nil => simp [AllMembers]
  | cons m members ih => simp [AllMembers, ih]

/-- What is weaker holds of all of the value as well. -/
theorem All.imp (h : All P v) (weaker : ∀ v, P v → Q v) : All Q v := by
  induction v using Value.induct with
  | null | bool | number | string => exact weaker _ h
  | list items ih =>
    exact ⟨weaker _ h.1, allItems_iff.mpr fun v hv ↦ ih v hv (allItems_iff.mp h.2 v hv)⟩
  | table members ih =>
    exact ⟨weaker _ h.1, allMembers_iff.mpr fun m hm ↦ ih m hm (allMembers_iff.mp h.2 m hm)⟩

private theorem all_blur_iff (same : ∀ v, P (blur v) ↔ P v) : All P (blur v) ↔ All P v := by
  induction v using Value.induct with
  | null | bool | string => rfl
  | number n =>
    cases n with
    | integer i => exact same (number (.integer i))
    | double x => exact same (number (.double x))
  | list items ih =>
    have here := same (list items)
    rw [blur] at here ⊢
    rw [All, All, here, allItems_iff, allItems_iff, blurItems_eq_map, List.forall_mem_map]
    exact and_congr_right fun _ ↦ forall₂_congr ih
  | table members ih =>
    have here := same (table members)
    rw [blur] at here ⊢
    rw [All, All, here, allMembers_iff, allMembers_iff, blurMembers_eq_map, List.forall_mem_map]
    exact and_congr_right fun _ ↦ forall₂_congr ih

/-! ## Boxes -/

/-- Whether the value is an object that starts with the key of a box. -/
def marked : Value → Bool
  | table ((key, _) :: _) => key = Json.boxKey
  | _ => false

/-- Whether the value is an object with a text under the key of a box and nothing else. -/
def isBox : Value → Bool
  | table [(key, string _)] => key = Json.boxKey
  | _ => false

/-- Nothing in the value starts with the key of a box. -/
def Unmarked (v : Value) : Prop := All (marked · = false) v

/-- Nothing in the value is a box. -/
def Boxless (v : Value) : Prop := All (isBox · = false) v

/-- Nothing in the value has the key of a box. -/
def Keyless (v : Value) : Prop :=
  All (fun w ↦ ∀ members, w = table members → Json.boxKey ∉ Dictionary.keys members) v

private theorem box?_eq_none_iff : box? members = none ↔ marked (table members) = false := by
  cases members with
  | nil => simp [box?, marked]
  | cons m members =>
    by_cases hk : m.1 = Json.boxKey <;> simp [box?, marked, hk]

private theorem marked_blur (v : Value) : marked (blur v) = marked v := by
  cases v with
  | number n => cases n <;> rfl
  | table members => cases members <;> rfl
  | null | bool | string | list => rfl

private theorem isBox_eq_true_iff :
    isBox v = true ↔ ∃ text, v = table [(Json.boxKey, string text)] := by
  constructor
  · intro h
    unfold isBox at h
    split at h
    · next key text =>
      obtain rfl : key = Json.boxKey := of_decide_eq_true h
      exact ⟨text, rfl⟩
    · cases h
  · rintro ⟨text, rfl⟩
    rfl

private theorem string_of_blur {text : String} (h : blur v = string text) : v = string text := by
  cases v with
  | number n => cases n <;> cases h
  | string s => exact h
  | null | bool | list | table => cases h

private theorem isBox_blur (v : Value) : isBox (blur v) = isBox v := by
  rw [Bool.eq_iff_iff, isBox_eq_true_iff, isBox_eq_true_iff]
  constructor
  · rintro ⟨text, h⟩
    cases v with
    | number n => cases n <;> cases h
    | null | bool | string | list => cases h
    | table members =>
      rcases members with _ | ⟨⟨key, v⟩, _ | ⟨m, members⟩⟩
      · cases h
      · simp only [blur, blurMembers, table.injEq, List.cons.injEq, Prod.mk.injEq] at h
        exact ⟨text, by rw [h.1.1, string_of_blur h.1.2]⟩
      · simp [blur, blurMembers] at h
  · rintro ⟨text, rfl⟩
    exact ⟨text, rfl⟩

/-- Doubles have nothing to do with what is marked. -/
theorem unmarked_blur_iff : Unmarked (blur v) ↔ Unmarked v :=
  all_blur_iff fun v ↦ by rw [marked_blur]

/-- Doubles have nothing to do with what is a box. -/
theorem boxless_blur_iff : Boxless (blur v) ↔ Boxless v :=
  all_blur_iff fun v ↦ by rw [isBox_blur]

/-- A value without parts has no keys. -/
theorem Keyless.of_nesting (h : v.nesting = 0) : Keyless v := by
  cases v with
  | list | table => cases h
  | null | bool | number | string => rintro members ⟨⟩

/-- What has the key of a box nowhere starts with it nowhere. -/
theorem Keyless.unmarked (h : Keyless v) : Unmarked v := by
  refine All.imp h fun w hw ↦ ?_
  cases w with
  | table members =>
    cases members with
    | nil => rfl
    | cons m members =>
      have other : m.1 ≠ Json.boxKey := fun same ↦
        hw _ rfl (same ▸ List.mem_cons_self)
      simp [marked, other]
  | null | bool | number | string | list => rfl

private theorem marked_of_isBox (h : isBox v = true) : marked v = true := by
  obtain ⟨text, rfl⟩ := isBox_eq_true_iff.mp h
  rfl

/-- Lists around a value without the key of a box do not have it. -/
theorem Keyless.nest (h : Keyless v) (n : Nat) : (v.nest n).Keyless := by
  induction n generalizing v with
  | zero => exact h
  | succ n ih => exact ih (v := list [v]) ⟨by rintro members ⟨⟩, h, trivial⟩

/-- What starts with the key of a box nowhere is a box nowhere. -/
theorem Unmarked.boxless (h : Unmarked v) : Boxless v :=
  All.imp h fun w hw ↦ by
    cases hb : isBox w with
    | false => rfl
    | true => simp [marked_of_isBox hb] at hw

/-! ## Opening -/

/-- Items are opened one after the other. -/
theorem openedItems_cons_eq_ok_iff : openedItems unbox (v :: items) = .ok ws ↔
    ∃ w ws', opened unbox v = .ok w ∧ openedItems unbox items = .ok ws' ∧ ws = w :: ws' := by
  rw [openedItems]
  cases opened unbox v with
  | error e => simp [bind, Except.bind]
  | ok w =>
    cases openedItems unbox items with
    | error e => simp [bind, Except.bind]
    | ok ws' => simp [bind, Except.bind, pure, Except.pure, eq_comm]

/-- Members are opened one after the other and keep their keys. -/
theorem openedMembers_cons_eq_ok_iff {key : String} :
    openedMembers unbox ((key, v) :: members) = .ok ns ↔
      ∃ w ns', opened unbox v = .ok w ∧ openedMembers unbox members = .ok ns' ∧
        ns = (key, w) :: ns' := by
  rw [openedMembers]
  cases opened unbox v with
  | error e => simp [bind, Except.bind]
  | ok w =>
    cases openedMembers unbox members with
    | error e => simp [bind, Except.bind]
    | ok ns' => simp [bind, Except.bind, pure, Except.pure, eq_comm]

private theorem opened_list_eq_ok_iff : opened unbox (list items) = .ok w ↔
    ∃ ws, openedItems unbox items = .ok ws ∧ w = list ws := by
  rw [opened]
  cases openedItems unbox items <;> simp [Except.map, eq_comm]

private theorem opened_table_eq_ok_iff (h : marked (table members) = false) :
    opened unbox (table members) = .ok w ↔
      ∃ ns, openedMembers unbox members = .ok ns ∧ w = table ns := by
  rw [opened, box?_eq_none_iff.mpr h]
  cases openedMembers unbox members <;> simp [Except.map, eq_comm]

/-- An object that is marked is opened if it is a box whose text is read. -/
theorem opened_marked_eq_ok_iff (h : marked (table members) = true) :
    opened unbox (table members) = .ok w ↔
      ∃ text, members = [(Json.boxKey, string text)] ∧ unbox (Utf8.encode text) = .ok w := by
  rcases members with _ | ⟨⟨key, v⟩, others⟩
  · cases h
  obtain rfl : key = Json.boxKey := by simpa [marked] using h
  have found : box? ((Json.boxKey, v) :: others) = some (v, others) := by simp [box?]
  rw [opened, found]
  cases v with
  | string text =>
    cases hu : unbox (Utf8.encode text) with
    | error e => simp [openBox, hu, bind, Except.bind]
    | ok x => cases others <;> simp [openBox, hu, bind, Except.bind, pure, Except.pure]
  | null | bool | number | list | table => simp [openBox]

/-- The value with the boxes in its parts opened, and itself left as it is. -/
def partsOpened (unbox : Bytes → Except Json.Error Value) : Value → Except Json.Error Value
  | list items => (openedItems unbox items).map list
  | table members => (openedMembers unbox members).map table
  | v => .ok v

/-- The parts of a list are its items. -/
theorem partsOpened_list_eq_ok_iff : partsOpened unbox (list items) = .ok w ↔
    ∃ ws, openedItems unbox items = .ok ws ∧ w = list ws := by
  rw [partsOpened]
  cases openedItems unbox items <;> simp [Except.map, eq_comm]

/-- The parts of a table are the values of its members. -/
theorem partsOpened_table_eq_ok_iff : partsOpened unbox (table members) = .ok w ↔
    ∃ ns, openedMembers unbox members = .ok ns ∧ w = table ns := by
  rw [partsOpened]
  cases openedMembers unbox members <;> simp [Except.map, eq_comm]

/-- A value that is not marked is opened part by part. -/
theorem opened_eq_partsOpened (h : marked v = false) :
    opened unbox v = partsOpened unbox v := by
  cases v with
  | table members =>
    rw [opened, box?_eq_none_iff.mpr h]
    rfl
  | null | bool | number | string | list => rfl

/-- What can be opened has parts that can be. -/
theorem exists_partsOpened_of_opened (h : opened unbox v = .ok w) :
    ∃ w', partsOpened unbox v = .ok w' := by
  cases hm : marked v with
  | false => exact ⟨w, (opened_eq_partsOpened hm).symm.trans h⟩
  | true =>
    cases v with
    | table members =>
      obtain ⟨text, rfl, -⟩ := (opened_marked_eq_ok_iff hm).mp h
      exact ⟨_, rfl⟩
    | null | bool | number | string | list => cases hm

private theorem openedItems_eq_self (h : ∀ v ∈ items, opened unbox v = .ok v) :
    openedItems unbox items = .ok items := by
  induction items with
  | nil => rfl
  | cons v items ih =>
    obtain ⟨hv, hs⟩ := List.forall_mem_cons.mp h
    exact openedItems_cons_eq_ok_iff.mpr ⟨v, items, hv, ih hs, rfl⟩

private theorem openedMembers_eq_self (h : ∀ m ∈ members, opened unbox m.2 = .ok m.2) :
    openedMembers unbox members = .ok members := by
  induction members with
  | nil => rfl
  | cons m members ih =>
    obtain ⟨hm, hs⟩ := List.forall_mem_cons.mp h
    exact openedMembers_cons_eq_ok_iff.mpr ⟨m.2, members, hm, ih hs, rfl⟩

/-- A value with nothing marked in it is left as it is. -/
theorem Unmarked.opened_eq (h : Unmarked v) : opened unbox v = .ok v := by
  induction v using Value.induct with
  | null | bool | number | string => rfl
  | list items ih =>
    refine opened_list_eq_ok_iff.mpr ⟨items, openedItems_eq_self fun v hv ↦ ?_, rfl⟩
    exact ih v hv (allItems_iff.mp h.2 v hv)
  | table members ih =>
    refine (opened_table_eq_ok_iff h.1).mpr ⟨members, openedMembers_eq_self fun m hm ↦ ?_, rfl⟩
    exact ih m hm (allMembers_iff.mp h.2 m hm)

/-- Items with nothing marked in them are left as they are. -/
theorem openedItems_of_unmarked (h : ∀ v ∈ items, Unmarked v) :
    openedItems unbox items = .ok items :=
  openedItems_eq_self fun v hv ↦ (h v hv).opened_eq

/-- Members with nothing marked in them are left as they are. -/
theorem openedMembers_of_unmarked (h : ∀ m ∈ members, Unmarked m.2) :
    openedMembers unbox members = .ok members :=
  openedMembers_eq_self fun m hm ↦ (h m hm).opened_eq

private theorem of_openedItems (h : openedItems unbox items = .ok ws) :
    (∀ v ∈ items, ∃ w, opened unbox v = .ok w) ∧ ∀ w ∈ ws, ∃ v ∈ items, opened unbox v = .ok w := by
  induction items generalizing ws with
  | nil =>
    cases h
    simp
  | cons v items ih =>
    obtain ⟨w, ws', hw, hs, rfl⟩ := openedItems_cons_eq_ok_iff.mp h
    obtain ⟨all, from_⟩ := ih hs
    refine ⟨List.forall_mem_cons.mpr ⟨⟨w, hw⟩, all⟩, List.forall_mem_cons.mpr ⟨?_, fun x hx ↦ ?_⟩⟩
    · exact ⟨v, List.mem_cons_self, hw⟩
    · obtain ⟨u, hu, hx⟩ := from_ x hx
      exact ⟨u, List.mem_cons_of_mem _ hu, hx⟩

private theorem of_openedMembers (h : openedMembers unbox members = .ok ns) :
    (∀ m ∈ members, ∃ w, opened unbox m.2 = .ok w) ∧
      ∀ n ∈ ns, ∃ m ∈ members, opened unbox m.2 = .ok n.2 := by
  induction members generalizing ns with
  | nil =>
    cases h
    simp
  | cons m members ih =>
    obtain ⟨w, ns', hw, hs, rfl⟩ := openedMembers_cons_eq_ok_iff.mp h
    obtain ⟨all, from_⟩ := ih hs
    refine ⟨List.forall_mem_cons.mpr ⟨⟨w, hw⟩, all⟩, List.forall_mem_cons.mpr ⟨?_, fun x hx ↦ ?_⟩⟩
    · exact ⟨m, List.mem_cons_self, hw⟩
    · obtain ⟨u, hu, hx⟩ := from_ x hx
      exact ⟨u, List.mem_cons_of_mem _ hu, hx⟩

/-- Opening keeps the keys of members. -/
theorem keys_of_openedMembers (h : openedMembers unbox members = .ok ns) :
    Dictionary.keys ns = Dictionary.keys members := by
  induction members generalizing ns with
  | nil =>
    cases h
    rfl
  | cons m members ih =>
    obtain ⟨w, ns', -, hs, rfl⟩ := openedMembers_cons_eq_ok_iff.mp h
    exact congrArg (m.1 :: ·) (ih hs)

private theorem Boxless.unmarked_of_opened (h : Boxless v) (ho : opened unbox v = .ok w) :
    Unmarked v := by
  induction v using Value.induct generalizing w with
  | null | bool | number | string => exact h
  | list items ih =>
    obtain ⟨ws, hs, -⟩ := opened_list_eq_ok_iff.mp ho
    refine ⟨rfl, allItems_iff.mpr fun v hv ↦ ?_⟩
    obtain ⟨w, hw⟩ := (of_openedItems hs).1 v hv
    exact ih v hv (allItems_iff.mp h.2 v hv) hw
  | table members ih =>
    cases hm : marked (table members) with
    | true =>
      obtain ⟨text, rfl, -⟩ := (opened_marked_eq_ok_iff hm).mp ho
      exact absurd h.1 (by simp [isBox])
    | false =>
      obtain ⟨ns, hs, -⟩ := (opened_table_eq_ok_iff hm).mp ho
      refine ⟨hm, allMembers_iff.mpr fun m hm ↦ ?_⟩
      obtain ⟨w, hw⟩ := (of_openedMembers hs).1 m hm
      exact ih m hm (allMembers_iff.mp h.2 m hm) hw

/-- Items without boxes that can be opened have nothing marked in them. -/
theorem unmarked_of_openedItems (h : ∀ v ∈ items, Boxless v)
    (ho : openedItems unbox items = .ok ws) : ∀ v ∈ items, Unmarked v := by
  intro v hv
  obtain ⟨w, hw⟩ := (of_openedItems ho).1 v hv
  exact (h v hv).unmarked_of_opened hw

/-- Members without boxes that can be opened have nothing marked in them. -/
theorem unmarked_of_openedMembers (h : ∀ m ∈ members, Boxless m.2)
    (ho : openedMembers unbox members = .ok ns) : ∀ m ∈ members, Unmarked m.2 := by
  intro m hm
  obtain ⟨w, hw⟩ := (of_openedMembers ho).1 m hm
  exact (h m hm).unmarked_of_opened hw

private theorem marked_of_keys (h : Dictionary.keys ns = Dictionary.keys members) :
    marked (table ns) = marked (table members) := by
  cases ns <;> cases members <;> simp_all [Dictionary.keys, marked]

/-- What is opened has nothing marked in it, if nothing marked comes out of texts. -/
theorem unmarked_of_opened (texts : ∀ text w, unbox text = .ok w → Unmarked w)
    (ho : opened unbox v = .ok w) : Unmarked w := by
  induction v using Value.induct generalizing w with
  | null | bool | number | string =>
    cases ho
    rfl
  | list items ih =>
    obtain ⟨ws, hs, rfl⟩ := opened_list_eq_ok_iff.mp ho
    refine ⟨rfl, allItems_iff.mpr fun w hw ↦ ?_⟩
    obtain ⟨v, hv, hw⟩ := (of_openedItems hs).2 w hw
    exact ih v hv hw
  | table members ih =>
    cases hm : marked (table members) with
    | true =>
      obtain ⟨text, -, hu⟩ := (opened_marked_eq_ok_iff hm).mp ho
      exact texts _ _ hu
    | false =>
      obtain ⟨ns, hs, rfl⟩ := (opened_table_eq_ok_iff hm).mp ho
      refine ⟨(marked_of_keys (keys_of_openedMembers hs)).trans hm,
        allMembers_iff.mpr fun n hn ↦ ?_⟩
      obtain ⟨m, hm, hn⟩ := (of_openedMembers hs).2 n hn
      exact ih m hm hn

/-- Opened items have nothing marked in them, if nothing marked comes out of texts. -/
theorem unmarked_items_of_opened (texts : ∀ text w, unbox text = .ok w → Unmarked w)
    (ho : openedItems unbox items = .ok ws) : ∀ w ∈ ws, Unmarked w := by
  intro w hw
  obtain ⟨v, -, hw⟩ := (of_openedItems ho).2 w hw
  exact unmarked_of_opened texts hw

/-- Opened members have nothing marked in them, if nothing marked comes out of texts. -/
theorem unmarked_members_of_opened (texts : ∀ text w, unbox text = .ok w → Unmarked w)
    (ho : openedMembers unbox members = .ok ns) : ∀ n ∈ ns, Unmarked n.2 := by
  intro n hn
  obtain ⟨m, -, hn⟩ := (of_openedMembers ho).2 n hn
  exact unmarked_of_opened texts hn

/-- The same comes out of the texts in a value in one way and in another. -/
def TextsAgree (unbox unbox' : Bytes → Except Json.Error Value) (v : Value) : Prop :=
  v.All fun u ↦ ∀ text, u = string text →
    ∀ w, unbox (Utf8.encode text) = .ok w ↔ unbox' (Utf8.encode text) = .ok w

section

variable {unbox' : Bytes → Except Json.Error Value}

private theorem openedItems_congr
    (each : ∀ v ∈ items, ∀ w, opened unbox v = .ok w ↔ opened unbox' v = .ok w) :
    openedItems unbox items = .ok ws ↔ openedItems unbox' items = .ok ws := by
  induction items generalizing ws with
  | nil => exact Iff.rfl
  | cons v items ih =>
    obtain ⟨hv, hs⟩ := List.forall_mem_cons.mp each
    simp only [openedItems_cons_eq_ok_iff, hv, ih hs]

private theorem openedMembers_congr
    (each : ∀ m ∈ members, ∀ w, opened unbox m.2 = .ok w ↔ opened unbox' m.2 = .ok w) :
    openedMembers unbox members = .ok ns ↔ openedMembers unbox' members = .ok ns := by
  induction members generalizing ns with
  | nil => exact Iff.rfl
  | cons m members ih =>
    obtain ⟨key, v⟩ := m
    obtain ⟨hv, hs⟩ := List.forall_mem_cons.mp each
    simp only [openedMembers_cons_eq_ok_iff, hv, ih hs]

/-- What is opened depends on what comes out of the texts in the value alone. -/
theorem TextsAgree.opened_eq_ok_iff (h : TextsAgree unbox unbox' v) :
    opened unbox v = .ok w ↔ opened unbox' v = .ok w := by
  induction v using Value.induct generalizing w with
  | null | bool | number | string => exact Iff.rfl
  | list items ih =>
    have inner (ws : List Value) :
        openedItems unbox items = .ok ws ↔ openedItems unbox' items = .ok ws :=
      openedItems_congr fun v hv w ↦ ih v hv (allItems_iff.mp h.2 v hv)
    simp only [opened_list_eq_ok_iff, inner]
  | table members ih =>
    cases hm : marked (table members) with
    | true =>
      simp only [opened_marked_eq_ok_iff hm]
      apply exists_congr
      intro text
      apply and_congr_right
      rintro rfl
      exact h.2.1 text rfl w
    | false =>
      have inner (ns : List (String × Value)) :
          openedMembers unbox members = .ok ns ↔ openedMembers unbox' members = .ok ns :=
        openedMembers_congr fun m hm w ↦ ih m hm (allMembers_iff.mp h.2 m hm)
      simp only [opened_table_eq_ok_iff hm, inner]

/-- What the parts are opened to depends on what comes out of the texts alone. -/
theorem TextsAgree.partsOpened_eq_ok_iff (h : TextsAgree unbox unbox' v) :
    partsOpened unbox v = .ok w ↔ partsOpened unbox' v = .ok w := by
  cases v with
  | null | bool | number | string => exact Iff.rfl
  | list items =>
    have inner (ws : List Value) :
        openedItems unbox items = .ok ws ↔ openedItems unbox' items = .ok ws :=
      openedItems_congr fun v hv w ↦ opened_eq_ok_iff (allItems_iff.mp h.2 v hv)
    simp only [partsOpened_list_eq_ok_iff, inner]
  | table members =>
    have inner (ns : List (String × Value)) :
        openedMembers unbox members = .ok ns ↔ openedMembers unbox' members = .ok ns :=
      openedMembers_congr fun m hm w ↦ opened_eq_ok_iff (allMembers_iff.mp h.2 m hm)
    simp only [partsOpened_table_eq_ok_iff, inner]

end

/-! ## Normal forms -/

private theorem isBox_ofList (h : marked (table members) = false) :
    isBox (table (Dictionary.ofList members)) = false := by
  cases hb : isBox (table (Dictionary.ofList members)) with
  | false => rfl
  | true =>
    obtain ⟨text, hd⟩ := isBox_eq_true_iff.mp hb
    have keys (key : String) : key ∈ Dictionary.keys members ↔ key = Json.boxKey := by
      rw [← Dictionary.mem_keys_ofList, table.inj hd]
      simp [Dictionary.keys]
    cases members with
    | nil => cases table.inj hd
    | cons m members =>
      have first : m.1 = Json.boxKey := (keys m.1).mp List.mem_cons_self
      simp [marked, first] at h

/-- A normal form is no box if the value starts with the key of a box nowhere. -/
theorem Unmarked.boxless_normalize (h : Unmarked v) : Boxless (normalize v) := by
  induction v using Value.induct with
  | null | bool | number | string => rfl
  | list items ih =>
    refine ⟨rfl, allItems_iff.mpr fun w hw ↦ ?_⟩
    rw [normalizeItems_eq_map] at hw
    obtain ⟨v, hv, rfl⟩ := List.mem_map.mp hw
    exact ih v hv (allItems_iff.mp h.2 v hv)
  | table members ih =>
    have same : Dictionary.keys (normalizeMembers members) = Dictionary.keys members := by
      simp [Dictionary.keys, normalizeMembers_eq_map]
    refine ⟨isBox_ofList ((marked_of_keys same).trans h.1), allMembers_iff.mpr fun n hn ↦ ?_⟩
    have hn := Dictionary.mem_of_mem_ofList hn
    rw [normalizeMembers_eq_map] at hn
    obtain ⟨m, hm, rfl⟩ := List.mem_map.mp hn
    exact ih m hm (allMembers_iff.mp h.2 m hm)

end SchemaDoc.Value
