import SchemaDoc.Proofs.Document.Payload
import SchemaDoc.Proofs.Document.Session
import SchemaDoc.Proofs.Schema.FirstBreach

/-!
# Checked documents conform

A checked document reads as what its schema describes, or cannot be read, whatever was done with
it. A change is checked by itself only; that the rest still conforms is shown here. Payloads that
were printed and read again may differ in their doubles, which no schema looks at.
-/

namespace SchemaDoc

/-! ## Schemas and doubles -/

private theorem Kind.covers_blur_iff {kind : Kind} {v : Value} :
    kind.Covers v.blur ↔ kind.Covers v := by
  cases v with
  | number n => cases n <;> cases kind <;> rfl
  | null | bool | string | list | table => cases kind <;> rfl

namespace Inhabits

/-- A list is as its schema describes it if it is short enough and each item is as the element
describes it. -/
theorem list_iff {element : Schema} {bound : Int64} {items : List Value} :
    Inhabits (.list element bound) (.list items) ↔
      Schema.Within bound items.length ∧ ∀ v ∈ items, Inhabits element v := by
  constructor
  · intro h
    cases h with
    | list length each => exact ⟨length, each⟩
  · exact fun ⟨length, each⟩ ↦ .list length each

/-- A table is as its schema describes it if each key is declared and each value is as its field
describes it. -/
theorem table_iff {fields : List (String × Schema)} {members : List (String × Value)} :
    Inhabits (.table fields) (.table members) ↔
      (∀ m ∈ members, m.1 ∈ Dictionary.keys fields) ∧
        ∀ f ∈ fields, ∀ m ∈ members, f.1 = m.1 → Inhabits f.2 m.2 := by
  constructor
  · intro h
    cases h with
    | table declared each => exact ⟨declared, each⟩
  · exact fun ⟨declared, each⟩ ↦ .table declared each

private theorem subset {fields : List (String × Schema)} {members part : List (String × Value)}
    (h : Inhabits (.table fields) (.table members)) (hs : part ⊆ members) :
    Inhabits (.table fields) (.table part) := by
  obtain ⟨declared, each⟩ := table_iff.mp h
  exact .table (fun m hm ↦ declared m (hs hm)) fun f hf m hm ↦ each f hf m (hs hm)

private theorem blur_iff {s : Schema} {v : Value} : Inhabits s v.blur ↔ Inhabits s v := by
  have mismatch {s : Schema} {v : Value} (h : ¬s.kind.Covers v) :
      Inhabits s v.blur ↔ Inhabits s v := by
    have hb : ¬s.kind.Covers v.blur := mt Kind.covers_blur_iff.mp h
    exact iff_of_false (Breaks.wrongType hb).not_inhabits (Breaks.wrongType h).not_inhabits
  induction s using Schema.induct generalizing v with
  | any => exact iff_of_true (.any _) (.any _)
  | number =>
    cases v with
    | number n => exact iff_of_true (by cases n <;> exact .number _) (.number n)
    | null | bool | string | list | table => exact mismatch id
  | bool =>
    cases v with
    | bool b => exact iff_of_true (.bool b) (.bool b)
    | null | number | string | list | table => exact mismatch id
  | string bound =>
    cases v with
    | string t => rfl
    | null | bool | number | list | table => exact mismatch id
  | list element bound ih =>
    cases v with
    | list items =>
      rw [Value.blur, list_iff, list_iff, Value.blurItems_eq_map, List.length_map,
        List.forall_mem_map]
      exact and_congr_right fun _ ↦ forall₂_congr fun _ _ ↦ ih
    | null | bool | number | string | table => exact mismatch id
  | table fields ih =>
    cases v with
    | table members =>
      rw [Value.blur, table_iff, table_iff, Value.blurMembers_eq_map, List.forall_mem_map]
      refine and_congr_right fun _ ↦ forall₂_congr fun f hf ↦ ?_
      rw [List.forall_mem_map]
      exact forall₂_congr fun _ _ ↦ imp_congr_right fun _ ↦ ih f hf
    | null | bool | number | string | list => exact mismatch id

end Inhabits

/-! ## Changes -/

namespace CheckedDocument

/-- An added item is looked at before the list with it is measured. -/
theorem checkAppend_list (element : Schema) (bound : Int64) (length : Nat) (v : Value) :
    checkAppend (.list element bound) length v =
      (element.checkAt v (Path.item Path.root length) >>= fun () ↦
        Schema.checkLength bound (length + 1) Path.root) := by
  rw [checkAppend, Schema.checkLength]
  cases Schema.effective? bound with
  | none => rfl
  | some max => simp only [Nat.lt_succ_iff]

/-- An added item has no violation if the element has none in it and there is room for it. -/
theorem checkAppend_list_eq_ok_iff {element : Schema} {bound : Int64} {length : Nat} {v : Value} :
    checkAppend (.list element bound) length v = .ok () ↔
      element.checkAt v (Path.item Path.root length) = .ok () ∧
        Schema.Within bound (length + 1) := by
  rw [checkAppend_list]
  cases element.checkAt v (Path.item Path.root length) with
  | error e =>
    constructor
    · intro h
      cases h
    · rintro ⟨h, -⟩
      cases h
  | ok u =>
    refine Iff.trans ?_ (and_iff_right rfl).symm
    change Schema.checkLength bound (length + 1) Path.root = .ok () ↔ _
    rcases Schema.checkLength_eq bound (length + 1) Path.root with ⟨hw, hc⟩ | ⟨hw, hc⟩
    · exact iff_of_true hc hw
    · refine iff_of_false ?_ hw
      rw [hc]
      intro h
      cases h

private theorem inhabits_append {schema : Schema} (hs : schema.Normal) {items : List Value}
    {v : Value} (hv : v.Normal) (h : Inhabits schema (.list items))
    (hc : checkAppend schema items.length v = .ok ()) :
    Inhabits schema (.list (items ++ [v])) := by
  cases h with
  | any => exact .any _
  | @list element bound _ length each =>
    obtain ⟨hv', room⟩ := checkAppend_list_eq_ok_iff.mp hc
    have hs : element.Normal := hs
    have last : Inhabits element v := (Schema.checkAt_eq_ok_iff hs hv _).mp hv'
    refine .list (by rwa [List.length_append, List.length_singleton]) fun w hw ↦ ?_
    rcases List.mem_append.mp hw with hw | hw
    · exact each w hw
    · rw [List.mem_singleton.mp hw]
      exact last

private theorem inhabits_insert {schema : Schema} (hs : schema.Normal) {members : Dictionary Value}
    {key : String} {v : Value} (hv : v.Normal) (h : Inhabits schema (.table members))
    (hc : checkSet schema key v = .ok ()) :
    Inhabits schema (.table (Dictionary.insert key v members)) := by
  cases h with
  | any => exact .any _
  | @table fields _ declared each =>
    rw [checkSet] at hc
    split at hc
    · cases hc
    · next field hf =>
      have hm : (key, field) ∈ fields := Dictionary.mem_of_find? hf
      have hn : field.Normal := Schema.normalFields_iff.mp hs.2 _ hm
      have value : Inhabits field v := (Schema.checkAt_eq_ok_iff hn hv _).mp hc
      refine .table (fun m hi ↦ ?_) fun f hff m hi hk ↦ ?_
      · rcases Dictionary.mem_insert hi with rfl | hi
        · exact List.mem_map_of_mem hm
        · exact declared m hi
      · rcases Dictionary.mem_insert hi with rfl | hi
        · obtain rfl : f = (key, field) := hs.1.eq_of_mem hff hm hk
          exact value
        · exact each f hff m hi hk

private theorem inhabits_erase {schema : Schema} {members : Dictionary Value}
    (h : Inhabits schema (.table members)) (key : String) :
    Inhabits schema (.table (Dictionary.erase key members)) := by
  cases h with
  | any => exact .any _
  | table declared each =>
    exact (Inhabits.table declared each).subset (Dictionary.erase_sublist key members).subset

end CheckedDocument

/-! ## Conforming payloads -/

/-- The kind of a shape. -/
def Shape.kind : Shape → Kind
  | list => .list
  | table => .table

/-- A schema is one for documents of a shape. -/
def Schema.Suits (schema : Schema) (s : Shape) : Prop :=
  schema.kind = s.kind ∨ schema.kind = .any

/-- A payload is settled and, if the schema is one for its shape, as the schema describes it. -/
def Payload.Conforms {s : Shape} (schema : Schema) (p : s.Payload) : Prop :=
  Settled p ∧ (schema.Suits s → Inhabits schema (toValue p))

namespace Payload

variable {s : Shape} {schema : Schema}

private theorem conforms_empty (schema : Schema) : Conforms schema (empty s) := by
  refine ⟨settled_empty, fun hs ↦ ?_⟩
  cases s with
  | list =>
    cases schema with
    | list element bound =>
      apply Inhabits.list
      · intro hb
        exact Int.le_of_lt hb
      · intro v hv
        cases hv
    | any => exact .any _
    | table | number | string | bool => rcases hs with hs | hs <;> cases hs
  | table =>
    cases schema with
    | table fields =>
      apply Inhabits.table
      · intro m hm
        cases hm
      · intro f hf m hm
        cases hm
    | any => exact .any _
    | list | number | string | bool => rcases hs with hs | hs <;> cases hs

private theorem conforms_of_check (hs : schema.Normal) {p : s.Payload} (hp : Settled p)
    (h : Payload.check schema p = .ok ()) : Conforms schema p := by
  rw [check_eq] at h
  exact ⟨hp, fun _ ↦ (Schema.checkAt_eq_ok_iff hs hp.normal _).mp h⟩

private theorem Conforms.of_decode_encode {p q : s.Payload} (hp : Conforms schema p)
    (h : decode s (encode p) = .ok q) : Conforms schema q := by
  refine ⟨settled_of_decode h, fun hs ↦ ?_⟩
  rcases decode_encode_cases hp.1 with ⟨q', hq, hb, -⟩ | ⟨⟨e, he⟩, -⟩
  · obtain rfl := Except.ok.inj (h.symm.trans hq)
    rw [← Inhabits.blur_iff, hb]
    exact Inhabits.blur_iff.mpr (hp.2 hs)
  · rw [h] at he
    cases he

private theorem Conforms.append {items : List Value} (h : Conforms (s := .list) schema items)
    (hs : schema.Normal) {v : Value} (hv : v.normalize.Boxless)
    (hc : CheckedDocument.checkAppend schema items.length v.normalize = .ok ()) :
    Conforms (s := .list) schema (items ++ [v.normalize] : List Value) :=
  ⟨h.1.append hv, fun suits ↦
    CheckedDocument.inhabits_append hs (Value.normal_normalize v) (h.2 suits) hc⟩

private theorem Conforms.insert {members : Dictionary Value}
    (h : Conforms (s := .table) schema members)
    (hs : schema.Normal) {key : String} {v : Value} (hv : v.normalize.Boxless)
    (hc : CheckedDocument.checkSet schema key v.normalize = .ok ()) :
    Conforms (s := .table) schema (Dictionary.insert key v.normalize members) :=
  ⟨h.1.insert key hv, fun suits ↦
    CheckedDocument.inhabits_insert hs (Value.normal_normalize v) (h.2 suits) hc⟩

private theorem Conforms.erase {members : Dictionary Value}
    (h : Conforms (s := .table) schema members)
    (key : String) : Conforms (s := .table) schema (Dictionary.erase key members) :=
  ⟨h.1.erase key, fun suits ↦ CheckedDocument.inhabits_erase (h.2 suits) key⟩

end Payload

/-! ## Documents -/

namespace Document

variable {s : Shape} {P : s.Payload → Prop} {d : Document s}

/-- Something holds of the payload of a document, or of every payload that its bytes may say. -/
def Holds (P : s.Payload → Prop) : Document s → Prop
  | raw bytes => ∀ p, Payload.decode s bytes = .ok p → P p
  | decoded p | both _ p => P p

private theorem Holds.of_reading (h : Holds P d) {p : s.Payload} (hp : d.reading = .ok p) :
    P p := by
  cases d with
  | raw bytes =>
    cases hd : Payload.decode s bytes with
    | ok q =>
      rw [reading_raw_ok hd] at hp
      obtain rfl := Except.ok.inj hp
      exact h q hd
    | error e =>
      rw [reading_raw_error hd] at hp
      cases hp
  | decoded q | both bytes q =>
    obtain rfl := Except.ok.inj hp
    exact h

private theorem holds_of_reading (h : ∀ p, d.reading = .ok p → P p) : Holds P d := by
  cases d with
  | raw bytes => exact fun p hp ↦ h p (reading_raw_ok hp)
  | decoded p | both bytes p => exact h p rfl

private theorem Holds.afterReading (h : Holds P d) : Holds P d.afterReading :=
  holds_of_reading fun _ hp ↦ h.of_reading (reading_afterReading d ▸ hp)

private theorem Holds.afterEncoding (h : Holds P d)
    (back : ∀ p q, P p → Payload.decode s (Payload.encode p) = .ok q → P q) :
    Holds P d.afterEncoding := by
  cases d with
  | raw bytes | both bytes p => exact h
  | decoded p => exact fun q hq ↦ back p q h hq

/-- Settled payloads stay so, whatever is asked of a document. -/
theorem Holds.reply (h : Holds Payload.Settled d) (request : Request s) :
    Holds Payload.Settled (Document.reply request d).2 := by
  have back (p q : s.Payload) (_ : Payload.Settled p)
      (hq : Payload.decode s (Payload.encode p) = .ok q) : Payload.Settled q :=
    Payload.settled_of_decode hq
  have scanned (bytes : Bytes) : Holds Payload.Settled ((scanBytes bytes).result d).2 := by
    rw [result_scanBytes]
    split
    · intro p hp
      exact Payload.settled_of_decode hp
    · exact h
  cases request with
  | decode | length | isEmpty | get =>
    simp only [Document.reply, Action.reply, result_decode, result_length, result_isEmpty,
      result_get]
    exact h.afterReading
  | encode | marshal | bind =>
    simp only [Document.reply, Action.reply, marshal, result_encode, result_bind]
    exact h.afterEncoding back
  | scan source =>
    simp only [Document.reply, Action.reply, result_scan]
    split
    · exact scanned _
    · exact h
  | unmarshal text =>
    simp only [Document.reply, Action.reply, result_unmarshal]
    split
    · next p hp => exact Payload.settled_of_decode hp
    · exact h

end Document

namespace CheckedDocument

variable {s : Shape} {c : CheckedDocument s}

/-- The schema is normal, and the document conforms to it. -/
def Conforms (c : CheckedDocument s) : Prop :=
  c.schema.Normal ∧ Document.Holds (Payload.Conforms c.schema) c.document

/-- Whatever is asked of a checked document, its schema stays. -/
theorem schema_reply (request : Request s) (c : CheckedDocument s) :
    (CheckedDocument.reply request c).2.schema = c.schema := by
  cases request with
  | decode | encode | marshal | bind | length | isEmpty | get | values => rfl
  | unmarshal | append | set | remove =>
    simp only [CheckedDocument.reply, Action.reply, result_unmarshal, result_append, result_set,
      result_remove]
    repeat' split
    all_goals rfl

/-- Whatever is asked of a checked document, it still conforms, if no box is handed over. -/
theorem Conforms.reply (h : c.Conforms) {request : Request s}
    (hr : request.Hands fun v ↦ v.normalize.Boxless) :
    (CheckedDocument.reply request c).2.Conforms := by
  obtain ⟨hs, hd⟩ := h
  have read : Conforms ⟨c.document.afterReading, c.schema⟩ := ⟨hs, hd.afterReading⟩
  cases request with
  | decode | length | isEmpty | get | values =>
    simp only [CheckedDocument.reply, Action.reply, result_decode, length, isEmpty, get,
      result_values, result_onDocument, Document.result_length, Document.result_isEmpty,
      Document.result_get]
    exact read
  | encode | marshal | bind =>
    simp only [CheckedDocument.reply, Action.reply, encode, marshal, bind, Document.marshal,
      result_onDocument, Document.result_encode, Document.result_bind]
    exact ⟨hs, hd.afterEncoding fun _ _ hp hq ↦ hp.of_decode_encode hq⟩
  | unmarshal text =>
    simp only [CheckedDocument.reply, Action.reply, result_unmarshal]
    split
    · next p hp =>
      split
      · next hc => exact ⟨hs, Payload.conforms_of_check hs (Payload.settled_of_decode hp) hc⟩
      · exact ⟨hs, hd⟩
    · exact ⟨hs, hd⟩
  | append v =>
    simp only [CheckedDocument.reply, Action.reply, result_append]
    split
    · next items hi =>
      split
      · next hc => exact ⟨hs, (hd.of_reading hi).append hs hr hc⟩
      · exact read
    · exact ⟨hs, hd⟩
  | set key v =>
    simp only [CheckedDocument.reply, Action.reply, result_set]
    split
    · next hc =>
      split
      · next members hm =>
        exact ⟨hs, (hd.of_reading hm).insert hs hr hc⟩
      · exact ⟨hs, hd⟩
    · exact ⟨hs, hd⟩
  | remove key =>
    simp only [CheckedDocument.reply, Action.reply, result_remove]
    split
    · next members hm =>
      split
      · exact ⟨hs, (hd.of_reading hm).erase key⟩
      · exact read
    · exact ⟨hs, hd⟩

end CheckedDocument

/-! ## Sessions -/

private theorem lazy_keeps_conforming :
    Realization.lazy.Keeps (fun v ↦ v.normalize.Boxless) (Document.Holds Payload.Settled)
      CheckedDocument.Conforms where
  empty s := Payload.settled_empty
  ofRaw := by
    intro s bytes d h
    simp only [Realization.lazy, Document.answer_ofRaw] at h
    split at h
    · obtain rfl := Except.ok.inj h
      intro p hp
      exact Payload.settled_of_decode hp
    · cases h
  ofPayload h := Payload.settled_normalize h
  ask := by
    intro s request d h
    exact h.reply request
  emptyChecked s schema h := ⟨h, Payload.conforms_empty schema⟩
  asType := by
    intro s schema hs d d' c h hc
    simp only [Realization.lazy, Document.result_asType] at hc
    split at hc
    · next p hp =>
      cases hv : Payload.check schema p with
      | ok u =>
        rw [hv] at hc
        obtain ⟨hc, -⟩ := Prod.mk.inj hc
        obtain rfl := Except.ok.inj hc
        refine ⟨hs, Document.holds_of_reading fun q hq ↦ ?_⟩
        rw [Document.reading_afterReading, hp] at hq
        obtain rfl := Except.ok.inj hq
        exact Payload.conforms_of_check hs (h.of_reading hp) hv
      | error e =>
        rw [hv] at hc
        cases (Prod.mk.inj hc).1
    · cases (Prod.mk.inj hc).1
  source := by
    intro s schema d h
    simp only [Realization.lazy, Document.result_asType]
    split
    · exact h.afterReading
    · exact h
  askChecked hr _ h := h.reply hr

/-- Whatever was done in a session in which no box was handed over, a checked document under a
schema for its shape that can be decoded has a payload without violation, and no request takes its
schema away. -/
theorem checked_documents_conform (commands : List Command) (hn : ∀ c ∈ commands, c.Normal)
    (hv : ∀ c ∈ commands, c.Hands fun v ↦ v.normalize.Boxless) {s : Shape} {name : String}
    {c : CheckedDocument s}
    (hc : (Realization.lazy.run commands .start).2.checked s name = some c)
    (hs : c.schema.Suits s) :
    (∀ p, (CheckedDocument.decode.run c).answer = .ok p →
      c.schema.check (Payload.toValue p) = .ok () ∧
        c.schema.accepts (Payload.toValue p) = true) ∧
      ∀ request, (CheckedDocument.reply request c).2.schema = c.schema := by
  refine ⟨fun p hp ↦ ?_, fun request ↦ CheckedDocument.schema_reply request c⟩
  obtain ⟨normal, holds⟩ := (lazy_keeps_conforming.run_start hn hv).checked s name c hc
  have read : c.document.reading = .ok p := by
    rw [← hp]
    exact (Prod.mk.inj (CheckedDocument.result_decode c)).1.symm
  obtain ⟨settled, inhabits⟩ := holds.of_reading read
  have checked := (Schema.checkAt_eq_ok_iff normal settled.normal Path.root).mpr (inhabits hs)
  exact ⟨checked, by rw [Schema.accepts, Schema.check, checked]; rfl⟩

/-- An item that was added, one that was refused, and the text that takes their place and is read
again. -/
theorem added_item_conforms_once_read_again :
    ∃ c : CheckedDocument .list,
      (Realization.lazy.run
        [.newChecked .list (.list (.string 2) 1) "names",
          .askChecked "names" (.append (.string "Al")),
          .askChecked "names" (.append (.string "Bo")),
          .askChecked (s := .list) "names" .encode,
          .askChecked (s := .list) "names" .length] .start).2.checked .list "names" = some c ∧
        c.document.state = .both ∧ c.schema.check (.list [.string "Al"]) = .ok () := by
  have there : (Realization.lazy.run
      [.newChecked .list (.list (.string 2) 1) "names",
        .askChecked "names" (.append (.string "Al")),
        .askChecked "names" (.append (.string "Bo")),
        .askChecked (s := .list) "names" .encode,
        .askChecked (s := .list) "names" .length] .start).2.checked .list "names" =
      some ⟨.both (Json.asciiBytes ['[', '"', 'A', 'l', '"', ']']) [.string "Al"],
        .list (.string 2) 1⟩ := by rfl
  have conform := checked_documents_conform _ (by simp [Command.Normal, Schema.Normal])
    (by simp [Command.Hands, CheckedDocument.Request.Hands, Value.normalize, Value.Boxless,
      Value.All, Value.isBox]) there (.inl rfl)
  exact ⟨_, there, rfl, (conform.1 [.string "Al"] (by rfl)).1⟩

/-- A box that is added under a schema for objects of texts is let pass. Once the list was encoded,
what is read is the number in the text of the box, which the schema refuses. -/
theorem added_box_does_not_conform_once_read_again :
    ∃ c : CheckedDocument .list, ∃ five : Number,
      (Realization.lazy.run
        [.newChecked .list
            (.list (.table [("$serde_json::private::RawValue", .string 0)]) 0) "texts",
          .askChecked "texts" (.append (.table [("$serde_json::private::RawValue", .string "5")])),
          .askChecked (s := .list) "texts" .encode] .start).2.checked .list "texts" = some c ∧
        c.schema.Suits .list ∧ c.schema.Normal ∧
        (CheckedDocument.decode.run c).answer = .ok ([.number five] : List Value) ∧
        c.schema.check (.list [.number five]) = .error ⟨"$root[0]", "table", "number"⟩ := by
  have five : Json.unbox (Utf8.encode "5") =
      .ok (.number (.integer ⟨5, by decide, by decide⟩)) := by rfl
  have back := Payload.decode_encode_box five
  have there : (Realization.lazy.run
      [.newChecked .list (.list (.table [("$serde_json::private::RawValue", .string 0)]) 0) "texts",
        .askChecked "texts" (.append (.table [("$serde_json::private::RawValue", .string "5")])),
        .askChecked (s := .list) "texts" .encode] .start).2.checked .list "texts" =
      some ⟨.raw (Payload.encode (s := .list) [.table [(Json.boxKey, .string "5")]]),
        .list (.table [(Json.boxKey, .string 0)]) 0⟩ := by rfl
  refine ⟨_, .integer ⟨5, by decide, by decide⟩, there, .inl rfl,
    ⟨List.pairwise_singleton _ _, trivial, trivial⟩, ?_, by rfl⟩
  exact (Prod.mk.inj (CheckedDocument.result_decode _)).1.trans (Document.reading_raw_ok back)

end SchemaDoc
