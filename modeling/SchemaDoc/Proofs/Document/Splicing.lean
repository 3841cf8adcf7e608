import SchemaDoc.Embedding.Row
import SchemaDoc.Proofs.Document.Reachable
import SchemaDoc.Proofs.Json.Members

/-!
# Documents in larger texts

A document that can be read stands for its payload wherever it is spliced in. Raw bytes are spliced
in as they are, but only if they are one value of the shape, so that nothing of them reaches into
the text around: an object that a document is put into has the members that it was given.
-/

namespace SchemaDoc

variable {s : Shape}

/-! ## Brackets -/

/-- The bracket of a shape. -/
def Shape.bracket : Shape → Json.Bracket
  | list => .list
  | table => .table

private theorem Shape.opening_bracket (s : Shape) : s.bracket.opening = s.opening := by
  cases s <;> rfl

/-- There are no blanks before what starts as a shape demands. -/
theorem Shape.skipBlank_of_head? (s : Shape) {bs : Bytes} (h : bs.head? = some s.opening) :
    Json.skipBlank bs = bs := by
  cases bs with
  | nil => cases h
  | cons b bs =>
    obtain rfl := Option.some.inj h
    cases s <;> exact Json.skipBlank_cons (by decide) bs

private theorem Json.ValueText.bracketText {bracket : Bracket} {t : Bytes} (h : ValueText t)
    (hb : t.head? = some bracket.opening) : BracketText bracket t := by
  cases h with
  | scalar hs =>
    obtain ⟨b, bs, rfl, -, hl, ht⟩ := hs.eq_cons
    cases Option.some.inj hb
    cases bracket
    · exact absurd rfl hl
    · exact absurd rfl ht
  | @bracket bracket' inside hi =>
    have same : bracket' = bracket := by
      have opening := Option.some.inj hb
      revert opening
      cases bracket' <;> cases bracket <;> decide
    subst same
    exact ⟨inside, rfl, hi⟩

/-! ## Payloads -/

namespace Payload

private theorem exists_toValue_of_parse {input : Bytes} {v : Value}
    (ho : input.head? = some s.opening)
    (h : Json.parse input = .ok v) : ∃ q : s.Payload, v = toValue q := by
  have skipped := s.skipBlank_of_head? ho
  obtain ⟨left, hr, -⟩ := Json.readWhole_eq_ok_iff.mp h
  obtain ⟨b, rest, hs, hv | ⟨inner, -, ⟨hb, items, rfl, -⟩ | ⟨hb, members, rfl, -⟩⟩⟩ :=
    Json.readValueWith_cases hr
  all_goals
    rw [skipped] at hs
    subst hs
    obtain rfl := Option.some.inj ho
  · cases s <;> cases hv
  · cases s with
    | list => exact ⟨items, rfl⟩
    | table => exact absurd hb (by decide)
  · cases s with
    | list => exact absurd hb (by decide)
    | table => exact ⟨members, rfl⟩

private theorem marked_of_keyless {unbox : Bytes → Except Json.Error Value} {p q : s.Payload}
    (ho : opened unbox p = .ok q) (hk : Keyless (normalize q)) : (toValue p).marked = false := by
  cases s with
  | list => rfl
  | table =>
    have keys : Dictionary.keys (Value.normalizeMembers q) = Dictionary.keys p := by
      rw [← Value.keys_of_openedMembers ho, Value.normalizeMembers_eq_map]
      simp [Dictionary.keys]
    have absent : Json.boxKey ∉ Dictionary.keys p := by
      rw [← keys, ← Dictionary.mem_keys_ofList]
      exact hk.1 _ rfl
    cases p with
    | nil => rfl
    | cons m members =>
      have other : m.1 ≠ Json.boxKey := fun same ↦ absent (same ▸ List.mem_cons_self)
      simp [toValue, Value.marked, other]

private theorem head?_printPretty (level : Nat) (p : s.Payload) :
    (Json.printPretty level (toValue p)).head? = some s.opening := by
  cases s <;> cases p <;> rfl

end Payload

namespace Document

/-! ## Texts -/

/-- The text of the document as a part of a compact or a pretty text. -/
def Splices (d : Document s) (t : Bytes) : Prop :=
  d.splice = .ok t ∨ ∃ level, d.splicePretty level = .ok t

/-- The text of raw bytes is kept, and the text of a payload is printed. -/
theorem Splices.cases {d : Document s} {t : Bytes} (h : d.Splices t) :
    (∃ bytes, d.raw? = some bytes ∧ Json.textOf bytes = .ok t) ∨
      ∃ p, d = decoded p ∧ (t = Payload.encode p ∨
        ∃ level, t = Json.printPretty level (Payload.toValue p)) := by
  cases d with
  | raw bytes | both bytes p =>
    refine .inl ⟨bytes, rfl, ?_⟩
    rcases h with h | ⟨level, h⟩ <;> exact h
  | decoded p =>
    refine .inr ⟨p, rfl, ?_⟩
    rcases h with h | ⟨level, h⟩
    · exact .inl (Except.ok.inj h).symm
    · exact .inr ⟨level, (Except.ok.inj h).symm⟩

/-- Whatever is spliced in is one array or object, as the shape demands, in UTF-8. -/
theorem InStep.bracketText {d : Document s} (h : d.InStep) {t : Bytes} (ht : d.Splices t) :
    Json.BracketText s.bracket t ∧ Utf8.IsText t := by
  have shaped (hv : Json.ValueText t) (ho : t.head? = some s.opening) :
      Json.BracketText s.bracket t :=
    hv.bracketText (by rw [ho, s.opening_bracket])
  rcases ht.cases with ⟨bytes, hb, hk⟩ | ⟨p, -, rfl | ⟨level, rfl⟩⟩
  · obtain ⟨pre, post, hp, -, hv, text, rfl⟩ := Json.textOf_eq_ok_iff.mp hk
    have head := h.opening _ hb
    obtain rfl := hp.eq_nil (s.skipBlank_of_head? head)
    obtain ⟨b, bs, rfl, -⟩ := hv.eq_cons
    exact ⟨shaped hv head, text⟩
  · have plain := Json.plain_print (Payload.toValue p)
    exact ⟨shaped plain.kind (Payload.head?_encode p), plain.text⟩
  · have plain := Json.plain_printPretty level (Payload.toValue p)
    exact ⟨shaped plain.kind (Payload.head?_printPretty level p), plain.text⟩

private theorem exists_textOf {bytes : Bytes} {p : s.Payload}
    (h : Payload.decode s bytes = .ok p) :
    ∃ t, Json.textOf bytes = .ok t ∧ Payload.decode s t = .ok p := by
  obtain ⟨q, hq, opens⟩ := Payload.decode_eq_ok_iff.mp h
  obtain ⟨t, kept, spells⟩ := Json.textOf_of_parse hq
  exact ⟨t, kept, Payload.decode_eq_ok_iff.mpr ⟨q, spells.parse, opens⟩⟩

private theorem toValue_eq_ok_iff {d : Document s} {bytes : Bytes} (h : d.raw? = some bytes)
    {w : Value} :
    d.toValue = .ok w ↔
      ∃ v, Json.parse bytes = .ok v ∧ ∃ u, v.opened Json.unbox = .ok u ∧ u.normalize = w := by
  have steps : d.toValue = (do
      let kept ← Json.textOf bytes
      return (← Json.unbox kept).normalize : Except Json.Error Value) := by
    cases d <;> cases h <;> rfl
  rw [steps]
  constructor
  · intro h
    obtain ⟨kept, hk, h⟩ := Json.eq_ok_of_bind_eq_ok h
    obtain ⟨u, hu, h⟩ := Json.eq_ok_of_bind_eq_ok h
    obtain ⟨v, hv, ho⟩ := Json.unbox_eq_ok_iff.mp hu
    exact ⟨v, Json.parse_of_textOf hk hv, u, ho, Except.ok.inj h⟩
  · rintro ⟨v, hv, u, ho, rfl⟩
    obtain ⟨t, kept, spells⟩ := Json.textOf_of_parse hv
    rw [kept]
    change (Json.unbox t >>= fun u ↦ pure u.normalize) = _
    rw [Json.unbox_eq_ok_iff.mpr ⟨v, spells.parse, ho⟩]
    rfl

/-! ## Faithfulness -/

/-- A document stands for a payload wherever it is spliced in. -/
structure Carries (d : Document s) (p : s.Payload) : Prop where
  /-- The text of the document in a compact text says the payload. -/
  compact : ∃ t, d.splice = .ok t ∧ Payload.decode s t = .ok p
  /-- The text of the document in a pretty text says the payload, at any level. -/
  pretty : ∀ level, ∃ t, d.splicePretty level = .ok t ∧ Payload.decode s t = .ok p
  /-- The document as a value is the payload. -/
  value : d.toValue = .ok (Payload.toValue p)

private theorem carries_of_raw? {d : Document s} {bytes : Bytes} (h : d.raw? = some bytes)
    {p : s.Payload} (hp : Payload.decode s bytes = .ok p) (hk : Payload.Keyless p) :
    d.Carries p := by
  obtain ⟨t, kept, said⟩ := exists_textOf hp
  obtain ⟨q, hq, r, ho, rfl⟩ := Payload.decode_eq_ok_iff.mp hp
  have opens : (Payload.toValue q).opened Json.unbox = .ok (Payload.toValue r) := by
    rw [Value.opened_eq_partsOpened (Payload.marked_of_keyless ho hk)]
    exact Payload.opened_eq_ok_iff.mp ho
  have value := (toValue_eq_ok_iff h).mpr ⟨_, hq, _, opens, (Payload.toValue_normalize r).symm⟩
  cases d <;> cases h <;> exact ⟨⟨t, kept, said⟩, fun _ ↦ ⟨t, kept, said⟩, value⟩

private theorem carries_decoded {p : s.Payload} (hp : Payload.Normal p)
    (hf : Payload.DoubleFree p) (hd : Payload.Shallow p) (hk : Payload.Keyless p) :
    (decoded p).Carries p := by
  refine ⟨⟨_, rfl, (Payload.decode_encode_iff hp hf).mpr ⟨hd, hk.unmarked⟩⟩, ?_, rfl⟩
  intro level
  have said := (Json.spells_printPretty level hf hd).parse
  have normal : Payload.normalize p = p :=
    Payload.toValue_injective ((Payload.toValue_normalize p).trans hp.normalize_eq)
  exact ⟨_, rfl, Payload.decode_eq_ok_iff.mpr ⟨p, said, p, hk.unmarked.opened_eq, normal⟩⟩

private theorem InStep.carries {d : Document s} (h : d.InStep) {p : s.Payload}
    (hp : d.reading = .ok p) (hk : Payload.Keyless p)
    (free : d.raw? = none → Payload.DoubleFree p ∧ Payload.Shallow p) : d.Carries p := by
  cases d with
  | raw bytes =>
    cases hd : Payload.decode s bytes with
    | error e => simp [reading_raw_error hd] at hp
    | ok q =>
      rw [reading_raw_ok hd] at hp
      obtain rfl := Except.ok.inj hp
      exact carries_of_raw? rfl hd hk
  | decoded q =>
    obtain rfl := Except.ok.inj hp
    obtain ⟨hf, hd⟩ := free rfl
    exact carries_decoded (h.normal q rfl) hf hd hk
  | both bytes q =>
    obtain rfl := Except.ok.inj hp
    exact carries_of_raw? rfl (h.agree bytes q rfl) hk

private theorem InStep.toValue_error {d : Document s} (h : d.InStep) {e : DocumentError}
    (he : d.reading = .error e) : ∃ e', d.toValue = .error e' := by
  cases d with
  | decoded q | both bytes q => cases he
  | raw bytes =>
    cases hv : (raw bytes : Document s).toValue with
    | error e' => exact ⟨e', rfl⟩
    | ok w =>
      obtain ⟨v, hp, u, ho, -⟩ := (toValue_eq_ok_iff rfl).mp hv
      obtain ⟨q, rfl⟩ := Payload.exists_toValue_of_parse (h.opening bytes rfl) hp
      obtain ⟨w, parts⟩ := Value.exists_partsOpened_of_opened ho
      obtain ⟨r, rfl⟩ := Payload.exists_toValue_of_partsOpened parts
      have decoded :=
        Payload.decode_eq_ok_iff.mpr ⟨q, hp, r, Payload.opened_eq_ok_iff.mpr parts, rfl⟩
      rw [reading_raw_ok decoded] at he
      cases he

end Document

/-! ## Objects around documents -/

/-- A text of a shape stands by itself wherever it is put. -/
structure Contained (s : Shape) (t : Bytes) : Prop where
  /-- The text is one array or object, with nothing before or after it. -/
  whole : Json.BracketText s.bracket t
  /-- The text is UTF-8. -/
  text : Utf8.IsText t
  /-- An object that the text is put into as a member, among others and in any layout, has the
  members that it was given and no others. -/
  members : ∀ {gap space close : Bytes}, Json.Blank gap → Json.Blank space → Json.Blank close →
    ∀ (before after : List (String × Bytes)) (name : String),
      (∀ m ∈ before ++ after, Json.ValueText m.2) → ∀ found,
        Json.ObjectText found
            (Json.structText gap space close (before ++ (name, t) :: after)) ↔
          found = (before ++ (name, t) :: after).map Json.writtenMember

private theorem Json.BracketText.valueText {bracket : Bracket} {t : Bytes}
    (h : BracketText bracket t) :
    ValueText t := by
  obtain ⟨inside, rfl, hi⟩ := h
  exact .bracket hi

private theorem Document.InStep.contained {d : Document s} (h : d.InStep) {t : Bytes}
    (ht : d.Splices t) :
    Contained s t := by
  obtain ⟨whole, text⟩ := h.bracketText ht
  refine ⟨whole, text, ?_⟩
  intro gap space close hg hs hc before after name others found
  apply Json.objectText_structText_iff hg hs hc
  intro m hm
  rcases List.mem_append.mp hm with hm | hm
  · exact others m (List.mem_append_left _ hm)
  rcases List.mem_cons.mp hm with rfl | hm
  · exact whole.valueText
  · exact others m (List.mem_append_right _ hm)

namespace Row

/-- The members of a row around the texts of its documents. -/
def members (row : Row) (tags attrs : Bytes) : List (String × Bytes) :=
  [("id", Json.print row.idValue), ("tags", tags), ("attrs", attrs)]

private theorem toJson_eq_ok {row : Row} {t : Bytes} (h : row.toJson = .ok t) :
    ∃ tags attrs, row.tags.splice = .ok tags ∧ row.attrs.splice = .ok attrs ∧
      t = Json.structText [] [] [] (row.members tags attrs) := by
  obtain ⟨tags, ht, h⟩ := Json.eq_ok_of_bind_eq_ok h
  obtain ⟨attrs, ha, h⟩ := Json.eq_ok_of_bind_eq_ok h
  refine ⟨tags, attrs, ht, ha, ?_⟩
  rw [← Except.ok.inj h]
  simp [Json.structText, Json.laid, members]

private theorem toPrettyJson_eq_ok {row : Row} {t : Bytes} (h : row.toPrettyJson = .ok t) :
    ∃ tags attrs, row.tags.splicePretty 1 = .ok tags ∧ row.attrs.splicePretty 1 = .ok attrs ∧
      t = Json.structText (Json.newLine 1) [Json.ascii ' '] (Json.newLine 0)
        (row.members tags attrs) := by
  obtain ⟨tags, ht, h⟩ := Json.eq_ok_of_bind_eq_ok h
  obtain ⟨attrs, ha, h⟩ := Json.eq_ok_of_bind_eq_ok h
  refine ⟨tags, attrs, ht, ha, ?_⟩
  rw [← Except.ok.inj h]
  simp [Json.structText, Json.laid, members]

private theorem objectText_iff {row : Row} (htags : row.tags.InStep) (hattrs : row.attrs.InStep)
    {t : Bytes} (h : row.toJson = .ok t ∨ row.toPrettyJson = .ok t) :
    ∃ tags attrs, row.tags.Splices tags ∧ row.attrs.Splices attrs ∧ ∀ found,
      Json.ObjectText found t ↔ found = (row.members tags attrs).map Json.writtenMember := by
  have values {tags attrs : Bytes} (ht : row.tags.Splices tags) (ha : row.attrs.Splices attrs) :
      ∀ m ∈ row.members tags attrs, Json.ValueText m.2 := by
    simp only [members, List.forall_mem_cons]
    exact ⟨(Json.plain_print _).kind, (htags.bracketText ht).1.valueText,
      (hattrs.bracketText ha).1.valueText, by simp⟩
  rcases h with h | h
  · obtain ⟨tags, attrs, ht, ha, rfl⟩ := toJson_eq_ok h
    refine ⟨tags, attrs, .inl ht, .inl ha, fun found ↦ ?_⟩
    exact Json.objectText_structText_iff Json.blank_nil Json.blank_nil Json.blank_nil
      (values (.inl ht) (.inl ha))
  · obtain ⟨tags, attrs, ht, ha, rfl⟩ := toPrettyJson_eq_ok h
    have space : Json.Blank [Json.ascii ' '] := by simp [Json.Blank, Json.isBlank]
    refine ⟨tags, attrs, .inr ⟨1, ht⟩, .inr ⟨1, ha⟩, fun found ↦ ?_⟩
    exact Json.objectText_structText_iff (Json.blank_newLine 1) space (Json.blank_newLine 0)
      (values (.inr ⟨1, ht⟩) (.inr ⟨1, ha⟩))

end Row

/-- What becomes of a document in larger texts. -/
structure Document.Outbound (d : Document s) : Prop where
  /-- A payload that is read and does not have the key of a box is carried; without raw bytes beside
  it, it has to have no doubles and not to be nested too deeply for that. -/
  faithful : ∀ p, (Document.decode.run d).answer = .ok p → Payload.Keyless p →
    (d.raw? = none → Payload.DoubleFree p ∧ Payload.Shallow p) → d.Carries p
  /-- A document that cannot be read is no value. -/
  refused : ∀ e, (Document.decode.run d).answer = .error e → ∃ e', d.toValue = .error e'
  /-- Whatever is spliced in stands by itself. -/
  contained : ∀ t, d.Splices t → Contained s t

private theorem Document.InStep.outbound {d : Document s} (h : d.InStep) : d.Outbound := by
  constructor
  · intro p hp
    exact h.carries (d.answer_decode.symm.trans hp)
  · intro e he
    exact h.toValue_error (d.answer_decode.symm.trans he)
  · intro t ht
    exact h.contained ht

/-- A document stands for its payload wherever it is spliced in. Whatever is spliced in, of a
document that cannot be read too, is one array or object of the shape and nothing more, and the
objects and the rows around it keep their own members. -/
theorem spliced_documents_are_faithful_and_contained :
    (∀ d : Document s, d.Reachable → d.Outbound) ∧
    (∀ c : CheckedDocument s, c.Reachable → c.document.Outbound) ∧
    ∀ row : Row, row.tags.Reachable → row.attrs.Reachable →
      ∀ t, row.toJson = .ok t ∨ row.toPrettyJson = .ok t →
        ∃ tags attrs, row.tags.Splices tags ∧ row.attrs.Splices attrs ∧ ∀ found,
          Json.ObjectText found t ↔ found = (row.members tags attrs).map Json.writtenMember := by
  refine ⟨fun d reached ↦ reached.inStep.outbound, fun c reached ↦ reached.inStep.outbound, ?_⟩
  intro row htags hattrs t ht
  exact Row.objectText_iff htags.inStep hattrs.inStep ht

/-- A list with blanks behind it, a table with another member behind it, and a row of the list and
an empty table. -/
theorem trailing_member_is_refused :
    ∃ (list : Document .list) (table : Document .table) (row : Row),
      list.bytes = Json.asciiBytes ['[', 'n', 'u', 'l', 'l', ']', ' '] ∧
      list.Carries ([.null] : List Value) ∧
      Contained .list (Json.asciiBytes ['[', 'n', 'u', 'l', 'l', ']']) ∧
      table.bytes = Json.asciiBytes ['\x7b', '\x7d', ',', '"', 'a', '"', ':', '1'] ∧
      (∃ e, table.toValue = .error e) ∧ row.tags = list ∧ row.attrs = .empty ∧
      ∃ t tags attrs, row.toJson = .ok t ∧ row.tags.Splices tags ∧ row.attrs.Splices attrs ∧
        ∀ found, Json.ObjectText found t ↔
          found = (row.members tags attrs).map Json.writtenMember := by
  have list : Document.Reachable
      (.raw (Json.asciiBytes ['[', 'n', 'u', 'l', 'l', ']', ' ']) : Document .list) :=
    @Document.Reachable.ofRaw .list (Json.asciiBytes ['[', 'n', 'u', 'l', 'l', ']', ' ']) _ (by rfl)
  have table : Document.Reachable
      (.raw (Json.asciiBytes ['\x7b', '\x7d', ',', '"', 'a', '"', ':', '1']) : Document .table) :=
    @Document.Reachable.ofRaw .table
      (Json.asciiBytes ['\x7b', '\x7d', ',', '"', 'a', '"', ':', '1']) _ (by rfl)
  have keyless : Payload.Keyless (s := .list) [.null] :=
    ⟨by rintro members ⟨⟩, by rintro members ⟨⟩, trivial⟩
  have outList := (spliced_documents_are_faithful_and_contained (s := .list)).1 _ list
  have outTable := (spliced_documents_are_faithful_and_contained (s := .table)).1 _ table
  obtain ⟨tags, attrs, ht, ha, members⟩ :=
    (spliced_documents_are_faithful_and_contained (s := .list)).2.2
      ⟨7, .raw (Json.asciiBytes ['[', 'n', 'u', 'l', 'l', ']', ' ']), .empty⟩ list .empty _
      (.inl (by rfl))
  exact ⟨_, _, _, rfl, outList.faithful _ (by rfl) keyless (by rintro ⟨⟩),
    outList.contained _ (.inl (by rfl)), rfl, outTable.refused _ (by rfl), rfl, rfl,
    _, tags, attrs, by rfl, ht, ha, members⟩

end SchemaDoc
