import SchemaDoc.Proofs.Json.Parts

/-!
# Values are read from their own bytes

Reading a value depends on the bytes of that value alone: they are one value by the grammar, in
UTF-8, and say the same wherever they stand. So the reader accepts nothing that the skimmer refuses,
and a value may be cut out of a text and put into another.
-/

namespace SchemaDoc.Json

/-- The bytes of a value, which is read from them with at most `depth` brackets open at once. -/
structure Spells (depth : Nat) (v : Value) (t : Bytes) : Prop where
  /-- The bytes are one value in UTF-8. -/
  plain : Plain ValueText t
  /-- The bytes are read as the value, wherever they stand. -/
  reads : ∀ {limit : Nat} {pre rest : Bytes}, t.length ≤ limit → Blank pre → EndsNumber rest →
    readValue limit depth (pre ++ (t ++ rest)) = .ok (v, rest)

private theorem readValue_append {pre : Bytes} (h : Blank pre) (limit depth : Nat) (bs : Bytes) :
    readValue limit depth (pre ++ bs) = readValue limit depth bs := by
  cases depth <;> rw [readValue, readValueWith, readValueWith, h.skipBlank_append]

/-! ## Parts of bounded size -/

private theorem Parts.room {α : Type} {text : α → Bytes → Prop} {bracket : Bracket} {first : Bool}
    {xs : List α} {t : Bytes} (h : Parts text bracket first xs t) {limit : Nat}
    (hl : t.length ≤ limit) :
    Parts (fun x t ↦ text x t ∧ t.length ≤ limit) bracket first xs t := by
  induction h with
  | close hp => exact .close hp
  | @part _ _ t after _ _ hs ht _ ih =>
    simp only [List.length_append] at hl
    exact .part hs ⟨ht, by omega⟩ (ih (by omega))

private theorem MemberText.room {κ α : Type} {key : κ → Bytes → Prop} {text : α → Bytes → Prop}
    {m : κ × α} {t : Bytes} {limit : Nat} (h : MemberText key text m t ∧ t.length ≤ limit) :
    MemberText key (fun x t ↦ text x t ∧ t.length ≤ limit) m t := by
  obtain ⟨h, hl⟩ := h
  cases h with
  | intro hk hb hp hv =>
    simp only [List.length_cons, List.length_append] at hl
    exact .intro hk hb hp ⟨hv, by omega⟩

private theorem MemberText.isText {κ α : Type} {key : κ → Bytes → Prop} {text : α → Bytes → Prop}
    {m : κ × α} {t : Bytes} (h : MemberText key text m t)
    (keys : ∀ k t, key k t → Utf8.IsText t) (values : ∀ x t, text x t → Utf8.IsText t) :
    Utf8.IsText t := by
  cases h with
  | intro hk hb hp hv =>
    have value := (hp.isText.append (values _ _ hv)).cons (b := ascii ':') (by decide)
    exact ((keys _ _ hk).append (hb.isText.append value)).cons (by decide)

/-! ## Spelling values -/

/-- A list of values in UTF-8 is a value in UTF-8. -/
theorem plain_list {α : Type} {text : α → Bytes → Prop} {xs : List α} {t : Bytes}
    (h : Parts text .list true xs t) (each : ∀ x t, text x t → Plain ValueText t) :
    Plain ValueText (ascii '[' :: t) := by
  have inside := h.insideText_list fun x t hx ↦ (each x t hx).kind
  have text := h.isText fun x t hx ↦ (each x t hx).text
  exact ⟨.bracket inside, text.cons (by decide)⟩

/-- A table of values in UTF-8 is a value in UTF-8. -/
theorem plain_table {κ α : Type} {key : κ → Bytes → Prop} {text : α → Bytes → Prop}
    {ms : List (κ × α)} {t : Bytes} (h : Parts (MemberText key text) .table true ms t)
    (keys : ∀ k t, key k t → Plain StringText t) (each : ∀ x t, text x t → Plain ValueText t) :
    Plain ValueText (ascii '\x7b' :: t) := by
  have inside := h.insideText_table (fun k t hk ↦ (keys k t hk).kind)
    fun x t hx ↦ (each x t hx).kind
  have text := h.isText fun _ _ hm ↦
    hm.isText (fun k t hk ↦ (keys k t hk).text) fun x t hx ↦ (each x t hx).text
  exact ⟨.bracket inside, text.cons (by decide)⟩

namespace Spells

variable {depth : Nat}

private theorem of_scalar (depth : Nat) {v : Value} {t : Bytes} (h : Plain ScalarText t)
    (reads : ∀ rest, EndsNumber rest → readScalar (t ++ rest) = .ok (v, rest)) :
    Spells depth v t := by
  refine ⟨⟨.scalar h.kind, h.text⟩, ?_⟩
  intro limit pre rest _ hp hr
  have read := reads rest hr
  obtain ⟨b, bs, rfl, hb, hl, ht⟩ := h.kind.eq_cons
  rw [readValue_append hp, List.cons_append, readValue_eq_readScalar limit depth hb.1 hl ht]
  exact read

/-- A list is spelled by the spellings of its items. -/
theorem of_list {items : List Value} {t : Bytes} (h : Parts (Spells depth) .list true items t) :
    Spells (depth + 1) (.list items) (ascii '[' :: t) := by
  refine ⟨plain_list h fun _ _ hs ↦ hs.plain, ?_⟩
  intro limit pre rest hl hp hr
  rw [List.length_cons] at hl
  have nonempty (v : Value) (u : Bytes) (hs : Spells depth v u) : u ≠ [] := by
    obtain ⟨b, bs, rfl, -⟩ := hs.plain.kind.eq_cons
    simp
  have count : items.length < limit := Nat.lt_of_lt_of_le (h.length_lt nonempty) (by omega)
  have each (v : Value) (u rest : Bytes) (hu : Spells depth v u ∧ u.length ≤ limit)
      (hr : EndsNumber rest) : readValue limit depth (u ++ rest) = .ok (v, rest) :=
    hu.1.reads hu.2 blank_nil hr
  have bounded := h.room (Nat.le_of_succ_le hl)
  obtain ⟨left, read, close⟩ :=
    bounded.readItems (fun _ _ hu ↦ hu.1.plain.kind.eq_cons) each rest count []
  have step : readValue limit (depth + 1) (ascii '[' :: (t ++ rest)) =
      (readList limit (readValue limit depth) (t ++ rest)).map fun r ↦ (.list r.1, r.2) := rfl
  rw [readValue_append hp, List.cons_append, step]
  simp only [readList, read, close, bind, Except.bind]
  rfl

/-- A table is spelled by the spellings of its members. -/
theorem of_table {members : List (String × Value)} {t : Bytes}
    (h : Parts (MemberText SpellsKey (Spells depth)) .table true members t) :
    Spells (depth + 1) (.table members) (ascii '\x7b' :: t) := by
  refine ⟨plain_table h (fun _ _ hk ↦ hk.plain) fun _ _ hs ↦ hs.plain, ?_⟩
  intro limit pre rest hl hp hr
  rw [List.length_cons] at hl
  have nonempty (m : String × Value) (u : Bytes)
      (hm : MemberText SpellsKey (Spells depth) m u) : u ≠ [] := by
    cases hm
    simp
  have count : members.length < limit := Nat.lt_of_lt_of_le (h.length_lt nonempty) (by omega)
  have each (v : Value) (pre u rest : Bytes) (hu : Spells depth v u ∧ u.length ≤ limit)
      (hp : Blank pre) (hr : EndsNumber rest) :
      readValue limit depth (pre ++ (u ++ rest)) = .ok (v, rest) := hu.1.reads hu.2 hp hr
  have bounded := (h.room (Nat.le_of_succ_le hl)).imp fun _ _ ↦ MemberText.room
  obtain ⟨left, read, close⟩ := bounded.readMembers each rest count []
  have step : readValue limit (depth + 1) (ascii '\x7b' :: (t ++ rest)) =
      (readTable limit (readValue limit depth) (t ++ rest)).map fun r ↦ (.table r.1, r.2) := rfl
  rw [readValue_append hp, List.cons_append, step]
  simp only [readTable, read, close, bind, Except.bind]
  rfl

end Spells

/-! ## Values that were read -/

/-- A value that was read is spelled in front, behind blanks. -/
theorem spells_of_readValue {limit depth : Nat} {bs left : Bytes} {v : Value}
    (h : readValue limit depth bs = .ok (v, left)) :
    ∃ pre t, Blank pre ∧ Spells depth v t ∧ bs = pre ++ (t ++ left) := by
  have scalar {depth : Nat} {bs left : Bytes} {v : Value} (h : readScalar bs = .ok (v, left)) :
      ∃ t, Spells depth v t ∧ bs = t ++ left := by
    obtain ⟨t, ht, hx, read⟩ := spelled_of_readScalar h
    exact ⟨t, .of_scalar depth ht read, hx⟩
  have inner {depth : Nat} {bs left : Bytes} {v : Value}
      (h : ∃ b rest t, skipBlank bs = b :: rest ∧ Spells depth v t ∧ b :: rest = t ++ left) :
      ∃ pre t, Blank pre ∧ Spells depth v t ∧ bs = pre ++ (t ++ left) := by
    obtain ⟨b, rest, t, hs, ht, hx⟩ := h
    obtain ⟨pre, hp, he⟩ := exists_blank_append bs
    exact ⟨pre, t, hp, ht, by rw [he, hs, hx]⟩
  apply inner
  induction depth generalizing bs v left with
  | zero =>
    obtain ⟨b, rest, hs, hv | ⟨_, hi, -⟩⟩ := readValueWith_cases h
    · obtain ⟨t, ht, hx⟩ := scalar hv
      exact ⟨b, rest, t, hs, ht, hx⟩
    · cases hi
  | succ depth ih =>
    obtain ⟨b, rest, hs, hv | ⟨_, hi, ⟨rfl, items, rfl, hr⟩ | ⟨rfl, members, rfl, hr⟩⟩⟩ :=
      readValueWith_cases h
    · obtain ⟨t, ht, hx⟩ := scalar hv
      exact ⟨b, rest, t, hs, ht, hx⟩
    · obtain rfl := Option.some.inj hi
      obtain ⟨t, parts, rfl⟩ := parts_of_readList (fun _ _ _ hx ↦ inner (ih hx)) hr
      exact ⟨_, _, _, hs, .of_list parts, rfl⟩
    · obtain rfl := Option.some.inj hi
      obtain ⟨t, parts, rfl⟩ := parts_of_readTable (fun _ _ _ hx ↦ inner (ih hx)) hr
      exact ⟨_, _, _, hs, .of_table parts, rfl⟩

/-- A value is read alike with every limit that leaves room for its bytes. -/
theorem readValue_of_length_le {limit room depth : Nat} {bs left : Bytes} {v : Value}
    (h : readValue limit depth bs = .ok (v, left)) (ends : EndsNumber left)
    (hl : bs.length ≤ room) : readValue room depth bs = .ok (v, left) := by
  obtain ⟨pre, t, hp, ht, rfl⟩ := spells_of_readValue h
  simp only [List.length_append] at hl
  exact ht.reads (by omega) hp ends

/-! ## Texts -/

/-- A text says a value if it is the bytes of the value between blanks. -/
theorem parse_eq_ok_iff {input : Bytes} {v : Value} : parse input = .ok v ↔
    ∃ pre t post, Blank pre ∧ Blank post ∧ Spells depthLimit v t ∧ input = pre ++ (t ++ post) := by
  rw [parse, readWhole_eq_ok_iff]
  constructor
  · rintro ⟨post, h, hpost⟩
    obtain ⟨pre, t, hp, ht, he⟩ := spells_of_readValue h
    exact ⟨pre, t, post, hp, hpost, ht, he⟩
  · rintro ⟨pre, t, post, hp, hpost, ht, rfl⟩
    have room : t.length ≤ (pre ++ (t ++ post)).length := by
      simp only [List.length_append]
      omega
    exact ⟨post, ht.reads room hp hpost.ends, hpost⟩

/-- The bytes of a value say it. -/
theorem Spells.parse {v : Value} {t : Bytes} (h : Spells depthLimit v t) : parse t = .ok v :=
  parse_eq_ok_iff.mpr ⟨[], t, [], blank_nil, blank_nil, h, by simp⟩

/-- A text that says a value is UTF-8. -/
theorem isText_of_parse {input : Bytes} {v : Value} (h : parse input = .ok v) :
    Utf8.IsText input := by
  obtain ⟨pre, t, post, hp, hpost, ht, rfl⟩ := parse_eq_ok_iff.mp h
  exact hp.isText.append (ht.plain.text.append hpost.isText)

/-- Of a text that says a value, the bytes of the value are kept. -/
theorem textOf_of_parse {input : Bytes} {v : Value} (h : parse input = .ok v) :
    ∃ kept, textOf input = .ok kept ∧ Spells depthLimit v kept := by
  obtain ⟨pre, t, post, hp, hpost, ht, rfl⟩ := parse_eq_ok_iff.mp h
  have kept := textOf_eq_ok_iff.mpr ⟨pre, post, hp, hpost, ht.plain.kind, ht.plain.text, rfl⟩
  exact ⟨t, kept, ht⟩

/-- What is kept of a text says a value only if the text does. -/
theorem parse_of_textOf {input kept : Bytes} {v : Value} (h : textOf input = .ok kept)
    (hk : Json.parse kept = .ok v) : Json.parse input = .ok v := by
  obtain ⟨pre, post, hp, hpost, -, -, rfl⟩ := textOf_eq_ok_iff.mp h
  obtain ⟨before, t, after, hb, ha, ht, rfl⟩ := parse_eq_ok_iff.mp hk
  exact parse_eq_ok_iff.mpr
    ⟨pre ++ before, t, after ++ post, hp.append hb, ha.append hpost, ht, by simp⟩

end SchemaDoc.Json
