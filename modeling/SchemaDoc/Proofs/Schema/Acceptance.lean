import SchemaDoc.Proofs.Json.Printed
import SchemaDoc.Proofs.Schema.Grammar

/-!
# The texts that are read as schemas

A text is read as a schema only if it says a value. If that is an object, the kind that is taken out
of its members is the one value given for it, and the rest is judged as it is below the top. So in a
text without the two forms that are beyond the grammar, what is read at the top is what is
described.
-/

namespace SchemaDoc

variable {members body : List (String × Value)} {kind k : Kind} {input bs left : Bytes}
  {limit : Nat} {v : Value} {s : Schema}

/-! ## The kind at the top -/

namespace Kind

private theorem exists_split_some_iff : (∃ body, split (some k) members = some (kind, body)) ↔
    valuesOf "kind" members = [] ∧ k = kind := by
  induction members with
  | nil => simp [split, valuesOf]
  | cons m members ih =>
    obtain ⟨key, v⟩ := m
    simp only [split_cons_eq_some_iff]
    by_cases hk : key = "kind"
    · subst hk
      simp [valuesOf_cons_self]
    · rw [valuesOf_cons_of_ne hk, ← ih]
      simp [hk, exists_comm]

private theorem exists_split_none_iff : (∃ body, split none members = some (kind, body)) ↔
    ∃ tag, valuesOf "kind" members = [tag] ∧ named? tag = some kind := by
  induction members with
  | nil => simp [split, valuesOf]
  | cons m members ih =>
    obtain ⟨key, v⟩ := m
    simp only [split_cons_eq_some_iff]
    by_cases hk : key = "kind"
    · subst hk
      rw [valuesOf_cons_self]
      simp only [true_and, ne_eq, not_true_eq_false, false_and, or_false, List.cons.injEq]
      constructor
      · rintro ⟨body, k, named, later⟩
        obtain ⟨absent, rfl⟩ := exists_split_some_iff.mp ⟨body, later⟩
        exact ⟨v, ⟨rfl, absent⟩, named⟩
      · rintro ⟨tag, ⟨rfl, absent⟩, named⟩
        obtain ⟨body, later⟩ := exists_split_some_iff.mpr ⟨absent, rfl⟩
        exact ⟨body, kind, named, later⟩
    · rw [valuesOf_cons_of_ne hk, ← ih]
      simp [hk, exists_comm]

private theorem named?_eq_some_iff : named? v = some kind ↔ v = .string kind.name := by
  constructor
  · intro h
    cases v with
    | string name =>
      rw [named?, ofName?] at h
      have same := List.find?_some h
      rw [decide_eq_true_iff] at same
      rw [same]
    | null | bool | number | list | table => cases h
  · rintro rfl
    exact ofName?_name kind

end Kind

namespace Schema

/-! ## Texts -/

private theorem spells_of_readDraft_items {items : List Value}
    (h : readDraft limit bs = .ok (⟨kind, .inr items⟩, left)) :
    ∃ pre t tag, Json.Blank pre ∧ Json.Spells Json.depthLimit (.list (tag :: items)) t ∧
      bs = pre ++ (t ++ left) := by
  obtain ⟨pre, hp, he⟩ := Json.exists_blank_append bs
  unfold readDraft at h
  dsimp only at h
  split at h
  · cases h
  next b rest hs =>
  rw [hs] at he
  split at h
  · obtain ⟨_, _, -, -, _, _, -, made⟩ := readDraftMembers_eq_ok_iff.mp h
    cases made
  split at h
  · next hb =>
    obtain ⟨item?, hn, h⟩ := Json.eq_ok_of_bind_eq_ok h
    cases item? with
    | none => cases h
    | some item =>
      obtain ⟨⟨k, after⟩, hk, h⟩ := Json.eq_ok_of_bind_eq_ok h
      obtain ⟨⟨items', after'⟩, hi, h⟩ := Json.eq_ok_of_bind_eq_ok h
      obtain ⟨left', hc, h⟩ := Json.eq_ok_of_bind_eq_ok h
      cases h
      obtain ⟨tag, read, -⟩ : ∃ tag, Json.readValue limit (Json.depthLimit - 1) item =
          .ok (tag, after) ∧ Kind.named? tag = some kind := Kind.readKind_eq_ok_iff.mp hk
      obtain ⟨sep, separated, rfl⟩ := Json.exists_of_nextItem hn
      obtain ⟨gap, u, hg, hu, rfl⟩ := Json.spells_of_readValue read
      obtain ⟨new, t, rfl, parts, rfl⟩ :=
        Json.parts_of_readItems (fun _ _ _ hx ↦ Json.spells_of_readValue hx) hi hc
      have inside := Json.Parts.part (separated.append hg) hu parts
      exact ⟨pre, _, tag, hp, .of_list inside, by simp [he, hb]⟩
  · cases h

private theorem cases_of_ofJson (h : ofJson input = .ok s) :
    (∃ items, Json.parse input = .ok (.list items)) ∨
      ∃ members, ∃ kind : Kind, Json.parse input = .ok (.table members) ∧
        valuesOf "kind" members = [.string kind.name] ∧ ofValue (.table members) = .ok s := by
  rw [ofJson, Json.readWholeAs] at h
  split at h
  · cases h
  next draft left read =>
  split at h
  · cases h
  next made =>
  split at h
  · cases h
  next ended =>
  cases h
  have blank := Json.readEnd_eq_ok_iff.mp ended
  obtain ⟨kind, body⟩ := draft
  cases body with
  | inl body =>
    obtain ⟨members, value, split⟩ := readDraft_eq_ok_iff.mp read
    obtain ⟨tag, given, named⟩ := Kind.exists_split_none_iff.mp ⟨body, split⟩
    obtain rfl := Kind.named?_eq_some_iff.mp named
    refine .inr ⟨members, kind, Json.readWhole_eq_ok_iff.mpr ⟨left, value, blank⟩, given, ?_⟩
    rw [ofValue_of_split split, made]
  | inr items =>
    obtain ⟨pre, t, tag, hp, spelled, he⟩ := spells_of_readDraft_items read
    exact .inl ⟨tag :: items,
      Json.parse_eq_ok_iff.mpr ⟨pre, t, left, hp, blank, spelled, he⟩⟩

private theorem Describes.exists_kind (h : Describes v s) : ∃ members, v = .table members ∧
    ∃ kind : Kind, valuesOf "kind" members = [.string kind.name] := by
  cases h with
  | table kind | bareTable kind => exact ⟨_, rfl, .table, kind⟩
  | list kind => exact ⟨_, rfl, .list, kind⟩
  | string kind => exact ⟨_, rfl, .string, kind⟩
  | number kind => exact ⟨_, rfl, .number, kind⟩
  | bool kind => exact ⟨_, rfl, .bool, kind⟩
  | any kind => exact ⟨_, rfl, .any, kind⟩

/-- A text that says a value that describes a schema is read as it. -/
theorem ofJson_of_describes (hp : Json.parse input = .ok v) (h : Describes v s) :
    ofJson input = .ok s := by
  obtain ⟨members, rfl, kind, given⟩ := h.exists_kind
  obtain ⟨body, split⟩ := Kind.exists_split_none_iff.mpr
    ⟨_, given, Kind.named?_eq_some_iff.mpr rfl⟩
  rw [ofJson_of_split hp split, h.ofValue]
  rfl

/-- A text in which no schema is written as an array, and no kind below the top given by its place,
is read as a schema only if it says a value that describes the schema. -/
theorem describes_of_ofJson (form : ∀ v, Json.parse input = .ok v → InForm v)
    (h : ofJson input = .ok s) : ∃ v, Json.parse input = .ok v ∧ Describes v s := by
  rcases cases_of_ofJson h with ⟨items, hp⟩ | ⟨members, kind, hp, given, read⟩
  · exact absurd ⟨items, rfl⟩ ((form _ hp).not_list _ .refl)
  · exact ⟨_, hp, (form _ hp).describes (not_isIndexed_of_kind given) read⟩

/-- A text that says a value that describes a schema is read as the schema. No other text is read as
a schema, if wherever a schema is expected there is no array, and below the top no object that gives
its kind by its place among all kinds. -/
theorem ofJson_eq_ok_iff_describes (input : Bytes) :
    (∀ v s, Json.parse input = .ok v → Describes v s → ofJson input = .ok s) ∧
      ((∀ v, Json.parse input = .ok v → InForm v) →
        ∀ s, ofJson input = .ok s ↔ ∃ v, Json.parse input = .ok v ∧ Describes v s) := by
  refine ⟨fun v s hp described ↦ ofJson_of_describes hp described, fun form s ↦ ?_⟩
  constructor
  · exact describes_of_ofJson form
  · rintro ⟨v, hp, described⟩
    exact ofJson_of_describes hp described

/-- A list of numbers without a bound and with a member that does not count. -/
theorem list_of_numbers_is_read :
    let element : Value := .table [("kind", .string "number")]
    let v : Value := .table [("element", element), ("kind", .string "list"), ("fields", .null)]
    ∃ input, Json.parse input = .ok v ∧ InForm v ∧ ofJson input = .ok (.list .number 0) := by
  intro element v
  have parsed : Json.parse (Json.print v) = .ok v :=
    (Json.spells_print (by simp [v, element, Value.DoubleFree, Value.DoubleFreeMembers])
      (by decide)).parse
  have named : valuesOf "kind" [("kind", Value.string "number")] =
      [.string Kind.number.name] := rfl
  have leaf : InForm element := inForm_of_bare_kind named (by decide) (by decide)
  have form : InForm v := by
    refine inForm_of_list rfl fun u hu ↦ ?_
    obtain rfl : u = element := List.mem_singleton.mp hu
    exact ⟨leaf, not_isIndexed_of_kind rfl⟩
  have described : Describes v (.list .number 0) := .list rfl rfl (.number rfl) .absent
  have only : ∀ w, Json.parse (Json.print v) = .ok w → InForm w := by
    intro w hw
    exact Except.ok.inj (parsed.symm.trans hw) ▸ form
  have read := ((ofJson_eq_ok_iff_describes (Json.print v)).2 only (.list .number 0)).mpr
  exact ⟨_, parsed, form, read ⟨v, parsed, described⟩⟩

/-- An array with a kind in it and an object that gives its kind by its place are read as schemas,
though the values describe none. -/
theorem array_and_place_are_read :
    let array := Utf8.encode "[\"number\"]"
    let place := Utf8.encode "\x7b\"kind\":\"list\",\"element\":\x7b\"kind\":2\x7d\x7d"
    (ofJson array = .ok .number ∧ ∃ v, Json.parse array = .ok v ∧ ∀ s, ¬Describes v s) ∧
      ofJson place = .ok (.list .number 0) ∧
        ∃ v, Json.parse place = .ok v ∧ ∀ s, ¬Describes v s := by
  intro array place
  have listed : Json.parse array = .ok (.list [.string "number"]) :=
    Json.eq_ok_of_toOption_eq_some (by decide +kernel)
  have placed : Json.parse place = .ok (.table [("kind", .string "list"),
      ("element", .table [("kind", .number (.integer ⟨2, by decide, by decide⟩))])]) :=
    Json.eq_ok_of_toOption_eq_some (by decide +kernel)
  have read : ofJson place = .ok (.list .number 0) :=
    Json.eq_ok_of_toOption_eq_some (by decide +kernel)
  refine ⟨⟨rfl, _, listed, ?_⟩, read, _, placed, ?_⟩
  · intro s described
    obtain ⟨_, he, -⟩ := described.exists_kind
    cases he
  · intro s described
    cases described with
    | list kind given item bounded =>
      obtain rfl := List.singleton_inj.mp given
      obtain ⟨_, he, kind, named⟩ := item.exists_kind
      cases he
      exact absurd (List.singleton_inj.mp named) (fun h ↦ (by cases h))
    | table kind | bareTable kind | string kind | number kind | bool kind | any kind =>
      exact absurd kind (by decide)

end Schema

end SchemaDoc
