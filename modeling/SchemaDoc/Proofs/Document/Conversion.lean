import SchemaDoc.Proofs.Document.Atomicity
import SchemaDoc.Proofs.Number.Value

/-!
# Lists read as integers and texts

A list is read item by item as integers or as texts, and the first item of another type stops it.
The reading is the same for both but for what an item is read as, so it is described once: when it
succeeds, what stands at each place, and which item it names when it fails.
-/

namespace SchemaDoc.CheckedDocument

variable {α : Type} {convert : Value → Option α} {expected : String}

/-! ## Items one by one -/

/-- An answer about a list whose items are expected to be of a type and read as something. -/
structure Converts (expected : String) (reads : Value → α → Prop) (items : List Value)
    (answer : Except DocumentError (List α)) : Prop where
  /-- It succeeds if every item is of the type. -/
  succeeds : (∃ as, answer = .ok as) ↔ ∀ v ∈ items, v.typeName = expected
  /-- It has, one for each item in order, what the item is read as. -/
  converted : ∀ as, answer = .ok as → List.Forall₂ reads items as
  /-- It names the place and the type of the first item of another type. -/
  misfit : ∀ e, answer = .error e → ∃ before v after, items = before ++ v :: after ∧
    (∀ w ∈ before, w.typeName = expected) ∧ v.typeName ≠ expected ∧
    e = .wrongItem before.length expected v.typeName

private theorem convertItems_cases (items : List Value) (index : Nat) :
    (∃ as, convertItems convert expected index items = .ok as ∧
      (∀ v ∈ items, (convert v).isSome) ∧
      List.Forall₂ (fun v a ↦ convert v = some a) items as) ∨
    ∃ before v after, items = before ++ v :: after ∧ (∀ w ∈ before, (convert w).isSome) ∧
      convert v = none ∧ convertItems convert expected index items =
        .error (.wrongItem (index + before.length) expected v.typeName) := by
  induction items generalizing index with
  | nil => exact .inl ⟨[], rfl, by simp, .nil⟩
  | cons v items ih =>
    cases hv : convert v with
    | none => exact .inr ⟨[], v, items, rfl, by simp, hv, by simp [convertItems, hv]⟩
    | some a =>
      have here : (convert v).isSome := by simp [hv]
      rcases ih (index + 1) with ⟨as, rest, good, each⟩ | ⟨before, w, after, rfl, good, bad, rest⟩
      · refine .inl ⟨a :: as, ?_, List.forall_mem_cons.mpr ⟨here, good⟩, .cons hv each⟩
        simp [convertItems, hv, rest, Except.map]
      · refine .inr ⟨v :: before, w, after, rfl, List.forall_mem_cons.mpr ⟨here, good⟩, bad, ?_⟩
        simp [convertItems, hv, rest, Except.map]
        omega

private theorem converts_convertItems {reads : Value → α → Prop}
    (fits : ∀ v, (convert v).isSome ↔ v.typeName = expected)
    (right : ∀ v a, convert v = some a → reads v a) (items : List Value) :
    Converts expected reads items (convertItems convert expected 0 items) := by
  rcases @convertItems_cases α convert expected items 0 with
    ⟨as, answer, good, each⟩ | ⟨before, v, after, rfl, good, bad, answer⟩
  · rw [answer]
    constructor
    · exact ⟨fun _ v hv ↦ (fits v).mp (good v hv), fun _ ↦ ⟨as, rfl⟩⟩
    · rintro as' ⟨⟩
      exact each.imp right
    · rintro e ⟨⟩
  · have misfit : v.typeName ≠ expected := by
      rw [ne_eq, ← fits v, bad]
      exact Bool.false_ne_true
    rw [answer, Nat.zero_add]
    constructor
    · constructor
      · rintro ⟨as, ⟨⟩⟩
      · intro all
        exact absurd (all v (by simp)) misfit
    · rintro as ⟨⟩
    · rintro e ⟨⟩
      exact ⟨before, v, after, rfl, fun w hw ↦ (fits w).mp (good w hw), misfit, rfl⟩

/-! ## Integers and texts -/

/-- A value is read as an integer: a number as its exact value without the fraction, up to the ends
of the range of 64 bits with a sign. -/
def ReadsAsInt64 (v : Value) (i : Int) : Prop :=
  ∃ n, v = .number n ∧ i = max (-2 ^ 63) (min (towardZero n.value) (2 ^ 63 - 1))

private theorem readsAsInt64_of_int64? {v : Value} {i : Int} (h : int64? v = some i) :
    ReadsAsInt64 v i := by
  cases v with
  | number n =>
    obtain rfl := Option.some.inj h
    exact ⟨n, rfl, by rw [n.toInt64_eq, Number.clampInt64_eq]⟩
  | null | bool | string | list | table => cases h

private theorem converts_int64Values (items : List Value) :
    Converts "number" ReadsAsInt64 items (convertItems int64? "number" 0 items) := by
  apply converts_convertItems
  · intro v
    cases v <;> simp [int64?, Value.typeName]
  · intro v i h
    exact readsAsInt64_of_int64? h

private theorem converts_stringValues (items : List Value) :
    Converts "string" (fun v s ↦ v = .string s) items (convertItems string? "string" 0 items) := by
  apply converts_convertItems
  · intro v
    cases v <;> simp [string?, Value.typeName]
  · intro v s h
    cases v with
    | string t =>
      obtain rfl := Option.some.inj h
      rfl
    | null | bool | number | list | table => cases h

private theorem ReadsAsInt64.of_integer {i : Integer} {j : Int}
    (h : ReadsAsInt64 (.number (.integer i)) j) :
    j = if i.val < 2 ^ 63 then i.val else 2 ^ 63 - 1 := by
  obtain ⟨n, hn, rfl⟩ := h
  cases hn
  have low := i.le_val
  rw [Number.value, towardZero_intCast]
  split <;> omega

/-- A list that can be decoded is read as integers if all its items are numbers, and as texts if all
are texts; each item is then read for itself, in order. A number is read as its exact value without
the fraction, up to the ends of the range: an integer that fits is kept, and a greater one is read
as the greatest. Otherwise the error names the place and the type of the first item that is not what
was expected. In any case nothing of the list is disturbed. -/
theorem items_are_read_or_first_misfit_is_named {c : CheckedDocument .list} {items : List Value}
    (h : (decode.run c).answer = .ok items) :
    Converts "number" ReadsAsInt64 items (int64Values.run c).answer ∧
      (∀ (i : Integer) (j : Int), ReadsAsInt64 (.number (.integer i)) j →
        j = if i.val < 2 ^ 63 then i.val else 2 ^ 63 - 1) ∧
      Converts "string" (fun v s ↦ v = .string s) items (stringValues.run c).answer ∧
      (c.document.Undisturbed (int64Values.run c).state.document ∧
        (int64Values.run c).state.schema = c.schema) ∧
      c.document.Undisturbed (stringValues.run c).state.document ∧
        (stringValues.run c).state.schema = c.schema := by
  rw [answer_decode] at h
  have integers := result_int64Values c
  have texts := result_stringValues c
  rw [h] at integers texts
  obtain ⟨integers_eq, left⟩ := Prod.mk.inj integers
  obtain ⟨texts_eq, left'⟩ := Prod.mk.inj texts
  rw [integers_eq, texts_eq, left, left']
  refine ⟨converts_int64Values items, fun i j ↦ ReadsAsInt64.of_integer,
    converts_stringValues items, ⟨?_, rfl⟩, ?_, rfl⟩
  · exact c.document.undisturbed_afterReading
  · exact c.document.undisturbed_afterReading

/-- The greatest integer without a sign is read as the greatest with one, and is no text. -/
theorem greatest_integer_is_read_as_greatest :
    let c : CheckedDocument .list :=
      ⟨.raw (Json.asciiBytes "[-3,18446744073709551615]".toList), .any⟩
    ∃ items, (decode.run c).answer = .ok items ∧
      Converts "number" ReadsAsInt64 items (int64Values.run c).answer ∧
      (int64Values.run c).answer = .ok [-3, 2 ^ 63 - 1] ∧
      (stringValues.run c).answer = .error (.wrongItem 0 "string" "number") ∧
      c.document.Undisturbed (stringValues.run c).state.document := by
  intro c
  have h : (decode.run c).answer = .ok [.number (.integer ⟨-3, by decide, by decide⟩),
      .number (.integer ⟨18446744073709551615, by decide, by decide⟩)] := by decide +kernel
  obtain ⟨integers, -, -, -, left, -⟩ := items_are_read_or_first_misfit_is_named h
  exact ⟨_, h, integers, by decide +kernel, by decide +kernel, left⟩

end SchemaDoc.CheckedDocument
