import SchemaDoc.Json.Reader
import SchemaDoc.Proofs.Json.Value

/-!
# Laws of reading

No more brackets stand open in what was read than were allowed to the reader. A reader of arrays, of
objects, of texts or of whole numbers alone reads what the reader of any value does.
-/

namespace SchemaDoc.Json

/-- Something that was made of an answer came from an answer. -/
theorem eq_ok_of_map_eq_ok {ε α β : Type} {f : α → β} {x : Except ε α} {y : β}
    (h : x.map f = .ok y) : ∃ a, x = .ok a ∧ f a = y := by
  cases x with
  | error e => cases h
  | ok a => exact ⟨a, rfl, Except.ok.inj h⟩

/-- A chain of steps that answers had an answer to go on with. -/
theorem eq_ok_of_bind_eq_ok {ε α β : Type} {x : Except ε α} {f : α → Except ε β} {y : β}
    (h : x >>= f = .ok y) : ∃ a, x = .ok a ∧ f a = .ok y := by
  cases x with
  | error e => cases h
  | ok a => exact ⟨a, rfl, h⟩

/-- What is there once errors are forgotten was answered. -/
theorem eq_ok_of_toOption_eq_some {ε α : Type} {x : Except ε α} {a : α}
    (h : x.toOption = some a) : x = .ok a := by
  cases x with
  | error e => cases h
  | ok b => exact congrArg Except.ok (Option.some.inj h)

private theorem forall_of_readItems {α : Type} {P : α → Prop} {item : Reader α}
    (each : ∀ bs x left, item bs = .ok (x, left) → P x) {limit : Nat} {first : Bool}
    {done xs : List α} {bs left : Bytes}
    (h : readItems item limit first done bs = .ok (xs, left)) (hd : ∀ x ∈ done, P x) :
    ∀ x ∈ xs, P x := by
  induction limit generalizing first done bs with
  | zero => cases h
  | succ limit ih =>
    rw [readItems] at h
    split at h
    · cases h
    · obtain ⟨rfl, rfl⟩ := Prod.mk.inj (Except.ok.inj h)
      intro x hx
      exact hd x (List.mem_reverse.mp hx)
    · next bs' _ =>
      split at h
      · cases h
      · next x after hx => exact ih h (List.forall_mem_cons.mpr ⟨each bs' x after hx, hd⟩)

private theorem forall_of_readMembers {α : Type} {P : α → Prop} {value : Reader α}
    (each : ∀ bs x left, value bs = .ok (x, left) → P x) {limit : Nat} {first : Bool}
    {done xs : List (String × α)} {bs left : Bytes}
    (h : readMembers value limit first done bs = .ok (xs, left)) (hd : ∀ m ∈ done, P m.2) :
    ∀ m ∈ xs, P m.2 := by
  induction limit generalizing first done bs with
  | zero => cases h
  | succ limit ih =>
    rw [readMembers] at h
    split at h
    · cases h
    · obtain ⟨rfl, rfl⟩ := Prod.mk.inj (Except.ok.inj h)
      intro m hm
      exact hd m (List.mem_reverse.mp hm)
    · split at h
      · cases h
      split at h
      · cases h
      · next bs' _ =>
        split at h
        · cases h
        · next x after hx => exact ih h (List.forall_mem_cons.mpr ⟨each bs' x after hx, hd⟩)

/-- What was read without entering a bracket has none. -/
theorem nesting_of_readScalar {bs left : Bytes} {v : Value}
    (h : readScalar bs = .ok (v, left)) : v.nesting = 0 := by
  cases bs with
  | nil => cases h
  | cons b rest =>
    rw [readScalar] at h
    repeat' split at h
    all_goals first
      | cases h
      | obtain ⟨_, -, he⟩ := eq_ok_of_map_eq_ok h
        obtain ⟨rfl, -⟩ := Prod.mk.inj he
        rfl

private theorem nesting_of_readList {read : Reader Value} {depth : Nat}
    (each : ∀ bs v left, read bs = .ok (v, left) → v.nesting ≤ depth) {limit : Nat}
    {items : List Value} {bs left : Bytes} (h : readList limit read bs = .ok (items, left)) :
    Value.nestingItems items ≤ depth := by
  obtain ⟨⟨ws, after⟩, hr, h⟩ := eq_ok_of_bind_eq_ok h
  obtain ⟨rest, -, h⟩ := eq_ok_of_bind_eq_ok h
  obtain ⟨rfl, -⟩ := Prod.mk.inj (Except.ok.inj h)
  exact Value.nestingItems_le_iff.mpr (forall_of_readItems each hr (by simp))

private theorem nesting_of_readTable {read : Reader Value} {depth : Nat}
    (each : ∀ bs v left, read bs = .ok (v, left) → v.nesting ≤ depth) {limit : Nat}
    {members : List (String × Value)} {bs left : Bytes}
    (h : readTable limit read bs = .ok (members, left)) :
    Value.nestingMembers members ≤ depth := by
  obtain ⟨⟨ws, after⟩, hr, h⟩ := eq_ok_of_bind_eq_ok h
  obtain ⟨rest, -, h⟩ := eq_ok_of_bind_eq_ok h
  obtain ⟨rfl, -⟩ := Prod.mk.inj (Except.ok.inj h)
  exact Value.nestingMembers_le_iff.mpr (forall_of_readMembers each hr (by simp))

/-- What was read has no parts or has parts that were read by the inner reader behind the opening
bracket. -/
theorem readValueWith_cases {limit : Nat} {inner? : Option (Reader Value)} {bs left : Bytes}
    {v : Value} (h : readValueWith limit inner? bs = .ok (v, left)) :
    ∃ b rest, skipBlank bs = b :: rest ∧ (readScalar (b :: rest) = .ok (v, left) ∨
      ∃ inner, inner? = some inner ∧
        ((b = ascii '[' ∧ ∃ items, v = .list items ∧
          readList limit inner rest = .ok (items, left)) ∨
        (b = ascii '\x7b' ∧ ∃ members, v = .table members ∧
          readTable limit inner rest = .ok (members, left)))) := by
  rw [readValueWith] at h
  split at h
  · cases h
  next b rest hs =>
  refine ⟨b, rest, hs, ?_⟩
  split at h
  · next hb =>
    split at h
    · cases h
    · next inner =>
      obtain ⟨⟨items, after⟩, hi, he⟩ := eq_ok_of_map_eq_ok h
      obtain ⟨rfl, rfl⟩ := Prod.mk.inj he
      exact .inr ⟨inner, rfl, .inl ⟨hb, items, rfl, hi⟩⟩
  split at h
  · next hb =>
    split at h
    · cases h
    · next inner =>
      obtain ⟨⟨members, after⟩, hm, he⟩ := eq_ok_of_map_eq_ok h
      obtain ⟨rfl, rfl⟩ := Prod.mk.inj he
      exact .inr ⟨inner, rfl, .inr ⟨hb, members, rfl, hm⟩⟩
  · exact .inl h

/-- What was read is nested no more deeply than was allowed. -/
theorem nesting_of_readValue {limit depth : Nat} {bs left : Bytes} {v : Value}
    (h : readValue limit depth bs = .ok (v, left)) : v.nesting ≤ depth := by
  induction depth generalizing bs v left with
  | zero =>
    obtain ⟨b, rest, -, hv | ⟨inner, hi, -⟩⟩ := readValueWith_cases h
    · exact Nat.le_of_eq (nesting_of_readScalar hv)
    · cases hi
  | succ depth ih =>
    obtain ⟨b, rest, -, hv | ⟨inner, hi, ⟨-, items, rfl, hr⟩ | ⟨-, members, rfl, hr⟩⟩⟩ :=
      readValueWith_cases h
    · exact Nat.le_trans (Nat.le_of_eq (nesting_of_readScalar hv)) (Nat.zero_le _)
    · obtain rfl := Option.some.inj hi
      exact Nat.succ_le_succ (nesting_of_readList (fun _ _ _ h ↦ ih h) hr)
    · obtain rfl := Option.some.inj hi
      exact Nat.succ_le_succ (nesting_of_readTable (fun _ _ _ h ↦ ih h) hr)

/-! ## Brackets -/

/-- The first key of an object stands behind a quote. -/
theorem nextKey_true_eq_ok_iff {bs keyed : Bytes} : nextKey true bs = .ok (some keyed) ↔
    ∃ b rest, skipBlank bs = b :: rest ∧ b ≠ ascii '\x7d' ∧ openKey (b :: rest) = .ok keyed := by
  rw [nextKey]
  constructor
  · intro h
    split at h
    · cases h
    next b rest hs =>
    split at h
    · cases h
    next hb =>
    obtain ⟨keyed', hk, he⟩ := eq_ok_of_map_eq_ok h
    obtain rfl := Option.some.inj he
    exact ⟨b, rest, hs, hb, hk⟩
  · rintro ⟨b, rest, hs, hb, hk⟩
    rw [hs]
    dsimp only
    rw [if_neg hb, if_pos rfl, hk]
    rfl

/-- An object has no more members where its bracket closes. -/
theorem nextKey_eq_ok_none_iff {first : Bool} {bs : Bytes} : nextKey first bs = .ok none ↔
    ∃ rest, skipBlank bs = ascii '\x7d' :: rest := by
  rw [nextKey]
  constructor
  · intro h
    split at h
    · cases h
    next b rest hs =>
    by_cases hb : b = ascii '\x7d'
    · exact ⟨rest, hb ▸ hs⟩
    · rw [if_neg hb] at h
      repeat' split at h
      all_goals first
        | cases h
        | obtain ⟨_, -, he⟩ := eq_ok_of_map_eq_ok h
          cases he
  · rintro ⟨rest, hs⟩
    rw [hs]
    rfl

/-- The bracket of an object closes behind blanks. -/
theorem closeTable_eq_ok_iff {bs left : Bytes} : closeTable bs = .ok left ↔
    skipBlank bs = ascii '\x7d' :: left := by
  rw [closeTable]
  constructor
  · intro h
    split at h
    · cases h
    next b rest hs =>
    split at h
    · next hb =>
      cases h
      rw [hs, hb]
    · split at h <;> cases h
  · intro hs
    rw [hs]
    rfl

/-- An array has no more items where its bracket closes. -/
theorem nextItem_of_closeList {first : Bool} {bs left : Bytes} (h : closeList bs = .ok left) :
    nextItem first bs = .ok none := by
  rw [closeList] at h
  split at h
  · cases h
  next b rest hs =>
  split at h
  · next hb =>
    rw [nextItem, hs]
    exact if_pos hb
  · repeat' split at h
    all_goals cases h

/-! ## Member by member -/

private theorem readMembers_done {α : Type} (value : Reader α) (limit : Nat) (first : Bool)
    (done : List (String × α)) (bs : Bytes) : readMembers value limit first done bs =
      (readMembers value limit first [] bs).map fun r ↦ (done.reverse ++ r.1, r.2) := by
  induction limit generalizing first done bs with
  | zero => rfl
  | succ limit ih =>
    rw [readMembers, readMembers]
    cases nextKey first bs with
    | error f => rfl
    | ok next? =>
      cases next? with
      | none => simp [Except.map]
      | some keyed =>
        dsimp only
        cases readString keyed with
        | error f => rfl
        | ok r =>
          dsimp only
          cases readColon r.2 with
          | error f => rfl
          | ok valued =>
            dsimp only
            cases value valued with
            | error f => rfl
            | ok x =>
              dsimp only
              rw [ih false ((r.1, x.1) :: done), ih false [(r.1, x.1)]]
              cases readMembers value limit false [] x.2 <;> simp [Except.map]

/-- There is another member, its key is `key`, and its value starts at `valued`. -/
def StepsTo (first : Bool) (bs : Bytes) (key : String) (valued : Bytes) : Prop :=
  ∃ keyed coloned, nextKey first bs = .ok (some keyed) ∧ readString keyed = .ok (key, coloned) ∧
    readColon coloned = .ok valued

/-- Members are read where there are none, or where the first of them and then the others are. -/
theorem readMembers_succ_eq_ok_iff {α : Type} {value : Reader α} {limit : Nat} {first : Bool}
    {bs after : Bytes} {members : List (String × α)} :
    readMembers value (limit + 1) first [] bs = .ok (members, after) ↔
      (nextKey first bs = .ok none ∧ members = [] ∧ after = bs) ∨
      ∃ key valued v left others, StepsTo first bs key valued ∧ value valued = .ok (v, left) ∧
        readMembers value limit false [] left = .ok (others, after) ∧
        members = (key, v) :: others := by
  constructor
  · intro h
    rw [readMembers] at h
    split at h
    · cases h
    · next hn =>
      cases h
      exact .inl ⟨hn, rfl, rfl⟩
    next keyed hn =>
    split at h
    · cases h
    next key coloned hs =>
    split at h
    · cases h
    next valued hc =>
    split at h
    · cases h
    next v left hv =>
    rw [readMembers_done] at h
    obtain ⟨⟨others, after'⟩, hm, he⟩ := eq_ok_of_map_eq_ok h
    obtain ⟨rfl, rfl⟩ := Prod.mk.inj he
    exact .inr ⟨key, valued, v, left, others, ⟨keyed, coloned, hn, hs, hc⟩, hv, hm, rfl⟩
  · rintro (⟨hn, rfl, rfl⟩ |
      ⟨key, valued, v, left, others, ⟨keyed, coloned, hn, hs, hc⟩, hv, hm, rfl⟩)
    · simp [readMembers, hn]
    · simp only [readMembers, hn, hs, hc, hv]
      rw [readMembers_done, hm]
      rfl

/-- An object is read if its members are and the bracket closes behind them. -/
theorem readTable_eq_ok_iff {limit : Nat} {value : Reader Value} {bs left : Bytes}
    {members : List (String × Value)} : readTable limit value bs = .ok (members, left) ↔
      ∃ after, readMembers value limit true [] bs = .ok (members, after) ∧
        closeTable after = .ok left := by
  constructor
  · intro h
    obtain ⟨⟨members', after⟩, hm, h⟩ := eq_ok_of_bind_eq_ok h
    obtain ⟨left', hc, h⟩ := eq_ok_of_bind_eq_ok h
    cases h
    exact ⟨after, hm, hc⟩
  · rintro ⟨after, hm, hc⟩
    simp [readTable, hm, hc, bind, Except.bind, pure, Except.pure]

/-- An object is read as a value if it may be entered. -/
theorem readValue_eq_ok_table_iff {limit depth : Nat} {bs left : Bytes}
    {members : List (String × Value)} :
    readValue limit (depth + 1) bs = .ok (.table members, left) ↔
      ∃ rest, skipBlank bs = ascii '\x7b' :: rest ∧
        readTable limit (readValue limit depth) rest = .ok (members, left) := by
  constructor
  · intro h
    obtain ⟨b, rest, hs, hv | ⟨_, hi, ⟨-, _, he, -⟩ | ⟨rfl, _, he, hr⟩⟩⟩ := readValueWith_cases h
    · cases nesting_of_readScalar hv
    · cases he
    · obtain rfl := Option.some.inj hi
      obtain rfl := Value.table.inj he
      exact ⟨rest, hs, hr⟩
  · rintro ⟨rest, hs, hr⟩
    rw [readValue, readValueWith, hs]
    dsimp only
    rw [if_neg (by decide), if_pos rfl, hr]
    rfl

/-! ## Item by item -/

private theorem readItems_done {α : Type} (item : Reader α) (limit : Nat) (first : Bool)
    (done : List α) (bs : Bytes) : readItems item limit first done bs =
      (readItems item limit first [] bs).map fun r ↦ (done.reverse ++ r.1, r.2) := by
  induction limit generalizing first done bs with
  | zero => rfl
  | succ limit ih =>
    rw [readItems, readItems]
    cases nextItem first bs with
    | error f => rfl
    | ok next? =>
      cases next? with
      | none => simp [Except.map]
      | some itemed =>
        dsimp only
        cases item itemed with
        | error f => rfl
        | ok x =>
          dsimp only
          rw [ih false (x.1 :: done), ih false [x.1]]
          cases readItems item limit false [] x.2 <;> simp [Except.map]

/-- Items are read where there are none, or where the first of them and then the others are. -/
theorem readItems_succ_eq_ok_iff {α : Type} {item : Reader α} {limit : Nat} {first : Bool}
    {bs after : Bytes} {items : List α} :
    readItems item (limit + 1) first [] bs = .ok (items, after) ↔
      (nextItem first bs = .ok none ∧ items = [] ∧ after = bs) ∨
      ∃ itemed x left others, nextItem first bs = .ok (some itemed) ∧
        item itemed = .ok (x, left) ∧
        readItems item limit false [] left = .ok (others, after) ∧ items = x :: others := by
  constructor
  · intro h
    rw [readItems] at h
    split at h
    · cases h
    · next hn =>
      cases h
      exact .inl ⟨hn, rfl, rfl⟩
    next itemed hn =>
    split at h
    · cases h
    next x left hx =>
    rw [readItems_done] at h
    obtain ⟨⟨others, after'⟩, hi, he⟩ := eq_ok_of_map_eq_ok h
    obtain ⟨rfl, rfl⟩ := Prod.mk.inj he
    exact .inr ⟨itemed, x, left, others, hn, hx, hi, rfl⟩
  · rintro (⟨hn, rfl, rfl⟩ | ⟨itemed, x, left, others, hn, hx, hi, rfl⟩)
    · simp [readItems, hn]
    · simp only [readItems, hn, hx]
      rw [readItems_done, hi]
      rfl

/-- No items are read where there are none. -/
theorem readItems_nil_eq_ok_iff {α : Type} {item : Reader α} {limit : Nat} {first : Bool}
    {bs after : Bytes} : readItems item (limit + 1) first [] bs = .ok ([], after) ↔
      nextItem first bs = .ok none ∧ after = bs := by
  simp [readItems_succ_eq_ok_iff]

/-- An item is read in front of others where it and then the others are. -/
theorem readItems_cons_eq_ok_iff {α : Type} {item : Reader α} {limit : Nat} {first : Bool}
    {bs after : Bytes} {x : α} {xs : List α} :
    readItems item (limit + 1) first [] bs = .ok (x :: xs, after) ↔
      ∃ itemed left, nextItem first bs = .ok (some itemed) ∧ item itemed = .ok (x, left) ∧
        readItems item limit false [] left = .ok (xs, after) := by
  rw [readItems_succ_eq_ok_iff]
  constructor
  · rintro (⟨-, h, -⟩ | ⟨itemed, y, left, others, hn, hx, hi, h⟩)
    · cases h
    · obtain ⟨rfl, rfl⟩ := List.cons.inj h
      exact ⟨itemed, left, hn, hx, hi⟩
  · rintro ⟨itemed, left, hn, hx, hi⟩
    exact .inr ⟨itemed, x, left, xs, hn, hx, hi, rfl⟩

/-- An array is read if its items are and the bracket closes behind them. -/
theorem readList_eq_ok_iff {limit : Nat} {value : Reader Value} {bs left : Bytes}
    {items : List Value} : readList limit value bs = .ok (items, left) ↔
      ∃ after, readItems value limit true [] bs = .ok (items, after) ∧
        closeList after = .ok left := by
  constructor
  · intro h
    obtain ⟨⟨items', after⟩, hi, h⟩ := eq_ok_of_bind_eq_ok h
    obtain ⟨left', hc, h⟩ := eq_ok_of_bind_eq_ok h
    cases h
    exact ⟨after, hi, hc⟩
  · rintro ⟨after, hi, hc⟩
    simp [readList, hi, hc, bind, Except.bind, pure, Except.pure]

/-- An array is read as a value if it may be entered. -/
theorem readValue_eq_ok_list_iff {limit depth : Nat} {bs left : Bytes} {items : List Value} :
    readValue limit (depth + 1) bs = .ok (.list items, left) ↔
      ∃ rest, skipBlank bs = ascii '[' :: rest ∧
        readList limit (readValue limit depth) rest = .ok (items, left) := by
  constructor
  · intro h
    obtain ⟨b, rest, hs, hv | ⟨_, hi, ⟨rfl, _, he, hr⟩ | ⟨-, _, he, -⟩⟩⟩ := readValueWith_cases h
    · cases nesting_of_readScalar hv
    · obtain rfl := Option.some.inj hi
      obtain rfl := Value.list.inj he
      exact ⟨rest, hs, hr⟩
    · cases he
  · rintro ⟨rest, hs, hr⟩
    rw [readValue, readValueWith, hs]
    dsimp only
    rw [if_pos rfl, hr]
    rfl

/-! ## Values without parts -/

/-- A value without parts is read without entering a bracket. -/
theorem readValueWith_eq_ok_scalar_iff {limit : Nat} {inner? : Option (Reader Value)}
    {bs left : Bytes} {v : Value} (hv : v.nesting = 0) :
    readValueWith limit inner? bs = .ok (v, left) ↔
      ∃ b rest, skipBlank bs = b :: rest ∧ readScalar (b :: rest) = .ok (v, left) := by
  constructor
  · intro h
    obtain ⟨b, rest, hs, h | ⟨_, -, ⟨-, _, rfl, -⟩ | ⟨-, _, rfl, -⟩⟩⟩ := readValueWith_cases h
    · exact ⟨b, rest, hs, h⟩
    · cases hv
    · cases hv
  · rintro ⟨b, rest, hs, h⟩
    have list : b ≠ ascii '[' := by
      rintro rfl
      cases h
    have table : b ≠ ascii '\x7b' := by
      rintro rfl
      cases h
    rw [readValueWith, hs]
    dsimp only
    rw [if_neg list, if_neg table, h]

/-- A value without parts is read alike however many brackets are allowed. -/
theorem readValue_eq_ok_scalar_iff {limit depth : Nat} {bs left : Bytes} {v : Value}
    (hv : v.nesting = 0) : readValue limit depth bs = .ok (v, left) ↔
      ∃ b rest, skipBlank bs = b :: rest ∧ readScalar (b :: rest) = .ok (v, left) := by
  cases depth <;> exact readValueWith_eq_ok_scalar_iff hv

/-- `null` is read without entering a bracket. -/
theorem readScalar_eq_ok_null_iff {b : UInt8} {rest left : Bytes} :
    readScalar (b :: rest) = .ok (.null, left) ↔
      b = ascii 'n' ∧ readWord ['u', 'l', 'l'] rest = .ok left := by
  constructor
  · intro h
    by_cases hn : b = ascii 'n'
    · rw [readScalar, if_pos hn] at h
      obtain ⟨r, hw, he⟩ := eq_ok_of_map_eq_ok h
      obtain ⟨-, rfl⟩ := Prod.mk.inj he
      exact ⟨hn, hw⟩
    · rw [readScalar] at h
      repeat' split at h
      all_goals first
        | contradiction
        | obtain ⟨_, -, he⟩ := eq_ok_of_map_eq_ok h
          cases (Prod.mk.inj he).1
  · rintro ⟨rfl, h⟩
    rw [readScalar, if_pos rfl, h]
    rfl

/-- A text is read without entering a bracket if it starts with a quote. -/
theorem readScalar_eq_ok_string_iff {b : UInt8} {rest left : Bytes} {s : String} :
    readScalar (b :: rest) = .ok (.string s, left) ↔
      b = ascii '"' ∧ readString rest = .ok (s, left) := by
  have step : readScalar (ascii '"' :: rest) =
      (readString rest).map fun r ↦ (.string r.1, r.2) := rfl
  constructor
  · intro h
    by_cases hq : b = ascii '"'
    · subst hq
      rw [step] at h
      obtain ⟨r, hs, he⟩ := eq_ok_of_map_eq_ok h
      obtain ⟨hv, rfl⟩ := Prod.mk.inj he
      obtain rfl := Value.string.inj hv
      exact ⟨rfl, hs⟩
    · -- No other scalar is a text.
      rw [readScalar] at h
      repeat' split at h
      all_goals first
        | contradiction
        | obtain ⟨_, -, he⟩ := eq_ok_of_map_eq_ok h
          cases (Prod.mk.inj he).1
  · rintro ⟨rfl, h⟩
    rw [step, h]
    rfl

private theorem readScalar_eq_ok_number_iff {b : UInt8} {rest left : Bytes} {n : Number} :
    readScalar (b :: rest) = .ok (.number n, left) ↔
      (b = ascii '-' ∧ readNumber true rest = .ok (n, left)) ∨
        (isDigit b = true ∧ readNumber false (b :: rest) = .ok (n, left)) := by
  constructor
  · intro h
    by_cases hm : b = ascii '-'
    · subst hm
      obtain ⟨r, hr, he⟩ := eq_ok_of_map_eq_ok (show (readNumber true rest).map _ = _ from h)
      cases he
      exact .inl ⟨rfl, hr⟩
    · rw [readScalar] at h
      repeat' split at h
      all_goals first
        | contradiction
        | obtain ⟨r, hr, he⟩ := eq_ok_of_map_eq_ok h
          cases he
          try exact .inr ⟨by assumption, hr⟩
  · rintro (⟨rfl, h⟩ | ⟨hd, h⟩)
    · show (readNumber true rest).map _ = _
      rw [h]
      rfl
    · have other {c : Char} (hc : isDigit (ascii c) = false) : b ≠ ascii c := by
        rintro rfl
        rw [hc] at hd
        cases hd
      rw [readScalar, if_neg (other (by decide)), if_neg (other (by decide)),
        if_neg (other (by decide)), if_neg (other (by decide)), if_neg (other (by decide)),
        if_pos hd, h]
      rfl

/-! ## Values of a shape -/

/-- An array is read as one where any value is. -/
theorem readListOnly_eq_ok_iff {limit : Nat} {inner? : Option (Reader Value)} {bs left : Bytes}
    {items : List Value} : readListOnly limit inner? bs = .ok (items, left) ↔
      readValueWith limit inner? bs = .ok (.list items, left) := by
  constructor
  · intro h
    unfold readListOnly at h
    split at h
    · cases h
    next b rest hs =>
    split at h
    · next hb =>
      split at h
      · cases h
      · rw [readValueWith, hs]
        dsimp only
        rw [if_pos hb, h]
        rfl
    · cases h
  · intro h
    obtain ⟨b, rest, hs, hv | ⟨inner, rfl, ⟨hb, _, he, hr⟩ | ⟨-, _, he, -⟩⟩⟩ :=
      readValueWith_cases h
    · cases nesting_of_readScalar hv
    · obtain rfl := Value.list.inj he
      unfold readListOnly
      rw [hs]
      dsimp only
      rw [if_pos hb, hr]
    · cases he

/-- An object is read as one where any value is. -/
theorem readTableOnly_eq_ok_iff {limit : Nat} {inner? : Option (Reader Value)} {bs left : Bytes}
    {members : List (String × Value)} : readTableOnly limit inner? bs = .ok (members, left) ↔
      readValueWith limit inner? bs = .ok (.table members, left) := by
  constructor
  · intro h
    unfold readTableOnly at h
    split at h
    · cases h
    next b rest hs =>
    split at h
    · next hb =>
      subst hb
      split at h
      · cases h
      · rw [readValueWith, hs]
        dsimp only
        rw [if_neg (by decide), if_pos rfl, h]
        rfl
    · cases h
  · intro h
    obtain ⟨b, rest, hs, hv | ⟨inner, rfl, ⟨-, _, he, -⟩ | ⟨hb, _, he, hr⟩⟩⟩ :=
      readValueWith_cases h
    · cases nesting_of_readScalar hv
    · cases he
    · obtain rfl := Value.table.inj he
      unfold readTableOnly
      rw [hs]
      dsimp only
      rw [if_pos hb, hr]

/-- A text is read as one where any value is. -/
theorem readStringOnly_eq_ok_iff {limit depth : Nat} {expected : String} {bs left : Bytes}
    {s : String} : readStringOnly expected bs = .ok (s, left) ↔
      readValue limit depth bs = .ok (.string s, left) := by
  rw [readValue_eq_ok_scalar_iff rfl]
  constructor
  · intro h
    unfold readStringOnly at h
    split at h
    · cases h
    next b rest hs =>
    split at h
    · next hb => exact ⟨b, rest, hs, readScalar_eq_ok_string_iff.mpr ⟨hb, h⟩⟩
    · cases h
  · rintro ⟨b, rest, hs, hr⟩
    obtain ⟨rfl, read⟩ := readScalar_eq_ok_string_iff.mp hr
    unfold readStringOnly
    rw [hs]
    exact read

/-- A whole number below a bound is read where a value is that is this integer. -/
theorem readUnsigned_eq_ok_iff {limit depth bound n : Nat} {expected : String} {bs left : Bytes} :
    readUnsigned bound expected bs = .ok (n, left) ↔
      ∃ i : Integer, readValue limit depth bs = .ok (.number (.integer i), left) ∧
        i.val = n ∧ n < bound := by
  constructor
  · intro h
    unfold readUnsigned at h
    split at h
    · cases h
    next b rest hs =>
    dsimp only at h
    split at h
    · cases h
    · cases h
    · cases h
    next i after found =>
    split at h
    · next bounds =>
      obtain ⟨rfl, rfl⟩ := Prod.mk.inj (Except.ok.inj h)
      refine ⟨i, (readValue_eq_ok_scalar_iff rfl).mpr ⟨b, rest, hs, ?_⟩, by omega, by omega⟩
      rw [readScalar_eq_ok_number_iff]
      split at found
      · next hm => exact .inl ⟨hm, Option.some.inj found⟩
      split at found
      · next hd => exact .inr ⟨hd, Option.some.inj found⟩
      · cases found
    · cases h
  · rintro ⟨i, hv, hi, hn⟩
    obtain ⟨b, rest, hs, hr⟩ := (readValue_eq_ok_scalar_iff rfl).mp hv
    unfold readUnsigned
    rw [hs]
    dsimp only
    rcases readScalar_eq_ok_number_iff.mp hr with ⟨hm, hr⟩ | ⟨hd, hr⟩
    · rw [if_pos hm, hr]
      dsimp only
      rw [if_pos (by omega), hi]
      rfl
    · have hm : b ≠ ascii '-' := by
        rintro rfl
        exact absurd hd (by decide)
      rw [if_neg hm, if_pos hd, hr]
      dsimp only
      rw [if_pos (by omega), hi]
      rfl

end SchemaDoc.Json
