import SchemaDoc.Proofs.Json.Depth
import SchemaDoc.Proofs.Json.Locality
import SchemaDoc.Proofs.Json.Opened

/-!
# Readers that open boxes

A reader that opens boxes answers what the reader of values as they are written does, with the boxes
in it opened, and fails where that fails or where a box cannot be opened. The texts in a value are
shorter than what the value was read from, so that the bound on how many texts may stand in one
another is never met.
-/

namespace SchemaDoc.Json

variable {unbox' : Bytes → Except Error Value} {limit depth : Nat} {first : Bool}
  {bs rest left : Bytes} {v w : Value}

/-! ## Where a box starts -/

private theorem openBox?_eq_some_iff {valued : Bytes} : openBox? bs = some valued ↔
    ∃ rest keyed, skipBlank bs = ascii '\x7b' :: rest ∧ nextKey true rest = .ok (some keyed) ∧
      readString keyed = .ok (boxKey, valued) := by
  unfold openBox?
  constructor
  · intro h
    split at h
    · cases h
    next b rest hs =>
    split at h
    · next hb =>
      split at h
      · next keyed hn =>
        split at h
        · next key coloned hk =>
          split at h
          · next same =>
            cases h
            exact ⟨rest, keyed, hb ▸ hs, hn, same ▸ hk⟩
          · cases h
        · cases h
      · cases h
      · cases h
    · cases h
  · rintro ⟨rest, keyed, hs, hn, hk⟩
    simp [hs, hn, hk]

private theorem isSome_openBox?_of_readMembers {value : Reader Value}
    {members : List (String × Value)} (hs : skipBlank bs = ascii '\x7b' :: rest)
    (h : readMembers value limit true [] rest = .ok (members, left)) :
    (openBox? bs).isSome = Value.marked (.table members) := by
  cases limit with
  | zero => cases h
  | succ limit =>
    rcases readMembers_succ_eq_ok_iff.mp h with ⟨hn, rfl, -⟩ |
      ⟨key, valued, v, after, others, ⟨keyed, coloned, hn, hk, -⟩, -, -, rfl⟩
    · simp [openBox?, hs, hn, Value.marked]
    · by_cases same : key = boxKey <;> simp [openBox?, hs, hn, hk, same, Value.marked]

private theorem readBox_eq_ok_iff : readBox unbox' bs = .ok (w, left) ↔
    ∃ valued text after, readColon bs = .ok valued ∧
      readStringOnly "raw value" valued = .ok (text, after) ∧
      unbox' (Utf8.encode text) = .ok w ∧ closeTable after = .ok left := by
  constructor
  · intro h
    obtain ⟨valued, hc, h⟩ := eq_ok_of_bind_eq_ok h
    obtain ⟨⟨text, after⟩, hr, h⟩ := eq_ok_of_bind_eq_ok h
    dsimp only at h
    split at h
    · cases h
    next x hx =>
    obtain ⟨left', close, h⟩ := eq_ok_of_bind_eq_ok h
    cases h
    exact ⟨valued, text, after, hc, hr, hx, close⟩
  · rintro ⟨valued, text, after, hc, hr, hx, close⟩
    simp [readBox, hc, hr, hx, close, bind, Except.bind, pure, Except.pure]

/-! ## Reading and opening -/

/-- One reader answers what another does, with the boxes in it opened. -/
def Opens (unbox : Bytes → Except Error Value) (written read : Reader Value) : Prop :=
  ∀ bs w left, read bs = .ok (w, left) ↔
    ∃ v, written bs = .ok (v, left) ∧ v.opened unbox = .ok w

namespace Opens

variable {written read : Reader Value}

private theorem readItems (h : Opens unbox' written read) {ws : List Value} :
    Json.readItems read limit first [] bs = .ok (ws, left) ↔
      ∃ vs, Json.readItems written limit first [] bs = .ok (vs, left) ∧
        Value.openedItems unbox' vs = .ok ws := by
  induction limit generalizing first bs ws with
  | zero => simp [Json.readItems]
  | succ limit ih =>
    rw [readItems_succ_eq_ok_iff]
    constructor
    · rintro (⟨hn, rfl, rfl⟩ | ⟨itemed, w, after, ws, hn, hw, hs, rfl⟩)
      · exact ⟨[], readItems_nil_eq_ok_iff.mpr ⟨hn, rfl⟩, rfl⟩
      · obtain ⟨v, hv, ho⟩ := (h _ _ _).mp hw
        obtain ⟨vs, hvs, hos⟩ := ih.mp hs
        exact ⟨v :: vs, readItems_cons_eq_ok_iff.mpr ⟨itemed, after, hn, hv, hvs⟩,
          Value.openedItems_cons_eq_ok_iff.mpr ⟨w, ws, ho, hos, rfl⟩⟩
    · rintro ⟨vs, hvs, hos⟩
      rcases readItems_succ_eq_ok_iff.mp hvs with ⟨hn, rfl, rfl⟩ |
        ⟨itemed, v, after, vs, hn, hv, hs, rfl⟩
      · cases hos
        exact .inl ⟨hn, rfl, rfl⟩
      · obtain ⟨w, ws, ho, others, rfl⟩ := Value.openedItems_cons_eq_ok_iff.mp hos
        exact .inr ⟨itemed, w, after, ws, hn, (h _ _ _).mpr ⟨v, hv, ho⟩, ih.mpr ⟨vs, hs, others⟩,
          rfl⟩

private theorem readMembers (h : Opens unbox' written read) {ns : List (String × Value)} :
    Json.readMembers read limit first [] bs = .ok (ns, left) ↔
      ∃ ms, Json.readMembers written limit first [] bs = .ok (ms, left) ∧
        Value.openedMembers unbox' ms = .ok ns := by
  induction limit generalizing first bs ns with
  | zero => simp [Json.readMembers]
  | succ limit ih =>
    rw [readMembers_succ_eq_ok_iff]
    constructor
    · rintro (⟨hn, rfl, rfl⟩ | ⟨key, valued, w, after, ns, steps, hw, hs, rfl⟩)
      · exact ⟨[], readMembers_succ_eq_ok_iff.mpr (.inl ⟨hn, rfl, rfl⟩), rfl⟩
      · obtain ⟨v, hv, ho⟩ := (h _ _ _).mp hw
        obtain ⟨ms, hms, hos⟩ := ih.mp hs
        exact ⟨(key, v) :: ms,
          readMembers_succ_eq_ok_iff.mpr (.inr ⟨key, valued, v, after, ms, steps, hv, hms, rfl⟩),
          Value.openedMembers_cons_eq_ok_iff.mpr ⟨w, ns, ho, hos, rfl⟩⟩
    · rintro ⟨ms, hms, hos⟩
      rcases readMembers_succ_eq_ok_iff.mp hms with ⟨hn, rfl, rfl⟩ |
        ⟨key, valued, v, after, ms, steps, hv, hs, rfl⟩
      · cases hos
        exact .inl ⟨hn, rfl, rfl⟩
      · obtain ⟨w, ns, ho, others, rfl⟩ := Value.openedMembers_cons_eq_ok_iff.mp hos
        exact .inr ⟨key, valued, w, after, ns, steps, (h _ _ _).mpr ⟨v, hv, ho⟩,
          ih.mpr ⟨ms, hs, others⟩, rfl⟩

private theorem readList (h : Opens unbox' written read) {ws : List Value} :
    Json.readList limit read bs = .ok (ws, left) ↔
      ∃ vs, Json.readList limit written bs = .ok (vs, left) ∧
        Value.openedItems unbox' vs = .ok ws := by
  simp only [readList_eq_ok_iff, h.readItems]
  constructor
  · rintro ⟨after, ⟨vs, hvs, ho⟩, close⟩
    exact ⟨vs, ⟨after, hvs, close⟩, ho⟩
  · rintro ⟨vs, ⟨after, hvs, close⟩, ho⟩
    exact ⟨after, ⟨vs, hvs, ho⟩, close⟩

private theorem readTable (h : Opens unbox' written read) {ns : List (String × Value)} :
    Json.readTable limit read bs = .ok (ns, left) ↔
      ∃ ms, Json.readTable limit written bs = .ok (ms, left) ∧
        Value.openedMembers unbox' ms = .ok ns := by
  simp only [readTable_eq_ok_iff, h.readMembers]
  constructor
  · rintro ⟨after, ⟨ms, hms, ho⟩, close⟩
    exact ⟨ms, ⟨after, hms, close⟩, ho⟩
  · rintro ⟨ms, ⟨after, hms, close⟩, ho⟩
    exact ⟨after, ⟨ms, hms, ho⟩, close⟩

end Opens

private theorem opened_of_nesting (h : v.nesting = 0) : v.opened unbox' = .ok v := by
  cases v with
  | list | table => cases h
  | null | bool | number | string => rfl

private theorem nesting_of_readValue_zero (h : readValue limit 0 bs = .ok (v, left)) :
    v.nesting = 0 :=
  Nat.le_zero.mp (nesting_of_readValue h)

private theorem partsOpened_of_nesting (h : v.nesting = 0) : v.partsOpened unbox' = .ok v := by
  cases v with
  | list | table => cases h
  | null | bool | number | string => rfl

private theorem openBox?_eq_none_of_ne {b : UInt8} (hs : skipBlank bs = b :: rest)
    (other : b ≠ ascii '\x7b') : openBox? bs = none := by
  rw [openBox?, hs]
  exact if_neg other

private theorem isSome_openBox?_of_readValueWith {inner? : Option (Reader Value)}
    (h : readValueWith limit inner? bs = .ok (v, left)) : (openBox? bs).isSome = v.marked := by
  obtain ⟨b, rest, hs, hv | ⟨_, -, ⟨rfl, items, rfl, -⟩ | ⟨rfl, members, rfl, hr⟩⟩⟩ :=
    readValueWith_cases h
  · have other : b ≠ ascii '\x7b' := by
      rintro rfl
      cases hv
    have flat := nesting_of_readScalar hv
    rw [openBox?_eq_none_of_ne hs other]
    cases v with
    | list | table => cases flat
    | null | bool | number | string => rfl
  · rw [openBox?_eq_none_of_ne hs (by decide)]
    rfl
  · obtain ⟨after, hm, -⟩ := readTable_eq_ok_iff.mp hr
    exact isSome_openBox?_of_readMembers hs hm

private theorem Opens.readValueWith {written read : Reader Value} (h : Opens unbox' written read) :
    Json.readValueWith limit (some read) bs = .ok (w, left) ↔
      ∃ v, Json.readValueWith limit (some written) bs = .ok (v, left) ∧
        v.partsOpened unbox' = .ok w := by
  constructor
  · intro hw
    obtain ⟨b, rest, hs, hv | ⟨_, hi, ⟨rfl, ws, rfl, hr⟩ | ⟨rfl, ns, rfl, hr⟩⟩⟩ :=
      readValueWith_cases hw
    · have flat := nesting_of_readScalar hv
      exact ⟨w, (readValueWith_eq_ok_scalar_iff flat).mpr ⟨b, rest, hs, hv⟩,
        partsOpened_of_nesting flat⟩
    · obtain rfl := Option.some.inj hi
      obtain ⟨vs, hvs, ho⟩ := h.readList.mp hr
      exact ⟨.list vs, by simp [Json.readValueWith, hs, hvs, Except.map],
        Value.partsOpened_list_eq_ok_iff.mpr ⟨ws, ho, rfl⟩⟩
    · obtain rfl := Option.some.inj hi
      obtain ⟨ms, hms, ho⟩ := h.readTable.mp hr
      exact ⟨.table ms, by simp [Json.readValueWith, hs, hms, Except.map],
        Value.partsOpened_table_eq_ok_iff.mpr ⟨ns, ho, rfl⟩⟩
  · rintro ⟨v, hv, ho⟩
    obtain ⟨b, rest, hs, hv | ⟨_, hi, ⟨rfl, vs, rfl, hr⟩ | ⟨rfl, ms, rfl, hr⟩⟩⟩ :=
      readValueWith_cases hv
    · have flat := nesting_of_readScalar hv
      obtain rfl := Except.ok.inj ((partsOpened_of_nesting flat).symm.trans ho)
      exact (readValueWith_eq_ok_scalar_iff flat).mpr ⟨b, rest, hs, hv⟩
    · obtain rfl := Option.some.inj hi
      obtain ⟨ws, items, rfl⟩ := Value.partsOpened_list_eq_ok_iff.mp ho
      simp [Json.readValueWith, hs, h.readList.mpr ⟨vs, hr, items⟩, Except.map]
    · obtain rfl := Option.some.inj hi
      obtain ⟨ns, members, rfl⟩ := Value.partsOpened_table_eq_ok_iff.mp ho
      simp [Json.readValueWith, hs, h.readTable.mpr ⟨ms, hr, members⟩, Except.map]

private theorem readOpened_of_no_box (ih : Opens unbox' (readValue limit depth)
    (readOpened unbox' limit depth)) (none : openBox? bs = none) :
    readValueWith limit (some (readOpened unbox' limit depth)) bs = .ok (w, left) ↔
      ∃ v, readValue limit (depth + 1) bs = .ok (v, left) ∧ v.opened unbox' = .ok w := by
  rw [ih.readValueWith]
  apply exists_congr
  intro v
  apply and_congr_right
  intro hv
  have unmarked : v.marked = false := by
    rw [← isSome_openBox?_of_readValueWith hv, none]
    rfl
  rw [Value.opened_eq_partsOpened unmarked]

private theorem readBox_of_box {valued : Bytes} (hl : 1 < limit)
    (box : openBox? bs = some valued) : readBox unbox' valued = .ok (w, left) ↔
      ∃ v, readValue limit (depth + 1) bs = .ok (v, left) ∧ v.opened unbox' = .ok w := by
  obtain ⟨rest, keyed, hs, hn, hk⟩ := openBox?_eq_some_iff.mp box
  obtain ⟨limit, rfl⟩ : ∃ n, limit = n + 2 := ⟨limit - 2, by omega⟩
  rw [readBox_eq_ok_iff]
  constructor
  · rintro ⟨coloned, text, after, hc, hr, hu, close⟩
    refine ⟨.table [(boxKey, .string text)], ?_,
      (Value.opened_marked_eq_ok_iff rfl).mpr ⟨text, rfl, hu⟩⟩
    have done : nextKey false after = .ok none :=
      nextKey_eq_ok_none_iff.mpr ⟨left, closeTable_eq_ok_iff.mp close⟩
    have others : readMembers (readValue (limit + 2) depth) (limit + 1) false [] after =
        .ok ([], after) := readMembers_succ_eq_ok_iff.mpr (.inl ⟨done, rfl, rfl⟩)
    refine readValue_eq_ok_table_iff.mpr ⟨rest, hs, readTable_eq_ok_iff.mpr ⟨after, ?_, close⟩⟩
    exact readMembers_succ_eq_ok_iff.mpr (.inr ⟨boxKey, coloned, .string text, after, [],
      ⟨keyed, valued, hn, hk, hc⟩, readStringOnly_eq_ok_iff.mp hr, others, rfl⟩)
  · rintro ⟨v, hv, ho⟩
    obtain ⟨b, rest', hs', hv | ⟨_, hi, ⟨rfl, _, -, -⟩ | ⟨rfl, ms, rfl, hr⟩⟩⟩ :=
      readValueWith_cases hv
    · rw [hs] at hs'
      obtain ⟨rfl, rfl⟩ := List.cons.inj hs'
      cases hv
    · rw [hs] at hs'
      exact absurd (List.cons.inj hs').1 (by decide)
    · obtain rfl := Option.some.inj hi
      rw [hs] at hs'
      obtain rfl := (List.cons.inj hs').2
      obtain ⟨after, hm, close⟩ := readTable_eq_ok_iff.mp hr
      have marked : Value.marked (.table ms) = true := by
        rw [← isSome_openBox?_of_readMembers hs hm, box]
        rfl
      obtain ⟨text, rfl, hu⟩ := (Value.opened_marked_eq_ok_iff marked).mp ho
      rcases readMembers_succ_eq_ok_iff.mp hm with ⟨-, he, -⟩ |
        ⟨key, coloned, x, mid, others, ⟨keyed', valued', hn', hk', hc⟩, hx, done, he⟩
      · cases he
      obtain rfl := Option.some.inj (Except.ok.inj (hn.symm.trans hn'))
      obtain ⟨-, rfl⟩ := Prod.mk.inj (Except.ok.inj (hk.symm.trans hk'))
      obtain ⟨first, rfl⟩ := List.cons.inj he
      obtain ⟨-, rfl⟩ := Prod.mk.inj first
      rcases readMembers_succ_eq_ok_iff.mp done with ⟨-, -, rfl⟩ | ⟨_, _, _, _, _, -, -, -, more⟩
      · exact ⟨coloned, text, after, hc, readStringOnly_eq_ok_iff.mpr hx, hu, close⟩
      · cases more

/-! ## Whole texts -/

private theorem eq_nil_of_short {b : UInt8} (short : bs.length ≤ 1)
    (hs : skipBlank bs = b :: rest) : rest = [] := by
  have skipped : (skipBlank bs).length ≤ bs.length := (List.dropWhile_suffix _).length_le
  rw [hs, List.length_cons] at skipped
  exact List.eq_nil_of_length_eq_zero (by omega)

private theorem nesting_of_short {inner? : Option (Reader Value)} (short : bs.length ≤ 1)
    (h : readValueWith limit inner? bs = .ok (v, left)) : v.nesting = 0 := by
  obtain ⟨b, rest, hs, hv | ⟨inner, -, ⟨-, items, -, hr⟩ | ⟨-, members, -, hr⟩⟩⟩ :=
    readValueWith_cases h
  · exact nesting_of_readScalar hv
  · obtain rfl := eq_nil_of_short short hs
    obtain ⟨after, hi, -⟩ := readList_eq_ok_iff.mp hr
    cases limit <;> simp [readItems, nextItem, skipBlank] at hi
  · obtain rfl := eq_nil_of_short short hs
    obtain ⟨after, hm, -⟩ := readTable_eq_ok_iff.mp hr
    cases limit <;> simp [readMembers, nextKey, skipBlank] at hm

private theorem readValueWith_of_short {inner? : Option (Reader Value)} (short : bs.length ≤ 1) :
    readValueWith limit inner? bs = .ok (v, left) ↔
      readValueWith limit none bs = .ok (v, left) := by
  constructor <;> intro h <;> have flat := nesting_of_short short h
  · exact (readValueWith_eq_ok_scalar_iff flat).mpr ((readValueWith_eq_ok_scalar_iff flat).mp h)
  · exact (readValueWith_eq_ok_scalar_iff flat).mpr ((readValueWith_eq_ok_scalar_iff flat).mp h)

private theorem readValue_of_short (short : bs.length ≤ 1) :
    readValue limit depth bs = .ok (v, left) ↔ readValueWith limit none bs = .ok (v, left) := by
  cases depth with
  | zero => rfl
  | succ depth => exact readValueWith_of_short short

private theorem readOpened_of_short (short : bs.length ≤ 1) :
    readOpened unbox' limit depth bs = .ok (v, left) ↔
      readValueWith limit none bs = .ok (v, left) := by
  cases depth with
  | zero => rfl
  | succ depth =>
    have none : openBox? bs = none := by
      cases box : openBox? bs with
      | none => rfl
      | some valued =>
        obtain ⟨rest, keyed, hs, hn, -⟩ := openBox?_eq_some_iff.mp box
        obtain rfl := eq_nil_of_short short hs
        cases hn
    simp only [readOpened, none]
    exact readValueWith_of_short short

private theorem iff_exists_flat {R : Value → Prop} {open_ : Value → Except Error Value}
    (flat : ∀ v, R v → v.nesting = 0) (same : ∀ v : Value, v.nesting = 0 → open_ v = .ok v) :
    R w ↔ ∃ v, R v ∧ open_ v = .ok w := by
  constructor
  · exact fun h ↦ ⟨w, h, same w (flat w h)⟩
  · rintro ⟨v, h, ho⟩
    obtain rfl := Except.ok.inj ((same v (flat v h)).symm.trans ho)
    exact h

private theorem opens_readOpened (unbox : Bytes → Except Error Value) (hl : 1 < limit)
    (depth : Nat) :
    Opens unbox (readValue limit depth) (readOpened unbox limit depth) := by
  induction depth with
  | zero =>
    intro bs w left
    exact iff_exists_flat (fun v ↦ nesting_of_readValue_zero) fun v ↦ opened_of_nesting
  | succ depth ih =>
    intro bs w left
    unfold readOpened
    split
    · next valued box => exact readBox_of_box hl box
    · next none => exact readOpened_of_no_box ih none

private theorem readOpened_eq_ok_iff (room : 1 < limit ∨ bs.length ≤ 1) :
    readOpened unbox' limit depth bs = .ok (w, left) ↔
      ∃ v, readValue limit depth bs = .ok (v, left) ∧ v.opened unbox' = .ok w := by
  rcases room with hl | short
  · exact opens_readOpened unbox' hl depth bs w left
  simp only [readOpened_of_short short, readValue_of_short short]
  exact iff_exists_flat (fun v ↦ nesting_of_short short) fun v ↦ opened_of_nesting

private theorem readValueWith_partReader?_eq_ok_iff (room : 1 < limit ∨ bs.length ≤ 1) :
    readValueWith limit (partReader? limit depth) bs = .ok (w, left) ↔
      ∃ v, readValue limit depth bs = .ok (v, left) ∧
        v.partsOpened (unboxWithin limit) = .ok w := by
  cases depth with
  | zero =>
    exact iff_exists_flat (fun v ↦ nesting_of_readValue_zero) fun v ↦ partsOpened_of_nesting
  | succ depth =>
    rcases room with hl | short
    · exact (opens_readOpened _ hl depth).readValueWith
    simp only [readValueWith_of_short short, readValue_of_short short]
    exact iff_exists_flat (fun v ↦ nesting_of_short short) fun v ↦ partsOpened_of_nesting

/-! ## Texts in texts -/

/-- Every text in the value has fewer bytes than `n`. -/
private def Below (n : Nat) (v : Value) : Prop :=
  v.All fun w ↦ ∀ text, w = .string text → (Utf8.encode text).length < n

private theorem Below.mono {m n : Nat} (h : Below m v) (hle : m ≤ n) : Below n v :=
  h.imp fun _ hw text he ↦ Nat.lt_of_lt_of_le (hw text he) hle

private theorem Parts.exists_of_mem {α : Type} {text : α → Bytes → Prop} {bracket : Bracket}
    {xs : List α} {t : Bytes} (h : Parts text bracket first xs t) {x : α} (hx : x ∈ xs) :
    ∃ u, text x u ∧ u.length ≤ t.length := by
  induction h with
  | close hp => cases hx
  | @part first sep t after y ys hs ht _ ih =>
    simp only [List.length_append]
    rcases List.mem_cons.mp hx with rfl | hx
    · exact ⟨t, ht, by omega⟩
    · obtain ⟨u, hu, shorter⟩ := ih hx
      exact ⟨u, hu, by omega⟩

private theorem below_of_readScalar (h : readScalar bs = .ok (v, left)) :
    ∃ t, bs = t ++ left ∧ Below t.length v := by
  obtain ⟨t, -, ht, -⟩ := spelled_of_readScalar h
  refine ⟨t, ht, ?_⟩
  cases v with
  | string text =>
    cases bs with
    | nil => cases h
    | cons b rest =>
      obtain ⟨-, hr⟩ := readScalar_eq_ok_string_iff.mp h
      have shorter := length_lt_of_readString hr
      have lengths := congrArg List.length ht
      rw [List.length_cons, List.length_append] at lengths
      rintro other ⟨⟩
      omega
  | list | table => cases nesting_of_readScalar h
  | null | bool | number => rintro text ⟨⟩

private theorem below_of_readValue (h : readValue limit depth bs = .ok (v, left)) :
    ∃ pre t, Blank pre ∧ Below t.length v ∧ bs = pre ++ (t ++ left) := by
  have inner {bs left : Bytes} {v : Value}
      (h : ∃ b rest t, skipBlank bs = b :: rest ∧ Below t.length v ∧ b :: rest = t ++ left) :
      ∃ pre t, Blank pre ∧ Below t.length v ∧ bs = pre ++ (t ++ left) := by
    obtain ⟨b, rest, t, hs, ht, hx⟩ := h
    obtain ⟨pre, hp, he⟩ := exists_blank_append bs
    exact ⟨pre, t, hp, ht, by rw [he, hs, hx]⟩
  -- Blanks in front are set aside first: how long the text is counts from its first byte on.
  apply inner
  induction depth generalizing bs v left with
  | zero =>
    obtain ⟨b, rest, hs, hv | ⟨_, hi, -⟩⟩ := readValueWith_cases h
    · obtain ⟨t, hx, ht⟩ := below_of_readScalar hv
      exact ⟨b, rest, t, hs, ht, hx⟩
    · cases hi
  | succ depth ih =>
    obtain ⟨b, rest, hs, hv | ⟨_, hi, ⟨rfl, items, rfl, hr⟩ | ⟨rfl, members, rfl, hr⟩⟩⟩ :=
      readValueWith_cases h
    · obtain ⟨t, hx, ht⟩ := below_of_readScalar hv
      exact ⟨b, rest, t, hs, ht, hx⟩
    · obtain rfl := Option.some.inj hi
      obtain ⟨t, parts, rfl⟩ := parts_of_readList (fun _ _ _ hx ↦ inner (ih hx)) hr
      refine ⟨_, _, ascii '[' :: t, hs, ⟨?_, Value.allItems_iff.mpr fun v hv ↦ ?_⟩, rfl⟩
      · rintro text ⟨⟩
      · obtain ⟨u, hu, shorter⟩ := parts.exists_of_mem hv
        exact hu.mono (Nat.le_succ_of_le shorter)
    · obtain rfl := Option.some.inj hi
      obtain ⟨t, parts, rfl⟩ := parts_of_readTable (fun _ _ _ hx ↦ inner (ih hx)) hr
      refine ⟨_, _, ascii '\x7b' :: t, hs, ⟨?_, Value.allMembers_iff.mpr fun m hm ↦ ?_⟩, rfl⟩
      · rintro text ⟨⟩
      · obtain ⟨u, hu, shorter⟩ := parts.exists_of_mem hm
        cases hu with
        | intro hk hb hp hv =>
          simp only [List.length_cons, List.length_append] at shorter
          exact hv.mono (by simp only [List.length_cons]; omega)

private theorem below_of_parse {input : Bytes} (h : parse input = .ok v) :
    Below input.length v := by
  obtain ⟨left, hr, -⟩ := readWhole_eq_ok_iff.mp h
  obtain ⟨pre, t, -, below, he⟩ := below_of_readValue hr
  have lengths := congrArg List.length he
  simp only [List.length_append] at lengths
  exact below.mono (by omega)

private theorem unboxWithin_succ_eq_ok_iff {boxes : Nat} {text : Bytes} :
    unboxWithin (boxes + 1) text = .ok w ↔
      ∃ v, parse text = .ok v ∧ v.opened (unboxWithin boxes) = .ok w := by
  simp only [unboxWithin, parse, readWhole_eq_ok_iff]
  constructor
  · rintro ⟨left, h, blank⟩
    obtain ⟨v, hv, ho⟩ := (readOpened_eq_ok_iff (Nat.lt_or_ge 1 text.length)).mp h
    exact ⟨v, ⟨left, hv, blank⟩, ho⟩
  · rintro ⟨v, ⟨left, hv, blank⟩, ho⟩
    exact ⟨left, (readOpened_eq_ok_iff (Nat.lt_or_ge 1 text.length)).mpr ⟨v, hv, ho⟩, blank⟩

private theorem unboxWithin_eq_ok_iff {boxes : Nat} {text : Bytes} (h : text.length < boxes) :
    unboxWithin boxes text = .ok w ↔ unbox text = .ok w := by
  -- By induction on the length: the texts inside are shorter, and any bound above theirs will do.
  have all (n : Nat) : ∀ text : Bytes, text.length = n → ∀ boxes, n < boxes → ∀ w,
      unboxWithin boxes text = .ok w ↔ unboxWithin (n + 1) text = .ok w := by
    induction n using Nat.strongRecOn with
    | ind n ih =>
      rintro text rfl boxes hb w
      obtain ⟨boxes, rfl⟩ : ∃ m, boxes = m + 1 := ⟨boxes - 1, by omega⟩
      rw [unboxWithin_succ_eq_ok_iff, unboxWithin_succ_eq_ok_iff]
      apply exists_congr
      intro v
      apply and_congr_right
      intro hv
      apply Value.TextsAgree.opened_eq_ok_iff
      refine (below_of_parse hv).imp fun u hu inner he x ↦ ?_
      have shorter := hu inner he
      rw [ih _ shorter _ rfl boxes (by omega), ih _ shorter _ rfl text.length shorter]
  exact all text.length text rfl boxes h w

private theorem Below.textsAgree {n : Nat} (h : Below n v) :
    v.TextsAgree (unboxWithin n) unbox :=
  h.imp fun _ hu text he _ ↦ unboxWithin_eq_ok_iff (hu text he)

/-- What a text says is what it says as it is written, with every box in it opened. -/
theorem unbox_eq_ok_iff {text : Bytes} : unbox text = .ok w ↔
    ∃ v, parse text = .ok v ∧ v.opened unbox = .ok w := by
  rw [unbox, unboxWithin_succ_eq_ok_iff]
  apply exists_congr
  intro v
  apply and_congr_right
  intro hv
  exact (below_of_parse hv).textsAgree.opened_eq_ok_iff

/-- Nothing that comes out of a text starts with the key of a box. -/
theorem unmarked_of_unbox {text : Bytes} (h : unbox text = .ok w) : w.Unmarked := by
  have all (boxes : Nat) : ∀ text w, unboxWithin boxes text = .ok w → w.Unmarked := by
    induction boxes with
    | zero => rintro text w ⟨⟩
    | succ boxes ih =>
      intro text w h
      obtain ⟨v, -, ho⟩ := unboxWithin_succ_eq_ok_iff.mp h
      exact Value.unmarked_of_opened ih ho
  exact all (text.length + 1) text w h

/-! ## Parts -/

private theorem textsAgree_of_readValue {input : Bytes}
    (h : readValue input.length depth input = .ok (v, left)) :
    v.TextsAgree (unboxWithin input.length) unbox := by
  obtain ⟨pre, t, -, below, he⟩ := below_of_readValue h
  have lengths := congrArg List.length he
  simp only [List.length_append] at lengths
  exact (below.mono (by omega)).textsAgree

/-- From the front of a text, a value is read as it is written, with the boxes in its parts
opened. -/
theorem readParts_eq_ok_iff {input : Bytes} :
    readValueWith input.length (partReader? input.length depth) input = .ok (w, left) ↔
      ∃ v, readValue input.length depth input = .ok (v, left) ∧ v.partsOpened unbox = .ok w := by
  rw [readValueWith_partReader?_eq_ok_iff (Nat.lt_or_ge 1 input.length)]
  apply exists_congr
  intro v
  apply and_congr_right
  intro hv
  exact (textsAgree_of_readValue hv).partsOpened_eq_ok_iff

/-! ## Fewer brackets -/

private theorem readValueWith_none_of_box {valued : Bytes} (box : openBox? bs = some valued) :
    ∃ f, readValueWith limit none bs = .error f ∧ f.cause = .tooDeep := by
  obtain ⟨rest, keyed, hs, -⟩ := openBox?_eq_some_iff.mp box
  exact ⟨_, by rw [readValueWith, hs]; rfl, rfl⟩

private theorem narrower_readOpened (unbox : Bytes → Except Error Value) (limit : Nat)
    {depth deeper : Nat} (hd : depth ≤ deeper) :
    Narrower (readOpened unbox limit depth) (readOpened unbox limit deeper) := by
  have step (depth : Nat) :
      Narrower (readOpened unbox limit depth) (readOpened unbox limit (depth + 1)) := by
    induction depth with
    | zero =>
      intro bs
      cases box : openBox? bs with
      | some valued => exact .inr (readValueWith_none_of_box box)
      | none =>
        have wide : readOpened unbox limit 1 bs =
            readValueWith limit (some (readOpened unbox limit 0)) bs := by simp [readOpened, box]
        rw [wide]
        apply narrower_readValueWith
        rintro read ⟨⟩
    | succ depth ih =>
      intro bs
      cases box : openBox? bs with
      | some valued => exact .inl (by simp [readOpened, box])
      | none =>
        have plain (depth : Nat) : readOpened unbox limit (depth + 1) bs =
            readValueWith limit (some (readOpened unbox limit depth)) bs := by
          simp [readOpened, box]
        rw [plain, plain]
        apply narrower_readValueWith
        rintro read ⟨⟩
        exact ⟨_, rfl, ih⟩
  induction hd with
  | refl => exact .refl _
  | step _ ih => exact ih.trans (step _)

/-- What stands in a bracket is read by a narrower reader if fewer brackets are allowed. -/
theorem narrower_partReader? (limit : Nat) {depth deeper : Nat} (hd : depth ≤ deeper) :
    ∀ read, partReader? limit depth = some read →
      ∃ wide, partReader? limit deeper = some wide ∧ Narrower read wide := by
  intro read h
  cases depth with
  | zero => cases h
  | succ depth =>
    cases h
    obtain ⟨deeper, rfl⟩ : ∃ n, deeper = n + 1 := ⟨deeper - 1, by omega⟩
    exact ⟨_, rfl, narrower_readOpened _ limit (by omega)⟩

end SchemaDoc.Json
