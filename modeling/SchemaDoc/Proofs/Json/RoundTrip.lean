import SchemaDoc.Json.Reader
import SchemaDoc.Proofs.Json.Number
import SchemaDoc.Proofs.Json.Text
import SchemaDoc.Proofs.Json.Value

/-!
# Reading back what was printed

A printed value is read back as itself, if it has no double and is not nested too deeply. With a
double in it, it may be refused, and else it is read back up to its doubles. Lists and tables are
read part by part, and one induction over the value carries the parts to the whole.
-/

namespace SchemaDoc.Json

private theorem Answers.imp {α : Type} {right right' : α → Prop} {clean clean' : Prop}
    {rest : Bytes} {result : Except Fault (α × Bytes)} (h : Answers right clean rest result)
    (hr : ∀ x, right x → right' x) (hc : clean' → clean) : Answers right' clean' rest result := by
  cases result with
  | ok r => exact ⟨hr _ h.1, h.2⟩
  | error f => exact fun hn ↦ h (hc hn)

private theorem Answers.map {α β : Type} {right : α → Prop} {right' : β → Prop} {clean : Prop}
    {rest : Bytes} {result : Except Fault (α × Bytes)} (h : Answers right clean rest result)
    {f : α → β} (hr : ∀ x, right x → right' (f x)) :
    Answers right' clean rest (result.map fun (x, left) ↦ (f x, left)) := by
  cases result with
  | ok r => exact ⟨hr _ h.1, h.2⟩
  | error e => exact h

/-- Nothing is skipped before a byte that is not blank. -/
theorem skipBlank_cons {b : UInt8} (h : isBlank b = false) (rest : Bytes) :
    skipBlank (b :: rest) = b :: rest := by
  simp [skipBlank, h]

/-! ## Scalars -/

/-- A byte that a value may start with. -/
def StartsValue (b : UInt8) : Prop := isBlank b = false ∧ b ≠ ascii ']'

/-- A byte that a value without parts may start with. -/
def StartsScalar (b : UInt8) : Prop := StartsValue b ∧ b ≠ ascii '[' ∧ b ≠ ascii '\x7b'

/-- A digit is not a byte that is none. -/
theorem ne_of_isDigit {b c : UInt8} (h : isDigit b = true) (hc : isDigit c = false) :
    b ≠ c := by
  rintro rfl
  rw [h] at hc
  cases hc

/-- A number may start with a digit. -/
theorem startsScalar_of_isDigit {b : UInt8} (h : isDigit b = true) : StartsScalar b := by
  have hs := ne_of_isDigit h (c := 0x20) (by decide)
  have ht := ne_of_isDigit h (c := 0x09) (by decide)
  have hl := ne_of_isDigit h (c := 0x0A) (by decide)
  have hc := ne_of_isDigit h (c := 0x0D) (by decide)
  exact ⟨⟨by simp [isBlank, hs, ht, hl, hc], ne_of_isDigit h (by decide)⟩,
    ne_of_isDigit h (by decide), ne_of_isDigit h (by decide)⟩

/-- A text that starts with a digit. -/
def StartsDigit (bs : Bytes) : Prop := ∃ b after, bs = b :: after ∧ isDigit b = true

private theorem AllDigits.startsDigit {ds : Bytes} (h : AllDigits ds) (hs : ds ≠ [])
    (rest : Bytes) :
    StartsDigit (ds ++ rest) := by
  cases ds with
  | nil => exact absurd rfl hs
  | cons b ds => exact ⟨b, ds ++ rest, rfl, h b List.mem_cons_self⟩

/-- Bytes with or without a minus sign before them. -/
def signed (negative : Bool) (bs : Bytes) : Bytes := if negative then ascii '-' :: bs else bs

/-- A text with a digit in front, perhaps behind a minus sign, is read as a number. -/
theorem readScalar_signed (negative : Bool) {bs : Bytes} (h : StartsDigit bs) (rest : Bytes) :
    readScalar (signed negative bs ++ rest) =
      (readNumber negative (bs ++ rest)).map fun (n, rest) ↦ (.number n, rest) := by
  obtain ⟨b, after, rfl, hb⟩ := h
  cases negative
  · rw [signed, if_neg Bool.false_ne_true, List.cons_append, readScalar,
      if_neg (ne_of_isDigit hb (by decide)), if_neg (ne_of_isDigit hb (by decide)),
      if_neg (ne_of_isDigit hb (by decide)), if_neg (ne_of_isDigit hb (by decide)),
      if_neg (ne_of_isDigit hb (by decide)), if_pos hb]
  · rfl

private theorem printNumber_integer (i : Integer) : printNumber (.integer i) =
    signed (decide (i.val < 0)) (asciiBytes (decimalDigits i.val.natAbs)) := by
  by_cases h : i.val < 0 <;> simp [printNumber, Number.text, Integer.text, signed, asciiBytes, h]

/-- The text of a double is its sign and the text of its magnitude. -/
theorem printNumber_double (x : Double) : printNumber (.double x) =
    signed x.negative (asciiBytes ((Double.shortest x.rank).text Double.layout)) := by
  cases h : x.negative <;> simp [printNumber, Number.text, Double.text, signed, asciiBytes, h]

private theorem startsDigit_decimalDigits (n : Nat) :
    StartsDigit (asciiBytes (decimalDigits n)) := by
  have h := (allDigits_decimalDigits n).startsDigit (asciiBytes_ne_nil Nat.toDigits_ne_nil) []
  rwa [List.append_nil] at h

private theorem answers_number (n : Number) {rest : Bytes} (hr : EndsNumber rest) :
    Answers (fun w ↦ w.blur = (Value.number n).blur) (Value.number n).DoubleFree rest
      (readScalar (printNumber n ++ rest)) := by
  cases n with
  | integer i =>
    have hn : i.val.natAbs < significandBound := by
      have := i.le_val
      have := i.val_lt
      unfold significandBound
      omega
    rw [printNumber_integer, readScalar_signed _ (startsDigit_decimalDigits _),
      readNumber_decimalDigits _ hn hr, wholeNumber_integer]
    exact ⟨rfl, rfl⟩
  | double x =>
    obtain ⟨whole, tail, he, hd, hs, ht, -⟩ := decimal_text (Double.shortest x.rank) Double.layout
    rw [printNumber_double, he, readScalar_signed _ (hd.startsDigit hs tail), List.append_assoc]
    refine (answers_readNumber x.negative hd ht hr).map ?_ |>.imp (fun _ h ↦ h) id
    rintro _ ⟨y, rfl⟩
    rfl

private theorem printNumber_eq_cons (n : Number) :
    ∃ b bs, printNumber n = b :: bs ∧ StartsScalar b := by
  have starts (negative : Bool) {bs : Bytes} (h : StartsDigit bs) :
      ∃ b after, signed negative bs = b :: after ∧ StartsScalar b := by
    obtain ⟨b, after, rfl, hb⟩ := h
    cases negative
    · exact ⟨b, after, rfl, startsScalar_of_isDigit hb⟩
    · exact ⟨ascii '-', b :: after, rfl, ⟨by decide, by decide⟩, by decide, by decide⟩
  cases n with
  | integer i => exact printNumber_integer i ▸ starts _ (startsDigit_decimalDigits _)
  | double x =>
    obtain ⟨whole, tail, he, hd, hs, -⟩ := decimal_text (Double.shortest x.rank) Double.layout
    rw [printNumber_double, he]
    exact starts _ (hd.startsDigit hs tail)

/-- A value has no parts. -/
def IsScalar : Value → Prop
  | .list _ | .table _ => False
  | .null | .bool _ | .number _ | .string _ => True

private theorem print_eq_cons_of_isScalar {v : Value} (h : IsScalar v) :
    ∃ b bs, print v = b :: bs ∧ StartsScalar b := by
  cases v with
  | null | string => exact ⟨_, _, rfl, ⟨by decide, by decide⟩, by decide, by decide⟩
  | bool b => cases b <;> exact ⟨_, _, rfl, ⟨by decide, by decide⟩, by decide, by decide⟩
  | number n => exact printNumber_eq_cons n
  | list | table => cases h

/-- The first byte of a value. -/
theorem print_eq_cons (v : Value) : ∃ b bs, print v = b :: bs ∧ StartsValue b := by
  have scalar {w : Value} (h : IsScalar w) : ∃ b bs, print w = b :: bs ∧ StartsValue b := by
    obtain ⟨b, bs, he, hb, -⟩ := print_eq_cons_of_isScalar h
    exact ⟨b, bs, he, hb⟩
  cases v with
  | list | table => exact ⟨_, _, rfl, by decide, by decide⟩
  | null | bool | number | string => exact scalar trivial

private theorem answers_readScalar {v : Value} (h : IsScalar v) {rest : Bytes}
    (hr : EndsNumber rest) :
    Answers (fun w ↦ w.blur = v.blur) v.DoubleFree rest (readScalar (print v ++ rest)) := by
  cases v with
  | null => exact ⟨rfl, rfl⟩
  | bool b => cases b <;> exact ⟨rfl, rfl⟩
  | number n => exact answers_number n hr
  | string s =>
    have hs : print (.string s) ++ rest =
        ascii '"' :: (s.toList.flatMap printChar ++ ascii '"' :: rest) := by
      simp [print, printScalar, printString]
    have hr : readScalar (ascii '"' :: (s.toList.flatMap printChar ++ ascii '"' :: rest)) =
        (readString (s.toList.flatMap printChar ++ ascii '"' :: rest)).map
          fun r ↦ (.string r.1, r.2) := rfl
    rw [hs, hr, readString_printed]
    exact ⟨rfl, rfl⟩
  | list | table => cases h

/-! ## Parts -/

/-- Some texts, each behind a comma unless it is the `first`. -/
def joined : Bool → List Bytes → Bytes
  | _, [] => []
  | true, t :: ts => t ++ joined false ts
  | false, t :: ts => ascii ',' :: (t ++ joined false ts)

/-- Printed items are their texts between commas. -/
theorem printItems_eq_joined (items : List Value) :
    printItems items = joined true (items.map print) := by
  have behind (v : Value) (items : List Value) :
      printItems (v :: items) = print v ++ joined false (items.map print) := by
    induction items generalizing v with
    | nil => simp [printItems, joined]
    | cons w items ih => rw [printItems, ih, List.map_cons, joined]
  cases items with
  | nil => rfl
  | cons v items => exact behind v items

/-- The text of a member. -/
def printMember (m : String × Value) : Bytes := printString m.1 ++ ascii ':' :: print m.2

/-- Printed members are their texts between commas. -/
theorem printMembers_eq_joined (members : List (String × Value)) :
    printMembers members = joined true (members.map printMember) := by
  have behind (m : String × Value) (members : List (String × Value)) :
      printMembers (m :: members) = printMember m ++ joined false (members.map printMember) := by
    induction members generalizing m with
    | nil => simp [printMembers, joined, printMember]
    | cons n members ih => rw [printMembers, ih, List.map_cons, joined]; simp [printMember]
  cases members with
  | nil => rfl
  | cons m members => exact behind m members

private theorem length_joined_cons (first : Bool) (t : Bytes) (ts : List Bytes) :
    t.length + (joined false ts).length ≤ (joined first (t :: ts)).length := by
  have hl : (t ++ joined false ts).length = t.length + (joined false ts).length :=
    List.length_append
  cases first with
  | false => exact Nat.le_of_lt (Nat.lt_succ_of_le (Nat.le_of_eq hl.symm))
  | true => exact Nat.le_of_eq hl.symm

private theorem length_le_joined {t : Bytes} {ts : List Bytes} (h : t ∈ ts) (first : Bool) :
    t.length ≤ (joined first ts).length := by
  induction ts generalizing first with
  | nil => cases h
  | cons u ts ih =>
    have hu := length_joined_cons first u ts
    rcases List.mem_cons.mp h with rfl | h
    · omega
    · have ht := ih h false
      omega

private theorem count_le_joined {ts : List Bytes} (h : ∀ t ∈ ts, t ≠ []) (first : Bool) :
    ts.length ≤ (joined first ts).length := by
  induction ts generalizing first with
  | nil => exact Nat.zero_le _
  | cons t ts ih =>
    have ht := List.length_pos_iff.mpr (h t List.mem_cons_self)
    have hts := ih (fun u hu ↦ h u (List.mem_cons_of_mem _ hu)) false
    have hj := length_joined_cons first t ts
    rw [List.length_cons]
    omega

private theorem endsNumber_joined (closing : UInt8) (hd : isDigit closing = false)
    (hp : closing ≠ ascii '.') (he : isExponentSign closing = false) (ts : List Bytes)
    (rest : Bytes) : EndsNumber (joined false ts ++ closing :: rest) := by
  cases ts with
  | nil => exact endsNumber_cons hd hp he rest
  | cons t ts => exact endsNumber_cons (by decide) (by decide) (by decide) _

/-! ## Lists -/

/-- A reader of values reads a value back as itself, or fails because of a double or of more than
`depth` brackets, or else reads it back up to its doubles. -/
def ReadsBack (read : Reader Value) (depth : Nat) (v : Value) : Prop :=
  ∀ rest, EndsNumber rest →
    Answers (fun w ↦ w.blur = v.blur ∧ v.nesting ≤ depth) (v.DoubleFree ∧ v.nesting ≤ depth) rest
      (read (print v ++ rest))

private theorem nextItem_end (first : Bool) (rest : Bytes) :
    nextItem first (ascii ']' :: rest) = .ok none := rfl

private theorem nextItem_joined (first : Bool) {b : UInt8} {bs : Bytes} (hb : StartsValue b)
    (ts : List Bytes) (rest : Bytes) :
    nextItem first (joined first ((b :: bs) :: ts) ++ rest) =
      .ok (some (b :: bs ++ (joined false ts ++ rest))) := by
  have hs := skipBlank_cons hb.1
  cases first
  · have hc := skipBlank_cons (b := ascii ',') (by decide)
    have hn : ascii ',' ≠ ascii ']' := by decide
    simp only [joined, List.cons_append, List.append_assoc]
    rw [nextItem, hc]
    dsimp only
    rw [if_neg hn, if_neg Bool.false_ne_true, if_pos rfl, hs]
    dsimp only
    rw [if_neg hb.2]
  · simp only [joined, List.cons_append, List.append_assoc]
    rw [nextItem, hs]
    dsimp only
    rw [if_neg hb.2, if_pos rfl]

private theorem answers_readItems {read : Reader Value} {depth : Nat} {items : List Value}
    (each : ∀ v ∈ items, ReadsBack read depth v) (limit : Nat) (hl : items.length < limit)
    (first : Bool) (done : List Value) (rest : Bytes) :
    Answers
      (fun ws ↦ (∃ new, ws = done.reverse ++ new ∧ Value.blurItems new = Value.blurItems items) ∧
        ∀ v ∈ items, v.nesting ≤ depth)
      (∀ v ∈ items, v.DoubleFree ∧ v.nesting ≤ depth) (ascii ']' :: rest)
      (readItems read limit first done
        (joined first (items.map print) ++ ascii ']' :: rest)) := by
  induction items generalizing limit first done with
  | nil =>
    cases limit with
    | zero => exact absurd hl (Nat.not_lt_zero _)
    | succ limit =>
      have hj : joined first ([].map print) = [] := by cases first <;> rfl
      rw [hj, List.nil_append, readItems, nextItem_end]
      exact ⟨⟨⟨[], (List.append_nil _).symm, rfl⟩, by simp⟩, rfl⟩
  | cons v items ih =>
    cases limit with
    | zero => exact absurd hl (Nat.not_lt_zero _)
    | succ limit =>
      obtain ⟨b, bs, hv, hb⟩ := print_eq_cons v
      have ends := endsNumber_joined (ascii ']') (by decide) (by decide) (by decide)
        (items.map print) rest
      have item := each v List.mem_cons_self _ ends
      rw [List.map_cons, hv, readItems, nextItem_joined first hb, ← hv]
      dsimp only
      cases hr : read (print v ++ (joined false (items.map print) ++ ascii ']' :: rest)) with
      | error f =>
        rw [hr] at item
        intro h
        exact item (h v List.mem_cons_self)
      | ok r =>
        obtain ⟨w, left⟩ := r
        rw [hr] at item
        obtain ⟨⟨hw, hd⟩, rfl⟩ := item
        dsimp only
        refine (ih (fun u hu ↦ each u (List.mem_cons_of_mem _ hu)) limit
          (Nat.lt_of_succ_lt_succ hl) false (w :: done)).imp ?_ ?_
        · rintro _ ⟨⟨new, rfl, hn⟩, hd'⟩
          refine ⟨⟨w :: new, by simp, by rw [Value.blurItems, Value.blurItems, hw, hn]⟩, ?_⟩
          exact List.forall_mem_cons.mpr ⟨hd, hd'⟩
        · intro h u hu
          exact h u (List.mem_cons_of_mem _ hu)

private theorem answers_readList {read : Reader Value} {depth : Nat} {items : List Value}
    (each : ∀ v ∈ items, ReadsBack read depth v) {limit : Nat} (hl : items.length < limit)
    (rest : Bytes) :
    Answers (fun ws ↦ Value.blurItems ws = Value.blurItems items ∧
        Value.nestingItems items ≤ depth)
      (Value.DoubleFreeItems items ∧ Value.nestingItems items ≤ depth) rest
      (readList limit read (printItems items ++ ascii ']' :: rest)) := by
  have items' := answers_readItems each limit hl true [] rest
  have hc : closeList (ascii ']' :: rest) = .ok rest := rfl
  rw [← printItems_eq_joined] at items'
  rw [readList]
  cases hr : readItems read limit true [] (printItems items ++ ascii ']' :: rest) with
  | error f =>
    rw [hr] at items'
    intro h
    apply items'
    intro v hv
    exact ⟨Value.doubleFreeItems_iff.mp h.1 v hv, Value.nestingItems_le_iff.mp h.2 v hv⟩
  | ok r =>
    obtain ⟨ws, left⟩ := r
    rw [hr] at items'
    obtain ⟨⟨⟨new, rfl, hn⟩, hd⟩, rfl⟩ := items'
    simp only [bind, Except.bind, hc]
    exact ⟨⟨hn, Value.nestingItems_le_iff.mpr hd⟩, rfl⟩

/-! ## Tables -/

private theorem nextKey_end (first : Bool) (rest : Bytes) :
    nextKey first (ascii '\x7d' :: rest) = .ok none := by
  cases first <;> rfl

private theorem nextKey_joined (first : Bool) (m : String × Value) (ts : List Bytes)
    (rest : Bytes) :
    nextKey first (joined first (printMember m :: ts) ++ rest) =
      .ok (some (m.1.toList.flatMap printChar ++ ascii '"' ::
        (ascii ':' :: (print m.2 ++ (joined false ts ++ rest))))) := by
  have hm : printMember m = ascii '"' :: (m.1.toList.flatMap printChar ++
      ascii '"' :: ascii ':' :: print m.2) := by simp [printMember, printString]
  rw [hm]
  cases first
  · have hc (after : Bytes) : nextKey false (ascii ',' :: ascii '"' :: after) =
        .ok (some after) := rfl
    simp only [joined, List.cons_append, List.append_assoc]
    exact hc _
  · have hq (after : Bytes) : nextKey true (ascii '"' :: after) = .ok (some after) := rfl
    simp only [joined, List.cons_append, List.append_assoc]
    exact hq _

private theorem answers_readMembers {read : Reader Value} {depth : Nat}
    {members : List (String × Value)}
    (each : ∀ m ∈ members, ReadsBack read depth m.2) (limit : Nat) (hl : members.length < limit)
    (first : Bool) (done : List (String × Value)) (rest : Bytes) :
    Answers
      (fun ws ↦ (∃ new, ws = done.reverse ++ new ∧
          Value.blurMembers new = Value.blurMembers members) ∧
        ∀ m ∈ members, m.2.nesting ≤ depth)
      (∀ m ∈ members, m.2.DoubleFree ∧ m.2.nesting ≤ depth) (ascii '\x7d' :: rest)
      (readMembers read limit first done
        (joined first (members.map printMember) ++ ascii '\x7d' :: rest)) := by
  -- The reader carries the members in front along, last one first, so the induction is for any.
  induction members generalizing limit first done with
  | nil =>
    cases limit with
    | zero => exact absurd hl (Nat.not_lt_zero _)
    | succ limit =>
      have hj : joined first ([].map printMember) = [] := by cases first <;> rfl
      rw [hj, List.nil_append, readMembers, nextKey_end]
      exact ⟨⟨⟨[], (List.append_nil _).symm, rfl⟩, by simp⟩, rfl⟩
  | cons m members ih =>
    cases limit with
    | zero => exact absurd hl (Nat.not_lt_zero _)
    | succ limit =>
      obtain ⟨k, v⟩ := m
      have ends := endsNumber_joined (ascii '\x7d') (by decide) (by decide) (by decide)
        (members.map printMember) rest
      have value := each (k, v) List.mem_cons_self _ ends
      have colon (after : Bytes) : readColon (ascii ':' :: after) = .ok after := rfl
      rw [List.map_cons, readMembers, nextKey_joined]
      dsimp only
      rw [readString_printed]
      dsimp only
      rw [colon]
      dsimp only
      cases hr : read (print v ++ (joined false (members.map printMember) ++
          ascii '\x7d' :: rest)) with
      | error f =>
        rw [hr] at value
        intro h
        exact value (h (k, v) List.mem_cons_self)
      | ok r =>
        obtain ⟨w, left⟩ := r
        rw [hr] at value
        obtain ⟨⟨hw, hd⟩, rfl⟩ := value
        dsimp only
        refine (ih (fun n hn ↦ each n (List.mem_cons_of_mem _ hn)) limit
          (Nat.lt_of_succ_lt_succ hl) false ((k, w) :: done)).imp ?_ ?_
        · rintro _ ⟨⟨new, rfl, hn⟩, hd'⟩
          refine ⟨⟨(k, w) :: new, by simp, ?_⟩, List.forall_mem_cons.mpr ⟨hd, hd'⟩⟩
          rw [Value.blurMembers, Value.blurMembers, hw, hn]
        · intro h n hn
          exact h n (List.mem_cons_of_mem _ hn)

private theorem answers_readTable {read : Reader Value} {depth : Nat}
    {members : List (String × Value)}
    (each : ∀ m ∈ members, ReadsBack read depth m.2) {limit : Nat} (hl : members.length < limit)
    (rest : Bytes) :
    Answers (fun ws ↦ Value.blurMembers ws = Value.blurMembers members ∧
        Value.nestingMembers members ≤ depth)
      (Value.DoubleFreeMembers members ∧ Value.nestingMembers members ≤ depth) rest
      (readTable limit read (printMembers members ++ ascii '\x7d' :: rest)) := by
  have members' := answers_readMembers each limit hl true [] rest
  have hc : closeTable (ascii '\x7d' :: rest) = .ok rest := rfl
  rw [← printMembers_eq_joined] at members'
  rw [readTable]
  cases hr : readMembers read limit true [] (printMembers members ++ ascii '\x7d' :: rest) with
  | error f =>
    rw [hr] at members'
    intro h
    apply members'
    exact fun m hm ↦
      ⟨Value.doubleFreeMembers_iff.mp h.1 m hm, Value.nestingMembers_le_iff.mp h.2 m hm⟩
  | ok r =>
    obtain ⟨ws, left⟩ := r
    rw [hr] at members'
    obtain ⟨⟨⟨new, rfl, hn⟩, hd⟩, rfl⟩ := members'
    simp only [bind, Except.bind, hc]
    exact ⟨⟨hn, Value.nestingMembers_le_iff.mpr hd⟩, rfl⟩

/-! ## Values -/

private theorem room_of_list {items : List Value} {limit : Nat}
    (h : (print (.list items)).length ≤ limit) :
    items.length < limit ∧ ∀ v ∈ items, (print v).length ≤ limit := by
  have hl : (print (.list items)).length = (joined true (items.map print)).length + 2 := by
    simp [print, printItems_eq_joined]
  constructor
  · have texts : ∀ t ∈ items.map print, t ≠ [] := by
      intro t ht
      obtain ⟨v, -, rfl⟩ := List.mem_map.mp ht
      obtain ⟨b, bs, hb, -⟩ := print_eq_cons v
      rw [hb]
      exact List.cons_ne_nil b bs
    have hc := count_le_joined texts true
    rw [List.length_map] at hc
    omega
  · intro v hv
    have := length_le_joined (List.mem_map_of_mem (f := print) hv) true
    omega

private theorem room_of_table {members : List (String × Value)} {limit : Nat}
    (h : (print (.table members)).length ≤ limit) :
    members.length < limit ∧ ∀ m ∈ members, (print m.2).length ≤ limit := by
  have hl : (print (.table members)).length =
      (joined true (members.map printMember)).length + 2 := by
    simp [print, printMembers_eq_joined]
  constructor
  · have texts : ∀ t ∈ members.map printMember, t ≠ [] := by
      intro t ht
      obtain ⟨m, -, rfl⟩ := List.mem_map.mp ht
      exact List.cons_ne_nil _ _
    have hc := count_le_joined texts true
    rw [List.length_map] at hc
    omega
  · intro m hm
    have hj := length_le_joined (List.mem_map_of_mem (f := printMember) hm) true
    have hp : (print m.2).length ≤ (printMember m).length := by
      simp [printMember]
      omega
    omega

/-- What has no bracket in front is read as a scalar. -/
theorem readValue_eq_readScalar (limit depth : Nat) {b : UInt8} (hb : isBlank b = false)
    (hl : b ≠ ascii '[') (ht : b ≠ ascii '\x7b') (rest : Bytes) :
    readValue limit depth (b :: rest) = readScalar (b :: rest) := by
  cases depth <;>
  · rw [readValue, readValueWith, skipBlank_cons hb]
    dsimp only
    rw [if_neg hl, if_neg ht]

private theorem readsBack_of_isScalar (limit depth : Nat) {v : Value} (h : IsScalar v) :
    ReadsBack (readValue limit depth) depth v := by
  obtain ⟨b, bs, hv, hb, hl, ht⟩ := print_eq_cons_of_isScalar h
  have flat : v.nesting = 0 := by
    cases v with
    | null | bool | number | string => rfl
    | list | table => cases h
  intro rest hr
  have scalar := answers_readScalar h hr
  rw [hv, List.cons_append] at scalar ⊢
  rw [readValue_eq_readScalar limit depth hb.1 hl ht]
  exact scalar.imp (fun _ hw ↦ ⟨hw, by omega⟩) fun hc ↦ hc.1

/-- A value is read back. -/
theorem readsBack (limit depth : Nat) (v : Value) (hl : (print v).length ≤ limit) :
    ReadsBack (readValue limit depth) depth v := by
  induction v using Value.induct generalizing depth with
  | null | bool | number | string => exact readsBack_of_isScalar limit depth trivial
  | list items ih =>
    intro rest hr
    obtain ⟨count, room⟩ := room_of_list hl
    have hp : print (.list items) ++ rest =
        ascii '[' :: (printItems items ++ ascii ']' :: rest) := by
      simp [print]
    rw [hp]
    cases depth with
    | zero => exact fun h ↦ absurd h.2 (Nat.not_succ_le_zero _)
    | succ depth =>
      have parts := answers_readList (fun v hv ↦ ih v hv depth (room v hv)) count rest
      refine (parts.map (f := Value.list) ?_).imp (fun _ h ↦ h) ?_
      · rintro ws ⟨hw, hd⟩
        exact ⟨by rw [Value.blur, Value.blur, hw], Nat.succ_le_succ hd⟩
      · intro h
        exact ⟨h.1, Nat.le_of_succ_le_succ h.2⟩
  | table members ih =>
    intro rest hr
    obtain ⟨count, room⟩ := room_of_table hl
    have hp : print (.table members) ++ rest =
        ascii '\x7b' :: (printMembers members ++ ascii '\x7d' :: rest) := by
      simp [print]
    rw [hp]
    cases depth with
    | zero => exact fun h ↦ absurd h.2 (Nat.not_succ_le_zero _)
    | succ depth =>
      have parts := answers_readTable (fun m hm ↦ ih m hm depth (room m hm)) count rest
      refine (parts.map (f := Value.table) ?_).imp (fun _ h ↦ h) ?_
      · rintro ws ⟨hw, hd⟩
        exact ⟨by rw [Value.blur, Value.blur, hw], Nat.succ_le_succ hd⟩
      · intro h
        exact ⟨h.1, Nat.le_of_succ_le_succ h.2⟩

end SchemaDoc.Json
