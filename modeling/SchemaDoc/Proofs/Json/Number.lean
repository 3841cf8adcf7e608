import SchemaDoc.Json.Printer
import SchemaDoc.Json.Numeral

/-!
# Printed numbers

A printed integer is read back as the integer. The text of a double has a point or an exponent, so
whatever number is read from it is a double again, and all of the text is read; its value is left
open.
-/

namespace SchemaDoc.Json

/-- A reading that fails only where it is not `clean`, and that otherwise answers what is `right`
and leaves just the `rest`. -/
def Answers {α : Type} (right : α → Prop) (clean : Prop) (rest : Bytes) :
    Except Fault (α × Bytes) → Prop
  | .ok (x, left) => right x ∧ left = rest
  | .error _ => ¬clean

/-- What may follow a number without being taken for a part of it. -/
def EndsNumber (rest : Bytes) : Prop :=
  ∀ b after, rest = b :: after → isDigit b = false ∧ b ≠ ascii '.' ∧ isExponentSign b = false

/-- A number ends where the text does. -/
theorem endsNumber_nil : EndsNumber [] := by
  intro b after h
  cases h

/-- A number ends before any byte that is no part of one. -/
theorem endsNumber_cons {b : UInt8} (hd : isDigit b = false) (hp : b ≠ ascii '.')
    (he : isExponentSign b = false) (after : Bytes) : EndsNumber (b :: after) := by
  intro c after' h
  obtain ⟨rfl, rfl⟩ := List.cons.inj h
  exact ⟨hd, hp, he⟩

/-! ## Digits -/

/-- All of the bytes are decimal digits. -/
def AllDigits (bs : Bytes) : Prop := ∀ b ∈ bs, isDigit b = true

private theorem digit?_ascii {c : Char} (h : c.isDigit = true) :
    digit? (ascii c) = some (c.toNat - 0x30) := by
  have hc : 0x30 ≤ c.toNat ∧ c.toNat ≤ 0x39 := Char.isDigit_iff_toNat.mp h
  have ha : (ascii c).toNat = c.toNat := by
    rw [UInt8.toNat_ofNat']
    omega
  rw [digit?, ha, if_pos hc]

/-- The text of a natural number is made of digits. -/
theorem allDigits_decimalDigits (n : Nat) : AllDigits (asciiBytes (decimalDigits n)) := by
  intro b hb
  obtain ⟨c, hc, rfl⟩ := List.mem_map.mp hb
  have hd : c.isDigit = true := Nat.isDigit_of_mem_toDigits (by decide) (by decide) hc
  rw [isDigit, digit?_ascii hd]
  rfl

private theorem allDigits_zeros (n : Nat) : AllDigits (asciiBytes (List.replicate n '0')) := by
  intro b hb
  obtain ⟨c, hc, rfl⟩ := List.mem_map.mp hb
  obtain rfl := List.eq_of_mem_replicate hc
  decide

private theorem AllDigits.append {as bs : Bytes} (ha : AllDigits as) (hb : AllDigits bs) :
    AllDigits (as ++ bs) := fun b h ↦ (List.mem_append.mp h).elim (ha b) (hb b)

/-- A part of digits. -/
theorem AllDigits.subset {as bs : Bytes} (h : AllDigits bs) (hs : as ⊆ bs) : AllDigits as :=
  fun b hb ↦ h b (hs hb)

private theorem decimalDigits_ne_zero_cons {n : Nat} (hn : 0 < n) (cs : List Char) :
    decimalDigits n ≠ '0' :: cs := by
  unfold decimalDigits
  induction n using Nat.strongRecOn generalizing cs with
  | ind n ih =>
    intro h
    rw [Nat.toDigits_eq_if (by decide)] at h
    split at h
    · next hlt =>
      have hd : ∀ m < 10, 0 < m → m.digitChar ≠ '0' := by decide
      exact hd n hlt hn (List.cons.inj h).1
    · next hge =>
      cases ht : Nat.toDigits 10 (n / 10) with
      | nil => exact Nat.toDigits_ne_nil ht
      | cons c ds =>
        rw [ht, List.cons_append] at h
        exact ih (n / 10) (by omega) (by omega) ds (by rw [ht, (List.cons.inj h).1])

/-- Digits in front are skipped. -/
theorem skipDigits_append {ds : Bytes} (h : AllDigits ds) (rest : Bytes) :
    skipDigits (ds ++ rest) = skipDigits rest :=
  List.dropWhile_append_of_pos h

/-- Nothing is skipped of what follows a number. -/
theorem EndsNumber.skipDigits_eq {rest : Bytes} (h : EndsNumber rest) :
    skipDigits rest = rest := by
  cases rest with
  | nil => rfl
  | cons b after => simp [skipDigits, (h b after rfl).1]

private theorem skipDigits_readSignificand (significand count : Nat) (bs : Bytes) :
    skipDigits (readSignificand significand count bs).2.2 = skipDigits bs := by
  induction bs generalizing significand count with
  | nil => rfl
  | cons b bs ih =>
    rw [readSignificand]
    split
    · next d hd =>
      split
      · rw [ih]
        simp [skipDigits, isDigit, hd]
      · rfl
    · rfl

/-! ## Integers -/

private theorem readSignificand_digits {cs : List Char} (hd : ∀ c ∈ cs, c.isDigit = true)
    (significand count : Nat) (hb : Nat.ofDigitChars 10 cs significand < significandBound)
    {rest : Bytes} (hr : EndsNumber rest) :
    readSignificand significand count (asciiBytes cs ++ rest) =
      (Nat.ofDigitChars 10 cs significand, count + cs.length, rest) := by
  induction cs generalizing significand count with
  | nil =>
    cases rest with
    | nil => rfl
    | cons b after =>
      have hn : digit? b = none := by simpa [isDigit] using (hr b after rfl).1
      simp [asciiBytes, readSignificand, hn]
  | cons c cs ih =>
    rw [Nat.ofDigitChars_cons, Nat.mul_comm] at hb ⊢
    have hle : significand * 10 + (c.toNat - 0x30) ≤
        Nat.ofDigitChars 10 cs (significand * 10 + (c.toNat - 0x30)) := by
      rw [Nat.ofDigitChars_eq_ofDigitChars_zero]
      exact Nat.le_trans (Nat.le_mul_of_pos_left _ (Nat.pow_pos (by decide)))
        (Nat.le_add_right _ _)
    have hlt : significand * 10 + (c.toNat - 0x30) < significandBound := Nat.lt_of_le_of_lt hle hb
    have hc := digit?_ascii (hd c List.mem_cons_self)
    have next := ih (fun c h ↦ hd c (List.mem_cons_of_mem _ h)) _ (count + 1) hb
    rw [asciiBytes, List.map_cons, List.cons_append, readSignificand, hc]
    dsimp only
    rw [if_pos hlt, List.length_cons, Nat.add_comm cs.length, ← Nat.add_assoc]
    exact next

private theorem readTail_of_ends (negative : Bool) (significand : Nat) {rest : Bytes}
    (hr : EndsNumber rest) :
    readTail negative significand rest = wholeNumber negative significand rest := by
  cases rest with
  | nil => rfl
  | cons b after =>
    obtain ⟨hd, hp, he⟩ := hr b after rfl
    have hs : skipDigits (b :: after) = b :: after := hr.skipDigits_eq
    have ht : (b :: after).takeWhile isDigit = [] := by simp [hd]
    unfold readTail
    rw [hs, ht]
    dsimp only
    rw [if_neg hp, if_neg (by simp [he]), List.length_nil, if_pos rfl]

/-- A digit other than zero starts a significand. -/
theorem readNumber_of_pos (negative : Bool) {b : UInt8} {d : Nat} (h : digit? b = some d)
    (hd : d ≠ 0) (rest : Bytes) :
    readNumber negative (b :: rest) =
      readTail negative (readSignificand d 1 rest).1 (readSignificand d 1 rest).2.2 := by
  cases d with
  | zero => exact absurd rfl hd
  | succ d => simp only [readNumber, h]

/-- Nothing is added to a zero. -/
theorem readNumber_zero (negative : Bool) {rest : Bytes}
    (h : ∀ b after, rest = b :: after → isDigit b = false) :
    readNumber negative (ascii '0' :: rest) = readTail negative 0 rest := by
  have hz : digit? (ascii '0') = some 0 := by decide
  unfold readNumber
  simp only [hz]
  cases rest with
  | nil => rfl
  | cons b after => simp only [h b after rfl, Bool.false_eq_true, if_false]

/-- The text of a natural number is read as its digits. -/
theorem readNumber_decimalDigits (negative : Bool) {n : Nat} (hn : n < significandBound)
    {rest : Bytes} (hr : EndsNumber rest) :
    readNumber negative (asciiBytes (decimalDigits n) ++ rest) = wholeNumber negative n rest := by
  have digits : ∀ c ∈ decimalDigits n, c.isDigit = true := fun c hc ↦
    Nat.isDigit_of_mem_toDigits (by decide) (by decide) hc
  have value : Nat.ofDigitChars 10 (decimalDigits n) 0 = n := Nat.ofDigitChars_ten_toDigits
  rcases Nat.eq_zero_or_pos n with rfl | hpos
  · have hz := readNumber_zero negative fun b after he ↦ (hr b after he).1
    exact hz.trans (readTail_of_ends negative 0 hr)
  · cases hcs : decimalDigits n with
    | nil => exact absurd hcs Nat.toDigits_ne_nil
    | cons c cs =>
      rw [hcs] at digits value
      have hc : 0x30 ≤ c.toNat := (Char.isDigit_iff_toNat.mp (digits c List.mem_cons_self)).1
      have hne : c.toNat - 0x30 ≠ 0 := by
        intro hz
        have h0 : c = '0' := Char.toNat_inj.mp (show c.toNat = 0x30 by omega)
        exact decimalDigits_ne_zero_cons hpos cs (h0 ▸ hcs)
      have value : Nat.ofDigitChars 10 cs (c.toNat - 0x30) = n := by
        rwa [Nat.ofDigitChars_cons, Nat.mul_zero, Nat.zero_add] at value
      have hs := readSignificand_digits (fun c h ↦ digits c (List.mem_cons_of_mem _ h))
        (c.toNat - 0x30) 1 (by rwa [value]) hr
      rw [asciiBytes, List.map_cons, List.cons_append, ← asciiBytes,
        readNumber_of_pos negative (digit?_ascii (digits c List.mem_cons_self)) hne, hs, value]
      exact readTail_of_ends negative n hr

/-- The sign and the digits of an integer are the integer. -/
theorem wholeNumber_integer (i : Integer) (rest : Bytes) :
    wholeNumber (decide (i.val < 0)) i.val.natAbs rest = .ok (.integer i, rest) := by
  have fits : Integer.ofInt? i.val = some i := dif_pos ⟨i.le_val, i.val_lt⟩
  unfold wholeNumber
  by_cases hn : i.val < 0
  · have hv : -(i.val.natAbs : Int) = i.val := by omega
    have hz : i.val.natAbs ≠ 0 := by omega
    rw [decide_eq_true hn]
    dsimp only
    rw [if_neg fun h ↦ hz h.2, if_pos rfl, hv, fits]
  · have hv : (i.val.natAbs : Int) = i.val := by omega
    rw [decide_eq_false hn]
    dsimp only
    rw [if_neg fun h ↦ Bool.false_ne_true h.1, if_neg Bool.false_ne_true, hv, fits]

/-! ## Doubles -/

/-- An exponent with its sign. -/
inductive ExponentText : Bytes → Prop where
  /-- The letter, a sign and digits. -/
  | intro (below : Bool) {es : Bytes} (digits : AllDigits es) (some : es ≠ []) :
    ExponentText (ascii 'e' :: (if below then ascii '-' else ascii '+') :: es)

/-- What stands behind the integer digits in the text of a double. -/
inductive DoubleTail : Bytes → Prop where
  /-- A point and digits. -/
  | fraction {ds : Bytes} (digits : AllDigits ds) (some : ds ≠ []) : DoubleTail (ascii '.' :: ds)
  /-- An exponent. -/
  | exponent {e : Bytes} (h : ExponentText e) : DoubleTail e
  /-- A point and digits, and then an exponent. -/
  | both {ds e : Bytes} (digits : AllDigits ds) (some : ds ≠ []) (h : ExponentText e) :
    DoubleTail (ascii '.' :: (ds ++ e))

/-- Reading a double answers some double. -/
abbrev AnswersDouble (rest : Bytes) (result : Except Fault (Number × Bytes)) : Prop :=
  Answers (fun n ↦ ∃ x, n = .double x) False rest result

section

variable (negative : Bool) (significand : Nat) {rest : Bytes}

private theorem answers_doubleOf (exponent : Int) :
    AnswersDouble rest (doubleOf negative significand exponent rest) := by
  unfold doubleOf
  split
  · exact ⟨⟨_, rfl⟩, rfl⟩
  · exact id

private theorem answers_readExponentDigits (hr : EndsNumber rest) (start : Int) (below : Bool)
    (exponent : Nat) {es : Bytes} (hd : AllDigits es) :
    AnswersDouble rest
      (readExponentDigits negative significand start below exponent (es ++ rest)) := by
  induction es generalizing exponent with
  | nil =>
    cases rest with
    | nil => exact answers_doubleOf negative significand _
    | cons b after =>
      have hn : digit? b = none := by simpa [isDigit] using (hr b after rfl).1
      rw [List.nil_append, readExponentDigits, hn]
      exact answers_doubleOf negative significand _
  | cons b es ih =>
    have hes : AllDigits es := hd.subset (List.subset_cons_self b es)
    rw [List.cons_append, readExponentDigits]
    split
    · split
      · exact ih _ hes
      split
      · exact id
      · refine ⟨⟨_, rfl⟩, ?_⟩
        rw [skipDigits_append hes, hr.skipDigits_eq]
    · next hn => exact absurd (hd b List.mem_cons_self) (by simp [isDigit, hn])

private theorem answers_readExponent (hr : EndsNumber rest) (start : Int) (below : Bool)
    {es : Bytes} (hd : AllDigits es) (hs : es ≠ []) :
    AnswersDouble rest (readExponent negative significand start
      ((if below then ascii '-' else ascii '+') :: (es ++ rest))) := by
  cases es with
  | nil => exact absurd rfl hs
  | cons b es =>
    have hb : (digit? b).isSome = true := hd b List.mem_cons_self
    obtain ⟨d, hb⟩ := Option.isSome_iff_exists.mp hb
    have digits := answers_readExponentDigits negative significand hr start below d
      (hd.subset (List.subset_cons_self b es))
    have hm : ascii '-' ≠ ascii '+' := by decide
    cases below
    · simpa [readExponent, hb] using digits
    · simpa [readExponent, hb, hm] using digits

private theorem answers_readScale {e : Bytes} (he : ExponentText e) (hr : EndsNumber rest)
    (exponent : Int) :
    AnswersDouble rest (readScale negative significand exponent (e ++ rest)) := by
  cases he with
  | intro below hd hs =>
    rw [List.cons_append, List.cons_append, readScale, if_pos (by decide)]
    exact answers_readExponent negative significand hr exponent below hd hs

private theorem answers_readScale_of_ends (hr : EndsNumber rest) (exponent : Int) :
    AnswersDouble rest (readScale negative significand exponent rest) := by
  cases rest with
  | nil => exact answers_doubleOf negative significand exponent
  | cons b after =>
    rw [readScale, if_neg (by simp [(hr b after rfl).2.2])]
    exact answers_doubleOf negative significand exponent

private theorem answers_readFraction {ds after : Bytes} (hd : AllDigits ds) (hs : ds ≠ [])
    (ha : skipDigits after = after)
    (scale : ∀ significand exponent,
      AnswersDouble rest (readScale negative significand exponent after)) (exponent : Int) :
    AnswersDouble rest (readFraction negative significand exponent (ds ++ after)) := by
  cases ds with
  | nil => exact absurd rfl hs
  | cons b ds =>
    rw [List.cons_append, readFraction, if_pos (hd b List.mem_cons_self)]
    dsimp only
    rw [skipDigits_readSignificand, ← List.cons_append, skipDigits_append hd, ha]
    exact scale _ _

end

private theorem ExponentText.skipDigits_eq {e : Bytes} (h : ExponentText e) (rest : Bytes) :
    skipDigits (e ++ rest) = e ++ rest := by
  cases h
  rfl

private theorem answers_readTail (negative : Bool) (significand : Nat) {bs tail rest : Bytes}
    (ht : DoubleTail tail) (hr : EndsNumber rest) (hs : skipDigits bs = tail ++ rest) :
    AnswersDouble rest (readTail negative significand bs) := by
  unfold readTail
  rw [hs]
  cases ht with
  | fraction hd hne =>
    exact answers_readFraction negative significand hd hne hr.skipDigits_eq
      (fun _ _ ↦ answers_readScale_of_ends negative _ hr _) _
  | exponent he =>
    cases he with
    | intro below hd hne => exact answers_readExponent negative significand hr _ below hd hne
  | both hd hne he =>
    dsimp only [List.cons_append]
    rw [if_pos rfl, List.append_assoc]
    exact answers_readFraction negative significand hd hne (he.skipDigits_eq rest)
      (fun _ _ ↦ answers_readScale negative _ he hr _) _

private theorem readNumber_cases (negative : Bool) (bs : Bytes) :
    (∃ f, readNumber negative bs = .error f) ∨ ∃ significand left,
      skipDigits left = skipDigits bs ∧
        readNumber negative bs = readTail negative significand left := by
  cases bs with
  | nil => exact .inl ⟨_, rfl⟩
  | cons b rest =>
    cases hd : digit? b with
    | none => exact .inl ⟨_, by simp only [readNumber, hd]; rfl⟩
    | some d =>
      have hb : skipDigits (b :: rest) = skipDigits rest := by simp [skipDigits, isDigit, hd]
      rw [hb]
      cases d with
      | zero =>
        simp only [readNumber, hd]
        cases rest with
        | nil => exact .inr ⟨0, [], rfl, rfl⟩
        | cons c after =>
          dsimp only
          split
          · exact .inl ⟨_, rfl⟩
          · exact .inr ⟨0, c :: after, rfl, rfl⟩
      | succ d =>
        exact .inr ⟨_, _, skipDigits_readSignificand (d + 1) 1 rest,
          readNumber_of_pos negative hd (Nat.succ_ne_zero d) rest⟩

/-- Integer digits and what follows them in the text of a double are read to their end. -/
theorem answers_readNumber (negative : Bool) {whole tail rest : Bytes} (hw : AllDigits whole)
    (ht : DoubleTail tail) (hr : EndsNumber rest) :
    AnswersDouble rest (readNumber negative (whole ++ (tail ++ rest))) := by
  have hs : skipDigits (tail ++ rest) = tail ++ rest := by
    cases ht with
    | fraction | both => rfl
    | exponent he => exact he.skipDigits_eq rest
  rcases readNumber_cases negative (whole ++ (tail ++ rest)) with ⟨f, h⟩ | ⟨_, left, hl, h⟩
  · rw [h]
    exact id
  · rw [h]
    exact answers_readTail negative _ ht hr (by rw [hl, skipDigits_append hw, hs])

/-! ## Texts -/

/-- A text that is not empty has bytes. -/
theorem asciiBytes_ne_nil {cs : List Char} (h : cs ≠ []) : asciiBytes cs ≠ [] := by
  intro he
  exact h (List.map_eq_nil_iff.mp he)

private theorem digits_take (n : Nat) {k : Nat} (hk : 0 < k) :
    AllDigits (asciiBytes ((decimalDigits n).take k)) ∧
      asciiBytes ((decimalDigits n).take k) ≠ [] := by
  have length : 0 < (decimalDigits n).length := List.length_pos_iff.mpr Nat.toDigits_ne_nil
  constructor
  · exact (allDigits_decimalDigits n).subset (List.map_subset ascii (List.take_subset k _))
  · apply asciiBytes_ne_nil
    apply List.ne_nil_of_length_pos
    rw [List.length_take]
    omega

private theorem digits_drop (n : Nat) {k : Nat} (hk : k < (decimalDigits n).length) :
    AllDigits (asciiBytes ((decimalDigits n).drop k)) ∧
      asciiBytes ((decimalDigits n).drop k) ≠ [] := by
  constructor
  · exact (allDigits_decimalDigits n).subset (List.map_subset ascii (List.drop_subset k _))
  · apply asciiBytes_ne_nil
    apply List.ne_nil_of_length_pos
    rw [List.length_drop]
    omega

private theorem exponentText_decimalDigits (first : Int) :
    ExponentText (asciiBytes (['e'] ++ [if first < 0 then '-' else '+'] ++
      decimalDigits first.natAbs)) := by
  have he := ExponentText.intro (decide (first < 0)) (allDigits_decimalDigits first.natAbs)
    (asciiBytes_ne_nil Nat.toDigits_ne_nil)
  by_cases hn : first < 0
  · simpa [asciiBytes, hn] using he
  · simpa [asciiBytes, hn] using he

private theorem ne_zero_of_decimalDigits {n : Nat} (hn : 0 < n) {k : Nat} {rest after : Bytes} :
    asciiBytes ((decimalDigits n).take (k + 1)) ++ rest ≠ ascii '0' :: after := by
  cases hc : decimalDigits n with
  | nil => exact absurd hc Nat.toDigits_ne_nil
  | cons c cs =>
    have digit : c.isDigit = true := by
      apply Nat.isDigit_of_mem_toDigits (b := 10) (n := n) (by decide) (by decide)
      rw [show Nat.toDigits 10 n = c :: cs from hc]
      exact List.mem_cons_self
    have bounds : 0x30 ≤ c.toNat ∧ c.toNat ≤ 0x39 := Char.isDigit_iff_toNat.mp digit
    intro h
    have front := congrArg UInt8.toNat (List.cons.inj h).1
    simp only [UInt8.toNat_ofNat', Char.reduceToNat] at front
    have zero : c = '0' := Char.toNat_inj.mp (show c.toNat = 0x30 by omega)
    exact decimalDigits_ne_zero_cons hn cs (zero ▸ hc)

/-- Some integer digits and what follows them in the text of a double. The integer digits of a
decimal start with a zero only if that is all, but for a zero that was scaled. -/
def DecimalText (d : Decimal) (bs : Bytes) : Prop :=
  ∃ whole tail, bs = whole ++ tail ∧ AllDigits whole ∧ whole ≠ [] ∧ DoubleTail tail ∧
    (0 < d.digits ∨ d = ⟨0, 0⟩ → ∀ after, whole = ascii '0' :: after → after = [])

section

variable (d : Decimal)

private theorem decimalText_below (zeros : Nat) : DecimalText d
    (asciiBytes (['0', '.'] ++ List.replicate zeros '0' ++ decimalDigits d.digits)) := by
  refine ⟨asciiBytes ['0'], ascii '.' :: (asciiBytes (List.replicate zeros '0') ++
    asciiBytes (decimalDigits d.digits)), ?_, allDigits_zeros 1, by decide, ?_, ?_⟩
  · simp [asciiBytes]
  · apply DoubleTail.fraction ((allDigits_zeros _).append (allDigits_decimalDigits _))
    intro h
    exact asciiBytes_ne_nil Nat.toDigits_ne_nil (List.append_eq_nil_iff.mp h).2
  · intro _ after ha
    exact (List.cons.inj ha).2.symm

private theorem decimalText_among (scaled : d.exponent < 0) {places : Nat}
    (behind : places + 1 < (decimalDigits d.digits).length) : DecimalText d
    (asciiBytes ((decimalDigits d.digits).take (places + 1) ++ ['.'] ++
      (decimalDigits d.digits).drop (places + 1))) := by
  obtain ⟨before, someBefore⟩ := digits_take d.digits (Nat.succ_pos places)
  obtain ⟨after, someAfter⟩ := digits_drop d.digits behind
  refine ⟨_, _, ?_, before, someBefore, .fraction after someAfter, ?_⟩
  · simp [asciiBytes]
  · intro hd after ha
    rcases hd with hd | hd
    · exact absurd ((List.append_nil _).trans ha) (ne_zero_of_decimalDigits hd)
    · simp [hd] at scaled

private theorem decimalText_above : DecimalText d
    (asciiBytes (decimalDigits d.digits ++ List.replicate d.exponent.natAbs '0' ++
      ['.', '0'])) := by
  refine ⟨asciiBytes (decimalDigits d.digits) ++
    asciiBytes (List.replicate d.exponent.natAbs '0'), ascii '.' :: asciiBytes ['0'], ?_,
    (allDigits_decimalDigits _).append (allDigits_zeros _), ?_,
    .fraction (allDigits_zeros 1) (by decide), ?_⟩
  · simp [asciiBytes]
  · intro h
    exact asciiBytes_ne_nil Nat.toDigits_ne_nil (List.append_eq_nil_iff.mp h).1
  · intro hd after ha
    rcases hd with hd | hd
    · have whole : (decimalDigits d.digits).take ((decimalDigits d.digits).length + 1) =
          decimalDigits d.digits := List.take_of_length_le (Nat.le_succ _)
      rw [← whole] at ha
      exact absurd ha (ne_zero_of_decimalDigits hd)
    · rw [hd] at ha
      exact (List.cons.inj ha).2.symm

private theorem decimalText_scaled (first : Int) : DecimalText d
    (asciiBytes ((decimalDigits d.digits).take 1 ++
      (if 1 < (decimalDigits d.digits).length then '.' :: (decimalDigits d.digits).drop 1
        else []) ++ ['e'] ++ [if first < 0 then '-' else '+'] ++
      decimalDigits first.natAbs)) := by
  obtain ⟨one, someOne⟩ := digits_take d.digits Nat.one_pos
  have exponent := exponentText_decimalDigits first
  have alone : ∀ after, asciiBytes ((decimalDigits d.digits).take 1) = ascii '0' :: after →
      after = [] := by
    intro after ha
    have length := congrArg List.length ha
    simp only [asciiBytes, List.length_map, List.length_take, List.length_cons] at length
    exact List.eq_nil_of_length_eq_zero (by omega)
  by_cases hl : 1 < (decimalDigits d.digits).length
  · obtain ⟨others, someOthers⟩ := digits_drop d.digits hl
    refine ⟨_, _, ?_, one, someOne, .both others someOthers exponent, fun _ ↦ alone⟩
    simp [asciiBytes, hl]
  · refine ⟨_, _, ?_, one, someOne, .exponent exponent, fun _ ↦ alone⟩
    simp [asciiBytes, hl]

/-- The text of a decimal in any layout. -/
theorem decimal_text (layout : Decimal.Layout) : DecimalText d (asciiBytes (d.text layout)) := by
  unfold Decimal.text
  generalize hf : d.exponent + (((decimalDigits d.digits).length - 1 : Nat) : Int) = first
  dsimp only
  rw [hf]
  split
  · split
    · exact decimalText_below d _
    split
    · next scaled => exact decimalText_among d scaled (by omega)
    · exact decimalText_above d
  · exact decimalText_scaled d first

end

end SchemaDoc.Json
