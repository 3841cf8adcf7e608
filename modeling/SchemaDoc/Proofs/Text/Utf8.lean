import SchemaDoc.Text.Utf8

/-!
# Byte strings that are UTF-8

A byte string is UTF-8 if it is the bytes of some characters, one after the other, and this is what
reading it as text finds out. Such byte strings may be joined anywhere and cut before any byte that
does not stand inside a character.
-/

namespace SchemaDoc.Utf8

/-- A byte string is the bytes of some characters. -/
def IsText (bs : Bytes) : Prop := ∃ cs : List Char, bs = cs.flatMap encodeChar

/-! ## Joining -/

/-- No characters at all. -/
theorem isText_nil : IsText [] := ⟨[], rfl⟩

private theorem isText_encodeChar (c : Char) : IsText (encodeChar c) := ⟨[c], by simp⟩

/-- Characters behind characters. -/
theorem IsText.append {as bs : Bytes} (ha : IsText as) (hb : IsText bs) : IsText (as ++ bs) := by
  obtain ⟨cs, rfl⟩ := ha
  obtain ⟨ds, rfl⟩ := hb
  exact ⟨cs ++ ds, by simp⟩

/-- The code point of a character that is made from one. -/
theorem toNat_charOfNat {n : Nat} (h : n < 0xD800 ∨ 0xDFFF < n ∧ n < 0x110000) :
    (Char.ofNat n).toNat = n := by
  have hv : n.isValidChar := h
  rw [Char.ofNat, dif_pos hv]
  rfl

/-- A byte below `0x80` is a character. -/
theorem encodeChar_ofNat {b : UInt8} (h : b.toNat < 0x80) :
    encodeChar (Char.ofNat b.toNat) = [b] := by
  have hc := toNat_charOfNat (n := b.toNat) (.inl (by omega))
  simp [encodeChar, hc, h]

/-- A byte below `0x80` before characters. -/
theorem IsText.cons {b : UInt8} {bs : Bytes} (hb : b.toNat < 0x80) (h : IsText bs) :
    IsText (b :: bs) := by
  have front := isText_encodeChar (Char.ofNat b.toNat)
  rw [encodeChar_ofNat hb] at front
  exact front.append h

/-- Bytes below `0x80` are characters. -/
theorem isText_of_ascii {bs : Bytes} (h : ∀ b ∈ bs, b.toNat < 0x80) : IsText bs := by
  induction bs with
  | nil => exact isText_nil
  | cons b bs ih =>
    obtain ⟨hb, hbs⟩ := List.forall_mem_cons.mp h
    exact (ih hbs).cons hb

/-! ## Reading -/

private theorem ofNat_eq {b : UInt8} {n : Nat} (h : n = b.toNat) : UInt8.ofNat n = b := by
  rw [h]
  exact UInt8.ofNat_toNat

private theorem encodeChar_two {a b : UInt8} (ha : 0xC2 ≤ a.toNat ∧ a.toNat < 0xE0)
    (hb : 0x80 ≤ b.toNat ∧ b.toNat ≤ 0xBF) :
    encodeChar (Char.ofNat (a.toNat % 32 * 64 + b.toNat % 64)) = [a, b] := by
  rw [encodeChar, toNat_charOfNat (by omega), if_neg (by omega), if_pos (by omega),
    ofNat_eq (b := a) (by omega), ofNat_eq (b := b) (by omega)]

private theorem encodeChar_three {a b c : UInt8} (ha : 0xE0 ≤ a.toNat ∧ a.toNat < 0xF0)
    (hb : secondLow a.toNat ≤ b.toNat ∧ b.toNat ≤ secondHigh a.toNat)
    (hc : 0x80 ≤ c.toNat ∧ c.toNat ≤ 0xBF) :
    encodeChar (Char.ofNat (a.toNat % 16 * 4096 + b.toNat % 64 * 64 + c.toNat % 64)) =
      [a, b, c] := by
  have range : 0x80 ≤ b.toNat ∧ b.toNat ≤ 0xBF ∧ (a.toNat = 0xE0 → 0xA0 ≤ b.toNat) ∧
      (a.toNat = 0xED → b.toNat ≤ 0x9F) := by
    grind [secondLow, secondHigh]
  rw [encodeChar, toNat_charOfNat (by omega), if_neg (by omega), if_neg (by omega),
    if_pos (by omega), ofNat_eq (b := a) (by omega), ofNat_eq (b := b) (by omega),
    ofNat_eq (b := c) (by omega)]

private theorem encodeChar_four {a b c d : UInt8} (ha : 0xF0 ≤ a.toNat ∧ a.toNat ≤ 0xF4)
    (hb : secondLow a.toNat ≤ b.toNat ∧ b.toNat ≤ secondHigh a.toNat)
    (hc : 0x80 ≤ c.toNat ∧ c.toNat ≤ 0xBF) (hd : 0x80 ≤ d.toNat ∧ d.toNat ≤ 0xBF) :
    encodeChar (Char.ofNat (a.toNat % 8 * 262144 + b.toNat % 64 * 4096 + c.toNat % 64 * 64 +
      d.toNat % 64)) = [a, b, c, d] := by
  have range : 0x80 ≤ b.toNat ∧ b.toNat ≤ 0xBF ∧ (a.toNat = 0xF0 → 0x90 ≤ b.toNat) ∧
      (a.toNat = 0xF4 → b.toNat ≤ 0x8F) := by
    grind [secondLow, secondHigh]
  rw [encodeChar, toNat_charOfNat (by omega), if_neg (by omega), if_neg (by omega),
    if_neg (by omega), ofNat_eq (b := a) (by omega), ofNat_eq (b := b) (by omega),
    ofNat_eq (b := c) (by omega), ofNat_eq (b := d) (by omega)]

private theorem eq_append_of_front {a : UInt8} {rest : Bytes} {c : Char} {n : Nat}
    (h : Piece.front a rest = .char c n) :
    ∃ tail after, encodeChar c = a :: tail ∧ rest = tail ++ after ∧ n = tail.length + 1 := by
  -- By the number of bytes that the first one announces: one, two, three, four.
  unfold Piece.front at h
  dsimp only at h
  split at h
  · next h1 =>
    cases h
    exact ⟨[], rest, encodeChar_ofNat h1, rfl, rfl⟩
  split at h
  · cases h
  next _ ha =>
  simp only [Bool.or_eq_true, decide_eq_true_eq, not_or, Nat.not_lt] at ha
  split at h
  · cases h
  next b rest₁ =>
  split at h
  · cases h
  next hb =>
  simp only [Bool.or_eq_true, decide_eq_true_eq, not_or, Nat.not_lt] at hb
  split at h
  · next h2 =>
    cases h
    have range : 0x80 ≤ b.toNat ∧ b.toNat ≤ 0xBF := by
      grind [secondLow, secondHigh]
    exact ⟨[b], rest₁, encodeChar_two ⟨ha.1, h2⟩ range, rfl, rfl⟩
  next h2 =>
  have ha2 : 0xE0 ≤ a.toNat := Nat.le_of_not_lt h2
  split at h
  · cases h
  next c rest₂ =>
  split at h
  · cases h
  next hc =>
  simp only [isTail, Bool.not_eq_true', Bool.not_eq_false, Bool.and_eq_true,
    decide_eq_true_eq] at hc
  split at h
  · next h3 =>
    cases h
    exact ⟨[b, c], rest₂, encodeChar_three ⟨ha2, h3⟩ hb hc, rfl, rfl⟩
  next h3 =>
  split at h
  · cases h
  next d rest₃ =>
  split at h
  · cases h
  next hd =>
  simp only [isTail, Bool.not_eq_true', Bool.not_eq_false, Bool.and_eq_true,
    decide_eq_true_eq] at hd
  cases h
  exact ⟨[b, c, d], rest₃, encodeChar_four ⟨Nat.le_of_not_lt h3, ha.2⟩ hb hc hd, rfl, rfl⟩

private theorem piecesFrom_eq_append (done : List Piece) (skip : Nat) (bs : Bytes) :
    piecesFrom done skip bs = done.reverse ++ piecesFrom [] skip bs := by
  induction bs generalizing done skip with
  | nil => cases skip <;> simp [piecesFrom]
  | cons b bs ih =>
    cases skip with
    | succ skip =>
      rw [piecesFrom, piecesFrom]
      exact ih done skip
    | zero =>
      rw [piecesFrom, piecesFrom, ih, ih [_]]
      simp

private theorem eq_of_charsFrom {bs : Bytes} {done cs : List Char} {before : Nat}
    (h : charsFrom done before (pieces bs) = .ok cs) :
    ∃ new, cs = done.reverse ++ new ∧ bs = new.flatMap encodeChar := by
  generalize hn : bs.length = n
  induction n using Nat.strongRecOn generalizing bs done before with
  | ind n ih =>
    cases bs with
    | nil =>
      cases h
      exact ⟨[], by simp⟩
    | cons a rest =>
      have cut : pieces (a :: rest) =
          Piece.front a rest :: piecesFrom [] ((Piece.front a rest).size - 1) rest := by
        rw [pieces, piecesFrom, piecesFrom_eq_append]
        rfl
      rw [cut] at h
      cases hf : Piece.front a rest with
      | stray k | cut k =>
        rw [hf] at h
        cases h
      | char c k =>
        obtain ⟨tail, after, hc, rfl, rfl⟩ := eq_append_of_front hf
        rw [hf, charsFrom, Piece.size, Nat.add_sub_cancel, piecesFrom_append] at h
        have shorter : after.length < n := by
          rw [← hn, List.length_cons, List.length_append]
          omega
        obtain ⟨new, rfl, rfl⟩ := ih _ shorter h rfl
        refine ⟨c :: new, by simp, ?_⟩
        rw [List.flatMap_cons, hc, List.cons_append]

/-- A byte string is read as a text exactly if it is the bytes of that. -/
theorem decode_eq_ok_iff {bs : Bytes} {s : String} : decode bs = .ok s ↔ bs = encode s := by
  constructor
  · intro h
    unfold decode at h
    cases hc : charsFrom [] 0 (pieces bs) with
    | error f =>
      rw [hc] at h
      cases h
    | ok cs =>
      rw [hc] at h
      cases h
      obtain ⟨new, rfl, rfl⟩ := eq_of_charsFrom hc
      simp [encode]
  · rintro rfl
    exact decode_encode s

/-- A byte string is read as some text exactly if it is UTF-8. -/
theorem isText_iff {bs : Bytes} : IsText bs ↔ ∃ s, decode bs = .ok s := by
  constructor
  · rintro ⟨cs, rfl⟩
    exact ⟨String.ofList cs, decode_eq_ok_iff.mpr (by simp [encode])⟩
  · rintro ⟨s, h⟩
    exact ⟨s.toList, decode_eq_ok_iff.mp h⟩

/-! ## Cutting -/

private theorem toNat_ofNat_of_lt {n : Nat} (h : n < 256) : (UInt8.ofNat n).toNat = n := by
  rw [UInt8.toNat_ofNat']
  omega

private theorem isTail_inner (ns : List Nat) :
    ∀ b ∈ ns.map fun n ↦ UInt8.ofNat (0x80 + n % 64), isTail b.toNat = true := by
  intro b hb
  obtain ⟨n, -, rfl⟩ := List.mem_map.mp hb
  rw [toNat_ofNat_of_lt (by omega), isTail, Bool.and_eq_true, decide_eq_true_iff,
    decide_eq_true_iff]
  omega

private theorem isTail_first {n : Nat} (h : n < 0x80 ∨ 0xC0 ≤ n ∧ n < 0x100) :
    isTail (UInt8.ofNat n).toNat = false := by
  rw [toNat_ofNat_of_lt (by omega), isTail, Bool.and_eq_false_iff, decide_eq_false_iff_not,
    decide_eq_false_iff_not]
  omega

/-- The first byte of a character does not stand inside one, and all others do. -/
theorem encodeChar_eq_cons (c : Char) : ∃ a tail, encodeChar c = a :: tail ∧
    isTail a.toNat = false ∧ ∀ b ∈ tail, isTail b.toNat = true := by
  have hv : c.toNat < 0xD800 ∨ 0xDFFF < c.toNat ∧ c.toNat < 0x110000 := c.valid
  unfold encodeChar
  generalize c.toNat = n at hv
  dsimp only
  split
  · exact ⟨_, _, rfl, isTail_first (by omega), isTail_inner []⟩
  split
  · exact ⟨_, _, rfl, isTail_first (by omega), isTail_inner [n]⟩
  split
  · exact ⟨_, _, rfl, isTail_first (by omega), isTail_inner [n / 64, n]⟩
  · exact ⟨_, _, rfl, isTail_first (by omega), isTail_inner [n / 4096, n / 64, n]⟩

private theorem encodeChar_append_inj {c d : Char} {as bs : Bytes}
    (h : encodeChar c ++ as = encodeChar d ++ bs) : c = d ∧ as = bs := by
  obtain ⟨a, tail, hc, hf⟩ := front_encodeChar c as
  obtain ⟨a', tail', hd, hg⟩ := front_encodeChar d bs
  have same := h
  rw [hc, hd, List.cons_append, List.cons_append] at same
  obtain ⟨rfl, hr⟩ := List.cons.inj same
  rw [hr, hg] at hf
  obtain ⟨rfl, -⟩ := Piece.char.inj hf
  exact ⟨rfl, List.append_cancel_left h⟩

/-- A byte below `0x80` is among the bytes of no other character than its own. -/
theorem eq_of_mem_encodeChar {c : Char} {b : UInt8} (h : b ∈ encodeChar c) (hb : b.toNat < 0x80) :
    c = Char.ofNat b.toNat := by
  obtain ⟨a, tail, he, -, ht⟩ := encodeChar_eq_cons c
  rw [he] at h
  rcases List.mem_cons.mp h with rfl | hm
  · have same : encodeChar c ++ [] = encodeChar (Char.ofNat b.toNat) ++ tail := by
      rw [encodeChar_ofNat hb, he]
      simp
    exact (encodeChar_append_inj same).1
  · have := ht b hm
    simp only [isTail, Bool.and_eq_true, decide_eq_true_eq] at this
    omega

/-- A byte below `0x80` is in a text only if its character is. -/
theorem mem_of_mem_encode {s : String} {b : UInt8} (h : b ∈ encode s) (hb : b.toNat < 0x80) :
    Char.ofNat b.toNat ∈ s.toList := by
  obtain ⟨c, hc, hm⟩ := List.mem_flatMap.mp h
  exact eq_of_mem_encodeChar hm hb ▸ hc

/-- A byte string that starts with the bytes of a character goes on behind them. -/
theorem IsText.of_encodeChar_append {c : Char} {bs : Bytes} (h : IsText (encodeChar c ++ bs)) :
    IsText bs := by
  obtain ⟨cs, hcs⟩ := h
  cases cs with
  | nil =>
    obtain ⟨a, tail, hc, -⟩ := encodeChar_eq_cons c
    rw [hc] at hcs
    cases hcs
  | cons d cs =>
    rw [List.flatMap_cons] at hcs
    exact ⟨cs, (encodeChar_append_inj hcs).2⟩

/-- A byte string may be cut before a byte that does not stand inside a character. -/
theorem IsText.cut {as bs : Bytes} {b : UInt8} (h : IsText (as ++ b :: bs))
    (hb : isTail b.toNat = false) : IsText as ∧ IsText (b :: bs) := by
  obtain ⟨cs, hcs⟩ := h
  induction cs generalizing as with
  | nil => simp at hcs
  | cons c cs ih =>
    cases as with
    | nil => exact ⟨isText_nil, c :: cs, hcs⟩
    | cons a as =>
      obtain ⟨a', tail, hc, -, inside⟩ := encodeChar_eq_cons c
      rw [List.flatMap_cons, hc, List.cons_append, List.cons_append] at hcs
      obtain ⟨rfl, hr⟩ := List.cons.inj hcs
      have whole := isText_encodeChar c
      rw [hc] at whole
      rcases List.append_eq_append_iff.mp hr with ⟨mid, rfl, hm⟩ | ⟨mid, rfl, hm⟩
      · cases mid with
        | nil =>
          rw [List.append_nil] at whole
          exact ⟨whole, cs, hm⟩
        | cons x mid =>
          -- The cut would stand inside the character.
          obtain ⟨rfl, -⟩ := List.cons.inj hm
          simp [inside b (by simp)] at hb
      · obtain ⟨before, behind⟩ := ih hm.symm
        exact ⟨whole.append before, behind⟩

end SchemaDoc.Utf8
