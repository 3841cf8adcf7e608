import SchemaDoc.Proofs.Json.Skim

/-!
# Spellings

A string or a number that was read from the front of a text is read from its own bytes too, with
anything behind them that may stand there. Those bytes keep to the grammar, and if what they say is
UTF-8, so are they.
-/

namespace SchemaDoc.Json

/-- What was read in front of `left` is of a kind, and says the same in front of anything that may
follow a number. -/
def Spelled {α : Type} (read : Reader α) (kind : Bytes → Prop) (x : α) (bs left : Bytes) : Prop :=
  ∃ t, kind t ∧ bs = t ++ left ∧ ∀ rest, EndsNumber rest → read (t ++ rest) = .ok (x, rest)

/-- Bytes of a kind, in UTF-8. -/
structure Plain (kind : Bytes → Prop) (t : Bytes) : Prop where
  /-- The bytes are of the kind. -/
  kind : kind t
  /-- The bytes are UTF-8. -/
  text : Utf8.IsText t

/-! ## Escapes -/

/-- An escape behind its backslash. -/
structure EscapeSpelling (c : Char) (esc : Bytes) : Prop where
  /-- The escape stands for the character. -/
  reads : ∀ rest, readEscape (esc ++ rest) = .ok ⟨Utf8.encodeChar c, esc.length⟩
  /-- The escape has no byte that stands inside a character. -/
  plain : ∀ b ∈ esc, b.toNat < 0x80
  /-- The escape may stand in a string. -/
  string : ∀ t, StringText t → StringText (ascii '\\' :: (esc ++ t))
  /-- The character has no more bytes than the escape. -/
  room : (Utf8.encodeChar c).length ≤ esc.length

private theorem length_encodeChar_le (c : Char) : (Utf8.encodeChar c).length ≤ 4 := by
  unfold Utf8.encodeChar
  dsimp only
  repeat' split
  all_goals simp

private theorem lt_of_escaped? {b e : UInt8} (h : escaped? b = some e) :
    b.toNat < 0x80 ∧ e.toNat < 0x80 := by
  unfold escaped? at h
  repeat' split at h
  all_goals
    first
      | next hb =>
        cases h
        subst hb
        decide
      | cases h

private theorem lt_of_hexDigit? {b : UInt8} {n : Nat} (h : hexDigit? b = some n) :
    b.toNat < 0x80 ∧ n < 16 := by
  unfold hexDigit? at h
  dsimp only at h
  repeat' split at h
  all_goals
    first
      | cases h
        omega
      | cases h

private theorem lt_of_hexFour? {a b c d : UInt8} {n : Nat} (h : hexFour? a b c d = some n) :
    (∀ x ∈ [a, b, c, d], x.toNat < 0x80) ∧ n < 0x10000 := by
  unfold hexFour? at h
  split at h
  · next ha hb hc hd =>
    cases h
    have := lt_of_hexDigit? ha
    have := lt_of_hexDigit? hb
    have := lt_of_hexDigit? hc
    have := lt_of_hexDigit? hd
    refine ⟨?_, by omega⟩
    simp only [List.forall_mem_cons]
    exact ⟨by omega, by omega, by omega, by omega, by simp⟩
  · cases h

private theorem escapeSpelling_of_escaped? {b e : UInt8} (h : escaped? b = some e) :
    EscapeSpelling (Char.ofNat e.toNat) [b] ∧ Utf8.encodeChar (Char.ofNat e.toNat) = [e] := by
  obtain ⟨hb, he⟩ := lt_of_escaped? h
  have encoded := Utf8.encodeChar_ofNat he
  refine ⟨⟨?_, ?_, ?_, ?_⟩, encoded⟩
  · intro rest
    simp [readEscape, h, encoded]
  · simpa using hb
  · intro t ht
    exact .escape (by rw [h]; rfl) ht
  · rw [encoded]
    exact Nat.le_refl _

private theorem readHex_cons {a b c d : UInt8} {n : Nat} (h : hexFour? a b c d = some n)
    (rest : Bytes) : readHex (a :: b :: c :: d :: rest) = .ok (n, rest) := by
  rw [readHex, h]

private theorem readEscape_unicode (rest : Bytes) : readEscape (ascii 'u' :: rest) =
    (readCodePoint rest).map fun r ↦
      ⟨Utf8.encodeChar r.1, if r.1.toNat < 0x10000 then 5 else 11⟩ := by
  have hu : escaped? (ascii 'u') = none := by decide
  rw [readEscape, hu]
  cases readCodePoint rest <;> rfl

private theorem escapeSpelling_unicode {a b c d : UInt8} {n : Nat} (h : hexFour? a b c d = some n)
    (hl : ¬(0xDC00 ≤ n ∧ n ≤ 0xDFFF)) (hh : ¬(0xD800 ≤ n ∧ n ≤ 0xDBFF)) :
    EscapeSpelling (Char.ofNat n) [ascii 'u', a, b, c, d] := by
  obtain ⟨plain, hn⟩ := lt_of_hexFour? h
  have number : (Char.ofNat n).toNat = n := Utf8.toNat_charOfNat (by omega)
  constructor
  · intro rest
    have read : readCodePoint (a :: b :: c :: d :: rest) = .ok (Char.ofNat n, rest) := by
      simp only [readCodePoint, readHex_cons h, bind, Except.bind]
      rw [if_neg hl, if_neg hh]
    simp only [List.cons_append, List.nil_append]
    rw [readEscape_unicode, read]
    simp [Except.map, number, hn]
  · exact List.forall_mem_cons.mpr ⟨by decide, plain⟩
  · intro t ht
    exact .unicode (by rw [h]; rfl) ht
  · exact Nat.le_trans (length_encodeChar_le _) (by simp)

private theorem escapeSpelling_pair {a b c d a' b' c' d' : UInt8} {high low : Nat}
    (h : hexFour? a b c d = some high) (h' : hexFour? a' b' c' d' = some low)
    (hh : 0xD800 ≤ high ∧ high ≤ 0xDBFF) (hl : ¬(low < 0xDC00 ∨ 0xDFFF < low)) :
    EscapeSpelling (Char.ofNat (0x10000 + (high - 0xD800) * 0x400 + (low - 0xDC00)))
      [ascii 'u', a, b, c, d, ascii '\\', ascii 'u', a', b', c', d'] := by
  obtain ⟨plain, -⟩ := lt_of_hexFour? h
  obtain ⟨plain', -⟩ := lt_of_hexFour? h'
  have number := Utf8.toNat_charOfNat (n := 0x10000 + (high - 0xD800) * 0x400 + (low - 0xDC00))
    (by omega)
  have above : ¬0x10000 + (high - 0xD800) * 0x400 + (low - 0xDC00) < 0x10000 := by omega
  have alone : ¬(0xDC00 ≤ high ∧ high ≤ 0xDFFF) := by omega
  constructor
  · intro rest
    have read : readCodePoint
        (a :: b :: c :: d :: ascii '\\' :: ascii 'u' :: a' :: b' :: c' :: d' :: rest) =
          .ok (Char.ofNat (0x10000 + (high - 0xD800) * 0x400 + (low - 0xDC00)), rest) := by
      simp only [readCodePoint, readHex_cons h, bind, Except.bind]
      rw [if_neg alone, if_pos hh]
      simp only [readLowSurrogate, readHex_cons h', bind, Except.bind]
      rw [if_neg (by simp), if_neg (by simp), if_neg hl]
    simp only [List.cons_append, List.nil_append]
    rw [readEscape_unicode, read]
    simp only [Except.map, number, if_neg above]
    rfl
  · simp only [List.forall_mem_cons] at plain plain' ⊢
    obtain ⟨ha, hb, hc, hd, -⟩ := plain
    exact ⟨by decide, ha, hb, hc, hd, by decide, by decide, plain'⟩
  · intro t ht
    exact .unicode (by rw [h]; rfl) (.unicode (by rw [h']; rfl) ht)
  · exact Nat.le_trans (length_encodeChar_le _) (by simp)

private theorem exists_of_readCodePoint {bs rest : Bytes} {c : Char}
    (h : readCodePoint bs = .ok (c, rest)) : ∃ esc, bs = esc ++ rest ∧
      EscapeSpelling c (ascii 'u' :: esc) := by
  obtain ⟨⟨high, after⟩, hr, hn⟩ := eq_ok_of_bind_eq_ok h
  obtain ⟨x, y, z, w, rfl, hx⟩ := eq_cons_of_readHex hr
  dsimp only at hn
  split at hn
  · cases hn
  next hl =>
  split at hn
  · next hh =>
    unfold readLowSurrogate at hn
    split at hn
    · cases hn
    split at hn
    · cases hn
    next hb =>
    split at hn
    · cases hn
    split at hn
    · cases hn
    next hu =>
    obtain ⟨⟨low, after⟩, hr', hm⟩ := eq_ok_of_bind_eq_ok hn
    obtain ⟨x', y', z', w', rfl, hx'⟩ := eq_cons_of_readHex hr'
    dsimp only at hm
    split at hm
    · cases hm
    next hl =>
    obtain ⟨rfl, rfl⟩ := Prod.mk.inj (Except.ok.inj hm)
    rw [Classical.not_not] at hb hu
    rw [hb, hu]
    exact ⟨[x, y, z, w, ascii '\\', ascii 'u', x', y', z', w'], rfl,
      escapeSpelling_pair hx hx' hh hl⟩
  · next hh =>
    cases hn
    exact ⟨[x, y, z, w], rfl, escapeSpelling_unicode hx hl hh⟩

private theorem exists_of_readEscape {bs : Bytes} {e : Escape} (h : readEscape bs = .ok e) :
    ∃ c esc, EscapeSpelling c esc ∧ e = ⟨Utf8.encodeChar c, esc.length⟩ ∧
      ∃ rest, bs = esc ++ rest := by
  have answer := h
  cases bs with
  | nil => cases h
  | cons b bs =>
    rw [readEscape] at h
    split at h
    · next x hx =>
      obtain ⟨spelling, encoded⟩ := escapeSpelling_of_escaped? hx
      cases h
      exact ⟨_, [b], spelling, by rw [encoded]; rfl, bs, rfl⟩
    split at h
    · next hu =>
      subst hu
      obtain ⟨⟨c, rest⟩, hp, -⟩ := eq_ok_of_bind_eq_ok h
      obtain ⟨esc, rfl, spelling⟩ := exists_of_readCodePoint hp
      exact ⟨c, _, spelling, Except.ok.inj (answer.symm.trans (spelling.reads rest)), rest, rfl⟩
    · cases h

/-! ## Strings -/

/-- The characters of a string, with the closing quote, and the bytes that they stand for. -/
inductive StringSpelling : Bytes → Bytes → Prop where
  /-- The closing quote. -/
  | close : StringSpelling [] [ascii '"']
  /-- A byte that stands for itself. -/
  | plain {b : UInt8} {content t : Bytes} (hq : b ≠ ascii '"') (hb : b ≠ ascii '\\')
    (hc : ¬b.toNat < 0x20) (h : StringSpelling content t) :
    StringSpelling (b :: content) (b :: t)
  /-- An escape. -/
  | escape {c : Char} {esc content t : Bytes} (he : EscapeSpelling c esc)
    (h : StringSpelling content t) :
    StringSpelling (Utf8.encodeChar c ++ content) (ascii '\\' :: (esc ++ t))

private theorem readContent_skip (done esc rest : Bytes) :
    readContent done esc.length (esc ++ rest) = readContent done 0 rest := by
  induction esc with
  | nil => rfl
  | cons b esc ih => exact ih

namespace StringSpelling

variable {content t : Bytes}

private theorem readContent (h : StringSpelling content t) (done rest : Bytes) :
    readContent done 0 (t ++ rest) = .ok (done.reverse ++ content, rest) := by
  have hq : ascii '\\' ≠ ascii '"' := by decide
  induction h generalizing done with
  | close => rw [List.append_nil]; rfl
  | @plain b _ _ hq hb hc _ ih =>
    rw [List.cons_append, Json.readContent, if_neg hq, if_neg hb, if_neg hc, ih]
    simp
  | @escape c esc _ t he _ ih =>
    rw [List.cons_append, List.append_assoc, Json.readContent, if_neg hq, if_pos rfl,
      he.reads (t ++ rest)]
    dsimp only
    rw [readContent_skip, ih]
    simp

private theorem stringText (h : StringSpelling content t) : StringText t := by
  induction h with
  | close => exact .close
  | plain hq hb hc _ ih => exact .plain hq hb hc ih
  | escape he _ ih => exact he.string _ ih

private theorem isText_append (h : StringSpelling content t) (front : Bytes)
    (ht : Utf8.IsText (front ++ content)) : Utf8.IsText (front ++ t) := by
  have quote : Utf8.IsText [ascii '"'] := Utf8.isText_nil.cons (by decide)
  -- A byte that stands for itself may stand inside a character: it joins those in front.
  induction h generalizing front with
  | close =>
    rw [List.append_nil] at ht
    exact ht.append quote
  | @plain b content t _ _ _ _ ih =>
    have joined := ih (front ++ [b]) (by simpa using ht)
    simpa using joined
  | @escape c esc content t he _ ih =>
    obtain ⟨a, tail, hc, ha, -⟩ := Utf8.encodeChar_eq_cons c
    have cut := ht
    rw [hc, List.cons_append] at cut
    obtain ⟨hf, hr⟩ := cut.cut ha
    rw [← List.cons_append, ← hc] at hr
    have escape : Utf8.IsText (ascii '\\' :: esc) :=
      (Utf8.isText_of_ascii he.plain).cons (by decide)
    have behind := ih [] hr.of_encodeChar_append
    exact hf.append (escape.append behind)

private theorem length_lt (h : StringSpelling content t) : content.length < t.length := by
  induction h with
  | close => decide
  | plain _ _ _ _ ih => simpa using ih
  | escape he _ ih =>
    have room := he.room
    simp only [List.length_append, List.length_cons]
    omega

end StringSpelling

private theorem exists_of_readContent {done bs content left : Bytes} {skip : Nat}
    (h : readContent done skip bs = .ok (content, left)) :
    ∃ new t, StringSpelling new t ∧ content = done.reverse ++ new ∧ bs.drop skip = t ++ left := by
  induction bs generalizing done skip with
  | nil => cases skip <;> cases h
  | cons b bs ih =>
    cases skip with
    | succ skip => exact ih h
    | zero =>
      rw [readContent] at h
      split at h
      · next hq =>
        cases h
        exact ⟨[], _, .close, by simp, by rw [hq]; rfl⟩
      split at h
      · next hq hb =>
        split at h
        · cases h
        next e he =>
        obtain ⟨new, t, ht, hn, hd⟩ := ih h
        obtain ⟨c, esc, spelling, rfl, rest, rfl⟩ := exists_of_readEscape he
        refine ⟨_, _, .escape spelling ht, by rw [hn]; simp, ?_⟩
        rw [List.drop_left] at hd
        rw [List.drop_zero, hb, hd]
        simp
      split at h
      · cases h
      · next hq hb hc =>
        obtain ⟨new, t, ht, hn, hd⟩ := ih h
        rw [List.drop_zero] at hd ⊢
        exact ⟨_, _, .plain hq hb hc ht, by rw [hn]; simp, by rw [hd]; rfl⟩

/-- A text is shorter than what it was read from. -/
theorem length_lt_of_readString {bs left : Bytes} {s : String}
    (h : readString bs = .ok (s, left)) :
    (Utf8.encode s).length + left.length < bs.length := by
  obtain ⟨⟨content, rest⟩, hr, h⟩ := eq_ok_of_bind_eq_ok h
  dsimp only at h
  split at h
  · next s' hd =>
    cases h
    obtain ⟨new, t, ht, rfl, hx⟩ := exists_of_readContent hr
    have shorter := ht.length_lt
    rw [Utf8.decode_eq_ok_iff.mp hd] at shorter
    rw [List.drop_zero] at hx
    rw [hx, List.length_append]
    omega
  · cases h

/-- A string that was read is spelled in front. -/
theorem spelled_of_readString {bs left : Bytes} {s : String}
    (h : readString bs = .ok (s, left)) : Spelled readString (Plain StringText) s bs left := by
  obtain ⟨⟨content, rest⟩, hr, h⟩ := eq_ok_of_bind_eq_ok h
  dsimp only at h
  split at h
  · next s' hd =>
    cases h
    obtain ⟨new, t, ht, rfl, hx⟩ := exists_of_readContent hr
    have text := ht.isText_append [] (Utf8.isText_iff.mpr ⟨s, hd⟩)
    refine ⟨t, ⟨ht.stringText, text⟩, hx, ?_⟩
    intro rest _
    have read := ht.readContent [] rest
    rw [List.reverse_nil, List.nil_append] at read
    simp only [readString, read, bind, Except.bind, hd]
  · cases h

/-! ## Exponents -/

section
variable {negative : Bool} {significand : Nat} {start : Int} {n : Number} {bs left : Bytes}

private theorem doubleOf_eq_ok (h : doubleOf negative significand start bs = .ok (n, left)) :
    bs = left ∧ ∀ rest, doubleOf negative significand start rest = .ok (n, rest) := by
  simp only [doubleOf] at h ⊢
  split at h
  · cases h
    exact ⟨rfl, fun rest ↦ rfl⟩
  · cases h

private theorem readExponentDigits_of_ends (below : Bool) (exponent : Nat) {rest : Bytes}
    (hr : EndsNumber rest) : readExponentDigits negative significand start below exponent rest =
      doubleOf negative significand (start + signedExponent below exponent) rest := by
  cases rest with
  | nil => rfl
  | cons b after =>
    have hb : digit? b = none := by simpa [isDigit] using (hr b after rfl).1
    rw [readExponentDigits, hb]

private theorem spelled_of_readExponentDigits {below : Bool} {exponent : Nat}
    (h : readExponentDigits negative significand start below exponent bs = .ok (n, left)) :
    Spelled (readExponentDigits negative significand start below exponent) AllDigits n bs left := by
  have stop {exponent : Nat} {bs : Bytes} (h : doubleOf negative significand
      (start + signedExponent below exponent) bs = .ok (n, left)) :
      Spelled (readExponentDigits negative significand start below exponent) AllDigits n bs
        left := by
    obtain ⟨rfl, made⟩ := doubleOf_eq_ok h
    refine ⟨[], by simp [AllDigits], rfl, ?_⟩
    intro rest hr
    rw [List.nil_append, readExponentDigits_of_ends below exponent hr, made]
  induction bs generalizing exponent with
  | nil => exact stop h
  | cons b bs ih =>
    rw [readExponentDigits] at h
    split at h
    · next d hd =>
      have digit : isDigit b = true := by rw [isDigit, hd]; rfl
      split at h
      · next room =>
        obtain ⟨t, ht, rfl, read⟩ := ih h
        refine ⟨b :: t, List.forall_mem_cons.mpr ⟨digit, ht⟩, rfl, ?_⟩
        intro rest hr
        rw [List.cons_append, readExponentDigits, hd]
        dsimp only
        rw [if_pos room, read rest hr]
      split at h
      · cases h
      · next room far =>
        cases h
        obtain ⟨ds, hds, hx⟩ := exists_digits_append bs
        refine ⟨b :: ds, List.forall_mem_cons.mpr ⟨digit, hds⟩, by rw [List.cons_append, ← hx], ?_⟩
        intro rest hr
        rw [List.cons_append, readExponentDigits, hd]
        dsimp only
        rw [if_neg room, if_neg far, hds.skipDigits_append hr.skipDigits_eq]
    · exact stop h

/-- Reads the digits of an exponent behind its sign. -/
private def readUnsignedExponent (negative : Bool) (significand : Nat) (start : Int)
    (below : Bool) : Reader Number
  | [] => .error (.behind .endInValue [])
  | b :: rest =>
    match digit? b with
    | some d => readExponentDigits negative significand start below d rest
    | none => .error (.behind .badNumber rest)

private theorem readExponent_signed {b : UInt8} (hb : b = ascii '+' ∨ b = ascii '-')
    (bs : Bytes) : readExponent negative significand start (b :: bs) =
      readUnsignedExponent negative significand start (decide (b = ascii '-')) bs := by
  rcases hb with rfl | rfl <;> rfl

private theorem readExponent_unsigned {b : UInt8} (hb : ¬(b = ascii '+' ∨ b = ascii '-'))
    (bs : Bytes) : readExponent negative significand start (b :: bs) =
      readUnsignedExponent negative significand start false (b :: bs) := by
  rw [not_or] at hb
  simp only [readExponent, if_neg hb.1, if_neg hb.2]
  rfl

private theorem spelled_of_readUnsignedExponent {below : Bool}
    (h : readUnsignedExponent negative significand start below bs = .ok (n, left)) :
    Spelled (readUnsignedExponent negative significand start below)
      (fun t ↦ AllDigits t ∧ t ≠ []) n bs left := by
  cases bs with
  | nil => cases h
  | cons b bs =>
    rw [readUnsignedExponent] at h
    split at h
    · next d hd =>
      have digit : isDigit b = true := by rw [isDigit, hd]; rfl
      obtain ⟨t, ht, rfl, read⟩ := spelled_of_readExponentDigits h
      refine ⟨b :: t, ⟨List.forall_mem_cons.mpr ⟨digit, ht⟩, by simp⟩, rfl, ?_⟩
      intro rest hr
      rw [List.cons_append, readUnsignedExponent, hd]
      exact read rest hr
    · cases h

private theorem spelled_of_readExponent
    (h : readExponent negative significand start bs = .ok (n, left)) :
    Spelled (readExponent negative significand start)
      (fun t ↦ ∀ e, isExponentSign e = true → ScaleText (e :: t)) n bs left := by
  cases bs with
  | nil => cases h
  | cons b bs =>
    by_cases hb : b = ascii '+' ∨ b = ascii '-'
    · rw [readExponent_signed hb] at h
      obtain ⟨t, ⟨hd, hs⟩, rfl, read⟩ := spelled_of_readUnsignedExponent h
      refine ⟨b :: t, fun e he ↦ .signed he hb hd hs, rfl, ?_⟩
      intro rest hr
      rw [List.cons_append, readExponent_signed hb, read rest hr]
    · rw [readExponent_unsigned hb] at h
      obtain ⟨t, ⟨hd, hs⟩, he, read⟩ := spelled_of_readUnsignedExponent h
      refine ⟨t, fun e he ↦ .unsigned he hd hs, he, ?_⟩
      intro rest hr
      cases t with
      | nil => exact absurd rfl hs
      | cons c t =>
        rw [← read rest hr, List.cons_append,
          readExponent_unsigned (not_sign_of_isDigit (hd c List.mem_cons_self))]

/-! ## Fractions -/

private theorem readScale_of_ends {rest : Bytes} (hr : EndsNumber rest) :
    readScale negative significand start rest = doubleOf negative significand start rest := by
  cases rest with
  | nil => rfl
  | cons b after => simp [readScale, (hr b after rfl).2.2]

private theorem spelled_of_readScale
    (h : readScale negative significand start bs = .ok (n, left)) :
    Spelled (readScale negative significand start) ScaleText n bs left := by
  have stop {bs : Bytes} (h : doubleOf negative significand start bs = .ok (n, left)) :
      Spelled (readScale negative significand start) ScaleText n bs left := by
    obtain ⟨rfl, made⟩ := doubleOf_eq_ok h
    refine ⟨[], .none, rfl, ?_⟩
    intro rest hr
    rw [List.nil_append, readScale_of_ends hr, made]
  cases bs with
  | nil => exact stop h
  | cons b bs =>
    rw [readScale] at h
    split at h
    · next hb =>
      obtain ⟨t, ht, rfl, read⟩ := spelled_of_readExponent h
      refine ⟨b :: t, ht b hb, rfl, ?_⟩
      intro rest hr
      rw [List.cons_append, readScale, if_pos hb, read rest hr]
    · exact stop h

private theorem readSignificand_append {ds : Bytes} (hd : AllDigits ds) (significand count : Nat) :
    ∃ significand' count' ds', AllDigits ds' ∧ ∀ rest, skipDigits rest = rest →
      readSignificand significand count (ds ++ rest) = (significand', count', ds' ++ rest) := by
  induction ds generalizing significand count with
  | nil =>
    refine ⟨significand, count, [], hd, ?_⟩
    intro rest hr
    cases rest with
    | nil => rfl
    | cons b after =>
      have hb : digit? b = none := by simpa [isDigit] using isDigit_of_skipDigits hr
      simp [readSignificand, hb]
  | cons b ds ih =>
    obtain ⟨hb, hds⟩ := List.forall_mem_cons.mp hd
    obtain ⟨d, hb⟩ := Option.isSome_iff_exists.mp hb
    by_cases room : significand * 10 + d < significandBound
    · obtain ⟨s, c, ds', hd', read⟩ := ih hds (significand * 10 + d) (count + 1)
      refine ⟨s, c, ds', hd', ?_⟩
      intro rest hr
      rw [List.cons_append, readSignificand, hb]
      dsimp only
      rw [if_pos room, read rest hr]
    · refine ⟨significand, count, b :: ds, hd, ?_⟩
      intro rest _
      rw [List.cons_append, readSignificand, hb]
      dsimp only
      rw [if_neg room]

/-- The digits of a fraction, with its exponent. -/
private def FractionDigits (t : Bytes) : Prop :=
  ∃ ds e, AllDigits ds ∧ ds ≠ [] ∧ ScaleText e ∧ t = ds ++ e

private theorem skipDigits_scale {e : Bytes} (he : ScaleText e) {rest : Bytes}
    (hr : EndsNumber rest) : skipDigits (e ++ rest) = e ++ rest :=
  skipDigits_eq_of_head fun _ _ hb ↦ (he.head hr hb).1

private theorem spelled_of_readFraction
    (h : readFraction negative significand start bs = .ok (n, left)) :
    Spelled (readFraction negative significand start) FractionDigits n bs left := by
  obtain ⟨ds, hd, hx⟩ := exists_digits_append bs
  obtain ⟨s, c, ds', hd', digits⟩ := readSignificand_append hd significand 0
  -- Only the first byte is looked at before the digits are read.
  have forward {rest : Bytes} (hr : skipDigits rest = rest) (hs : ds ≠ []) :
      readFraction negative significand start (ds ++ rest) =
        readScale negative s (start - c) rest := by
    cases ds with
    | nil => exact absurd rfl hs
    | cons b ds =>
      have read := digits rest hr
      rw [List.cons_append] at read ⊢
      rw [readFraction, if_pos (hd b List.mem_cons_self), read]
      dsimp only
      rw [hd'.skipDigits_append hr]
  have some : ds ≠ [] := by
    rintro rfl
    rw [List.nil_append] at hx
    cases bs with
    | nil => cases h
    | cons b after => simp [readFraction, isDigit_of_skipDigits hx.symm] at h
  rw [hx, forward (skipDigits_skipDigits bs) some] at h
  obtain ⟨e, he, hleft, read⟩ := spelled_of_readScale h
  refine ⟨ds ++ e, ⟨ds, e, hd, some, he, rfl⟩, by rw [List.append_assoc, ← hleft, ← hx], ?_⟩
  intro rest hr
  rw [List.append_assoc, forward (skipDigits_scale he hr) some, read rest hr]

/-! ## Numerals -/

private theorem wholeNumber_eq_ok (h : wholeNumber negative significand bs = .ok (n, left)) :
    bs = left ∧ ∀ rest, wholeNumber negative significand rest = .ok (n, rest) := by
  unfold wholeNumber at h ⊢
  dsimp only at h ⊢
  split at h
  · cases h
    exact ⟨rfl, fun rest ↦ rfl⟩
  · exact doubleOf_eq_ok h

/-- Reads the end of a whole number, behind some integer digits that did not fit into it. -/
private def endWhole (negative : Bool) (significand extra : Nat) (bs : Bytes) :
    Except Fault (Number × Bytes) :=
  if extra = 0 then wholeNumber negative significand bs else doubleOf negative significand extra bs

private theorem endWhole_eq_ok {extra : Nat}
    (h : endWhole negative significand extra bs = .ok (n, left)) :
    bs = left ∧ ∀ rest, endWhole negative significand extra rest = .ok (n, rest) := by
  by_cases he : extra = 0
  · simp only [endWhole, if_pos he] at h ⊢
    exact wholeNumber_eq_ok h
  · simp only [endWhole, if_neg he] at h ⊢
    exact doubleOf_eq_ok h

private theorem readTail_digits {ds : Bytes} (hd : AllDigits ds) {rest : Bytes}
    (hr : skipDigits rest = rest) :
    (EndsNumber rest → readTail negative significand (ds ++ rest) =
      endWhole negative significand ds.length rest) ∧
    ∀ b after, rest = b :: after → readTail negative significand (ds ++ rest) =
      if b = ascii '.' then readFraction negative significand ds.length after
      else if isExponentSign b then readExponent negative significand ds.length after
      else endWhole negative significand ds.length rest := by
  have taken : (ds ++ rest).takeWhile isDigit = ds := by
    have none : rest.takeWhile isDigit = [] := by
      cases rest with
      | nil => rfl
      | cons b after => simp [isDigit_of_skipDigits hr]
    rw [List.takeWhile_append_of_pos hd, none, List.append_nil]
  have behind : ∀ b after, rest = b :: after → readTail negative significand (ds ++ rest) =
      if b = ascii '.' then readFraction negative significand ds.length after
      else if isExponentSign b then readExponent negative significand ds.length after
      else endWhole negative significand ds.length rest := by
    rintro b after rfl
    unfold readTail
    rw [hd.skipDigits_append hr, taken]
    rfl
  refine ⟨?_, behind⟩
  intro ends
  cases rest with
  | nil =>
    unfold readTail
    rw [hd.skipDigits_append hr, taken]
    rfl
  | cons b after =>
    obtain ⟨-, hp, he⟩ := ends b after rfl
    rw [behind b after rfl, if_neg hp, if_neg (by simp [he])]

/-- What follows the integer digits of a numeral. -/
private def TailText (t : Bytes) : Prop := ∃ f e, FractionText f ∧ ScaleText e ∧ t = f ++ e

private theorem TailText.skipDigits_eq {t : Bytes} (h : TailText t) {rest : Bytes}
    (hr : EndsNumber rest) : skipDigits (t ++ rest) = t ++ rest := by
  obtain ⟨f, e, hf, he, rfl⟩ := h
  rw [List.append_assoc]
  exact skipDigits_eq_of_head fun _ _ hb ↦ hf.head he hr hb

private theorem spelled_of_readTail {ds : Bytes} (hd : AllDigits ds)
    (hb : skipDigits bs = bs) (h : readTail negative significand (ds ++ bs) = .ok (n, left)) :
    Spelled (fun bs ↦ readTail negative significand (ds ++ bs)) TailText n bs left := by
  have stop (h : endWhole negative significand ds.length bs = .ok (n, left)) :
      Spelled (fun bs ↦ readTail negative significand (ds ++ bs)) TailText n bs left := by
    obtain ⟨hl, made⟩ := endWhole_eq_ok h
    refine ⟨[], ⟨[], [], .none, .none, rfl⟩, hl, ?_⟩
    intro rest hr
    exact ((readTail_digits hd hr.skipDigits_eq).1 hr).trans (made rest)
  cases bs with
  | nil => exact stop ((readTail_digits hd rfl).1 endsNumber_nil ▸ h)
  | cons b after =>
    rw [(readTail_digits hd hb).2 b after rfl] at h
    split at h
    · next hp =>
      obtain ⟨_, ⟨fs, e, hf, hs, he, rfl⟩, rfl, read⟩ := spelled_of_readFraction h
      have tail : TailText (b :: (fs ++ e)) := ⟨_, e, .some hf hs, he, by rw [hp]; rfl⟩
      refine ⟨_, tail, rfl, ?_⟩
      intro rest hr
      dsimp only
      rw [(readTail_digits hd (tail.skipDigits_eq hr)).2 _ _ rfl, if_pos hp]
      exact read rest hr
    split at h
    · next hp he =>
      obtain ⟨t, ht, rfl, read⟩ := spelled_of_readExponent h
      have tail : TailText (b :: t) := ⟨[], _, .none, ht b he, rfl⟩
      refine ⟨_, tail, rfl, ?_⟩
      intro rest hr
      dsimp only
      rw [(readTail_digits hd (tail.skipDigits_eq hr)).2 _ _ rfl, if_neg hp, if_pos he]
      exact read rest hr
    · exact stop h

private theorem eq_zero_of_digit? {b : UInt8} (h : digit? b = some 0) : b = ascii '0' := by
  unfold digit? at h
  split at h
  · have hb := Option.some.inj h
    have hz : (ascii '0').toNat = 0x30 := by decide
    exact UInt8.toNat_inj.mp (by omega)
  · cases h

private theorem skipDigits_of_readNumber_zero
    (h : readNumber negative (ascii '0' :: bs) = .ok (n, left)) : skipDigits bs = bs := by
  have hz : digit? (ascii '0') = some 0 := by decide
  apply skipDigits_eq_of_head
  rintro c after rfl
  cases hc : isDigit c with
  | false => rfl
  | true =>
    simp only [readNumber, hz, hc, if_true] at h
    cases h

private theorem spelled_of_readNumber (h : readNumber negative bs = .ok (n, left)) :
    Spelled (readNumber negative) NumeralText n bs left := by
  cases bs with
  | nil => cases h
  | cons b bs =>
    cases hd : digit? b with
    | none =>
      simp only [readNumber, hd] at h
      cases h
    | some d =>
      cases d with
      | zero =>
        obtain rfl := eq_zero_of_digit? hd
        have zero {rest : Bytes} (hr : skipDigits rest = rest) :
            readNumber negative (ascii '0' :: rest) = readTail negative 0 ([] ++ rest) :=
          readNumber_zero negative fun b after he ↦ isDigit_of_skipDigits (he ▸ hr)
        have ends := skipDigits_of_readNumber_zero h
        rw [zero ends] at h
        obtain ⟨t, tail, rfl, read⟩ := spelled_of_readTail (by simp [AllDigits]) ends h
        have tail' := tail
        obtain ⟨f, e, hf, he, rfl⟩ := tail'
        refine ⟨_, .intro .zero hf he, rfl, ?_⟩
        intro rest hr
        exact (zero (tail.skipDigits_eq hr)).trans (read rest hr)
      | succ d =>
        obtain ⟨ds, hds, hx⟩ := exists_digits_append bs
        obtain ⟨s, c, ds', hds', digits⟩ := readSignificand_append hds (d + 1) 1
        have whole {rest : Bytes} (hr : skipDigits rest = rest) :
            readNumber negative (b :: (ds ++ rest)) = readTail negative s (ds' ++ rest) := by
          rw [readNumber_of_pos negative hd (Nat.succ_ne_zero d), digits rest hr]
        rw [hx, whole (skipDigits_skipDigits bs)] at h
        obtain ⟨t, tail, ht, read⟩ := spelled_of_readTail hds' (skipDigits_skipDigits bs) h
        have tail' := tail
        obtain ⟨f, e, hf, he, rfl⟩ := tail'
        have digit : isDigit b = true := by rw [isDigit, hd]; rfl
        have nonzero : b ≠ ascii '0' := by
          rintro rfl
          cases hd
        refine ⟨_, .intro (.digits digit nonzero hds) hf he, by rw [hx, ht]; simp, ?_⟩
        intro rest hr
        have read := (whole (tail.skipDigits_eq hr)).trans (read rest hr)
        simpa using read

end

/-! ## Values without parts -/

private theorem lt_of_isDigit {b : UInt8} (h : isDigit b = true) : b.toNat < 0x80 := by
  unfold isDigit digit? at h
  split at h
  · omega
  · cases h

private theorem NumeralText.lt {t : Bytes} (h : NumeralText t) : ∀ b ∈ t, b.toNat < 0x80 := by
  have digits {ds : Bytes} (hd : AllDigits ds) : ∀ b ∈ ds, b.toNat < 0x80 :=
    fun b hb ↦ lt_of_isDigit (hd b hb)
  have letter {e : UInt8} (he : isExponentSign e = true) : e.toNat < 0x80 := by
    simp only [isExponentSign, Bool.or_eq_true, decide_eq_true_eq] at he
    rcases he with rfl | rfl <;> decide
  cases h with
  | @intro w f e hw hf he =>
    have whole : ∀ b ∈ w, b.toNat < 0x80 := by
      cases hw with
      | zero => exact List.forall_mem_cons.mpr ⟨by decide, by simp⟩
      | digits hb _ hd => exact List.forall_mem_cons.mpr ⟨lt_of_isDigit hb, digits hd⟩
    have fraction : ∀ b ∈ f, b.toNat < 0x80 := by
      cases hf with
      | none => simp
      | some hd => exact List.forall_mem_cons.mpr ⟨by decide, digits hd⟩
    have scale : ∀ b ∈ e, b.toNat < 0x80 := by
      cases he with
      | none => simp
      | unsigned he hd => exact List.forall_mem_cons.mpr ⟨letter he, digits hd⟩
      | signed he hb hd =>
        refine List.forall_mem_cons.mpr ⟨letter he, List.forall_mem_cons.mpr ⟨?_, digits hd⟩⟩
        rcases hb with rfl | rfl <;> decide
    simp only [List.forall_mem_append]
    exact ⟨whole, fraction, scale⟩

/-- A numeral with or without a minus sign is a value in UTF-8. -/
theorem NumeralText.plain {t : Bytes} (h : NumeralText t) (negative : Bool) :
    Plain ScalarText (signed negative t) := by
  have text := Utf8.isText_of_ascii h.lt
  cases negative
  · exact ⟨.number h, text⟩
  · exact ⟨.negative h, text.cons (by decide)⟩

private theorem spelled_of_signed {negative : Bool} {bs left : Bytes} {v : Value}
    (h : (readNumber negative bs).map (fun r ↦ (Value.number r.1, r.2)) = .ok (v, left)) :
    Spelled readScalar (Plain ScalarText) v (signed negative bs) left := by
  obtain ⟨⟨n, rest⟩, hr, he⟩ := eq_ok_of_map_eq_ok h
  obtain ⟨rfl, rfl⟩ := Prod.mk.inj he
  obtain ⟨t, ht, rfl, read⟩ := spelled_of_readNumber hr
  refine ⟨_, ht.plain negative, by cases negative <;> rfl, ?_⟩
  intro rest hr
  rw [readScalar_signed negative ht.startsDigit, read rest hr]
  rfl

/-- A value without parts that was read is spelled in front. -/
theorem spelled_of_readScalar {bs left : Bytes} {v : Value}
    (h : readScalar bs = .ok (v, left)) : Spelled readScalar (Plain ScalarText) v bs left := by
  have word {w : List Char} {c : Char} {x : Value} {rest : Bytes}
      (h : (readWord w rest).map (x, ·) = .ok (v, left)) :
      x = v ∧ ascii c :: rest = asciiBytes (c :: w) ++ left := by
    obtain ⟨rest', hr, he⟩ := eq_ok_of_map_eq_ok h
    obtain ⟨rfl, rfl⟩ := Prod.mk.inj he
    exact ⟨rfl, by rw [eq_append_of_readWord hr]; rfl⟩
  cases bs with
  | nil => cases h
  | cons b bs =>
    rw [readScalar] at h
    split at h
    · next hb =>
      obtain ⟨rfl, hx⟩ := word (c := 'n') h
      exact ⟨_, ⟨.null, Utf8.isText_of_ascii (by simp [asciiBytes])⟩, by rw [hb, hx],
        fun rest _ ↦ rfl⟩
    split at h
    · next hb =>
      obtain ⟨rfl, hx⟩ := word (c := 't') h
      exact ⟨_, ⟨.yes, Utf8.isText_of_ascii (by simp [asciiBytes])⟩, by rw [hb, hx],
        fun rest _ ↦ rfl⟩
    split at h
    · next hb =>
      obtain ⟨rfl, hx⟩ := word (c := 'f') h
      exact ⟨_, ⟨.no, Utf8.isText_of_ascii (by simp [asciiBytes])⟩, by rw [hb, hx],
        fun rest _ ↦ rfl⟩
    split at h
    · next hb =>
      obtain ⟨⟨s, rest⟩, hr, he⟩ := eq_ok_of_map_eq_ok h
      obtain ⟨rfl, rfl⟩ := Prod.mk.inj he
      obtain ⟨t, ht, rfl, read⟩ := spelled_of_readString hr
      refine ⟨_, ⟨.string ht.kind, ht.text.cons (by decide)⟩, by rw [hb]; rfl, ?_⟩
      intro rest hr
      have step : readScalar (ascii '"' :: (t ++ rest)) =
        (readString (t ++ rest)).map fun r ↦ (.string r.1, r.2) := rfl
      exact step.trans (by rw [read rest hr]; rfl)
    split at h
    · next hb =>
      subst hb
      exact spelled_of_signed h
    split at h
    · exact spelled_of_signed h
    · cases h

end SchemaDoc.Json
