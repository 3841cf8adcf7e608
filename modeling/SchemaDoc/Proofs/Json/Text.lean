import SchemaDoc.Json.Printer
import SchemaDoc.Json.Text
import SchemaDoc.Proofs.Text.Utf8

/-!
# Printed strings

A printed string is read back as the string. Its characters are read one at a time: each is
printed as a short escape, as a `\u` escape or as itself, and in every case the reader adds the
bytes of the character to its content. None of the three ways prints a control character.
-/

namespace SchemaDoc.Json

/-! ## Bytes of a character -/

private theorem plain_of_mem_encodeChar {c : Char} (hq : c ≠ '"') (hb : c ≠ '\\')
    (hc : ¬c.toNat < 0x20) {b : UInt8} (h : b ∈ Utf8.encodeChar c) :
    b ≠ ascii '"' ∧ b ≠ ascii '\\' ∧ ¬b.toNat < 0x20 := by
  by_cases hl : b.toNat < 0x80
  · obtain rfl := Utf8.eq_of_mem_encodeChar h hl
    rw [Utf8.toNat_charOfNat (.inl (by omega))] at hc
    refine ⟨?_, ?_, hc⟩
    · rintro rfl
      exact hq rfl
    · rintro rfl
      exact hb rfl
  · refine ⟨?_, ?_, by omega⟩
    · rintro rfl
      exact hl (by decide)
    · rintro rfl
      exact hl (by decide)

private theorem readContent_plain (done : Bytes) {bs : Bytes}
    (h : ∀ b ∈ bs, b ≠ ascii '"' ∧ b ≠ ascii '\\' ∧ ¬b.toNat < 0x20) (rest : Bytes) :
    readContent done 0 (bs ++ rest) = readContent (bs.reverse ++ done) 0 rest := by
  induction bs generalizing done with
  | nil => rfl
  | cons b bs ih =>
    obtain ⟨hq, hb, hc⟩ := h b List.mem_cons_self
    rw [List.cons_append, readContent, if_neg hq, if_neg hb, if_neg hc,
      ih _ fun c hc ↦ h c (List.mem_cons_of_mem _ hc)]
    simp

/-! ## Escapes -/

private theorem readContent_escape (done : Bytes) {tail rest : Bytes} {e : Escape}
    (h : readEscape (tail ++ rest) = .ok e) (hs : e.size = tail.length) :
    readContent done 0 (ascii '\\' :: (tail ++ rest)) =
      readContent (e.content.reverse ++ done) 0 rest := by
  have skip (done tail : Bytes) :
      readContent done tail.length (tail ++ rest) = readContent done 0 rest := by
    induction tail with
    | nil => rfl
    | cons b tail ih => rw [List.cons_append, List.length_cons, readContent, ih]
  have hq : ascii '\\' ≠ ascii '"' := by decide
  rw [readContent, if_neg hq, if_pos rfl, h]
  dsimp only
  rw [hs, skip]

private theorem escaped?_of_escapeLetter? {c letter : Char} (h : escapeLetter? c = some letter) :
    ∃ b, escaped? (ascii letter) = some b ∧ Utf8.encodeChar c = [b] := by
  have code {n : Nat} (hn : c.toNat = n) : c = Char.ofNat n := by rw [← hn, Char.ofNat_toNat]
  unfold escapeLetter? at h
  repeat' split at h
  · next hc => obtain rfl := Option.some.inj h; exact ⟨0x22, rfl, by rw [hc]; rfl⟩
  · next hc => obtain rfl := Option.some.inj h; exact ⟨0x5C, rfl, by rw [hc]; rfl⟩
  · next hc => obtain rfl := Option.some.inj h; exact ⟨0x08, rfl, by rw [code hc]; rfl⟩
  · next hc => obtain rfl := Option.some.inj h; exact ⟨0x0C, rfl, by rw [code hc]; rfl⟩
  · next hc => obtain rfl := Option.some.inj h; exact ⟨0x0A, rfl, by rw [hc]; rfl⟩
  · next hc => obtain rfl := Option.some.inj h; exact ⟨0x0D, rfl, by rw [hc]; rfl⟩
  · next hc => obtain rfl := Option.some.inj h; exact ⟨0x09, rfl, by rw [hc]; rfl⟩
  · cases h

private theorem ne_of_escapeLetter?_eq_none {c : Char} (h : escapeLetter? c = none) :
    c ≠ '"' ∧ c ≠ '\\' := by
  constructor <;>
  · rintro rfl
    cases h

private theorem hexDigit?_hexDigit {n : Nat} (h : n < 16) : hexDigit? (hexDigit n) = some n := by
  have all : ∀ n < 16, hexDigit? (hexDigit n) = some n := by decide
  exact all n h

private theorem readEscape_control {c : Char} (h : c.toNat < 0x20) (rest : Bytes) :
    readEscape ([ascii 'u', ascii '0', ascii '0', hexDigit (c.toNat / 16),
      hexDigit (c.toNat % 16)] ++ rest) = .ok ⟨Utf8.encodeChar c, 5⟩ := by
  have hz : hexDigit? (ascii '0') = some 0 := by decide
  have hu : escaped? (ascii 'u') = none := by decide
  have hn : ((0 * 16 + 0) * 16 + c.toNat / 16) * 16 + c.toNat % 16 = c.toNat := by omega
  have hx : readHex (ascii '0' :: ascii '0' :: hexDigit (c.toNat / 16) ::
      hexDigit (c.toNat % 16) :: rest) = .ok (c.toNat, rest) := by
    rw [readHex, hexFour?, hz, hexDigit?_hexDigit (by omega), hexDigit?_hexDigit (by omega)]
    simp only [hn]
  have hp : readCodePoint (ascii '0' :: ascii '0' :: hexDigit (c.toNat / 16) ::
      hexDigit (c.toNat % 16) :: rest) = .ok (c, rest) := by
    rw [readCodePoint, hx]
    simp only [bind, Except.bind]
    rw [if_neg (by omega), if_neg (by omega), Char.ofNat_toNat]
  simp only [List.cons_append, List.nil_append]
  rw [readEscape, hu]
  simp only [if_true, hp, bind, Except.bind]
  rw [if_pos (by omega)]

/-! ## Strings -/

private theorem readContent_printChar (done : Bytes) (c : Char) (rest : Bytes) :
    readContent done 0 (printChar c ++ rest) =
      readContent ((Utf8.encodeChar c).reverse ++ done) 0 rest := by
  unfold printChar
  split
  · next letter hl =>
    obtain ⟨b, hb, hc⟩ := escaped?_of_escapeLetter? hl
    have he : readEscape ([ascii letter] ++ rest) = .ok ⟨[b], 1⟩ := by
      rw [List.singleton_append, readEscape, hb]
    rw [hc]
    exact readContent_escape done he rfl
  · next hl =>
    split
    · next hc => exact readContent_escape done (readEscape_control hc rest) rfl
    · next hc =>
      obtain ⟨hq, hb⟩ := ne_of_escapeLetter?_eq_none hl
      exact readContent_plain done (fun b h ↦ plain_of_mem_encodeChar hq hb hc h) rest

private theorem readContent_printed (done : Bytes) (cs : List Char) (rest : Bytes) :
    readContent done 0 (cs.flatMap printChar ++ ascii '"' :: rest) =
      .ok (done.reverse ++ cs.flatMap Utf8.encodeChar, rest) := by
  induction cs generalizing done with
  | nil =>
    rw [List.flatMap_nil, List.nil_append, readContent, if_pos rfl]
    simp
  | cons c cs ih =>
    rw [List.flatMap_cons, List.append_assoc, readContent_printChar, ih]
    simp

/-- A printed string is read back behind its opening quote, and nothing behind its closing quote is
touched. -/
theorem readString_printed (s : String) (rest : Bytes) :
    readString (s.toList.flatMap printChar ++ ascii '"' :: rest) = .ok (s, rest) := by
  have hc := readContent_printed [] s.toList rest
  rw [readString, hc]
  simp only [bind, Except.bind, List.reverse_nil, List.nil_append]
  rw [← Utf8.encode, Utf8.decode_encode]

/-! ## Control characters -/

private theorem not_control_of_escapeLetter? {c letter : Char}
    (h : escapeLetter? c = some letter) : ¬(ascii letter).toNat < 0x20 := by
  unfold escapeLetter? at h
  repeat' split at h
  all_goals cases h
  all_goals decide

private theorem not_control_hexDigit {n : Nat} (h : n < 16) : ¬(hexDigit n).toNat < 0x20 := by
  have all : ∀ n < 16, ¬(hexDigit n).toNat < 0x20 := by decide
  exact all n h

private theorem not_control_of_mem_printChar {c : Char} {b : UInt8} (h : b ∈ printChar c) :
    ¬b.toNat < 0x20 := by
  unfold printChar at h
  split at h
  · next letter hl =>
    simp only [List.mem_cons, List.not_mem_nil, or_false] at h
    rcases h with rfl | rfl
    · decide
    · exact not_control_of_escapeLetter? hl
  · next hl =>
    split at h
    · next hc =>
      simp only [List.mem_cons, List.not_mem_nil, or_false] at h
      rcases h with rfl | rfl | rfl | rfl | rfl | rfl
      · decide
      · decide
      · decide
      · decide
      · exact not_control_hexDigit (by omega)
      · exact not_control_hexDigit (by omega)
    · next hc =>
      obtain ⟨hq, hb⟩ := ne_of_escapeLetter?_eq_none hl
      exact (plain_of_mem_encodeChar hq hb hc h).2.2

/-- A printed string has no control character among its bytes, whatever the string. -/
theorem not_control_of_mem_printString {s : String} {b : UInt8} (h : b ∈ printString s) :
    ¬b.toNat < 0x20 := by
  rcases List.mem_cons.mp h with rfl | h
  · decide
  rcases List.mem_append.mp h with h | h
  · obtain ⟨c, -, hb⟩ := List.mem_flatMap.mp h
    exact not_control_of_mem_printChar hb
  · obtain rfl := List.mem_singleton.mp h
    decide

end SchemaDoc.Json
