import SchemaDoc.Json.Skim
import SchemaDoc.Proofs.Json.RoundTrip

/-!
# The grammar of JSON texts

Which byte strings are one complete JSON value, and nothing more. The grammar says nothing about
the size of a number, about surrogates, about the depth of nesting or about bytes that are not
UTF-8 inside a string; it is what a text must keep to so that its brackets, quotes and separators
mean the same inside a larger text.
-/

namespace SchemaDoc.Json

/-! ## Parts of a text -/

/-- Nothing but blanks. -/
def Blank (bs : Bytes) : Prop := ∀ b ∈ bs, isBlank b = true

/-- The characters of a string, with the closing quote. -/
inductive StringText : Bytes → Prop where
  /-- The closing quote. -/
  | close : StringText [ascii '"']
  /-- A byte that stands for itself. -/
  | plain {b : UInt8} {t : Bytes} (hq : b ≠ ascii '"') (hb : b ≠ ascii '\\') (hc : ¬b.toNat < 0x20)
    (ht : StringText t) : StringText (b :: t)
  /-- A one-letter escape. -/
  | escape {b : UInt8} {t : Bytes} (hb : (escaped? b).isSome = true) (ht : StringText t) :
    StringText (ascii '\\' :: b :: t)
  /-- A `\u` escape. -/
  | unicode {a b c d : UInt8} {t : Bytes} (hx : (hexFour? a b c d).isSome = true)
    (ht : StringText t) : StringText (ascii '\\' :: ascii 'u' :: a :: b :: c :: d :: t)

/-- The integer digits of a numeral, which do not start with a zero unless that is all. -/
inductive WholeText : Bytes → Prop where
  /-- Zero. -/
  | zero : WholeText [ascii '0']
  /-- Digits from another one on. -/
  | digits {b : UInt8} {ds : Bytes} (hb : isDigit b = true) (hz : b ≠ ascii '0')
    (hd : AllDigits ds) : WholeText (b :: ds)

/-- The fraction of a numeral, if it has one. -/
inductive FractionText : Bytes → Prop where
  /-- No fraction. -/
  | none : FractionText []
  /-- A point and digits. -/
  | some {ds : Bytes} (hd : AllDigits ds) (hs : ds ≠ []) : FractionText (ascii '.' :: ds)

/-- The exponent of a numeral, if it has one. -/
inductive ScaleText : Bytes → Prop where
  /-- No exponent. -/
  | none : ScaleText []
  /-- The letter and digits. -/
  | unsigned {e : UInt8} {ds : Bytes} (he : isExponentSign e = true) (hd : AllDigits ds)
    (hs : ds ≠ []) : ScaleText (e :: ds)
  /-- The letter, a sign and digits. -/
  | signed {e b : UInt8} {ds : Bytes} (he : isExponentSign e = true)
    (hb : b = ascii '+' ∨ b = ascii '-') (hd : AllDigits ds) (hs : ds ≠ []) :
    ScaleText (e :: b :: ds)

/-- A numeral without its minus sign. -/
inductive NumeralText : Bytes → Prop where
  /-- The integer digits, the fraction and the exponent. -/
  | intro {w f e : Bytes} (hw : WholeText w) (hf : FractionText f) (he : ScaleText e) :
    NumeralText (w ++ (f ++ e))

/-- A value that has no parts. -/
inductive ScalarText : Bytes → Prop where
  /-- The null value. -/
  | null : ScalarText (asciiBytes ['n', 'u', 'l', 'l'])
  /-- True. -/
  | yes : ScalarText (asciiBytes ['t', 'r', 'u', 'e'])
  /-- False. -/
  | no : ScalarText (asciiBytes ['f', 'a', 'l', 's', 'e'])
  /-- A string. -/
  | string {t : Bytes} (h : StringText t) : ScalarText (ascii '"' :: t)
  /-- A number. -/
  | number {t : Bytes} (h : NumeralText t) : ScalarText t
  /-- A number with a minus sign. -/
  | negative {t : Bytes} (h : NumeralText t) : ScalarText (ascii '-' :: t)

/-- The byte that opens a bracket. -/
def Bracket.opening : Bracket → UInt8
  | list => ascii '['
  | table => ascii '\x7b'

/-- What stands before a part inside a bracket, the first one or another. -/
inductive SeparatorText : Bool → Bytes → Prop where
  /-- Blanks. -/
  | first {pre : Bytes} (h : Blank pre) : SeparatorText true pre
  /-- A comma among blanks. -/
  | comma {pre post : Bytes} (h : Blank pre) (h' : Blank post) :
    SeparatorText false (pre ++ ascii ',' :: post)

/-- What stands before the value of a part inside a bracket. -/
inductive KeyText : Bracket → Bytes → Prop where
  /-- Nothing in an array. -/
  | list : KeyText .list []
  /-- A string and a colon in an object. -/
  | table {t pre : Bytes} (h : StringText t) (hp : Blank pre) :
    KeyText .table (ascii '"' :: (t ++ (pre ++ [ascii ':'])))

/-! ## Values -/

mutual
/-- One value and nothing more. -/
inductive ValueText : Bytes → Prop where
  /-- A value that has no parts. -/
  | scalar {t : Bytes} (h : ScalarText t) : ValueText t
  /-- An array or an object. -/
  | bracket {bracket : Bracket} {t : Bytes} (h : InsideText bracket true t) :
    ValueText (bracket.opening :: t)

/-- The parts inside a bracket from the first one on, or from behind a part, with the closing
bracket. -/
inductive InsideText : Bracket → Bool → Bytes → Prop where
  /-- The closing bracket. -/
  | close {bracket : Bracket} {first : Bool} {pre : Bytes} (h : Blank pre) :
    InsideText bracket first (pre ++ [bracket.closing])
  /-- A part and what follows it. -/
  | part {bracket : Bracket} {first : Bool} {sep key pre t after : Bytes}
    (hs : SeparatorText first sep) (hk : KeyText bracket key) (hp : Blank pre) (ht : ValueText t)
    (ha : InsideText bracket false after) :
    InsideText bracket first (sep ++ (key ++ (pre ++ (t ++ after))))
end

/-- An array or an object and nothing more. -/
def BracketText (bracket : Bracket) (t : Bytes) : Prop :=
  ∃ inside, t = bracket.opening :: inside ∧ InsideText bracket true inside

/-! ## Blanks -/

/-- Blanks in front are skipped. -/
theorem Blank.skipBlank_append {pre : Bytes} (h : Blank pre) (rest : Bytes) :
    skipBlank (pre ++ rest) = skipBlank rest :=
  List.dropWhile_append_of_pos h

/-- Blanks behind blanks. -/
theorem Blank.append {pre post : Bytes} (h : Blank pre) (h' : Blank post) : Blank (pre ++ post) :=
  fun b hb ↦ (List.mem_append.mp hb).elim (h b) (h' b)

/-- No blanks at all. -/
theorem blank_nil : Blank [] := by simp [Blank]

/-- What is skipped is blank. -/
theorem exists_blank_append (bs : Bytes) : ∃ pre, Blank pre ∧ bs = pre ++ skipBlank bs :=
  ⟨bs.takeWhile isBlank, List.all_eq_true.mp List.all_takeWhile,
    List.takeWhile_append_dropWhile.symm⟩

/-- What is left once the blanks were skipped does not start with one. -/
theorem isBlank_of_skipBlank {bs rest : Bytes} {b : UInt8} (h : skipBlank bs = b :: rest) :
    isBlank b = false := by
  have head := List.head?_dropWhile_not isBlank bs
  rw [← skipBlank, h] at head
  simpa using head

/-- There are no blanks in front where nothing is skipped. -/
theorem Blank.eq_nil {pre rest : Bytes} (h : Blank pre)
    (hs : skipBlank (pre ++ rest) = pre ++ rest) : pre = [] := by
  cases pre with
  | nil => rfl
  | cons b pre =>
    have blank := h b List.mem_cons_self
    rw [isBlank_of_skipBlank hs] at blank
    cases blank

/-- Everything is skipped of blanks and of nothing else. -/
theorem skipBlank_eq_nil_iff {bs : Bytes} : skipBlank bs = [] ↔ Blank bs := by
  constructor
  · intro h
    obtain ⟨pre, hp, he⟩ := exists_blank_append bs
    rw [h, List.append_nil] at he
    rwa [he]
  · intro h
    have skipped := h.skipBlank_append []
    rwa [List.append_nil] at skipped

private theorem endsNumber_of_isBlank {b : UInt8} (h : isBlank b = true) (rest : Bytes) :
    EndsNumber (b :: rest) := by
  simp only [isBlank, Bool.or_eq_true, decide_eq_true_eq] at h
  rcases h with ((rfl | rfl) | rfl) | rfl <;>
    exact endsNumber_cons (by decide) (by decide) (by decide) rest

/-- A number ends before blanks. -/
theorem Blank.endsNumber {pre : Bytes} (h : Blank pre) {rest : Bytes} (hr : EndsNumber rest) :
    EndsNumber (pre ++ rest) := by
  cases pre with
  | nil => exact hr
  | cons b pre => exact endsNumber_of_isBlank (h b List.mem_cons_self) _

/-- A number ends before blanks that end the text. -/
theorem Blank.ends {post : Bytes} (h : Blank post) : EndsNumber post := by
  have ends := h.endsNumber endsNumber_nil
  rwa [List.append_nil] at ends

/-! ## First bytes -/

/-- A numeral starts with a digit. -/
theorem NumeralText.startsDigit {t : Bytes} (h : NumeralText t) : StartsDigit t := by
  cases h with
  | intro hw hf he =>
    cases hw with
    | zero => exact ⟨_, _, rfl, by decide⟩
    | digits hb hz hd => exact ⟨_, _, rfl, hb⟩

/-- The first byte of a value without parts. -/
theorem ScalarText.eq_cons {t : Bytes} (h : ScalarText t) :
    ∃ b bs, t = b :: bs ∧ StartsScalar b := by
  cases h with
  | null | yes | no | string | negative =>
    exact ⟨_, _, rfl, ⟨by decide, by decide⟩, by decide, by decide⟩
  | number hn =>
    obtain ⟨b, bs, rfl, hb⟩ := hn.startsDigit
    exact ⟨b, bs, rfl, startsScalar_of_isDigit hb⟩

/-- The first byte of a value. -/
theorem ValueText.eq_cons {t : Bytes} (h : ValueText t) : ∃ b bs, t = b :: bs ∧ StartsValue b := by
  cases h with
  | scalar hs =>
    obtain ⟨b, bs, rfl, hb, -⟩ := hs.eq_cons
    exact ⟨b, bs, rfl, hb⟩
  | @bracket bracket t _ =>
    refine ⟨_, _, rfl, ?_⟩
    cases bracket <;> exact ⟨by decide, by decide⟩

/-! ## Brackets and separators -/

/-- A closing bracket is not blank. -/
theorem skipBlank_closing (bracket : Bracket) (rest : Bytes) :
    skipBlank (bracket.closing :: rest) = bracket.closing :: rest := by
  cases bracket <;> exact skipBlank_cons (by decide) rest

/-- A number ends before a closing bracket behind blanks. -/
theorem Blank.endsNumber_closing {pre : Bytes} (h : Blank pre) (bracket : Bracket)
    (rest : Bytes) : EndsNumber (pre ++ bracket.closing :: rest) := by
  apply h.endsNumber
  cases bracket <;> exact endsNumber_cons (by decide) (by decide) (by decide) rest

/-- A number ends before what stands between two parts. -/
theorem SeparatorText.endsNumber {sep : Bytes} (h : SeparatorText false sep) (rest : Bytes) :
    EndsNumber (sep ++ rest) := by
  cases h with
  | comma hp =>
    rw [List.append_assoc]
    exact hp.endsNumber (endsNumber_cons (by decide) (by decide) (by decide) _)

/-- A number ends before what follows a part inside a bracket. -/
theorem InsideText.endsNumber {bracket : Bracket} {t : Bytes} (h : InsideText bracket false t)
    (rest : Bytes) : EndsNumber (t ++ rest) := by
  cases h with
  | close hp =>
    rw [List.append_assoc]
    exact hp.endsNumber_closing bracket rest
  | part hs =>
    rw [List.append_assoc]
    exact hs.endsNumber _

end SchemaDoc.Json
