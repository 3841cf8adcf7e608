/-!
# UTF-8

Byte strings and the text they spell. `pieces` cuts any byte string into the characters it holds
and the stray runs that are no character; reading, the position of the first fault and the lossy
reading are all views of that one cut. The bytes of a text are cut into just its characters, so
they are read as that text.
-/

namespace SchemaDoc

/-- A byte string, of which nothing is promised. -/
abbrev Bytes := List UInt8

namespace Utf8

/-- The bytes of one character, one to four by its code point. -/
def encodeChar (c : Char) : Bytes :=
  let n := c.toNat
  if n < 0x80 then [UInt8.ofNat n]
  else if n < 0x800 then [UInt8.ofNat (0xC0 + n / 64), UInt8.ofNat (0x80 + n % 64)]
  else if n < 0x10000 then
    [UInt8.ofNat (0xE0 + n / 4096), UInt8.ofNat (0x80 + n / 64 % 64),
      UInt8.ofNat (0x80 + n % 64)]
  else
    [UInt8.ofNat (0xF0 + n / 262144), UInt8.ofNat (0x80 + n / 4096 % 64),
      UInt8.ofNat (0x80 + n / 64 % 64), UInt8.ofNat (0x80 + n % 64)]

/-- The bytes of a text. -/
def encode (s : String) : Bytes := s.toList.flatMap encodeChar

/-- The least second byte that may follow the first byte `a`. -/
def secondLow (a : Nat) : Nat :=
  if a = 0xE0 then 0xA0 else if a = 0xF0 then 0x90 else 0x80

/-- The greatest second byte that may follow the first byte `a`. -/
def secondHigh (a : Nat) : Nat :=
  if a = 0xED then 0x9F else if a = 0xF4 then 0x8F else 0xBF

/-- Whether a byte may stand third or fourth in a character. -/
def isTail (b : Nat) : Bool := 0x80 ≤ b && b ≤ 0xBF

/-- A stretch of a byte string. -/
inductive Piece where
  /-- A whole character of `size` bytes. -/
  | char (c : Char) (size : Nat)
  /-- Bytes that begin no character, whatever follows them. -/
  | stray (size : Nat)
  /-- The input ends inside a character. -/
  | cut (size : Nat)
deriving DecidableEq, Repr

namespace Piece

/-- How many bytes the piece covers. -/
def size : Piece → Nat
  | char _ n | stray n | cut n => n

/-- The piece at the front of the input `a :: rest`: a character if one is spelt there, else the
longest run that could have begun one. -/
def front (a : UInt8) (rest : Bytes) : Piece :=
  let p := a.toNat
  if p < 0x80 then char (Char.ofNat p) 1
  else if p < 0xC2 || 0xF4 < p then stray 1
  else match rest with
    | [] => cut 1
    | b :: rest₁ =>
      let q := b.toNat
      if q < secondLow p || secondHigh p < q then stray 1
      else if p < 0xE0 then char (Char.ofNat (p % 32 * 64 + q % 64)) 2
      else match rest₁ with
        | [] => cut 2
        | c :: rest₂ =>
          let r := c.toNat
          if !isTail r then stray 2
          else if p < 0xF0 then char (Char.ofNat (p % 16 * 4096 + q % 64 * 64 + r % 64)) 3
          else match rest₂ with
            | [] => cut 3
            | d :: _ =>
              let s := d.toNat
              if !isTail s then stray 3
              else char (Char.ofNat (p % 8 * 262144 + q % 64 * 4096 + r % 64 * 64 + s % 64)) 4

end Piece

/-- The pieces of a byte string after its first `skip` bytes, behind those in `done`, which are
kept in reverse. -/
def piecesFrom (done : List Piece) : Nat → Bytes → List Piece
  | _, [] => done.reverse
  | skip + 1, _ :: rest => piecesFrom done skip rest
  | 0, a :: rest =>
    let p := Piece.front a rest
    piecesFrom (p :: done) (p.size - 1) rest

/-- The byte string cut into characters and stray runs, in order. -/
def pieces (bs : Bytes) : List Piece := piecesFrom [] 0 bs

/-- Where a byte string stops being UTF-8. -/
structure Fault where
  /-- The number of bytes before the fault. -/
  index : Nat
  /-- The length of the stray run, or nothing if the input ends inside a character. -/
  size? : Option Nat
deriving DecidableEq, Repr

/-- What is said of a fault. -/
def Fault.message (f : Fault) : String :=
  match f.size? with
  | some n => s!"invalid utf-8 sequence of {n} bytes from index {f.index}"
  | none => s!"incomplete utf-8 byte sequence from index {f.index}"

/-- The characters of `ps` behind those in `done`, or the first fault, `before` bytes having
been passed. -/
def charsFrom (done : List Char) (before : Nat) : List Piece → Except Fault (List Char)
  | [] => .ok done.reverse
  | .char c n :: ps => charsFrom (c :: done) (before + n) ps
  | .stray n :: _ => .error ⟨before, some n⟩
  | .cut _ :: _ => .error ⟨before, none⟩

/-- Reads a byte string as text, or tells where it stops being text. -/
def decode (bs : Bytes) : Except Fault String :=
  (charsFrom [] 0 (pieces bs)).map String.ofList

/-- Reads a byte string as text, if it is one. -/
def decode? (bs : Bytes) : Option String := (decode bs).toOption

/-- The sign that stands in for bytes that are no character. -/
def replacement : Char := Char.ofNat 0xFFFD

/-- Reads any byte string as text, with the replacement sign for each stray run. -/
def decodeLossy (bs : Bytes) : String :=
  String.ofList <| (pieces bs).map fun
    | .char c _ => c
    | .stray _ | .cut _ => replacement

/-! ## Laws -/

namespace Piece

private theorem front_one {a : UInt8} (h : a.toNat < 0x80) (rest : Bytes) :
    front a rest = char (Char.ofNat a.toNat) 1 := by
  simp [front, h]

private theorem front_two {a b : UInt8} (ha : 0xC2 ≤ a.toNat ∧ a.toNat < 0xE0)
    (hb : 0x80 ≤ b.toNat ∧ b.toNat ≤ 0xBF) (rest : Bytes) :
    front a (b :: rest) = char (Char.ofNat (a.toNat % 32 * 64 + b.toNat % 64)) 2 := by
  grind [front, secondLow, secondHigh]

private theorem front_three {a b c : UInt8} (ha : 0xE0 ≤ a.toNat ∧ a.toNat < 0xF0)
    (hb : secondLow a.toNat ≤ b.toNat ∧ b.toNat ≤ secondHigh a.toNat)
    (hc : 0x80 ≤ c.toNat ∧ c.toNat ≤ 0xBF) (rest : Bytes) :
    front a (b :: c :: rest) =
      char (Char.ofNat (a.toNat % 16 * 4096 + b.toNat % 64 * 64 + c.toNat % 64)) 3 := by
  grind [front, isTail]

private theorem front_four {a b c d : UInt8} (ha : 0xF0 ≤ a.toNat ∧ a.toNat ≤ 0xF4)
    (hb : secondLow a.toNat ≤ b.toNat ∧ b.toNat ≤ secondHigh a.toNat)
    (hc : 0x80 ≤ c.toNat ∧ c.toNat ≤ 0xBF) (hd : 0x80 ≤ d.toNat ∧ d.toNat ≤ 0xBF)
    (rest : Bytes) :
    front a (b :: c :: d :: rest) =
      char (Char.ofNat (a.toNat % 8 * 262144 + b.toNat % 64 * 4096 + c.toNat % 64 * 64 +
        d.toNat % 64)) 4 := by
  grind [front, isTail]

end Piece

private theorem toNat_ofNat {m : Nat} (h : m < 256) : (UInt8.ofNat m).toNat = m := by
  rw [UInt8.toNat_ofNat']
  omega

/-- A character is at the front of its bytes. -/
theorem front_encodeChar (c : Char) (rest : Bytes) :
    ∃ a tail, encodeChar c = a :: tail ∧
      Piece.front a (tail ++ rest) = .char c (tail.length + 1) := by
  have hv : c.toNat < 0xD800 ∨ 0xDFFF < c.toNat ∧ c.toNat < 0x110000 := c.valid
  have hc : Char.ofNat c.toNat = c := Char.ofNat_toNat c
  unfold encodeChar
  generalize c.toNat = n at hv hc ⊢
  by_cases h₁ : n < 0x80
  · have ha := toNat_ofNat (show n < 256 by omega)
    refine ⟨_, _, if_pos h₁, ?_⟩
    rw [Piece.front_one (by omega), ha, hc]
    rfl
  simp only [h₁, if_false]
  by_cases h₂ : n < 0x800
  · have ha := toNat_ofNat (show 0xC0 + n / 64 < 256 by omega)
    have hb := toNat_ofNat (show 0x80 + n % 64 < 256 by omega)
    refine ⟨_, _, if_pos h₂, ?_⟩
    rw [List.cons_append, Piece.front_two (by omega) (by omega), ha, hb,
      show (0xC0 + n / 64) % 32 * 64 + (0x80 + n % 64) % 64 = n by omega, hc]
    rfl
  simp only [h₂, if_false]
  by_cases h₃ : n < 0x10000
  · have ha := toNat_ofNat (show 0xE0 + n / 4096 < 256 by omega)
    have hb := toNat_ofNat (show 0x80 + n / 64 % 64 < 256 by omega)
    have hd := toNat_ofNat (show 0x80 + n % 64 < 256 by omega)
    refine ⟨_, _, if_pos h₃, ?_⟩
    rw [List.cons_append, List.cons_append,
      Piece.front_three (by omega) (by grind [secondLow, secondHigh]) (by omega), ha, hb, hd,
      show (0xE0 + n / 4096) % 16 * 4096 + (0x80 + n / 64 % 64) % 64 * 64 +
        (0x80 + n % 64) % 64 = n by omega, hc]
    rfl
  · have ha := toNat_ofNat (show 0xF0 + n / 262144 < 256 by omega)
    have hb := toNat_ofNat (show 0x80 + n / 4096 % 64 < 256 by omega)
    have hd := toNat_ofNat (show 0x80 + n / 64 % 64 < 256 by omega)
    have he := toNat_ofNat (show 0x80 + n % 64 < 256 by omega)
    refine ⟨_, _, if_neg h₃, ?_⟩
    rw [List.cons_append, List.cons_append, List.cons_append,
      Piece.front_four (by omega) (by grind [secondLow, secondHigh]) (by omega) (by omega),
      ha, hb, hd, he,
      show (0xF0 + n / 262144) % 8 * 262144 + (0x80 + n / 4096 % 64) % 64 * 4096 +
        (0x80 + n / 64 % 64) % 64 * 64 + (0x80 + n % 64) % 64 = n by omega, hc]
    rfl

/-- Skipped bytes leave no piece. -/
theorem piecesFrom_append (done : List Piece) (skipped rest : Bytes) :
    piecesFrom done skipped.length (skipped ++ rest) = piecesFrom done 0 rest := by
  induction skipped with
  | nil => rfl
  | cons b skipped ih => simpa [piecesFrom] using ih

private theorem piecesFrom_encodeChar (done : List Piece) (c : Char) (rest : Bytes) :
    piecesFrom done 0 (encodeChar c ++ rest) =
      piecesFrom (.char c (encodeChar c).length :: done) 0 rest := by
  obtain ⟨a, tail, h, hf⟩ := front_encodeChar c rest
  rw [h, List.cons_append, piecesFrom, hf]
  exact piecesFrom_append _ tail rest

private theorem pieces_encode (s : String) :
    pieces (encode s) = s.toList.map fun c ↦ .char c (encodeChar c).length := by
  have h (cs : List Char) (done : List Piece) : piecesFrom done 0 (cs.flatMap encodeChar) =
      done.reverse ++ cs.map fun c ↦ .char c (encodeChar c).length := by
    induction cs generalizing done with
    | nil => simp [piecesFrom]
    | cons c cs ih => rw [List.flatMap_cons, piecesFrom_encodeChar, ih]; simp
  exact h s.toList []

/-- The bytes of a text are read as that text. -/
theorem decode_encode (s : String) : decode (encode s) = .ok s := by
  have h (cs done : List Char) (before : Nat) :
      charsFrom done before (cs.map fun c ↦ .char c (encodeChar c).length) =
        .ok (done.reverse ++ cs) := by
    induction cs generalizing done before with
    | nil => simp [charsFrom]
    | cons c cs ih => rw [List.map_cons, charsFrom, ih]; simp
  rw [decode, pieces_encode, h]
  simp [Except.map]

end Utf8

end SchemaDoc
