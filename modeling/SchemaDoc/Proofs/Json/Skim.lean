import SchemaDoc.Proofs.Json.Grammar
import SchemaDoc.Proofs.Json.Reader
import SchemaDoc.Proofs.Text.Utf8

/-!
# Skimming keeps to the grammar

The skimmer accepts what is one value by the grammar and nothing else, and stops right behind it. So
the text that is kept of a byte string is one complete value in UTF-8, and there is one exactly if
the byte string is such a value between blanks.
-/

namespace SchemaDoc.Json

/-! ## Strings -/

/-- A string is skimmed to behind its closing quote. -/
theorem StringText.skimString {t : Bytes} (h : StringText t) (rest : Bytes) :
    skimString 0 (t ++ rest) = .ok rest := by
  have hq : ascii '\\' ≠ ascii '"' := by decide
  induction h with
  | close => rfl
  | plain hq hb hc _ ih =>
    rw [List.cons_append, Json.skimString, if_neg hq, if_neg hb, if_neg hc, ih]
  | escape hb _ ih =>
    rw [List.cons_append, List.cons_append, Json.skimString, if_neg hq, if_pos rfl, skimEscape,
      if_pos hb]
    exact ih
  | unicode hx _ ih =>
    obtain ⟨n, hx⟩ := Option.isSome_iff_exists.mp hx
    have hu : ¬(escaped? (ascii 'u')).isSome = true := by decide
    simp only [List.cons_append]
    rw [Json.skimString, if_neg hq, if_pos rfl, skimEscape, if_neg hu, if_pos rfl, readHex, hx]
    exact ih

/-- Four hexadecimal digits that were read are in front. -/
theorem eq_cons_of_readHex {bs rest : Bytes} {n : Nat} (h : readHex bs = .ok (n, rest)) :
    ∃ a b c d, bs = a :: b :: c :: d :: rest ∧ hexFour? a b c d = some n := by
  unfold readHex at h
  split at h
  · next a b c d rest' =>
    split at h
    · next m hx =>
      cases h
      exact ⟨a, b, c, d, rfl, hx⟩
    · cases h
  · cases h

private theorem exists_of_skimEscape {bs : Bytes} {size : Nat} (h : skimEscape bs = .ok size) :
    ∃ esc, bs = esc ++ bs.drop size ∧
      ∀ t, StringText t → StringText (ascii '\\' :: (esc ++ t)) := by
  cases bs with
  | nil => cases h
  | cons b bs =>
    rw [skimEscape] at h
    split at h
    · next hb =>
      cases h
      exact ⟨[b], rfl, fun t ht ↦ .escape hb ht⟩
    split at h
    · next hu =>
      obtain ⟨⟨n, rest⟩, hr, rfl⟩ := eq_ok_of_map_eq_ok h
      obtain ⟨x, y, z, w, rfl, hx⟩ := eq_cons_of_readHex hr
      refine ⟨[ascii 'u', x, y, z, w], by rw [hu]; rfl, ?_⟩
      intro t ht
      exact .unicode (by rw [hx]; rfl) ht
    · cases h

private theorem stringText_of_skimString {skip : Nat} {bs rest : Bytes}
    (h : skimString skip bs = .ok rest) : ∃ t, StringText t ∧ bs.drop skip = t ++ rest := by
  induction bs generalizing skip with
  | nil => cases skip <;> cases h
  | cons b bs ih =>
    cases skip with
    | succ skip => exact ih h
    | zero =>
      rw [skimString] at h
      split at h
      · next hq =>
        cases h
        exact ⟨_, .close, by rw [hq]; rfl⟩
      split at h
      · next hq hb =>
        cases he : skimEscape bs with
        | error f =>
          rw [he] at h
          cases h
        | ok size =>
          rw [he] at h
          obtain ⟨t, ht, hd⟩ := ih h
          obtain ⟨esc, hbs, string⟩ := exists_of_skimEscape he
          refine ⟨_, string t ht, ?_⟩
          rw [List.drop_zero, hb, hbs, hd]
          simp
      split at h
      · cases h
      · next hq hb hc =>
        obtain ⟨t, ht, hd⟩ := ih h
        rw [List.drop_zero] at hd ⊢
        exact ⟨b :: t, .plain hq hb hc ht, by rw [hd]; rfl⟩

/-! ## Numerals -/

/-- What is skipped of a byte string is digits. -/
theorem exists_digits_append (bs : Bytes) : ∃ ds, AllDigits ds ∧ bs = ds ++ skipDigits bs :=
  ⟨bs.takeWhile isDigit, List.all_eq_true.mp List.all_takeWhile,
    List.takeWhile_append_dropWhile.symm⟩

/-- What is left once the digits were skipped does not start with one. -/
theorem isDigit_of_skipDigits {bs rest : Bytes} {b : UInt8}
    (h : skipDigits bs = b :: rest) : isDigit b = false := by
  have head := List.head?_dropWhile_not isDigit bs
  rw [← skipDigits, h] at head
  simpa using head

/-- Digits and what is not a digit are told apart. -/
theorem AllDigits.skipDigits_append {ds : Bytes} (hd : AllDigits ds) {rest : Bytes}
    (hr : skipDigits rest = rest) : skipDigits (ds ++ rest) = rest := by
  rw [Json.skipDigits_append hd, hr]

/-- Nothing is skipped of what does not start with a digit. -/
theorem skipDigits_eq_of_head {bs : Bytes}
    (h : ∀ b after, bs = b :: after → isDigit b = false) : skipDigits bs = bs := by
  cases bs with
  | nil => rfl
  | cons b after => simp [skipDigits, h b after rfl]

/-- Skipping digits once more skips nothing. -/
theorem skipDigits_skipDigits (bs : Bytes) : skipDigits (skipDigits bs) = skipDigits bs :=
  skipDigits_eq_of_head fun _ _ ↦ isDigit_of_skipDigits

/-- An exponent and what follows a number start with neither a digit nor a point. -/
theorem ScaleText.head {e : Bytes} (h : ScaleText e) {rest : Bytes} (hr : EndsNumber rest)
    {b : UInt8} {after : Bytes} (hb : e ++ rest = b :: after) :
    isDigit b = false ∧ b ≠ ascii '.' := by
  have letter {b : UInt8} (hb : isExponentSign b = true) : isDigit b = false ∧ b ≠ ascii '.' := by
    simp only [isExponentSign, Bool.or_eq_true, decide_eq_true_eq] at hb
    rcases hb with rfl | rfl <;> decide
  cases h with
  | none =>
    obtain ⟨hd, hp, -⟩ := hr b after hb
    exact ⟨hd, hp⟩
  | unsigned he | signed he =>
    obtain ⟨rfl, -⟩ := List.cons.inj hb
    exact letter he

/-- A fraction and what may follow it do not start with a digit. -/
theorem FractionText.head {f e : Bytes} (h : FractionText f) (he : ScaleText e)
    {rest : Bytes} (hr : EndsNumber rest) {b : UInt8} {after : Bytes}
    (hb : f ++ (e ++ rest) = b :: after) : isDigit b = false := by
  cases h with
  | none => exact (he.head hr hb).1
  | some =>
    obtain ⟨rfl, -⟩ := List.cons.inj hb
    decide

/-- A sign is no digit. -/
theorem not_sign_of_isDigit {b : UInt8} (h : isDigit b = true) :
    ¬(b = ascii '+' ∨ b = ascii '-') := by
  rintro (rfl | rfl) <;> revert h <;> decide

private theorem skimExponent_digits {ds : Bytes} (hd : AllDigits ds) (hs : ds ≠ []) {rest : Bytes}
    (hr : EndsNumber rest) : skimExponent (ds ++ rest) = .ok rest := by
  cases ds with
  | nil => exact absurd rfl hs
  | cons b ds =>
    have hb := hd b List.mem_cons_self
    have skipped : skipDigits (ds ++ rest) = rest :=
      (hd.subset (List.subset_cons_self b ds)).skipDigits_append hr.skipDigits_eq
    simp only [List.cons_append, skimExponent]
    rw [if_neg (not_sign_of_isDigit hb)]
    dsimp only
    rw [if_pos hb, skipped]

private theorem ScaleText.skimExponent {e : UInt8} {t : Bytes} (h : ScaleText (e :: t))
    {rest : Bytes} (hr : EndsNumber rest) :
    isExponentSign e = true ∧ Json.skimExponent (t ++ rest) = .ok rest := by
  cases h with
  | unsigned he hd hs => exact ⟨he, skimExponent_digits hd hs hr⟩
  | @signed _ b ds he hb hd hs =>
    refine ⟨he, ?_⟩
    have digits := skimExponent_digits hd hs hr
    cases ds with
    | nil => exact absurd rfl hs
    | cons c ds =>
      have hc := not_sign_of_isDigit (hd c List.mem_cons_self)
      simp only [List.cons_append, Json.skimExponent] at digits ⊢
      rw [if_neg hc] at digits
      rw [if_pos hb]
      exact digits

private theorem ScaleText.skim {e : Bytes} (h : ScaleText e) {rest : Bytes}
    (hr : EndsNumber rest) :
    (match e ++ rest with
      | [] => Except.ok []
      | c :: after => if isExponentSign c then Json.skimExponent after else .ok (c :: after)) =
        (.ok rest : Except Fault Bytes) := by
  cases e with
  | cons c e =>
    obtain ⟨hc, skimmed⟩ := h.skimExponent hr
    simp only [List.cons_append]
    rw [if_pos hc, skimmed]
  | nil =>
    cases rest with
    | nil => rfl
    | cons c after =>
      simp only [List.nil_append]
      rw [if_neg (by simp [(hr c after rfl).2.2])]

private theorem skimTail_append {f e : Bytes} (hf : FractionText f) (he : ScaleText e)
    {rest : Bytes} (hr : EndsNumber rest) : skimTail (f ++ (e ++ rest)) = .ok rest := by
  have scale := he.skim hr
  cases hf with
  | none =>
    rw [List.nil_append]
    cases h : e ++ rest with
    | nil => rwa [h] at scale
    | cons c after =>
      rw [h] at scale
      rw [skimTail, if_neg (he.head hr h).2]
      exact scale
  | @some ds hd hs =>
    cases ds with
    | nil => exact absurd rfl hs
    | cons b ds =>
      have skipped : skipDigits (e ++ rest) = e ++ rest :=
        skipDigits_eq_of_head fun c after hc ↦ (he.head hr hc).1
      rw [List.cons_append, skimTail, if_pos rfl, List.cons_append, skimFraction,
        if_pos (hd b List.mem_cons_self), ← List.cons_append, hd.skipDigits_append skipped]
      exact scale

private theorem NumeralText.skimNumber {t : Bytes} (h : NumeralText t) {rest : Bytes}
    (hr : EndsNumber rest) : skimNumber (t ++ rest) = .ok rest := by
  cases h with
  | @intro w f e hw hf he =>
    have tail := skimTail_append hf he hr
    have skipped := skipDigits_eq_of_head fun _ _ hb ↦ hf.head he hr hb
    rw [List.append_assoc, List.append_assoc]
    cases hw with
    | zero =>
      simp only [List.cons_append, List.nil_append, Json.skimNumber, if_true]
      cases hx : f ++ (e ++ rest) with
      | nil =>
        rw [hx] at tail
        exact tail
      | cons c after =>
        rw [hx] at tail
        have hc := hf.head he hr hx
        dsimp only
        rw [if_neg (by simp [hc]), tail]
    | @digits b ds hb hz hd =>
      simp only [List.cons_append, Json.skimNumber]
      rw [if_neg hz, if_pos hb, hd.skipDigits_append skipped, tail]

private theorem scaleText_of_skimExponent {bs rest : Bytes} (h : skimExponent bs = .ok rest)
    {e : UInt8} (he : isExponentSign e = true) : ∃ t, ScaleText (e :: t) ∧ bs = t ++ rest := by
  have digits {b : UInt8} (hb : isDigit b = true) (after : Bytes) :
      ∃ ds, AllDigits (b :: ds) ∧ b :: after = b :: ds ++ skipDigits after := by
    obtain ⟨ds, hd, hs⟩ := exists_digits_append after
    refine ⟨ds, ?_, by rw [List.cons_append, ← hs]⟩
    exact List.forall_mem_cons.mpr ⟨hb, hd⟩
  cases bs with
  | nil => cases h
  | cons b bs =>
    simp only [skimExponent] at h
    by_cases hs : b = ascii '+' ∨ b = ascii '-'
    · rw [if_pos hs] at h
      cases bs with
      | nil => cases h
      | cons c after =>
        dsimp only at h
        split at h
        · next hc =>
          cases h
          obtain ⟨ds, hd, hx⟩ := digits hc after
          exact ⟨b :: c :: ds, .signed he hs hd (by simp), by rw [hx]; rfl⟩
        · cases h
    · rw [if_neg hs] at h
      dsimp only at h
      split at h
      · next hb =>
        cases h
        obtain ⟨ds, hd, hx⟩ := digits hb bs
        exact ⟨b :: ds, .unsigned he hd (by simp), hx⟩
      · cases h

private theorem exists_of_skimFraction {bs rest : Bytes} (h : skimFraction bs = .ok rest) :
    ∃ ds e, AllDigits ds ∧ ds ≠ [] ∧ ScaleText e ∧ bs = ds ++ (e ++ rest) := by
  cases bs with
  | nil => cases h
  | cons b bs =>
    obtain ⟨ds, hd, hx⟩ := exists_digits_append (b :: bs)
    simp only [skimFraction] at h
    split at h
    · next hb =>
      have some : ds ≠ [] := by
        rintro rfl
        have := isDigit_of_skipDigits hx.symm
        simp [hb] at this
      split at h
      · next hn =>
        cases h
        exact ⟨ds, [], hd, some, .none, by rw [hx, hn]; rfl⟩
      · next c after hn =>
        split at h
        · next hc =>
          obtain ⟨t, ht, rfl⟩ := scaleText_of_skimExponent h hc
          exact ⟨ds, c :: t, hd, some, ht, by rw [hx, hn]; rfl⟩
        · cases h
          exact ⟨ds, [], hd, some, .none, by rw [hx, hn]; rfl⟩
    · cases h

private theorem exists_of_skimTail {bs rest : Bytes} (h : skimTail bs = .ok rest) :
    ∃ f e, FractionText f ∧ ScaleText e ∧ bs = f ++ (e ++ rest) := by
  cases bs with
  | nil =>
    cases h
    exact ⟨[], [], .none, .none, rfl⟩
  | cons b bs =>
    rw [skimTail] at h
    split at h
    · next hp =>
      obtain ⟨ds, e, hd, hs, he, rfl⟩ := exists_of_skimFraction h
      exact ⟨_, e, .some hd hs, he, by rw [hp]; rfl⟩
    split at h
    · next hb =>
      obtain ⟨t, ht, rfl⟩ := scaleText_of_skimExponent h hb
      exact ⟨[], b :: t, .none, ht, rfl⟩
    · cases h
      exact ⟨[], [], .none, .none, rfl⟩

private theorem numeralText_of_skimNumber {bs rest : Bytes} (h : skimNumber bs = .ok rest) :
    ∃ t, NumeralText t ∧ bs = t ++ rest := by
  have joined {w after : Bytes} (hw : WholeText w) (ht : skimTail after = .ok rest) :
      ∃ t, NumeralText t ∧ w ++ after = t ++ rest := by
    obtain ⟨f, e, hf, he, rfl⟩ := exists_of_skimTail ht
    exact ⟨_, .intro hw hf he, by simp⟩
  cases bs with
  | nil => cases h
  | cons b bs =>
    simp only [skimNumber] at h
    split at h
    · next hz =>
      subst hz
      split at h
      · split at h
        · cases h
        · exact joined .zero h
      · cases h
        exact ⟨_, .intro .zero .none .none, rfl⟩
    split at h
    · next hz hb =>
      obtain ⟨ds, hd, hx⟩ := exists_digits_append bs
      rw [hx]
      exact joined (.digits hb hz hd) h
    · cases h

/-! ## Values without parts -/

/-- A word that was read is in front. -/
theorem eq_append_of_readWord {word : List Char} {bs rest : Bytes}
    (h : readWord word bs = .ok rest) : bs = asciiBytes word ++ rest := by
  induction word generalizing bs with
  | nil =>
    cases h
    rfl
  | cons c word ih =>
    cases bs with
    | nil => cases h
    | cons b bs =>
      rw [readWord] at h
      split at h
      · next hb =>
        rw [hb, ih h]
        rfl
      · cases h

private theorem ScalarText.skimStart {t : Bytes} (h : ScalarText t) {rest : Bytes}
    (hr : EndsNumber rest) : skimStart (t ++ rest) = .ok (none, rest) := by
  cases h with
  | null | yes | no => rfl
  | @string t ht =>
    have hs : Json.skimStart (ascii '"' :: (t ++ rest)) =
        (skimString 0 (t ++ rest)).map (none, ·) := rfl
    rw [List.cons_append, hs, ht.skimString]
    rfl
  | @negative t hn =>
    have hs : Json.skimStart (ascii '-' :: (t ++ rest)) =
        (Json.skimNumber (t ++ rest)).map (none, ·) := rfl
    rw [List.cons_append, hs, hn.skimNumber hr]
    rfl
  | number hn =>
    have number := hn.skimNumber hr
    obtain ⟨b, bs, rfl, hb⟩ := hn.startsDigit
    have hs : skipBlank (b :: bs ++ rest) = b :: (bs ++ rest) :=
      skipBlank_cons (startsScalar_of_isDigit hb).1.1 _
    rw [Json.skimStart, hs]
    dsimp only
    rw [if_neg (ne_of_isDigit hb (by decide)), if_neg (ne_of_isDigit hb (by decide)),
      if_neg (ne_of_isDigit hb (by decide)), if_neg (ne_of_isDigit hb (by decide)),
      if_neg (ne_of_isDigit hb (by decide)), if_neg (ne_of_isDigit hb (by decide)),
      if_neg (ne_of_isDigit hb (by decide)), if_pos hb, ← List.cons_append, number]
    rfl

private theorem exists_of_skimStart {bs rest : Bytes} {bracket? : Option Bracket}
    (h : skimStart bs = .ok (bracket?, rest)) : ∃ pre, Blank pre ∧
      ((bracket? = none ∧ ∃ t, ScalarText t ∧ bs = pre ++ (t ++ rest)) ∨
        ∃ bracket, bracket? = some bracket ∧ bs = pre ++ bracket.opening :: rest) := by
  have scalar {x : Except Fault Bytes}
      (h : x.map (fun left ↦ ((none : Option Bracket), left)) = .ok (bracket?, rest)) :
      bracket? = none ∧ x = .ok rest := by
    obtain ⟨left, hx, he⟩ := eq_ok_of_map_eq_ok h
    obtain ⟨rfl, rfl⟩ := Prod.mk.inj he
    exact ⟨rfl, hx⟩
  obtain ⟨pre, hp, he⟩ := exists_blank_append bs
  refine ⟨pre, hp, ?_⟩
  rw [he]
  unfold skimStart at h
  split at h
  · cases h
  next b after hs =>
  rw [hs]
  split at h
  · next hb =>
    cases h
    exact .inr ⟨.list, rfl, by rw [hb]; rfl⟩
  split at h
  · next hb =>
    cases h
    exact .inr ⟨.table, rfl, by rw [hb]; rfl⟩
  split at h
  · next hb =>
    obtain ⟨none, read⟩ := scalar h
    exact .inl ⟨none, _, .null, by rw [hb, eq_append_of_readWord read]; rfl⟩
  split at h
  · next hb =>
    obtain ⟨none, read⟩ := scalar h
    exact .inl ⟨none, _, .yes, by rw [hb, eq_append_of_readWord read]; rfl⟩
  split at h
  · next hb =>
    obtain ⟨none, read⟩ := scalar h
    exact .inl ⟨none, _, .no, by rw [hb, eq_append_of_readWord read]; rfl⟩
  split at h
  · next hb =>
    obtain ⟨none, read⟩ := scalar h
    obtain ⟨t, ht, hd⟩ := stringText_of_skimString read
    rw [List.drop_zero] at hd
    exact .inl ⟨none, _, .string ht, by rw [hb, hd]; rfl⟩
  split at h
  · next hb =>
    obtain ⟨none, read⟩ := scalar h
    obtain ⟨t, ht, rfl⟩ := numeralText_of_skimNumber read
    exact .inl ⟨none, _, .negative ht, by rw [hb]; rfl⟩
  split at h
  · next hb =>
    obtain ⟨none, read⟩ := scalar h
    obtain ⟨t, ht, hx⟩ := numeralText_of_skimNumber read
    exact .inl ⟨none, t, .number ht, by rw [hx]⟩
  · cases h

/-! ## Keys -/

/-- Skipping once more skips nothing. -/
theorem skipBlank_skipBlank (bs : Bytes) : skipBlank (skipBlank bs) = skipBlank bs := by
  cases h : skipBlank bs with
  | nil => rfl
  | cons b rest => exact skipBlank_cons (isBlank_of_skipBlank h) rest

/-- A key starts with a quote. -/
theorem eq_cons_of_openKey {bs rest : Bytes} (h : openKey bs = .ok rest) :
    bs = ascii '"' :: rest := by
  cases bs with
  | nil => cases h
  | cons b bs =>
    rw [openKey] at h
    split at h
    · next hb =>
      cases h
      rw [hb]
    · cases h

/-- A colon is read behind blanks. -/
theorem readColon_append {pre : Bytes} (h : Blank pre) (rest : Bytes) :
    readColon (pre ++ ascii ':' :: rest) = .ok rest := by
  rw [readColon, h.skipBlank_append]
  rfl

/-- A colon that was read stands behind blanks. -/
theorem exists_of_readColon {bs rest : Bytes} (h : readColon bs = .ok rest) :
    ∃ pre, Blank pre ∧ bs = pre ++ ascii ':' :: rest := by
  obtain ⟨pre, hp, he⟩ := exists_blank_append bs
  unfold readColon at h
  split at h
  · cases h
  next b after hs =>
  rw [hs] at he
  split at h
  · next hb =>
    cases h
    exact ⟨pre, hp, by rw [he, hb]⟩
  · cases h

private theorem KeyText.skimKey {bracket : Bracket} {key : Bytes} (h : KeyText bracket key)
    {bs rest : Bytes} (hb : skipBlank bs = skipBlank (key ++ rest)) :
    ∃ bs', skimKey bracket bs = .ok bs' ∧ skipBlank bs' = skipBlank rest := by
  cases h with
  | list => exact ⟨bs, rfl, hb⟩
  | @table t pre ht hp =>
    have colon := readColon_append hp rest
    have opened : openKey (skipBlank bs) = .ok (t ++ (pre ++ ascii ':' :: rest)) := by
      rw [hb]
      simp [skipBlank, openKey, isBlank]
    refine ⟨rest, ?_, rfl⟩
    simp only [Json.skimKey, opened, ht.skimString, colon, bind, Except.bind]

private theorem exists_of_skimKey {bracket : Bracket} {bs rest : Bytes}
    (h : skimKey bracket bs = .ok rest) :
    ∃ pre key, Blank pre ∧ KeyText bracket key ∧ bs = pre ++ (key ++ rest) := by
  cases bracket with
  | list =>
    cases h
    exact ⟨[], [], blank_nil, .list, rfl⟩
  | table =>
    obtain ⟨pre, hp, he⟩ := exists_blank_append bs
    obtain ⟨opened, ho, h⟩ := eq_ok_of_bind_eq_ok h
    obtain ⟨behind, hs, h⟩ := eq_ok_of_bind_eq_ok h
    obtain ⟨t, ht, hd⟩ := stringText_of_skimString hs
    obtain ⟨between, hb, hx⟩ := exists_of_readColon h
    rw [List.drop_zero] at hd
    refine ⟨pre, _, hp, .table ht hb, ?_⟩
    rw [he, eq_cons_of_openKey ho, hd, hx]
    simp

/-! ## Values -/

/-- What is expected inside a bracket: its first part, or another. -/
def Expectation.inside (first : Bool) : Expectation := if first then .first else .next

private theorem skimFrom_value (steps : Nat) (stack : List Bracket) {bs bs' : Bytes}
    (h : skipBlank bs = skipBlank bs') :
    skimFrom (steps + 1) .value stack bs = skimFrom (steps + 1) .value stack bs' := by
  rw [skimFrom, skimFrom, skimStart, skimStart, h]

private theorem skimFrom_inside (steps : Nat) (first : Bool) (bracket : Bracket)
    (stack : List Bracket) (bs : Bytes) :
    skimFrom (steps + 1) (.inside first) (bracket :: stack) bs =
      match skipBlank bs with
      | [] => .error (.ahead bracket.endInside [])
      | b :: rest =>
        if b = bracket.closing then skimFrom steps .next stack rest
        else if first = false ∧ b ≠ ascii ',' then
          .error (.ahead bracket.expectedSeparator (b :: rest))
        else
          match skimKey bracket (if first then b :: rest else rest) with
          | .error f => .error f
          | .ok bs => skimFrom steps .value (bracket :: stack) bs := by
  cases first with
  | true =>
    rw [Expectation.inside, if_pos rfl, skimFrom.eq_4 _ _ _ _ _ (by simp)]
    cases skipBlank bs with
    | nil => rfl
    | cons b rest => cases h : skimKey bracket (b :: rest) <;> simp [h]
  | false =>
    rw [Expectation.inside, if_neg Bool.false_ne_true, skimFrom.eq_4 _ _ _ _ _ (by simp)]
    cases skipBlank bs with
    | nil => rfl
    | cons b rest => cases h : skimKey bracket rest <;> simp [h]

private theorem skimFrom_close (steps : Nat) {bracket : Bracket} (first : Bool)
    (stack : List Bracket) {pre : Bytes} (h : Blank pre) (rest : Bytes) :
    skimFrom (steps + 1) (.inside first) (bracket :: stack)
      (pre ++ ([bracket.closing] ++ rest)) = skimFrom steps .next stack rest := by
  have closing : skipBlank (pre ++ ([bracket.closing] ++ rest)) = bracket.closing :: rest :=
    (h.skipBlank_append _).trans (skipBlank_closing bracket rest)
  rw [skimFrom_inside, closing]
  dsimp only
  rw [if_pos rfl]

private theorem KeyText.head {bracket : Bracket} {key pre t : Bytes} (hk : KeyText bracket key)
    (hp : Blank pre) (ht : ValueText t) (rest : Bytes) :
    ∃ b after, skipBlank (key ++ (pre ++ (t ++ rest))) = b :: after ∧ b ≠ bracket.closing := by
  cases hk with
  | list =>
    obtain ⟨b, bs, rfl, hb⟩ := ht.eq_cons
    refine ⟨b, bs ++ rest, ?_, hb.2⟩
    rw [List.nil_append, hp.skipBlank_append]
    exact skipBlank_cons hb.1 _
  | table => exact ⟨_, _, skipBlank_cons (by decide) _, by decide⟩

private theorem skimFrom_key (steps : Nat) {bracket : Bracket} {first : Bool}
    (stack : List Bracket) {sep key pre t : Bytes} (hs : SeparatorText first sep)
    (hk : KeyText bracket key) (hp : Blank pre) (ht : ValueText t) (rest : Bytes) :
    skimFrom (steps + 2) (.inside first) (bracket :: stack)
        (sep ++ (key ++ (pre ++ (t ++ rest)))) =
      skimFrom (steps + 1) .value (bracket :: stack) (t ++ rest) := by
  obtain ⟨b, after, head, hb⟩ := hk.head hp ht rest
  rw [skimFrom_inside]
  cases hs with
  | first hs =>
    have skipped : skipBlank (b :: after) = skipBlank (key ++ (pre ++ (t ++ rest))) := by
      rw [← head, skipBlank_skipBlank]
    obtain ⟨bs', hbs, he⟩ := hk.skimKey skipped
    rw [hs.skipBlank_append, head]
    dsimp only
    rw [if_neg hb, if_neg (by simp), if_pos rfl, hbs]
    dsimp only
    rw [skimFrom_value steps _ (he.trans (hp.skipBlank_append _))]
  | @comma before behind hs hs' =>
    have comma : skipBlank (before ++ ascii ',' :: behind ++ (key ++ (pre ++ (t ++ rest)))) =
        ascii ',' :: (behind ++ (key ++ (pre ++ (t ++ rest)))) := by
      rw [List.append_assoc, hs.skipBlank_append]
      exact skipBlank_cons (by decide) _
    obtain ⟨bs', hbs, he⟩ := hk.skimKey (hs'.skipBlank_append (key ++ (pre ++ (t ++ rest))))
    have open' : ascii ',' ≠ bracket.closing := by cases bracket <;> decide
    rw [comma]
    dsimp only
    rw [if_neg open', if_neg (by simp), if_neg (by simp), hbs]
    dsimp only
    rw [skimFrom_value steps _ (he.trans (hp.skipBlank_append _))]

private theorem skimStart_opening (bracket : Bracket) (rest : Bytes) :
    skimStart (bracket.opening :: rest) = .ok (some bracket, rest) := by
  cases bracket <;> rfl

mutual
/-- A value is skimmed to its end. No byte of it takes more than two steps. -/
theorem ValueText.skimFrom : ∀ {t : Bytes}, ValueText t → ∃ k, k + 2 ≤ 2 * t.length ∧
    ∀ n stack rest, EndsNumber rest →
      skimFrom (n + k + 1) .value stack (t ++ rest) = skimFrom n .next stack rest
  | _, .scalar h => by
    obtain ⟨b, bs, rfl, -⟩ := h.eq_cons
    refine ⟨0, by rw [List.length_cons]; omega, ?_⟩
    intro n stack rest hr
    rw [Json.skimFrom, h.skimStart hr]
  | _, @ValueText.bracket bracket t h => by
    obtain ⟨k, hk, inside⟩ := h.skimFrom
    refine ⟨k, by rw [List.length_cons]; omega, ?_⟩
    intro n stack rest _
    rw [List.cons_append, Json.skimFrom, skimStart_opening]
    exact inside n stack rest

/-- What stands inside a bracket is skimmed to its end. -/
theorem InsideText.skimFrom : ∀ {bracket : Bracket} {first : Bool} {t : Bytes},
    InsideText bracket first t → ∃ k, k ≤ 2 * t.length ∧ ∀ n stack rest,
      skimFrom (n + k) (.inside first) (bracket :: stack) (t ++ rest) =
        skimFrom n .next stack rest
  | _, _, _, .close h => by
    refine ⟨1, by rw [List.length_append, List.length_singleton]; omega, ?_⟩
    intro n stack rest
    rw [List.append_assoc, skimFrom_close n _ stack h]
  | bracket, _, _, @InsideText.part _ _ _ _ _ t after hs hk hp ht ha => by
    obtain ⟨k, hk', value⟩ := ht.skimFrom
    obtain ⟨m, hm, others⟩ := ha.skimFrom
    refine ⟨m + k + 2, by simp only [List.length_append]; omega, ?_⟩
    intro n stack rest
    have steps : n + (m + k + 2) = n + m + k + 2 := by omega
    simp only [List.append_assoc]
    rw [steps, skimFrom_key _ stack hs hk hp ht, value _ _ _ (ha.endsNumber rest)]
    exact others n stack rest
end

/-- What was skimmed before the skimmer was behind the innermost value, and what it went on with. -/
private def Stops (text : Bytes → Prop) (steps : Nat) (stack : List Bracket) (bs left : Bytes) :
    Prop :=
  ∃ t rest steps', steps' < steps ∧ text t ∧ bs = t ++ rest ∧
    skimFrom steps' .next stack rest = .ok left

/-- A value behind blanks. -/
private def BlankedText (t : Bytes) : Prop := ∃ pre v, Blank pre ∧ ValueText v ∧ t = pre ++ v

private theorem exists_of_skimKey_inside {bracket : Bracket} {first : Bool} {pre rest bs : Bytes}
    {b : UInt8} (hp : Blank pre) (hb : ¬(first = false ∧ b ≠ ascii ','))
    (h : skimKey bracket (if first then b :: rest else rest) = .ok bs) :
    ∃ sep key, SeparatorText first sep ∧ KeyText bracket key ∧
      pre ++ b :: rest = sep ++ (key ++ bs) := by
  cases first with
  | true =>
    obtain ⟨between, key, hb, hk, he⟩ := exists_of_skimKey h
    rw [if_pos rfl] at he
    exact ⟨_, key, .first (hp.append hb), hk, by rw [he, List.append_assoc]⟩
  | false =>
    have comma : b = ascii ',' := by
      apply Classical.byContradiction
      intro hn
      exact hb ⟨rfl, hn⟩
    obtain ⟨between, key, hb, hk, he⟩ := exists_of_skimKey h
    rw [if_neg Bool.false_ne_true] at he
    exact ⟨_, key, .comma hp hb, hk, by rw [comma, he]; simp⟩

private theorem stops_value {n : Nat}
    (inside : ∀ bracket stack bs left, skimFrom n .first (bracket :: stack) bs = .ok left →
      Stops (InsideText bracket true) n stack bs left)
    {stack : List Bracket} {bs left : Bytes} (h : skimFrom (n + 1) .value stack bs = .ok left) :
    Stops BlankedText (n + 1) stack bs left := by
  rw [skimFrom] at h
  split at h
  · cases h
  · next rest hs =>
    obtain ⟨pre, hp, ⟨-, t, ht, rfl⟩ | ⟨bracket, he, -⟩⟩ := exists_of_skimStart hs
    · exact ⟨_, rest, n, Nat.lt_succ_self n, ⟨pre, t, hp, .scalar ht, rfl⟩, by simp, h⟩
    · cases he
  · next bracket rest hs =>
    obtain ⟨pre, hp, ⟨he, -⟩ | ⟨_, he, rfl⟩⟩ := exists_of_skimStart hs
    · cases he
    · obtain rfl := Option.some.inj he
      obtain ⟨t, after, m, hm, ht, rfl, hn⟩ := inside bracket stack rest left h
      exact ⟨_, after, m, Nat.lt_succ_of_lt hm, ⟨pre, _, hp, .bracket ht, rfl⟩, by simp, hn⟩

private theorem stops_inside {n : Nat}
    (value : ∀ stack bs left, skimFrom n .value stack bs = .ok left →
      Stops BlankedText n stack bs left)
    (inside : ∀ m, m < n → ∀ bracket stack bs left,
      skimFrom m .next (bracket :: stack) bs = .ok left →
        Stops (InsideText bracket false) m stack bs left)
    {first : Bool} {bracket : Bracket} {stack : List Bracket} {bs left : Bytes}
    (h : skimFrom (n + 1) (.inside first) (bracket :: stack) bs = .ok left) :
    Stops (InsideText bracket first) (n + 1) stack bs left := by
  obtain ⟨pre, hp, he⟩ := exists_blank_append bs
  rw [skimFrom_inside] at h
  split at h
  · cases h
  next b rest hs =>
  rw [hs] at he
  split at h
  · next hc =>
    exact ⟨_, rest, n, Nat.lt_succ_self n, .close hp, by rw [he, hc]; simp, h⟩
  split at h
  · cases h
  next hc hb =>
  split at h
  · cases h
  next behind hk =>
  obtain ⟨sep, key, hsep, hkey, hx⟩ := exists_of_skimKey_inside hp hb hk
  obtain ⟨_, after, m, hm, ⟨between, v, hbetween, hv, rfl⟩, rfl, hn⟩ :=
    value (bracket :: stack) behind left h
  obtain ⟨t, others, k, hk', ht, rfl, hl⟩ := inside m hm bracket stack after left hn
  exact ⟨_, others, k, by omega, .part hsep hkey hbetween hv ht, by rw [he, hx]; simp, hl⟩

private theorem stops (steps : Nat) :
    (∀ stack bs left, skimFrom steps .value stack bs = .ok left →
      Stops BlankedText steps stack bs left) ∧
    ∀ first bracket stack bs left, skimFrom steps (.inside first) (bracket :: stack) bs = .ok left →
      Stops (InsideText bracket first) steps stack bs left := by
  -- A part takes a step for what stands before its value, so what follows has fewer left.
  induction steps using Nat.strongRecOn with
  | ind steps ih =>
  cases steps with
  | zero =>
    constructor
    · intro stack bs left h
      cases h
    · intro first bracket stack bs left h
      cases first <;> cases h
  | succ n =>
    obtain ⟨value, inside⟩ := ih n (Nat.lt_succ_self n)
    constructor
    · intro stack bs left
      exact stops_value (inside true)
    · intro first bracket stack bs left
      exact stops_inside value fun m hm ↦ (ih m (Nat.lt_succ_of_lt hm)).2 false

private theorem skimValue_of_valueText {t : Bytes} (h : ValueText t) {limit : Nat}
    (hl : t.length ≤ limit)
    {rest : Bytes} (hr : EndsNumber rest) : skimValue limit (t ++ rest) = .ok rest := by
  obtain ⟨k, hk, value⟩ := h.skimFrom
  have steps : 2 * limit + 2 = 2 * limit + 1 - k + k + 1 := by omega
  have left : 2 * limit + 1 - k = 2 * limit - k + 1 := by omega
  rw [skimValue, steps, value _ _ _ hr, left]
  rfl

private theorem valueText_of_skimValue {limit : Nat} {bs left : Bytes}
    (h : skimValue limit bs = .ok left) :
    ∃ pre t, Blank pre ∧ ValueText t ∧ bs = pre ++ (t ++ left) := by
  obtain ⟨_, rest, steps, -, ⟨pre, t, hp, ht, rfl⟩, rfl, hs⟩ := (stops _).1 [] bs left h
  have done : rest = left := by
    cases steps with
    | zero => cases hs
    | succ steps =>
      cases hs
      rfl
  exact ⟨pre, t, hp, ht, by rw [done, List.append_assoc]⟩

/-- One value at the front of a text is told from what follows it. -/
theorem ValueText.append_inj {t t' rest rest' : Bytes} (h : ValueText t) (h' : ValueText t')
    (hr : EndsNumber rest) (hr' : EndsNumber rest') (he : t ++ rest = t' ++ rest') :
    t = t' ∧ rest = rest' := by
  have skimmed := skimValue_of_valueText h (Nat.le_max_left _ t'.length) hr
  rw [he, skimValue_of_valueText h' (Nat.le_max_right _ _) hr'] at skimmed
  have same := Except.ok.inj skimmed
  rw [same] at he
  exact ⟨List.append_cancel_right he, same.symm⟩

/-! ## Texts -/

/-- Nothing may follow but blanks. -/
theorem readEnd_eq_ok_iff {bs : Bytes} : readEnd bs = .ok () ↔ Blank bs := by
  rw [← skipBlank_eq_nil_iff, readEnd]
  cases skipBlank bs <;> simp

/-- A whole text is read if nothing but blanks is left of it. -/
theorem readWhole_eq_ok_iff {α : Type} {reader : Nat → Reader α} {input : Bytes} {x : α} :
    readWhole reader input = .ok x ↔
      ∃ left, reader input.length input = .ok (x, left) ∧ Blank left := by
  rw [readWhole, readWholeAs]
  cases hr : reader input.length input with
  | error f => simp
  | ok r =>
    obtain ⟨y, left⟩ := r
    cases he : readEnd left with
    | error f =>
      have more : ¬Blank left := by simp [← readEnd_eq_ok_iff, he]
      simp [he, more]
    | ok u =>
      have done : Blank left := readEnd_eq_ok_iff.mp he
      constructor
      · intro h
        simp only [he] at h
        obtain rfl := Except.ok.inj h
        exact ⟨left, rfl, done⟩
      · rintro ⟨left', h, -⟩
        obtain ⟨rfl, -⟩ := Prod.mk.inj (Except.ok.inj h)
        simp only [he]

/-- Nothing is skipped before a value. -/
theorem ValueText.skipBlank_append {t : Bytes} (h : ValueText t) (rest : Bytes) :
    skipBlank (t ++ rest) = t ++ rest := by
  obtain ⟨b, bs, rfl, hb⟩ := h.eq_cons
  exact skipBlank_cons hb.1 _

private theorem skimText_append {t : Bytes} (h : ValueText t) (ht : Utf8.IsText t) {limit : Nat}
    (hl : t.length ≤ limit) {pre rest : Bytes} (hp : Blank pre) (hr : EndsNumber rest) :
    skimText limit (pre ++ (t ++ rest)) = .ok (t, rest) := by
  obtain ⟨s, hs⟩ := Utf8.isText_iff.mp ht
  have kept : (t ++ rest).take ((t ++ rest).length - rest.length) = t := by simp
  have skipped := (hp.skipBlank_append (t ++ rest)).trans (h.skipBlank_append rest)
  simp only [skimText, skipped, skimValue_of_valueText h hl hr, bind, Except.bind, kept, hs]

private theorem eq_append_of_skimText {limit : Nat} {bs kept rest : Bytes}
    (h : skimText limit bs = .ok (kept, rest)) :
    ∃ pre, Blank pre ∧ ValueText kept ∧ Utf8.IsText kept ∧ bs = pre ++ (kept ++ rest) := by
  obtain ⟨pre, hp, he⟩ := exists_blank_append bs
  obtain ⟨left, hs, h⟩ := eq_ok_of_bind_eq_ok h
  obtain ⟨between, t, hb, ht, hx⟩ := valueText_of_skimValue hs
  have tight : between = [] := hb.eq_nil (by rw [← hx, skipBlank_skipBlank])
  have taken : (skipBlank bs).take ((skipBlank bs).length - left.length) = t := by
    rw [hx, tight]
    simp
  rw [taken] at h
  dsimp only at h
  split at h
  · next s hd =>
    cases h
    refine ⟨pre, hp, ht, Utf8.isText_iff.mpr ⟨s, hd⟩, ?_⟩
    rw [he, hx, tight]
    rfl
  · cases h

/-- The text that is kept of a byte string is the one value in it, in UTF-8 and between blanks. -/
theorem textOf_eq_ok_iff {input kept : Bytes} : textOf input = .ok kept ↔
    ∃ pre post, Blank pre ∧ Blank post ∧ ValueText kept ∧ Utf8.IsText kept ∧
      input = pre ++ (kept ++ post) := by
  rw [textOf, readWhole_eq_ok_iff]
  constructor
  · rintro ⟨post, h, hpost⟩
    obtain ⟨pre, hp, hv, ht, he⟩ := eq_append_of_skimText h
    exact ⟨pre, post, hp, hpost, hv, ht, he⟩
  · rintro ⟨pre, post, hp, hpost, hv, ht, rfl⟩
    have room : kept.length ≤ (pre ++ (kept ++ post)).length := by
      simp only [List.length_append]
      omega
    exact ⟨post, skimText_append hv ht room hp hpost.ends, hpost⟩

end SchemaDoc.Json
