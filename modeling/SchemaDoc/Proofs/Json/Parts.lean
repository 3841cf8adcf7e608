import SchemaDoc.Proofs.Json.Spelling

/-!
# Parts of arrays and objects

What stands inside a bracket is a row of parts. A value that was read is spelled by its own bytes:
they are one value by the grammar, in UTF-8, and are read as the same value wherever they stand.
An array or an object is spelled by the spellings of its parts, however these are laid out.
-/

namespace SchemaDoc.Json

/-! ## Texts of parts -/

/-- What stands inside a bracket from the first of some parts on, or from behind a part, each part
being a text of what it stands for. -/
inductive Parts {α : Type} (text : α → Bytes → Prop) (bracket : Bracket) :
    Bool → List α → Bytes → Prop where
  /-- The closing bracket. -/
  | close {first : Bool} {pre : Bytes} (h : Blank pre) :
    Parts text bracket first [] (pre ++ [bracket.closing])
  /-- A part and what follows it. -/
  | part {first : Bool} {sep t after : Bytes} {x : α} {xs : List α} (hs : SeparatorText first sep)
    (ht : text x t) (ha : Parts text bracket false xs after) :
    Parts text bracket first (x :: xs) (sep ++ (t ++ after))

/-- A member of an object: its key, a colon and its value, with blanks around the colon. -/
inductive MemberText {κ α : Type} (key : κ → Bytes → Prop) (text : α → Bytes → Prop) :
    κ × α → Bytes → Prop where
  /-- A key, blanks, a colon, blanks and a value. -/
  | intro {k : κ} {x : α} {t before pre v : Bytes} (hk : key k t) (hb : Blank before)
    (hp : Blank pre) (hv : text x v) :
    MemberText key text (k, x) (ascii '"' :: (t ++ (before ++ ascii ':' :: (pre ++ v))))

/-- Blanks are single characters. -/
theorem Blank.isText {pre : Bytes} (h : Blank pre) : Utf8.IsText pre := by
  apply Utf8.isText_of_ascii
  intro b hb
  have blank := h b hb
  simp only [isBlank, Bool.or_eq_true, decide_eq_true_eq] at blank
  rcases blank with ((rfl | rfl) | rfl) | rfl <;> decide

/-- Blanks behind what stands before a part. -/
theorem SeparatorText.append {first : Bool} {sep pre : Bytes} (h : SeparatorText first sep)
    (hp : Blank pre) : SeparatorText first (sep ++ pre) := by
  cases h with
  | first hs => exact .first (hs.append hp)
  | comma hs hs' =>
    rw [List.append_assoc]
    exact .comma hs (hs'.append hp)

private theorem SeparatorText.isText {first : Bool} {sep : Bytes} (h : SeparatorText first sep) :
    Utf8.IsText sep := by
  cases h with
  | first hs => exact hs.isText
  | comma hs hs' => exact hs.isText.append (hs'.isText.cons (by decide))

namespace Parts

variable {α : Type} {text text' : α → Bytes → Prop} {bracket : Bracket} {first : Bool}
  {xs : List α} {t : Bytes}

/-- Texts of a kind are texts of another kind. -/
theorem imp (h : Parts text bracket first xs t) (each : ∀ x t, text x t → text' x t) :
    Parts text' bracket first xs t := by
  induction h with
  | close hp => exact .close hp
  | part hs ht _ ih => exact .part hs (each _ _ ht) ih

/-- What stands inside a bracket is UTF-8 if its parts are. -/
theorem isText (h : Parts text bracket first xs t) (each : ∀ x t, text x t → Utf8.IsText t) :
    Utf8.IsText t := by
  have closing : Utf8.IsText [bracket.closing] := by
    cases bracket <;> exact Utf8.isText_nil.cons (by decide)
  induction h with
  | close hp => exact hp.isText.append closing
  | part hs ht _ ih => exact hs.isText.append ((each _ _ ht).append ih)

/-- What stands inside the bracket of an array keeps to the grammar. -/
theorem insideText_list (h : Parts text .list first xs t) (each : ∀ x t, text x t → ValueText t) :
    InsideText .list first t := by
  induction h with
  | close hp => exact .close hp
  | part hs ht _ ih => exact .part hs .list blank_nil (each _ _ ht) ih

/-- What stands inside the bracket of an object keeps to the grammar. -/
theorem insideText_table {κ : Type} {key : κ → Bytes → Prop} {xs : List (κ × α)}
    (h : Parts (MemberText key text) .table first xs t) (keys : ∀ k t, key k t → StringText t)
    (each : ∀ x t, text x t → ValueText t) : InsideText .table first t := by
  induction h with
  | close hp => exact .close hp
  | part hs ht _ ih =>
    cases ht with
    | intro hk hb hp hv =>
      have inside := InsideText.part hs (.table (keys _ _ hk) hb) hp (each _ _ hv) ih
      simpa using inside

/-- There are fewer parts than bytes. -/
theorem length_lt (h : Parts text bracket first xs t) (each : ∀ x t, text x t → t ≠ []) :
    xs.length < t.length := by
  induction h with
  | close => simp
  | @part _ _ t _ _ _ _ ht _ ih =>
    have := List.length_pos_iff.mpr (each _ _ ht)
    simp only [List.length_append, List.length_cons]
    omega

/-- A number ends before what follows a part. -/
theorem endsNumber (h : Parts text bracket false xs t) (rest : Bytes) :
    EndsNumber (t ++ rest) := by
  cases h with
  | close hp =>
    rw [List.append_assoc]
    exact hp.endsNumber_closing bracket rest
  | part hs =>
    rw [List.append_assoc]
    exact hs.endsNumber _

end Parts

/-! ## Stepping through arrays -/

private theorem nextItem_separator {first : Bool} {sep : Bytes} (h : SeparatorText first sep)
    {b : UInt8}
    (hb : StartsValue b) (bs : Bytes) : nextItem first (sep ++ b :: bs) = .ok (some (b :: bs)) := by
  have hs := skipBlank_cons hb.1 bs
  cases h with
  | first hp =>
    rw [nextItem, hp.skipBlank_append, hs]
    dsimp only
    rw [if_neg hb.2, if_pos rfl]
  | comma hp hp' =>
    have hc := skipBlank_cons (b := ascii ',') (by decide)
    have hn : ascii ',' ≠ ascii ']' := by decide
    rw [List.append_assoc, nextItem, hp.skipBlank_append, List.cons_append, hc]
    dsimp only
    rw [if_neg hn, if_neg Bool.false_ne_true, if_pos rfl, hp'.skipBlank_append, hs]
    dsimp only
    rw [if_neg hb.2]

/-- What was stepped over before an item may stand there. -/
theorem exists_of_nextItem {first : Bool} {bs rest : Bytes}
    (h : nextItem first bs = .ok (some rest)) : ∃ sep, SeparatorText first sep ∧
      bs = sep ++ rest := by
  obtain ⟨pre, hp, he⟩ := exists_blank_append bs
  unfold nextItem at h
  split at h
  · cases h
  next b after hs =>
  rw [hs] at he
  split at h
  · cases h
  split at h
  · next hf =>
    cases h
    subst hf
    exact ⟨pre, .first hp, he⟩
  split at h
  · next hf hb =>
    obtain ⟨post, hpost, hx⟩ := exists_blank_append after
    split at h
    · cases h
    next c after' hs' =>
    split at h
    · cases h
    · cases h
      rw [Bool.not_eq_true] at hf
      subst hf
      exact ⟨_, .comma hp hpost, by rw [he, hb, hx, hs']; simp⟩
  · cases h

private theorem exists_of_closeList {bs rest : Bytes} (h : closeList bs = .ok rest) :
    ∃ pre, Blank pre ∧ bs = pre ++ ascii ']' :: rest := by
  obtain ⟨pre, hp, he⟩ := exists_blank_append bs
  unfold closeList at h
  split at h
  · cases h
  next b after hs =>
  split at h
  · next hb =>
    cases h
    exact ⟨pre, hp, by rw [he, hs, hb]⟩
  split at h
  · split at h
    · cases h
    · split at h <;> cases h
  · cases h

/-- Items are read back from their texts. -/
theorem Parts.readItems {α : Type} {text : α → Bytes → Prop} {item : Reader α}
    (start : ∀ x t, text x t → ∃ b bs, t = b :: bs ∧ StartsValue b)
    (each : ∀ x t rest, text x t → EndsNumber rest → item (t ++ rest) = .ok (x, rest))
    {first : Bool} {xs : List α} {t : Bytes} (h : Parts text .list first xs t) (rest : Bytes)
    {limit : Nat} (hl : xs.length < limit) (done : List α) :
    ∃ left, readItems item limit first done (t ++ rest) = .ok (done.reverse ++ xs, left) ∧
      closeList left = .ok rest := by
  induction h generalizing limit done with
  | @close first pre hp =>
    cases limit with
    | zero => exact absurd hl (Nat.not_lt_zero _)
    | succ limit =>
      have closing : skipBlank (pre ++ [Bracket.list.closing] ++ rest) = ascii ']' :: rest := by
        rw [List.append_assoc, hp.skipBlank_append]
        rfl
      have stop : nextItem first (pre ++ [Bracket.list.closing] ++ rest) = .ok none := by
        rw [nextItem, closing]
        rfl
      refine ⟨_, by rw [Json.readItems, stop, List.append_nil], ?_⟩
      rw [closeList, closing]
      rfl
  | @part first sep t after x xs hs ht ha ih =>
    cases limit with
    | zero => exact absurd hl (Nat.not_lt_zero _)
    | succ limit =>
      obtain ⟨left, read, close⟩ := ih (Nat.lt_of_succ_lt_succ hl) (x :: done)
      obtain ⟨b, bs, hb, starts⟩ := start x t ht
      have next : nextItem first (sep ++ (t ++ after) ++ rest) =
          .ok (some (t ++ (after ++ rest))) := by
        rw [List.append_assoc, List.append_assoc, hb]
        exact nextItem_separator hs starts _
      refine ⟨left, ?_, close⟩
      rw [Json.readItems, next]
      dsimp only
      rw [each x t _ ht (ha.endsNumber rest)]
      dsimp only
      rw [read]
      simp

/-- Items that were read are spelled in front. -/
theorem parts_of_readItems {α : Type} {text : α → Bytes → Prop} {item : Reader α}
    (each : ∀ bs x left, item bs = .ok (x, left) →
      ∃ pre t, Blank pre ∧ text x t ∧ bs = pre ++ (t ++ left))
    {limit : Nat} {first : Bool} {done xs : List α} {bs after left : Bytes}
    (h : readItems item limit first done bs = .ok (xs, after)) (hc : closeList after = .ok left) :
    ∃ new t, xs = done.reverse ++ new ∧ Parts text .list first new t ∧ bs = t ++ left := by
  induction limit generalizing first done bs with
  | zero => cases h
  | succ limit ih =>
    rw [readItems] at h
    split at h
    · cases h
    · cases h
      obtain ⟨pre, hp, rfl⟩ := exists_of_closeList hc
      exact ⟨[], _, by simp, .close hp, by simp [Bracket.closing]⟩
    · next rest hn =>
      split at h
      · cases h
      next x behind hx =>
      obtain ⟨sep, hs, rfl⟩ := exists_of_nextItem hn
      obtain ⟨pre, t, hp, ht, rfl⟩ := each _ _ _ hx
      obtain ⟨new, ts, rfl, parts, rfl⟩ := ih h
      exact ⟨x :: new, _, by simp, .part (hs.append hp) ht parts, by simp⟩

/-- An array that was read behind its opening bracket is spelled in front. -/
theorem parts_of_readList {text : Value → Bytes → Prop} {value : Reader Value}
    (each : ∀ bs v left, value bs = .ok (v, left) →
      ∃ pre t, Blank pre ∧ text v t ∧ bs = pre ++ (t ++ left))
    {limit : Nat} {items : List Value} {bs left : Bytes}
    (h : readList limit value bs = .ok (items, left)) :
    ∃ t, Parts text .list true items t ∧ bs = t ++ left := by
  obtain ⟨⟨xs, after⟩, read, h⟩ := eq_ok_of_bind_eq_ok h
  obtain ⟨rest, close, h⟩ := eq_ok_of_bind_eq_ok h
  obtain ⟨rfl, rfl⟩ := Prod.mk.inj (Except.ok.inj h)
  obtain ⟨new, t, rfl, parts, he⟩ := parts_of_readItems each read close
  exact ⟨t, parts, he⟩

/-! ## Stepping through objects -/

private theorem nextKey_separator {first : Bool} {sep : Bytes} (h : SeparatorText first sep)
    (bs : Bytes) : nextKey first (sep ++ ascii '"' :: bs) = .ok (some bs) := by
  have hq := skipBlank_cons (b := ascii '"') (by decide) bs
  cases h with
  | first hp =>
    rw [nextKey, hp.skipBlank_append, hq]
    rfl
  | comma hp hp' =>
    have hc := skipBlank_cons (b := ascii ',') (by decide)
    have hn : ascii ',' ≠ ascii '\x7d' := by decide
    rw [List.append_assoc, nextKey, hp.skipBlank_append, List.cons_append, hc]
    dsimp only
    rw [if_neg hn, if_neg Bool.false_ne_true, if_pos rfl, hp'.skipBlank_append, hq]
    rfl

private theorem exists_of_nextKey {first : Bool} {bs rest : Bytes}
    (h : nextKey first bs = .ok (some rest)) : ∃ sep, SeparatorText first sep ∧
      bs = sep ++ ascii '"' :: rest := by
  have opened {b : UInt8} {after : Bytes} (h : (openKey (b :: after)).map some = .ok (some rest)) :
      b :: after = ascii '"' :: rest := by
    obtain ⟨rest', ho, he⟩ := eq_ok_of_map_eq_ok h
    obtain rfl := Option.some.inj he
    exact eq_cons_of_openKey ho
  obtain ⟨pre, hp, he⟩ := exists_blank_append bs
  unfold nextKey at h
  split at h
  · cases h
  next b after hs =>
  rw [hs] at he
  split at h
  · cases h
  split at h
  · next hf =>
    subst hf
    exact ⟨pre, .first hp, by rw [he, opened h]⟩
  split at h
  · next hf hb =>
    obtain ⟨post, hpost, hx⟩ := exists_blank_append after
    split at h
    · cases h
    next c after' hs' =>
    split at h
    · cases h
    · rw [Bool.not_eq_true] at hf
      subst hf
      exact ⟨_, .comma hp hpost, by rw [he, hb, hx, hs', opened h]; simp⟩
  · cases h

private theorem exists_of_closeTable {bs rest : Bytes} (h : closeTable bs = .ok rest) :
    ∃ pre, Blank pre ∧ bs = pre ++ ascii '\x7d' :: rest := by
  obtain ⟨pre, hp, he⟩ := exists_blank_append bs
  unfold closeTable at h
  split at h
  · cases h
  next b after hs =>
  split at h
  · next hb =>
    cases h
    exact ⟨pre, hp, by rw [he, hs, hb]⟩
  · split at h <;> cases h

/-- A key behind its opening quote, with its closing one. -/
structure SpellsKey (k : String) (t : Bytes) : Prop where
  /-- The bytes are a string in UTF-8. -/
  plain : Plain StringText t
  /-- The bytes are read as the key. -/
  reads : ∀ rest, EndsNumber rest → readString (t ++ rest) = .ok (k, rest)

/-- Members are read back from their texts. Blanks before a value do not matter to its reader. -/
theorem Parts.readMembers {α : Type} {text : α → Bytes → Prop} {value : Reader α}
    (each : ∀ x pre t rest, text x t → Blank pre → EndsNumber rest →
      value (pre ++ (t ++ rest)) = .ok (x, rest))
    {first : Bool} {ms : List (String × α)} {t : Bytes}
    (h : Parts (MemberText SpellsKey text) .table first ms t) (rest : Bytes) {limit : Nat}
    (hl : ms.length < limit) (done : List (String × α)) :
    ∃ left, readMembers value limit first done (t ++ rest) = .ok (done.reverse ++ ms, left) ∧
      closeTable left = .ok rest := by
  induction h generalizing limit done with
  | @close first pre hp =>
    cases limit with
    | zero => exact absurd hl (Nat.not_lt_zero _)
    | succ limit =>
      have closing : skipBlank (pre ++ [Bracket.table.closing] ++ rest) =
          ascii '\x7d' :: rest := by
        rw [List.append_assoc, hp.skipBlank_append]
        rfl
      have stop : nextKey first (pre ++ [Bracket.table.closing] ++ rest) = .ok none := by
        rw [nextKey, closing]
        rfl
      refine ⟨_, by rw [Json.readMembers, stop, List.append_nil], ?_⟩
      rw [closeTable, closing]
      rfl
  | @part first sep t after m ms hs ht ha ih =>
    cases limit with
    | zero => exact absurd hl (Nat.not_lt_zero _)
    | succ limit =>
      obtain ⟨left, read, close⟩ := ih (Nat.lt_of_succ_lt_succ hl) (m :: done)
      refine ⟨left, ?_, close⟩
      cases ht with
      | @intro k x t before pre v hk hb hp hv =>
        have colon := hb.endsNumber (endsNumber_cons (b := ascii ':') (by decide) (by decide)
          (by decide) (pre ++ (v ++ (after ++ rest))))
        simp only [List.append_assoc, List.cons_append]
        rw [Json.readMembers, nextKey_separator hs]
        dsimp only
        rw [hk.reads _ colon]
        dsimp only
        rw [readColon_append hb]
        dsimp only
        rw [each x pre v _ hv hp (ha.endsNumber rest)]
        dsimp only
        rw [read]
        simp

private theorem parts_of_readMembers {α : Type} {text : α → Bytes → Prop} {value : Reader α}
    (each : ∀ bs x left, value bs = .ok (x, left) →
      ∃ pre t, Blank pre ∧ text x t ∧ bs = pre ++ (t ++ left))
    {limit : Nat} {first : Bool} {done ms : List (String × α)} {bs after left : Bytes}
    (h : readMembers value limit first done bs = .ok (ms, after))
    (hc : closeTable after = .ok left) :
    ∃ new t, ms = done.reverse ++ new ∧ Parts (MemberText SpellsKey text) .table first new t ∧
      bs = t ++ left := by
  induction limit generalizing first done bs with
  | zero => cases h
  | succ limit ih =>
    rw [readMembers] at h
    split at h
    · cases h
    · cases h
      obtain ⟨pre, hp, rfl⟩ := exists_of_closeTable hc
      exact ⟨[], _, by simp, .close hp, by simp [Bracket.closing]⟩
    · next rest hn =>
      split at h
      · cases h
      next k behind hk =>
      split at h
      · cases h
      next valued hcolon =>
      split at h
      · cases h
      next x others hx =>
      obtain ⟨sep, hs, rfl⟩ := exists_of_nextKey hn
      obtain ⟨t, plain, rfl, reads⟩ := spelled_of_readString hk
      obtain ⟨before, hb, rfl⟩ := exists_of_readColon hcolon
      obtain ⟨pre, v, hp, hv, rfl⟩ := each _ _ _ hx
      obtain ⟨new, ts, rfl, parts, rfl⟩ := ih h
      exact ⟨(k, x) :: new, _, by simp, .part hs (.intro ⟨plain, reads⟩ hb hp hv) parts, by simp⟩

/-- An object that was read behind its opening bracket is spelled in front. -/
theorem parts_of_readTable {text : Value → Bytes → Prop} {value : Reader Value}
    (each : ∀ bs v left, value bs = .ok (v, left) →
      ∃ pre t, Blank pre ∧ text v t ∧ bs = pre ++ (t ++ left))
    {limit : Nat} {members : List (String × Value)} {bs left : Bytes}
    (h : readTable limit value bs = .ok (members, left)) :
    ∃ t, Parts (MemberText SpellsKey text) .table true members t ∧ bs = t ++ left := by
  obtain ⟨⟨ms, after⟩, read, h⟩ := eq_ok_of_bind_eq_ok h
  obtain ⟨rest, close, h⟩ := eq_ok_of_bind_eq_ok h
  obtain ⟨rfl, rfl⟩ := Prod.mk.inj (Except.ok.inj h)
  obtain ⟨new, t, rfl, parts, he⟩ := parts_of_readMembers each read close
  exact ⟨t, parts, he⟩

end SchemaDoc.Json
