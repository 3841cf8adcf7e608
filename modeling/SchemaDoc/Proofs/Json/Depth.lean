import SchemaDoc.Json.Reader

/-!
# Readers that allow fewer brackets

A reader that allows fewer brackets to be open at once answers as one that allows more, or refuses
the text for its nesting and for nothing else. So a text that is read with enough brackets allowed
can fail only for its nesting.
-/

namespace SchemaDoc.Json

/-- A reader answers as a wider one, or refuses the text for its nesting. -/
def Narrower {α : Type} (read wide : Reader α) : Prop :=
  ∀ bs, read bs = wide bs ∨ ∃ f, read bs = .error f ∧ f.cause = .tooDeep

namespace Narrower

variable {α β : Type}

/-- A reader answers as itself. -/
theorem refl (read : Reader α) : Narrower read read := fun _ ↦ .inl rfl

/-- A reader narrower than one that is narrower than a third is narrower than the third. -/
theorem trans {read wide wider : Reader α} (h : Narrower read wide) (h' : Narrower wide wider) :
    Narrower read wider := by
  intro bs
  rcases h bs with same | deep
  · rw [same]
    exact h' bs
  · exact .inr deep

private theorem map {read wide : Reader α} (h : Narrower read wide) (f : α × Bytes → β × Bytes) :
    Narrower (fun bs ↦ (read bs).map f) (fun bs ↦ (wide bs).map f) := by
  intro bs
  rcases h bs with same | ⟨e, he, hc⟩
  · exact .inl (by simp only [same])
  · exact .inr ⟨e, by simp only [he]; rfl, hc⟩

private theorem bind {read wide : Reader α} (h : Narrower read wide)
    (f : α × Bytes → Except Fault β) (bs : Bytes) : ((read bs).bind f = (wide bs).bind f) ∨
      ∃ e, (read bs).bind f = .error e ∧ e.cause = .tooDeep := by
  rcases h bs with same | ⟨e, he, hc⟩
  · exact .inl (by rw [same])
  · exact .inr ⟨e, by rw [he]; rfl, hc⟩

private theorem readItems {read wide : Reader α} (h : Narrower read wide) (limit : Nat)
    (first : Bool) (done : List α) :
    Narrower (Json.readItems read limit first done) (Json.readItems wide limit first done) := by
  induction limit generalizing first done with
  | zero => exact refl _
  | succ limit ih =>
    intro bs
    rw [Json.readItems, Json.readItems]
    split
    · exact .inl rfl
    · exact .inl rfl
    · next bs _ =>
      rcases h bs with same | ⟨e, he, hc⟩
      · rw [same]
        split
        · exact .inl rfl
        · exact ih _ _ _
      · exact .inr ⟨e, by rw [he], hc⟩

private theorem readMembers {read wide : Reader α} (h : Narrower read wide) (limit : Nat)
    (first : Bool) (done : List (String × α)) :
    Narrower (Json.readMembers read limit first done) (Json.readMembers wide limit first done) := by
  induction limit generalizing first done with
  | zero => exact refl _
  | succ limit ih =>
    intro bs
    rw [Json.readMembers, Json.readMembers]
    split
    · exact .inl rfl
    · exact .inl rfl
    split
    · exact .inl rfl
    split
    · exact .inl rfl
    · next bs _ =>
      rcases h bs with same | ⟨e, he, hc⟩
      · rw [same]
        split
        · exact .inl rfl
        · exact ih _ _ _
      · exact .inr ⟨e, by rw [he], hc⟩

private theorem readList {read wide : Reader Value} (h : Narrower read wide) (limit : Nat) :
    Narrower (Json.readList limit read) (Json.readList limit wide) :=
  (h.readItems limit true []).bind _

private theorem readTable {read wide : Reader Value} (h : Narrower read wide) (limit : Nat) :
    Narrower (Json.readTable limit read) (Json.readTable limit wide) :=
  (h.readMembers limit true []).bind _

end Narrower

section

variable {inner? wider? : Option (Reader Value)}

/-- Values are read by a narrower reader if their parts are, or if they may have none. -/
theorem narrower_readValueWith (limit : Nat)
    (h : ∀ read, inner? = some read → ∃ wide, wider? = some wide ∧ Narrower read wide) :
    Narrower (readValueWith limit inner?) (readValueWith limit wider?) := by
  intro bs
  rw [readValueWith, readValueWith]
  cases skipBlank bs with
  | nil => exact .inl rfl
  | cons b rest =>
    dsimp only
    by_cases hl : b = ascii '['
    · rw [if_pos hl, if_pos hl]
      cases inner? with
      | none => exact .inr ⟨_, rfl, rfl⟩
      | some read =>
        obtain ⟨wide, rfl, narrower⟩ := h read rfl
        exact (narrower.readList limit).map _ _
    rw [if_neg hl, if_neg hl]
    by_cases ht : b = ascii '\x7b'
    · rw [if_pos ht, if_pos ht]
      cases inner? with
      | none => exact .inr ⟨_, rfl, rfl⟩
      | some read =>
        obtain ⟨wide, rfl, narrower⟩ := h read rfl
        exact (narrower.readTable limit).map _ _
    · rw [if_neg ht, if_neg ht]
      exact .inl rfl

/-- Arrays are read by a narrower reader if their items are, or if they may have none. -/
theorem narrower_readListOnly (limit : Nat)
    (h : ∀ read, inner? = some read → ∃ wide, wider? = some wide ∧ Narrower read wide) :
    Narrower (readListOnly limit inner?) (readListOnly limit wider?) := by
  intro bs
  unfold readListOnly
  cases skipBlank bs with
  | nil => exact .inl rfl
  | cons b rest =>
    dsimp only
    by_cases hb : b = ascii '['
    · rw [if_pos hb, if_pos hb]
      cases inner? with
      | none => exact .inr ⟨_, rfl, rfl⟩
      | some read =>
        obtain ⟨wide, rfl, narrower⟩ := h read rfl
        exact narrower.readList limit rest
    · rw [if_neg hb, if_neg hb]
      exact .inl rfl

/-- Objects are read by a narrower reader if their values are, or if they may have none. -/
theorem narrower_readTableOnly (limit : Nat)
    (h : ∀ read, inner? = some read → ∃ wide, wider? = some wide ∧ Narrower read wide) :
    Narrower (readTableOnly limit inner?) (readTableOnly limit wider?) := by
  intro bs
  unfold readTableOnly
  cases skipBlank bs with
  | nil => exact .inl rfl
  | cons b rest =>
    dsimp only
    by_cases hb : b = ascii '\x7b'
    · rw [if_pos hb, if_pos hb]
      cases inner? with
      | none => exact .inr ⟨_, rfl, rfl⟩
      | some read =>
        obtain ⟨wide, rfl, narrower⟩ := h read rfl
        exact narrower.readTable limit rest
    · rw [if_neg hb, if_neg hb]
      exact .inl rfl

end

/-- The reader that allows fewer brackets is narrower. -/
theorem narrower_readValue (limit : Nat) {depth deeper : Nat} (hd : depth ≤ deeper) :
    Narrower (readValue limit depth) (readValue limit deeper) := by
  have step (depth : Nat) : Narrower (readValue limit depth) (readValue limit (depth + 1)) := by
    induction depth with
    | zero =>
      apply narrower_readValueWith
      rintro read ⟨⟩
    | succ depth ih =>
      apply narrower_readValueWith
      rintro read ⟨⟩
      exact ⟨_, rfl, ih⟩
  induction hd with
  | refl => exact .refl _
  | step _ ih => exact ih.trans (step _)

end SchemaDoc.Json
