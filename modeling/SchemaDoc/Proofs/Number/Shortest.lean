import SchemaDoc.Number.Shortest

/-!
# Laws of shortest decimals

The shortest decimal of a double is zero only if the double is, so its digits never start with a
zero that says nothing.
-/

namespace SchemaDoc.Double

private theorem unitsAt_pos {rank : Nat} (h : 0 < rank) : 0 < unitsAt rank := by
  unfold unitsAt
  split
  · exact h
  · rw [Nat.shiftLeft_eq]
    exact Nat.mul_pos (Nat.add_pos_left (by decide) _) (Nat.pow_pos (by decide))

private theorem roundsTo_zero {rank : Nat} (h : 0 < rank) {d : Nat} (hd : 0 < d) :
    roundsTo rank 0 d = false := by
  have same : rank - 1 + 1 = rank := by omega
  have low : 0 < halfway (rank - 1) * d := by
    apply Nat.mul_pos _ hd
    rw [halfway, same]
    exact Nat.add_pos_right _ (unitsAt_pos h)
  unfold roundsTo
  dsimp only
  split
  · simp only [Bool.and_eq_false_iff, decide_eq_false_iff_not]
    exact .inl (by omega)
  · simp

private theorem digits_pos_of_onGrid? {rank : Nat} (h : 0 < rank) {exponent : Int} {d : Decimal}
    (hd : onGrid? rank exponent = some d) : 0 < d.digits := by
  unfold onGrid? at hd
  extract_lets up down value step below rest belowFits aboveFits belowNearer at hd
  have positive : 0 < down := by
    by_cases he : 0 ≤ exponent
    · simp [down, he]
    · simp only [down, if_neg he]
      exact Nat.pow_pos (by decide)
  split at hd
  · next fits =>
    cases hd
    apply Nat.pos_of_ne_zero
    intro zero
    have none : belowFits = false := by
      simp only [belowFits]
      rw [show below = 0 from zero, Nat.zero_mul, roundsTo_zero h positive]
    simp [none] at fits
  split at hd
  · cases hd
    exact Nat.succ_pos _
  · cases hd

private theorem digits_pos_of_strip {fuel : Nat} {d : Decimal} (h : 0 < d.digits) :
    0 < (d.strip fuel).digits := by
  induction fuel generalizing d with
  | zero => exact h
  | succ fuel ih =>
    rw [Decimal.strip]
    split
    · exact ih (by simp only; omega)
    · exact h

/-- The shortest decimal of a rank has a digit other than zero, or is zero. -/
theorem shortest_cases (rank : Nat) : 0 < (shortest rank).digits ∨ shortest rank = ⟨0, 0⟩ := by
  have search {exponent : Int} {count : Nat} {d : Decimal} (h : 0 < rank)
      (hd : searchGrids rank exponent count = some d) : 0 < d.digits := by
    induction count generalizing exponent with
    | zero => cases hd
    | succ count ih =>
      rw [searchGrids] at hd
      split at hd
      · next d' hg =>
        cases hd
        exact digits_pos_of_onGrid? h hg
      · exact ih hd
  unfold shortest
  split
  · exact .inr rfl
  · next hr =>
    cases hs : searchGrids rank (firstExponent rank) 17 with
    | none => exact .inr rfl
    | some d => exact .inl (digits_pos_of_strip (search (Nat.pos_of_ne_zero hr) hs))

end SchemaDoc.Double
