import SchemaDoc.Proofs.Json.Printed

/-!
# Members of objects

The text of an object has its members in one way only. So an object that is put together from keys
and values has just these members, whatever the values say and whatever wrote them, as long as each
of them is one value by the grammar.
-/

namespace SchemaDoc.Json

/-! ## Telling parts apart -/

private theorem Blank.append_inj {pre pre' rest rest' : Bytes} (h : Blank pre) (h' : Blank pre')
    (hr : skipBlank rest = rest) (hr' : skipBlank rest' = rest')
    (he : pre ++ rest = pre' ++ rest') : pre = pre' ∧ rest = rest' := by
  have same : rest = rest' := by
    rw [← hr, ← h.skipBlank_append, he, h'.skipBlank_append, hr']
  subst same
  exact ⟨List.append_cancel_right he, rfl⟩

private theorem StringText.append_inj {t t' rest rest' : Bytes} (h : StringText t)
    (h' : StringText t') (he : t ++ rest = t' ++ rest') : t = t' ∧ rest = rest' := by
  have skimmed := h.skimString rest
  rw [he, h'.skimString] at skimmed
  obtain rfl := Except.ok.inj skimmed
  exact ⟨List.append_cancel_right he, rfl⟩

private theorem SeparatorText.append_inj {first : Bool} {sep sep' rest rest' : Bytes}
    (h : SeparatorText first sep) (h' : SeparatorText first sep') (hr : skipBlank rest = rest)
    (hr' : skipBlank rest' = rest') (he : sep ++ rest = sep' ++ rest') : rest = rest' := by
  cases h with
  | first hp =>
    cases h' with
    | first hp' => exact (hp.append_inj hp' hr hr' he).2
  | comma hp hq =>
    cases h' with
    | comma hp' hq' =>
      have comma (bs : Bytes) : skipBlank (ascii ',' :: bs) = ascii ',' :: bs :=
        skipBlank_cons (by decide) bs
      rw [List.append_assoc, List.append_assoc] at he
      have behind := (hp.append_inj hp' (comma _) (comma _) he).2
      exact (hq.append_inj hq' hr hr' (List.cons.inj behind).2).2

private theorem SeparatorText.ne_closing {bracket : Bracket} {first : Bool}
    {sep pre bs rest : Bytes}
    {b : UInt8} (h : SeparatorText first sep) (hp : Blank pre) (hb : isBlank b = false)
    (hc : b ≠ bracket.closing) : sep ++ b :: bs ≠ pre ++ bracket.closing :: rest := by
  have closing := skipBlank_closing bracket rest
  intro he
  cases h with
  | first hs =>
    exact hc (List.cons.inj (hs.append_inj hp (skipBlank_cons hb bs) closing he).2).1
  | comma hs hs' =>
    rw [List.append_assoc] at he
    have comma := (List.cons.inj (hs.append_inj hp (skipBlank_cons (by decide) _) closing he).2).1
    cases bracket <;> exact absurd comma (by decide)

private theorem Parts.append_inj {α : Type} {text : α → Bytes → Prop} {bracket : Bracket}
    (start : ∀ x t, text x t → ∃ b bs, t = b :: bs ∧ isBlank b = false ∧ b ≠ bracket.closing)
    (each : ∀ {x x' t t' rest rest'}, text x t → text x' t' → EndsNumber rest →
      EndsNumber rest' → t ++ rest = t' ++ rest' → x = x' ∧ rest = rest')
    {first : Bool} {xs xs' : List α} {t t' rest rest' : Bytes} (h : Parts text bracket first xs t)
    (h' : Parts text bracket first xs' t') (he : t ++ rest = t' ++ rest') :
    xs = xs' ∧ rest = rest' := by
  -- Neither a part nor a closing bracket starts with a blank, so blanks in front end in one place.
  have solid {t : Bytes} {x : α} (ht : text x t) (bs : Bytes) : skipBlank (t ++ bs) = t ++ bs := by
    obtain ⟨b, bs', rfl, hb, -⟩ := start x t ht
    exact skipBlank_cons hb _
  have closing (bs : Bytes) := skipBlank_closing bracket bs
  induction h generalizing xs' t' with
  | close hp =>
    cases h' with
    | close hp' =>
      simp only [List.append_assoc, List.cons_append, List.nil_append] at he
      exact ⟨rfl, (List.cons.inj (hp.append_inj hp' (closing _) (closing _) he).2).2⟩
    | part hs ht _ =>
      obtain ⟨b, bs, rfl, hb, hc⟩ := start _ _ ht
      simp only [List.append_assoc, List.cons_append, List.nil_append] at he
      exact absurd he.symm (hs.ne_closing hp hb hc)
  | part hs ht ha ih =>
    cases h' with
    | close hp =>
      obtain ⟨b, bs, rfl, hb, hc⟩ := start _ _ ht
      simp only [List.append_assoc, List.cons_append, List.nil_append] at he
      exact absurd he (hs.ne_closing hp hb hc)
    | part hs' ht' ha' =>
      simp only [List.append_assoc] at he
      have parts := hs.append_inj hs' (solid ht _) (solid ht' _) he
      obtain ⟨rfl, behind⟩ := each ht ht' (ha.endsNumber rest) (ha'.endsNumber rest') parts
      obtain ⟨rfl, rfl⟩ := ih ha' behind
      exact ⟨rfl, rfl⟩

/-! ## Objects -/

/-- A key as it is written, with its quotes. -/
def WrittenKey (k t : Bytes) : Prop := StringText t ∧ k = ascii '"' :: t

/-- A value as it is written. -/
def WrittenValue (v t : Bytes) : Prop := ValueText t ∧ v = t

/-- An object and nothing more, which has just these members, each a key and a value as they are
written. -/
def ObjectText (members : List (Bytes × Bytes)) (t : Bytes) : Prop :=
  ∃ inside, t = ascii '\x7b' :: inside ∧
    Parts (MemberText WrittenKey WrittenValue) .table true members inside

private theorem memberText_append_inj {m m' : Bytes × Bytes} {t t' rest rest' : Bytes}
    (h : MemberText WrittenKey WrittenValue m t) (h' : MemberText WrittenKey WrittenValue m' t')
    (hr : EndsNumber rest) (hr' : EndsNumber rest') (he : t ++ rest = t' ++ rest') :
    m = m' ∧ rest = rest' := by
  have colon (bs : Bytes) : skipBlank (ascii ':' :: bs) = ascii ':' :: bs :=
    skipBlank_cons (by decide) bs
  cases h with
  | intro hk hb hp hv =>
    cases h' with
    | intro hk' hb' hp' hv' =>
      obtain ⟨key, rfl⟩ := hk
      obtain ⟨key', rfl⟩ := hk'
      obtain ⟨value, rfl⟩ := hv
      obtain ⟨value', rfl⟩ := hv'
      simp only [List.append_assoc, List.cons_append, List.cons.injEq, true_and] at he
      obtain ⟨rfl, after⟩ := key.append_inj key' he
      have behind := (List.cons.inj (hb.append_inj hb' (colon _) (colon _) after).2).2
      have values :=
        (hp.append_inj hp' (value.skipBlank_append _) (value'.skipBlank_append _) behind).2
      obtain ⟨rfl, rfl⟩ := value.append_inj value' hr hr' values
      exact ⟨rfl, rfl⟩

private theorem ObjectText.unique {members members' : List (Bytes × Bytes)} {t : Bytes}
    (h : ObjectText members t) (h' : ObjectText members' t) : members = members' := by
  obtain ⟨inside, rfl, parts⟩ := h
  obtain ⟨inside', he, parts'⟩ := h'
  have same : inside ++ [] = inside' ++ [] := by rw [(List.cons.inj he).2]
  refine (parts.append_inj ?_ memberText_append_inj parts' same).1
  intro m t hm
  cases hm
  exact ⟨_, _, rfl, by decide, by decide⟩

/-- The text of an object of some members, with any gap before each member, any space before each
value and anything before the closing bracket. -/
def structText (gap space close : Bytes) (members : List (String × Bytes)) : Bytes :=
  ascii '\x7b' :: (laid gap true
    (members.map fun m ↦ printString m.1 ++ ascii ':' :: (space ++ m.2)) ++
      (close ++ [ascii '\x7d']))

/-- The key and the value of a member as they are written. -/
def writtenMember (m : String × Bytes) : Bytes × Bytes := (printString m.1, m.2)

/-- An object that is put together from values has just the members that were given. -/
theorem objectText_structText_iff {gap space close : Bytes} (hg : Blank gap) (hs : Blank space)
    (hc : Blank close) {members : List (String × Bytes)} (values : ∀ m ∈ members, ValueText m.2)
    {found : List (Bytes × Bytes)} :
    ObjectText found (structText gap space close members) ↔
      found = members.map writtenMember := by
  have given : ObjectText (members.map writtenMember) (structText gap space close members) := by
    have member (m : Bytes × Bytes) (hm : m ∈ members.map writtenMember) :
        MemberText WrittenKey WrittenValue m (m.1 ++ ascii ':' :: (space ++ m.2)) := by
      obtain ⟨⟨k, v⟩, given, rfl⟩ := List.mem_map.mp hm
      exact .intro ⟨(spellsKey k).plain.kind, printString_eq k⟩ blank_nil hs
        ⟨values (k, v) given, rfl⟩
    have parts := Parts.laid hg hc member .table true
    rw [List.map_map] at parts
    exact ⟨_, rfl, parts⟩
  constructor
  · intro h
    exact h.unique given
  · rintro rfl
    exact given

end SchemaDoc.Json
