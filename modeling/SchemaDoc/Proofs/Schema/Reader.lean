import SchemaDoc.Proofs.Json.Depth
import SchemaDoc.Proofs.Json.Locality
import SchemaDoc.Schema.Reader

/-!
# Objects that are read as schemas

At the top of a text the kind is taken out of the members as they are read, and below the top it is
looked up among members that were read before. An object that names its kind once is the same schema
in both places, and it is refused for nothing but its nesting.
-/

namespace SchemaDoc

/-! ## Kinds -/

namespace Kind

/-- The kind that a value names. -/
def named? : Value → Option Kind
  | .string name => ofName? name
  | _ => none

private theorem ofText_eq_ok_iff {s : String} {kind : Kind} :
    ofText s = .ok kind ↔ named? (.string s) = some kind := by
  rw [ofText, named?]
  cases ofName? s <;> simp

/-- The name of a kind is read where a value is that names it. -/
theorem readKind_eq_ok_iff {limit depth : Nat} {bs left : Bytes} {kind : Kind} :
    Schema.readKind bs = .ok (kind, left) ↔
      ∃ v, Json.readValue limit depth bs = .ok (v, left) ∧ named? v = some kind := by
  constructor
  · intro h
    obtain ⟨⟨s, rest⟩, hs, h⟩ := Json.eq_ok_of_bind_eq_ok h
    dsimp only at h
    cases hk : ofText s with
    | error cause =>
      rw [hk] at h
      cases h
    | ok k =>
      rw [hk] at h
      cases h
      exact ⟨.string s, Json.readStringOnly_eq_ok_iff.mp hs, ofText_eq_ok_iff.mp hk⟩
  · rintro ⟨v, hv, hk⟩
    cases v with
    | string s =>
      rw [Schema.readKind, Json.readStringOnly_eq_ok_iff.mpr hv]
      simp only [bind, Except.bind, ofText_eq_ok_iff.mpr hk]
    | null | bool | number | list | table => cases hk

/-- The kind among some members and the other members, if the kind is named there once; `kind?` was
found before. -/
def split (kind? : Option Kind) :
    List (String × Value) → Option (Kind × List (String × Value))
  | [] => kind?.map (·, [])
  | (key, v) :: members =>
    if key = "kind" then
      if kind?.isSome then none else (named? v).bind fun kind ↦ split (some kind) members
    else (split kind? members).map fun r ↦ (r.1, (key, v) :: r.2)

private theorem split_nil_eq_some_iff {kind? : Option Kind} {body : List (String × Value)}
    {kind : Kind} :
    split kind? [] = some (kind, body) ↔ kind? = some kind ∧ body = [] := by
  cases kind? <;> simp [split, eq_comm]

/-- A member is the kind, if that was not found before, or stays among the other members. -/
theorem split_cons_eq_some_iff {kind? : Option Kind} {key : String} {v : Value}
    {members body : List (String × Value)} {kind : Kind} :
    split kind? ((key, v) :: members) = some (kind, body) ↔
      (key = "kind" ∧ kind? = none ∧ ∃ k, named? v = some k ∧
        split (some k) members = some (kind, body)) ∨
      (key ≠ "kind" ∧ ∃ others, split kind? members = some (kind, others) ∧
        body = (key, v) :: others) := by
  rw [split]
  by_cases hk : key = "kind"
  · cases kind? <;> simp [hk, Option.bind_eq_some_iff]
  · rw [if_neg hk, Option.map_eq_some_iff]
    simp only [hk, false_and, ne_eq, not_false_eq_true, true_and, false_or]
    constructor
    · rintro ⟨r, hs, he⟩
      obtain ⟨rfl, rfl⟩ := Prod.mk.inj he
      exact ⟨r.2, hs, rfl⟩
    · rintro ⟨others, hs, rfl⟩
      exact ⟨_, hs, rfl⟩

private theorem ofValue_of_named? {v : Value} {kind : Kind} (h : named? v = some kind) :
    ofValue v = .ok kind := by
  cases v with
  | string s => exact ofText_eq_ok_iff.mpr h
  | null | bool | number | list | table => cases h

private theorem ofMembers_of_split {kind? : Option Kind} {members body : List (String × Value)}
    {kind : Kind} (h : split kind? members = some (kind, body)) :
    ofMembers kind? members = .ok kind := by
  induction members generalizing kind? body with
  | nil =>
    obtain ⟨rfl, -⟩ := split_nil_eq_some_iff.mp h
    rfl
  | cons m members ih =>
    obtain ⟨key, v⟩ := m
    rw [ofMembers]
    rcases split_cons_eq_some_iff.mp h with ⟨hkey, rfl, k, named, later⟩ | ⟨hkey, others, later, -⟩
    · rw [if_pos hkey, ofValue_of_named? named]
      exact ih later
    · rw [if_neg hkey]
      exact ih later

end Kind

/-! ## The top of a text -/

namespace Schema

variable {limit depth fuel : Nat} {first : Bool} {kind? : Option Kind}
  {done body : List (String × Value)} {bs left : Bytes} {kind : Kind} {draft : Draft}

private theorem readDraftMembers_succ_eq_ok_iff {value : Json.Reader Value} :
    readDraftMembers value (fuel + 1) first kind? done bs = .ok (draft, left) ↔
      (Json.nextKey first bs = .ok none ∧ Json.closeTable bs = .ok left ∧
        ∃ kind, kind? = some kind ∧ draft = ⟨kind, .inl done.reverse⟩) ∨
      ∃ key valued after, Json.StepsTo first bs key valued ∧
        ((key = "kind" ∧ kind? = none ∧ ∃ k, readKind valued = .ok (k, after) ∧
          readDraftMembers value fuel false (some k) done after = .ok (draft, left)) ∨
        (key ≠ "kind" ∧ ∃ v, value valued = .ok (v, after) ∧
          readDraftMembers value fuel false kind? ((key, v) :: done) after =
            .ok (draft, left))) := by
  constructor
  · intro h
    unfold readDraftMembers at h
    obtain ⟨next?, hn, h⟩ := Json.eq_ok_of_bind_eq_ok h
    cases next? with
    | none =>
      cases kind? with
      | none => cases h
      | some kind =>
        obtain ⟨rest, hc, h⟩ := Json.eq_ok_of_bind_eq_ok h
        cases h
        exact .inl ⟨hn, hc, kind, rfl, rfl⟩
    | some keyed =>
      obtain ⟨⟨key, coloned⟩, hs, h⟩ := Json.eq_ok_of_bind_eq_ok h
      dsimp only at h
      split at h
      · next hkey =>
        split at h
        · cases h
        next known =>
        obtain ⟨valued, hc, h⟩ := Json.eq_ok_of_bind_eq_ok h
        obtain ⟨⟨k, after⟩, hk, h⟩ := Json.eq_ok_of_bind_eq_ok h
        exact .inr ⟨key, valued, after, ⟨keyed, coloned, hn, hs, hc⟩,
          .inl ⟨hkey, by simpa using known, k, hk, h⟩⟩
      · next hkey =>
        obtain ⟨valued, hc, h⟩ := Json.eq_ok_of_bind_eq_ok h
        obtain ⟨⟨v, after⟩, hv, h⟩ := Json.eq_ok_of_bind_eq_ok h
        exact .inr ⟨key, valued, after, ⟨keyed, coloned, hn, hs, hc⟩, .inr ⟨hkey, v, hv, h⟩⟩
  · rintro (⟨hn, hc, kind, rfl, rfl⟩ | ⟨key, valued, after, ⟨keyed, coloned, hn, hs, hc⟩,
      ⟨hkey, rfl, k, hk, h⟩ | ⟨hkey, v, hv, h⟩⟩)
    · simp [readDraftMembers, hn, hc, bind, Except.bind, pure, Except.pure]
    · simp [readDraftMembers, hn, hs, hkey, hc, hk, h, bind, Except.bind]
    · simp [readDraftMembers, hn, hs, hkey, hc, hv, h, bind, Except.bind]

/-- Members are read as a draft where they are read as values that the kind can be taken out of. -/
theorem readDraftMembers_eq_ok_iff :
    readDraftMembers (Json.readValue limit depth) fuel first kind? done bs = .ok (draft, left) ↔
      ∃ members after,
        Json.readMembers (Json.readValue limit depth) fuel first [] bs = .ok (members, after) ∧
        Json.closeTable after = .ok left ∧ ∃ kind body,
          Kind.split kind? members = some (kind, body) ∧
            draft = ⟨kind, .inl (done.reverse ++ body)⟩ := by
  -- Both readers step to the same members, and the name of a kind is a value too.
  induction fuel generalizing first kind? done bs with
  | zero => simp [readDraftMembers, Json.readMembers]
  | succ fuel ih =>
    rw [readDraftMembers_succ_eq_ok_iff]
    constructor
    · rintro (⟨hn, hc, kind, rfl, rfl⟩ | ⟨key, valued, after, steps,
        ⟨hkey, rfl, k, hk, h⟩ | ⟨hkey, v, hv, h⟩⟩)
      · refine ⟨[], bs, Json.readMembers_succ_eq_ok_iff.mpr (.inl ⟨hn, rfl, rfl⟩), hc, ?_⟩
        exact ⟨kind, [], rfl, by simp⟩
      · obtain ⟨v, hv, named⟩ := Kind.readKind_eq_ok_iff.mp hk
        obtain ⟨others, left', hm, hc, kind, body, hs, rfl⟩ := ih.mp h
        refine ⟨(key, v) :: others, left', ?_, hc, kind, body, ?_, rfl⟩
        · exact Json.readMembers_succ_eq_ok_iff.mpr
            (.inr ⟨key, valued, v, after, others, steps, hv, hm, rfl⟩)
        · exact Kind.split_cons_eq_some_iff.mpr (.inl ⟨hkey, rfl, k, named, hs⟩)
      · obtain ⟨others, left', hm, hc, kind, body, hs, rfl⟩ := ih.mp h
        refine ⟨(key, v) :: others, left', ?_, hc, kind, (key, v) :: body, ?_, by simp⟩
        · exact Json.readMembers_succ_eq_ok_iff.mpr
            (.inr ⟨key, valued, v, after, others, steps, hv, hm, rfl⟩)
        · exact Kind.split_cons_eq_some_iff.mpr (.inr ⟨hkey, body, hs, rfl⟩)
    · rintro ⟨members, after, hm, hc, kind, body, hs, rfl⟩
      rcases Json.readMembers_succ_eq_ok_iff.mp hm with
        ⟨hn, rfl, rfl⟩ | ⟨key, valued, v, left', others, steps, hv, behind, rfl⟩
      · obtain ⟨rfl, rfl⟩ := Kind.split_nil_eq_some_iff.mp hs
        exact .inl ⟨hn, hc, kind, rfl, by simp⟩
      · refine .inr ⟨key, valued, left', steps, ?_⟩
        rcases Kind.split_cons_eq_some_iff.mp hs with
          ⟨hkey, rfl, k, named, later⟩ | ⟨hkey, body', later, rfl⟩
        · refine .inl ⟨hkey, rfl, k, Kind.readKind_eq_ok_iff.mpr ⟨v, hv, named⟩, ?_⟩
          exact ih.mpr ⟨others, after, behind, hc, kind, body, later, rfl⟩
        · refine .inr ⟨hkey, v, hv, ?_⟩
          exact ih.mpr ⟨others, after, behind, hc, kind, body', later, by simp⟩

/-- An object is read as a draft where it is read as a value that the kind can be taken out of. -/
theorem readDraft_eq_ok_iff : readDraft limit bs = .ok (⟨kind, .inl body⟩, left) ↔
    ∃ members, Json.readValue limit Json.depthLimit bs = .ok (.table members, left) ∧
      Kind.split none members = some (kind, body) := by
  constructor
  · intro h
    unfold readDraft at h
    dsimp only at h
    split at h
    · cases h
    next b rest hs =>
    split at h
    · next hb =>
      subst hb
      obtain ⟨members, after, hm, hc, k, body', split, he⟩ := readDraftMembers_eq_ok_iff.mp h
      cases he
      refine ⟨members, ?_, split⟩
      have read := Json.readTable_eq_ok_iff.mpr ⟨after, hm, hc⟩
      exact Json.readValue_eq_ok_table_iff.mpr ⟨rest, hs, read⟩
    split at h
    · obtain ⟨item?, -, h⟩ := Json.eq_ok_of_bind_eq_ok h
      cases item? with
      | none => cases h
      | some item =>
        obtain ⟨⟨k, after⟩, -, h⟩ := Json.eq_ok_of_bind_eq_ok h
        obtain ⟨⟨items, after'⟩, -, h⟩ := Json.eq_ok_of_bind_eq_ok h
        obtain ⟨left', -, h⟩ := Json.eq_ok_of_bind_eq_ok h
        cases h
    · cases h
  · rintro ⟨members, h, split⟩
    obtain ⟨rest, hs, hr⟩ := Json.readValue_eq_ok_table_iff.mp h
    obtain ⟨after, hm, hc⟩ := Json.readTable_eq_ok_iff.mp hr
    unfold readDraft
    rw [hs]
    dsimp only
    rw [if_pos rfl]
    exact readDraftMembers_eq_ok_iff.mpr ⟨members, after, hm, hc, kind, body, split, rfl⟩

/-! ## The same schema below the top -/

private theorem ofMembers_of_split {members : List (String × Value)} {found : Kind}
    (h : Kind.split kind? members = some (found, body)) (kind : Kind) (parts : Parts) :
    ofMembers kind parts members = ofMembers kind parts body := by
  induction members generalizing kind? body parts with
  | nil =>
    obtain ⟨-, rfl⟩ := Kind.split_nil_eq_some_iff.mp h
    rfl
  | cons m members ih =>
    obtain ⟨key, v⟩ := m
    rcases Kind.split_cons_eq_some_iff.mp h with ⟨rfl, rfl, k, -, later⟩ | ⟨-, others, later, rfl⟩
    · rw [ofMembers, ← ih later parts]
      simp
    · rw [ofMembers, ofMembers]
      simp only [ih later]

/-- An object that names its kind once stands for the schema that it is read as at the top. -/
theorem ofValue_of_split {members : List (String × Value)}
    (h : Kind.split none members = some (kind, body)) :
    ofValue (.table members) = Draft.finish ⟨kind, .inl body⟩ := by
  rw [ofValue, Kind.ofMembers_of_split h]
  exact ofMembers_of_split h kind {}

/-- A text of an object that names its kind once says the schema that the object stands for. -/
theorem ofJson_of_split {input : Bytes} {members : List (String × Value)}
    (hp : Json.parse input = .ok (.table members))
    (h : Kind.split none members = some (kind, body)) :
    ofJson input = (ofValue (.table members)).mapError .unplaced := by
  obtain ⟨left, hr, blank⟩ := Json.readWhole_eq_ok_iff.mp hp
  have read : readDraft input.length input = .ok (⟨kind, .inl body⟩, left) :=
    readDraft_eq_ok_iff.mpr ⟨members, hr, h⟩
  rw [ofJson, Json.readWholeAs, read, ofValue_of_split h]
  dsimp only
  cases Draft.finish ⟨kind, .inl body⟩ with
  | error cause => rfl
  | ok s =>
    dsimp only
    rw [Json.readEnd_eq_ok_iff.mpr blank]
    rfl

/-! ## Too many brackets -/

private theorem narrower_readDraftMembers {read wide : Json.Reader Value}
    (h : Json.Narrower read wide)
    (fuel : Nat) (first : Bool) (kind? : Option Kind) (done : List (String × Value)) :
    Json.Narrower (readDraftMembers read fuel first kind? done)
      (readDraftMembers wide fuel first kind? done) := by
  induction fuel generalizing first kind? done with
  | zero => exact .refl _
  | succ fuel ih =>
    intro bs
    unfold readDraftMembers
    cases Json.nextKey first bs with
    | error f => exact .inl rfl
    | ok next? =>
      cases next? with
      | none => exact .inl rfl
      | some keyed =>
        simp only [bind, Except.bind]
        cases Json.readString keyed with
        | error f => exact .inl rfl
        | ok r =>
          dsimp only
          split
          · split
            · exact .inl rfl
            cases Json.readColon r.2 with
            | error f => exact .inl rfl
            | ok valued =>
              dsimp only
              cases readKind valued with
              | error f => exact .inl rfl
              | ok k => exact ih _ _ _ _
          · cases Json.readColon r.2 with
            | error f => exact .inl rfl
            | ok valued =>
              dsimp only
              rcases h valued with same | ⟨f, hf, hc⟩
              · rw [same]
                cases wide valued with
                | error f => exact .inl rfl
                | ok v => exact ih _ _ _ _
              · exact .inr ⟨f, by rw [hf], hc⟩

/-- A text of an object that names its kind once is refused for its nesting, and for nothing else,
if it opens too many brackets at once. -/
theorem ofJson_of_spells_deep {limit : Nat} {kind : Kind} {members body : List (String × Value)}
    {t : Bytes} (h : Json.Spells limit (.table members) t)
    (hs : Kind.split none members = some (kind, body))
    (hn : Json.depthLimit < (Value.table members).nesting) :
    ∃ e, ofJson t = .error e ∧ e.cause = .tooDeep := by
  have read : Json.readValue t.length limit t = .ok (.table members, []) := by
    simpa using h.reads (Nat.le_refl _) Json.blank_nil (Json.blank_nil.ends)
  have enough : Json.depthLimit < limit := Nat.lt_of_lt_of_le hn (Json.nesting_of_readValue read)
  -- A reader that allows enough brackets makes a draft of the text.
  obtain ⟨wide, rfl⟩ : ∃ wide, limit = wide + 1 := ⟨limit - 1, by omega⟩
  obtain ⟨rest, hr, table⟩ := Json.readValue_eq_ok_table_iff.mp read
  obtain ⟨after, hm, hc⟩ := Json.readTable_eq_ok_iff.mp table
  have drafted : readDraftMembers (Json.readValue t.length wide) t.length true none [] rest =
      .ok (⟨kind, .inl body⟩, []) :=
    readDraftMembers_eq_ok_iff.mpr ⟨members, after, hm, hc, kind, body, hs, rfl⟩
  have opened : readDraft t.length t =
      readDraftMembers (Json.readValue t.length (Json.depthLimit - 1)) t.length true none []
        rest := by
    rw [readDraft, hr]
    exact if_pos rfl
  -- The reader of schemas does the same or refuses the text, and it cannot do the same.
  have room : Json.depthLimit - 1 ≤ wide := by omega
  rcases narrower_readDraftMembers (Json.narrower_readValue t.length room) t.length true none []
    rest with same | ⟨f, hf, cause⟩
  · obtain ⟨members', shallow, -⟩ := readDraft_eq_ok_iff.mp (opened.trans (same.trans drafted))
    have bound := Json.nesting_of_readValue shallow
    rcases Json.narrower_readValue t.length (Nat.le_of_lt enough) t with again | ⟨f, hf, -⟩
    · rw [again, read] at shallow
      cases shallow
      exact absurd bound (Nat.not_le.mpr hn)
    · rw [hf] at shallow
      cases shallow
  · refine ⟨.ofFault t f, ?_, cause⟩
    rw [ofJson, Json.readWholeAs, opened, hf]

end Schema

end SchemaDoc
