import SchemaDoc.Config
import SchemaDoc.Proofs.Log.Output
import SchemaDoc.Proofs.Schema.Grammar

/-!
# Texts that are read as configurations

A configuration is read from a text setting by setting, without a value in between. What is read is
what the value of the text gives: each setting is read where a value is that stands for it, and the
members of an object and the items of an array are the settings one by one.
-/

namespace SchemaDoc

open Json (StepsTo)

/-! ## Severities -/

namespace Severity

variable {level : Severity} {bs left : Bytes} {limit depth : Nat}

private theorem ofText_eq_ok_iff {s : String} : ofText s = .ok level ↔ s = level.name := by
  constructor
  · intro h
    unfold ofText at h
    split at h
    · next found hf =>
      obtain rfl := Except.ok.inj h
      have named := List.find?_some hf
      simpa [eq_comm] using named
    · cases h
  · rintro rfl
    rw [ofText, ofName?_name]

/-- A value stands for a severity if it is the name, or an object with the name for its only key and
`null` for the value. -/
theorem ofValue_eq_ok_iff {v : Value} :
    ofValue v = .ok level ↔ v = .string level.name ∨ v = .table [(level.name, .null)] := by
  constructor
  · intro h
    unfold ofValue at h
    split at h
    · exact .inl (congrArg Value.string (ofText_eq_ok_iff.mp h))
    · obtain ⟨level', hl, h⟩ := Json.eq_ok_of_bind_eq_ok h
      split at h
      · obtain rfl := Except.ok.inj h
        rw [ofText_eq_ok_iff.mp hl]
        exact .inr rfl
      · cases h
    · cases h
    · cases h
  · rintro (rfl | rfl)
    · exact ofText_eq_ok_iff.mpr rfl
    · rw [ofValue, ofText_eq_ok_iff.mpr rfl]
      rfl

private theorem readName_eq_ok_iff :
    readName bs = .ok (level, left) ↔ Json.readString bs = .ok (level.name, left) := by
  constructor
  · intro h
    obtain ⟨⟨s, rest⟩, hs, h⟩ := Json.eq_ok_of_bind_eq_ok h
    dsimp only at h
    split at h
    · next found hf =>
      cases h
      rwa [ofText_eq_ok_iff.mp hf] at hs
    · cases h
  · intro h
    simp only [readName, h, bind, Except.bind, ofText_eq_ok_iff.mpr rfl]

private theorem readObject_eq_ok_iff (limit depth : Nat) : readObject bs = .ok (level, left) ↔
    ∃ valued after, StepsTo true bs level.name valued ∧
      Json.readValue limit depth valued = .ok (.null, after) ∧
      Json.closeTable after = .ok left := by
  simp only [Json.readValue_eq_ok_scalar_iff (v := .null) rfl, Json.readScalar_eq_ok_null_iff,
    Json.closeTable_eq_ok_iff]
  constructor
  · intro h
    unfold readObject at h
    dsimp only at h
    split at h
    · cases h
    next b rest hs =>
    split at h
    · cases h
    next hb =>
    obtain ⟨keyed, hk, h⟩ := Json.eq_ok_of_bind_eq_ok h
    obtain ⟨⟨found, coloned⟩, hn, h⟩ := Json.eq_ok_of_bind_eq_ok h
    obtain ⟨valued, hc, h⟩ := Json.eq_ok_of_bind_eq_ok h
    dsimp only at h
    split at h
    · cases h
    next n word hv =>
    split at h
    · next letter =>
      obtain ⟨after, hw, h⟩ := Json.eq_ok_of_bind_eq_ok h
      split at h
      · cases h
      next bracket rest' closed =>
      split at h
      · next hb' =>
        cases h
        have opened := Json.nextKey_true_eq_ok_iff.mpr ⟨b, rest, hs, hb, hk⟩
        exact ⟨valued, after, ⟨keyed, coloned, opened, readName_eq_ok_iff.mp hn, hc⟩,
          ⟨n, word, hv, letter, hw⟩, hb' ▸ closed⟩
      · cases h
    · cases h
  · rintro ⟨valued, after, ⟨keyed, coloned, opened, hs, hc⟩, ⟨b, rest, hv, rfl, hw⟩, closed⟩
    obtain ⟨c, rest', ho, hne, hk⟩ := Json.nextKey_true_eq_ok_iff.mp opened
    simp [readObject, ho, hk, readName_eq_ok_iff.mpr hs, hc, hv, hw, closed, bind, Except.bind]
    exact hne

private theorem read_eq_ok_iff (limit depth : Nat) : read bs = .ok (level, left) ↔
    ∃ v, Json.readValue (limit + 2) (depth + 1) bs = .ok (v, left) ∧ ofValue v = .ok level := by
  simp only [ofValue_eq_ok_iff]
  constructor
  · intro h
    unfold read at h
    split at h
    · cases h
    next b rest hs =>
    split at h
    · next hb =>
      refine ⟨_, ?_, .inl rfl⟩
      rw [Json.readValue_eq_ok_scalar_iff rfl]
      exact ⟨b, rest, hs, Json.readScalar_eq_ok_string_iff.mpr ⟨hb, readName_eq_ok_iff.mp h⟩⟩
    split at h
    · next hb =>
      obtain ⟨valued, after, steps, hv, closed⟩ :=
        (readObject_eq_ok_iff (limit + 2) depth).mp h
      have ended : Json.nextKey false after = .ok none :=
        Json.nextKey_eq_ok_none_iff.mpr ⟨left, Json.closeTable_eq_ok_iff.mp closed⟩
      refine ⟨_, Json.readValue_eq_ok_table_iff.mpr ⟨rest, hb ▸ hs, ?_⟩, .inr rfl⟩
      refine Json.readTable_eq_ok_iff.mpr ⟨after, ?_, closed⟩
      refine Json.readMembers_succ_eq_ok_iff.mpr
        (.inr ⟨_, valued, _, after, [], steps, hv, ?_, rfl⟩)
      exact Json.readMembers_succ_eq_ok_iff.mpr (.inl ⟨ended, rfl, rfl⟩)
    · cases h
  · rintro ⟨v, hv, rfl | rfl⟩
    · obtain ⟨b, rest, hs, hr⟩ := (Json.readValue_eq_ok_scalar_iff rfl).mp hv
      obtain ⟨hb, name⟩ := Json.readScalar_eq_ok_string_iff.mp hr
      rw [read, hs]
      exact (if_pos hb).trans (readName_eq_ok_iff.mpr name)
    · obtain ⟨rest, hs, hr⟩ := Json.readValue_eq_ok_table_iff.mp hv
      obtain ⟨after, hm, closed⟩ := Json.readTable_eq_ok_iff.mp hr
      rcases Json.readMembers_succ_eq_ok_iff.mp hm with
        ⟨-, he, -⟩ | ⟨key, valued, u, left', others, steps, hu, behind, he⟩
      · cases he
      obtain ⟨he', rfl⟩ := List.cons.inj he
      obtain ⟨rfl, rfl⟩ := Prod.mk.inj he'
      rcases Json.readMembers_succ_eq_ok_iff.mp behind with
        ⟨-, -, rfl⟩ | ⟨_, _, _, _, _, -, -, -, he⟩
      · rw [read, hs]
        exact (readObject_eq_ok_iff _ _).mpr ⟨valued, after, steps, hu, closed⟩
      · cases he

end Severity

namespace Config

variable {limit depth fuel : Nat} {bs left : Bytes} {first : Bool} {v : Value} {draft given : Draft}
  {members : List (String × Value)} {c : Config}

/-! ## Settings -/

/-- The depth that a value stands for: a whole number of 64 bits without a sign. -/
def depthOfValue : Value → Except Json.Cause UInt64
  | .number (.integer i) =>
    if 0 ≤ i.val then .ok (UInt64.ofNat i.val.toNat)
    else .error (.wrongValue (.number (.integer i)) "usize")
  | v => .error (.wrongType (.ofValue v) "usize")

/-- The directory that a value stands for: a text, or none. -/
def dirOfValue : Value → Except Json.Cause (Option String)
  | .null => .ok none
  | .string s => .ok (some s)
  | v => .error (.wrongType (.ofValue v) "path string")

private theorem readDepth_eq_ok_iff (limit depth : Nat) {n : UInt64} :
    readDepth bs = .ok (n, left) ↔
    ∃ v, Json.readValue limit depth bs = .ok (v, left) ∧ depthOfValue v = .ok n := by
  constructor
  · intro h
    obtain ⟨⟨m, rest⟩, hm, he⟩ := Json.eq_ok_of_map_eq_ok h
    obtain ⟨rfl, rfl⟩ := Prod.mk.inj he
    obtain ⟨i, hv, hi, -⟩ := Json.readUnsigned_eq_ok_iff.mp hm
    refine ⟨_, hv, ?_⟩
    rw [depthOfValue, if_pos (by omega), hi]
    rfl
  · rintro ⟨v, hv, hd⟩
    cases v with
    | number m =>
      cases m with
      | integer i =>
        rw [depthOfValue] at hd
        split at hd
        · have bound := i.val_lt
          have read : Json.readUnsigned 0x10000000000000000 "usize" bs =
              .ok (i.val.toNat, left) :=
            Json.readUnsigned_eq_ok_iff.mpr ⟨i, hv, by omega, by omega⟩
          obtain rfl := Except.ok.inj hd
          rw [readDepth, read]
          rfl
        · cases hd
      | double x => cases hd
    | null | bool | string | list | table => cases hd

private theorem readDir_eq_ok_iff (limit depth : Nat) {dir? : Option String} :
    readDir bs = .ok (dir?, left) ↔
    ∃ v, Json.readValue limit depth bs = .ok (v, left) ∧ dirOfValue v = .ok dir? := by
  have blanks : Json.readStringOnly "path string" (Json.skipBlank bs) =
      Json.readStringOnly "path string" bs := by
    rw [Json.readStringOnly, Json.readStringOnly, Json.skipBlank_skipBlank]
  constructor
  · intro h
    unfold readDir at h
    split at h
    · next b rest hs =>
      split at h
      · next hb =>
        obtain ⟨after, hw, he⟩ := Json.eq_ok_of_map_eq_ok h
        obtain ⟨rfl, rfl⟩ := Prod.mk.inj he
        refine ⟨.null, (Json.readValue_eq_ok_scalar_iff rfl).mpr ⟨b, rest, hs, ?_⟩, rfl⟩
        exact Json.readScalar_eq_ok_null_iff.mpr ⟨hb, hw⟩
      · obtain ⟨⟨s, after⟩, hr, he⟩ := Json.eq_ok_of_map_eq_ok h
        obtain ⟨rfl, rfl⟩ := Prod.mk.inj he
        rw [← hs, blanks] at hr
        exact ⟨.string s, Json.readStringOnly_eq_ok_iff.mp hr, rfl⟩
    · obtain ⟨_, hr, -⟩ := Json.eq_ok_of_map_eq_ok h
      cases hr
  · rintro ⟨v, hv, hd⟩
    cases v with
    | null =>
      obtain ⟨b, rest, hs, hr⟩ := (Json.readValue_eq_ok_scalar_iff rfl).mp hv
      obtain ⟨rfl, word⟩ := Json.readScalar_eq_ok_null_iff.mp hr
      obtain rfl := Except.ok.inj hd
      rw [readDir, hs]
      dsimp only
      rw [if_pos rfl, word]
      rfl
    | string s =>
      obtain ⟨b, rest, hs, hr⟩ := (Json.readValue_eq_ok_scalar_iff rfl).mp hv
      obtain ⟨rfl, -⟩ := Json.readScalar_eq_ok_string_iff.mp hr
      obtain rfl := Except.ok.inj hd
      rw [readDir, hs]
      dsimp only
      rw [if_neg (by decide), ← hs, blanks, Json.readStringOnly_eq_ok_iff.mpr hv]
      rfl
    | bool | number | list | table => cases hd

/-! ## Members -/

/-- A draft to which a member of an object is added that was not there before. -/
inductive Adds (draft : Draft) : String → Value → Draft → Prop
  /-- The member says the log threshold. -/
  | level {v : Value} {level : Severity} (free : draft.logLevel? = none)
    (value : Severity.ofValue v = .ok level) :
    Adds draft "log_level" v { draft with logLevel? := some level }
  /-- The member says the greatest depth. -/
  | depth {v : Value} {n : UInt64} (free : draft.maxSchemaDepth? = none)
    (value : depthOfValue v = .ok n) :
    Adds draft "max_schema_depth" v { draft with maxSchemaDepth? := some n }
  /-- The member says the directory. -/
  | dir {v : Value} {dir? : Option String} (free : draft.schemaDir? = none)
    (value : dirOfValue v = .ok dir?) :
    Adds draft "schema_dir" v { draft with schemaDir? := some dir? }

private theorem eq_ok_of_setting {α β : Type} {reader : Json.Reader α} {old? : Option α}
    {refused : Json.Fault} {go : α × Bytes → Except Json.Fault β} {coloned : Bytes} {r : β}
    (h : (if old?.isSome = true then .error refused
      else Json.readColon coloned >>= fun valued ↦ reader valued >>= go) = .ok r) :
    old? = none ∧ ∃ valued x after, Json.readColon coloned = .ok valued ∧
      reader valued = .ok (x, after) ∧ go (x, after) = .ok r := by
  split at h
  · cases h
  next free =>
  obtain ⟨valued, hc, h⟩ := Json.eq_ok_of_bind_eq_ok h
  obtain ⟨⟨x, after⟩, hx, h⟩ := Json.eq_ok_of_bind_eq_ok h
  exact ⟨by simpa using free, valued, x, after, hc, hx, h⟩

private theorem readMembers_succ_eq_ok_iff (limit depth : Nat) :
    readMembers (fuel + 1) first draft bs = .ok (c, left) ↔
    (Json.nextKey first bs = .ok none ∧ Json.closeTable bs = .ok left ∧ c = draft.finish) ∨
    ∃ key valued v after next, StepsTo first bs key valued ∧
      Json.readValue (limit + 2) (depth + 1) valued = .ok (v, after) ∧ Adds draft key v next ∧
      readMembers fuel false next after = .ok (c, left) := by
  constructor
  · intro h
    unfold readMembers at h
    dsimp only at h
    obtain ⟨next?, hn, h⟩ := Json.eq_ok_of_bind_eq_ok h
    cases next? with
    | none =>
      obtain ⟨rest, hc, h⟩ := Json.eq_ok_of_bind_eq_ok h
      cases h
      exact .inl ⟨hn, hc, rfl⟩
    | some keyed =>
      right
      obtain ⟨⟨key, coloned⟩, hs, h⟩ := Json.eq_ok_of_bind_eq_ok h
      have steps {valued} (hc : Json.readColon coloned = .ok valued) :
          StepsTo first bs key valued := ⟨keyed, coloned, hn, hs, hc⟩
      dsimp only at h
      split at h
      · next hk =>
        subst hk
        obtain ⟨free, valued, level, after, hc, read, h⟩ := eq_ok_of_setting h
        obtain ⟨v, hv, value⟩ := (Severity.read_eq_ok_iff limit depth).mp read
        exact ⟨_, valued, v, after, _, steps hc, hv, .level free value, h⟩
      split at h
      · next hk =>
        subst hk
        obtain ⟨free, valued, n, after, hc, read, h⟩ := eq_ok_of_setting h
        obtain ⟨v, hv, value⟩ := (readDepth_eq_ok_iff (limit + 2) (depth + 1)).mp read
        exact ⟨_, valued, v, after, _, steps hc, hv, .depth free value, h⟩
      split at h
      · next hk =>
        subst hk
        obtain ⟨free, valued, dir?, after, hc, read, h⟩ := eq_ok_of_setting h
        obtain ⟨v, hv, value⟩ := (readDir_eq_ok_iff (limit + 2) (depth + 1)).mp read
        exact ⟨_, valued, v, after, _, steps hc, hv, .dir free value, h⟩
      · cases h
  · rintro (⟨hn, hc, rfl⟩ |
      ⟨key, valued, v, after, next, ⟨keyed, coloned, hn, hs, hc⟩, hv, adds, h⟩)
    · simp [readMembers, hn, hc, bind, Except.bind, pure, Except.pure]
    · cases adds with
      | level free value =>
        have read := (Severity.read_eq_ok_iff limit depth).mpr ⟨v, hv, value⟩
        simp [readMembers, hn, hs, hc, free, read, h, bind, Except.bind]
      | depth free value =>
        have read := (readDepth_eq_ok_iff (limit + 2) (depth + 1)).mpr ⟨v, hv, value⟩
        simp [readMembers, hn, hs, hc, free, read, h, bind, Except.bind]
      | dir free value =>
        have read := (readDir_eq_ok_iff (limit + 2) (depth + 1)).mpr ⟨v, hv, value⟩
        simp [readMembers, hn, hs, hc, free, read, h, bind, Except.bind]

/-- The settings that the members of an object give: each setting at most once, and nothing else. -/
structure Gives (members : List (String × Value)) (old new : Draft) : Prop where
  /-- Only settings are given. -/
  known : ∀ m ∈ members, m.1 ∈ fieldNames
  /-- The log threshold. -/
  level : Schema.TakesOne Severity.ofValue old.logLevel? (valuesOf "log_level" members)
    new.logLevel?
  /-- The greatest depth. -/
  depth : Schema.TakesOne depthOfValue old.maxSchemaDepth? (valuesOf "max_schema_depth" members)
    new.maxSchemaDepth?
  /-- The directory. -/
  dir : Schema.TakesOne dirOfValue old.schemaDir? (valuesOf "schema_dir" members) new.schemaDir?

private theorem gives_nil : Gives [] draft given ↔ given = draft := by
  have none (key : String) : valuesOf key [] = [] := rfl
  constructor
  · rintro ⟨-, level, depth, dir⟩
    rw [none, Schema.takesOne_nil] at level depth dir
    cases given
    cases draft
    simp_all
  · rintro rfl
    constructor <;> simp [none, Schema.takesOne_nil]

private theorem gives_cons {key : String} : Gives ((key, v) :: members) draft given ↔
    ∃ next, Adds draft key v next ∧ Gives members next given := by
  have others {name other : String} (h : name ≠ other) :
      valuesOf other ((name, v) :: members) = valuesOf other members := valuesOf_cons_of_ne h
  constructor
  · rintro ⟨all, level, depth, dir⟩
    obtain ⟨hk, known⟩ := List.forall_mem_cons.mp all
    simp only [fieldNames, List.mem_cons, List.not_mem_nil, or_false] at hk
    rcases hk with rfl | rfl | rfl
    · rw [valuesOf_cons_self, Schema.takesOne_cons] at level
      obtain ⟨free, a, value, level⟩ := level
      rw [others (by decide)] at depth dir
      exact ⟨_, .level free value, known, level, depth, dir⟩
    · rw [valuesOf_cons_self, Schema.takesOne_cons] at depth
      obtain ⟨free, a, value, depth⟩ := depth
      rw [others (by decide)] at level dir
      exact ⟨_, .depth free value, known, level, depth, dir⟩
    · rw [valuesOf_cons_self, Schema.takesOne_cons] at dir
      obtain ⟨free, a, value, dir⟩ := dir
      rw [others (by decide)] at level depth
      exact ⟨_, .dir free value, known, level, depth, dir⟩
  · rintro ⟨next, adds, known, level, depth, dir⟩
    cases adds with
    | level free value =>
      refine ⟨List.forall_mem_cons.mpr ⟨by simp [fieldNames], known⟩, ?_, ?_, ?_⟩
      · exact valuesOf_cons_self .. ▸ Schema.takesOne_cons.mpr ⟨free, _, value, level⟩
      · rwa [others (by decide)]
      · rwa [others (by decide)]
    | depth free value =>
      refine ⟨List.forall_mem_cons.mpr ⟨by simp [fieldNames], known⟩, ?_, ?_, ?_⟩
      · rwa [others (by decide)]
      · exact valuesOf_cons_self .. ▸ Schema.takesOne_cons.mpr ⟨free, _, value, depth⟩
      · rwa [others (by decide)]
    | dir free value =>
      refine ⟨List.forall_mem_cons.mpr ⟨by simp [fieldNames], known⟩, ?_, ?_, ?_⟩
      · rwa [others (by decide)]
      · rwa [others (by decide)]
      · exact valuesOf_cons_self .. ▸ Schema.takesOne_cons.mpr ⟨free, _, value, dir⟩

private theorem readMembers_eq_ok_iff (limit depth : Nat) :
    readMembers fuel first draft bs = .ok (c, left) ↔ ∃ members after,
      Json.readMembers (Json.readValue (limit + 2) (depth + 1)) fuel first [] bs =
        .ok (members, after) ∧
      Json.closeTable after = .ok left ∧ ∃ given, Gives members draft given ∧ c = given.finish := by
  -- Both readers step to the same members.
  induction fuel generalizing first draft bs with
  | zero => simp [readMembers, Json.readMembers]
  | succ fuel ih =>
    rw [readMembers_succ_eq_ok_iff limit depth]
    constructor
    · rintro (⟨hn, hc, rfl⟩ | ⟨key, valued, v, after, next, steps, hv, adds, h⟩)
      · refine ⟨[], bs, Json.readMembers_succ_eq_ok_iff.mpr (.inl ⟨hn, rfl, rfl⟩), hc, draft, ?_⟩
        exact ⟨gives_nil.mpr rfl, rfl⟩
      · obtain ⟨others, after', hm, hc, given, gives, rfl⟩ := ih.mp h
        refine ⟨(key, v) :: others, after', ?_, hc, given, gives_cons.mpr ⟨next, adds, gives⟩, rfl⟩
        exact Json.readMembers_succ_eq_ok_iff.mpr
          (.inr ⟨key, valued, v, after, others, steps, hv, hm, rfl⟩)
    · rintro ⟨members, after, hm, hc, given, gives, rfl⟩
      rcases Json.readMembers_succ_eq_ok_iff.mp hm with
        ⟨hn, rfl, rfl⟩ | ⟨key, valued, v, left', others, steps, hv, behind, rfl⟩
      · obtain rfl := gives_nil.mp gives
        exact .inl ⟨hn, hc, rfl⟩
      · obtain ⟨next, adds, gives⟩ := gives_cons.mp gives
        refine .inr ⟨key, valued, v, left', next, steps, hv, adds, ?_⟩
        exact ih.mpr ⟨others, after, behind, hc, given, gives, rfl⟩

/-! ## Items -/

/-- The settings that the items of an array give: those in front, each in its place. -/
inductive Lists : List Value → Draft → Prop
  /-- No setting is given. -/
  | nothing : Lists [] {}
  /-- The log threshold. -/
  | level {v : Value} {level : Severity} (level_value : Severity.ofValue v = .ok level) :
    Lists [v] { logLevel? := some level }
  /-- The log threshold and the greatest depth. -/
  | depth {v w : Value} {level : Severity} {n : UInt64}
    (level_value : Severity.ofValue v = .ok level) (depth_value : depthOfValue w = .ok n) :
    Lists [v, w] { logLevel? := some level, maxSchemaDepth? := some n }
  /-- All settings. -/
  | dir {v w u : Value} {level : Severity} {n : UInt64} {dir? : Option String}
    (level_value : Severity.ofValue v = .ok level) (depth_value : depthOfValue w = .ok n)
    (dir_value : dirOfValue u = .ok dir?) :
    Lists [v, w, u]
      { logLevel? := some level, maxSchemaDepth? := some n, schemaDir? := some dir? }

private theorem lists_of_readItems (fuel limit depth : Nat) (h : readItems bs = .ok (c, left)) :
    ∃ items, Json.readList (fuel + 4) (Json.readValue (limit + 2) (depth + 1)) bs =
        .ok (items, left) ∧ ∃ given, Lists items given ∧ c = given.finish := by
  -- An array may stop after each of the three fields.
  simp only [Json.readList_eq_ok_iff]
  unfold readItems at h
  obtain ⟨first?, hn, h⟩ := Json.eq_ok_of_bind_eq_ok h
  cases first? with
  | none =>
    obtain ⟨left, hc, h⟩ := Json.eq_ok_of_bind_eq_ok h
    obtain ⟨rfl, rfl⟩ := Prod.mk.inj (Except.ok.inj h)
    exact ⟨[], ⟨bs, Json.readItems_nil_eq_ok_iff.mpr ⟨hn, rfl⟩, hc⟩, _, .nothing, rfl⟩
  | some bs₁ =>
  obtain ⟨⟨level, left₁⟩, hl, h⟩ := Json.eq_ok_of_bind_eq_ok h
  obtain ⟨second?, hn₁, h⟩ := Json.eq_ok_of_bind_eq_ok h
  obtain ⟨v, hv, level_value⟩ := (Severity.read_eq_ok_iff limit depth).mp hl
  cases second? with
  | none =>
    obtain ⟨left, hc, h⟩ := Json.eq_ok_of_bind_eq_ok h
    obtain ⟨rfl, rfl⟩ := Prod.mk.inj (Except.ok.inj h)
    refine ⟨[v], ⟨left₁, ?_, hc⟩, _, .level level_value, rfl⟩
    refine Json.readItems_cons_eq_ok_iff.mpr ⟨bs₁, left₁, hn, hv, ?_⟩
    exact Json.readItems_nil_eq_ok_iff.mpr ⟨hn₁, rfl⟩
  | some bs₂ =>
  obtain ⟨⟨n, left₂⟩, hd, h⟩ := Json.eq_ok_of_bind_eq_ok h
  obtain ⟨third?, hn₂, h⟩ := Json.eq_ok_of_bind_eq_ok h
  obtain ⟨w, hw, depth_value⟩ := (readDepth_eq_ok_iff (limit + 2) (depth + 1)).mp hd
  cases third? with
  | none =>
    obtain ⟨left, hc, h⟩ := Json.eq_ok_of_bind_eq_ok h
    obtain ⟨rfl, rfl⟩ := Prod.mk.inj (Except.ok.inj h)
    refine ⟨[v, w], ⟨left₂, ?_, hc⟩, _, .depth level_value depth_value, rfl⟩
    refine Json.readItems_cons_eq_ok_iff.mpr ⟨bs₁, left₁, hn, hv, ?_⟩
    refine Json.readItems_cons_eq_ok_iff.mpr ⟨bs₂, left₂, hn₁, hw, ?_⟩
    exact Json.readItems_nil_eq_ok_iff.mpr ⟨hn₂, rfl⟩
  | some bs₃ =>
  obtain ⟨⟨dir?, left₃⟩, hs, h⟩ := Json.eq_ok_of_bind_eq_ok h
  obtain ⟨left, hc, h⟩ := Json.eq_ok_of_bind_eq_ok h
  obtain ⟨u, hu, dir_value⟩ := (readDir_eq_ok_iff (limit + 2) (depth + 1)).mp hs
  obtain ⟨rfl, rfl⟩ := Prod.mk.inj (Except.ok.inj h)
  refine ⟨[v, w, u], ⟨left₃, ?_, hc⟩, _, .dir level_value depth_value dir_value, rfl⟩
  refine Json.readItems_cons_eq_ok_iff.mpr ⟨bs₁, left₁, hn, hv, ?_⟩
  refine Json.readItems_cons_eq_ok_iff.mpr ⟨bs₂, left₂, hn₁, hw, ?_⟩
  refine Json.readItems_cons_eq_ok_iff.mpr ⟨bs₃, left₃, hn₂, hu, ?_⟩
  exact Json.readItems_nil_eq_ok_iff.mpr ⟨Json.nextItem_of_closeList hc, rfl⟩

private theorem readItems_of_lists {fuel limit depth : Nat} {items : List Value}
    (h : Json.readList (fuel + 4) (Json.readValue (limit + 2) (depth + 1)) bs = .ok (items, left))
    (lists : Lists items given) : readItems bs = .ok (given.finish, left) := by
  obtain ⟨after, hi, hc⟩ := Json.readList_eq_ok_iff.mp h
  cases lists with
  | nothing =>
    obtain ⟨hn, rfl⟩ := Json.readItems_nil_eq_ok_iff.mp hi
    simp [readItems, hn, hc, bind, Except.bind, pure, Except.pure]
  | level level_value =>
    obtain ⟨bs₁, left₁, hn, hv, hi⟩ := Json.readItems_cons_eq_ok_iff.mp hi
    obtain ⟨hn₁, rfl⟩ := Json.readItems_nil_eq_ok_iff.mp hi
    have level_read := (Severity.read_eq_ok_iff limit depth).mpr ⟨_, hv, level_value⟩
    simp [readItems, hn, level_read, hn₁, hc, bind, Except.bind, pure, Except.pure]
  | depth level_value depth_value =>
    obtain ⟨bs₁, left₁, hn, hv, hi⟩ := Json.readItems_cons_eq_ok_iff.mp hi
    obtain ⟨bs₂, left₂, hn₁, hw, hi⟩ := Json.readItems_cons_eq_ok_iff.mp hi
    obtain ⟨hn₂, rfl⟩ := Json.readItems_nil_eq_ok_iff.mp hi
    have level_read := (Severity.read_eq_ok_iff limit depth).mpr ⟨_, hv, level_value⟩
    have depth_read := (readDepth_eq_ok_iff (limit + 2) (depth + 1)).mpr ⟨_, hw, depth_value⟩
    simp [readItems, hn, level_read, hn₁, depth_read, hn₂, hc, bind, Except.bind, pure,
      Except.pure]
  | dir level_value depth_value dir_value =>
    obtain ⟨bs₁, left₁, hn, hv, hi⟩ := Json.readItems_cons_eq_ok_iff.mp hi
    obtain ⟨bs₂, left₂, hn₁, hw, hi⟩ := Json.readItems_cons_eq_ok_iff.mp hi
    obtain ⟨bs₃, left₃, hn₂, hu, hi⟩ := Json.readItems_cons_eq_ok_iff.mp hi
    obtain ⟨-, rfl⟩ := Json.readItems_nil_eq_ok_iff.mp hi
    have level_read := (Severity.read_eq_ok_iff limit depth).mpr ⟨_, hv, level_value⟩
    have depth_read := (readDepth_eq_ok_iff (limit + 2) (depth + 1)).mpr ⟨_, hw, depth_value⟩
    have dir_read := (readDir_eq_ok_iff (limit + 2) (depth + 1)).mpr ⟨_, hu, dir_value⟩
    simp [readItems, hn, level_read, hn₁, depth_read, hn₂, dir_read, hc, bind, Except.bind,
      pure, Except.pure]

private theorem readItems_eq_ok_iff (fuel limit depth : Nat) : readItems bs = .ok (c, left) ↔
    ∃ items, Json.readList (fuel + 4) (Json.readValue (limit + 2) (depth + 1)) bs =
        .ok (items, left) ∧ ∃ given, Lists items given ∧ c = given.finish := by
  constructor
  · exact lists_of_readItems fuel limit depth
  · rintro ⟨items, h, given, lists, rfl⟩
    exact readItems_of_lists h lists

/-! ## Texts -/

/-- A value says a configuration. -/
inductive Says : Value → Config → Prop
  /-- An object gives the settings by their names. -/
  | object {members : List (String × Value)} {given : Draft} (gives : Gives members {} given) :
    Says (.table members) given.finish
  /-- An array gives the settings in their order. -/
  | array {items : List Value} {given : Draft} (lists : Lists items given) :
    Says (.list items) given.finish

private theorem read_eq_ok_iff (limit room depth : Nat) : read (limit + 1) bs = .ok (c, left) ↔
    ∃ v, Says v c ∧ ((∃ members, v = .table members) ∧
        Json.readValue (limit + 2) (depth + 2) bs = .ok (v, left) ∨
      (∃ items, v = .list items) ∧
        Json.readValue (room + 4) (depth + 2) bs = .ok (v, left)) := by
  constructor
  · intro h
    unfold read at h
    split at h
    · cases h
    next b rest hs =>
    split at h
    · next hb =>
      obtain ⟨members, after, hm, hc, given, gives, rfl⟩ :=
        (readMembers_eq_ok_iff limit depth).mp h
      refine ⟨_, .object gives, .inl ⟨⟨_, rfl⟩, ?_⟩⟩
      refine Json.readValue_eq_ok_table_iff.mpr ⟨rest, hb ▸ hs, ?_⟩
      exact Json.readTable_eq_ok_iff.mpr ⟨after, hm, hc⟩
    split at h
    · next hb =>
      obtain ⟨items, hi, given, lists, rfl⟩ :=
        (readItems_eq_ok_iff room (room + 2) depth).mp h
      refine ⟨_, .array lists, .inr ⟨⟨_, rfl⟩, ?_⟩⟩
      exact Json.readValue_eq_ok_list_iff.mpr ⟨rest, hb ▸ hs, hi⟩
    · cases h
  · rintro ⟨v, said, ⟨⟨members, rfl⟩, hv⟩ | ⟨⟨items, rfl⟩, hv⟩⟩
    · cases said with
      | object gives =>
      obtain ⟨rest, hs, hr⟩ := Json.readValue_eq_ok_table_iff.mp hv
      obtain ⟨after, hm, hc⟩ := Json.readTable_eq_ok_iff.mp hr
      rw [read, hs]
      exact (readMembers_eq_ok_iff limit depth).mpr ⟨members, after, hm, hc, _, gives, rfl⟩
    · cases said with
      | array lists =>
      obtain ⟨rest, hs, hr⟩ := Json.readValue_eq_ok_list_iff.mp hv
      rw [read, hs]
      exact (readItems_eq_ok_iff room (room + 2) depth).mpr ⟨items, hr, _, lists, rfl⟩

private theorem readWhole_eq_ok_iff {input : Bytes} : Json.readWhole read input = .ok c ↔
    ∃ v, Json.parse input = .ok v ∧ Says v c := by
  -- The readers differ in how many members and items they allow for, but all allow for enough.
  have room {left : Bytes} (blank : Json.Blank left) (v : Value) {limit : Nat}
      (hl : input.length ≤ limit) :
      Json.readValue limit Json.depthLimit input = .ok (v, left) ↔
        Json.readValue input.length Json.depthLimit input = .ok (v, left) := by
    constructor
    · exact fun h ↦ Json.readValue_of_length_le h blank.ends (Nat.le_refl _)
    · exact fun h ↦ Json.readValue_of_length_le h blank.ends hl
  cases input with
  | nil => exact ⟨nofun, fun ⟨v, hv, _⟩ ↦ (by cases hv)⟩
  | cons b rest =>
    simp only [Json.parse, Json.readWhole_eq_ok_iff]
    constructor
    · rintro ⟨left, hr, blank⟩
      obtain ⟨v, said, ⟨-, hv⟩ | ⟨-, hv⟩⟩ :=
        (read_eq_ok_iff rest.length rest.length (Json.depthLimit - 2)).mp hr
      · exact ⟨v, ⟨left, (room blank v (by simp)).mp hv, blank⟩, said⟩
      · exact ⟨v, ⟨left, (room blank v (by simp)).mp hv, blank⟩, said⟩
    · rintro ⟨v, ⟨left, hv, blank⟩, said⟩
      refine ⟨left, (read_eq_ok_iff rest.length rest.length (Json.depthLimit - 2)).mpr ?_, blank⟩
      refine ⟨v, said, ?_⟩
      cases said with
      | object gives => exact .inl ⟨⟨_, rfl⟩, (room blank _ (by simp)).mpr hv⟩
      | array lists => exact .inr ⟨⟨_, rfl⟩, (room blank _ (by simp)).mpr hv⟩

/-- A text is read as the configuration that its value says, unless no schema would be shallow
enough. -/
theorem ofJson_eq_ok_iff {input : Bytes} : ofJson input = .ok c ↔
    (∃ v, Json.parse input = .ok v ∧ Says v c) ∧ c.maxSchemaDepth ≠ 0 := by
  rw [← readWhole_eq_ok_iff, ofJson]
  constructor
  · intro h
    obtain ⟨c', hc, h⟩ := Json.eq_ok_of_bind_eq_ok h
    obtain ⟨_, valid, h⟩ := Json.eq_ok_of_bind_eq_ok h
    obtain rfl := Except.ok.inj h
    cases read : Json.readWhole Config.read input with
    | error e =>
      rw [read] at hc
      cases hc
    | ok c₀ =>
      rw [read] at hc
      obtain rfl := Except.ok.inj hc
      refine ⟨rfl, fun zero ↦ ?_⟩
      rw [validate, if_pos zero] at valid
      cases valid
  · rintro ⟨hc, positive⟩
    have valid : validate c = .ok () := if_neg positive
    have read : (Json.readWhole Config.read input).mapError ConfigError.unparsable = .ok c := by
      rw [hc]
      rfl
    simp [read, valid, bind, Except.bind, pure, Except.pure]

end Config

end SchemaDoc
