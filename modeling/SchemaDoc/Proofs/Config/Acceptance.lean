import SchemaDoc.Proofs.Config.Reader
import SchemaDoc.Proofs.Json.Printed

/-!
# The texts that are read as configurations

An object describes a configuration if every member is a setting, given once with a value for it,
and what is not given has its default. Such a text is read as the configuration, and so are two
forms that are beyond this: an array of the settings in their order, and a log threshold that is
written as the key of an object. In a text without these forms, what is read is what is described. A
configuration that was read is printed as an object that describes it.
-/

namespace SchemaDoc.Config

variable {members : List (String × Value)} {c : Config} {input : Bytes}

/-! ## Describing configurations -/

/-- The values given for a setting: one, which means the setting, or none, and the setting is the
default. -/
inductive Sets {α : Type} (means : Value → α → Prop) (default : α) : List Value → α → Prop
  /-- Nothing is given. -/
  | absent : Sets means default [] default
  /-- One value is given. -/
  | given {v : Value} {a : α} (value : means v a) : Sets means default [v] a

/-- The value is the name of the severity. -/
def NamesSeverity (v : Value) (level : Severity) : Prop := v = .string level.name

/-- The value is the whole number. -/
def IsWhole (v : Value) (n : UInt64) : Prop :=
  ∃ i : Integer, v = .number (.integer i) ∧ i.val = n.toNat

/-- The value is the path of the directory, or `null` for none. -/
inductive NamesDir : Value → Option String → Prop
  /-- There is no directory. -/
  | null : NamesDir .null none
  /-- There is one. -/
  | path (dir : String) : NamesDir (.string dir) (some dir)

/-- The members of an object describe a configuration. -/
structure Describes (members : List (String × Value)) (c : Config) : Prop where
  /-- Only settings are given. -/
  known : ∀ m ∈ members, m.1 = "log_level" ∨ m.1 = "max_schema_depth" ∨ m.1 = "schema_dir"
  /-- The log threshold is named, or warnings pass. -/
  level : Sets NamesSeverity .warn (valuesOf "log_level" members) c.logLevel
  /-- The greatest depth is a positive whole number of 64 bits, or 64. -/
  depth : Sets (fun v n ↦ IsWhole v n ∧ n ≠ 0) 64 (valuesOf "max_schema_depth" members)
    c.maxSchemaDepth
  /-- The directory is a text or `null`, or there is none. -/
  dir : Sets NamesDir none (valuesOf "schema_dir" members) c.schemaDir?

/-- The value is no array, and no log threshold in it is an object. -/
structure InForm (v : Value) : Prop where
  /-- It is no array. -/
  not_list : ∀ items, v ≠ .list items
  /-- No log threshold is an object. -/
  not_keyed : ∀ members, v = .table members →
    ∀ inner, .table inner ∉ valuesOf "log_level" members

/-! ## What is read of a setting -/

private theorem Sets.means_of_mem {α : Type} {means : Value → α → Prop} {default a : α}
    {vs : List Value} {v : Value} (h : Sets means default vs a) (hv : v ∈ vs) : means v a := by
  cases h with
  | absent => cases hv
  | given value =>
    obtain rfl := List.mem_singleton.mp hv
    exact value

private theorem sets_iff {α : Type} {means : Value → α → Prop} {read : Value → Except Json.Cause α}
    {default a : α} {vs : List Value} (each : ∀ v ∈ vs, ∀ a, means v a ↔ read v = .ok a) :
    Sets means default vs a ↔
      ∃ a?, Schema.TakesOne read none vs a? ∧ a?.getD default = a := by
  constructor
  · intro h
    cases h with
    | absent => exact ⟨none, Schema.takesOne_nil.mpr rfl, rfl⟩
    | @given v a value =>
      have read := (each v List.mem_cons_self a).mp value
      exact ⟨some a, Schema.takesOne_some.mpr ⟨v, rfl, read⟩, rfl⟩
  · rintro ⟨a?, taken, rfl⟩
    cases a? with
    | none =>
      obtain rfl := Schema.takesOne_none.mp taken
      exact .absent
    | some a =>
      obtain ⟨v, rfl, read⟩ := Schema.takesOne_some.mp taken
      exact .given ((each v List.mem_cons_self a).mpr read)

private theorem sets_and_iff {α : Type} {means : Value → α → Prop} {P : α → Prop} {default a : α}
    {vs : List Value} (hd : P default) :
    Sets (fun v a ↦ means v a ∧ P a) default vs a ↔ Sets means default vs a ∧ P a := by
  constructor
  · intro h
    cases h with
    | absent => exact ⟨.absent, hd⟩
    | given value => exact ⟨.given value.1, value.2⟩
  · rintro ⟨h, ha⟩
    cases h with
    | absent => exact .absent
    | given value => exact .given ⟨value, ha⟩

private theorem namesSeverity_iff {v : Value} {level : Severity} (h : ∀ inner, v ≠ .table inner) :
    NamesSeverity v level ↔ Severity.ofValue v = .ok level := by
  rw [Severity.ofValue_eq_ok_iff, NamesSeverity]
  simp [h]

private theorem isWhole_iff (v : Value) (n : UInt64) : IsWhole v n ↔ depthOfValue v = .ok n := by
  constructor
  · rintro ⟨i, rfl, hi⟩
    rw [depthOfValue, if_pos (by omega), hi]
    simp
  · intro h
    unfold depthOfValue at h
    split at h
    · next i =>
      split at h
      · obtain rfl := Except.ok.inj h
        have small : i.val.toNat < UInt64.size := by
          have lt := i.val_lt
          rw [UInt64.size]
          omega
        refine ⟨i, rfl, ?_⟩
        rw [UInt64.toNat_ofNat_of_lt' small]
        omega
      · cases h
    · cases h

private theorem namesDir_iff (v : Value) (dir? : Option String) :
    NamesDir v dir? ↔ dirOfValue v = .ok dir? := by
  constructor
  · rintro (_ | dir) <;> rfl
  · intro h
    unfold dirOfValue at h
    split at h
    · obtain rfl := Except.ok.inj h
      exact .null
    · obtain rfl := Except.ok.inj h
      exact .path _
    · cases h

private theorem describes_iff (form : ∀ inner, .table inner ∉ valuesOf "log_level" members) :
    Describes members c ↔
      (∃ given, Gives members {} given ∧ c = given.finish) ∧ c.maxSchemaDepth ≠ 0 := by
  have level (v : Value) (hv : v ∈ valuesOf "log_level" members) (level : Severity) :
      NamesSeverity v level ↔ Severity.ofValue v = .ok level :=
    namesSeverity_iff fun inner he ↦ form inner (he ▸ hv)
  constructor
  · rintro ⟨known, level_given, depth_given, dir_given⟩
    obtain ⟨depth_given, hp⟩ := (sets_and_iff (P := (· ≠ 0)) (by decide)).mp depth_given
    obtain ⟨level?, level_read, level_eq⟩ := (sets_iff level).mp level_given
    obtain ⟨depth?, depth_read, depth_eq⟩ := (sets_iff fun v _ ↦ isWhole_iff v).mp depth_given
    obtain ⟨dir??, dir_read, dir_eq⟩ := (sets_iff fun v _ ↦ namesDir_iff v).mp dir_given
    refine ⟨⟨⟨level?, depth?, dir??⟩, ⟨?_, level_read, depth_read, dir_read⟩, ?_⟩, hp⟩
    · simpa [fieldNames] using known
    · cases c
      simp_all [Draft.finish, Log.defaultThreshold]
  · rintro ⟨⟨given, ⟨known, level_read, depth_read, dir_read⟩, rfl⟩, hp⟩
    refine ⟨by simpa [fieldNames] using known, ?_, ?_, ?_⟩
    · exact (sets_iff level).mpr ⟨_, level_read, rfl⟩
    · refine (sets_and_iff (P := (· ≠ 0)) (by decide)).mpr ⟨?_, hp⟩
      exact (sets_iff fun v _ ↦ isWhole_iff v).mpr ⟨_, depth_read, rfl⟩
    · exact (sets_iff fun v _ ↦ namesDir_iff v).mpr ⟨_, dir_read, rfl⟩

/-! ## Printing -/

private theorem parse_toJson (c : Config) : Json.parse c.toJson = .ok c.toValue := by
  have flat : c.toValue.DoubleFree ∧ c.toValue.nesting ≤ 1 := by
    obtain ⟨level, depth, _ | dir⟩ := c <;>
      simp [toValue, Value.DoubleFree, Value.DoubleFreeMembers, Value.nesting, Value.nestingMembers]
  exact (Json.spells_print flat.1 (Nat.le_trans flat.2 (by decide))).parse

private theorem describes_toValue (hp : c.maxSchemaDepth ≠ 0) :
    ∃ members, c.toValue = .table members ∧ Describes members c := by
  obtain ⟨level, depth, dir?⟩ := c
  have counted : IsWhole (.number (.integer (.ofNat depth.toNat depth.toNat_lt))) depth :=
    ⟨_, rfl, rfl⟩
  refine ⟨_, rfl, ?_⟩
  cases dir? with
  | none => exact ⟨by simp, .given rfl, .given ⟨counted, hp⟩, .absent⟩
  | some dir => exact ⟨by simp, .given rfl, .given ⟨counted, hp⟩, .given (.path dir)⟩

/-! ## Texts -/

private theorem Describes.not_keyed (h : Describes members c) (inner : List (String × Value)) :
    .table inner ∉ valuesOf "log_level" members := by
  intro keyed
  cases h.level.means_of_mem keyed

/-- A text that says an object that describes a configuration is read as it. -/
theorem ofJson_of_describes (hp : Json.parse input = .ok (.table members))
    (h : Describes members c) : ofJson input = .ok c := by
  obtain ⟨⟨given, gives, rfl⟩, positive⟩ := (describes_iff h.not_keyed).mp h
  exact ofJson_eq_ok_iff.mpr ⟨⟨_, hp, .object gives⟩, positive⟩

/-- A text in form is read as a configuration only if it says an object that describes it. -/
theorem describes_of_ofJson (form : ∀ v, Json.parse input = .ok v → InForm v)
    (h : ofJson input = .ok c) :
    ∃ members, Json.parse input = .ok (.table members) ∧ Describes members c := by
  obtain ⟨⟨v, hp, said⟩, positive⟩ := ofJson_eq_ok_iff.mp h
  cases said with
  | array lists => exact absurd rfl ((form _ hp).not_list _)
  | object gives =>
    have keyed := (form _ hp).not_keyed _ rfl
    exact ⟨_, hp, (describes_iff keyed).mpr ⟨⟨_, gives, rfl⟩, positive⟩⟩

/-- A text that says an object that describes a configuration is read as it. No other text is read
as a configuration, if it is no array and no log threshold in it is an object. What was read as a
configuration is printed as a text that is read as the same configuration. -/
theorem settings_are_read_iff_described (input : Bytes) :
    (∀ members c, Json.parse input = .ok (.table members) → Describes members c →
      ofJson input = .ok c) ∧
    ((∀ v, Json.parse input = .ok v → InForm v) → ∀ c, ofJson input = .ok c ↔
      ∃ members, Json.parse input = .ok (.table members) ∧ Describes members c) ∧
    ∀ c, ofJson input = .ok c → ofJson c.toJson = .ok c := by
  refine ⟨fun members c hp described ↦ ofJson_of_describes hp described, ?_, ?_⟩
  · intro form c
    constructor
    · exact describes_of_ofJson form
    · rintro ⟨members, hp, described⟩
      exact ofJson_of_describes hp described
  · intro c h
    obtain ⟨-, positive⟩ := ofJson_eq_ok_iff.mp h
    obtain ⟨members, printed, described⟩ := describes_toValue positive
    exact ofJson_of_describes (printed ▸ parse_toJson c) described

/-- The greatest depth there is and no directory, which is what is printed as well. -/
theorem greatest_depth_is_read :
    let input := Utf8.encode "\x7b\"schema_dir\":null,\"max_schema_depth\":18446744073709551615\x7d"
    let c : Config := { maxSchemaDepth := 18446744073709551615 }
    (∀ v, Json.parse input = .ok v → InForm v) ∧ ofJson input = .ok c ∧
      ofJson c.toJson = .ok c := by
  intro input c
  let depth : Integer := ⟨18446744073709551615, by decide, by decide⟩
  let members : List (String × Value) :=
    [("schema_dir", .null), ("max_schema_depth", .number (.integer depth))]
  have parsed : Json.parse input = .ok (.table members) :=
    Json.eq_ok_of_toOption_eq_some (by decide +kernel)
  have described : Describes members c :=
    ⟨by simp [members], .absent, .given ⟨⟨depth, rfl, rfl⟩, by decide⟩, .given .null⟩
  have form : ∀ v, Json.parse input = .ok v → InForm v := by
    intro v hv
    obtain rfl := Except.ok.inj (parsed.symm.trans hv)
    refine ⟨nofun, fun _ he ↦ ?_⟩
    cases he
    exact described.not_keyed
  obtain ⟨-, read, printed⟩ := settings_are_read_iff_described input
  have hc := (read form c).mpr ⟨_, parsed, described⟩
  exact ⟨form, hc, printed c hc⟩

/-- An array of settings and a log threshold that is written as an object are read, though the texts
say nothing that describes a configuration. -/
theorem array_and_keyed_threshold_are_read :
    let array := Utf8.encode "[\"INFO\"]"
    let keyed := Utf8.encode "\x7b\"log_level\":\x7b\"INFO\":null\x7d\x7d"
    let c : Config := { logLevel := .info }
    (ofJson array = .ok c ∧
      ¬∃ members, Json.parse array = .ok (.table members) ∧ Describes members c) ∧
    ofJson keyed = .ok c ∧
      ¬∃ members, Json.parse keyed = .ok (.table members) ∧ Describes members c := by
  intro array keyed c
  have listed : Json.parse array = .ok (.list [.string "INFO"]) :=
    Json.eq_ok_of_toOption_eq_some (by decide +kernel)
  have tabled : Json.parse keyed = .ok (.table [("log_level", .table [("INFO", .null)])]) :=
    Json.eq_ok_of_toOption_eq_some (by decide +kernel)
  refine ⟨⟨Json.eq_ok_of_toOption_eq_some (by decide +kernel), ?_⟩,
    Json.eq_ok_of_toOption_eq_some (by decide +kernel), ?_⟩
  · rintro ⟨members, hp, -⟩
    cases listed.symm.trans hp
  · rintro ⟨members, hp, described⟩
    cases tabled.symm.trans hp
    exact described.not_keyed _ (List.mem_singleton.mpr rfl)

end SchemaDoc.Config
