import SchemaDoc.Registry
import SchemaDoc.Proofs.Dictionary

/-!
# Registries only grow

A registry changes in one way: a schema that is not too deep gets a name that was free. A
registration is one such step or none, and a load is as many of them as there are good files in
front of the first bad one. What holds of a registry after any calls follows from the steps.
-/

namespace SchemaDoc.Registry

open Files

variable {r r₀ r' r'' : Registry} {name : String} {s : Schema} {defs more : List (String × Schema)}
  {t : Tree}

/-! ## One registration -/

/-- The schema can have the name: the name is free, and the schema is not too deep. -/
def Admits (r : Registry) (name : String) (s : Schema) : Prop :=
  r.contains name = false ∧ s.depth ≤ r.maxDepth

/-- The registry with one more schema. -/
def adding (r : Registry) (name : String) (s : Schema) : Registry :=
  { r with types := Dictionary.insert name s r.types }

/-- Why a schema cannot have a name: that the name is taken counts first. -/
def refusal (r : Registry) (name : String) (s : Schema) : SchemaError :=
  if r.contains name then .alreadyThere name else .tooDeep name s.depth r.maxDepth

@[simp] theorem directory_adding : (r.adding name s).directory = r.directory := rfl

@[simp] theorem maxDepth_adding : (r.adding name s).maxDepth = r.maxDepth := rfl

private theorem find?_adding (other : String) :
    (r.adding name s).find? other = if name = other then some s else r.find? other :=
  Dictionary.find?_insert _ _ _ _

/-- A name is free where it has no schema. -/
theorem contains_eq_false_iff : r.contains name = false ↔ r.find? name = none := by
  simp [contains, find?, Dictionary.contains]

private theorem contains_iff : r.contains name = true ↔ ∃ s, r.find? name = some s := by
  rw [← Bool.not_eq_false, contains_eq_false_iff, ← ne_eq, Option.ne_none_iff_exists']

/-- The names are those that have a schema. -/
theorem mem_names_iff : name ∈ r.names ↔ ∃ s, r.find? name = some s := by
  rw [← Option.ne_none_iff_exists', ne_eq, find?, Dictionary.find?_eq_none_iff,
    Decidable.not_not, names]

/-- A schema that can have the name gets it. -/
theorem run_register_of_admits (h : r.Admits name s) :
    (register name s).run r =
      ⟨.ok s, r.adding name s,
        [.ofEvent .typeRegistered [("kind", s.kind.name), ("name", name)]]⟩ := by
  rw [register, Action.run_bind_ok (Action.run_state r), if_neg (by simp [h.1]),
    if_neg (Nat.not_lt.mpr h.2)]
  rfl

/-- A schema that cannot have the name is refused, and the registry stays as it is. -/
theorem run_register_of_not_admits (h : ¬r.Admits name s) :
    (register name s).run r = ⟨.error (r.refusal name s), r, []⟩ := by
  rw [register, Action.run_bind_ok (Action.run_state r), refusal]
  by_cases hc : r.contains name
  · rw [if_pos hc, if_pos hc]
    rfl
  · have hd : r.maxDepth < s.depth :=
      Nat.lt_of_not_le fun hd ↦ h ⟨by simpa using hc, hd⟩
    rw [if_neg hc, if_pos hd, if_neg hc]
    rfl

/-- A registration that is answered was admitted. -/
theorem admits_of_register {a : Schema} (h : ((register name s).run r).answer = .ok a) :
    r.Admits name s := by
  by_cases ha : r.Admits name s
  · exact ha
  · simp [run_register_of_not_admits ha] at h

/-! ## Any number of them -/

/-- A registry becomes another by admitting some schemas, one after the other. -/
inductive Grows : Registry → List (String × Schema) → Registry → Prop
  /-- Nothing was admitted. -/
  | nil (r : Registry) : Grows r [] r
  /-- One schema was admitted first, and then others. -/
  | cons {r r' : Registry} {name : String} {s : Schema} {defs : List (String × Schema)}
    (admits : r.Admits name s) (rest : Grows (r.adding name s) defs r') :
    Grows r ((name, s) :: defs) r'

namespace Grows

/-- One schema that is admitted. -/
theorem single (h : r.Admits name s) : Grows r [(name, s)] (r.adding name s) :=
  .cons h (.nil _)

/-- Growing and growing on is growing. -/
theorem append (h : Grows r defs r') (h' : Grows r' more r'') : Grows r (defs ++ more) r'' := by
  induction h with
  | nil => exact h'
  | cons admits _ ih => exact .cons admits (ih h')

/-- A registry that grows keeps its directory. -/
theorem directory_eq (h : Grows r defs r') : r'.directory = r.directory := by
  induction h with
  | nil => rfl
  | cons _ _ ih => exact ih

/-- A registry that grows keeps its greatest depth. -/
theorem maxDepth_eq (h : Grows r defs r') : r'.maxDepth = r.maxDepth := by
  induction h with
  | nil => rfl
  | cons _ _ ih => exact ih

/-- A name that has a schema keeps it. -/
theorem find?_of_find? (h : Grows r defs r') (hf : r.find? name = some s) :
    r'.find? name = some s := by
  induction h with
  | nil => exact hf
  | @cons r r' n _ _ admits _ ih =>
    have hn : n ≠ name := by
      rintro rfl
      simp [contains_eq_false_iff.mp admits.1] at hf
    exact ih (by rw [find?_adding, if_neg hn, hf])

/-- The schemas afterwards are those before and those admitted. -/
theorem find?_iff (h : Grows r defs r') :
    r'.find? name = some s ↔ r.find? name = some s ∨ (name, s) ∈ defs := by
  induction h with
  | nil => simp
  | @cons r r' n u defs admits _ ih =>
    have hn : r.find? n = none := contains_eq_false_iff.mp admits.1
    rw [ih, find?_adding, List.mem_cons, Prod.mk.injEq]
    by_cases he : n = name
    · subst he
      simp [hn, eq_comm]
    · simp [he, Ne.symm he]

/-- The names that are taken afterwards are those taken before and those given. -/
theorem contains_iff (h : Grows r defs r') :
    r'.contains name = true ↔ r.contains name = true ∨ name ∈ defs.map Prod.fst := by
  simp only [Registry.contains_iff, h.find?_iff, exists_or, List.mem_map, Prod.exists,
    exists_and_right, exists_eq_right]

/-- No schema is too deep afterwards if none was before. -/
theorem depth_le (h : Grows r defs r')
    (hr : ∀ name s, r.find? name = some s → s.depth ≤ r.maxDepth) :
    ∀ name s, r'.find? name = some s → s.depth ≤ r'.maxDepth := by
  induction h with
  | nil => exact hr
  | @cons r r' n u defs admits _ ih =>
    refine ih fun name s hf ↦ ?_
    rw [find?_adding] at hf
    split at hf
    · obtain rfl := Option.some.inj hf
      exact admits.2
    · exact hr name s hf

/-- The names stay in order. -/
theorem sorted (h : Grows r defs r') (hr : r.types.Sorted) : r'.types.Sorted := by
  induction h with
  | nil => exact hr
  | cons _ _ ih => exact ih (hr.insert _ _)

/-- Schemas that were admitted one after the other would each have been admitted first. -/
theorem admits_of_mem (h : Grows r defs r') (hd : (name, s) ∈ defs) : r.Admits name s := by
  induction h with
  | nil => cases hd
  | @cons r r' n u defs admits _ ih =>
    rcases List.mem_cons.mp hd with he | hd
    · cases he
      exact admits
    · obtain ⟨free, shallow⟩ := ih hd
      refine ⟨?_, shallow⟩
      rw [contains_eq_false_iff, find?_adding] at free
      split at free
      · cases free
      · exact contains_eq_false_iff.mpr free

/-- A schema that is not too deep can still have a name that was free and was not given. -/
theorem admits (h : Grows r defs r') (free : r.find? name = none)
    (new : name ∉ defs.map Prod.fst) (depth : s.depth ≤ r.maxDepth) : r'.Admits name s := by
  refine ⟨contains_eq_false_iff.mpr (Option.eq_none_iff_forall_not_mem.mpr fun u hu ↦ ?_), ?_⟩
  · rcases h.find?_iff.mp hu with hr | hd
    · rw [free] at hr
      cases hr
    · exact new (List.mem_map_of_mem hd)
  · rwa [h.maxDepth_eq]

end Grows

/-! ## Loads -/

/-- What is read from a file whose stem and bytes are text is what its text is read as. -/
theorem readDefinition_of_text {dir : Path} {file : Name} {text : String}
    (stem : Utf8.decode? file.stem = some name)
    (read : t.textAt (Path.join dir file) = .ok text) :
    readDefinition t dir file = ((Schema.ofJson (Utf8.encode text)).mapError
      (.unparsable (Path.join dir file).text)).map fun s ↦ (name, s) := by
  have taken : (t.textAt (Path.join dir file)).mapError
      (SchemaError.unreadable (Path.join dir file).text) = .ok text := by
    rw [read]
    rfl
  rw [readDefinition, stem, taken]
  simp only [bind, Except.bind]
  cases Schema.ofJson (Utf8.encode text) <;> rfl

/-- Why a file cannot be loaded: nothing can be read from it, or what it defines cannot have its
name. -/
inductive Rejects (t : Tree) (r : Registry) (file : Name) : SchemaError → Prop
  /-- Nothing can be read from the file. -/
  | unreadable {e : SchemaError} (read : readDefinition t r.directory file = .error e) :
    Rejects t r file e
  /-- What the file defines cannot have its name. -/
  | refused {name : String} {s : Schema} (read : readDefinition t r.directory file = .ok (name, s))
    (refuses : ¬r.Admits name s) : Rejects t r file (r.refusal name s)

/-- How a load of files goes: the schemas that it registers are those of the files from the first
on, up to the last file or to one that is no good, for which it fails. -/
inductive Loads (t : Tree) (r : Registry) (files : List Name) (defs : List (String × Schema))
    (r' : Registry) : Except SchemaError Unit → Prop
  /-- All files are good. -/
  | ended (read : files.map (readDefinition t r.directory) = defs.map .ok)
    (grows : Grows r defs r') : Loads t r files defs r' (.ok ())
  /-- Some file is no good. -/
  | stopped {good later : List Name} {bad : Name} {e : SchemaError}
    (split : files = good ++ bad :: later)
    (read : good.map (readDefinition t r.directory) = defs.map .ok)
    (grows : Grows r defs r') (rejects : Rejects t r' bad e) : Loads t r files defs r' (.error e)

/-- The schemas that a load registers are admitted one after the other. -/
theorem Loads.grows {files : List Name} {answer : Except SchemaError Unit}
    (h : Loads t r files defs r' answer) : Grows r defs r' := by
  cases h with
  | ended _ grows => exact grows
  | stopped _ _ grows _ => exact grows

private theorem Loads.cons {file : Name} {files : List Name} {answer : Except SchemaError Unit}
    (read : readDefinition t r.directory file = .ok (name, s)) (admits : r.Admits name s)
    (h : Loads t (r.adding name s) files defs r' answer) :
    Loads t r (file :: files) ((name, s) :: defs) r' answer := by
  cases h with
  | ended hread grows =>
    exact .ended (by simpa [read] using hread) (.cons admits grows)
  | @stopped good later bad _ split hread grows rejects =>
    have behind : file :: files = (file :: good) ++ bad :: later := by rw [split, List.cons_append]
    exact .stopped behind (by simpa [read] using hread) (.cons admits grows) rejects

/-- Loading files goes as it should. -/
theorem loads_loadFiles (t : Tree) (files : List Name) (r : Registry) :
    ∃ defs, Loads t r files defs ((loadFiles t files).run r).state
      ((loadFiles t files).run r).answer := by
  induction files generalizing r with
  | nil => exact ⟨[], .ended rfl (.nil r)⟩
  | cons file files ih =>
    rw [loadFiles, Action.run_bind_ok (Action.run_state r)]
    cases hr : readDefinition t r.directory file with
    | error e =>
      rw [Action.run_bind_error (Action.run_ofExcept_error e r)]
      exact ⟨[], .stopped (List.nil_append _).symm rfl (.nil r) (.unreadable hr)⟩
    | ok d =>
      obtain ⟨name, s⟩ := d
      rw [Action.run_bind_ok (Action.run_ofExcept_ok (name, s) r)]
      by_cases ha : r.Admits name s
      · rw [Action.run_bind_ok (run_register_of_admits ha)]
        obtain ⟨defs, hl⟩ := ih (r.adding name s)
        exact ⟨(name, s) :: defs, hl.cons hr ha⟩
      · rw [Action.run_bind_error (run_register_of_not_admits ha)]
        exact ⟨[], .stopped (List.nil_append _).symm rfl (.nil r) (.refused hr ha)⟩

/-- The names of the schema files are those with the extension, in some order. -/
theorem fileNames_perm (names : List Name) :
    (fileNames names).Perm (names.filter fun name ↦ name.extension? = some extension) :=
  List.mergeSort_perm _ _

@[simp] theorem mem_fileNames {file : Name} {names : List Name} :
    file ∈ fileNames names ↔ file ∈ names ∧ file.extension? = some extension := by
  simp [(fileNames_perm names).mem_iff]

/-- A directory whose names are known is loaded by loading its files. -/
theorem run_loadAll_of_names {names : List Name} (h : t.namesAt r.directory = .ok names) :
    ((loadAll t).run r).state = ((loadFiles t (fileNames names)).run r).state ∧
      ((loadAll t).run r).answer = ((loadFiles t (fileNames names)).run r).answer.map
        fun _ ↦ (fileNames names).length := by
  have there : t.contains r.directory = true := by
    cases hf : t.find r.directory with
    | error e => simp [Tree.namesAt, hf, bind, Except.bind] at h
    | ok b => simp [Tree.contains, hf, Except.toBool]
  have known : (t.namesAt r.directory).mapError (SchemaError.unreadable r.directory.text) =
      .ok names := by
    rw [h]
    rfl
  rw [loadAll, Action.run_bind_ok (Action.run_state r), if_pos there, known,
    Action.run_bind_ok (Action.run_ofExcept_ok names r)]
  cases hl : (loadFiles t (fileNames names)).run r with
  | mk answer state records =>
    cases answer with
    | error e =>
      rw [Action.run_bind_error hl]
      exact ⟨rfl, rfl⟩
    | ok u =>
      rw [Action.run_bind_ok hl]
      exact ⟨rfl, rfl⟩

/-- Nothing is loaded from a directory whose names are not known. -/
theorem run_loadAll_of_no_names {e : Files.Error} (h : t.namesAt r.directory = .error e) :
    ((loadAll t).run r).state = r := by
  rw [loadAll, Action.run_bind_ok (Action.run_state r)]
  by_cases there : t.contains r.directory = true
  · have unknown : (t.namesAt r.directory).mapError (SchemaError.unreadable r.directory.text) =
        .error (.unreadable r.directory.text e) := by
      rw [h]
      rfl
    rw [if_pos there, unknown, Action.run_bind_error (Action.run_ofExcept_error _ r)]
  · rw [if_neg there]
    rfl

end SchemaDoc.Registry
