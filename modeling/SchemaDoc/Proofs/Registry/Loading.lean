import Mathlib.Data.List.Sort
import SchemaDoc.Proofs.Files.Directory
import SchemaDoc.Proofs.Registry.Growth
import SchemaDoc.Proofs.Text.Utf8

/-!
# Which files a load takes

A load takes the schema files of the directory in the byte order of their names, up to the first
with which something is wrong. What is wrong with a file is a matter of the file and of the registry
before the load: two files of a directory have different stems, so no file takes the name of
another.
-/

namespace SchemaDoc

open Files

namespace Registry

variable {r r' : Registry} {t : Tree} {file : Name} {name : String} {s : Schema}
  {files good : List Name} {defs : List (String × Schema)}

/-! ## What can be wrong with a file -/

/-- A file of the directory of a registry defines a schema: its stem is the name, and its text is
that of the schema. -/
structure Defines (t : Tree) (r : Registry) (file : Name) (name : String) (s : Schema) : Prop where
  /-- The stem is the name. -/
  stem : Utf8.decode? file.stem = some name
  /-- The text is that of the schema. -/
  text : ∃ text, t.textAt (Path.join r.directory file) = .ok text ∧
    Schema.ofJson (Utf8.encode text) = .ok s

/-- A file defines a schema that the registry admits under the name. -/
def Loadable (t : Tree) (r : Registry) (file : Name) : Prop :=
  ∃ name s, Defines t r file name s ∧ r.Admits name s

/-- What is wrong with a file, and the error that tells it. What comes first here is told first. -/
inductive Fault (t : Tree) (r : Registry) (file : Name) : SchemaError → Prop
  /-- The stem is not text. -/
  | name (stem : Utf8.decode? file.stem = none) :
    Fault t r file (.malformed (Path.join r.directory file).text "file name is not valid UTF-8")
  /-- The file cannot be read as text. -/
  | read {name : String} {cause : Files.Error} (stem : Utf8.decode? file.stem = some name)
    (unread : t.textAt (Path.join r.directory file) = .error cause) :
    Fault t r file (.unreadable (Path.join r.directory file).text cause)
  /-- The text is not that of a schema. -/
  | parse {name text : String} {cause : Json.Error} (stem : Utf8.decode? file.stem = some name)
    (read : t.textAt (Path.join r.directory file) = .ok text)
    (unparsed : Schema.ofJson (Utf8.encode text) = .error cause) :
    Fault t r file (.unparsable (Path.join r.directory file).text cause)
  /-- The name is taken. -/
  | duplicate {name : String} {s : Schema} (defines : Defines t r file name s)
    (taken : r.contains name = true) : Fault t r file (.alreadyThere name)
  /-- The schema is too deep. -/
  | depth {name : String} {s : Schema} (defines : Defines t r file name s)
    (free : r.contains name = false) (deep : r.maxDepth < s.depth) :
    Fault t r file (.tooDeep name s.depth r.maxDepth)

private theorem Defines.readDefinition_eq (h : Defines t r file name s) :
    readDefinition t r.directory file = .ok (name, s) := by
  obtain ⟨hn, text, ht, hs⟩ := h
  rw [readDefinition_of_text hn ht, hs]
  rfl

private theorem defines_or_fault (t : Tree) (r : Registry) (file : Name) :
    (∃ name s, Defines t r file name s) ∨
      ∃ e, Fault t r file e ∧ readDefinition t r.directory file = .error e := by
  cases hn : Utf8.decode? file.stem with
  | none => exact .inr ⟨_, .name hn, by rw [readDefinition, hn]; rfl⟩
  | some n =>
    cases ht : t.textAt (Path.join r.directory file) with
    | error cause => exact .inr ⟨_, .read hn ht, by rw [readDefinition, hn, ht]; rfl⟩
    | ok text =>
      cases hs : Schema.ofJson (Utf8.encode text) with
      | error cause =>
        exact .inr ⟨_, .parse hn ht hs, by rw [readDefinition_of_text hn ht, hs]; rfl⟩
      | ok s => exact .inl ⟨n, s, hn, text, ht, hs⟩

private theorem readDefinition_eq_ok_iff :
    readDefinition t r.directory file = .ok (name, s) ↔ Defines t r file name s := by
  refine ⟨fun h ↦ ?_, Defines.readDefinition_eq⟩
  rcases defines_or_fault t r file with ⟨name', s', defines⟩ | ⟨e, -, read⟩
  · obtain ⟨rfl, rfl⟩ : name' = name ∧ s' = s := by
      simpa using defines.readDefinition_eq.symm.trans h
    exact defines
  · cases read.symm.trans h

private theorem fault_of_readDefinition {e : SchemaError}
    (h : readDefinition t r.directory file = .error e) : Fault t r file e := by
  rcases defines_or_fault t r file with ⟨name, s, defines⟩ | ⟨e', fault, read⟩
  · cases defines.readDefinition_eq.symm.trans h
  · cases read.symm.trans h
    exact fault

private theorem Defines.unique {name' : String} {s' : Schema} (h : Defines t r file name s)
    (h' : Defines t r file name' s') : name' = name ∧ s' = s := by
  have same := (readDefinition_eq_ok_iff.mpr h').symm.trans (readDefinition_eq_ok_iff.mpr h)
  simpa using same

private theorem Fault.not_loadable {e : SchemaError} (h : Fault t r file e) :
    ¬Loadable t r file := by
  rintro ⟨name, s, defines, free, shallow⟩
  obtain ⟨hn, text, ht, hs⟩ := id defines
  cases h with
  | name stem => simp [hn] at stem
  | read stem unread => simp [ht] at unread
  | parse stem read unparsed =>
    obtain rfl := Except.ok.inj (ht.symm.trans read)
    simp [hs] at unparsed
  | duplicate defines' taken =>
    obtain ⟨rfl, rfl⟩ := defines.unique defines'
    simp [free] at taken
  | depth defines' free' deep =>
    obtain ⟨rfl, rfl⟩ := defines.unique defines'
    exact absurd shallow (Nat.not_le.mpr deep)

private theorem Fault.told {e : SchemaError} (h : Fault t r file e) :
    readDefinition t r.directory file = .error e ∨
      ∃ name s, Defines t r file name s ∧ e = r.refusal name s := by
  cases h with
  | name stem => exact .inl (by rw [readDefinition, stem]; rfl)
  | read stem unread => exact .inl (by rw [readDefinition, stem, unread]; rfl)
  | parse stem read unparsed => exact .inl (by rw [readDefinition_of_text stem read, unparsed]; rfl)
  | duplicate defines taken => exact .inr ⟨_, _, defines, by rw [refusal, if_pos taken]⟩
  | depth defines free deep => exact .inr ⟨_, _, defines, by simp [refusal, free]⟩

/-- Of all that is wrong with a file one thing is told. -/
theorem Fault.unique {e e' : SchemaError} (h : Fault t r file e) (h' : Fault t r file e') :
    e = e' := by
  rcases h.told, h'.told with ⟨read | ⟨name, s, defines, rfl⟩, read' | ⟨name', s', defines', rfl⟩⟩
  · exact Except.error.inj (read.symm.trans read')
  · cases read.symm.trans defines'.readDefinition_eq
  · cases read'.symm.trans defines.readDefinition_eq
  · obtain ⟨rfl, rfl⟩ := defines'.unique defines
    rfl

/-! ## Files do not get in each other's way -/

private theorem eq_of_stem {other : Name} (hf : file.extension? = some extension)
    (ho : other.extension? = some extension) (same : file.stem = other.stem) : file = other := by
  have cut (f : Name) (h : f.extension? = some extension) : f = f.stem ++ dot :: extension :=
    Name.eq_append_of_splitAtDot (Prod.ext rfl h)
  rw [cut file hf, cut other ho, same]

private theorem Defines.file_eq {other : Name} {u : Schema} (hf : file.extension? = some extension)
    (ho : other.extension? = some extension) (h : Defines t r file name s)
    (h' : Defines t r other name u) : file = other := by
  apply eq_of_stem hf ho
  have bytes (f : Name) (h : Utf8.decode? f.stem = some name) : f.stem = Utf8.encode name := by
    cases hd : Utf8.decode f.stem with
    | error e => simp [Utf8.decode?, hd, Except.toOption] at h
    | ok text =>
      simp only [Utf8.decode?, hd, Except.toOption, Option.some.injEq] at h
      exact Utf8.decode_eq_ok_iff.mp (h ▸ hd)
  rw [bytes file h.stem, bytes other h'.stem]

private theorem mem_defs_iff_defines
    (read : files.map (readDefinition t r.directory) = defs.map .ok) :
    (name, s) ∈ defs ↔ ∃ file ∈ files, Defines t r file name s := by
  have mem : Except.ok (name, s) ∈ files.map (readDefinition t r.directory) ↔ (name, s) ∈ defs := by
    rw [read]
    simp
  rw [← mem, List.mem_map]
  simp only [readDefinition_eq_ok_iff]

private theorem fault_of_rejects {e : SchemaError}
    (hx : ∀ f ∈ file :: good, f.extension? = some extension)
    (read : good.map (readDefinition t r.directory) = defs.map .ok) (grows : Grows r defs r')
    (new : file ∉ good) (rejects : Rejects t r' file e) : Fault t r file e := by
  cases rejects with
  | unreadable failed =>
    rw [grows.directory_eq] at failed
    exact fault_of_readDefinition failed
  | @refused name s answered refuses =>
    rw [grows.directory_eq] at answered
    have defines := readDefinition_eq_ok_iff.mp answered
    -- No file in front gave the name away, so it was taken before if it is now.
    have free : name ∉ defs.map Prod.fst := by
      intro hm
      obtain ⟨⟨_, u⟩, hd, rfl⟩ := List.mem_map.mp hm
      obtain ⟨other, ho, defines'⟩ := (mem_defs_iff_defines read).mp hd
      have same := defines.file_eq (hx _ List.mem_cons_self) (hx _ (List.mem_cons_of_mem _ ho))
        defines'
      exact new (same ▸ ho)
    have taken : r'.contains name = true ↔ r.contains name = true := by
      rw [grows.contains_iff, or_iff_left free]
    rw [refusal, grows.maxDepth_eq]
    by_cases hc : r.contains name
    · rw [if_pos (taken.mpr hc)]
      exact .duplicate defines hc
    · have deep : r.maxDepth < s.depth := Nat.lt_of_not_le fun shallow ↦
        refuses ⟨Bool.not_eq_true _ ▸ mt taken.mp hc, by rwa [grows.maxDepth_eq]⟩
      rw [if_neg (mt taken.mp hc)]
      exact .depth defines (by simpa using hc) deep

private theorem fault_behind {bad : Name} {later : List Name} {e : SchemaError}
    (sorted : (good ++ bad :: later).Pairwise (· < ·))
    (hx : ∀ f ∈ good ++ bad :: later, f.extension? = some extension)
    (read : good.map (readDefinition t r.directory) = defs.map .ok) (grows : Grows r defs r')
    (rejects : Rejects t r' bad e) : Fault t r bad e := by
  have new : bad ∉ good := fun hf ↦ List.lt_irrefl bad
    ((List.pairwise_append.mp sorted).2.2 bad hf bad List.mem_cons_self)
  refine fault_of_rejects (fun f hf ↦ hx f ?_) read grows new rejects
  rcases List.mem_cons.mp hf with rfl | hf
  · exact List.mem_append_right _ List.mem_cons_self
  · exact List.mem_append_left _ hf

/-! ## Loads -/

private theorem nodup_fileNames {names : List Name} (distinct : names.Nodup) :
    (fileNames names).Nodup :=
  (fileNames_perm names).nodup_iff.mpr (distinct.filter _)

private theorem pairwise_le_fileNames (names : List Name) : (fileNames names).Pairwise (· ≤ ·) := by
  have trans (a b c : Name) : decide (a ≤ b) = true → decide (b ≤ c) = true →
      decide (a ≤ c) = true := by
    simpa using List.le_trans
  have total (a b : Name) : (decide (a ≤ b) || decide (b ≤ a)) = true := by
    simpa using List.le_total a b
  exact (List.pairwise_mergeSort trans total _).imp of_decide_eq_true

private theorem pairwise_lt_fileNames {names : List Name} (distinct : names.Nodup) :
    (fileNames names).Pairwise (· < ·) := by
  refine (pairwise_le_fileNames names).imp₂ (fun a b le ne ↦ ?_) (nodup_fileNames distinct)
  exact List.not_le.mp fun ge ↦ ne (List.le_antisymm le ge)

/-- A registry becomes another by getting the schemas of some files and no others. -/
structure Gains (t : Tree) (r : Registry) (files : List Name) (r' : Registry) : Prop where
  /-- The directory is the same. -/
  directory_eq : r'.directory = r.directory
  /-- The greatest depth is the same. -/
  maxDepth_eq : r'.maxDepth = r.maxDepth
  /-- The names stay in order. -/
  sorted : r.types.Sorted → r'.types.Sorted
  /-- The schemas are those before and those of the files. -/
  find?_iff : ∀ name s, r'.find? name = some s ↔
    r.find? name = some s ∨ ∃ file ∈ files, Defines t r file name s

private theorem gains_of_grows (read : files.map (readDefinition t r.directory) = defs.map .ok)
    (grows : Grows r defs r') : Gains t r files r' where
  directory_eq := grows.directory_eq
  maxDepth_eq := grows.maxDepth_eq
  sorted := grows.sorted
  find?_iff _ _ := by rw [grows.find?_iff, mem_defs_iff_defines read]

private theorem loadable_of_grows (read : files.map (readDefinition t r.directory) = defs.map .ok)
    (grows : Grows r defs r') : ∀ file ∈ files, Loadable t r file := by
  intro file hf
  have : readDefinition t r.directory file ∈ defs.map Except.ok := read ▸ List.mem_map_of_mem hf
  obtain ⟨⟨name, s⟩, hd, he⟩ := List.mem_map.mp this
  exact ⟨name, s, readDefinition_eq_ok_iff.mp he.symm, grows.admits_of_mem hd⟩

private theorem run_loadAll_of_absent (absent : t.contains r.directory = false) :
    (loadAll t).run r = ⟨.ok 0, r, []⟩ := by
  rw [loadAll, Action.run_bind_ok (Action.run_state r), absent]
  rfl

/-- A load takes the schema files of the directory, those with the extension for schemas, in the
byte order of their names, whatever the order in which the directory lists them. If all of them can
be loaded, their number is answered and the registry has their schemas beside those it had.
Otherwise the first that cannot be loaded has something wrong with it, which is the error, and the
registry has the schemas of the files in front of it and no others. A directory that is not there
has no files, and no directory lists a name twice. -/
theorem load_takes_the_files_before_the_first_fault (t : Tree) (r : Registry) :
    let o := (loadAll t).run r
    (t.contains r.directory = false → o.answer = .ok 0 ∧ o.state = r) ∧
      ∀ names, t.namesAt r.directory = .ok names → names.Nodup →
        ∃ files : List Name, files.Pairwise (· < ·) ∧
          (∀ file, file ∈ files ↔ file ∈ names ∧ file.extension? = some extension) ∧
          ((∀ file ∈ files, Loadable t r file) →
            o.answer = .ok files.length ∧ Gains t r files o.state) ∧
          (¬(∀ file ∈ files, Loadable t r file) →
            ∃ good bad later e, files = good ++ bad :: later ∧ (∀ file ∈ good, Loadable t r file) ∧
              Fault t r bad e ∧ o.answer = .error e ∧ Gains t r good o.state) := by
  intro o
  refine ⟨fun absent ↦ ?_, fun names listed distinct ↦ ?_⟩
  · rw [show o = _ from run_loadAll_of_absent absent]
    exact ⟨rfl, rfl⟩
  have sorted := pairwise_lt_fileNames distinct
  obtain ⟨state, answer⟩ := run_loadAll_of_names listed
  obtain ⟨defs, loads⟩ := loads_loadFiles t (fileNames names) r
  rw [← state] at loads
  generalize ((loadFiles t (fileNames names)).run r).answer = ended at answer loads
  refine ⟨fileNames names, sorted, fun _ ↦ mem_fileNames, ?_⟩
  cases loads with
  | ended read grows =>
    have all := loadable_of_grows read grows
    exact ⟨fun _ ↦ ⟨answer, gains_of_grows read grows⟩, fun some ↦ absurd all some⟩
  | @stopped good later bad e split read grows rejects =>
    have front : ∀ file ∈ good ++ bad :: later, file.extension? = some extension :=
      fun file hf ↦ (mem_fileNames.mp (split ▸ hf)).2
    have fault := fault_behind (split ▸ sorted) front read grows rejects
    refine ⟨fun all ↦ absurd (all bad ?_) fault.not_loadable, fun _ ↦ ?_⟩
    · rw [split]
      exact List.mem_append_right _ List.mem_cons_self
    · exact ⟨good, bad, later, e, split, loadable_of_grows read grows, fault, answer,
        gains_of_grows read grows⟩

private theorem cut_unique {front behind later : List Name} {first bad : Name}
    (same : front ++ first :: behind = good ++ bad :: later)
    (hf : ∀ file ∈ front, Loadable t r file) (hg : ∀ file ∈ good, Loadable t r file)
    (stops : ¬Loadable t r first) (stops' : ¬Loadable t r bad) : front = good ∧ first = bad := by
  induction front generalizing good with
  | nil =>
    cases good with
    | nil => exact ⟨rfl, (List.cons.inj same).1⟩
    | cons file good =>
      obtain ⟨rfl, -⟩ := List.cons.inj same
      exact absurd (hg _ List.mem_cons_self) stops
  | cons file front ih =>
    obtain ⟨here, hf⟩ := List.forall_mem_cons.mp hf
    cases good with
    | nil =>
      obtain ⟨rfl, -⟩ := List.cons.inj same
      exact absurd here stops'
    | cons other good =>
      obtain ⟨rfl, rest⟩ := List.cons.inj same
      obtain ⟨rfl, rfl⟩ := ih rest hf (List.forall_mem_cons.mp hg).2
      exact ⟨rfl, rfl⟩

/-- A directory that is named like a schema file cannot be read. The file that is listed behind it
comes before it in byte order, so its schema is loaded all the same. -/
theorem file_listed_late_is_loaded_first :
    let t : Tree := ⟨[(Path.ofText "types", .directory
      [(Path.ofText "b.json", .directory []), (Path.ofText "c.txt", .file []),
        (Path.ofText "a.json", .file (Utf8.encode "\x7b\"kind\":\"number\"\x7d"))])]⟩
    let r := ofDirectory (Path.ofText "types")
    let o := (loadAll t).run r
    o.answer = .error (.unreadable "types/b.json" .isDirectory) ∧
      Gains t r [Path.ofText "a.json"] o.state := by
  intro t r o
  have listed : t.namesAt r.directory =
      .ok [Path.ofText "b.json", Path.ofText "c.txt", Path.ofText "a.json"] := rfl
  obtain ⟨files, sorted, mem, -, stops⟩ :=
    (load_takes_the_files_before_the_first_fault t r).2 _ listed (by decide)
  have files_eq : files = [Path.ofText "a.json", Path.ofText "b.json"] := by
    refine List.Pairwise.eq_of_mem_iff sorted (by decide) fun file ↦ (mem file).trans ?_
    constructor
    · simp only [List.mem_cons]
      rintro ⟨rfl | rfl | rfl | h, hx⟩
      · decide
      · cases hx
      · decide
      · cases h
    · simp only [List.mem_cons]
      rintro (rfl | rfl | h)
      · decide
      · decide
      · cases h
  subst files_eq
  have first : Loadable t r (Path.ofText "a.json") :=
    ⟨"a", .number, ⟨rfl, _, rfl, rfl⟩, rfl, by decide⟩
  have second : Fault t r (Path.ofText "b.json") (.unreadable "types/b.json" .isDirectory) :=
    .read (rfl : Utf8.decode? (Name.stem (Path.ofText "b.json")) = some "b") rfl
  obtain ⟨good, bad, later, e, split, loadable, fault, answer, gains⟩ :=
    stops fun all ↦ second.not_loadable (all _ (by simp))
  have front : ∀ file ∈ [Path.ofText "a.json"], Loadable t r file :=
    List.forall_mem_singleton.mpr first
  obtain ⟨rfl, rfl⟩ := cut_unique split front loadable second.not_loadable fault.not_loadable
  exact ⟨answer.trans (congrArg _ (fault.unique second)), gains⟩

end Registry

end SchemaDoc
