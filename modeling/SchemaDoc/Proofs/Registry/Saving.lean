import SchemaDoc.Proofs.Files.Making
import SchemaDoc.Proofs.Registry.Growth
import SchemaDoc.Proofs.Schema.RoundTrip

/-!
# Schemas that are saved and loaded again

Every schema that is saved becomes one file of the directory, and a load reads these files and no
others. What stands in a file is the text of the schema, so the load gets the schema back with its
bounds settled, unless the text opens more brackets at once than a reader allows. The greatest depth
of a registry does not count these brackets, of which a table has two.
-/

namespace SchemaDoc

open Files

namespace Registry

variable {r r' : Registry} {t t' : Tree} {dir : Path} {name : String} {s : Schema}
  {entries saved : List (String × Schema)} {children : List (Name × Branch)}

/-! ## The file for a name -/

/-- The name of the file for a name. -/
def fileName (name : String) : Name := Path.ofText name ++ dot :: extension

/-- The file of a name is in the directory of the registry. -/
theorem filePath_eq (r : Registry) (name : String) :
    r.filePath name = Path.join r.directory (fileName name) := rfl

private theorem ofText_ne_nil (h : name ≠ "") : Path.ofText name ≠ [] := by
  intro he
  apply h
  have : Utf8.decode (Utf8.encode name) = .ok "" := Utf8.decode_eq_ok_iff.mpr he
  rw [Utf8.decode_encode] at this
  exact Except.ok.inj this

private theorem splitAtDot_fileName (h : name ≠ "") :
    (fileName name).splitAtDot = (Path.ofText name, some extension) :=
  Name.splitAtDot_append (ofText_ne_nil h) (by decide) (by decide)

/-- The file for a name is that of a schema. -/
theorem extension?_fileName (h : name ≠ "") : (fileName name).extension? = some extension := by
  rw [Name.extension?, splitAtDot_fileName h]

/-- The stem of the file for a name gives the name back. -/
theorem decode?_stem_fileName (h : name ≠ "") : Utf8.decode? (fileName name).stem = some name := by
  rw [Name.stem, splitAtDot_fileName h, Utf8.decode?, Path.ofText, Utf8.decode_encode]
  rfl

/-- The text of a schema is UTF-8, so a file is read as it was written. -/
theorem exists_textAt_of_find {path : Path} (found : t.find path = .ok (.file s.toPrettyJson)) :
    ∃ text, t.textAt path = .ok text ∧ Utf8.encode text = s.toPrettyJson := by
  obtain ⟨text, ht⟩ := Utf8.isText_iff.mp (Json.plain_printPretty 0 s.toValue).text
  refine ⟨text, ?_, (Utf8.decode_eq_ok_iff.mp ht).symm⟩
  simp [Tree.textAt, Tree.contentsAt, found, bind, Except.bind, Utf8.decode?, Schema.toPrettyJson,
    ht, Except.toOption]

/-- Different names have different files. -/
theorem fileName_inj {other : String} (h : fileName name = fileName other) : name = other := by
  have same : Utf8.encode name = Utf8.encode other := List.append_cancel_right h
  have read := Utf8.decode_encode name
  rw [same, Utf8.decode_encode] at read
  exact (Except.ok.inj read).symm

/-- A name under which a schema can be saved in a directory: a plain stem without zero, and short
enough for the name of a file there. -/
structure Fits (dir : Path) (name : String) : Prop where
  /-- The name is a plain stem. -/
  plain : isPlainStem name = true
  /-- The name has no zero. -/
  zero_notMem : Char.ofNat 0 ∉ name.toList
  /-- The name of the file can be looked up. -/
  name_length_le : (fileName name).length ≤ Spot.nameLimit
  /-- The path of the file can be looked up. -/
  path_length_le : (Path.join dir (fileName name)).length ≤ Tree.pathLimit

namespace Fits

/-- A name that fits is not empty. -/
theorem ne_empty (h : Fits dir name) : name ≠ "" := by
  have := h.plain
  simp only [isPlainStem, Bool.and_eq_true, decide_eq_true_eq] at this
  exact this.1.1

/-- The file for such a name has a proper name. -/
theorem proper (h : Fits dir name) : Name.Proper (fileName name) := by
  have tail : ∀ b ∈ dot :: extension, b ≠ slash ∧ b ≠ 0 := by
    simp [dot, slash, extension, Path.ofText, Utf8.encode, Utf8.encodeChar]
  have long : 2 < (fileName name).length := by
    simp [fileName, extension, Path.ofText, Utf8.encode, Utf8.encodeChar]
  refine ⟨?_, ?_, ?_, ?_, ?_, h.name_length_le⟩
  · exact List.ne_nil_of_length_pos (by omega)
  · intro hs
    rcases List.mem_append.mp hs with hn | ht
    · have := Utf8.mem_of_mem_encode hn (by decide)
      have plain := h.plain
      simp only [isPlainStem, Bool.and_eq_true] at plain
      simp_all [slash]
    · exact (tail _ ht).1 rfl
  · intro hz
    rcases List.mem_append.mp hz with hn | ht
    · exact h.zero_notMem (Utf8.mem_of_mem_encode hn (by decide))
    · exact (tail _ ht).2 rfl
  · intro he
    rw [he] at long
    exact absurd long (by decide)
  · intro he
    rw [he] at long
    exact absurd long (by decide)

end Fits

/-! ## Saving -/

/-- Saves some schemas under their names, one after the other. -/
def saveAll (r : Registry) : List (String × Schema) → Action Tree SchemaError Unit
  | [] => pure ()
  | (name, s) :: entries => do
    let _ ← r.save name s
    saveAll r entries

/-- What is saved under a name. -/
def savedFile (entry : String × Schema) : Name × Branch :=
  (fileName entry.1, .file entry.2.toPrettyJson)

/-- The directory has the files of some schemas and nothing else. -/
def Stored (t : Tree) (dir : Path) (entries : List (String × Schema)) : Prop :=
  ∃ children, t.find dir = .ok (.directory children) ∧ children.Perm (entries.map savedFile)

/-- The path is that of an empty directory, once the directories that are missing on the way have
been made. -/
def Vacant (t : Tree) (dir : Path) : Prop :=
  dir ≠ [] ∧ ∃ t', t.ensureDirectory dir = (.ok (), t') ∧ Stored t' dir []

private theorem vacant_of_empty (hdir : dir ≠ []) (h : t.find dir = .ok (.directory [])) :
    Vacant t dir :=
  ⟨hdir, t, Tree.ensureDirectory_of_find hdir h, [], h, .refl _⟩

private theorem vacant_of_absent (hdir : dir ≠ []) (up : above ∉ dir.names)
    (absent : t.contains dir = false) (made : t.ensureDirectory dir = (.ok (), t')) :
    Vacant t dir :=
  ⟨hdir, t', made, [], Tree.find_of_ensureDirectory hdir up absent made, .refl _⟩

private theorem files_perm (perm : children.Perm (saved.map savedFile)) :
    (children.map Prod.fst).Perm ((saved.map Prod.fst).map fileName) := by
  have := perm.map Prod.fst
  rwa [List.map_map] at this ⊢

private theorem mem_files_iff (perm : children.Perm (saved.map savedFile)) :
    fileName name ∈ children.map Prod.fst ↔ name ∈ saved.map Prod.fst := by
  rw [(files_perm perm).mem_iff]
  constructor
  · intro h
    obtain ⟨other, ho, hn⟩ := List.mem_map.mp h
    rwa [← fileName_inj hn]
  · exact List.mem_map_of_mem

private theorem nodup_files (perm : children.Perm (saved.map savedFile))
    (nodup : (saved.map Prod.fst).Nodup) : (children.map Prod.fst).Nodup := by
  rw [(files_perm perm).nodup_iff]
  apply List.pairwise_map.mpr
  apply nodup.imp
  intro a b hne he
  exact hne (fileName_inj he)

private theorem run_save (hdir : r.directory ≠ []) (fits : Fits r.directory name)
    (made : t.ensureDirectory r.directory = (.ok (), t')) (stored : Stored t' r.directory saved)
    (free : name ∉ saved.map Prod.fst) (s : Schema) :
    ∃ t'', (r.save name s).run t = ⟨.ok (r.filePath name), t'', []⟩ ∧
      Stored t'' r.directory ((name, s) :: saved) := by
  obtain ⟨children, found, perm⟩ := stored
  have new : Branch.child? (fileName name) children = none :=
    Branch.child?_eq_none_iff.mpr (mt (mem_files_iff perm).mp free)
  have absent : t.contains (r.filePath name) = false := by
    cases hf : t.find (r.filePath name) with
    | error e => simp [Tree.contains, hf, Except.toBool]
    | ok b =>
      obtain ⟨there, hd, hc⟩ :=
        (Tree.find_join_eq_ok_iff hdir fits.proper fits.path_length_le).mp hf
      rw [Tree.ensureDirectory_of_find hdir hd] at made
      cases made
      rw [hd] at found
      cases found
      rw [new] at hc
      cases hc
  obtain ⟨t'', written, found'⟩ := Tree.writeAt_join hdir fits.proper fits.path_length_le found new
    s.toPrettyJson
  refine ⟨t'', ?_, _, found', ?_⟩
  · rw [filePath_eq] at absent
    simp [Action.run, save, fits.plain, absent, made, filePath_eq, written]
  · exact (Branch.setChild_perm (Branch.child?_eq_none_iff.mp new)).trans (perm.cons _)

private theorem run_saveAll_of_stored (hdir : r.directory ≠ [])
    (stored : Stored t r.directory saved) (fits : ∀ e ∈ entries, Fits r.directory e.1)
    (nodup : (entries.map Prod.fst).Nodup) (free : ∀ e ∈ entries, e.1 ∉ saved.map Prod.fst) :
    ∃ t', (saveAll r entries).run t = ⟨.ok (), t', []⟩ ∧
      Stored t' r.directory (entries.reverse ++ saved) := by
  induction entries generalizing t saved with
  | nil => exact ⟨t, rfl, stored⟩
  | cons e entries ih =>
    obtain ⟨name, s⟩ := e
    obtain ⟨hn, nodup⟩ := List.nodup_cons.mp nodup
    obtain ⟨children, found, perm⟩ := stored
    obtain ⟨t₁, hs, stored₁⟩ := run_save hdir (fits _ List.mem_cons_self)
      (Tree.ensureDirectory_of_find hdir found) ⟨children, found, perm⟩
      (free _ List.mem_cons_self) s
    have free₁ : ∀ e ∈ entries, e.1 ∉ ((name, s) :: saved).map Prod.fst := by
      intro e he hm
      rcases List.mem_cons.mp hm with h | h
      · exact hn (h ▸ List.mem_map_of_mem he)
      · exact free e (List.mem_cons_of_mem _ he) h
    obtain ⟨t₂, hr, stored₂⟩ := ih stored₁ (fun e he ↦ fits e (List.mem_cons_of_mem _ he)) nodup
      free₁
    refine ⟨t₂, ?_, by simpa using stored₂⟩
    rw [saveAll, Action.run_bind_ok hs, hr]
    rfl

private theorem Stored.perm (h : Stored t dir entries) (hp : entries.Perm saved) :
    Stored t dir saved := by
  obtain ⟨children, found, perm⟩ := h
  exact ⟨children, found, perm.trans (hp.map savedFile)⟩

private theorem run_saveAll (vacant : Vacant t r.directory)
    (fits : ∀ e ∈ entries, Fits r.directory e.1) (nodup : (entries.map Prod.fst).Nodup) :
    ∃ t', (saveAll r entries).run t = ⟨.ok (), t', []⟩ ∧
      (Stored t' r.directory entries ∨ entries = [] ∧ t'.contains r.directory = false) := by
  obtain ⟨hdir, t₀, made, stored⟩ := vacant
  cases entries with
  | nil =>
    refine ⟨t, rfl, ?_⟩
    cases hf : t.find r.directory with
    | error e => exact .inr ⟨rfl, by simp [Tree.contains, hf, Except.toBool]⟩
    | ok b =>
      cases b with
      | file contents =>
        rw [Tree.ensureDirectory_of_find_file hdir hf] at made
        cases made
      | directory children =>
        rw [Tree.ensureDirectory_of_find hdir hf] at made
        cases made
        exact .inl stored
  | cons e entries =>
    obtain ⟨name, s⟩ := e
    obtain ⟨hn, nodup⟩ := List.nodup_cons.mp nodup
    obtain ⟨t₁, hs, stored₁⟩ := run_save hdir (fits _ List.mem_cons_self) made stored
      List.not_mem_nil s
    obtain ⟨t₂, hr, stored₂⟩ := run_saveAll_of_stored hdir stored₁
      (fun e he ↦ fits e (List.mem_cons_of_mem _ he)) nodup
      (fun e he hm ↦ hn (List.mem_singleton.mp hm ▸ List.mem_map_of_mem he))
    refine ⟨t₂, ?_, .inl (stored₂.perm ?_)⟩
    · rw [saveAll, Action.run_bind_ok hs, hr]
      rfl
    · exact (List.perm_append_comm.trans (by simp [List.reverse_perm]))

/-! ## Loading -/

private theorem readDefinition_of_stored (hdir : dir ≠ []) (stored : Stored t dir entries)
    (nodup : (entries.map Prod.fst).Nodup) {e : String × Schema} (he : e ∈ entries)
    (fits : Fits dir e.1) :
    readDefinition t dir (fileName e.1) = ((Schema.ofJson e.2.toPrettyJson).mapError
      (.unparsable (Path.join dir (fileName e.1)).text)).map fun s ↦ (e.1, s) := by
  obtain ⟨children, found, perm⟩ := stored
  have child : Branch.child? (fileName e.1) children = some (.file e.2.toPrettyJson) :=
    Branch.child?_of_mem (nodup_files perm nodup) (perm.mem_iff.mpr (List.mem_map_of_mem he))
  have file : t.find (Path.join dir (fileName e.1)) = .ok (.file e.2.toPrettyJson) :=
    (Tree.find_join_eq_ok_iff hdir fits.proper fits.path_length_le).mpr ⟨children, found, child⟩
  obtain ⟨text, read, bytes⟩ := exists_textAt_of_find file
  rw [readDefinition_of_text (decode?_stem_fileName fits.ne_empty) read, bytes]

private theorem fileNames_of_stored (perm : children.Perm (entries.map savedFile))
    (fits : ∀ e ∈ entries, Fits dir e.1) :
    (fileNames (children.map Prod.fst)).Perm (children.map Prod.fst) := by
  have all : (children.map Prod.fst).filter (fun name ↦ name.extension? = some extension) =
      children.map Prod.fst := by
    apply List.filter_eq_self.mpr
    intro file hf
    obtain ⟨name, hn, rfl⟩ := List.mem_map.mp ((files_perm perm).mem_iff.mp hf)
    obtain ⟨e, he, rfl⟩ := List.mem_map.mp hn
    simpa using extension?_fileName (fits e he).ne_empty
  exact (fileNames_perm _).trans (.of_eq all)

/-- Schemas that may be saved for a registry: under different names that fit its directory, and none
deeper than it allows. -/
structure Storable (r : Registry) (entries : List (String × Schema)) : Prop where
  /-- The names differ. -/
  nodup : (entries.map Prod.fst).Nodup
  /-- The names fit. -/
  fits : ∀ e ∈ entries, Fits r.directory e.1
  /-- The fields of every table are in order. -/
  normal : ∀ e ∈ entries, e.2.Normal
  /-- No schema is too deep. -/
  depth_le : ∀ e ∈ entries, e.2.depth ≤ r.maxDepth

private theorem storable_singleton (fits : Fits r.directory name) (normal : s.Normal)
    (depth : s.depth ≤ r.maxDepth) : Storable r [(name, s)] where
  nodup := by simp
  fits := by simpa using fits
  normal := by simpa using normal
  depth_le := by simpa using depth

private theorem readDefinition_cases (hdir : r.directory ≠ []) (storable : Storable r entries)
    (stored : Stored t r.directory entries) {e : String × Schema} (he : e ∈ entries) :
    e.2.levels ≤ Json.depthLimit ∧
        readDefinition t r.directory (fileName e.1) = .ok (e.1, e.2.settleBounds) ∨
      Json.depthLimit < e.2.levels ∧ ∃ cause : Json.Error, cause.cause = .tooDeep ∧
        readDefinition t r.directory (fileName e.1) =
          .error (.unparsable (r.filePath e.1).text cause) := by
  rw [readDefinition_of_stored hdir stored storable.nodup he (storable.fits e he)]
  rcases Nat.lt_or_ge Json.depthLimit e.2.levels with deep | shallow
  · obtain ⟨cause, hc, tooDeep⟩ := Schema.ofJson_of_spells_of_lt_levels deep
      (Json.spells_printPretty 0 e.2.doubleFree_toValue (Nat.le_refl _))
    refine .inr ⟨deep, cause, tooDeep, ?_⟩
    rw [Schema.toPrettyJson, hc]
    rfl
  · have read := Schema.ofJson_of_spells (storable.normal e he)
      (Json.spells_printPretty 0 e.2.doubleFree_toValue (e.2.nesting_toValue ▸ shallow))
    refine .inl ⟨shallow, ?_⟩
    rw [Schema.toPrettyJson, read]
    rfl

private theorem exists_of_mem_read {read : Name → Except SchemaError (String × Schema)}
    {files : List Name}
    {defs : List (String × Schema)} (h : files.map read = defs.map .ok) {file : Name}
    (hf : file ∈ files) : ∃ d ∈ defs, read file = .ok d := by
  have : read file ∈ defs.map Except.ok := h ▸ List.mem_map_of_mem hf
  obtain ⟨d, hd, he⟩ := List.mem_map.mp this
  exact ⟨d, hd, he.symm⟩

private theorem mem_defs_iff (hdir : r.directory ≠ []) (storable : Storable r entries)
    (stored : Stored t r.directory entries) {good : List Name} {defs : List (String × Schema)}
    (known : ∀ file ∈ good, ∃ e ∈ entries, file = fileName e.1)
    (read : good.map (readDefinition t r.directory) = defs.map .ok) {d : String × Schema} :
    d ∈ defs ↔ ∃ e ∈ entries, fileName e.1 ∈ good ∧ d = (e.1, e.2.settleBounds) := by
  constructor
  · intro hd
    have : Except.ok d ∈ good.map (readDefinition t r.directory) := read ▸ List.mem_map_of_mem hd
    obtain ⟨file, hf, hd⟩ := List.mem_map.mp this
    obtain ⟨e, he, rfl⟩ := known file hf
    refine ⟨e, he, hf, ?_⟩
    rcases readDefinition_cases hdir storable stored he with ⟨-, hr⟩ | ⟨-, cause, -, hr⟩
    · rw [hr] at hd
      exact (Except.ok.inj hd).symm
    · rw [hr] at hd
      cases hd
  · rintro ⟨e, he, hf, rfl⟩
    obtain ⟨d, hd, answered⟩ := exists_of_mem_read read hf
    rcases readDefinition_cases hdir storable stored he with ⟨-, hr⟩ | ⟨-, cause, -, hr⟩
    · rw [hr] at answered
      rwa [Except.ok.inj answered]
    · rw [hr] at answered
      cases answered

private theorem deep_of_rejects (hdir : r.directory ≠ []) (fresh : ∀ name, r.find? name = none)
    (storable : Storable r entries) (stored : Stored t r.directory entries)
    {good : List Name} {defs : List (String × Schema)} {u : String × Schema} {e : SchemaError}
    (known : ∀ file ∈ good, ∃ e ∈ entries, file = fileName e.1)
    (read : good.map (readDefinition t r.directory) = defs.map .ok) (grows : Grows r defs r')
    (hu : u ∈ entries) (new : fileName u.1 ∉ good) (rejects : Rejects t r' (fileName u.1) e) :
    Json.depthLimit < u.2.levels ∧ ∃ cause : Json.Error, cause.cause = .tooDeep ∧
      e = .unparsable (r.filePath u.1).text cause := by
  rcases readDefinition_cases hdir storable stored hu with ⟨-, hr⟩ | ⟨deep, cause, tooDeep, hr⟩
  · have free : u.1 ∉ defs.map Prod.fst := by
      intro hm
      obtain ⟨d, hd, he⟩ := List.mem_map.mp hm
      obtain ⟨w, -, hf, rfl⟩ := (mem_defs_iff hdir storable stored known read).mp hd
      have same : w.1 = u.1 := he
      exact new (same ▸ hf)
    have admits : r'.Admits u.1 u.2.settleBounds := by
      apply grows.admits (fresh _) free
      rw [Schema.depth_settleBounds]
      exact storable.depth_le u hu
    rw [← grows.directory_eq] at hr
    cases rejects with
    | unreadable failed =>
      rw [failed] at hr
      cases hr
    | refused answered refuses =>
      rw [answered] at hr
      cases hr
      exact absurd admits refuses
  · rw [← grows.directory_eq] at hr
    refine ⟨deep, cause, tooDeep, ?_⟩
    cases rejects with
    | unreadable failed =>
      rw [failed] at hr
      exact Except.error.inj hr
    | refused answered refuses =>
      rw [answered] at hr
      cases hr

/-- What a load leaves that got all schemas back, with their bounds settled, and no others. -/
structure Restored (entries : List (String × Schema)) (o : Outcome Registry SchemaError Nat) :
    Prop where
  /-- Their number is answered. -/
  answer : o.answer = .ok entries.length
  /-- The schemas are those that were saved. -/
  find?_iff : ∀ name s, o.state.find? name = some s ↔
    ∃ u, (name, u) ∈ entries ∧ s = u.settleBounds

/-- A load fails for the brackets of one of the schemas. -/
def Refused (r : Registry) (entries : List (String × Schema))
    (o : Outcome Registry SchemaError Nat) : Prop :=
  ∃ e ∈ entries, Json.depthLimit < e.2.levels ∧ ∃ cause : Json.Error, cause.cause = .tooDeep ∧
    o.answer = .error (.unparsable (r.filePath e.1).text cause)

private theorem load_of_stored (hdir : r.directory ≠ []) (fresh : ∀ name, r.find? name = none)
    (storable : Storable r entries) (stored : Stored t r.directory entries) :
    (∀ e ∈ entries, e.2.levels ≤ Json.depthLimit) ∧ Restored entries ((loadAll t).run r) ∨
      Refused r entries ((loadAll t).run r) := by
  obtain ⟨children, found, perm⟩ := id stored
  have names : t.namesAt r.directory = .ok (children.map Prod.fst) := by
    simp [Tree.namesAt, found, bind, Except.bind]
  obtain ⟨state, answer⟩ := run_loadAll_of_names names
  obtain ⟨defs, loads⟩ := loads_loadFiles t (fileNames (children.map Prod.fst)) r
  rw [← state] at loads
  have listed := fileNames_of_stored perm storable.fits
  -- From here on only which files there are matters, not in which order they are taken.
  generalize fileNames (children.map Prod.fst) = files at answer loads listed
  have known : ∀ file ∈ files, ∃ e ∈ entries, file = fileName e.1 := by
    intro file hf
    obtain ⟨name, hn, rfl⟩ :=
      List.mem_map.mp ((files_perm perm).mem_iff.mp (listed.mem_iff.mp hf))
    obtain ⟨e, he, rfl⟩ := List.mem_map.mp hn
    exact ⟨e, he, rfl⟩
  have there : ∀ e ∈ entries, fileName e.1 ∈ files := by
    intro e he
    exact listed.mem_iff.mpr ((mem_files_iff perm).mpr (List.mem_map_of_mem he))
  generalize (loadAll t).run r = o at answer loads
  generalize ((loadFiles t files).run r).answer = ended at answer loads
  cases loads with
  | ended read grows =>
    refine .inl ⟨?_, ?_, ?_⟩
    · intro e he
      rcases readDefinition_cases hdir storable stored he with ⟨shallow, -⟩ | ⟨-, cause, -, hr⟩
      · exact shallow
      · obtain ⟨d, -, answered⟩ := exists_of_mem_read read (there e he)
        rw [hr] at answered
        cases answered
    · rw [answer, listed.length_eq, List.length_map, perm.length_eq, List.length_map]
      rfl
    · intro name s
      rw [grows.find?_iff, fresh, mem_defs_iff hdir storable stored known read]
      constructor
      · rintro (h | ⟨e, he, -, h⟩)
        · cases h
        · cases h
          exact ⟨e.2, he, rfl⟩
      · rintro ⟨u, hu, rfl⟩
        exact .inr ⟨(name, u), hu, there _ hu, rfl⟩
  | @stopped good later bad e split read grows rejects =>
    obtain ⟨u, hu, rfl⟩ := known bad (by simp [split])
    -- No other schema has this file, so its name is still free when the file is refused.
    have new : fileName u.1 ∉ good := by
      intro hf
      have distinct := listed.nodup_iff.mpr (nodup_files perm storable.nodup)
      rw [split] at distinct
      exact (List.nodup_append.mp distinct).2.2 _ hf _ List.mem_cons_self rfl
    have front : ∀ file ∈ good, ∃ e ∈ entries, file = fileName e.1 := by
      intro file hf
      apply known
      rw [split]
      exact List.mem_append_left _ hf
    obtain ⟨deep, cause, tooDeep, rfl⟩ :=
      deep_of_rejects hdir fresh storable stored front read grows hu new rejects
    exact .inr ⟨u, hu, deep, cause, tooDeep, answer⟩

private theorem load_of_nothing (fresh : ∀ name, r.find? name = none)
    (absent : t.contains r.directory = false) : Restored [] ((loadAll t).run r) := by
  rw [loadAll, Action.run_bind_ok (Action.run_state r), absent]
  refine ⟨rfl, ?_⟩
  intro name s
  change r.find? name = some s ↔ _
  simp [fresh]

private theorem load_of_saveAll (fresh : ∀ name, r.find? name = none)
    (vacant : Vacant t r.directory)
    (storable : Storable r entries) : ∃ t', (saveAll r entries).run t = ⟨.ok (), t', []⟩ ∧
      ((∀ e ∈ entries, e.2.levels ≤ Json.depthLimit) ∧ Restored entries ((loadAll t').run r) ∨
        Refused r entries ((loadAll t').run r)) := by
  obtain ⟨t', run, left⟩ := run_saveAll vacant storable.fits storable.nodup
  refine ⟨t', run, ?_⟩
  rcases left with stored | ⟨rfl, absent⟩
  · exact load_of_stored vacant.1 fresh storable stored
  · exact .inl ⟨by simp, load_of_nothing fresh absent⟩

private theorem register_eq_ok_iff (free : r.find? name = none) :
    ((register name s).run r).answer = .ok s ↔ s.depth ≤ r.maxDepth := by
  constructor
  · intro h
    exact (admits_of_register h).2
  · intro h
    rw [run_register_of_admits ⟨contains_eq_false_iff.mpr free, h⟩]

/-! ## There and back -/

/-- The schemas that a registry accepts are those that are not too deep for it. Those that are saved
under names that fit are loaded again by another registry of the directory, with zero for every
bound that bounds nothing and no others beside them, if none of their texts has more brackets open
at once than a reader allows, for which a greatest depth of 63 is enough. If there is one that has,
all are saved as well and the load fails for the brackets of such a one. -/
theorem saved_schemas_are_loaded_iff_shallow {m : Nat} {t : Tree} {dir : Path}
    {entries : List (String × Schema)} (vacant : Vacant t dir)
    (storable : Storable ((ofDirectory dir).withMaxDepth m) entries) :
    let r := (ofDirectory dir).withMaxDepth m
    let saved := (saveAll r entries).run t
    let loaded := (loadAll saved.state).run r
    (∀ name s, ((register name s).run r).answer = .ok s ↔ s.depth ≤ m) ∧
      saved.answer = .ok () ∧
      (m ≤ 63 ∨ (∀ e ∈ entries, e.2.levels ≤ Json.depthLimit) → Restored entries loaded) ∧
      ((∃ e ∈ entries, Json.depthLimit < e.2.levels) → Refused r entries loaded) := by
  intro r saved loaded
  have fresh (name : String) : r.find? name = none := rfl
  obtain ⟨t', run, load⟩ := load_of_saveAll fresh vacant storable
  have run : saved = ⟨.ok (), t', []⟩ := run
  have same : loaded = (loadAll t').run r := by simp only [loaded, run]
  rw [← same] at load
  refine ⟨fun name s ↦ register_eq_ok_iff (fresh name), by rw [run], ?_, ?_⟩
  · intro enough
    have shallow : ∀ e ∈ entries, e.2.levels ≤ Json.depthLimit := by
      rcases enough with few | shallow
      · intro e he
        have deep : e.2.depth ≤ m := storable.depth_le e he
        have := e.2.levels_le
        rw [Json.depthLimit]
        omega
      · exact shallow
    rcases load with ⟨-, restored⟩ | ⟨e, he, deep, -⟩
    · exact restored
    · exact absurd (shallow e he) (Nat.not_le.mpr deep)
  · rintro ⟨e, he, deep⟩
    rcases load with ⟨shallow, -⟩ | refused
    · exact absurd (shallow e he) (Nat.not_le.mpr deep)
    · exact refused

/-- A text with a bound that bounds nothing is saved in an empty directory and loaded. -/
theorem unbounded_text_is_saved_and_loaded :
    let t : Tree := ⟨[(Path.ofText "types", .directory [])]⟩
    let r := ofDirectory (Path.ofText "types")
    Restored [("note", .string (-1))]
      ((loadAll ((saveAll r [("note", .string (-1))]).run t).state).run r) := by
  have vacant : Vacant ⟨[(Path.ofText "types", .directory [])]⟩ (Path.ofText "types") :=
    vacant_of_empty (by decide) rfl
  have storable : Storable ((ofDirectory (Path.ofText "types")).withMaxDepth 64)
      [("note", .string (-1))] :=
    storable_singleton ⟨by decide, by decide, by decide, by decide⟩ trivial (by decide)
  exact (saved_schemas_are_loaded_iff_shallow vacant storable).2.2.1 (.inr (by decide))

/-- Tables one inside the other, a number of them around the innermost. -/
def nestedTables : Nat → Schema
  | 0 => .table []
  | n + 1 => .table [("a", nestedTables n)]

private theorem depth_nestedTables (n : Nat) : (nestedTables n).depth = n + 1 := by
  induction n with
  | zero => rfl
  | succ n ih => simp [nestedTables, Schema.depth, Schema.depthOfFields, ih]; omega

private theorem levels_nestedTables (n : Nat) : (nestedTables n).levels = 2 * (n + 1) := by
  induction n with
  | zero => rfl
  | succ n ih => simp [nestedTables, Schema.levels, Schema.levelsOfFields, ih]; omega

private theorem normal_nestedTables (n : Nat) : (nestedTables n).Normal := by
  induction n with
  | zero => exact ⟨Dictionary.sorted_nil, trivial⟩
  | succ n ih => exact ⟨List.pairwise_singleton _ _, ih, trivial⟩

/-- Sixty-four tables inside each other are as deep as is allowed by default. They are registered
and saved, and are not loaded. -/
theorem nested_tables_are_saved_and_not_loaded :
    let r := ofDirectory (Path.ofText "types")
    let saved := (saveAll r [("deep", nestedTables 63)]).run Tree.empty
    ((register "deep" (nestedTables 63)).run r).answer = .ok (nestedTables 63) ∧
      saved.answer = .ok () ∧ ∃ cause : Json.Error, cause.cause = .tooDeep ∧
        ((loadAll saved.state).run r).answer =
          .error (.unparsable (r.filePath "deep").text cause) := by
  intro r saved
  have fresh (name : String) : r.find? name = none := rfl
  have depth : (nestedTables 63).depth ≤ r.maxDepth := by
    rw [depth_nestedTables]
    decide
  have vacant : Vacant Tree.empty r.directory :=
    vacant_of_absent (by decide) (by decide) rfl rfl
  have storable : Storable r [("deep", nestedTables 63)] :=
    storable_singleton ⟨by decide, by decide, by decide, by decide⟩ (normal_nestedTables 63) depth
  obtain ⟨t', run, load⟩ := load_of_saveAll fresh vacant storable
  have run : saved = ⟨.ok (), t', []⟩ := run
  refine ⟨(register_eq_ok_iff (fresh _)).mpr depth, by rw [run], ?_⟩
  rw [run]
  rcases load with ⟨shallow, -⟩ | ⟨e, he, -, refused⟩
  · have := shallow _ List.mem_cons_self
    rw [levels_nestedTables] at this
    exact absurd this (by decide)
  · obtain rfl := List.mem_singleton.mp he
    exact refused

end Registry

end SchemaDoc
