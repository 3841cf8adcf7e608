import SchemaDoc.Proofs.Files.Frame
import SchemaDoc.Proofs.Registry.Loading
import SchemaDoc.Proofs.Registry.Saving

/-!
# Where schemas are saved

A schema is saved in one new file of the directory of its registry, whose stem is the name, or
nothing is saved. Whether the file is there already is asked before the missing directories are
made. A path that goes up again out of such a directory finds nothing when it is asked about, and
may lead to a file once the directory has been made; that file is then overwritten.
-/

namespace SchemaDoc

open Files

namespace Registry

variable {r : Registry} {t t₁ t' : Tree} {name : String} {s : Schema}

/-! ## Names of files -/

/-- A name that is a plain stem: not empty, in one piece, and without two dots in a row. -/
structure Plain (name : String) : Prop where
  /-- The name is not empty. -/
  ne_empty : name ≠ ""
  /-- The name has no separator. -/
  slash_notMem : '/' ∉ name.toList
  /-- The name has no two dots in a row. -/
  no_two_dots : ¬['.', '.'] <:+: name.toList

private theorem hasTwoDots_iff (cs : List Char) : hasTwoDots cs = true ↔ ['.', '.'] <:+: cs := by
  fun_induction hasTwoDots cs with
  | case1 cs => simpa using (List.prefix_append ['.', '.'] cs).isInfix
  | case2 c cs other ih =>
    rw [ih, List.infix_cons_iff, or_iff_right]
    rintro ⟨rest, h⟩
    cases h
    exact other _ rfl rfl
  | case3 => simp

private theorem isPlainStem_iff : isPlainStem name = true ↔ Plain name := by
  have dots : hasTwoDots name.toList = false ↔ ¬['.', '.'] <:+: name.toList := by
    rw [← hasTwoDots_iff, Bool.not_eq_true]
  simp only [isPlainStem, Bool.and_eq_true, decide_eq_true_eq, Bool.not_eq_true', dots,
    List.contains_eq_mem, decide_eq_false_iff_not]
  constructor
  · rintro ⟨⟨ne, nodots⟩, noslash⟩
    exact ⟨ne, noslash, nodots⟩
  · rintro ⟨ne, noslash, nodots⟩
    exact ⟨⟨ne, nodots⟩, noslash⟩

private theorem fileName_ne_nil : fileName name ≠ [] := by
  simp [fileName]

private theorem Plain.slash_notMem_fileName (h : Plain name) : slash ∉ fileName name := by
  intro hs
  rcases List.mem_append.mp hs with hn | ht
  · exact h.slash_notMem (Utf8.mem_of_mem_encode hn (by decide))
  · exact absurd ht (by decide)

/-- The place of the file for a name: in the directory that the path of the registry leads to. -/
def place (r : Registry) (name : String) : Location :=
  follow [] r.directory.names ++ [fileName name]

private theorem place_inj {other : String} (h : r.place name = r.place other) : name = other :=
  fileName_inj (List.singleton_inj.mp (List.append_cancel_left h))

private theorem names_filePath (h : Plain name) :
    (r.filePath name).names = r.directory.names ++ [fileName name] :=
  Path.names_join r.directory fileName_ne_nil h.slash_notMem_fileName

private theorem follow_filePath (h : Plain name) :
    follow [] (r.filePath name).names = r.place name := by
  have long : 2 < (fileName name).length := by
    simp [fileName, extension, Path.ofText, Utf8.encode, Utf8.encodeChar]
  rw [names_filePath h, place, follow_concat]
  · intro he
    simp [he, here] at long
  · intro he
    simp [he, above] at long

private theorem fits_of_locate (h : Plain name) {spot : Spot t.top}
    (hs : t.locate (r.filePath name) = .ok spot) : Fits r.directory name := by
  obtain ⟨zero, -, short, walked⟩ := Tree.locate_eq_ok_iff.mp hs
  rw [names_filePath h] at walked
  refine ⟨isPlainStem_iff.mpr h, ?_, ?_, short⟩
  · intro hz
    obtain ⟨gap, he, -⟩ := Path.exists_join r.directory (fileName name)
    have inside : (0 : UInt8) ∈ fileName name :=
      List.mem_append_left _ (List.mem_flatMap.mpr ⟨_, hz, by decide⟩)
    apply zero
    rw [filePath_eq, he]
    exact List.mem_append_right _ (List.mem_append_right _ inside)
  · exact Spot.length_le_of_walk walked _ (by simp)

/-! ## Files that are not overlooked -/

private theorem contains_of_above_notMem (h : Plain name) (up : above ∉ r.directory.names)
    {spot : Spot t₁.top} (hs : t₁.locate (r.filePath name) = .ok spot) {n : Node}
    (hn : t.node? (r.place name) = some n) : t.contains (r.filePath name) = true := by
  have fits := fits_of_locate h hs
  obtain ⟨zero, ne, long, reached⟩ := Tree.locate_eq_ok_iff.mp hs
  have short := Spot.length_le_of_walk reached
  rw [names_filePath h] at short
  obtain ⟨b, hb, -⟩ := Option.map_eq_some_iff.mp hn
  have around : Branch.node? (follow [] r.directory.names) t.top = some .directory := by
    have := Branch.node?_dropLast (by simp [place]) hb
    rwa [place, List.dropLast_concat] at this
  obtain ⟨p, hp⟩ := Spot.exists_walk (s := Spot.ofLocation t.top []) up
    (fun n hn ↦ short n (List.mem_append_left _ hn)) (by rwa [Spot.location_ofLocation])
  have there : p.location = follow [] r.directory.names := by
    rw [Spot.location_eq_follow hp, Spot.location_ofLocation]
  have inside : p.node? = some .directory := by
    rw [← Spot.node?_location, there, around]
  have walked : (Spot.ofLocation t.top []).walk (r.filePath name).names =
      .ok (p.down (fileName name)) := by
    rw [names_filePath h, Spot.walk_append, hp]
    change p.walk [fileName name] = _
    rw [Spot.walk, Spot.step_of_proper inside fits.proper]
    rfl
  have located : t.locate (r.filePath name) = .ok (p.down (fileName name)) :=
    Tree.locate_eq_ok_iff.mpr ⟨zero, ne, long, walked⟩
  have found : (p.down (fileName name)).branch? = some b := by
    rw [← Spot.at?_location, Spot.location_down, there]
    exact hb
  have ends : (r.filePath name).endsInSlash = false := Path.endsInSlash_join fits.proper
  cases b <;> simp [Tree.contains, Tree.find, located, found, ends, bind, Except.bind,
    Except.toBool]

private theorem node?_place_of_absent (h : Plain name) {contents : Bytes}
    (absent : t.contains (r.filePath name) = false)
    (written : t.writeAt (r.filePath name) contents = .ok t') : t.node? (r.place name) = none := by
  obtain ⟨spot, hs, file, ends, -⟩ := Tree.writeAt_eq_ok_iff.mp written
  have there : spot.location = r.place name := by
    rw [Spot.location_eq_follow (Tree.walk_of_locate hs), Spot.location_ofLocation,
      follow_filePath h]
  rw [← there, Tree.node?, Spot.node?_location, Spot.node?]
  cases hb : spot.branch? with
  | none => rfl
  | some b =>
    cases b <;> simp [Tree.contains, Tree.find, hs, hb, ends, bind, Except.bind,
      Except.toBool] at absent

/-! ## Saving -/

/-- What a schema that is saved leaves: one new file in the directory, which a load takes for that
of its name, and no other change but that missing directories on the way have been made. -/
structure Creates (t : Tree) (r : Registry) (name : String) (s : Schema) (t' : Tree) : Prop where
  /-- There was nothing before. -/
  new : t.node? (r.place name) = none
  /-- The file is there. -/
  written : t'.node? (r.place name) = some (.file s.toPrettyJson)
  /-- Nothing else has changed, but for directories. -/
  frame : ∀ l, l ≠ r.place name → t'.node? l = t.node? l ∨
    t.node? l = none ∧ t'.node? l = some .directory ∧ LeadsThrough [] r.directory.names l
  /-- The file is in the directory of the registry. -/
  around : t'.node? (follow [] r.directory.names) = some .directory
  /-- The file has the extension for schemas. -/
  extension : (fileName name).extension? = some Registry.extension
  /-- The stem of the file is the name. -/
  stem : Utf8.decode? (fileName name).stem = some name
  /-- The file is found at the path for its name. -/
  found : t'.find (r.filePath name) = .ok (.file s.toPrettyJson)
  /-- A load takes the file. -/
  listed : r.directory ≠ [] →
    ∃ names, t'.namesAt r.directory = .ok names ∧ fileName name ∈ fileNames names
  /-- What a load reads from the file has this name. -/
  defines_iff : ∀ n u, Defines t' r (fileName name) n u ↔
    n = name ∧ Schema.ofJson s.toPrettyJson = .ok u
  /-- No other name has this file. -/
  apart : ∀ other, r.place other = r.place name → other = name

private theorem defines_fileName_iff (h : Plain name) (found : t.find (r.filePath name) =
    .ok (.file s.toPrettyJson)) (n : String) (u : Schema) :
    Defines t r (fileName name) n u ↔ n = name ∧ Schema.ofJson s.toPrettyJson = .ok u := by
  have stem := decode?_stem_fileName h.ne_empty
  obtain ⟨text, read, bytes⟩ := exists_textAt_of_find found
  rw [filePath_eq] at read
  constructor
  · rintro ⟨hn, text', ht', hu⟩
    cases read.symm.trans ht'
    exact ⟨(Option.some.inj (stem.symm.trans hn)).symm, bytes ▸ hu⟩
  · rintro ⟨rfl, hu⟩
    exact ⟨stem, text, read, bytes ▸ hu⟩

private theorem listed_of_find {contents : Bytes} (hdir : r.directory ≠ [])
    (fits : Fits r.directory name) (found : t.find (r.filePath name) = .ok (.file contents)) :
    ∃ names, t.namesAt r.directory = .ok names ∧ fileName name ∈ fileNames names := by
  obtain ⟨children, hd, hc⟩ :=
    (Tree.find_join_eq_ok_iff hdir fits.proper fits.path_length_le).mp found
  refine ⟨children.map Prod.fst, by simp [Tree.namesAt, hd, bind, Except.bind], ?_⟩
  refine mem_fileNames.mpr ⟨?_, extension?_fileName fits.ne_empty⟩
  exact List.mem_map_of_mem (Branch.mem_of_child? hc)

private theorem creates_of_writes (h : Plain name)
    (opens : Tree.Opens (LeadsThrough [] r.directory.names) t t₁)
    (written : t₁.writeAt (r.filePath name) s.toPrettyJson = .ok t')
    (new : t.node? (r.place name) = none) : Creates t r name s t' := by
  obtain ⟨spot, hs, -, -, -⟩ := Tree.writeAt_eq_ok_iff.mp written
  have fits := fits_of_locate h hs
  obtain ⟨before, around, node?_eq, found⟩ := Tree.writes_writeAt written
  rw [follow_filePath h] at before around node?_eq
  refine ⟨new, ?_, ?_, ?_, extension?_fileName h.ne_empty, decode?_stem_fileName h.ne_empty, found,
    fun hdir ↦ listed_of_find hdir fits found, defines_fileName_iff h found, fun _ ↦ place_inj⟩
  · rw [node?_eq, if_pos rfl]
  · intro l hl
    rw [node?_eq, if_neg hl]
    exact opens l
  · rw [place, List.dropLast_concat] at around
    rw [node?_eq, if_neg, around]
    intro he
    simpa [place] using congrArg List.length he

private theorem run_save_of_absent (h : Plain name) (absent : t.contains (r.filePath name) = false)
    (s : Schema) :
    (∃ cause, (r.save name s).run t =
      ⟨.error (.unwritable (r.filePath name).text cause), (t.ensureDirectory r.directory).2, []⟩) ∨
    ∃ t₁ t', t.ensureDirectory r.directory = (.ok (), t₁) ∧
      t₁.writeAt (r.filePath name) s.toPrettyJson = .ok t' ∧
      (r.save name s).run t = ⟨.ok (r.filePath name), t', []⟩ := by
  have plain : (!isPlainStem name) = false := by rw [isPlainStem_iff.mpr h]; rfl
  simp only [Action.run, save, plain, absent, Bool.false_eq_true, if_false]
  cases hd : t.ensureDirectory r.directory with
  | mk made t₁ =>
    cases made with
    | error cause => exact .inl ⟨cause, rfl⟩
    | ok u =>
      cases hw : t₁.writeAt (r.filePath name) s.toPrettyJson with
      | error cause => exact .inl ⟨cause, by simp only [hw]⟩
      | ok t' => exact .inr ⟨t₁, t', rfl, hw, by simp only [hw]⟩

private theorem new_of_foreseen (h : Plain name)
    (foreseen : above ∉ r.directory.names ∨ t.contains r.directory = true ∨
      t.node? (r.place name) = none)
    (absent : t.contains (r.filePath name) = false)
    (made : t.ensureDirectory r.directory = (.ok (), t₁))
    (written : t₁.writeAt (r.filePath name) s.toPrettyJson = .ok t') :
    t.node? (r.place name) = none := by
  rcases foreseen with up | there | new
  · cases hn : t.node? (r.place name) with
    | none => rfl
    | some n =>
      obtain ⟨spot, hs, -⟩ := Tree.writeAt_eq_ok_iff.mp written
      simp [contains_of_above_notMem h up hs hn] at absent
  · -- The directory need not be made, so the file is looked for and written in the same tree.
    cases hf : t.find r.directory with
    | error e => simp [Tree.contains, hf, Except.toBool] at there
    | ok b =>
      have hdir : r.directory ≠ [] := by
        intro he
        simp [he, Tree.find, Tree.locate, bind, Except.bind] at hf
      cases b with
      | file contents => simp [Tree.ensureDirectory_of_find_file hdir hf] at made
      | directory children =>
        rw [Tree.ensureDirectory_of_find hdir hf] at made
        cases made
        exact node?_place_of_absent h absent written
  · exact new

/-- A schema is saved in one new file of the directory, which has the extension for schemas and the
name for its stem, or the call fails and no file is created, changed or removed. A name that is
empty, has a separator or has two dots in a row is refused, and a file that is there already stays,
both before anything is touched; only if the file cannot be written may directories have been made.
Nothing is overlooked if the path of the directory does not go up, if the directory is there, or if
nothing stands at the place of the file. -/
theorem save_creates_one_file_or_none
    (foreseen : above ∉ r.directory.names ∨ t.contains r.directory = true ∨
      t.node? (r.place name) = none) :
    let o := (r.save name s).run t
    (¬Plain name → o.answer = .error (.badName name) ∧ o.state = t) ∧
      (Plain name → t.contains (r.filePath name) = true →
        o.answer = .error (.alreadyThere name) ∧ o.state = t) ∧
      (∀ e, o.answer = .error e → o.state = t ∨
        (∃ cause, e = .unwritable (r.filePath name).text cause) ∧
          Tree.Opens (LeadsThrough [] r.directory.names) t o.state) ∧
      ∀ path, o.answer = .ok path → path = r.filePath name ∧ Creates t r name s o.state := by
  intro o
  by_cases h : Plain name
  · by_cases there : t.contains (r.filePath name) = true
    · have taken : o = ⟨.error (.alreadyThere name), t, []⟩ := by
        simp [o, Action.run, save, isPlainStem_iff.mpr h, there]
      rw [taken]
      exact ⟨fun bad ↦ absurd h bad, fun _ _ ↦ ⟨rfl, rfl⟩, fun _ _ ↦ .inl rfl,
        fun path hp ↦ (by cases hp)⟩
    · have absent : t.contains (r.filePath name) = false := by simpa using there
      have opens := Tree.opens_ensureDirectory t r.directory
      refine ⟨fun bad ↦ absurd h bad, fun _ found ↦ absurd found there, ?_⟩
      rcases run_save_of_absent h absent s with ⟨cause, run⟩ | ⟨t₁, t', made, written, run⟩
      · rw [show o = _ from run]
        refine ⟨fun e he ↦ .inr ⟨⟨cause, (Except.error.inj he).symm⟩, opens⟩,
          fun path hp ↦ (by cases hp)⟩
      · rw [show o = _ from run]
        rw [made] at opens
        refine ⟨fun e he ↦ (by cases he), fun path hp ↦ ⟨(Except.ok.inj hp).symm, ?_⟩⟩
        exact creates_of_writes h opens written (new_of_foreseen h foreseen absent made written)
  · have refused : o = ⟨.error (.badName name), t, []⟩ := by
      have bad : isPlainStem name = false := by
        rw [← Bool.not_eq_true, isPlainStem_iff]
        exact h
      simp [o, Action.run, save, bad]
    rw [refused]
    exact ⟨fun _ ↦ ⟨rfl, rfl⟩, fun plain ↦ absurd plain h, fun _ _ ↦ .inl rfl,
      fun path hp ↦ (by cases hp)⟩

/-- A file beside others is created, in a directory that is made for it. -/
theorem number_is_saved_beside_a_file :
    let t : Tree := ⟨[(Path.ofText "b", .directory [(Path.ofText "x.json", .file [1])])]⟩
    let r := ofDirectory (Path.ofText "b/types")
    let o := (r.save "x" .number).run t
    o.answer = .ok (Path.ofText "b/types/x.json") ∧ Creates t r "x" .number o.state := by
  intro t r o
  have answer : o.answer = .ok (Path.ofText "b/types/x.json") := rfl
  have up : above ∉ r.directory.names := by decide
  exact ⟨answer, ((save_creates_one_file_or_none (.inl up)).2.2.2 _ answer).2⟩

/-- The path goes up out of a directory that is missing, so the file is not found and is then
overwritten. -/
theorem file_behind_missing_directory_is_overwritten :
    let t : Tree := ⟨[(Path.ofText "b", .directory [(Path.ofText "x.json", .file [1])])]⟩
    let r := ofDirectory (Path.ofText "a/../b")
    let o := (r.save "x" .number).run t
    o.answer = .ok (Path.ofText "a/../b/x.json") ∧
      t.node? (r.place "x") = some (.file [1]) ∧
      o.state.node? (r.place "x") = some (.file Schema.number.toPrettyJson) :=
  ⟨rfl, rfl, rfl⟩

end Registry

end SchemaDoc
