import SchemaDoc.Files.Tree

/-!
# Files in a directory

The path of a name in a directory leads to the directory and then to the name. So what is found
there is the child of that name, and a file that is written there becomes a child of the directory
and leaves every other directory where it was.
-/

namespace SchemaDoc.Files

/-! ## Paths -/

/-- A name that a file can have in any directory. -/
structure Name.Proper (name : Name) : Prop where
  /-- The name is not empty. -/
  ne_nil : name ≠ []
  /-- The name is one name. -/
  slash_notMem : slash ∉ name
  /-- The name has no zero byte. -/
  zero_notMem : 0 ∉ name
  /-- The name does not stay in the directory. -/
  ne_here : name ≠ here
  /-- The name does not leave the directory. -/
  ne_above : name ≠ above
  /-- The name can be looked up. -/
  length_le : name.length ≤ Spot.nameLimit

/-- A name with an extension is cut before the extension. -/
theorem Name.splitAtDot_append {stem extension : Name} (hs : stem ≠ []) (he : extension ≠ [])
    (hd : dot ∉ extension) : splitAtDot (stem ++ dot :: extension) = (stem, some extension) := by
  have apart : ∀ b ∈ extension.reverse, decide (b ≠ dot) = true := by
    intro b hb
    rw [decide_eq_true_iff]
    rintro rfl
    exact hd (List.mem_reverse.mp hb)
  have back : (stem ++ dot :: extension).reverse =
      extension.reverse ++ (dot :: stem.reverse) := by simp
  have behind : ((stem ++ dot :: extension).reverse.takeWhile (· ≠ dot)).reverse = extension := by
    rw [back, List.takeWhile_append_of_pos apart]
    simp
  have before : ((stem ++ dot :: extension).reverse.dropWhile (· ≠ dot)).reverse.dropLast =
      stem := by
    rw [back, List.dropWhile_append_of_pos apart]
    simp
  have inside : stem ++ dot :: extension ≠ above := by
    intro h
    have := congrArg List.length h
    have hs := List.length_pos_iff.mpr hs
    have he := List.length_pos_iff.mpr he
    simp only [List.length_append, List.length_cons, above, List.length_nil] at this
    omega
  have shorter : extension.length ≠ (stem ++ dot :: extension).length := by
    simp only [List.length_append, List.length_cons]
    omega
  rw [splitAtDot, behind, before, if_neg]
  rintro (h | h | h)
  · exact inside h
  · exact shorter h
  · exact hs h

/-- A name that is cut is what stands before the dot, the dot and what stands behind it. -/
theorem Name.eq_append_of_splitAtDot {name stem extension : Name}
    (h : splitAtDot name = (stem, some extension)) : name = stem ++ dot :: extension := by
  rw [splitAtDot] at h
  split at h
  · cases h
  next cut =>
  simp only [Prod.mk.injEq, Option.some.injEq] at h
  obtain ⟨rfl, rfl⟩ := h
  have whole := List.takeWhile_append_dropWhile (p := fun b ↦ decide (b ≠ dot))
    (l := name.reverse)
  -- What is left begins with the dot at which the search stopped.
  have stop (b : UInt8) (front : Name) (hd : name.reverse.dropWhile (· ≠ dot) = b :: front) :
      b = dot := by
    have := List.head_dropWhile_not (fun b ↦ decide (b ≠ dot)) (l := name.reverse)
      (hd ▸ List.cons_ne_nil b front)
    simpa only [hd, List.head_cons, decide_eq_false_iff_not, Decidable.not_not] using this
  generalize name.reverse.takeWhile (· ≠ dot) = behind at *
  generalize name.reverse.dropWhile (· ≠ dot) = left at *
  cases left with
  | nil => simp at cut
  | cons b front =>
    obtain rfl := stop b front rfl
    rw [← List.reverse_reverse name, ← whole]
    simp

namespace Path

variable {path : Path} {name : Name}

private theorem namesFrom_append (begun : Name) (path rest : Path) :
    namesFrom begun (path ++ slash :: rest) = namesFrom begun path ++ names rest := by
  induction path generalizing begun with
  | nil => by_cases h : begun = [] <;> simp [namesFrom, names, h]
  | cons b path ih =>
    by_cases hb : b = slash
    · by_cases h : begun = [] <;> simp [namesFrom, hb, h, ih]
    · simp [namesFrom, hb, ih]

private theorem namesFrom_eq_singleton {begun : Name} (h : slash ∉ path)
    (hn : begun.reverse ++ path ≠ []) :
    namesFrom begun path = [begun.reverse ++ path] := by
  induction path generalizing begun with
  | nil =>
    have : begun ≠ [] := by simpa using hn
    simp [namesFrom, this]
  | cons b path ih =>
    obtain ⟨hb, h⟩ : slash ≠ b ∧ slash ∉ path := by simpa using h
    rw [namesFrom, if_neg (Ne.symm hb), ih h (by simp)]
    simp

private theorem names_eq_singleton (hn : name ≠ []) (hs : slash ∉ name) : names name = [name] :=
  namesFrom_eq_singleton hs hn

/-- The names of a joined path are those of the directory and the name. -/
theorem names_join (path : Path) (hn : name ≠ []) (hs : slash ∉ name) :
    (join path name).names = path.names ++ [name] := by
  rw [join]
  split
  · next ends =>
    rcases ends with rfl | ends
    · exact names_eq_singleton hn hs
    -- The slash at the end of the path is the one that stands before the name.
    have last : path.getLast? = some slash := by simpa [endsInSlash] using ends
    obtain ⟨front, rfl⟩ := List.getLast?_eq_some_iff.mp last
    have front_eq : names (front ++ [slash]) = names front := by
      rw [names, namesFrom_append]
      exact List.append_nil _
    rw [front_eq, List.append_assoc, List.singleton_append, names, namesFrom_append,
      names_eq_singleton hn hs, names]
  · rw [names, namesFrom_append, names_eq_singleton hn hs, names]

/-- A joined path begins with that of the directory. -/
theorem exists_join (path : Path) (name : Name) :
    ∃ gap, join path name = path ++ (gap ++ name) ∧ ∀ b ∈ gap, b = slash := by
  rw [join]
  split
  · exact ⟨[], rfl, by simp⟩
  · exact ⟨[slash], rfl, by simp⟩

/-- A joined path is that of a file. -/
theorem endsInSlash_join (h : Name.Proper name) : (join path name).endsInSlash = false := by
  obtain ⟨gap, he, -⟩ := exists_join path name
  have last : (join path name).getLast? = name.getLast? := by
    obtain ⟨b, hb⟩ := Option.ne_none_iff_exists'.mp (mt List.getLast?_eq_none_iff.mp h.ne_nil)
    simp [he, List.getLast?_append, hb]
  rw [endsInSlash, last, decide_eq_false_iff_not]
  intro hl
  exact h.slash_notMem (List.mem_of_getLast? hl)

end Path

/-! ## Walks -/

namespace Spot

variable {top top' : Branch} {s p : Spot top} {s' : Spot top'} {name : Name}
  {names more : List Name}

/-- All that a step can do: it starts from a directory, and it stays there, leaves it or goes down
to a name that can be looked up. -/
theorem step_eq_ok_iff : s.step name = .ok p ↔ s.node? = some .directory ∧
    (name = here ∧ p = s ∨ name ≠ here ∧ name = above ∧ p = s.up ∨
      name ≠ here ∧ name ≠ above ∧ name.length ≤ nameLimit ∧ p = s.down name) := by
  rw [step, node?]
  cases s.branch? with
  | none => simp
  | some b =>
    cases b with
    | file contents => simp [Branch.node]
    | directory children =>
      by_cases hh : name = here
      · simp [Branch.node, hh, eq_comm]
      by_cases ha : name = above
      · subst ha
        simp [Branch.node, hh, eq_comm]
      by_cases hl : nameLimit < name.length
      · simp [Branch.node, hh, ha, hl, Nat.not_le.mpr hl]
      · simp [Branch.node, hh, ha, hl, Nat.not_lt.mp hl, eq_comm]

/-- A proper name leads one step down. -/
theorem step_of_proper (h : s.node? = some .directory) (hn : Name.Proper name) :
    s.step name = .ok (s.down name) :=
  step_eq_ok_iff.mpr ⟨h, .inr (.inr ⟨hn.ne_here, hn.ne_above, hn.length_le, rfl⟩)⟩

/-- A walk along some names and then some more. -/
theorem walk_append (s : Spot top) (names more : List Name) :
    s.walk (names ++ more) = (s.walk names).bind fun p ↦ p.walk more := by
  induction names generalizing s with
  | nil => rfl
  | cons name names ih =>
    rw [List.cons_append, walk, walk]
    cases s.step name with
    | error e => rfl
    | ok next => exact ih next

private theorem walk_of_directories
    (keeps : ∀ l, Branch.node? l top = some .directory → Branch.node? l top' = some .directory)
    (same : s'.location = s.location) (h : s.walk names = .ok p) :
    ∃ p', s'.walk names = .ok p' ∧ p'.location = p.location := by
  induction names generalizing s s' with
  | nil =>
    cases h
    exact ⟨s', rfl, same⟩
  | cons name names ih =>
    rw [walk] at h
    cases hs : s.step name with
    | error e => simp [hs] at h
    | ok next =>
      rw [hs] at h
      obtain ⟨here, way⟩ := step_eq_ok_iff.mp hs
      have there : s'.node? = some .directory := by
        rw [← node?_location, same]
        exact keeps _ (by rw [node?_location, here])
      obtain ⟨next', hs', hl⟩ : ∃ next', s'.step name = .ok next' ∧
          next'.location = next.location := by
        rcases way with ⟨hh, rfl⟩ | ⟨hh, ha, rfl⟩ | ⟨hh, ha, hl, rfl⟩
        · exact ⟨s', step_eq_ok_iff.mpr ⟨there, .inl ⟨hh, rfl⟩⟩, same⟩
        · refine ⟨s'.up, step_eq_ok_iff.mpr ⟨there, .inr (.inl ⟨hh, ha, rfl⟩)⟩, ?_⟩
          rw [location_up, location_up, same]
        · refine ⟨s'.down name, step_eq_ok_iff.mpr ⟨there, .inr (.inr ⟨hh, ha, hl, rfl⟩)⟩, ?_⟩
          rw [location_down, location_down, same]
      rw [walk, hs']
      exact ih hl h

end Spot

/-! ## What is put into a directory -/

/-- A name that is none of the children's has no branch. -/
theorem Branch.child?_eq_none_iff {name : Name} {children : List (Name × Branch)} :
    child? name children = none ↔ name ∉ children.map Prod.fst := by
  induction children with
  | nil => simp [child?]
  | cons m children ih =>
    obtain ⟨n, b⟩ := m
    by_cases hn : n = name
    · simp [child?, hn]
    · simp [child?, hn, Ne.symm hn, ih]

/-- A child is the one of its name if no two have the same. -/
theorem Branch.child?_of_mem {name : Name} {b : Branch} {children : List (Name × Branch)}
    (nodup : (children.map Prod.fst).Nodup) (h : (name, b) ∈ children) :
    child? name children = some b := by
  induction children with
  | nil => cases h
  | cons m children ih =>
    obtain ⟨hm, nodup⟩ := List.nodup_cons.mp nodup
    rcases List.mem_cons.mp h with rfl | h
    · simp [child?]
    · have hne : m.1 ≠ name := by
        rintro rfl
        exact hm (List.mem_map.mpr ⟨_, h, rfl⟩)
      rw [child?, if_neg hne]
      exact ih nodup h

/-- The branch of a name is that of one of the children. -/
theorem Branch.mem_of_child? {name : Name} {b : Branch} {children : List (Name × Branch)}
    (h : child? name children = some b) : (name, b) ∈ children := by
  induction children with
  | nil => cases h
  | cons m children ih =>
    rw [child?] at h
    split at h
    · next same =>
      cases h
      exact same ▸ List.mem_cons_self
    · exact List.mem_cons_of_mem _ (ih h)

/-- A new child is put somewhere among the others. -/
theorem Branch.setChild_perm {name : Name} {b : Branch} {children : List (Name × Branch)}
    (h : name ∉ children.map Prod.fst) :
    (setChild name b children).Perm ((name, b) :: children) := by
  induction children with
  | nil => exact .refl _
  | cons m children ih =>
    obtain ⟨n, c⟩ := m
    obtain ⟨hne, h⟩ : name ≠ n ∧ name ∉ children.map Prod.fst := by simpa using h
    rw [setChild, if_neg (Ne.symm hne)]
    exact ((ih h).cons _).trans (.swap _ _ _)

private theorem Branch.at?_put_concat {new b : Branch} {location : Location} {name : Name}
    {children : List (Name × Branch)} (h : at? location b = some (directory children)) :
    at? location (put new (location ++ [name]) b) =
      some (directory (setChild name new children)) := by
  induction location generalizing b with
  | nil =>
    cases h
    rfl
  | cons n names ih =>
    rw [at?] at h
    cases hc : child? n b.children with
    | none => simp [hc] at h
    | some c =>
      rw [hc] at h
      rw [List.cons_append, put, hc, at?, Branch.children, child?_setChild, if_pos rfl]
      exact ih h

namespace Tree

variable {t t' : Tree} {path : Path} {name : Name} {children : List (Name × Branch)} {b : Branch}

/-- A path leads where a walk along its names does, if it has no zero byte, is not empty and not too
long. -/
theorem locate_eq_ok_iff {spot : Spot t.top} : t.locate path = .ok spot ↔
    0 ∉ path ∧ path ≠ [] ∧ path.length ≤ pathLimit ∧
      (Spot.ofLocation t.top []).walk path.names = .ok spot := by
  rw [locate]
  split
  · next zero => simp [zero]
  split
  · next empty => simp [empty]
  split
  · next long => simp [Nat.not_le.mpr long]
  · next zero ne short => simp [zero, ne, Nat.le_of_not_lt short]

/-- What is found is where its path leads. -/
theorem locate_of_find (h : t.find path = .ok b) :
    ∃ spot, t.locate path = .ok spot ∧ spot.branch? = some b := by
  rw [find] at h
  cases hs : t.locate path with
  | error e => simp [hs, bind, Except.bind] at h
  | ok spot =>
    simp only [hs, bind, Except.bind] at h
    refine ⟨spot, rfl, ?_⟩
    split at h
    · cases h
    · next found =>
      split at h
      · cases h
      · cases h
        exact found
    · next found =>
      cases h
      exact found

/-- A directory is found where its path leads. -/
theorem find_eq_ok_directory_iff : t.find path = .ok (.directory children) ↔
    ∃ spot, t.locate path = .ok spot ∧ spot.branch? = some (.directory children) := by
  constructor
  · exact locate_of_find
  · rintro ⟨spot, hs, hb⟩
    simp [find, hs, hb, bind, Except.bind]

private theorem locate_join (hp : path ≠ []) (hn : Name.Proper name)
    (hl : (Path.join path name).length ≤ pathLimit) :
    t.locate (Path.join path name) = (t.locate path).bind fun spot ↦ spot.step name := by
  obtain ⟨gap, he, hg⟩ := Path.exists_join path name
  have zero : 0 ∈ Path.join path name ↔ 0 ∈ path := by
    have : (0 : UInt8) ∉ gap := fun h ↦ absurd (hg 0 h) (by decide)
    simp [he, this, hn.zero_notMem]
  have long : path.length ≤ pathLimit := by
    rw [he, List.length_append] at hl
    omega
  have nonempty : Path.join path name ≠ [] := by simp [he, hp]
  rw [locate, locate]
  by_cases hz : 0 ∈ path
  · rw [if_pos (zero.mpr hz), if_pos hz]
    rfl
  · rw [if_neg (mt zero.mp hz), if_neg hz, if_neg nonempty, if_neg hp,
      if_neg (Nat.not_lt.mpr hl), if_neg (Nat.not_lt.mpr long),
      Path.names_join path hn.ne_nil hn.slash_notMem,
      Spot.walk_append]
    cases (Spot.ofLocation t.top []).walk path.names with
    | error e => rfl
    | ok spot =>
      change spot.walk [name] = spot.step name
      rw [Spot.walk]
      cases spot.step name <;> rfl

/-- What is found at a joined path is the child of the name in the directory. -/
theorem find_join_eq_ok_iff (hp : path ≠ []) (hn : Name.Proper name)
    (hl : (Path.join path name).length ≤ pathLimit) : t.find (Path.join path name) = .ok b ↔
      ∃ children, t.find path = .ok (.directory children) ∧
        Branch.child? name children = some b := by
  rw [find, locate_join hp hn hl]
  constructor
  · intro h
    cases hs : t.locate path with
    | error e => simp [hs, bind, Except.bind] at h
    | ok spot =>
      simp only [hs, bind, Except.bind] at h
      cases hn' : spot.step name with
      | error e => simp [hn'] at h
      | ok next =>
        obtain ⟨here, -⟩ := Spot.step_eq_ok_iff.mp hn'
        rw [Spot.step_of_proper here hn] at hn'
        cases hn'
        rw [Spot.step_of_proper here hn] at h
        obtain ⟨c, hc, hd⟩ := Option.map_eq_some_iff.mp here
        cases c with
        | file contents => cases hd
        | directory children =>
          refine ⟨children, find_eq_ok_directory_iff.mpr ⟨spot, hs, hc⟩, ?_⟩
          simp only [Spot.down, hc, Option.bind_some, Branch.children,
            Path.endsInSlash_join hn] at h
          cases hb : Branch.child? name children with
          | none => simp [hb] at h
          | some c =>
            cases c <;> simpa [hb] using h
  · rintro ⟨children, hf, hb⟩
    obtain ⟨spot, hs, hc⟩ := find_eq_ok_directory_iff.mp hf
    have here : spot.node? = some .directory := by rw [Spot.node?, hc]; rfl
    simp only [hs, bind, Except.bind, Spot.step_of_proper here hn, Spot.down, hc,
      Option.bind_some, Branch.children, hb, Path.endsInSlash_join hn]
    cases b <;> rfl

/-- A directory that is there need not be made. -/
theorem ensureDirectory_of_find (hp : path ≠ []) (h : t.find path = .ok (.directory children)) :
    t.ensureDirectory path = (.ok (), t) := by
  obtain ⟨spot, hs, hb⟩ := find_eq_ok_directory_iff.mp h
  have made : t.makeDirectory path = .ok t := by
    simp [makeDirectory, hs, Spot.node?, hb, Branch.node, bind, Except.bind]
  rw [ensureDirectory, if_neg hp, made]

/-- No directory is made where a file is. -/
theorem ensureDirectory_of_find_file {contents : Bytes} (hp : path ≠ [])
    (h : t.find path = .ok (.file contents)) :
    t.ensureDirectory path = (.error .alreadyThere, t) := by
  obtain ⟨spot, hs, hb⟩ := locate_of_find h
  have made : t.makeDirectory path = .error .alreadyThere := by
    simp [makeDirectory, hs, Spot.node?, hb, Branch.node, bind, Except.bind]
  rw [ensureDirectory, if_neg hp, made]

/-- A path leads to the same place in another tree that has a directory wherever the first has
one. -/
theorem locate_of_directories
    (keeps : ∀ l, t.node? l = some .directory → t'.node? l = some .directory) {spot : Spot t.top}
    (hs : t.locate path = .ok spot) : ∃ spot' : Spot t'.top,
      t'.locate path = .ok spot' ∧ spot'.location = spot.location := by
  obtain ⟨zero, ne, short, walked⟩ := locate_eq_ok_iff.mp hs
  obtain ⟨spot', walked', same⟩ : ∃ spot', (Spot.ofLocation t'.top []).walk path.names = .ok spot' ∧
      spot'.location = spot.location := Spot.walk_of_directories keeps (by simp) walked
  exact ⟨spot', locate_eq_ok_iff.mpr ⟨zero, ne, short, walked'⟩, same⟩

/-- Nothing leaves its place if something is put where nothing was. -/
theorem find_put {location : Location} (hl : location ≠ []) (node : Node)
    (new : Branch.at? location t.top = none)
    (around : t.node? location.dropLast = some .directory) {spot : Spot t.top}
    (hs : t.locate path = .ok spot) : ∃ spot' : Spot (t.put location node).top,
      (t.put location node).locate path = .ok spot' ∧ spot'.location = spot.location := by
  refine locate_of_directories (fun l h ↦ ?_) hs
  have hne : l ≠ location := by
    rintro rfl
    simp [Tree.node?, Branch.node?, new] at h
  rw [node?_put t hl node around (by simp [new]), if_neg hne, h]

/-- A file that is written where nothing was is one more child of the directory. -/
theorem writeAt_join (hp : path ≠ []) (hn : Name.Proper name)
    (hl : (Path.join path name).length ≤ pathLimit)
    (h : t.find path = .ok (.directory children)) (new : Branch.child? name children = none)
    (contents : Bytes) : ∃ t', t.writeAt (Path.join path name) contents = .ok t' ∧
      t'.find path = .ok (.directory (Branch.setChild name (.file contents) children)) := by
  obtain ⟨spot, hs, hb⟩ := find_eq_ok_directory_iff.mp h
  have here : spot.node? = some .directory := by rw [Spot.node?, hb]; rfl
  have located : t.locate (Path.join path name) = .ok (spot.down name) := by
    rw [locate_join hp hn hl, hs]
    exact Spot.step_of_proper here hn
  have nothing : (spot.down name).branch? = none := by
    simpa [Spot.down, hb, Branch.children] using new
  have free : Branch.at? (spot.location ++ [name]) t.top = none := by
    rw [← Spot.location_down, Spot.at?_location, nothing]
  have around : t.node? (spot.location ++ [name]).dropLast = some .directory := by
    rw [List.dropLast_concat, Tree.node?, Spot.node?_location, here]
  refine ⟨t.put (spot.location ++ [name]) (.file contents), ?_, ?_⟩
  · simp [writeAt, located, Spot.node?, nothing, Path.endsInSlash_join hn, bind, Except.bind]
  · obtain ⟨spot', hs', same⟩ := find_put (by simp) (.file contents) free around hs
    refine find_eq_ok_directory_iff.mpr ⟨spot', hs', ?_⟩
    have before : Branch.at? spot.location t.top = some (.directory children) := by
      rw [Spot.at?_location, hb]
    rw [← Spot.at?_location, same, top_put t (by simp)]
    exact Branch.at?_put_concat before

end Tree

end SchemaDoc.Files
