import SchemaDoc.Proofs.Files.Making

/-!
# What making and writing leave alone

Where a path leads can be read off its names. Making a directory changes no file: all it does is to
make directories where nothing was, at places that the path leads through. Writing a file changes
what stands at one place.
-/

namespace SchemaDoc.Files

/-! ## Where a path leads -/

/-- The place that some names lead to from a place. -/
def follow : Location → List Name → Location
  | place, [] => place
  | place, name :: names =>
    follow (if name = here then place else if name = above then place.dropLast
      else place ++ [name]) names

variable {place l : Location} {name : Name} {names : List Name}

private theorem follow_append (place : Location) (names more : List Name) :
    follow place (names ++ more) = follow (follow place names) more := by
  induction names generalizing place with
  | nil => rfl
  | cons name names ih => exact ih _

/-- A name that leads down is the last of the place it leads to. -/
theorem follow_concat (place : Location) (names : List Name) (hh : name ≠ here)
    (ha : name ≠ above) : follow place (names ++ [name]) = follow place names ++ [name] := by
  rw [follow_append, follow, if_neg hh, if_neg ha, follow]

private theorem follow_filter (place : Location) (names : List Name) :
    follow place (names.filter (· ≠ here)) = follow place names := by
  induction names generalizing place with
  | nil => rfl
  | cons name names ih =>
    by_cases hh : name = here
    · subst hh
      rw [List.filter_cons_of_neg (by simp), follow, if_pos rfl, ih]
    · rw [List.filter_cons_of_pos (by simpa using hh), follow, follow, ih]

private theorem follow_of_above_notMem (place : Location) (up : above ∉ names) :
    follow place names = place ++ names.filter (· ≠ here) := by
  induction names generalizing place with
  | nil => simp [follow]
  | cons name names ih =>
    obtain ⟨hn, up⟩ : above ≠ name ∧ above ∉ names := by simpa using up
    rw [follow, ih _ up, if_neg (Ne.symm hn)]
    by_cases hh : name = here
    · simp [hh]
    · simp [hh]

/-- The names lead through a place on their way. -/
def LeadsThrough (place : Location) (names : List Name) (l : Location) : Prop :=
  ∃ front, front <+: names ∧ l = follow place front

namespace LeadsThrough

private theorem follow (place : Location) (names : List Name) :
    LeadsThrough place names (follow place names) :=
  ⟨names, List.prefix_refl names, rfl⟩

private theorem cons (h : LeadsThrough (Files.follow place [name]) names l) :
    LeadsThrough place (name :: names) l := by
  obtain ⟨front, hf, rfl⟩ := h
  exact ⟨name :: front, List.cons_prefix_cons.mpr ⟨rfl, hf⟩, rfl⟩

private theorem of_parentNames (h : LeadsThrough place (Path.parentNames names) l) :
    LeadsThrough place names l := by
  obtain ⟨front, hf, rfl⟩ := h
  cases names with
  | nil => exact ⟨[], List.nil_prefix, by rw [List.prefix_nil.mp hf]⟩
  | cons first names =>
    rw [Path.parentNames] at hf
    cases front with
    | nil => exact ⟨[], List.nil_prefix, rfl⟩
    | cons n front =>
      obtain ⟨rfl, behind⟩ := List.cons_prefix_cons.mp (hf.trans (List.dropLast_prefix _))
      obtain ⟨whole, hw, rfl⟩ := List.prefix_filter_iff.mp behind
      refine ⟨n :: whole, List.cons_prefix_cons.mpr ⟨rfl, hw⟩, ?_⟩
      rw [Files.follow, Files.follow, follow_filter]

end LeadsThrough

namespace Spot

variable {top : Branch} {s p : Spot top}

private theorem location_eq_follow_of_step (h : s.step name = .ok p) :
    p.location = follow s.location [name] := by
  obtain ⟨-, ⟨rfl, rfl⟩ | ⟨hh, rfl, rfl⟩ | ⟨hh, ha, -, rfl⟩⟩ := step_eq_ok_iff.mp h
  · rfl
  · rw [location_up, follow, if_neg hh, if_pos rfl, follow]
  · rw [location_down, follow, if_neg hh, if_neg ha, follow]

/-- A walk leads where its names do. -/
theorem location_eq_follow (h : s.walk names = .ok p) : p.location = follow s.location names := by
  induction names generalizing s with
  | nil =>
    cases h
    rfl
  | cons name names ih =>
    rw [walk] at h
    cases hs : s.step name with
    | error e => simp [hs] at h
    | ok next =>
      rw [hs] at h
      rw [ih h, location_eq_follow_of_step hs, ← follow_append]
      rfl

/-- All names of a walk can be looked up. -/
theorem length_le_of_walk (h : s.walk names = .ok p) : ∀ n ∈ names, n.length ≤ nameLimit := by
  induction names generalizing s with
  | nil => simp
  | cons name names ih =>
    rw [walk] at h
    cases hs : s.step name with
    | error e => simp [hs] at h
    | ok next =>
      rw [hs] at h
      refine List.forall_mem_cons.mpr ⟨?_, ih h⟩
      obtain ⟨-, ⟨rfl, -⟩ | ⟨-, rfl, -⟩ | ⟨-, -, hl, -⟩⟩ := step_eq_ok_iff.mp hs
      · decide
      · decide
      · exact hl

/-- Names that leave no directory can be walked if there is a directory where they lead. -/
theorem exists_walk (up : above ∉ names) (short : ∀ n ∈ names, n.length ≤ nameLimit)
    (h : Branch.node? (follow s.location names) top = some .directory) :
    ∃ p, s.walk names = .ok p := by
  induction names generalizing s with
  | nil => exact ⟨s, rfl⟩
  | cons name names ih =>
    have way := follow_of_above_notMem s.location up
    obtain ⟨hn, up⟩ : above ≠ name ∧ above ∉ names := by simpa using up
    obtain ⟨hl, short⟩ := List.forall_mem_cons.mp short
    have around : s.node? = some .directory := by
      rw [way] at h
      obtain ⟨b, hb, hd⟩ := Option.map_eq_some_iff.mp h
      rw [Branch.at?_append, at?_location] at hb
      obtain ⟨c, hc, hb⟩ := Option.bind_eq_some_iff.mp hb
      rw [node?, hc]
      cases c with
      | directory children => rfl
      | file contents =>
        -- Below a file there is nothing.
        cases hf : (name :: names).filter (· ≠ here) with
        | nil =>
          rw [hf] at hb
          cases hb
          cases hd
        | cons n ns =>
          rw [hf] at hb
          cases hb
    obtain ⟨next, hs⟩ : ∃ next, s.step name = .ok next := by
      by_cases hh : name = here
      · exact ⟨s, step_eq_ok_iff.mpr ⟨around, .inl ⟨hh, rfl⟩⟩⟩
      · exact ⟨s.down name, step_eq_ok_iff.mpr ⟨around, .inr (.inr ⟨hh, Ne.symm hn, hl, rfl⟩)⟩⟩
    rw [walk, hs]
    apply ih up short
    rw [location_eq_follow_of_step hs, ← follow_append]
    exact h

end Spot

/-! ## Directories that are opened -/

namespace Tree

variable {t t' t'' : Tree} {path : Path} {way way' : Location → Prop}

/-- A tree becomes another by directories that are made where nothing was, at places of a kind. All
else stays as it is. -/
def Opens (way : Location → Prop) (t t' : Tree) : Prop :=
  ∀ l, t'.node? l = t.node? l ∨ t.node? l = none ∧ t'.node? l = some .directory ∧ way l

namespace Opens

private theorem refl (way : Location → Prop) (t : Tree) : Opens way t t := fun _ ↦ .inl rfl

private theorem mono (h : Opens way t t') (hw : ∀ l, way l → way' l) : Opens way' t t' := fun l ↦
  (h l).imp id fun ⟨before, after, hl⟩ ↦ ⟨before, after, hw l hl⟩

private theorem trans (h : Opens way t t') (h' : Opens way t' t'') : Opens way t t'' := by
  intro l
  rcases h' l with same | ⟨before, after, hl⟩
  · rw [same]
    exact h l
  · rcases h l with same | ⟨-, made, -⟩
    · exact .inr ⟨same ▸ before, after, hl⟩
    · simp [before] at made

end Opens

private theorem opens_put {spot : Spot t.top} (nothing : spot.node? = none)
    (hl : spot.location ≠ [])
    (around : t.node? spot.location.dropLast = some .directory) (hw : way spot.location) :
    Opens way t (t.put spot.location .directory) := by
  intro l
  have free : Branch.at? spot.location t.top = none := by
    rw [Spot.at?_location]
    exact Option.map_eq_none_iff.mp nothing
  rw [node?_put t hl .directory around (by simp [free])]
  by_cases same : l = spot.location
  · subst same
    rw [if_pos rfl]
    exact .inr ⟨by rw [Tree.node?, Spot.node?_location, nothing], rfl, hw⟩
  · rw [if_neg same]
    exact .inl rfl

private theorem opens_makeDirectories {spot : Spot t.top} (hd : spot.node? = some .directory)
    (names : List Name) :
    Opens (LeadsThrough spot.location names) t (t.makeDirectories spot names).2 := by
  induction names generalizing t with
  | nil => exact .refl _ _
  | cons name names ih =>
    rw [makeDirectories]
    cases hs : spot.step name with
    | error e => exact .refl _ _
    | ok next =>
      have next_eq := Spot.location_eq_follow_of_step hs
      have onward (l : Location) (h : LeadsThrough next.location names l) :
          LeadsThrough spot.location (name :: names) l := LeadsThrough.cons (next_eq ▸ h)
      cases hn : next.node? with
      | none =>
        obtain rfl := Spot.eq_down_of_step hs hn
        have made : Opens (LeadsThrough spot.location (name :: names)) t
            (t.put (spot.down name).location .directory) := by
          apply opens_put hn (by simp)
          · rw [Spot.location_down, List.dropLast_concat, Tree.node?, Spot.node?_location, hd]
          · exact onward _ ⟨[], List.nil_prefix, rfl⟩
        have there : (Spot.ofLocation (t.put (spot.down name).location .directory).top
            (spot.down name).location).node? = some .directory := by
          rw [← Spot.node?_location, Spot.location_ofLocation, top_put t (by simp), Branch.node?,
            Branch.at?_put_self]
          rfl
        have rest := ih there
        rw [Spot.location_ofLocation] at rest
        simp only [hn]
        exact made.trans (rest.mono onward)
      | some node =>
        cases node with
        | file contents =>
          simp only [hn]
          exact .refl _ _
        | directory =>
          simp only [hn]
          exact (ih hn).mono onward

private theorem opens_makeDirectory (h : t.makeDirectory path = .ok t') :
    Opens (LeadsThrough [] path.names) t t' := by
  rw [makeDirectory] at h
  cases hs : t.locate path with
  | error e => simp [hs, bind, Except.bind] at h
  | ok spot =>
    simp only [hs, bind, Except.bind] at h
    split at h
    · cases h
      exact .refl _ _
    · cases h
    · next nothing =>
      cases h
      obtain ⟨hl, around⟩ := Spot.directory_around rfl (walk_of_locate hs) nothing
      apply opens_put nothing hl around
      rw [Spot.location_eq_follow (walk_of_locate hs), Spot.location_ofLocation]
      exact .follow _ _

/-- Making a directory and those around it opens directories on the way, also if it fails. -/
theorem opens_ensureDirectory (t : Tree) (path : Path) :
    Opens (LeadsThrough [] path.names) t (t.ensureDirectory path).2 := by
  have around : Opens (LeadsThrough [] path.names) t (t.ensureParent path).2 := by
    have top : (Spot.ofLocation t.top []).node? = some .directory := rfl
    apply (opens_makeDirectories top _).mono
    intro l h
    rw [Spot.location_ofLocation] at h
    exact h.of_parentNames
  rw [ensureDirectory]
  split
  · exact .refl _ _
  split
  · next made => exact opens_makeDirectory made
  · split
    · next failed => rwa [failed] at around
    next opened =>
    rw [opened] at around
    split
    · next made => exact around.trans (opens_makeDirectory made)
    · exact around
  · exact .refl _ _

/-! ## Files that are written -/

/-- What a write does: the path leads to a file or to nothing, where the file is afterwards. No
other place is touched. -/
structure Writes (t : Tree) (path : Path) (contents : Bytes) (t' : Tree) : Prop where
  /-- There was no directory. -/
  before : ∀ n, t.node? (follow [] path.names) = some n → ∃ c, n = .file c
  /-- The place is in a directory. -/
  around : t.node? (follow [] path.names).dropLast = some .directory
  /-- The file is there. -/
  node?_eq : ∀ l, t'.node? l = if l = follow [] path.names then some (.file contents) else t.node? l
  /-- The file is found. -/
  found : t'.find path = .ok (.file contents)

/-- A file is put at the spot of its path, unless that is a directory. -/
theorem writeAt_eq_ok_iff {contents : Bytes} : t.writeAt path contents = .ok t' ↔
    ∃ spot, t.locate path = .ok spot ∧ spot.node? ≠ some .directory ∧
      path.endsInSlash = false ∧ t' = t.put spot.location (.file contents) := by
  rw [writeAt]
  cases hs : t.locate path with
  | error e => simp [bind, Except.bind]
  | ok spot =>
    simp only [bind, Except.bind, Except.ok.injEq, exists_eq_left']
    cases hn : spot.node? with
    | none => cases he : path.endsInSlash <;> simp [eq_comm]
    | some node =>
      cases node with
      | file old => cases he : path.endsInSlash <;> simp [eq_comm]
      | directory => simp

private theorem directory_around_of_locate {spot : Spot t.top} (hs : t.locate path = .ok spot)
    (file : spot.node? ≠ some .directory) :
    spot.location ≠ [] ∧ t.node? spot.location.dropLast = some .directory := by
  have deep : spot.location ≠ [] := by
    intro hl
    apply file
    rw [← Spot.node?_location, hl]
    rfl
  refine ⟨deep, ?_⟩
  cases hb : spot.branch? with
  | none => exact (Spot.directory_around rfl (walk_of_locate hs) (by rw [Spot.node?, hb]; rfl)).2
  | some b => exact Branch.node?_dropLast deep (by rw [Spot.at?_location, hb])

private theorem node?_put_file {spot : Spot t.top} (hs : t.locate path = .ok spot)
    (file : spot.node? ≠ some .directory) (contents : Bytes) (l : Location) :
    (t.put spot.location (.file contents)).node? l =
      if l = spot.location then some (.file contents) else t.node? l := by
  obtain ⟨deep, around⟩ := directory_around_of_locate hs file
  refine node?_put t deep (.file contents) around (fun b hb ↦ ?_) l
  rw [Spot.at?_location] at hb
  cases b with
  | file old => rfl
  | directory children => simp [Spot.node?, hb, Branch.node] at file

private theorem find_put_file {spot : Spot t.top} (hs : t.locate path = .ok spot)
    (file : spot.node? ≠ some .directory) (ends : path.endsInSlash = false) (contents : Bytes) :
    (t.put spot.location (.file contents)).find path = .ok (.file contents) := by
  have after := node?_put_file hs file contents
  have keeps (l : Location) (hd : t.node? l = some .directory) :
      (t.put spot.location (.file contents)).node? l = some .directory := by
    rw [after, if_neg, hd]
    rintro rfl
    rw [Tree.node?, Spot.node?_location] at hd
    exact file hd
  obtain ⟨spot', hs', same⟩ := locate_of_directories keeps hs
  have written := after spot'.location
  rw [if_pos same, Tree.node?, Spot.node?_location, Spot.node?] at written
  obtain ⟨b, hb, hf⟩ := Option.map_eq_some_iff.mp written
  cases b with
  | directory children => cases hf
  | file stored =>
    cases hf
    simp [find, hs', hb, ends, bind, Except.bind]

/-- A file is written where its path leads. -/
theorem writes_writeAt {contents : Bytes} (h : t.writeAt path contents = .ok t') :
    Writes t path contents t' := by
  obtain ⟨spot, hs, file, ends, rfl⟩ := writeAt_eq_ok_iff.mp h
  have place : spot.location = follow [] path.names := by
    rw [Spot.location_eq_follow (walk_of_locate hs), Spot.location_ofLocation]
  refine ⟨?_, place ▸ (directory_around_of_locate hs file).2,
    fun l ↦ place ▸ node?_put_file hs file contents l, find_put_file hs file ends contents⟩
  intro n hn
  rw [← place, Tree.node?, Spot.node?_location] at hn
  cases n with
  | file old => exact ⟨old, rfl⟩
  | directory => exact absurd hn file

end Tree

end SchemaDoc.Files
