import SchemaDoc.Proofs.Files.Directory

/-!
# Directories that are made

A directory that is made where nothing was is empty, also if the directories around it had to be
made first, since those are less far down. A path that leaves a directory is another matter: once
the directory is made, it may lead back to one that was there before.
-/

namespace SchemaDoc.Files

/-! ## Places -/

/-- What was put at a place is there. -/
theorem Branch.at?_put_self (new : Branch) (location : Location) (b : Branch) :
    at? location (put new location b) = some new := by
  induction location generalizing b with
  | nil => rfl
  | cons name names ih =>
    rw [put, at?, children, child?_setChild, if_pos rfl]
    exact ih _

/-- What is behind a place is looked up from there. -/
theorem Branch.at?_append (location more : Location) (b : Branch) :
    at? (location ++ more) b = (at? location b).bind (at? more) := by
  induction location generalizing b with
  | nil => rfl
  | cons name names ih => cases h : child? name b.children <;> simp [at?, h, ih]

/-- What is below the top is in a directory. -/
theorem Branch.node?_dropLast {location : Location} {b c : Branch} (hl : location ≠ [])
    (h : at? location b = some c) : node? location.dropLast b = some .directory := by
  rw [← List.dropLast_concat_getLast hl, at?_concat] at h
  obtain ⟨d, hd, hc⟩ := Option.bind_eq_some_iff.mp h
  rw [node?, hd]
  cases d with
  | file contents => cases hc
  | directory children => rfl

namespace Spot

variable {top : Branch} {s p : Spot top} {name : Name} {names : List Name}

/-- A step that leads to nothing goes down. -/
theorem eq_down_of_step (h : s.step name = .ok p) (hp : p.node? = none) : p = s.down name := by
  obtain ⟨here, ⟨-, rfl⟩ | ⟨-, -, rfl⟩ | ⟨-, -, -, rfl⟩⟩ := step_eq_ok_iff.mp h
  · rw [here] at hp
    cases hp
  · -- Around a directory is a directory, also at the top.
    obtain ⟨b, hb, -⟩ := Option.map_eq_some_iff.mp here
    rw [← node?_location, location_up] at hp
    by_cases hl : s.location = []
    · rw [hl, List.dropLast_nil, ← hl, node?_location, here] at hp
      cases hp
    · rw [Branch.node?_dropLast hl (at?_location s ▸ hb)] at hp
      cases hp
  · rfl

/-- A walk that leads to nothing ends in a directory. -/
theorem directory_around (hs : s.node? = some .directory) (h : s.walk names = .ok p)
    (hp : p.node? = none) :
    p.location ≠ [] ∧ Branch.node? p.location.dropLast top = some .directory := by
  induction names generalizing s with
  | nil =>
    cases h
    rw [hs] at hp
    cases hp
  | cons name names ih =>
    rw [walk] at h
    cases hn : s.step name with
    | error e => simp [hn] at h
    | ok next =>
      rw [hn] at h
      by_cases hd : next.node? = some .directory
      · exact ih hd h
      · -- Only from a directory it goes on, so this was the last step.
        cases names with
        | cons other names =>
          replace h : next.walk (other :: names) = .ok p := h
          rw [walk] at h
          cases ho : next.step other with
          | error e => simp [ho] at h
          | ok after => exact absurd (step_eq_ok_iff.mp ho).1 hd
        | nil =>
          cases h
          obtain rfl := eq_down_of_step hn hp
          rw [location_down, List.dropLast_concat, node?_location]
          exact ⟨by simp, hs⟩

private theorem location_of_step (up : name ≠ above) (h : s.step name = .ok p) :
    p.location = s.location ++ [name].filter (· ≠ here) := by
  obtain ⟨-, ⟨rfl, rfl⟩ | ⟨-, ha, -⟩ | ⟨hh, -, -, rfl⟩⟩ := step_eq_ok_iff.mp h
  · simp
  · exact absurd ha up
  · simp [hh]

private theorem location_of_walk (up : above ∉ names) (h : s.walk names = .ok p) :
    p.location = s.location ++ names.filter (· ≠ here) := by
  induction names generalizing s with
  | nil =>
    cases h
    simp
  | cons name names ih =>
    obtain ⟨hn, up⟩ : above ≠ name ∧ above ∉ names := by simpa using up
    rw [walk] at h
    cases hs : s.step name with
    | error e => simp [hs] at h
    | ok next =>
      rw [hs] at h
      rw [ih up h, location_of_step (Ne.symm hn) hs, List.append_assoc, ← List.filter_append]
      rfl

private theorem at?_of_walk_notFound (up : above ∉ names) (h : s.walk names = .error .notFound) :
    Branch.at? (s.location ++ names.filter (· ≠ here)) top = none := by
  induction names generalizing s with
  | nil => cases h
  | cons name names ih =>
    obtain ⟨hn, up⟩ : above ≠ name ∧ above ∉ names := by simpa using up
    rw [walk] at h
    cases hs : s.step name with
    | error e =>
      simp only [hs, Except.error.injEq] at h
      subst h
      have nothing : s.branch? = none := by
        rw [step] at hs
        split at hs
        · assumption
        · cases hs
        · repeat' split at hs
          all_goals cases hs
      rw [Branch.at?_append, at?_location, nothing]
      rfl
    | ok next =>
      rw [hs] at h
      have := ih up h
      rwa [location_of_step (Ne.symm hn) hs, List.append_assoc, ← List.filter_append] at this

end Spot

namespace Tree

variable {t t' : Tree} {path : Path} {names : List Name}

/-- A path leads where a walk along its names does. -/
theorem walk_of_locate {spot : Spot t.top} (h : t.locate path = .ok spot) :
    (Spot.ofLocation t.top []).walk path.names = .ok spot :=
  (locate_eq_ok_iff.mp h).2.2.2

private theorem find_of_makeDirectory (absent : t.contains path = false)
    (h : t.makeDirectory path = .ok t') : t'.find path = .ok (.directory []) := by
  rw [makeDirectory] at h
  cases hs : t.locate path with
  | error e => simp [hs, bind, Except.bind] at h
  | ok spot =>
    simp only [hs, bind, Except.bind] at h
    have nothing : spot.node? = none := by
      cases hb : spot.branch? with
      | none => rw [Spot.node?, hb]; rfl
      | some b =>
        cases b with
        | file contents => simp [Spot.node?, hb, Branch.node] at h
        | directory children =>
          have found := find_eq_ok_directory_iff.mpr ⟨spot, hs, hb⟩
          simp [contains, found, Except.toBool] at absent
    have new : Branch.at? spot.location t.top = none := by
      rw [Spot.at?_location]
      exact Option.map_eq_none_iff.mp nothing
    obtain ⟨hl, around⟩ := Spot.directory_around rfl (walk_of_locate hs) nothing
    rw [nothing] at h
    cases h
    obtain ⟨spot', hs', same⟩ := find_put hl .directory new around hs
    refine find_eq_ok_directory_iff.mpr ⟨spot', hs', ?_⟩
    rw [← Spot.at?_location, same, top_put t hl]
    exact Branch.at?_put_self _ _ _

private theorem node?_makeDirectories {spot : Spot t.top} (hd : spot.node? = some .directory)
    (up : above ∉ names) (h : t.makeDirectories spot names = (.ok (), t')) {l : Location}
    (hl : spot.location.length + (names.filter (· ≠ here)).length < l.length) :
    t'.node? l = t.node? l := by
  induction names generalizing t with
  | nil =>
    cases h
    rfl
  | cons name names ih =>
    obtain ⟨hn, up⟩ : above ≠ name ∧ above ∉ names := by simpa using up
    rw [makeDirectories] at h
    cases hs : spot.step name with
    | error e => simp [hs] at h
    | ok next =>
      have place := Spot.location_of_step (Ne.symm hn) hs
      have room : next.location.length + (names.filter (· ≠ here)).length < l.length := by
        have split : (name :: names).filter (· ≠ here) =
            [name].filter (· ≠ here) ++ names.filter (· ≠ here) := by rw [← List.filter_append]; rfl
        rw [split, List.length_append] at hl
        rw [place, List.length_append]
        omega
      simp only [hs] at h
      cases hnode : next.node? with
      | none =>
        -- A directory is made here, at a place that has too few names to be the one looked at.
        obtain rfl := Spot.eq_down_of_step hs hnode
        have around : t.node? (spot.down name).location.dropLast = some .directory := by
          rw [Spot.location_down, List.dropLast_concat, Tree.node?, Spot.node?_location, hd]
        have new : Branch.at? (spot.down name).location t.top = none := by
          rw [Spot.at?_location]
          exact Option.map_eq_none_iff.mp hnode
        have hne : (spot.down name).location ≠ [] := by simp
        have after := node?_put t hne .directory around fun b hb ↦ by
          rw [new] at hb
          cases hb
        simp only [hnode] at h
        rw [ih ?_ up h (by simpa using room), after, if_neg]
        · rintro rfl
          omega
        · rw [← Spot.node?_location, Spot.location_ofLocation]
          exact (after _).trans (if_pos rfl)
      | some node =>
        cases node with
        | file contents => simp [hnode] at h
        | directory =>
          simp only [hnode] at h
          exact ih hnode up h room

private theorem mem_of_mem_parentNames {name : Name} (h : name ∈ Path.parentNames names) :
    name ∈ names := by
  cases names with
  | nil => cases h
  | cons first names =>
    rcases List.mem_cons.mp ((List.dropLast_sublist _).mem h) with rfl | h
    · exact List.mem_cons_self
    · exact List.mem_cons_of_mem _ (List.mem_filter.mp h).1

private theorem length_parentNames (h : names.filter (· ≠ here) ≠ []) :
    ((Path.parentNames names).filter (· ≠ here)).length < (names.filter (· ≠ here)).length := by
  cases names with
  | nil => exact absurd rfl h
  | cons first names =>
    have shorter (rest : List Name) (hr : rest ≠ []) :
        (rest.dropLast.filter (· ≠ here)).length < rest.length := by
      have := List.length_filter_le (fun n ↦ decide (n ≠ here)) rest.dropLast
      have := List.length_pos_iff.mpr hr
      rw [List.length_dropLast] at *
      omega
    rw [Path.parentNames]
    by_cases hf : first = here
    · subst hf
      rw [List.filter_cons_of_neg (by simp)] at h ⊢
      rw [List.dropLast_cons_of_ne_nil h, List.filter_cons_of_neg (by simp)]
      exact shorter _ h
    · rw [List.filter_cons_of_pos (by simpa using hf)]
      exact shorter _ (List.cons_ne_nil _ _)

private theorem walk_of_makeDirectory_notFound (hp : path ≠ [])
    (h : t.makeDirectory path = .error .notFound) :
    (Spot.ofLocation t.top []).walk path.names = .error .notFound := by
  rw [makeDirectory] at h
  cases hs : t.locate path with
  | ok spot =>
    simp only [hs, bind, Except.bind] at h
    split at h <;> cases h
  | error e =>
    simp only [hs, bind, Except.bind, Except.error.injEq] at h
    subst h
    rw [locate, if_neg hp] at hs
    split at hs
    · cases hs
    split at hs
    · cases hs
    · exact hs

private theorem node?_of_find {b : Branch} (up : above ∉ path.names) (h : t.find path = .ok b) :
    t.node? (path.names.filter (· ≠ here)) = some b.node := by
  obtain ⟨spot, hs, hb⟩ := locate_of_find h
  have place := Spot.location_of_walk up (walk_of_locate hs)
  rw [Spot.location_ofLocation, List.nil_append] at place
  rw [← place, Tree.node?, Spot.node?_location, Spot.node?, hb]
  rfl

/-- A directory that was absent is empty once it and those around it have been made. Its path must
not leave a directory, since it could lead back to one that is there. -/
theorem find_of_ensureDirectory (hp : path ≠ []) (up : above ∉ path.names)
    (absent : t.contains path = false) (h : t.ensureDirectory path = (.ok (), t')) :
    t'.find path = .ok (.directory []) := by
  rw [ensureDirectory, if_neg hp] at h
  split at h
  · next made =>
    cases h
    exact find_of_makeDirectory absent made
  · next lost =>
    split at h
    · cases h
    next t₁ around =>
    split at h
    · next made =>
      cases h
      apply find_of_makeDirectory _ made
      -- Nothing was at the place, and the directories that were made are less far down.
      have nothing := Spot.at?_of_walk_notFound up (walk_of_makeDirectory_notFound hp lost)
      rw [Spot.location_ofLocation, List.nil_append] at nothing
      have deep : path.names.filter (· ≠ here) ≠ [] := by
        intro he
        rw [he] at nothing
        cases nothing
      have inside : above ∉ Path.parentNames path.names := fun h ↦
        up (mem_of_mem_parentNames h)
      have kept : t₁.node? (path.names.filter (· ≠ here)) =
          t.node? (path.names.filter (· ≠ here)) :=
        node?_makeDirectories rfl inside around (by simpa using length_parentNames deep)
      cases hf : t₁.find path with
      | error e => rw [contains, hf]; rfl
      | ok b =>
        have found := node?_of_find up hf
        rw [kept, Tree.node?, Branch.node?, nothing] at found
        cases found
    · cases h
  · cases h

end Tree

end SchemaDoc.Files
