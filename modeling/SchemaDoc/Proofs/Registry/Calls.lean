import SchemaDoc.Proofs.Registry.Growth

/-!
# Calls of a registry

A run is any sequence of registrations and loads, answered or failed, each load with the files as
they are at that moment. Every call gives names to some schemas, and it is known which: the one of a
registration that is answered, and those of the files that a load went through. Since a call only
gives names that are free, a schema stays where it is through every later call.
-/

namespace SchemaDoc.Registry

open Files

variable {r r₀ r' : Registry} {name : String} {s : Schema} {defs : List (String × Schema)} {m : Nat}

/-! ## One call -/

/-- A call that may change a registry. -/
inductive Call where
  /-- A schema is to have a name. -/
  | register (name : String) (s : Schema)
  /-- The files of the directory are to be loaded, which are in this tree. -/
  | load (t : Tree)

/-- The registry that a call leaves behind, whether it was answered or failed. -/
def Call.run : Call → Registry → Registry
  | .register name s, r => ((Registry.register name s).run r).state
  | .load t, r => ((loadAll t).run r).state

/-- The schemas to which a call gives names. -/
inductive Call.Gives : Call → Registry → List (String × Schema) → Prop
  /-- A registration that is answered gives its schema its name. -/
  | registered {name : String} {s a : Schema} {r : Registry}
    (answer : ((Registry.register name s).run r).answer = .ok a) :
    Gives (.register name s) r [(name, s)]
  /-- A registration that fails gives none. -/
  | refused {name : String} {s : Schema} {e : SchemaError} {r : Registry}
    (answer : ((Registry.register name s).run r).answer = .error e) :
    Gives (.register name s) r []
  /-- A load gives those of the files that it went through, up to the last file, when it answers
  the number of the files, or to the first that is no good, when it fails for that. -/
  | loaded {t : Tree} {names : List Name} {defs : List (String × Schema)} {r : Registry}
    {ended : Except SchemaError Unit} (names_eq : t.namesAt r.directory = .ok names)
    (loads : Loads t r (fileNames names) defs ((loadAll t).run r).state ended)
    (answer : ((loadAll t).run r).answer = ended.map fun _ ↦ (fileNames names).length) :
    Gives (.load t) r defs
  /-- A load gives none if the names in the directory cannot be had. -/
  | unlisted {t : Tree} {e : Files.Error} {r : Registry}
    (names_eq : t.namesAt r.directory = .error e) : Gives (.load t) r []

private theorem Call.exists_gives (c : Call) (r : Registry) : ∃ defs, c.Gives r defs := by
  cases c with
  | register name s =>
    cases h : ((Registry.register name s).run r).answer with
    | ok a => exact ⟨_, .registered h⟩
    | error e => exact ⟨_, .refused h⟩
  | load t =>
    cases h : t.namesAt r.directory with
    | error e => exact ⟨_, .unlisted h⟩
    | ok names =>
      obtain ⟨state_eq, answer⟩ := run_loadAll_of_names h
      obtain ⟨defs, loads⟩ := loads_loadFiles t (fileNames names) r
      exact ⟨defs, .loaded h (state_eq ▸ loads) answer⟩

private theorem state_of_register_error {e : SchemaError}
    (h : ((register name s).run r).answer = .error e) :
    ((register name s).run r).state = r := by
  by_cases ha : r.Admits name s
  · simp [run_register_of_admits ha] at h
  · rw [run_register_of_not_admits ha]

/-- A call changes the registry by the schemas to which it gives names, one after the other, and by
nothing else. -/
theorem Call.Gives.grows {c : Call} (h : c.Gives r defs) : Grows r defs (c.run r) := by
  cases h with
  | registered answer =>
    have ha := admits_of_register answer
    rw [run, run_register_of_admits ha]
    exact .single ha
  | refused answer =>
    rw [run, state_of_register_error answer]
    exact .nil r
  | loaded _ loads _ => exact loads.grows
  | unlisted names_eq =>
    rw [run, run_loadAll_of_no_names names_eq]
    exact .nil r

/-! ## Runs -/

/-- The registry after some calls. -/
def after (r : Registry) (calls : List Call) : Registry := calls.foldl (fun r c ↦ c.run r) r

@[simp] theorem after_nil : r.after [] = r := rfl

@[simp] theorem after_cons (c : Call) (calls : List Call) :
    r.after (c :: calls) = (c.run r).after calls := rfl

private theorem after_append (calls later : List Call) :
    r.after (calls ++ later) = (r.after calls).after later := List.foldl_append

private theorem grows_after (r : Registry) (calls : List Call) :
    ∃ defs, Grows r defs (r.after calls) := by
  induction calls generalizing r with
  | nil => exact ⟨[], .nil r⟩
  | cons c calls ih =>
    obtain ⟨first, hf⟩ := c.exists_gives r
    obtain ⟨rest, hr⟩ := ih (c.run r)
    exact ⟨first ++ rest, hf.grows.append hr⟩

private theorem find?_after_of_find? (calls : List Call) (h : r.find? name = some s) :
    (r.after calls).find? name = some s := by
  obtain ⟨defs, hg⟩ := grows_after r calls
  exact hg.find?_of_find? h

private theorem find?_after_iff (calls : List Call) :
    (r.after calls).find? name = some s ↔
      r.find? name = some s ∨
        ∃ before c later defs, calls = before ++ c :: later ∧ c.Gives (r.after before) defs ∧
          (name, s) ∈ defs := by
  induction calls generalizing r with
  | nil => simp
  | cons c calls ih =>
    rw [after_cons, ih]
    constructor
    · rintro (hf | ⟨before, d, later, defs, rfl, hd, hm⟩)
      · obtain ⟨defs, hc⟩ := c.exists_gives r
        rcases hc.grows.find?_iff.mp hf with hr | hm
        · exact .inl hr
        · exact .inr ⟨[], c, calls, defs, rfl, hc, hm⟩
      · exact .inr ⟨c :: before, d, later, defs, rfl, hd, hm⟩
    · rintro (hr | ⟨before, d, later, defs, hsplit, hd, hm⟩)
      · exact .inl (find?_after_of_find? [c] hr)
      · cases before with
        | nil =>
          obtain ⟨rfl, rfl⟩ := List.cons.inj hsplit
          exact .inl (hd.grows.find?_iff.mpr (.inr hm))
        | cons b before =>
          obtain ⟨rfl, rfl⟩ := List.cons.inj hsplit
          exact .inr ⟨before, d, later, defs, rfl, hd, hm⟩

/-! ## Registries as they come about -/

/-- A registry as it is created with a greatest depth: empty for a directory, or from a
configuration, which loads the directory first. -/
inductive Created (m : Nat) : Registry → Prop
  /-- The empty registry of a directory. -/
  | empty (directory : Path) : Created m ((ofDirectory directory).withMaxDepth m)
  /-- The registry of a configuration. -/
  | configured {σ : Type} {state : σ} {t : Tree} {c : Config} {r : Registry}
    (depth : c.maxSchemaDepth.toNat = m)
    (answer : ((ofConfig t c).run state).answer = .ok r) : Created m r

private theorem Created.eq_after (h : Created m r) :
    ∃ directory calls, r = ((ofDirectory directory).withMaxDepth m).after calls := by
  cases h with
  | empty directory => exact ⟨directory, [], rfl⟩
  | @configured _ _ t c _ depth answer =>
    subst depth
    rw [Action.run, ofConfig] at answer
    cases hd : c.schemaDir? with
    | none =>
      simp only [hd] at answer
      exact ⟨[], [], (Except.ok.inj answer).symm⟩
    | some dir =>
      simp only [hd] at answer
      refine ⟨Path.ofText dir, [.load t], ?_⟩
      rw [after_cons, after_nil, Call.run, Action.run]
      cases ha : (loadAll t ((ofDirectory (Path.ofText dir)).withMaxDepth
          c.maxSchemaDepth.toNat)).answer with
      | error e => simp [ha, Except.map] at answer
      | ok n =>
        rw [ha] at answer
        exact (Except.ok.inj answer).symm

/-- The greatest depth is met, and the names are in order. -/
structure Orderly (m : Nat) (r : Registry) : Prop where
  /-- The greatest depth is as it was set. -/
  maxDepth_eq : r.maxDepth = m
  /-- No schema is deeper. -/
  depth_le : ∀ name s, r.find? name = some s → s.depth ≤ m
  /-- The names are strictly increasing. -/
  sorted : r.types.Sorted

private theorem orderly_ofDirectory (directory : Path) (m : Nat) :
    Orderly m ((ofDirectory directory).withMaxDepth m) where
  maxDepth_eq := rfl
  depth_le _ _ h := by cases h
  sorted := Dictionary.sorted_nil

private theorem Orderly.of_grows (h : Orderly m r) (hg : Grows r defs r') : Orderly m r' where
  maxDepth_eq := hg.maxDepth_eq.trans h.maxDepth_eq
  depth_le := by
    have := hg.depth_le (by rw [h.maxDepth_eq]; exact h.depth_le)
    rwa [hg.maxDepth_eq, h.maxDepth_eq] at this
  sorted := hg.sorted h.sorted

/-- Calls keep a registry orderly. -/
theorem Orderly.after (h : Orderly m r) (calls : List Call) : Orderly m (r.after calls) := by
  obtain ⟨defs, hg⟩ := grows_after r calls
  exact h.of_grows hg

/-- A registry is created orderly. -/
theorem Created.orderly (h : Created m r) : Orderly m r := by
  obtain ⟨directory, calls, rfl⟩ := h.eq_after
  exact (orderly_ofDirectory directory m).after calls

/-- Through all calls of a registry that was created with a greatest depth, no schema is deeper; a
schema keeps its name through all further calls; a registration that fails changes nothing; the
schemas are those from the start and those to which some call gave their names; and the names are
those that have a schema, strictly increasing. -/
theorem calls_only_add {m : Nat} {r₀ : Registry} (created : Created m r₀) (calls : List Call) :
    (∀ name s, (r₀.after calls).find? name = some s → s.depth ≤ m) ∧
      (∀ later name s, (r₀.after calls).find? name = some s →
        (r₀.after (calls ++ later)).find? name = some s) ∧
      (∀ name s e, ((register name s).run (r₀.after calls)).answer = .error e →
        ((register name s).run (r₀.after calls)).state = r₀.after calls) ∧
      (∀ name s, (r₀.after calls).find? name = some s ↔
        r₀.find? name = some s ∨
          ∃ before c later defs, calls = before ++ c :: later ∧ c.Gives (r₀.after before) defs ∧
            (name, s) ∈ defs) ∧
      (∀ name, name ∈ (r₀.after calls).names ↔ ∃ s, (r₀.after calls).find? name = some s) ∧
      (r₀.after calls).names.Pairwise (· < ·) := by
  have orderly := created.orderly.after calls
  refine ⟨orderly.depth_le, fun later name s h ↦ ?_, fun name s e h ↦ ?_, fun name s ↦ ?_,
    fun name ↦ mem_names_iff, orderly.sorted⟩
  · rw [after_append]
    exact find?_after_of_find? later h
  · exact state_of_register_error h
  · exact find?_after_iff calls

/-- A name that was given once is not given anew. -/
theorem number_keeps_its_name :
    Created 1 ((ofDirectory []).withMaxDepth 1) ∧
      (((ofDirectory []).withMaxDepth 1).after
        [.register "a" .number, .register "a" (.string 3)]).find? "a" = some .number :=
  have created : Created 1 ((ofDirectory []).withMaxDepth 1) := .empty []
  ⟨created, (calls_only_add created [.register "a" .number]).2.1 [.register "a" (.string 3)] "a"
    .number rfl⟩

end SchemaDoc.Registry
