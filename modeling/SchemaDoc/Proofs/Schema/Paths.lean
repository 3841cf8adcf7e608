import SchemaDoc.Document.Checked
import SchemaDoc.Proofs.Schema.FirstBreach

/-!
# Paths and the places that they name

A path is written step by step from the path of the root, and the steps can be told from it again
if no key has a dot or an opening bracket in it. There is one exception: the path of the root is a
key as well, and in front it leaves no trace. A key that is spelled so names the root, and what is
below it is named as if it were below the root.
-/

namespace SchemaDoc

namespace Path

/-! ## Paths of steps -/

/-- A step to a part of a value. -/
inductive Step where
  /-- To the value of a key. -/
  | field (name : String)
  /-- To the item at an index. -/
  | item (index : Nat)
deriving DecidableEq, Repr

/-- The path of the part that a step leads to, from the path of the value. -/
def Step.path (path : String) : Step → String
  | field name => Path.field path name
  | item index => Path.item path index

/-- The path of the part that some steps lead to, from the path of the value. -/
def follow (path : String) (steps : List Step) : String := steps.foldl Step.path path

/-- The path of the part of a whole value that some steps lead to. -/
def ofSteps (steps : List Step) : String := follow root steps

/-- No key has a character that stands in front of a step. -/
def Separable (steps : List Step) : Prop :=
  ∀ name, .field name ∈ steps → ∀ c ∈ name.toList, c ≠ '.' ∧ c ≠ '['

/-- The steps without the keys in front that are spelled as the path of the root. -/
def afterRoots (steps : List Step) : List Step := steps.dropWhile (· = .field root)

/-- No key has a character that stands in front of a step, and the first step is not to a key that
is spelled as the path of the root. -/
structure Telling (steps : List Step) : Prop where
  /-- No key has a character that stands in front of a step. -/
  separable : Separable steps
  /-- The first step is not to a key that is spelled as the path of the root. -/
  unrooted : steps.head? ≠ some (.field root)

/-! ## Characters of paths -/

/-- What a step adds to any path but that of the root. -/
def Step.suffix : Step → List Char
  | field name => '.' :: name.toList
  | item index => '[' :: ((toString index).toList ++ [']'])

private theorem toList_item (path : String) (index : Nat) :
    (Path.item path index).toList = path.toList ++ Step.suffix (.item index) := by
  have h : Path.item path index = path ++ "[" ++ toString index ++ "]" := rfl
  rw [h]
  simp [Step.suffix]

private theorem toList_field {path : String} (hp : path ≠ root) (name : String) :
    (Path.field path name).toList = path.toList ++ Step.suffix (.field name) := by
  have h : Path.field path name = path ++ "." ++ name := by
    rw [Path.field, if_neg hp]
    rfl
  rw [h]
  simp [Step.suffix]

private theorem ne_root_of_mem {path : String} {c : Char} (hc : c ∈ path.toList)
    (h : c = '.' ∨ c = '[') :
    path ≠ root := by
  rintro rfl
  rcases h with rfl | rfl <;> revert hc <;> decide

private theorem Step.toList_path {path : String} (hp : path ≠ root) (step : Step) :
    (step.path path).toList = path.toList ++ step.suffix ∧ step.path path ≠ root := by
  cases step with
  | field name =>
    have h := toList_field hp name
    refine ⟨h, ne_root_of_mem (c := '.') ?_ (.inl rfl)⟩
    rw [Step.path, h]
    simp [suffix]
  | item index =>
    have h := toList_item path index
    refine ⟨h, ne_root_of_mem (c := '[') ?_ (.inr rfl)⟩
    rw [Step.path, h]
    simp [suffix]

private theorem toList_follow {path : String} (hp : path ≠ root) (steps : List Step) :
    (follow path steps).toList = path.toList ++ steps.flatMap Step.suffix := by
  induction steps generalizing path with
  | nil => simp [follow]
  | cons step steps ih =>
    obtain ⟨text, ne⟩ := step.toList_path hp
    have h : follow path (step :: steps) = follow (step.path path) steps := rfl
    rw [h, ih ne, text]
    simp

/-- What a path starts with, and the steps that are written behind it. -/
def front : List Step → String × List Step
  | .field name :: steps => (name, steps)
  | steps => (root, steps)

private theorem toList_ofSteps {steps : List Step} (h : steps.head? ≠ some (.field root)) :
    (ofSteps steps).toList = (front steps).1.toList ++ (front steps).2.flatMap Step.suffix := by
  cases steps with
  | nil => simp [ofSteps, follow, front]
  | cons step steps =>
    cases step with
    | field name =>
      have hn : name ≠ root := fun he ↦ h (by rw [he]; rfl)
      have hf : ofSteps (.field name :: steps) = follow name steps := by
        simp [ofSteps, follow, Step.path, Path.field]
      rw [hf, toList_follow hn]
      rfl
    | item index =>
      have text := toList_item root index
      have hi : Path.item root index ≠ root := by
        apply ne_root_of_mem (c := '[') _ (.inr rfl)
        rw [text]
        simp [Step.suffix]
      have hf : ofSteps (.item index :: steps) = follow (Path.item root index) steps := rfl
      rw [hf, toList_follow hi, text]
      simp [front]

/-! ## Reading the steps again -/

private theorem append_inj_of_kind {kind : Char → Bool} {a b s t : List Char}
    (ha : ∀ c ∈ a, kind c = true) (hb : ∀ c ∈ b, kind c = true)
    (hs : ∀ c, s.head? = some c → kind c = false) (ht : ∀ c, t.head? = some c → kind c = false)
    (h : a ++ s = b ++ t) : a = b ∧ s = t := by
  have cut {a s : List Char} (ha : ∀ c ∈ a, kind c = true)
      (hs : ∀ c, s.head? = some c → kind c = false) : (a ++ s).takeWhile kind = a := by
    rw [List.takeWhile_append_of_pos ha]
    cases s with
    | nil => simp
    | cons c s => simp [hs c rfl]
  have same : a = b := by rw [← cut ha hs, h, cut hb ht]
  subst same
  exact ⟨rfl, List.append_cancel_left h⟩

private theorem head?_suffixes {steps : List Step} {c : Char}
    (h : (steps.flatMap Step.suffix).head? = some c) : c = '.' ∨ c = '[' := by
  cases steps with
  | nil => cases h
  | cons step steps =>
    cases step with
    | field name =>
      simp only [List.flatMap_cons, Step.suffix, List.cons_append, List.head?_cons] at h
      exact .inl (Option.some.inj h).symm
    | item index =>
      simp only [List.flatMap_cons, Step.suffix, List.cons_append, List.head?_cons] at h
      exact .inr (Option.some.inj h).symm

private theorem key_inj {m n : String} {l k : List Step} (hm : ∀ c ∈ m.toList, c ≠ '.' ∧ c ≠ '[')
    (hn : ∀ c ∈ n.toList, c ≠ '.' ∧ c ≠ '[')
    (h : m.toList ++ l.flatMap Step.suffix = n.toList ++ k.flatMap Step.suffix) :
    m = n ∧ l.flatMap Step.suffix = k.flatMap Step.suffix := by
  have behind {l : List Step} (c : Char) (hc : (l.flatMap Step.suffix).head? = some c) :
      (c != '.' && c != '[') = false := by
    rcases head?_suffixes hc with rfl | rfl <;> rfl
  have inside {m : String} (hm : ∀ c ∈ m.toList, c ≠ '.' ∧ c ≠ '[') :
      ∀ c ∈ m.toList, (c != '.' && c != '[') = true := by
    intro c hc
    simpa using hm c hc
  obtain ⟨text, rest⟩ := append_inj_of_kind (inside hm) (inside hn) behind behind h
  exact ⟨String.toList_injective text, rest⟩

private theorem index_inj {i j : Nat} {s t : List Char}
    (h : (toString i).toList ++ ']' :: s = (toString j).toList ++ ']' :: t) : i = j ∧ s = t := by
  have digits (n : Nat) : ∀ c ∈ (toString n).toList, c.isDigit = true := by
    intro c hc
    rw [Nat.toString_eq_repr, Nat.toList_repr] at hc
    exact Nat.isDigit_of_mem_toDigits (by decide) (by decide) hc
  have bracket (s : List Char) : ∀ c, (']' :: s).head? = some c → c.isDigit = false := by
    intro c hc
    obtain rfl := Option.some.inj hc
    rfl
  obtain ⟨text, rest⟩ := append_inj_of_kind (digits i) (digits j) (bracket s) (bracket t) h
  rw [Nat.toString_eq_repr, Nat.toList_repr, Nat.toString_eq_repr, Nat.toList_repr] at text
  refine ⟨?_, (List.cons.inj rest).2⟩
  rw [← Nat.ofDigitChars_ten_toDigits (n := i), text, Nat.ofDigitChars_ten_toDigits]

private theorem Separable.tail {step : Step} {steps : List Step} (h : Separable (step :: steps)) :
    Separable steps :=
  fun name hn ↦ h name (List.mem_cons_of_mem _ hn)

private theorem suffixes_inj {l m : List Step} (hl : Separable l) (hm : Separable m)
    (h : l.flatMap Step.suffix = m.flatMap Step.suffix) : l = m := by
  induction l generalizing m with
  | nil =>
    cases m with
    | nil => rfl
    | cons step m => cases step <;> simp [Step.suffix] at h
  | cons step l ih =>
    cases m with
    | nil => cases step <;> simp [Step.suffix] at h
    | cons other m =>
      cases step with
      | field name =>
        cases other with
        | field other =>
          simp only [List.flatMap_cons, Step.suffix, List.cons_append] at h
          obtain ⟨rfl, rest⟩ := key_inj (hl name List.mem_cons_self) (hm other List.mem_cons_self)
            (List.cons.inj h).2
          rw [ih hl.tail hm.tail rest]
        | item index => simp [Step.suffix] at h
      | item index =>
        cases other with
        | field name => simp [Step.suffix] at h
        | item other =>
          simp only [List.flatMap_cons, Step.suffix, List.cons_append, List.append_assoc,
            List.nil_append] at h
          obtain ⟨rfl, rest⟩ := index_inj (List.cons.inj h).2
          rw [ih hl.tail hm.tail rest]

private theorem Telling.eq_of_ofSteps_eq {l m : List Step} (hl : Telling l) (hm : Telling m)
    (h : ofSteps l = ofSteps m) : l = m := by
  -- What a path starts with has no separator, and neither have the keys behind it.
  have parts {l : List Step} (hl : Separable l) :
      (∀ c ∈ (front l).1.toList, c ≠ '.' ∧ c ≠ '[') ∧ Separable (front l).2 := by
    have rooted : ∀ c ∈ root.toList, c ≠ '.' ∧ c ≠ '[' := by simp [root]
    cases l with
    | nil => exact ⟨rooted, hl⟩
    | cons step l =>
      cases step with
      | field name => exact ⟨hl name List.mem_cons_self, hl.tail⟩
      | item index => exact ⟨rooted, hl⟩
  have text := congrArg String.toList h
  rw [toList_ofSteps hl.unrooted, toList_ofSteps hm.unrooted] at text
  obtain ⟨key, rest⟩ := key_inj (parts hl.separable).1 (parts hm.separable).1 text
  have steps := suffixes_inj (parts hl.separable).2 (parts hm.separable).2 rest
  have start {l : List Step} {name : String} (hl : Telling (.field name :: l)) : name ≠ root :=
    fun he ↦ hl.unrooted (by rw [he]; rfl)
  rcases l with _ | ⟨_ | _, l⟩ <;> rcases m with _ | ⟨_ | _, m⟩
  case nil.nil => rfl
  case cons.field.cons.field =>
    simp only [front] at key steps
    rw [key, steps]
  case nil.cons.field => exact absurd key.symm (start hm)
  case cons.field.nil => exact absurd key (start hl)
  case cons.field.cons.item => exact absurd key (start hl)
  case cons.item.cons.field => exact absurd key.symm (start hm)
  all_goals exact steps

/-! ## Keys that are spelled as the path of the root -/

private theorem ofSteps_afterRoots (steps : List Step) :
    ofSteps (afterRoots steps) = ofSteps steps := by
  induction steps with
  | nil => rfl
  | cons step steps ih =>
    by_cases h : step = .field root
    · subst h
      have same : ofSteps (.field root :: steps) = ofSteps steps := by
        simp [ofSteps, follow, Step.path, Path.field]
      rw [same, ← ih, afterRoots, List.dropWhile_cons_of_pos (by simp)]
      rfl
    · rw [afterRoots, List.dropWhile_cons_of_neg (by simpa using h)]

private theorem Separable.afterRoots {steps : List Step} (h : Separable steps) :
    Telling (afterRoots steps) := by
  constructor
  · intro name hn
    exact h name ((List.dropWhile_sublist _).subset hn)
  · intro he
    have := List.head?_dropWhile_not (fun step ↦ decide (step = Step.field root)) steps
    rw [Path.afterRoots] at he
    rw [he] at this
    simp at this

private theorem Telling.afterRoots_eq {steps : List Step} (h : Telling steps) :
    Path.afterRoots steps = steps := by
  cases steps with
  | nil => rfl
  | cons step steps =>
    apply List.dropWhile_cons_of_neg
    have : step ≠ .field root := fun he ↦ h.unrooted (by rw [he]; rfl)
    simpa using this

private theorem ofSteps_eq_iff {l m : List Step} (hl : Separable l) (hm : Separable m) :
    ofSteps l = ofSteps m ↔ afterRoots l = afterRoots m := by
  constructor
  · intro h
    rw [← ofSteps_afterRoots l, ← ofSteps_afterRoots m] at h
    exact hl.afterRoots.eq_of_ofSteps_eq hm.afterRoots h
  · intro h
    rw [← ofSteps_afterRoots l, h, ofSteps_afterRoots]

end Path

/-! ## Places -/

/-- The step of a visit, whether or not the key is declared. -/
def Visit.step : Visit → Path.Step
  | undeclared key => .field key
  | field name => .field name
  | item index => .item index

/-- The steps that lead to a place. -/
def Place.steps (place : Place) : List Path.Step := place.map Visit.step

private theorem Place.pathFrom_eq (place : Place) (path : String) :
    place.pathFrom path = Path.follow path place.steps := by
  rw [pathFrom, Path.follow, steps, List.foldl_map]
  congr
  funext path visit
  cases visit <;> rfl

private theorem Breach.path_violation (path : String) (breach : Breach) :
    (breach.violation path).path = path := by
  cases breach <;> rfl

namespace Schema

/-- A check reports a violation, and what is broken first is where some steps lead. -/
def ReportsAt (s : Schema) (v : Value) (e : Violation) (steps : List Path.Step) : Prop :=
  s.check v = .error e ∧ ∃ place breach, BreaksFirst s v place breach ∧
    e = breach.violation place.path ∧ steps = place.steps

private theorem ReportsAt.path_eq {s : Schema} {v : Value} {e : Violation} {steps : List Path.Step}
    (h : s.ReportsAt v e steps) : e.path = Path.ofSteps steps := by
  obtain ⟨-, place, breach, -, rfl, rfl⟩ := h
  rw [Breach.path_violation, Place.path, Place.pathFrom_eq, Path.ofSteps, Path.root]

private theorem exists_reportsAt {s : Schema} (hs : s.Normal) {v : Value} (hv : v.Normal)
    {e : Violation} (h : s.check v = .error e) : ∃ steps, s.ReportsAt v e steps := by
  have tells := tells_checkAt s hs v hv Path.root
  rw [← check, h] at tells
  obtain ⟨place, breach, first, he⟩ := tells
  exact ⟨place.steps, h, place, breach, first, he, rfl⟩

private theorem path_of_checkAt {s : Schema} (hs : s.Normal) {v : Value} (hv : v.Normal)
    {path : String} {e : Violation} (h : s.checkAt v path = .error e) :
    ∃ steps, e.path = Path.follow path steps := by
  have tells := tells_checkAt s hs v hv path
  rw [h] at tells
  obtain ⟨place, breach, -, rfl⟩ := tells
  exact ⟨place.steps, by rw [Breach.path_violation, Place.pathFrom_eq]⟩

private theorem path_of_checkAppend {s : Schema} (hs : s.Normal) {length : Nat} {v : Value}
    (hv : v.Normal) {e : Violation} (h : CheckedDocument.checkAppend s length v = .error e) :
    e.path = Path.root ∨ ∃ steps, e.path = Path.ofSteps (.item length :: steps) := by
  cases s with
  | list element bound =>
    rw [CheckedDocument.checkAppend] at h
    cases hc : element.checkAt v (Path.item Path.root length) with
    | error f =>
      rw [hc] at h
      cases h
      exact .inr (path_of_checkAt (s := element) hs hv hc)
    | ok u =>
      rw [hc] at h
      simp only [bind, Except.bind] at h
      split at h
      · split at h
        · cases h
          exact .inl rfl
        · cases h
      · cases h
  | any => cases h
  | table | number | string | bool =>
    cases h
    exact .inl rfl

private theorem path_of_checkSet {s : Schema} (hs : s.Normal) {key : String} {v : Value}
    (hv : v.Normal) {e : Violation} (h : CheckedDocument.checkSet s key v = .error e) :
    e.path = Path.root ∨ ∃ steps, e.path = Path.ofSteps (.field key :: steps) := by
  cases s with
  | table fields =>
    rw [CheckedDocument.checkSet] at h
    cases hf : Dictionary.find? key fields with
    | none =>
      rw [hf] at h
      cases h
      exact .inr ⟨[], rfl⟩
    | some field =>
      rw [hf] at h
      have hn := normalFields_iff.mp hs.2 _ (Dictionary.mem_of_find? hf)
      exact .inr (path_of_checkAt (s := field) hn hv h)
  | any => cases h
  | list | number | string | bool =>
    cases h
    exact .inl rfl

/-- Two locations whose keys have no dot and no opening bracket have the same path only if they
differ in nothing but keys in front that are spelled as the path of the root. So locations without
such a key in front are told apart by their paths. Whatever a check reports, it reports at the path
of a location, and so two violations with the same path are at the same place, and one at the path
of the root is in the value itself. A violation in an added item or in a set field is reported at a
path that starts with that item or that field, unless it is in the list or table itself. -/
theorem paths_tell_places_apart {l m : List Path.Step} (hl : Path.Separable l)
    (hm : Path.Separable m) :
    (Path.ofSteps l = Path.ofSteps m ↔ Path.afterRoots l = Path.afterRoots m) ∧
    (Path.Telling l → Path.Telling m → Path.ofSteps l = Path.ofSteps m → l = m) ∧
    (∀ (s : Schema) (v : Value) (e : Violation), s.Normal → v.Normal → s.check v = .error e →
      ∃ place, s.ReportsAt v e place ∧ e.path = Path.ofSteps place ∧
        (Path.Separable place → (e.path = Path.root ↔ Path.afterRoots place = [])) ∧
        (Path.Telling place → (e.path = Path.root ↔ place = []) ∧
          ∀ (t : Schema) (w : Value) (f : Violation) (other : List Path.Step),
            t.ReportsAt w f other → Path.Telling other → e.path = f.path → place = other)) ∧
    ∀ (s : Schema) (v : Value) (e : Violation), s.Normal → v.Normal →
      (∀ length, CheckedDocument.checkAppend s length v = .error e →
        e.path = Path.root ∨ ∃ l, e.path = Path.ofSteps (.item length :: l)) ∧
      ∀ key, CheckedDocument.checkSet s key v = .error e →
        e.path = Path.root ∨ ∃ l, e.path = Path.ofSteps (.field key :: l) := by
  refine ⟨Path.ofSteps_eq_iff hl hm, Path.Telling.eq_of_ofSteps_eq, ?_, ?_⟩
  · intro s v e hs hv h
    obtain ⟨place, reported⟩ := exists_reportsAt hs hv h
    have root_iff (hp : Path.Separable place) :
        e.path = Path.root ↔ Path.afterRoots place = [] := by
      rw [reported.path_eq]
      exact Path.ofSteps_eq_iff (m := []) hp (by intro name hn; cases hn)
    refine ⟨place, reported, reported.path_eq, root_iff, ?_⟩
    intro hp
    constructor
    · rw [root_iff hp.separable, hp.afterRoots_eq]
    · intro t w f other elsewhere ho same
      rw [reported.path_eq, elsewhere.path_eq] at same
      exact hp.eq_of_ofSteps_eq ho same
  · intro s v e hs hv
    exact ⟨fun length h ↦ path_of_checkAppend hs hv h, fun key h ↦ path_of_checkSet hs hv h⟩

/-- The first item below a key and the key below the first item. -/
theorem item_of_key_is_not_key_of_item :
    Path.ofSteps [.field "a", .item 0] ≠ Path.ofSteps [.item 0, .field "a"] := by
  have item : Path.Separable [.field "a", .item 0] := by simp [Path.Separable]
  have key : Path.Separable [.item 0, .field "a"] := by simp [Path.Separable]
  intro same
  have steps := (paths_tell_places_apart item key).2.1 ⟨item, by decide⟩ ⟨key, by decide⟩ same
  cases steps

/-- Two locations of one path, with keys that are not empty and have no separator. In a check the
field of a table whose key is spelled as the path of the root is reported as if it were a field of
the whole value, and the table itself as if it were the whole value. -/
theorem key_spelled_as_root_is_not_told_apart :
    (∀ name ∈ ["$root", "a"], name ≠ "" ∧ ∀ c ∈ name.toList, c ≠ '.' ∧ c ≠ '[' ∧ c ≠ ']') ∧
      [Path.Step.field "$root", .field "a"] ≠ [.field "a"] ∧
      Path.ofSteps [.field "$root", .field "a"] = Path.ofSteps [.field "a"] ∧
      (table [("$root", table [("a", .number)]), ("a", .number)]).check
        (.table [("$root", .table [("a", .null)])]) = .error (.wrongType "a" "number" "null") ∧
      (table [("$root", table [("a", .number)]), ("a", .number)]).check
        (.table [("a", .null)]) = .error (.wrongType "a" "number" "null") ∧
      (table [("$root", table [("a", .number)]), ("a", .number)]).check
        (.table [("$root", .null)]) = .error (.wrongType "$root" "table" "null") := by
  refine ⟨by simp, by decide, ?_, ?_, ?_, ?_⟩ <;> rfl

end Schema

end SchemaDoc
