import SchemaDoc.Files.Path

/-!
# Branches

A branch is a file, or a directory with all that is below it, its children in no particular order.
The view of a branch is `node?`: what stands at each place. Putting a file or an empty directory at
a place changes what stands there and nothing else, as long as the place is in a directory and
nothing stands below it.
-/

namespace SchemaDoc.Files

/-- What stands at a place. -/
inductive Node where
  /-- A file with its contents. -/
  | file (contents : Bytes)
  /-- A directory. -/
  | directory
deriving DecidableEq, Repr

/-- A place, by the names that lead to it. -/
abbrev Location := List Name

/-- A file, or a directory with all that is below it. -/
inductive Branch where
  /-- A file with its contents. -/
  | file (contents : Bytes)
  /-- A directory with its children by name. -/
  | directory (children : List (Name × Branch))
deriving Repr

namespace Branch

/-- The branch that a node is by itself. -/
def ofNode : Node → Branch
  | .file contents => file contents
  | .directory => directory []

/-- What a branch is. -/
def node : Branch → Node
  | file contents => .file contents
  | directory _ => .directory

/-- What a directory contains; a file contains nothing. -/
def children : Branch → List (Name × Branch)
  | file _ => []
  | directory children => children

/-- The branch of a name among some children. -/
def child? (name : Name) : List (Name × Branch) → Option Branch
  | [] => none
  | (n, b) :: children => if n = name then some b else child? name children

/-- Gives a name a branch, in place of any it had. -/
def setChild (name : Name) (b : Branch) : List (Name × Branch) → List (Name × Branch)
  | [] => [(name, b)]
  | (n, c) :: children =>
    if n = name then (name, b) :: children else (n, c) :: setChild name b children

/-- The branch at a place. -/
def at? : Location → Branch → Option Branch
  | [], b => some b
  | name :: names, b =>
    match child? name b.children with
    | some c => at? names c
    | none => none

/-- What stands at a place. -/
def node? (location : Location) (b : Branch) : Option Node := (at? location b).map node

/-- Puts a branch at a place, in place of any that is there. -/
def put (new : Branch) : Location → Branch → Branch
  | [], _ => new
  | name :: names, b =>
    directory (setChild name (put new names ((child? name b.children).getD (directory [])))
      b.children)

/-! ## Laws -/

@[simp] theorem node_ofNode (node : Node) : (ofNode node).node = node := by
  cases node <;> rfl

@[simp] theorem children_ofNode (node : Node) : (ofNode node).children = [] := by
  cases node <;> rfl

/-- A name that was just given a branch has it, and no other name is touched. -/
theorem child?_setChild (name other : Name) (b : Branch) (children : List (Name × Branch)) :
    child? other (setChild name b children) =
      if name = other then some b else child? other children := by
  induction children with
  | nil => rfl
  | cons m children ih =>
    obtain ⟨n, c⟩ := m
    by_cases hn : n = name
    · subst hn
      by_cases ho : n = other <;> simp [setChild, child?, ho]
    · by_cases ho : n = other
      · subst ho
        simp [setChild, hn, child?, Ne.symm hn]
      · simp [setChild, hn, child?, ho, ih]

private theorem at?_of_children_eq_nil {b : Branch} (h : b.children = []) {location : Location}
    (hl : location ≠ []) : at? location b = none := by
  cases location with
  | nil => exact absurd rfl hl
  | cons name names => simp [at?, h, child?]

/-- What is at a name below a place is the child of that name there. -/
theorem at?_concat (location : Location) (name : Name) (b : Branch) :
    at? (location ++ [name]) b = (at? location b).bind fun c ↦ child? name c.children := by
  induction location generalizing b with
  | nil => cases h : child? name b.children <;> simp [at?, h]
  | cons n names ih => cases h : child? n b.children <;> simp [at?, h, ih]

/-- What stands at the top of a branch is what the branch is. -/
@[simp] theorem node?_nil (b : Branch) : node? [] b = some b.node := rfl

private theorem node?_cons (name : Name) (names : Location) (b : Branch) :
    node? (name :: names) b = (child? name b.children).bind (node? names) := by
  cases h : child? name b.children <;> simp [node?, at?, h]

/-- What was put at a place stands there, and no other place is touched. The place has to be in a
directory, and nothing may stand below it. -/
theorem node?_put {new : Branch} (hnew : new.children = []) {location : Location}
    (hl : location ≠ []) {b : Branch} (hp : node? location.dropLast b = some .directory)
    (hold : ∀ c, at? location b = some c → c.children = []) (other : Location) :
    node? other (put new location b) =
      if other = location then some new.node else node? other b := by
  induction location generalizing b other with
  | nil => exact absurd rfl hl
  | cons name names ih =>
    cases other with
    | nil =>
      have hb : b.node = .directory := by
        cases names with
        | nil => simpa using hp
        | cons _ _ =>
          cases b with
          | file _ => simp [node?_cons, children, child?] at hp
          | directory _ => rfl
      rw [node?_nil, node?_nil, hb, if_neg (by simp)]
      rfl
    | cons o others =>
      rw [node?_cons, node?_cons, put, children, child?_setChild]
      by_cases ho : name = o
      · subst ho
        cases names with
        | nil =>
          have hchild : others ≠ [] →
              (child? name b.children).bind (node? others) = none := fun h ↦ by
            cases hc : child? name b.children with
            | none => rfl
            | some c =>
              have := hold c (by simp [at?, hc])
              simp [node?, at?_of_children_eq_nil this h]
          cases others with
          | nil => simp [put]
          | cons p others =>
            rw [hchild (by simp)]
            simp [put, node?, at?_of_children_eq_nil hnew]
        | cons n names =>
          rw [List.dropLast_cons_of_ne_nil (by simp), node?_cons] at hp
          obtain ⟨c, hc, hp⟩ := Option.bind_eq_some_iff.mp hp
          have hold' : ∀ d, at? (n :: names) c = some d → d.children = [] := fun d hd ↦
            hold d (by rw [at?, hc]; exact hd)
          simp [hc, ih (by simp) hp hold' others]
      · simp [ho, Ne.symm ho]

end Branch

end SchemaDoc.Files
