import SchemaDoc.Files.Spot

/-!
# File trees

The files and directories below one directory. What stands at a place is looked up by the names
that lead there. Each operation finds its spot by walking the names of a path, and fails for the
reasons for which a walk can fail.
-/

namespace SchemaDoc.Files

/-- The files and directories below one directory. -/
structure Tree where
  /-- What the top directory contains. -/
  children : List (Name × Branch)
deriving Repr

namespace Tree

/-- The tree of an empty directory. -/
def empty : Tree := ⟨[]⟩

/-- The top directory with all that is below it. -/
def top (t : Tree) : Branch := .directory t.children

/-- What stands at a place. -/
def node? (t : Tree) (location : Location) : Option Node :=
  Branch.node? location t.top

/-- Puts a file or an empty directory at a place below the top. -/
def put (t : Tree) (location : Location) (node : Node) : Tree :=
  ⟨(Branch.put (.ofNode node) location t.top).children⟩

/-- The longest path that can be looked up. -/
def pathLimit : Nat := 4095

/-- The spot that a path leads to, whether or not there is something. -/
def locate (t : Tree) (path : Path) : Except Error (Spot t.top) :=
  if 0 ∈ path then .error .zeroInName
  else if path = [] then .error .notFound
  else if pathLimit < path.length then .error .nameTooLong
  else (Spot.ofLocation t.top []).walk path.names

/-- What is found at a path. -/
def find (t : Tree) (path : Path) : Except Error Branch := do
  let spot ← t.locate path
  match spot.branch? with
  | none => .error .notFound
  | some (.file contents) =>
    if path.endsInSlash then .error .notDirectory else .ok (.file contents)
  | some (.directory children) => .ok (.directory children)

/-- Whether something can be found at a path. -/
def contains (t : Tree) (path : Path) : Bool := (t.find path).toBool

/-- The contents of a file. -/
def contentsAt (t : Tree) (path : Path) : Except Error Bytes := do
  match ← t.find path with
  | .file contents => .ok contents
  | .directory _ => .error .isDirectory

/-- The contents of a file as text. -/
def textAt (t : Tree) (path : Path) : Except Error String := do
  match Utf8.decode? (← t.contentsAt path) with
  | some s => .ok s
  | none => .error .notText

/-- The names in a directory, in the order in which it lists them. -/
def namesAt (t : Tree) (path : Path) : Except Error (List Name) := do
  match ← t.find path with
  | .file _ => .error .notDirectory
  | .directory children => .ok (children.map Prod.fst)

/-- Makes the directories that some names lead to, one after the other from a spot on, where they
are missing. Those that were made stay if a later one fails. -/
def makeDirectories (t : Tree) (spot : Spot t.top) : List Name → Except Error Unit × Tree
  | [] => (.ok (), t)
  | name :: names =>
    match spot.step name with
    | .error e => (.error e, t)
    | .ok next =>
      match next.node? with
      | none =>
        let made := t.put next.location .directory
        made.makeDirectories (.ofLocation made.top next.location) names
      | some .directory => t.makeDirectories next names
      | some (.file _) => (.error .alreadyThere, t)

/-- Makes the directories around what a path leads to, where they are missing. -/
def ensureParent (t : Tree) (path : Path) : Except Error Unit × Tree :=
  t.makeDirectories (.ofLocation t.top []) (Path.parentNames path.names)

/-- Makes the directory of a path, unless it is there. -/
def makeDirectory (t : Tree) (path : Path) : Except Error Tree := do
  let spot ← t.locate path
  match spot.node? with
  | some .directory => .ok t
  | some (.file _) => .error .alreadyThere
  | none => .ok (t.put spot.location .directory)

/-- Makes the directory of a path and those around it that are missing. -/
def ensureDirectory (t : Tree) (path : Path) : Except Error Unit × Tree :=
  if path = [] then (.ok (), t)
  else
    match t.makeDirectory path with
    | .ok t => (.ok (), t)
    | .error .notFound =>
      match t.ensureParent path with
      | (.error e, t) => (.error e, t)
      | (.ok (), t) =>
        match t.makeDirectory path with
        | .ok t => (.ok (), t)
        | .error e => (.error e, t)
    | .error e => (.error e, t)

/-- Writes a file, in place of what it contained before. -/
def writeAt (t : Tree) (path : Path) (contents : Bytes) : Except Error Tree := do
  let spot ← t.locate path
  match spot.node? with
  | some .directory => .error .isDirectory
  | some (.file _) =>
    if path.endsInSlash then .error .notDirectory
    else .ok (t.put spot.location (.file contents))
  | none =>
    if path.endsInSlash then .error .isDirectory
    else .ok (t.put spot.location (.file contents))

/-! ## Laws -/

/-- Putting something below the top keeps the rest of the top. -/
theorem top_put (t : Tree) {location : Location} (h : location ≠ []) (node : Node) :
    (t.put location node).top = Branch.put (.ofNode node) location t.top := by
  cases location with
  | nil => exact absurd rfl h
  | cons name names => rfl

/-- What was put at a place stands there, and no other place is touched. The place has to be in a
directory, and nothing may stand below it. -/
theorem node?_put (t : Tree) {location : Location} (hl : location ≠ []) (node : Node)
    (hp : t.node? location.dropLast = some .directory)
    (hold : ∀ b, Branch.at? location t.top = some b → b.children = []) (other : Location) :
    (t.put location node).node? other = if other = location then some node else t.node? other := by
  rw [Tree.node?, top_put t hl, Branch.node?_put (by simp) hl hp hold]
  simp [Tree.node?]

end Tree

end SchemaDoc.Files
