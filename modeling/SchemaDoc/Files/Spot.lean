import SchemaDoc.Files.Branch
import SchemaDoc.Files.Error

/-!
# Spots

A spot is a place below the top of a branch together with what is there, which may be nothing. A
walk goes from spot to spot, name by name, and what is found where it ends is what the branch has at
that place.
-/

namespace SchemaDoc.Files

/-- A place below the top of a branch, and what is there. -/
structure Spot (top : Branch) where
  /-- The names that lead here, the last first. -/
  back : List Name
  /-- What is here, if anything. -/
  branch? : Option Branch
  /-- What is here is what the branch has at the place. -/
  branch?_eq : branch? = Branch.at? back.reverse top

namespace Spot

variable {top : Branch}

/-- The spot of a place. -/
def ofLocation (top : Branch) (location : Location) : Spot top :=
  ⟨location.reverse, Branch.at? location top, by simp⟩

/-- The place of a spot. -/
def location (s : Spot top) : Location := s.back.reverse

/-- What stands at a spot. -/
def node? (s : Spot top) : Option Node := s.branch?.map Branch.node

/-- The spot around a spot; the top has none around it. -/
def up (s : Spot top) : Spot top := ofLocation top s.back.tail.reverse

/-- The spot of a name below a spot. -/
def down (s : Spot top) (name : Name) : Spot top :=
  ⟨name :: s.back, s.branch?.bind fun b ↦ Branch.child? name b.children, by
    rw [List.reverse_cons, Branch.at?_concat, s.branch?_eq]⟩

/-- The longest name that can be looked up. -/
def nameLimit : Nat := 255

/-- Steps from a spot, which has to be a directory, to a name in it. -/
def step (s : Spot top) (name : Name) : Except Error (Spot top) :=
  match s.branch? with
  | none => .error .notFound
  | some (.file _) => .error .notDirectory
  | some (.directory _) =>
    if name = here then .ok s
    else if name = above then .ok s.up
    else if nameLimit < name.length then .error .nameTooLong
    else .ok (s.down name)

/-- The spot that some names lead to, whether or not there is something. -/
def walk (s : Spot top) : List Name → Except Error (Spot top)
  | [] => .ok s
  | name :: names =>
    match s.step name with
    | .error e => .error e
    | .ok next => next.walk names

/-! ## Laws -/

@[simp] theorem location_ofLocation (l : Location) : (ofLocation top l).location = l :=
  List.reverse_reverse l

@[simp] theorem location_up (s : Spot top) : s.up.location = s.location.dropLast := by
  rw [up, location_ofLocation, location, List.dropLast_reverse]

@[simp] theorem location_down (s : Spot top) (name : Name) :
    (s.down name).location = s.location ++ [name] := List.reverse_cons

/-- What is at a spot is what the branch has at its place. -/
theorem at?_location (s : Spot top) : Branch.at? s.location top = s.branch? := s.branch?_eq.symm

/-- What stands at a spot is what stands at its place. -/
theorem node?_location (s : Spot top) : Branch.node? s.location top = s.node? := by
  rw [Branch.node?, at?_location, node?]

end Spot

end SchemaDoc.Files
