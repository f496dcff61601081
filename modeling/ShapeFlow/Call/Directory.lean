/-
# The directory

Which routines a name may mean, and which classes have which members.  Names of
routines are the same in upper and lower case; names of classes and members are
not.
-/
import ShapeFlow.Sorted

namespace ShapeFlow

/-- The names declared in a program. -/
structure Directory where
  /-- The routines of each lower-case name, in order of declaration. -/
  routines : List (String × List Nat) := []
  /-- The members of each class. -/
  classes : List (String × List String) := []
deriving Inhabited

namespace Directory

/-- Adds `b` to the entries of `key`, unless it is there. -/
def enter {β : Type} [BEq β] (key : String) (b : β) :
    List (String × List β) → List (String × List β)
  | [] => [(key, [b])]
  | (k, bs) :: rest =>
    if k = key then (k, if bs.contains b then bs else bs ++ [b]) :: rest
    else (k, bs) :: enter key b rest

/-- Adds routine `id` to those called `name`. -/
def declareRoutine (d : Directory) (name : String) (id : Nat) : Directory :=
  { d with routines := enter name.toLower id d.routines }

/-- The routines called `name`: those declared and their clones. -/
def candidates (d : Directory) (name : String) : List Nat :=
  (d.routines.lookup name.toLower).getD []

/-- Adds members to a class. -/
def declareClass (d : Directory) (name : String) (members : List String) : Directory :=
  { d with classes := members.foldl (fun cs m => enter name m cs) d.classes }

/-- The classes with a member called `member`, by name. -/
def classesWith (d : Directory) (member : String) : List String :=
  Sorted.sort ((d.classes.filter fun c => c.2.contains member).map (·.1))

end Directory
end ShapeFlow
