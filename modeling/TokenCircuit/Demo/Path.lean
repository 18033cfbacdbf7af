/-!
Paths as walks through a file tree.

A path is read one step after the other: a name leads down, two dots lead up, and a single dot or nothing between two
slashes leads nowhere. What a step means depends on the place it starts from, so paths are never shortened beforehand.
-/

namespace TokenCircuit.Demo

/-- A place below the working directory: the names on the way to it, the last one first. -/
abbrev Place := List String

/-- What a part of a path between slashes asks for. -/
inductive Step where
  | stay
  | up
  | down (name : String)
  deriving DecidableEq, Repr, Inhabited

namespace Step

def ofPart (part : String) : Step :=
  if part = "" ∨ part = "." then .stay else if part = ".." then .up else .down part

/-- The place a step leads to; there is none above the working directory. -/
def target? : Step → Place → Option Place
  | .stay, p => some p
  | .up, [] => none
  | .up, _ :: p => some p
  | .down name, p => some (name :: p)

end Step

/-- The parts of a text between slashes. -/
def pathParts : List Char → List (List Char)
  | [] => [[]]
  | c :: rest =>
    match c, pathParts rest with
    | '/', parts => [] :: parts
    | c, [] => [[c]]
    | c, part :: parts => (c :: part) :: parts

/-- The steps of a path from the working directory; a path that starts with a slash starts elsewhere. -/
def pathSteps? (path : String) : Option (List Step) :=
  if path.toList.head? = some '/' then none
  else some ((pathParts path.toList).map fun part => .ofPart (String.ofList part))

end TokenCircuit.Demo
