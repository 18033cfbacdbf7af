import TokenCircuit.Collection.OrderedMap
import TokenCircuit.Collection.OrderedSet
import TokenCircuit.Demo.Artifact
import TokenCircuit.Demo.Path

/-!
Runs of the demo on a file tree.

The tree knows the files with their contents and the directories below the working directory. A path leads somewhere
only if every step of it starts from a directory. A directory cannot be made where a file is, nor a file written where a
directory is: such a path blocks the run, and what was written before stays.
-/

namespace TokenCircuit.Demo

/-- The file tree below the working directory. -/
structure Disk where
  files : OrderedMap Place String := ∅
  directories : OrderedSet Place := ∅

/-- Why a run ends early. -/
inductive Failure where
  | blocked (path : String)
  | channelize (error : ChannelizeError)
  deriving DecidableEq, Repr, Inhabited

namespace Disk

/-- The working directory itself is always there. -/
def isDirectory (d : Disk) (p : Place) : Bool := p.isEmpty || p ∈ d.directories

/-- Where steps lead. Each starts from a directory; at the end there may be anything, or nothing yet. -/
def walk (d : Disk) : List Step → Place → Option Place
  | [], p => some p
  | s :: rest, p => if d.isDirectory p then s.target? p >>= d.walk rest else none

def place? (d : Disk) (path : String) : Option Place := pathSteps? path >>= fun steps => d.walk steps []

/-- Goes along steps and makes every directory that is missing on the way; a file on the way is in the way. -/
def makeWay : Disk → List Step → Place → Option Disk
  | d, [], _ => some d
  | d, s :: rest, p =>
    match s.target? p with
    | none => none
    | some p => if p ∈ d.files then none else makeWay { d with directories := d.directories.insert p } rest p

/-- Makes a directory, with those above it. -/
def makeDirectory (d : Disk) (path : String) : Except Failure Disk :=
  match pathSteps? path >>= fun steps => d.makeWay steps [] with
  | some d => .ok d
  | none => .error (.blocked path)

def writeFile (d : Disk) (path content : String) : Except Failure Disk :=
  match d.place? path with
  | some p => if d.isDirectory p then .error (.blocked path) else .ok { d with files := d.files.insert p content }
  | none => .error (.blocked path)

def content? (d : Disk) (path : String) : Option String := d.place? path >>= d.files.get?

/-- Writes an empty file, with the directories above it. -/
def makeFile (d : Disk) (path : String) : Except Failure Disk :=
  match pathSteps? path >>= fun steps => d.makeWay steps.dropLast [] with
  | some d => d.writeFile path ""
  | none => .error (.blocked path)

/-- The tree with empty files and then directories made at the given paths, without those that are blocked. -/
def ofPaths (files directories : List String) : Disk :=
  let d := files.foldl (fun d path => (d.makeFile path).toOption.getD d) {}
  directories.foldl (fun d path => (d.makeDirectory path).toOption.getD d) d

end Disk

/-- Where the demo puts its files. -/
def buildDirectory : String := "build"

def buildPath (file : String) : String := buildDirectory ++ "/" ++ file

/-- Writes files until one is blocked. -/
def writeArtifacts : List Artifact → Disk → Disk × Except Failure Unit
  | [], d => (d, .ok ())
  | a :: rest, d =>
    match d.writeFile (buildPath a.file) a.content with
    | .ok d => writeArtifacts rest d
    | .error e => (d, .error e)

/-- Writes the files of the samples, one sample after the other. -/
def runSamples : List Sample → Disk → Disk × Except Failure Unit
  | [], d => (d, .ok ())
  | s :: rest, d =>
    match s.artifacts with
    | .error e => (d, .error (.channelize e))
    | .ok artifacts =>
      match writeArtifacts artifacts d with
      | (d, .ok ()) => runSamples rest d
      | (d, .error e) => (d, .error e)

/-- Runs the demo. -/
def run (d : Disk) : Disk × Except Failure Unit :=
  match d.makeDirectory buildDirectory with
  | .error e => (d, .error e)
  | .ok d => runSamples samples d

end TokenCircuit.Demo
