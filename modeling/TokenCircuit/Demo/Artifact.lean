import TokenCircuit.Channelization
import TokenCircuit.Demo.Sampler
import TokenCircuit.Demo.Stages

/-!
The files of the demo.

Each sample yields three files: the circuit as it is, its token-driven form, and a table of where the signals went.
All signals are protected and all modules kept apart, which shows in what the pruning leaves.
-/

namespace TokenCircuit.Demo

structure Sample where
  name : String
  circuit : Circuit
  analysis : Analysis

def samples : List Sample :=
  [⟨"dual_clock", Sampler.circuit, Sampler.analysis⟩, ⟨"pipeline", Stages.circuit, Stages.analysis⟩]

structure Artifact where
  file : String
  content : String
  deriving DecidableEq, Repr, Inhabited

/-- A line of the table of signals. -/
def renameLine (old : Target) : Option Target → String
  | some new => old.text ++ " -> " ++ new.text
  | none => old.text ++ " -> (deleted)"

def renameTable (renames : RenameMap) : String :=
  Text.unlines (renames.entries.entries.map fun (old, new) => renameLine old new)

namespace Sample

/-- Protects every port and keeps every module apart. -/
def annotations (s : Sample) : List Annotation :=
  s.circuit.modules.flatMap (fun m => m.ports.map fun p => .dontTouch ⟨m.name, p.name⟩) ++
    s.circuit.modules.map fun m => .noDedup m.name

def artifacts (s : Sample) : Except ChannelizeError (List Artifact) := do
  let result ← (s.circuit.channelize s.analysis s.annotations {}).outcome
  return [
    ⟨s.name ++ ".fir", s.circuit.text ++ "\n"⟩,
    ⟨s.name ++ "_fame1.fir", result.circuit.text ++ "\n"⟩,
    ⟨s.name ++ ".renames", renameTable result.renames ++ "\n"⟩]

end Sample

end TokenCircuit.Demo
