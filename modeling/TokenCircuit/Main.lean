import TokenCircuit.Demo.Disk

/-!
The demo as a program: makes the sample circuits token-driven and writes the results below `./build`.
-/

namespace TokenCircuit.Demo

/-- Writes the files of one sample. -/
def writeSample (s : Sample) : IO Unit :=
  match s.artifacts with
  | .ok artifacts => artifacts.forM fun a => IO.FS.writeFile (buildPath a.file) a.content
  | .error e => throw (IO.userError ("transform error: " ++ e.message))

end TokenCircuit.Demo

open TokenCircuit.Demo in
def main : IO UInt32 := do
  try
    IO.FS.createDirAll buildDirectory
    samples.forM writeSample
    return 0
  catch e =>
    IO.eprintln (toString e)
    return 1
