import TokenCircuit.Analysis.Facts

/-!
A sample circuit with two clock domains in one module: a fast counter that a slow register samples.
-/

namespace TokenCircuit.Demo.Sampler

/-- A register that `in_reset` clears. -/
def register (name clock : String) (width : Nat) : Stmt :=
  .reg name (.uint width) (.ref clock) (.ref "in_reset") (.literal 0 width)

def sampler : Module where
  name := "Sampler"
  ports := [
    .input "clock_fast" .clock,
    .input "clock_slow" .clock,
    .input "in_reset" (.uint 1),
    .input "in_step" (.uint 8),
    .output "count" (.uint 8),
    .output "sample" (.uint 8)]
  body := .block [
    register "counter" "clock_fast" 8,
    register "sampled" "clock_slow" 8,
    .connect (.ref "counter") (.prim .add [.ref "counter", .ref "in_step"] []),
    .connect (.ref "sampled") (.ref "counter"),
    .connect (.ref "count") (.ref "counter"),
    .connect (.ref "sample") (.ref "sampled")]

def inner (port : String) : Expr := .field (.ref "sampler") port

def top : Module where
  name := "Top"
  ports := sampler.ports
  body := .block [
    .inst "sampler" "Sampler",
    .connect (inner "clock_fast") (.ref "clock_fast"),
    .connect (inner "clock_slow") (.ref "clock_slow"),
    .connect (inner "in_reset") (.ref "in_reset"),
    .connect (inner "in_step") (.ref "in_step"),
    .connect (.ref "count") (inner "count"),
    .connect (.ref "sample") (inner "sample")]

def circuit : Circuit := { main := "Top", modules := [top, sampler] }

def analysis : Analysis := .ofFacts [
  .input "Sampler" "clock" ⟨none, ["clock_fast", "clock_slow"]⟩,
  .input "Sampler" "in" ⟨some "clock_fast", ["in_reset", "in_step"]⟩,
  .output "Sampler" "count" ⟨some "clock_fast", ["count"]⟩,
  .output "Sampler" "sample" ⟨some "clock_slow", ["sample"]⟩,
  .edge "Sampler" "count" "counter",
  .edge "Sampler" "sample" "sampled",
  .target "Sampler",
  .timestamp "clock",
  .timestamp "sample",
  .topChannel "clock" .input ["clock_fast", "clock_slow"],
  .topChannel "in" .input ["in_reset", "in_step"],
  .topChannel "count" .output ["count"],
  .topChannel "sample" .output ["sample"]]

end TokenCircuit.Demo.Sampler
