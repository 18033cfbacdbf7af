import TokenCircuit.Analysis.Facts

/-!
A sample circuit with two adders of a single clock, one after the other.
-/

namespace TokenCircuit.Demo.Stages

def stage : Module where
  name := "Stage"
  ports := [
    .input "clock" .clock,
    .input "io_lhs" (.uint 16),
    .input "io_rhs" (.uint 16),
    .output "sum" (.uint 16)]
  body := .block [.connect (.ref "sum") (.prim .add [.ref "io_lhs", .ref "io_rhs"] [])]

def inner (inst port : String) : Expr := .field (.ref inst) port

def top : Module where
  name := "Top"
  ports := stage.ports
  body := .block [
    .inst "first" "Stage",
    .inst "second" "Stage",
    .connect (inner "first" "clock") (.ref "clock"),
    .connect (inner "second" "clock") (.ref "clock"),
    .connect (inner "first" "io_lhs") (.ref "io_lhs"),
    .connect (inner "first" "io_rhs") (.ref "io_rhs"),
    .connect (inner "second" "io_lhs") (inner "first" "sum"),
    .connect (inner "second" "io_rhs") (inner "first" "sum"),
    .connect (.ref "sum") (inner "second" "sum")]

def circuit : Circuit := { main := "Top", modules := [top, stage] }

def analysis : Analysis := .ofFacts [
  .input "Stage" "io" ⟨some "clock", ["io_lhs", "io_rhs"]⟩,
  .output "Stage" "sum" ⟨some "clock", ["sum"]⟩,
  .edge "Stage" "sum" "io_lhs",
  .edge "Stage" "sum" "io_rhs",
  .target "Stage",
  .topChannel "io" .input ["io_lhs", "io_rhs"],
  .topChannel "sum" .output ["sum"]]

end TokenCircuit.Demo.Stages
