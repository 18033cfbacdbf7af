import TokenCircuit.Model.Plan

/-!
Firing rules.

The rules drive the handshakes. A target cycle finishes in the host cycle in which the clock token and all input
tokens are there and every output token has been or is being taken. In that cycle the inputs are consumed, the gates
of the enabled domains open and the fired registers start anew.
-/

namespace TokenCircuit

namespace Plan

variable (p : Plan)

/-- All data channels are done with this target cycle: outputs have fired or are firing, inputs are there. -/
def dataDone : Expr :=
  Expr.conj (p.interface.outputs.map (·.firedOrFiring) ++ p.interface.inputs.map (·.valid))

/-- The outputs wait for the inputs that they depend on. -/
def offerRules : List Stmt := p.dependencies.map fun d => d.output.1.offerRule (d.inputs.map (·.1.valid))

/-- Timestamped outputs carry the time of the last clock token. -/
def stampRules : List Stmt :=
  match p.domains.time? with
  | some time => (p.interface.outputs.filter (·.timestamped)).map (·.stampRule time)
  | none => []

def firingRules (host : HostSignals) : List Stmt :=
  p.domains.doneInitUpdate p.finishing :: p.domains.gating host p.finishing ++
    p.interface.data.map (·.updateFired p.finishing) ++
    p.interface.inputs.map (·.acceptRule p.finishing) ++
    p.offerRules ++
    (p.interface.clock.acceptRule? p.dataDone).toList ++
    [.connect p.finishing (p.dataDone.and p.interface.clock.validity)] ++
    p.stampRules ++
    (p.domains.simTimeUpdate? p.finishing).toList

end Plan

end TokenCircuit
