import TokenCircuit.Circuit.Module

/-!
Names that a token-driven circuit is built with, and the host's signals.

The names of the host ports and of the clock gate are used as they are, since other parts of a design refer to them.
The rest are wishes: a module in which such a name is taken gets a fresh variant of it.
-/

namespace TokenCircuit

structure Config where
  /-- The host clock port. -/
  hostClock : String := "hostClock"
  /-- The host reset port. -/
  hostReset : String := "hostReset"
  /-- The wire that is high in the last host cycle of a target cycle. -/
  finishing : String := "targetCycleFinishing"
  /-- The register that is set once the first target cycle is over. -/
  doneInit : String := "doneInit"
  /-- The register that holds the simulation time. -/
  simTime : String := "sim_time"
  /-- The module that gates a target clock. -/
  clockGate : String := "ClockGateBuffer"
  deriving DecidableEq, Repr, Inhabited

/-- The signals that clock and reset the state of the protocol. -/
structure HostSignals where
  clock : Expr
  reset : Expr
  deriving DecidableEq, Repr, Inhabited

/-- The host ports themselves. -/
def HostSignals.ofConfig (config : Config) : HostSignals := ⟨.ref config.hostClock, .ref config.hostReset⟩

/-- The two host ports of a module. -/
def Config.hostPorts (config : Config) : List Port :=
  [.input config.hostClock .clock, .input config.hostReset .bool]

namespace ClockGate

/-- The gate's clock input. -/
def source : String := "I"

/-- The gate's enable. -/
def enable : String := "CE"

/-- The gated clock. -/
def gated : String := "O"

/-- The gate, which is defined outside the circuit. -/
def module (config : Config) : ExtModule where
  name := config.clockGate
  ports := [.input source .clock, .input enable .bool, .output gated .clock]
  defname := config.clockGate

end ClockGate

end TokenCircuit
