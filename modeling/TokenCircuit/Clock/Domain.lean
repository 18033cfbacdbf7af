import TokenCircuit.Channel.Basic
import TokenCircuit.Collection.OrderedMap
import TokenCircuit.Journal
import TokenCircuit.NameSupply

/-!
Clock domains.

Every target clock gets a domain: an enable register, a gate that passes the host clock while the domain is enabled,
and a flag that says whether the clock ticks in the next target cycle. The gates stay shut until the first target
cycle is over, so that no domain sees an edge while the model is being reset. With a timestamped clock channel the
domains share a register that holds the time of the last clock token.
-/

namespace TokenCircuit

structure ClockDomain where
  /-- The target clock. -/
  clock : String
  enableReg : String
  /-- The gate. -/
  buffer : String
  flag : String
  flagValue : Expr
  /-- The clock ticks in every target cycle. -/
  isVirtual : Bool
  deriving DecidableEq, Repr, Inhabited

namespace ClockDomain

variable (d : ClockDomain)

def enable : Expr := .ref d.enableReg

def clockFlag : Expr := .ref d.flag

/-- What the logic of the module uses in place of the target clock. -/
def gatedClock : Expr := .field (.ref d.buffer) ClockGate.gated

/-- The enable of input channels: they bring a token for each tick. -/
def highPhase : Expr := if d.isVirtual then .bit true else d.clockFlag

/-- The enable of output channels: they produce a token between ticks. -/
def lowPhase : Expr := if d.isVirtual then .bit true else d.clockFlag.not

/-- The enable of the channels of a direction. -/
def channelEnable : Direction → Expr
  | .input => d.highPhase
  | .output => d.lowPhase

def declarations (host : HostSignals) (config : Config) : List Stmt :=
  [.reg d.enableReg .bool host.clock host.reset (.bit true),
    .inst d.buffer config.clockGate,
    .node d.flag d.flagValue]

/-- The gate passes the last host cycle of a target cycle in which the domain is enabled; that cycle also takes over
the flag. -/
def connections (host : HostSignals) (finishing doneInit : Expr) : List Stmt :=
  [.connect (.field (.ref d.buffer) ClockGate.source) host.clock,
    .connect (.field (.ref d.buffer) ClockGate.enable)
      (Expr.conj [d.enable, finishing, host.reset.not, doneInit]),
    .connect d.enable (.mux finishing d.clockFlag d.enable)]

end ClockDomain

/-- The register that holds the simulation time, and where it takes it from. -/
structure SimTime where
  reg : String
  source : Expr
  deriving DecidableEq, Repr, Inhabited

/-- The domains of a module, by target clock, and the state that they share. -/
structure ClockDomains where
  domains : OrderedMap String ClockDomain
  /-- The register that is set once the first target cycle is over. -/
  doneInitReg : String
  simTime : Option SimTime

namespace ClockDomains

/-- The flag of a clock in the current token; a virtual clock always ticks. -/
def flagValue (c : Channel) (port : String) : Except PayloadError Expr :=
  match c with
  | .clock (.virtual _) => .ok (.bit true)
  | c => c.payload port

/-- Adds a domain for each port of a clock channel. -/
def addDomains (c : Channel) (isVirtual : Bool) :
    List Port → OrderedMap String ClockDomain → NameSupply →
      Logged PayloadError (OrderedMap String ClockDomain × NameSupply)
  | [], domains, names => return (domains, names)
  | port :: ports, domains, names => do
    let flagValue ← flagValue c port.name
    let (enableReg, names) := names.fresh (port.name ++ "_enabled")
    let (buffer, names) := names.fresh (port.name ++ "_buffer")
    let (flag, names) := names.fresh (port.name ++ "_flag")
    Logged.emit (.domainGated port.name buffer)
    addDomains c isVirtual ports
      (domains.insert port.name ⟨port.name, enableReg, buffer, flag, flagValue, isVirtual⟩) names

def isVirtualClock : Channel → Bool
  | .clock source => source.isVirtual
  | _ => false

/-- The time that a clock channel brings. -/
def clockTime? : Channel → Option Expr
  | .clock source => source.time?
  | _ => none

/-- The domains of a clock channel's ports, with fresh names for all that they declare. -/
def synthesize (c : Channel) (config : Config) (names : NameSupply) :
    Logged PayloadError (ClockDomains × NameSupply) := do
  let (domains, names) ← addDomains c (isVirtualClock c) c.ports ∅ names
  let (doneInitReg, names) := names.fresh config.doneInit
  match clockTime? c with
  | some source =>
    let (reg, names) := names.fresh config.simTime
    return (⟨domains, doneInitReg, some ⟨reg, source⟩⟩, names)
  | none => return (⟨domains, doneInitReg, none⟩, names)

variable (ds : ClockDomains)

def domain? (clock : String) : Option ClockDomain := ds.domains.get? clock

def all : List ClockDomain := ds.domains.values

def doneInit : Expr := .ref ds.doneInitReg

def time? : Option Expr := ds.simTime.map fun t => .ref t.reg

def doneInitDeclaration (host : HostSignals) : Stmt :=
  .reg ds.doneInitReg .bool host.clock host.reset (.bit false)

def declarations (host : HostSignals) (config : Config) : List Stmt :=
  ds.all.flatMap (·.declarations host config)

def simTimeDeclaration? (host : HostSignals) : Option Stmt :=
  ds.simTime.map fun t =>
    .reg t.reg (.uint SignalType.timeWidth) host.clock host.reset (.literal 0 SignalType.timeWidth)

/-- Set for good when the first target cycle ends. -/
def doneInitUpdate (finishing : Expr) : Stmt := .when finishing (.connect ds.doneInit (.bit true)) .skip

/-- Drives every gate and enable register. -/
def gating (host : HostSignals) (finishing : Expr) : List Stmt :=
  ds.all.flatMap (·.connections host finishing ds.doneInit)

/-- Takes over the time of the clock token when the target cycle ends. -/
def simTimeUpdate? (finishing : Expr) : Option Stmt :=
  ds.simTime.map fun t => .when finishing (.connect (.ref t.reg) t.source) .skip

end ClockDomains

end TokenCircuit
