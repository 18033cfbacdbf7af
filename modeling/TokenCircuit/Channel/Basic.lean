import TokenCircuit.Channel.Payload
import TokenCircuit.Circuit.Module
import TokenCircuit.Config

/-!
Channels.

A channel moves tokens through a host port with a valid/ready handshake. A data channel exchanges one token for each
target cycle in which its clock domain is enabled; its fired register remembers that this has happened. The clock
channel brings a flag for each target clock. A module with a single clock can do without: its virtual clock channel
is always valid and has neither host port nor payload.
-/

namespace TokenCircuit

def sinkName (channel : String) : String := channel ++ "_sink"

def sourceName (channel : String) : String := channel ++ "_source"

/-- The host port of a channel: a sink for inputs, a source for outputs. -/
def hostPortName (channel : String) : Direction → String
  | .input => sinkName channel
  | .output => sourceName channel

namespace Handshake

def valid (port : String) : Expr := .field (.ref port) "valid"

def ready (port : String) : Expr := .field (.ref port) "ready"

/-- The time field of a timestamped token. -/
def time (port : String) : Expr := (Expr.ref port).follow ["bits", "time"]

end Handshake

/-- Ports that travel together under one name. -/
structure PortGroup where
  name : String
  ports : List Port
  timestamped : Bool
  deriving DecidableEq, Repr, Inhabited

namespace PortGroup

def payloadPath (g : PortGroup) (port : String) : Except PayloadError (List String) :=
  Payload.path g.name (g.ports.map (·.name)) port g.timestamped

def payloadType (g : PortGroup) : Except PayloadError SignalType := Payload.type g.name g.ports g.timestamped

end PortGroup

/-! ### Data channels -/

structure DataChannel extends PortGroup where
  hostPort : String
  /-- True in a finishing cycle if the channel exchanges a token in the next target cycle. -/
  enable : Expr
  /-- The fired register. -/
  fired : String
  deriving DecidableEq, Repr, Inhabited

namespace DataChannel

variable (d : DataChannel)

def valid : Expr := Handshake.valid d.hostPort

def ready : Expr := Handshake.ready d.hostPort

/-- The token of this target cycle has been exchanged. -/
def isFired : Expr := .ref d.fired

/-- The token is being exchanged. -/
def isFiring : Expr := d.valid.and d.ready

def firedOrFiring : Expr := d.isFired.or d.isFiring

def firedReg (host : HostSignals) : Stmt := .reg d.fired .bool host.clock host.reset (.bit false)

/-- When the target cycle ends, an enabled channel starts anew and a disabled one counts as fired. -/
def updateFired (finishing : Expr) : Stmt :=
  .when finishing (.connect d.isFired d.enable.not) (.connect d.isFired d.firedOrFiring)

/-- An input takes its token when all others are done, once. -/
def acceptRule (advance : Expr) : Stmt := .connect d.ready (advance.and d.isFired.not)

/-- An output offers its token when the tokens that it depends on are there, once. -/
def offerRule (tokens : List Expr) : Stmt := .connect d.valid (Expr.conj (tokens ++ [d.isFired.not]))

/-- The time of a token. -/
def stampRule (time : Expr) : Stmt := .connect (Handshake.time d.hostPort) time

end DataChannel

/-! ### Clock channels -/

/-- Where the target clocks of a module come from. -/
inductive ClockSource where
  | channel (group : PortGroup)
  /-- The only clock of a module, which ticks in every target cycle. -/
  | virtual (clock : Port)
  deriving DecidableEq, Repr, Inhabited

namespace ClockSource

def name : ClockSource → String
  | .channel g => g.name
  | .virtual clock => clock.name

def ports : ClockSource → List Port
  | .channel g => g.ports
  | .virtual clock => [clock]

def isVirtual : ClockSource → Bool
  | .channel _ => false
  | .virtual _ => true

/-- Whether an input channel of that name is the clock channel. -/
def claims (channel : String) : ClockSource → Bool
  | .channel g => g.name = channel
  | .virtual _ => false

def validity : ClockSource → Expr
  | .channel g => Handshake.valid (sinkName g.name)
  | .virtual _ => .bit true

/-- The time field of the current clock token. -/
def time? : ClockSource → Option Expr
  | .channel g => if g.timestamped then some (Handshake.time (sinkName g.name)) else none
  | .virtual _ => none

/-- A clock token is taken as soon as all data channels are done. -/
def acceptRule? (advance : Expr) : ClockSource → Option Stmt
  | .channel g => some (.connect (Handshake.ready (sinkName g.name)) advance)
  | .virtual _ => none

end ClockSource

/-! ### All channels -/

inductive Channel where
  | clock (source : ClockSource)
  | input (data : DataChannel)
  | output (data : DataChannel)
  deriving DecidableEq, Repr, Inhabited

namespace Channel

def name : Channel → String
  | .clock source => source.name
  | .input d | .output d => d.name

def direction : Channel → Direction
  | .clock _ | .input _ => .input
  | .output _ => .output

def ports : Channel → List Port
  | .clock source => source.ports
  | .input d | .output d => d.ports

def data? : Channel → Option DataChannel
  | .clock _ => none
  | .input d | .output d => some d

/-- The host port and what it carries; a virtual clock channel has none. -/
def carried? : Channel → Option (String × PortGroup)
  | .clock (.channel g) => some (sinkName g.name, g)
  | .clock (.virtual _) => none
  | .input d | .output d => some (d.hostPort, d.toPortGroup)

def timestamped (c : Channel) : Bool := c.carried?.any (·.2.timestamped)

def hostPortName? (c : Channel) : Option String := c.carried?.map Prod.fst

/-- A token is there. -/
def validity : Channel → Expr
  | .clock source => source.validity
  | .input d | .output d => d.valid

/-- Where a port is found below the host port. -/
def payloadPath (c : Channel) (port : String) : Except PayloadError (List String) :=
  match c.carried? with
  | some (_, g) => g.payloadPath port
  | none => .error (.noPayload c.name)

/-- The expression for a port in terms of the host port. -/
def payload (c : Channel) (port : String) : Except PayloadError Expr :=
  match c.carried? with
  | some (hostPort, g) => (g.payloadPath port).map (Expr.ref hostPort).follow
  | none => .error (.noPayload c.name)

def hostPort? (c : Channel) : Except PayloadError (Option Port) :=
  match c.carried? with
  | some (hostPort, g) => g.payloadType.map fun t => some ⟨c.direction, hostPort, .decoupled t⟩
  | none => .ok none

/-- Drives the readiness of an input or clock channel. -/
def acceptRule? (advance : Expr) : Channel → Option Stmt
  | .clock source => source.acceptRule? advance
  | .input d => some (d.acceptRule advance)
  | .output _ => none

/-- Drives the validity of an output channel, which waits for the tokens of other channels. -/
def offerRule? (dependencies : List Channel) : Channel → Option Stmt
  | .output d => some (d.offerRule (dependencies.map validity))
  | .clock _ | .input _ => none

/-- Drives the time field of a timestamped output channel. -/
def stampRule? (time : Expr) : Channel → Option Stmt
  | .output d => if d.timestamped then some (d.stampRule time) else none
  | .clock _ | .input _ => none

end Channel

/-! ### Lists of channels -/

/-- The channels of a module; a channel is known by its position. -/
abbrev Channels := List Channel

namespace Channels

/-- The input data channels with their positions. -/
def inputs (cs : Channels) : List (DataChannel × Nat) :=
  cs.zipIdx.filterMap fun
    | (.input d, i) => some (d, i)
    | _ => none

/-- The output data channels with their positions. -/
def outputs (cs : Channels) : List (DataChannel × Nat) :=
  cs.zipIdx.filterMap fun
    | (.output d, i) => some (d, i)
    | _ => none

/-- The first clock channel. -/
def clock? (cs : Channels) : Option ClockSource :=
  cs.findSome? fun
    | .clock source => some source
    | _ => none

/-- The position of the data channel that a port belongs to; the last one, if there are several. -/
def owner? (cs : Channels) (port : String) : Option Nat :=
  ((cs.zipIdx.filter fun (c, _) => c.data?.any fun d => d.ports.any (·.name = port)).getLast?).map Prod.snd

end Channels

end TokenCircuit
