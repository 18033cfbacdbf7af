import TokenCircuit.Clock.Domain
import TokenCircuit.Model.ClockSource

/-!
The channels of a token-driven module.

A module's interface is its clock source and its data channels. Each data channel belongs to the domain of the one
target clock that its declared clock is or is influenced by. The host ports take their names as they are, so a name
that is taken already is an error; the fired registers get fresh ones.
-/

namespace TokenCircuit

structure Interface where
  clock : ClockSource
  inputs : List DataChannel
  outputs : List DataChannel
  deriving DecidableEq, Repr, Inhabited

namespace Interface

/-- The data channels, inputs first. -/
def data (i : Interface) : List DataChannel := i.inputs ++ i.outputs

/-- All channels; the clock source comes first. -/
def channels (i : Interface) : Channels := .clock i.clock :: (i.inputs.map .input ++ i.outputs.map .output)

/-- All channels in the order of their host ports; the clock source comes last. -/
def hostOrder (i : Interface) : Channels := i.inputs.map .input ++ i.outputs.map .output ++ [.clock i.clock]

end Interface

namespace ClockDomains

/-- The target clocks among a signal and all that influences it, each once. -/
def driversOf (ds : ClockDomains) (g : Connectivity) (signal : String) : List String :=
  ((signal :: g.reachable signal).filter (· ∈ ds.domains)).eraseDups

/-- The domain of a channel with the given clock. Only a virtual clock serves channels that declare none. -/
def resolve (ds : ClockDomains) (g : Connectivity) (isVirtual : Bool) (module channel : String) :
    Option String → Except ChannelizeError ClockDomain
  | none =>
    match isVirtual, ds.all with
    | true, domain :: _ => .ok domain
    | _, _ => .error (.unresolvableDomain module channel)
  | some clock =>
    let drivers := ds.driversOf g clock
    match drivers, drivers.filterMap ds.domain? with
    | [_], [domain] => .ok domain
    | _, _ => .error (.ambiguousClockDriver module channel clock drivers)

end ClockDomains

/-- Marks the host ports of channels as used; none may be in use already. -/
def NameSupply.reserveHostPorts (module : String) :
    List (String × String) → NameSupply → Except ChannelizeError NameSupply
  | [], names => .ok names
  | (channel, port) :: rest, names =>
    if port ∈ names then
      .error (.hostPortCollision module channel port)
    else
      reserveHostPorts module rest (names.add port)

/-- What the data channels of a module are made from. -/
structure ChannelContext where
  module : Module
  analysis : Analysis
  clock : ClockSource
  domains : ClockDomains

namespace ChannelContext

/-- The domain of a channel, once its ports and its time base are known to exist. -/
def checked (ctx : ChannelContext) (channel : String) (spec : ChannelSpec) :
    Except ChannelizeError (List Port × ClockDomain) := do
  let ports ← ctx.module.resolvePorts channel spec.ports
  if ctx.analysis.isTimestamped channel && ctx.domains.simTime.isNone then
    .error (.timestampWithoutTimeBase ctx.module.name channel)
  else
    let connectivity := ctx.analysis.connectivity ctx.module.name
    let domain ← ctx.domains.resolve connectivity ctx.clock.isVirtual ctx.module.name channel spec.clock
    return (ports, domain)

/-- The data channels of a direction, each with a fired register of its own. -/
def dataChannels (ctx : ChannelContext) (direction : Direction) :
    List (String × ChannelSpec) → NameSupply → Logged ChannelizeError (List DataChannel × NameSupply)
  | [], names => return ([], names)
  | (channel, spec) :: rest, names => do
    let (ports, domain) ← ctx.checked channel spec
    let (fired, names) := names.fresh (channel ++ "_fired")
    Logged.emit (.channelInDomain direction channel domain.clock)
    let (channels, names) ← ctx.dataChannels direction rest names
    return (
      { name := channel
        ports := ports
        timestamped := ctx.analysis.isTimestamped channel
        hostPort := hostPortName channel direction
        enable := domain.channelEnable direction
        fired := fired } :: channels, names)

end ChannelContext

end TokenCircuit
