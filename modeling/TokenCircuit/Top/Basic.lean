import TokenCircuit.Model.ClockSource
import TokenCircuit.Top.Rewiring

/-!
The top module around token-driven instances.

Ports in a top channel give way to the channel's host port, and clocks other than the host's are gone. The host clock
and reset come first; they are the top module's own ports of those names, if it has them.
-/

namespace TokenCircuit

namespace Module

variable (m : Module)

/-- The host port of a top channel. -/
def topChannelPort (channel : String) (c : TopChannel) : Except ChannelizeError Port := do
  let ports ← m.resolvePorts channel c.ports
  let type ← ChannelizeError.ofPayload (Payload.type channel ports c.timestamped)
  return ⟨c.direction, hostPortName channel c.direction, .decoupled type⟩

/-- The ports in top channels, with the host ports of those; the last channel that names a port has it. -/
def topMembers (channels : OrderedMap String TopChannel) : OrderedMap String String :=
  OrderedMap.ofList (channels.entries.flatMap fun (channel, c) =>
    c.ports.map fun port => (port, hostPortName channel c.direction))

/-- The ports of the top module that are gone. -/
def staleNames (a : Analysis) (config : Config) : List String :=
  a.staleTopPorts ++
    (m.ports.filter fun p => p.isClock && p.name ≠ config.hostClock).map (·.name) ++
    (topMembers a.topChannels).keys

/-- The module's own port of that name, or a new one. -/
def portOr (fallback : Port) : Port := (m.port? fallback.name).getD fallback

/-- The ports of the top module that stay as they are. -/
def survivingPorts (a : Analysis) (config : Config) : List Port :=
  m.ports.filter fun p => p.name ∉ m.staleNames a config && p.name ≠ config.hostClock && p.name ≠ config.hostReset

/-- The instances of modules with a layout; the last one of a name counts. -/
def tokenInstances (layouts : OrderedMap String Layout) : OrderedMap String Layout :=
  OrderedMap.ofList (m.body.preorder.filterMap fun
    | .inst name module => (layouts.get? module).map (name, ·)
    | _ => none)

/-- Rewires the top module around the instances of the modules that have a layout. -/
def rewired (a : Analysis) (layouts : OrderedMap String Layout) (host : HostSignals) (config : Config) :
    Logged ChannelizeError Module := do
  Logged.emit (.rewiring m.name)
  let channelPorts ← (a.topChannels.entries.mapM fun (channel, c) => m.topChannelPort channel c :
    Except ChannelizeError (List Port))
  let rewiring : Rewiring :=
    ⟨m.tokenInstances layouts, topMembers a.topChannels, m.staleNames a config, host, config⟩
  let (body, wiring) := rewiring.rewire m.body {}
  Logged.emitAll wiring.events
  return {
    name := m.name
    ports := config.hostPorts.map m.portOr ++ m.survivingPorts a config ++ channelPorts
    body := .block body }

end Module

end TokenCircuit
