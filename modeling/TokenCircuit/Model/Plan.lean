import TokenCircuit.Model.Dependency
import TokenCircuit.Model.Placement

/-!
The plan of a token-driven module.

Everything that can go wrong is settled here, before a statement is written: the clock source, the names, the
domains, the channels and the places of the ports. Names are handed out in a fixed order, and each is taken from then
on, so that no two parts of the plan share one.
-/

namespace TokenCircuit

structure Plan where
  /-- The wire that is high in the last host cycle of a target cycle. -/
  finishingWire : String
  domains : ClockDomains
  interface : Interface
  placements : OrderedMap String Placement
  dependencies : List Dependency

namespace Plan

def finishing (p : Plan) : Expr := .ref p.finishingWire

def layout (p : Plan) : Layout := p.placements.map (·.location)

/-- What stands for a port in the logic. -/
def standIn (p : Plan) (port : String) : Option Expr := (p.placements.get? port).map (·.value)

/-- The ports of the module that no channel claims. -/
def retained (p : Plan) (m : Module) : List Port := m.ports.filter (·.name ∉ p.placements)

end Plan

namespace Module

variable (m : Module)

/-- The channels with a host port and its name: the clock channel, then the inputs, then the outputs. -/
def hostPortNames (clock : ClockSource) (inputs outputs : List (String × ChannelSpec)) : List (String × String) :=
  ((Channel.clock clock).hostPortName?.map (clock.name, ·)).toList ++
    inputs.map (fun (name, _) => (name, sinkName name)) ++ outputs.map (fun (name, _) => (name, sourceName name))

/-- The names that are taken before any is handed out. -/
def initialNames (config : Config) : NameSupply :=
  (NameSupply.ofModule m).addAll [config.hostClock, config.hostReset]

/-- Plans the token-driven form of a module. -/
def plan (a : Analysis) (config : Config) : Logged ChannelizeError Plan := do
  let clock ← m.clockSource (a.inputs m.name) a.isTimestamped
  let inputSpecs := (a.inputs m.name).entries.filter fun (name, _) => !clock.claims name
  let outputSpecs := (a.outputs m.name).entries
  let names ← NameSupply.reserveHostPorts m.name (hostPortNames clock inputSpecs outputSpecs) (m.initialNames config)
  let (finishingWire, names) := names.fresh config.finishing
  let (domains, names) ← (ClockDomains.synthesize (.clock clock) config names).mapError .payload
  let ctx : ChannelContext := ⟨m, a, clock, domains⟩
  let (inputs, names) ← ctx.dataChannels .input inputSpecs names
  let (outputs, _) ← ctx.dataChannels .output outputSpecs names
  let interface : Interface := ⟨clock, inputs, outputs⟩
  let placements ← ChannelizeError.ofPayload (interface.placements domains)
  return ⟨finishingWire, domains, interface, placements, interface.channels.dependencies (a.connectivity m.name)⟩

end Module

end TokenCircuit
