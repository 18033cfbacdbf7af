import TokenCircuit.Model.Firing
import TokenCircuit.Model.Logic

/-!
Token-driven modules.

The token-driven form of a module declares the state of the protocol, keeps the module's logic with its ports
redirected, and ends with the firing rules. Ports that no channel claims live on as wires.
-/

namespace TokenCircuit

structure TokenModel where
  plan : Plan
  /-- The state of the protocol and the retained ports. -/
  declarations : List Stmt
  /-- The redirected logic of the module. -/
  logic : List Stmt
  rules : List Stmt
  name : String
  ports : List Port

namespace TokenModel

def module (t : TokenModel) : Module := ⟨t.name, t.ports, .block (t.declarations ++ t.logic ++ t.rules)⟩

def layout (t : TokenModel) : Layout := t.plan.layout

def channels (t : TokenModel) : Channels := t.plan.interface.channels

def dependencies (t : TokenModel) : List Dependency := t.plan.dependencies

end TokenModel

namespace Plan

variable (p : Plan)

/-- The state of the protocol, with a wire for each retained port. -/
def declarations (retained : List Port) (host : HostSignals) (config : Config) : List Stmt :=
  .wire p.finishingWire .bool :: p.domains.doneInitDeclaration host ::
    retained.map (fun port => .wire port.name port.type) ++
    p.domains.declarations host config ++
    p.interface.data.map (·.firedReg host) ++
    (p.domains.simTimeDeclaration? host).toList

/-- The host ports of the channels. -/
def channelPorts : Except PayloadError (List Port) := do
  let ports ← p.interface.hostOrder.mapM Channel.hostPort?
  return ports.filterMap id

/-- Tells what each output waits for. -/
def dependencyEvents : List Event :=
  p.dependencies.map fun d => .dependsOn d.output.1.name (d.inputs.map (·.1.name))

/-- Warns of retained ports, except for clocks that the module puts out. -/
def retainedEvents (m : Module) : List Event :=
  ((p.retained m).filter fun port => !(port.direction = .output && port.isClock)).map fun port =>
    .portKept port.name m.name

end Plan

/-- Makes a module token-driven. -/
def Module.tokenModel (m : Module) (a : Analysis) (host : HostSignals) (config : Config) :
    Logged ChannelizeError TokenModel := do
  Logged.emit (.transforming m.name)
  let plan ← m.plan a config
  Logged.emitAll plan.dependencyEvents
  Logged.emitAll (plan.retainedEvents m)
  let channelPorts ← ChannelizeError.ofPayload plan.channelPorts
  Logged.emit (.transformed m.name plan.interface.channels.length plan.domains.domains.size)
  return {
    plan := plan
    declarations := plan.declarations (plan.retained m) host config
    logic := m.redirectedBody plan.standIn
    rules := plan.firingRules host
    name := m.name
    ports := config.hostPorts ++ channelPorts }

end TokenCircuit
