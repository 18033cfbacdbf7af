import TokenCircuit.Model.Basic
import TokenCircuit.Renaming.RenameMap
import TokenCircuit.Top.Basic

/-!
Token-driven circuits.

Every target module is replaced by its token-driven form, in place, and the main module is rewired around the
instances, unless it is a target itself. Any error stops the whole change.
-/

namespace TokenCircuit

/-- A token-driven circuit, with where its signals went and the annotations that still apply. -/
structure Channelization where
  circuit : Circuit
  renames : RenameMap
  annotations : List Annotation

namespace Circuit

/-- A circuit of which some targets are done. -/
structure Progress where
  circuit : Circuit
  renames : RenameMap := {}
  layouts : OrderedMap String Layout := ∅

/-- Replaces a target by its token-driven form. -/
def channelizeTarget (a : Analysis) (config : Config) (target : String) (p : Progress) :
    Logged ChannelizeError Progress :=
  match p.circuit.module? target with
  | none => Logged.ofExcept (.error (.unknownModule target))
  | some m => do
    let model ← m.tokenModel a (HostSignals.ofConfig config) config
    return {
      circuit := p.circuit.modifyModule target fun _ => model.module
      renames := p.renames.recordModule target model.layout
      layouts := p.layouts.insert target model.layout }

def channelizeTargets (a : Analysis) (config : Config) : List String → Progress → Logged ChannelizeError Progress
  | [], p => return p
  | target :: targets, p => do
    let p ← channelizeTarget a config target p
    channelizeTargets a config targets p

/-- Rewires the main module and records what became of its ports. -/
def rewireMain (a : Analysis) (config : Config) (p : Progress) : Logged ChannelizeError Progress :=
  let main := p.circuit.main
  match p.circuit.module? main with
  | none => Logged.ofExcept (.error (.unknownModule main))
  | some top => do
    let rewired ← top.rewired a p.layouts (HostSignals.ofConfig config) config
    let gone := (top.ports.filter fun port => (rewired.port? port.name).isNone).map (·.name)
    let (renames, placed) := p.renames.recordTop main a.topChannels
    ChannelizeError.ofPayload placed
    let (renames, dropped) := renames.recordDropped main gone
    Logged.emitAll (dropped.map (.topPortDropped · main))
    return { p with circuit := p.circuit.modifyModule main fun _ => rewired, renames := renames }

/-- Deals with the main module: a target stays as it is, another module is rewired. -/
def channelizeMain (a : Analysis) (config : Config) (p : Progress) : Logged ChannelizeError Progress :=
  if p.circuit.main ∈ a.targets then do
    Logged.emit (.mainIsTarget p.circuit.main)
    return p
  else
    rewireMain a config p

/-- Declares the clock gate, unless the circuit declares a module of that name that is defined elsewhere. -/
def declareGate (config : Config) (c : Circuit) : Circuit :=
  if c.extModules.any (·.name = config.clockGate) then c
  else { c with extModules := c.extModules ++ [ClockGate.module config] }

/-- Makes the targets of a circuit token-driven. -/
def channelize (c : Circuit) (a : Analysis) (annotations : List Annotation) (config : Config) :
    Logged ChannelizeError Channelization := do
  let targets := a.targets.toList
  Logged.emit (.channelizing targets.length c.main)
  let p ← channelizeTargets a config targets ⟨c, {}, ∅⟩
  let p ← channelizeMain a config p
  let circuit := if targets.isEmpty then p.circuit else declareGate config p.circuit
  let (kept, pruned) := Annotation.prune targets annotations
  Logged.emitAll (pruned.map .pruned)
  Logged.emit (.finished p.renames.size kept.length)
  return ⟨circuit, p.renames, kept⟩

end Circuit

end TokenCircuit
