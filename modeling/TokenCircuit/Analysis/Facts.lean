import TokenCircuit.Analysis.Connectivity
import TokenCircuit.Circuit.Module
import TokenCircuit.Collection.OrderedMap

/-!
What is known about a circuit before it is made token-driven.

The channels of each module, the clocks they belong to and the connectivity between ports are given, fact by fact.
A later fact about the same channel replaces an earlier one and takes the last place.
-/

namespace TokenCircuit

/-- The ports that travel together as a channel, and the signal that clocks them. -/
structure ChannelSpec where
  clock : Option String
  ports : List String
  deriving DecidableEq, Repr, Inhabited

/-- A channel of the top module. -/
structure TopChannel where
  direction : Direction
  ports : List String
  timestamped : Bool
  deriving DecidableEq, Repr, Inhabited

/-- What is known about one module; its clock channel is among the inputs. -/
structure ModuleFacts where
  inputs : OrderedMap String ChannelSpec := ∅
  outputs : OrderedMap String ChannelSpec := ∅
  connectivity : Connectivity := {}
  deriving Inhabited

structure Analysis where
  modules : OrderedMap String ModuleFacts := ∅
  /-- The channels whose tokens carry a time. -/
  timestamps : OrderedSet String := ∅
  /-- The modules to be made token-driven. One that is marked twice counts once, where it was marked first. -/
  targets : OrderedSet String := ∅
  /-- Ports of the top module that do not outlive the change. -/
  staleTopPorts : List String := []
  topChannels : OrderedMap String TopChannel := ∅
  deriving Inhabited

/-- A single finding. -/
inductive Fact where
  | input (module channel : String) (spec : ChannelSpec)
  | output (module channel : String) (spec : ChannelSpec)
  /-- In `module`, `source` influences `sink`. -/
  | edge (module sink source : String)
  | timestamp (channel : String)
  | target (module : String)
  | staleTopPort (port : String)
  | topChannel (channel : String) (direction : Direction) (ports : List String)
  deriving DecidableEq, Repr, Inhabited

namespace Analysis

def facts (a : Analysis) (module : String) : ModuleFacts := (a.modules.get? module).getD {}

def inputs (a : Analysis) (module : String) : OrderedMap String ChannelSpec := (a.facts module).inputs

def outputs (a : Analysis) (module : String) : OrderedMap String ChannelSpec := (a.facts module).outputs

def connectivity (a : Analysis) (module : String) : Connectivity := (a.facts module).connectivity

def isTimestamped (a : Analysis) (channel : String) : Bool := channel ∈ a.timestamps

def updateModule (a : Analysis) (module : String) (f : ModuleFacts → ModuleFacts) : Analysis :=
  { a with modules := a.modules.insert module (f (a.facts module)) }

/-- Takes in one more fact. A top channel carries a time if it is known to by then. -/
def add (a : Analysis) : Fact → Analysis
  | .input module channel spec => a.updateModule module fun f => { f with inputs := f.inputs.insert channel spec }
  | .output module channel spec => a.updateModule module fun f => { f with outputs := f.outputs.insert channel spec }
  | .edge module sink source =>
    a.updateModule module fun f => { f with connectivity := f.connectivity.addEdge sink source }
  | .timestamp channel => { a with timestamps := a.timestamps.insert channel }
  | .target module => { a with targets := a.targets.insert module }
  | .staleTopPort port => { a with staleTopPorts := a.staleTopPorts ++ [port] }
  | .topChannel channel direction ports =>
    { a with topChannels := a.topChannels.insert channel ⟨direction, ports, a.isTimestamped channel⟩ }

def ofFacts (facts : List Fact) : Analysis := facts.foldl add {}

end Analysis

end TokenCircuit
