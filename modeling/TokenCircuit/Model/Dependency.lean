import TokenCircuit.Analysis.Connectivity
import TokenCircuit.Channel.Basic

/-!
Dependencies between channels.

An output channel depends on the input channels that own a signal which influences one of its ports. Its token can
only be offered once theirs are there.
-/

namespace TokenCircuit

/-- An output channel and the input channels that it depends on, with their positions. -/
structure Dependency where
  output : DataChannel × Nat
  inputs : List (DataChannel × Nat)
  deriving DecidableEq, Repr, Inhabited

namespace DataChannel

/-- The signals that influence the ports of a channel. -/
def influences (d : DataChannel) (g : Connectivity) : List String := d.ports.flatMap fun p => g.reachable p.name

end DataChannel

namespace Channels

/-- The positions of the channels that own one of the signals. -/
def owners (cs : Channels) (signals : List String) : List Nat := signals.filterMap cs.owner?

/-- The dependencies of every output channel, in order. -/
def dependencies (cs : Channels) (g : Connectivity) : List Dependency :=
  cs.outputs.map fun o =>
    let owners := cs.owners (o.1.influences g)
    ⟨o, cs.inputs.filter (·.2 ∈ owners)⟩

end Channels

end TokenCircuit
