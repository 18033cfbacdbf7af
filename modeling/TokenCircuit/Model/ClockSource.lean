import TokenCircuit.Analysis.Facts
import TokenCircuit.Channel.Basic

/-!
The clock source of a module.

The clock channel is the first input channel that carries nothing but clocks. It must not have a clock of its own.
A module without one has to have a single clock input, which then ticks in every target cycle.
-/

namespace TokenCircuit

namespace Module

variable (m : Module)

/-- The ports that a channel names. -/
def resolvePorts (channel : String) (names : List String) : Except ChannelizeError (List Port) :=
  names.mapM fun name =>
    match m.port? name with
    | some port => .ok port
    | none => .error (.unknownPort m.name channel name)

/-- Whether a channel carries at least one port and only clocks. -/
def carriesClocks (spec : ChannelSpec) : Bool :=
  !spec.ports.isEmpty && spec.ports.all fun name => (m.port? name).any (·.isClock)

def clockInputs : List Port := m.ports.filter fun p => p.direction = .input && p.isClock

def clockSource (inputs : OrderedMap String ChannelSpec) (timestamped : String → Bool) :
    Except ChannelizeError ClockSource :=
  match inputs.entries.find? fun (_, spec) => m.carriesClocks spec with
  | some (channel, spec) =>
    if spec.clock.isSome then
      .error (.clockChannelWithDomain m.name channel)
    else
      (m.resolvePorts channel spec.ports).map fun ports => .channel ⟨channel, ports, timestamped channel⟩
  | none =>
    match m.clockInputs with
    | [clock] => .ok (.virtual clock)
    | clocks => .error (.missingClockChannel m.name clocks.length)

end Module

end TokenCircuit
