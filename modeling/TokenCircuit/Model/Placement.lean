import TokenCircuit.Model.Interface

/-!
Where the ports of a module go.

A data port becomes a field below its channel's host port, and that field stands for it in the logic of the module.
A clock port becomes a flag of the clock channel, but in the logic its gated clock stands for it; under a virtual
clock the gated clock is all that is left of it. A port in several channels goes with the last of them.
-/

namespace TokenCircuit

inductive PortLocation where
  /-- Below a host port. -/
  | channel (hostPort : String) (path : List String)
  | gatedClock (clock : Expr)
  deriving DecidableEq, Repr, Inhabited

/-- The dotted name of a location. -/
def PortLocation.reference : PortLocation → String
  | .channel hostPort path => ".".intercalate (hostPort :: path)
  | .gatedClock clock => clock.text

/-- Where the ports of a module went, in channel order. -/
abbrev Layout := OrderedMap String PortLocation

/-- Where a port went and what stands for it in the logic. -/
structure Placement where
  location : PortLocation
  value : Expr
  deriving DecidableEq, Repr, Inhabited

namespace Channel

/-- Where one port of the channel goes. -/
def placement (domains : ClockDomains) (port : String) : Channel → Except PayloadError (Option Placement)
  | .clock (.virtual _) =>
    .ok ((domains.domain? port).map fun d => ⟨.gatedClock d.gatedClock, d.gatedClock⟩)
  | .clock (.channel g) =>
    (g.payloadPath port).map fun path =>
      (domains.domain? port).map fun d => ⟨.channel (sinkName g.name) path, d.gatedClock⟩
  | .input d | .output d =>
    (d.payloadPath port).map fun path => some ⟨.channel d.hostPort path, (Expr.ref d.hostPort).follow path⟩

/-- The ports of the channel with where they go. -/
def placements (c : Channel) (domains : ClockDomains) : Except PayloadError (List (String × Placement)) := do
  let found ← c.ports.mapM fun port => c.placement domains port.name
  return (c.ports.zip found).filterMap fun (port, placement) => placement.map (port.name, ·)

end Channel

/-- Where the ports of all channels go. -/
def Interface.placements (i : Interface) (domains : ClockDomains) :
    Except PayloadError (OrderedMap String Placement) := do
  let placed ← i.channels.mapM (·.placements domains)
  return OrderedMap.ofList placed.flatten

end TokenCircuit
