import TokenCircuit.Journal
import TokenCircuit.Top.Endpoint

/-!
Rewiring of statements.

Blocks are flattened and empty statements left out. Several connections between the same two channels become one:
a connection of two host ports is made only if none with the same text has been made before.
-/

namespace TokenCircuit

/-- What has been done so far: the texts of the connections of host ports, and the events. -/
structure Wiring where
  joined : List String := []
  events : List Event := []
  deriving Inhabited

namespace Wiring

def note (w : Wiring) (event : Event) : Wiring := { w with events := w.events ++ [event] }

/-- Connects two host ports as a whole, once. -/
def join (w : Wiring) (sink source : Expr) : List Stmt × Wiring :=
  let connection := Stmt.partialConnect sink source
  if connection.text ∈ w.joined then
    ([], w)
  else
    ([connection], { w with joined := w.joined ++ [connection.text] }.note (.joined connection))

end Wiring

namespace Rewiring

variable (r : Rewiring)

/-- Rewires a connection `s` of `loc` and `value`. -/
def rewireConnection (s : Stmt) (loc value : Expr) (w : Wiring) : List Stmt × Wiring :=
  match (r.endpoint loc).verdict (r.endpoint value) with
  | .join sink source => w.join sink source
  | .drop => ([], w.note (.dropped s))
  | .reject => ([], w.note (.rejected s))
  | .keep => ([s], w)

/-- An instance of a token-driven module is connected to the host right where it is made. -/
def rewireInstance (name module : String) : List Stmt :=
  if name ∈ r.instances then
    [.inst name module,
      .connect (.field (.ref name) r.config.hostClock) r.host.clock,
      .connect (.field (.ref name) r.config.hostReset) r.host.reset]
  else
    [.inst name module]

mutual

def rewire : Stmt → Wiring → List Stmt × Wiring
  | .block body, w => rewireList body w
  | .when pred conseq alt, w =>
    let (conseq, w) := rewire conseq w
    let (alt, w) := rewire alt w
    ([.when pred (.ofMembers conseq) (.ofMembers alt)], w)
  | .inst name module, w => (r.rewireInstance name module, w)
  | .connect loc value, w => r.rewireConnection (.connect loc value) loc value w
  | .partialConnect loc value, w => r.rewireConnection (.partialConnect loc value) loc value w
  | .invalid target, w => (if r.endpoint target = .other then [.invalid target] else [], w)
  | .skip, w => ([], w)
  | .wire name type, w => ([.wire name type], w)
  | .reg name type clock reset init, w => ([.reg name type clock reset init], w)
  | .node name value, w => ([.node name value], w)

def rewireList : List Stmt → Wiring → List Stmt × Wiring
  | [], w => ([], w)
  | s :: ss, w =>
    let (first, w) := rewire s w
    let (rest, w) := rewireList ss w
    (first ++ rest, w)

end

end Rewiring

end TokenCircuit
