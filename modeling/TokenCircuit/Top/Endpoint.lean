import TokenCircuit.Config
import TokenCircuit.Model.Placement

/-!
What the two sides of a top-level connection refer to.

Around token-driven instances a connection between two channel ports stands for the connection of their host ports.
A connection that touches a clock made inside an instance, or a top-level port that is gone, has lost its meaning.
-/

namespace TokenCircuit

/-- What is needed to rewire the top module. -/
structure Rewiring where
  /-- The instances of token-driven modules, with the layouts of their modules. -/
  instances : OrderedMap String Layout
  /-- The top-level ports in channels, with the host ports of those. -/
  members : OrderedMap String String
  /-- The top-level ports that are gone. -/
  stale : List String
  host : HostSignals
  config : Config

inductive Endpoint where
  /-- A host port of an instance. -/
  | instanceChannel (port : Expr)
  /-- A clock that is made inside an instance. -/
  | instanceClock
  /-- A host port of the top module. -/
  | topChannel (port : Expr)
  /-- A top-level port that is gone. -/
  | stale
  | other
  deriving DecidableEq, Repr, Inhabited

/-- What becomes of a connection. -/
inductive Verdict where
  /-- The two host ports are connected as a whole. -/
  | join (sink source : Expr)
  | drop
  | reject
  | keep
  deriving DecidableEq, Repr, Inhabited

namespace Rewiring

variable (r : Rewiring)

/-- The instance that an expression takes a port of, and where that port went. -/
def instancePort? : Expr → Option (String × Option PortLocation)
  | .field (.ref inst) port => (r.instances.get? inst).map fun layout => (inst, layout.get? port)
  | _ => none

/-- The host port of the channel that a top-level port is in. -/
def memberPort? : Expr → Option String
  | .ref name => r.members.get? name
  | _ => none

def endpoint (e : Expr) : Endpoint :=
  match r.instancePort? e with
  | some (inst, some (.channel hostPort _)) => .instanceChannel (.field (.ref inst) hostPort)
  | some (_, some (.gatedClock _)) => .instanceClock
  | some (_, none) => .other
  | none =>
    match r.memberPort? e with
    | some hostPort => .topChannel (.ref hostPort)
    | none => if e.isRootedIn r.stale then .stale else .other

end Rewiring

/-- What becomes of a connection with these sides. Two top-level channels are not connected with each other. -/
def Endpoint.verdict : (loc value : Endpoint) → Verdict
  | .instanceChannel sink, .instanceChannel source
  | .instanceChannel sink, .topChannel source
  | .topChannel sink, .instanceChannel source => .join sink source
  | .instanceClock, _ | _, .instanceClock | .stale, _ | _, .stale => .drop
  | .other, .other => .keep
  | _, _ => .reject

end TokenCircuit
