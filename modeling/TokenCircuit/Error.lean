/-!
Why a circuit cannot be made token-driven.
-/

namespace TokenCircuit

/-- Why a port has no place in the payload of a channel. -/
inductive PayloadError where
  /-- The port's name does not yield a field name of its own. -/
  | ambiguousField (channel port : String)
  | noPayload (channel : String)
  deriving DecidableEq, Repr, Inhabited

def PayloadError.message : PayloadError → String
  | .ambiguousField channel port =>
    s!"cannot derive an unambiguous field name for port `{port}` of channel `{channel}`"
  | .noPayload channel => s!"channel `{channel}` carries no payload"

inductive ChannelizeError where
  | ambiguousClockDriver (module channel clock : String) (drivers : List String)
  | clockChannelWithDomain (module channel : String)
  | unresolvableDomain (module channel : String)
  | timestampWithoutTimeBase (module channel : String)
  | missingClockChannel (module : String) (clocks : Nat)
  | unknownPort (module channel port : String)
  | unknownModule (module : String)
  | hostPortCollision (module channel port : String)
  | payload (error : PayloadError)
  deriving DecidableEq, Repr, Inhabited

def ChannelizeError.message : ChannelizeError → String
  | .ambiguousClockDriver module channel clock drivers =>
    s!"clock `{clock}` of channel `{channel}` in module `{module}` must be driven by exactly one clock channel port, "
      ++ "found [" ++ ", ".intercalate drivers ++ "]"
  | .clockChannelWithDomain module channel =>
    s!"clock channel `{channel}` of module `{module}` must not belong to a clock domain"
  | .unresolvableDomain module channel =>
    s!"channel `{channel}` of module `{module}` declares no clock, but the module has a clock channel"
  | .timestampWithoutTimeBase module channel =>
    s!"channel `{channel}` of module `{module}` is timestamped, but the module has no timestamped clock channel"
  | .missingClockChannel module clocks => s!"module `{module}` has no clock channel and {clocks} clock inputs"
  | .unknownPort module channel port =>
    s!"channel `{channel}` names port `{port}` that module `{module}` does not have"
  | .unknownModule module => s!"module `{module}` is not part of the circuit"
  | .hostPortCollision module channel port =>
    s!"host port `{port}` of channel `{channel}` collides with a signal of module `{module}`"
  | .payload error => error.message

/-- A payload that cannot be formed stops the whole change. -/
def ChannelizeError.ofPayload {α : Type} (x : Except PayloadError α) : Except ChannelizeError α := x.mapError .payload

end TokenCircuit
