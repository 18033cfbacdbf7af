import TokenCircuit.Circuit.Module
import TokenCircuit.Error

/-!
Payloads of channels.

The ports of a channel travel together as one payload. A single port is the payload itself; several ports become the
fields of a bundle, each named by what is left of the port's name after the name of the channel. `path` says where
a port is found below the host port and `type` what the payload looks like.
-/

namespace TokenCircuit.Payload

/-- What is left of `name` after a given beginning. -/
def afterStart? (start name : String) : Option String :=
  (start.toList.isPrefixOf? name.toList).map String.ofList

/-- A field name is not empty and does not start with an underscore. -/
def isFieldName (name : String) : Bool :=
  match name.toList with
  | [] => false
  | c :: _ => c ≠ '_'

/-- The field name of a port: what follows the channel's name and an underscore, or else the channel's name alone. -/
def fieldName (channel port : String) : Except PayloadError String :=
  match ([channel ++ "_", channel].filterMap (afterStart? · port)).find? isFieldName with
  | some name => .ok name
  | none => .error (.ambiguousField channel port)

/-- The field names of the ports, given those already taken. -/
def fieldNamesFrom (channel : String) : (taken ports : List String) → Except PayloadError (List String)
  | _, [] => .ok []
  | taken, port :: ports => do
    let name ← fieldName channel port
    if name ∈ taken then
      .error (.ambiguousField channel port)
    else
      let names ← fieldNamesFrom channel (name :: taken) ports
      return name :: names

/-- The field names of a channel's ports, in order. They are distinct. -/
def fieldNames (channel : String) (ports : List String) : Except PayloadError (List String) :=
  fieldNamesFrom channel [] ports

/-- Where the payload starts below the host port. -/
def basePath (timestamped : Bool) : List String := if timestamped then ["bits", "data"] else ["bits"]

/-- Where a port is found below the host port. -/
def path (channel : String) (ports : List String) (port : String) (timestamped : Bool) :
    Except PayloadError (List String) :=
  if ports.length ≤ 1 then
    .ok (basePath timestamped)
  else do
    let names ← fieldNames channel ports
    match (ports.zip names).lookup port with
    | some name => .ok (basePath timestamped ++ [name])
    | none => .error (.ambiguousField channel port)

/-- The type that carries a port: a clock is carried as a flag. -/
def carrier (port : Port) : SignalType := if port.isClock then .bool else port.type

/-- The type of the payload without a time. -/
def dataType (channel : String) : List Port → Except PayloadError SignalType
  | [port] => .ok (carrier port)
  | ports =>
    (fieldNames channel (ports.map (·.name))).map fun names =>
      .bundle (List.zipWith (fun name port => ⟨name, false, carrier port⟩) names ports)

def type (channel : String) (ports : List Port) (timestamped : Bool) : Except PayloadError SignalType :=
  (dataType channel ports).map fun data => if timestamped then .timestamped data else data

end TokenCircuit.Payload
