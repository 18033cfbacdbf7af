import TokenCircuit.Circuit.Stmt

/-!
Modules and circuits.

A circuit is a list of modules, some of them defined elsewhere, and the name of the main one. Names are meant to be
unique but nothing here depends on it: looking up or updating a name means the first module that bears it.
-/

namespace TokenCircuit

inductive Direction where
  | input
  | output
  deriving DecidableEq, Repr, Inhabited

structure Port where
  direction : Direction
  name : String
  type : SignalType
  deriving DecidableEq, Repr, Inhabited

namespace Port

def input (name : String) (type : SignalType) : Port := ⟨.input, name, type⟩

def output (name : String) (type : SignalType) : Port := ⟨.output, name, type⟩

def ref (p : Port) : Expr := .ref p.name

def isClock (p : Port) : Bool := p.type.isClock

end Port

structure Module where
  name : String
  ports : List Port
  body : Stmt
  deriving DecidableEq, Repr, Inhabited

namespace Module

def port? (m : Module) (name : String) : Option Port := m.ports.find? (·.name == name)

/-- The names that the module itself uses up: its ports and all that its body declares. -/
def ownNames (m : Module) : List String := m.ports.map (·.name) ++ m.body.declaredNames

end Module

/-- A module that is defined outside the circuit, under the name `defname`. -/
structure ExtModule where
  name : String
  ports : List Port
  defname : String
  deriving DecidableEq, Repr, Inhabited

structure Circuit where
  main : String
  modules : List Module
  extModules : List ExtModule := []
  deriving DecidableEq, Repr, Inhabited

namespace Circuit

def module? (c : Circuit) (name : String) : Option Module := c.modules.find? (·.name == name)

/-- Applies `f` to the first module of that name. -/
def modifyFirst (f : Module → Module) (name : String) : List Module → List Module
  | [] => []
  | m :: ms => if m.name = name then f m :: ms else m :: modifyFirst f name ms

/-- Applies `f` to the module that `module?` finds. -/
def modifyModule (c : Circuit) (name : String) (f : Module → Module) : Circuit :=
  { c with modules := modifyFirst f name c.modules }

end Circuit

end TokenCircuit
