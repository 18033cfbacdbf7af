/-!
References into modules.
-/

namespace TokenCircuit

/-- A signal inside a module, by its dotted name. -/
structure Target where
  module : String
  reference : String
  deriving DecidableEq, Repr, Inhabited

def Target.text (t : Target) : String := t.module ++ ">" ++ t.reference

end TokenCircuit
