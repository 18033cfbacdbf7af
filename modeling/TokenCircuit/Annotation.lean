import TokenCircuit.Renaming.Target

/-!
Annotations of a circuit.

An annotation that protects a signal is pruned with the module that it refers to: the signals of a token-driven
module are not those of the module it was made from. One that speaks of a whole module stays.
-/

namespace TokenCircuit

inductive Annotation where
  /-- The signal must survive optimisation. -/
  | dontTouch (target : Target)
  /-- The module must not be merged with its like. -/
  | noDedup (module : String)
  deriving DecidableEq, Repr, Inhabited

namespace Annotation

def text : Annotation → String
  | .dontTouch target => "DontTouch(" ++ target.text ++ ")"
  | .noDedup module => "NoDedup(" ++ module ++ ")"

def module : Annotation → String
  | .dontTouch target => target.module
  | .noDedup module => module

/-- Whether the annotation protects a signal of one of these modules. -/
def protectsIn (modules : List String) : Annotation → Bool
  | .dontTouch target => target.module ∈ modules
  | .noDedup _ => false

/-- The annotations that still apply once `modules` are token-driven, and those that are pruned. -/
def prune (modules : List String) (annotations : List Annotation) : List Annotation × List Annotation :=
  (annotations.filter (!·.protectsIn modules), annotations.filter (·.protectsIn modules))

end Annotation

end TokenCircuit
