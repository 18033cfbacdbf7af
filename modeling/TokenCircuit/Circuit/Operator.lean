/-!
Primitive operators of circuit expressions.
-/

namespace TokenCircuit

inductive PrimOp where
  | add | sub
  | lt | leq | gt | geq | eq | neq
  | pad | shl | shr
  | not | and | or | xor
  | andr | orr
  | cat | bits
  | asUInt | asClock
  deriving DecidableEq, Repr, Inhabited

namespace PrimOp

def text : PrimOp → String
  | add => "add"
  | sub => "sub"
  | lt => "lt"
  | leq => "leq"
  | gt => "gt"
  | geq => "geq"
  | eq => "eq"
  | neq => "neq"
  | pad => "pad"
  | shl => "shl"
  | shr => "shr"
  | not => "not"
  | and => "and"
  | or => "or"
  | xor => "xor"
  | andr => "andr"
  | orr => "orr"
  | cat => "cat"
  | bits => "bits"
  | asUInt => "asUInt"
  | asClock => "asClock"

/-- The operators that combine two operands bit by bit. -/
def isBitwise : PrimOp → Bool
  | and | or | xor => true
  | _ => false

theorem text_injective {a b : PrimOp} (h : a.text = b.text) : a = b := by
  cases a <;> cases b <;> first | rfl | exact absurd h (by decide)

end PrimOp

end TokenCircuit
