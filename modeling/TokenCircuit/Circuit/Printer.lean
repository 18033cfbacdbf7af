import TokenCircuit.Circuit.Module
import TokenCircuit.Text.Lines

/-!
Circuits as FIRRTL text.

Nesting is shown by indentation: what stands inside a `when` branch, a register's reset clause, a module or a circuit
is printed on its own and then moved right as a whole, two blanks for each level.
-/

namespace TokenCircuit

open Text

/-- Blanks for each level of nesting. -/
def indentWidth : Nat := 2

/-- Moves a text one level to the right. -/
def nest (s : String) : String := indent indentWidth s

def commaList (items : List String) : String := ", ".intercalate items

namespace Expr

mutual

def text : Expr → String
  | .ref name => name
  | .field base name => base.text ++ "." ++ name
  | .index base position => base.text ++ "[" ++ position.repr ++ "]"
  | .access base position => base.text ++ "[" ++ position.text ++ "]"
  | .mux cond high low => "mux(" ++ cond.text ++ ", " ++ high.text ++ ", " ++ low.text ++ ")"
  | .validIf cond value => "validif(" ++ cond.text ++ ", " ++ value.text ++ ")"
  | .literal value width => "UInt<" ++ width.repr ++ ">(" ++ value.repr ++ ")"
  | .prim op args consts => op.text ++ "(" ++ commaList (texts args ++ consts.map Nat.repr) ++ ")"

def texts : List Expr → List String
  | [] => []
  | e :: es => e.text :: texts es

end

@[simp] theorem texts_eq_map (es : List Expr) : texts es = es.map text := by
  induction es with
  | nil => rfl
  | cons e es ih => simp [texts, ih]

end Expr

namespace SignalType

mutual

def text : SignalType → String
  | .clock => "Clock"
  | .uint width => "UInt<" ++ width.repr ++ ">"
  | .sint width => "SInt<" ++ width.repr ++ ">"
  | .vector element size => element.text ++ "[" ++ size.repr ++ "]"
  | .bundle fields => "\x7b" ++ commaList (fieldTexts fields) ++ "\x7d"

def fieldTexts : List (Field SignalType) → List String
  | [] => []
  | ⟨name, flipped, type⟩ :: fields =>
    ((if flipped then "flip " else "") ++ name ++ " : " ++ type.text) :: fieldTexts fields

end

/-- The text of one field of a bundle. -/
def fieldText (f : Field SignalType) : String :=
  (if f.flipped then "flip " else "") ++ f.name ++ " : " ++ f.type.text

@[simp] theorem fieldTexts_eq_map (fields : List (Field SignalType)) : fieldTexts fields = fields.map fieldText := by
  induction fields with
  | nil => rfl
  | cons f fields ih => simp [fieldTexts, fieldText, ih]

end SignalType

namespace Stmt

def isSkip : Stmt → Bool
  | .skip => true
  | _ => false

mutual

def text : Stmt → String
  | .wire name type => "wire " ++ name ++ " : " ++ type.text
  | .reg name type clock reset init =>
    "reg " ++ name ++ " : " ++ type.text ++ ", " ++ clock.text ++ " with :\n" ++
      nest ("reset => (" ++ reset.text ++ ", " ++ init.text ++ ")")
  | .inst name module => "inst " ++ name ++ " of " ++ module
  | .node name value => "node " ++ name ++ " = " ++ value.text
  | .when pred conseq alt =>
    "when " ++ pred.text ++ " :\n" ++ nest conseq.text ++
      (if alt.isSkip then "" else "\nelse :\n" ++ nest alt.text)
  | .block body =>
    let lines := unlines ((texts body).filter (· ≠ ""))
    if lines = "" then "skip" else lines
  | .partialConnect loc value => loc.text ++ " <- " ++ value.text
  | .connect loc value => loc.text ++ " <= " ++ value.text
  | .invalid target => target.text ++ " is invalid"
  | .skip => "skip"

def texts : List Stmt → List String
  | [] => []
  | s :: ss => s.text :: texts ss

end

@[simp] theorem texts_eq_map (ss : List Stmt) : texts ss = ss.map text := by
  induction ss with
  | nil => rfl
  | cons s ss ih => simp [texts, ih]

end Stmt

def Direction.text : Direction → String
  | .input => "input"
  | .output => "output"

def Port.text (p : Port) : String := p.direction.text ++ " " ++ p.name ++ " : " ++ p.type.text

/-- The ports of a module, one on each line. -/
def portLines (ports : List Port) : String := unlines (ports.map Port.text)

def Module.text (m : Module) : String :=
  "module " ++ m.name ++ " :\n" ++ nest (portLines m.ports) ++ "\n\n" ++ nest m.body.text

def ExtModule.text (m : ExtModule) : String :=
  "extmodule " ++ m.name ++ " :\n" ++ nest (portLines m.ports) ++ "\n" ++ nest ("defname = " ++ m.defname)

def Circuit.text (c : Circuit) : String :=
  "circuit " ++ c.main ++ " :\n" ++
    "\n\n".intercalate ((c.extModules.map ExtModule.text ++ c.modules.map Module.text).map nest) ++ "\n"

end TokenCircuit
