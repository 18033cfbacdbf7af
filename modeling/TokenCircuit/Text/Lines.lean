/-!
Lines of a text and their indentation.

A line feed ends a line, together with one carriage return right before it. Text after the last line feed is one
more line, unless it is empty. Every other control character is an ordinary part of its line.
-/

namespace TokenCircuit.Text

/-- The lines of a character sequence, without their ends. -/
def splitLines : List Char → List (List Char)
  | [] => []
  | '\n' :: cs => [] :: splitLines cs
  | '\r' :: '\n' :: cs => [] :: splitLines cs
  | c :: cs =>
    match splitLines cs with
    | [] => [[c]]
    | l :: ls => (c :: l) :: ls

def lines (s : String) : List String := (splitLines s.toList).map String.ofList

def unlines (ls : List String) : String := "\n".intercalate ls

def blanks (n : Nat) : String := String.ofList (List.replicate n ' ')

/-- Puts `n` blanks before every line. A final line feed is not kept. -/
def indent (n : Nat) (s : String) : String := unlines ((lines s).map (blanks n ++ ·))

end TokenCircuit.Text
