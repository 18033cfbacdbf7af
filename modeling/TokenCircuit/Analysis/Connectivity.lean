import TokenCircuit.Collection.OrderedSet

/-!
Which signals of a module influence which.

An edge from a sink to a source states that the source structurally influences the sink. `reachable` walks the edges
breadth first, a level at a time: the next level is what drives the present one and was not met before. Every level
but an empty one meets the source of an edge for the first time, so there are no more levels than edges.
-/

namespace TokenCircuit

structure Connectivity where
  /-- Pairs of a sink and a source. -/
  edges : OrderedSet (String × String) := ∅

namespace Connectivity

instance : Inhabited Connectivity := ⟨{}⟩

def addEdge (g : Connectivity) (sink source : String) : Connectivity := ⟨g.edges.insert (sink, source)⟩

/-- The signals that influence `signal` directly, in the order in which they were recorded. -/
def drivers (g : Connectivity) (signal : String) : List String :=
  (g.edges.toList.filter (·.1 = signal)).map Prod.snd

/-- The drivers of a level that are not among the signals met so far. -/
def nextLevel (g : Connectivity) (seen level : List String) : List String :=
  ((level.flatMap g.drivers).filter (· ∉ seen)).eraseDups

/-- The next `depth` levels, nearest first. -/
def levels (g : Connectivity) : (depth : Nat) → (seen level : List String) → List String
  | 0, _, _ => []
  | depth + 1, seen, level =>
    g.nextLevel seen level ++ g.levels depth (seen ++ g.nextLevel seen level) (g.nextLevel seen level)

/-- Every signal that influences `signal`, directly or not, nearest first; `signal` itself only if it is on a cycle. -/
def reachable (g : Connectivity) (signal : String) : List String := g.levels g.edges.size [] [signal]

end Connectivity

end TokenCircuit
