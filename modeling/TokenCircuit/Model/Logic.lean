import TokenCircuit.Circuit.Module

/-!
The logic of a module in its token-driven form.

The logic keeps its shape; every reference to a port that went elsewhere is redirected to what stands for it. What
stands for a port is not redirected again. A connection that drives a clock keeps its left side: an internal clock
stays the clock that it is.
-/

namespace TokenCircuit

/-- Redirects every reference that `σ` has a value for. -/
def Expr.redirect (σ : String → Option Expr) (e : Expr) : Expr := e.mapUp (replaceRef σ)

namespace Stmt

/-- Redirects what the statement itself holds. -/
def redirectOwn (σ : String → Option Expr) (clocks : List String) : Stmt → Stmt
  | .connect loc value =>
    .connect (if loc.isRootedIn clocks then loc else loc.redirect σ) (value.redirect σ)
  | .partialConnect loc value =>
    .partialConnect (if loc.isRootedIn clocks then loc else loc.redirect σ) (value.redirect σ)
  | s => s.mapExprs (Expr.redirect σ)

/-- Redirects the statement and all that is nested in it. -/
def redirect (σ : String → Option Expr) (clocks : List String) (s : Stmt) : Stmt := s.mapUp (redirectOwn σ clocks)

/-- The clock that the statement itself declares. -/
def declaredClock? : Stmt → Option String
  | .wire name type | .reg name type .. => if type.isClock then some name else none
  | _ => none

end Stmt

namespace Module

/-- The clocks of a module: ports, wires and registers. -/
def clockSignals (m : Module) : List String :=
  (m.ports.filter (·.isClock)).map (·.name) ++ m.body.preorder.filterMap Stmt.declaredClock?

/-- The redirected body, as a list of statements. -/
def redirectedBody (m : Module) (σ : String → Option Expr) : List Stmt :=
  (m.body.redirect σ m.clockSignals).members

end Module

end TokenCircuit
