import TokenCircuit.Annotation
import TokenCircuit.Circuit.Printer

/-!
What happened on the way.

A `Logged` computation notes events as it goes and ends in a value or an error; the events up to an error are kept.
Events do not influence outcomes: `outcome_bind` and its companions let a proof about outcomes forget them.
-/

namespace TokenCircuit

inductive Event where
  /-- So many modules of a circuit are about to be made token-driven. -/
  | channelizing (count : Nat) (main : String)
  | transforming (module : String)
  /-- The domain of a clock has got its gate. -/
  | domainGated (clock buffer : String)
  /-- A data channel has been assigned to the domain of a clock. -/
  | channelInDomain (direction : Direction) (channel clock : String)
  | dependsOn (output : String) (inputs : List String)
  /-- A port that no channel claims becomes a wire. -/
  | portKept (port module : String)
  | transformed (module : String) (channels domains : Nat)
  | rewiring (module : String)
  /-- Two host ports are connected as a whole. -/
  | joined (connection : Stmt)
  /-- A connection of something that no longer exists is left out. -/
  | dropped (connection : Stmt)
  /-- A connection of a channel port with something that is none is left out. -/
  | rejected (connection : Stmt)
  | mainIsTarget (main : String)
  | topPortDropped (port top : String)
  | pruned (note : Annotation)
  | finished (renames annotations : Nat)
  deriving DecidableEq, Repr, Inhabited

inductive Level where
  | trace
  | debug
  | info
  | warn
  deriving DecidableEq, Repr, Inhabited

namespace Event

def level : Event → Level
  | .channelizing .. | .finished .. => .info
  | .transforming _ | .transformed .. | .rewiring _ | .mainIsTarget _ | .topPortDropped .. | .pruned _ => .debug
  | .domainGated .. | .channelInDomain .. | .dependsOn .. | .joined _ | .dropped _ => .trace
  | .portKept .. | .rejected _ => .warn

def message : Event → String
  | .channelizing count main => s!"channelizing {count} module(s) of circuit `{main}`"
  | .transforming module => s!"transforming module `{module}`"
  | .domainGated clock buffer => s!"clock domain `{clock}` gated by `{buffer}`"
  | .channelInDomain direction channel clock =>
    direction.text ++ s!" channel `{channel}` in clock domain `{clock}`"
  | .dependsOn output inputs => s!"`{output}` depends on [" ++ commaList inputs ++ "]"
  | .portKept port module => s!"port `{port}` of module `{module}` belongs to no channel, keeping it as a wire"
  | .transformed module channels domains => s!"module `{module}`: {channels} channels, {domains} clock domains"
  | .rewiring module => s!"rewiring top module `{module}`"
  | .joined connection => connection.text
  | .dropped connection => "dropping `" ++ connection.text ++ "`"
  | .rejected connection =>
    "dropping `" ++ connection.text ++ "`: a channel port can only be connected to another channel port"
  | .mainIsTarget main => s!"main module `{main}` is itself transformed, skipping top-level rewiring"
  | .topPortDropped port top => s!"top port `{port}` of `{top}` was dropped"
  | .pruned note => "pruning annotation " ++ note.text
  | .finished renames annotations => s!"recorded {renames} rename(s), kept {annotations} annotation(s)"

end Event

/-- A computation with its events, in order, and its end. -/
structure Logged (ε α : Type) where
  events : List Event
  outcome : Except ε α

namespace Logged

variable {ε ε' α β : Type}

instance : Monad (Logged ε) where
  pure a := ⟨[], .ok a⟩
  bind x f :=
    match x.outcome with
    | .ok a => ⟨x.events ++ (f a).events, (f a).outcome⟩
    | .error e => ⟨x.events, .error e⟩

def emit (event : Event) : Logged ε Unit := ⟨[event], .ok ()⟩

def emitAll (events : List Event) : Logged ε Unit := ⟨events, .ok ()⟩

def ofExcept (x : Except ε α) : Logged ε α := ⟨[], x⟩

instance : MonadLift (Except ε) (Logged ε) := ⟨ofExcept⟩

def mapError (f : ε → ε') (x : Logged ε α) : Logged ε' α := ⟨x.events, x.outcome.mapError f⟩

@[simp] theorem outcome_pure (a : α) : (pure a : Logged ε α).outcome = .ok a := rfl

@[simp] theorem outcome_bind (x : Logged ε α) (f : α → Logged ε β) :
    (x >>= f).outcome = x.outcome >>= fun a => (f a).outcome := by
  obtain ⟨events, outcome⟩ := x
  cases outcome <;> rfl

@[simp] theorem outcome_emit (event : Event) : (emit event : Logged ε Unit).outcome = .ok () := rfl

@[simp] theorem outcome_emitAll (events : List Event) : (emitAll events : Logged ε Unit).outcome = .ok () := rfl

@[simp] theorem outcome_ofExcept (x : Except ε α) : (ofExcept x).outcome = x := rfl

@[simp] theorem outcome_liftM (x : Except ε α) : (liftM x : Logged ε α).outcome = x := rfl

@[simp] theorem outcome_mapError (f : ε → ε') (x : Logged ε α) :
    (x.mapError f).outcome = x.outcome.mapError f := rfl

end Logged

end TokenCircuit
