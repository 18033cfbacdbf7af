import TokenCircuit.Analysis.Facts
import TokenCircuit.Model.Placement
import TokenCircuit.Renaming.Target

/-!
Where the signals of a circuit went.

Each signal is recorded once, as moved to a new place or as deleted; what is recorded later about the same signal is
ignored.
-/

namespace TokenCircuit

structure RenameMap where
  /-- Each recorded signal with its new place; a deleted one has none. -/
  entries : OrderedMap Target (Option Target) := ∅
  deriving Inhabited

namespace RenameMap

variable (m : RenameMap)

/-- Records what became of a signal and tells whether that was new. -/
def put (old : Target) (new : Option Target) : Bool × RenameMap :=
  (old ∉ m.entries, ⟨m.entries.insertIfNew old new⟩)

def record (old new : Target) : Bool × RenameMap := m.put old (some new)

def recordDeleted (old : Target) : Bool × RenameMap := m.put old none

/-- The new place of a signal. -/
def get? (old : Target) : Option Target := (m.entries.get? old).join

def isDeleted (old : Target) : Bool := m.entries.get? old = some none

def size : Nat := m.entries.size

/-- Records where the ports of a token-driven module went. -/
def recordModule (module : String) (layout : Layout) : RenameMap :=
  layout.entries.foldl (fun m (port, location) => (m.record ⟨module, port⟩ ⟨module, location.reference⟩).2) m

/-- Records where the given ports of top channels went. Stops at a port without a place; what was recorded before
stays. -/
def recordTopPorts (top : String) :
    List (String × TopChannel × String) → RenameMap → RenameMap × Except PayloadError Unit
  | [], m => (m, .ok ())
  | (channel, c, port) :: rest, m =>
    match Payload.path channel c.ports port c.timestamped with
    | .ok path =>
      let location := PortLocation.channel (hostPortName channel c.direction) path
      recordTopPorts top rest (m.record ⟨top, port⟩ ⟨top, location.reference⟩).2
    | .error e => (m, .error e)

/-- Records where the ports in top channels went. -/
def recordTop (top : String) (channels : OrderedMap String TopChannel) : RenameMap × Except PayloadError Unit :=
  recordTopPorts top (channels.entries.flatMap fun (channel, c) => c.ports.map fun port => (channel, c, port)) m

/-- Records top-level ports as deleted, and lists those of which nothing was known. -/
def recordDropped (top : String) : List String → RenameMap → RenameMap × List String
  | [], m => (m, [])
  | port :: ports, m =>
    let (isNew, m) := m.recordDeleted ⟨top, port⟩
    let (m, dropped) := recordDropped top ports m
    (m, if isNew then port :: dropped else dropped)

end RenameMap

end TokenCircuit
