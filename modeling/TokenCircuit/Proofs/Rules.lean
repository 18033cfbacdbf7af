import TokenCircuit.Proofs.HostCycle
import TokenCircuit.Proofs.Planning

/-!
# What the firing rules say in a cycle

The rules are a list of statements, but in a given cycle they are no more than a set of connections, one for each
`Rule` that is active (`Plan.Emits`). A rule is known by the part of the protocol that it drives and the field
of it (`Rule.at?`), so no two rules drive the same place.
-/

namespace TokenCircuit

/-- A connection that the protocol makes. -/
inductive Rule where
  | doneInit
  | gateSource (domain : ClockDomain)
  | gateEnable (domain : ClockDomain)
  | enable (domain : ClockDomain)
  | fired (channel : DataChannel)
  | accept (channel : DataChannel)
  | offer (channel : DataChannel)
  | clockReady (group : PortGroup)
  | finishing
  | stamp (channel : DataChannel)
  | simTime (time : SimTime)

namespace Rule

def part : Rule → Part
  | .doneInit => .doneInit
  | .gateSource c | .gateEnable c => .gate c
  | .enable c => .enable c
  | .fired d => .fired d
  | .accept d | .offer d | .stamp d => .hostPort d
  | .clockReady g => .clockPort g
  | .finishing => .finishing
  | .simTime t => .simTime t

def path : Rule → List String
  | .gateSource _ => [ClockGate.source]
  | .gateEnable _ => [ClockGate.enable]
  | .accept _ | .clockReady _ => ["ready"]
  | .offer _ => ["valid"]
  | .stamp _ => ["bits", "time"]
  | .doneInit | .enable _ | .fired _ | .finishing | .simTime _ => []

/-- The rule that drives the place at which a path from a part arrives or goes through. -/
def at? : Part → List String → Option Rule
  | .doneInit, _ => some .doneInit
  | .gate c, field :: _ =>
    if field = ClockGate.source then some (.gateSource c)
    else if field = ClockGate.enable then some (.gateEnable c)
    else none
  | .enable c, _ => some (.enable c)
  | .fired d, _ => some (.fired d)
  | .hostPort d, "ready" :: _ => some (.accept d)
  | .hostPort d, "valid" :: _ => some (.offer d)
  | .hostPort d, "bits" :: "time" :: _ => some (.stamp d)
  | .clockPort g, "ready" :: _ => some (.clockReady g)
  | .finishing, _ => some .finishing
  | .simTime t, _ => some (.simTime t)
  | _, _ => none

theorem at?_path (x : Rule) (rest : List String) : at? x.part (x.path ++ rest) = some x := by
  cases x <;> rfl

theorem eq_of_part_of_path {x y : Rule} (hpart : x.part = y.part) (hpath : x.path = y.path) : x = y := by
  have hx := at?_path x []
  rw [hpart, hpath, at?_path] at hx
  exact (Option.some.inj hx).symm

end Rule

/-- The inputs that an output waits for. -/
def Interface.sources (i : Interface) (g : Connectivity) (d : DataChannel) : List DataChannel :=
  (i.channels.inputs.filter (·.2 ∈ i.channels.owners (d.influences g))).map Prod.fst

namespace Plan

variable (p : Plan) (host : HostSignals) (g : Connectivity) (r : Valuation)

def place (x : Rule) : Expr := (Expr.ref (p.nameOf x.part)).follow x.path

/-- What a rule connects to its place. -/
def connected : Rule → Expr
  | .doneInit => .bit true
  | .gateSource _ => host.clock
  | .gateEnable c => .conj [c.enable, p.finishing, host.reset.not, p.domains.doneInit]
  | .enable c => .mux p.finishing c.clockFlag c.enable
  | .fired d => if p.finishing.isHigh r then d.enable.not else d.firedOrFiring
  | .accept d => p.finishing.and d.isFired.not
  | .offer d => .conj ((p.interface.sources g d).map (·.valid) ++ [d.isFired.not])
  | .clockReady _ => p.dataDone
  | .finishing => p.dataDone.and p.interface.clock.validity
  | .stamp _ => p.domains.time?.getD (.bit false)
  | .simTime t => t.source

/-- The rules that are active in a cycle. -/
def active : List Rule :=
  (if p.finishing.isHigh r then [.doneInit] else []) ++
    p.domains.all.flatMap (fun c => [.gateSource c, .gateEnable c, .enable c]) ++ p.interface.data.map .fired ++
    p.interface.inputs.map .accept ++ p.interface.outputs.map .offer ++
    p.interface.clock.group?.toList.map .clockReady ++
    [.finishing] ++
    (if p.domains.simTime.isSome then (p.interface.outputs.filter (·.timestamped)).map .stamp else []) ++
    (if p.finishing.isHigh r then p.domains.simTime.toList.map .simTime else [])

/-- All rules, in the order in which they are written. -/
def rules : List Rule :=
  .doneInit :: p.domains.all.flatMap (fun c => [.gateSource c, .gateEnable c, .enable c]) ++
    p.interface.data.map .fired ++
    p.interface.inputs.map .accept ++ p.interface.outputs.map .offer ++
    p.interface.clock.group?.toList.map .clockReady ++
    [.finishing] ++
    (if p.domains.simTime.isSome then (p.interface.outputs.filter (·.timestamped)).map .stamp else []) ++
    p.domains.simTime.toList.map .simTime

/-- How a rule is written. The registers that keep their state between finishing cycles are connected under `when`. -/
def statement : Rule → Stmt
  | .doneInit => p.domains.doneInitUpdate p.finishing
  | .gateSource c => .connect (.field (.ref c.buffer) ClockGate.source) host.clock
  | .gateEnable c => .connect (.field (.ref c.buffer) ClockGate.enable)
      (.conj [c.enable, p.finishing, host.reset.not, p.domains.doneInit])
  | .enable c => .connect c.enable (.mux p.finishing c.clockFlag c.enable)
  | .fired d => d.updateFired p.finishing
  | .accept d => d.acceptRule p.finishing
  | .offer d => d.offerRule ((p.interface.sources g d).map (·.valid))
  | .clockReady group => .connect (Handshake.ready (sinkName group.name)) p.dataDone
  | .finishing => .connect p.finishing (p.dataDone.and p.interface.clock.validity)
  | .stamp d => d.stampRule (p.domains.time?.getD (.bit false))
  | .simTime t => .when p.finishing (.connect (.ref t.reg) t.source) .skip

end Plan

namespace Stmt

variable {ss ss' : List Stmt} {r : Valuation}

@[simp] theorem connections_append : connections (ss ++ ss') r = connections ss r ++ connections ss' r := by
  simp [connections]

theorem connections_cons {s : Stmt} :
    connections (s :: ss) r = (s.executed (·.isHigh r)).filterMap connection? ++ connections ss r := by
  simp [connections]

@[simp] theorem connections_nil : connections [] r = [] := rfl

theorem connections_when {pred : Expr} {conseq alt : Stmt} : connections [.when pred conseq alt] r =
    if pred.isHigh r then connections [conseq] r else connections [alt] r := by
  unfold connections
  cases h : pred.isHigh r <;> simp [executed, h]

theorem connections_flatMap {α : Type} (l : List α) (f : α → List Stmt) :
    connections (l.flatMap f) r = l.flatMap fun x => connections (f x) r := by
  induction l with
  | nil => rfl
  | cons x l ih => rw [List.flatMap_cons, connections_append, ih, List.flatMap_cons]

theorem connections_map {α : Type} (l : List α) (f : α → Stmt) :
    connections (l.map f) r = l.flatMap fun x => connections [f x] r := by
  rw [← connections_flatMap, List.map_eq_flatMap]

end Stmt

/-! ### Channels by position -/

theorem map_fst_filterMap_zipIdx {α β : Type} (f : α → Option β) (l : List α) (n : Nat) :
    ((l.zipIdx n).filterMap fun x => (f x.1).map (·, x.2)).map Prod.fst = l.filterMap f := by
  induction l generalizing n with
  | nil => rfl
  | cons a l ih => cases h : f a <;> simp [List.zipIdx_cons, h, ih]

def Channel.input? : Channel → Option DataChannel
  | .input d => some d
  | _ => none

def Channel.output? : Channel → Option DataChannel
  | .output d => some d
  | _ => none

theorem Channels.inputs_eq (cs : Channels) : cs.inputs = cs.zipIdx.filterMap fun x => x.1.input?.map (·, x.2) := by
  unfold inputs
  congr 1
  funext ⟨c, i⟩
  cases c <;> rfl

theorem Channels.outputs_eq (cs : Channels) : cs.outputs = cs.zipIdx.filterMap fun x => x.1.output?.map (·, x.2) := by
  unfold outputs
  congr 1
  funext ⟨c, i⟩
  cases c <;> rfl

namespace Interface

variable (i : Interface)

theorem map_fst_inputs : i.channels.inputs.map Prod.fst = i.inputs := by
  rw [Channels.inputs_eq, map_fst_filterMap_zipIdx]
  simp [channels, List.filterMap_cons, List.filterMap_append, List.filterMap_map, Function.comp_def, Channel.input?]

theorem mem_inputs_of_sources {i : Interface} {g : Connectivity} {d d' : DataChannel} (h : d' ∈ i.sources g d) :
    d' ∈ i.inputs := by
  obtain ⟨x, hx, rfl⟩ := List.mem_map.1 h
  rw [← map_fst_inputs]
  exact List.mem_map_of_mem (List.mem_filter.1 hx).1

theorem map_fst_outputs : i.channels.outputs.map Prod.fst = i.outputs := by
  rw [Channels.outputs_eq, map_fst_filterMap_zipIdx]
  simp [channels, List.filterMap_cons, List.filterMap_append, List.filterMap_map, Function.comp_def, Channel.output?]

end Interface

/-! ### The connections of a cycle -/

namespace Plan

variable {p : Plan} {host : HostSignals} {g : Connectivity} {r : Valuation} {ss ss' : List Stmt} {xs ys : List Rule}

/-- In a cycle the statements make the connections of these rules, in order. -/
def Emits (p : Plan) (host : HostSignals) (g : Connectivity) (r : Valuation) (ss : List Stmt) (xs : List Rule) : Prop :=
  Stmt.connections ss r = xs.map fun x => (p.place x, p.connected host g r x)

theorem Emits.append (h : p.Emits host g r ss xs) (h' : p.Emits host g r ss' ys) :
    p.Emits host g r (ss ++ ss') (xs ++ ys) := by
  unfold Emits at *
  rw [Stmt.connections_append, h, h', List.map_append]

theorem Emits.flatMap {α : Type} {l : List α} {f : α → List Stmt} {x : α → List Rule}
    (h : ∀ a, p.Emits host g r (f a) (x a)) : p.Emits host g r (l.flatMap f) (l.flatMap x) := by
  induction l with
  | nil => rfl
  | cons a l ih => exact (h a).append ih

theorem Emits.map {α : Type} {l : List α} {f : α → Stmt} {x : α → Rule} (h : ∀ a, p.Emits host g r [f a] [x a]) :
    p.Emits host g r (l.map f) (l.map x) := by
  rw [List.map_eq_flatMap, List.map_eq_flatMap]
  exact .flatMap h

theorem emits_doneInitUpdate : p.Emits host g r [p.domains.doneInitUpdate p.finishing]
    (if p.finishing.isHigh r then [.doneInit] else []) := by
  unfold Emits ClockDomains.doneInitUpdate
  rw [Stmt.connections_when]
  split <;> rfl

theorem emits_connections (c : ClockDomain) : p.Emits host g r (c.connections host p.finishing p.domains.doneInit)
    [.gateSource c, .gateEnable c, .enable c] := rfl

theorem emits_updateFired (d : DataChannel) : p.Emits host g r [d.updateFired p.finishing] [.fired d] := by
  unfold Emits DataChannel.updateFired
  rw [Stmt.connections_when, List.map_singleton, connected]
  split <;> rfl

theorem offerRules_eq (h : p.dependencies = p.interface.channels.dependencies g) :
    p.offerRules = p.interface.outputs.map fun d => d.offerRule ((p.interface.sources g d).map (·.valid)) := by
  rw [offerRules, h, Channels.dependencies, List.map_map, ← Interface.map_fst_outputs, List.map_map]
  simp [Function.comp_def, Interface.sources]

theorem stampRules_eq {t : SimTime} (h : p.domains.simTime = some t) :
    p.stampRules = (p.interface.outputs.filter (·.timestamped)).map (·.stampRule (.ref t.reg)) := by
  simp [stampRules, ClockDomains.time?, h]

theorem emits_offerRules (h : p.dependencies = p.interface.channels.dependencies g) :
    p.Emits host g r p.offerRules (p.interface.outputs.map .offer) := by
  rw [offerRules_eq h]
  exact .map fun d => rfl

theorem emits_clockReady : p.Emits host g r (p.interface.clock.acceptRule? p.dataDone).toList
    (p.interface.clock.group?.toList.map .clockReady) := by
  cases h : p.interface.clock <;> rfl

theorem emits_stampRules : p.Emits host g r p.stampRules
    (if p.domains.simTime.isSome then (p.interface.outputs.filter (·.timestamped)).map .stamp else []) := by
  cases h : p.domains.simTime with
  | none => simp [stampRules, ClockDomains.time?, h, Emits]
  | some t =>
    rw [stampRules_eq h]
    exact .map fun d => by simp [Emits, connected, ClockDomains.time?, h]; rfl

theorem emits_simTimeUpdate : p.Emits host g r (p.domains.simTimeUpdate? p.finishing).toList
    (if p.finishing.isHigh r then p.domains.simTime.toList.map .simTime else []) := by
  unfold Emits ClockDomains.simTimeUpdate?
  cases p.domains.simTime with
  | none => split <;> rfl
  | some t =>
    rw [Option.map_some, Option.toList_some, Stmt.connections_when]
    split <;> rfl

theorem emits_firingRules (h : p.dependencies = p.interface.channels.dependencies g) :
    p.Emits host g r (p.firingRules host) (p.active r) := by
  refine .append (.append (.append (.append (.append (.append (.append ?_ ?_) ?_) ?_) ?_) ?_) ?_) ?_
  · exact emits_doneInitUpdate.append (.flatMap emits_connections)
  · exact .map emits_updateFired
  · exact .map fun d => rfl
  · exact emits_offerRules h
  · exact emits_clockReady
  · rfl
  · exact emits_stampRules
  · exact emits_simTimeUpdate

/-- The firing rules are the rules of the plan, each written once. -/
theorem firingRules_eq (h : p.dependencies = p.interface.channels.dependencies g) :
    p.firingRules host = p.rules.map (p.statement host g) := by
  have hgating : p.domains.gating host p.finishing = (p.domains.all.flatMap fun c =>
      [Rule.gateSource c, .gateEnable c, .enable c]).map (p.statement host g) := by
    rw [List.map_flatMap]
    rfl
  have hclock : (p.interface.clock.acceptRule? p.dataDone).toList =
      (p.interface.clock.group?.toList.map .clockReady).map (p.statement host g) := by
    cases p.interface.clock <;> rfl
  cases htime : p.domains.simTime with
  | none =>
    have hstamps : p.stampRules = [] := by simp [stampRules, ClockDomains.time?, htime]
    simp [firingRules, rules, hgating, hclock, hstamps, offerRules_eq h, ClockDomains.simTimeUpdate?, htime, statement,
      Function.comp_def]
  | some t =>
    simp [firingRules, rules, hgating, hclock, stampRules_eq htime, offerRules_eq h, ClockDomains.simTimeUpdate?, htime,
      statement, ClockDomains.time?, Function.comp_def]

theorem connections_declarations {config : Config} {retained : List Port} :
    Stmt.connections (p.declarations retained host config) r = [] := by
  have hdomains : Stmt.connections (p.domains.declarations host config) r = [] := by
    rw [ClockDomains.declarations, Stmt.connections_flatMap]
    exact List.flatMap_eq_nil_iff.2 fun c _ => rfl
  have hretained : Stmt.connections (retained.map fun port => .wire port.name port.type) r = [] := by
    rw [Stmt.connections_map]
    exact List.flatMap_eq_nil_iff.2 fun port _ => rfl
  have hfired : Stmt.connections (p.interface.data.map (·.firedReg host)) r = [] := by
    rw [Stmt.connections_map]
    exact List.flatMap_eq_nil_iff.2 fun d _ => rfl
  have htime : Stmt.connections (p.domains.simTimeDeclaration? host).toList r = [] := by
    unfold ClockDomains.simTimeDeclaration?
    cases p.domains.simTime <;> rfl
  simp only [declarations, List.cons_append, Stmt.connections_cons, Stmt.connections_append, hdomains, hretained,
    hfired, htime, List.append_nil]
  rfl

end Plan

end TokenCircuit
