import TokenCircuit.Proofs.Rules

/-!
# The protocol, cycle by cycle

`Plan.Obeys` states all that a settled cycle of the emitted declarations and rules can do: the level of every wire of
the protocol in terms of the environment and the registers, and the state of every register afterwards. It is proved
once from the statements (`Module.Planned.obeys`); no later argument looks at a statement again.
-/

namespace TokenCircuit

def Expr.fieldPath : Expr → List String
  | .field base name => base.fieldPath ++ [name]
  | _ => []

theorem Expr.fieldPath_follow {e : Expr} {path : List String} : (e.follow path).fieldPath = e.fieldPath ++ path := by
  unfold follow
  induction path generalizing e with
  | nil => simp
  | cons name path ih => rw [List.foldl_cons, ih, fieldPath, List.append_assoc, List.singleton_append]

theorem Expr.root?_follow {e : Expr} {path : List String} : (e.follow path).root? = e.root? := by
  unfold follow
  induction path generalizing e with
  | nil => rfl
  | cons name path ih => rw [List.foldl_cons, ih, root?]

theorem Expr.follow_nil {e : Expr} : e.follow [] = e := rfl

theorem Expr.follow_ref_inj {name name' : String} {path path' : List String}
    (h : (Expr.ref name).follow path = (Expr.ref name').follow path') : name = name' ∧ path = path' := by
  have hroot := congrArg root? h
  have hpath := congrArg fieldPath h
  rw [root?_follow, root?_follow] at hroot
  rw [fieldPath_follow, fieldPath_follow] at hpath
  exact ⟨Option.some.inj hroot, hpath⟩

/-- The initial value of a part that is a register. -/
def Part.init? : Part → Option Expr
  | .doneInit | .fired _ => some (.bit false)
  | .enable _ => some (.bit true)
  | .simTime _ => some (.literal 0 SignalType.timeWidth)
  | .clockPort _ | .hostPort _ | .finishing | .gate _ | .flag _ => none

namespace Plan

variable {p : Plan} {host : HostSignals} {config : Config} {retained : List Port} {g : Connectivity} {r : Valuation}

/-- The declarations and the rules, without the logic of the module. -/
def protocol (p : Plan) (retained : List Port) (host : HostSignals) (config : Config) : List Stmt :=
  p.declarations retained host config ++ p.firingRules host

theorem part_mem_of_rules {x : Rule} (hx : x ∈ p.rules) : x.part ∈ p.parts := by
  simp only [rules, List.cons_append, List.mem_cons, List.mem_append, List.mem_ite_nil_right, List.mem_flatMap,
    List.mem_map, List.not_mem_nil, or_false, List.mem_filter, Option.mem_toList] at hx
  rcases hx with rfl | ((((((⟨c, hc, rfl | rfl | rfl⟩ | ⟨d, hd, rfl⟩) | ⟨d, hd, rfl⟩) | ⟨d, hd, rfl⟩) |
    ⟨g, hg, rfl⟩) | rfl) | ⟨-, d, hd, rfl⟩) | ⟨t, ht, rfl⟩ <;>
  simp_all [Rule.part, Interface.data]

theorem mem_rules_of_active {x : Rule} (hx : x ∈ p.active r) : x ∈ p.rules := by
  simp only [active, rules, List.cons_append, List.mem_cons, List.mem_append, List.mem_ite_nil_right] at hx ⊢
  tauto

theorem part_mem_of_active {x : Rule} (hx : x ∈ p.active r) : x.part ∈ p.parts :=
  part_mem_of_rules (mem_rules_of_active hx)

theorem place_reg {x : Rule} {init : Expr} (h : x.part.init? = some init) : p.place x = .ref (p.nameOf x.part) := by
  cases x <;> cases h <;> rfl

theorem connections_protocol (retained : List Port) (host : HostSignals) (config : Config) (r : Valuation)
    (h : p.dependencies = p.interface.channels.dependencies g) :
    p.Emits host g r (p.protocol retained host config) (p.active r) := by
  unfold Emits protocol
  rw [Stmt.connections_append, connections_declarations, List.nil_append]
  exact emits_firingRules h

theorem declared?_rule {s : Stmt} (h : s ∈ p.firingRules host) : s.declared? = none := by
  simp only [firingRules, List.mem_append, List.mem_cons, ClockDomains.gating, List.mem_flatMap, List.mem_map,
    offerRules, Option.mem_toList, List.not_mem_nil, or_false] at h
  rcases h with (((((((rfl | ⟨c, -, h⟩) | ⟨d, -, rfl⟩) | ⟨d, -, rfl⟩) | ⟨d, -, rfl⟩) | h) | rfl) | h) | h
  · rfl
  · simp only [ClockDomain.connections, List.mem_cons, List.not_mem_nil, or_false] at h
    rcases h with rfl | rfl | rfl <;> rfl
  · rfl
  · rfl
  · rfl
  · cases hclock : p.interface.clock <;> simp only [hclock, ClockSource.acceptRule?, reduceCtorEq, Option.some.injEq]
      at h
    subst h
    rfl
  · rfl
  · cases htime : p.domains.simTime <;> simp [stampRules, ClockDomains.time?, htime] at h
    obtain ⟨d, -, rfl⟩ := h
    rfl
  · cases htime : p.domains.simTime <;> simp [ClockDomains.simTimeUpdate?, htime] at h
    subst h
    rfl

/-- How a part is declared; host ports are not declared in the body. -/
def declaration? (p : Plan) (host : HostSignals) (config : Config) : Part → Option Stmt
  | .clockPort _ | .hostPort _ => none
  | .finishing => some (.wire p.finishingWire .bool)
  | .enable c => some (.reg c.enableReg .bool host.clock host.reset (.bit true))
  | .gate c => some (.inst c.buffer config.clockGate)
  | .flag c => some (.node c.flag c.flagValue)
  | .doneInit => some (p.domains.doneInitDeclaration host)
  | .simTime t => some (.reg t.reg (.uint SignalType.timeWidth) host.clock host.reset (.literal 0 SignalType.timeWidth))
  | .fired d => some (d.firedReg host)

theorem mem_declarations {s : Stmt} : s ∈ p.declarations retained host config ↔
    (∃ y ∈ p.parts, p.declaration? host config y = some s) ∨ ∃ port ∈ retained, .wire port.name port.type = s := by
  simp only [declarations, List.cons_append, List.mem_cons, List.mem_append, List.mem_map, ClockDomains.declarations,
    List.mem_flatMap, ClockDomain.declarations, List.not_mem_nil, or_false, Option.mem_toList,
    ClockDomains.simTimeDeclaration?, Option.map_eq_some_iff]
  constructor
  · rintro (rfl | rfl | ((hport | ⟨c, hc, rfl | rfl | rfl⟩) | ⟨d, hd, rfl⟩) | ⟨t, ht, rfl⟩)
    · exact .inl ⟨.finishing, finishing_mem_parts, rfl⟩
    · exact .inl ⟨.doneInit, doneInit_mem_parts, rfl⟩
    · exact .inr hport
    · exact .inl ⟨.enable c, enable_mem_parts.2 hc, rfl⟩
    · exact .inl ⟨.gate c, gate_mem_parts.2 hc, rfl⟩
    · exact .inl ⟨.flag c, flag_mem_parts.2 hc, rfl⟩
    · exact .inl ⟨.fired d, fired_mem_parts.2 hd, rfl⟩
    · exact .inl ⟨.simTime t, simTime_mem_parts.2 ht, rfl⟩
  · rintro (⟨y, hy, hs⟩ | hport)
    · cases y with
      | clockPort | hostPort => cases hs
      | finishing => cases hs; exact .inl rfl
      | doneInit => cases hs; exact .inr (.inl rfl)
      | enable c => cases hs; exact .inr (.inr (.inl (.inl (.inr ⟨c, enable_mem_parts.1 hy, .inl rfl⟩))))
      | gate c => cases hs; exact .inr (.inr (.inl (.inl (.inr ⟨c, gate_mem_parts.1 hy, .inr (.inl rfl)⟩))))
      | flag c => cases hs; exact .inr (.inr (.inl (.inl (.inr ⟨c, flag_mem_parts.1 hy, .inr (.inr rfl)⟩))))
      | fired d => cases hs; exact .inr (.inr (.inl (.inr ⟨d, fired_mem_parts.1 hy, rfl⟩)))
      | simTime t => cases hs; exact .inr (.inr (.inr ⟨t, simTime_mem_parts.1 hy, rfl⟩))
    · exact .inr (.inr (.inl (.inl (.inl hport))))

theorem part_of_reg {name : String} {type : SignalType} {clock reset init : Expr}
    (h : .reg name type clock reset init ∈ p.protocol retained host config) :
    ∃ x ∈ p.parts, p.nameOf x = name ∧ x.init? = some init ∧ clock = host.clock ∧ reset = host.reset := by
  rcases List.mem_append.1 h with h | h
  · rcases mem_declarations.1 h with ⟨x, hx, heq⟩ | ⟨port, -, heq⟩
    · refine ⟨x, hx, ?_⟩
      cases x <;> cases heq <;> exact ⟨rfl, rfl, rfl, rfl⟩
    · cases heq
  · cases declared?_rule h

theorem reg_of_part (retained : List Port) (host : HostSignals) (config : Config) {x : Part} {init : Expr}
    (hx : x ∈ p.parts) (hinit : x.init? = some init) :
    ∃ type, .reg (p.nameOf x) type host.clock host.reset init ∈ p.protocol retained host config := by
  obtain ⟨type, hdeclared⟩ : ∃ type, p.declaration? host config x =
      some (.reg (p.nameOf x) type host.clock host.reset init) := by
    cases x <;> cases hinit <;> exact ⟨_, rfl⟩
  exact ⟨type, List.mem_append_left _ (mem_declarations.2 (.inl ⟨x, hx, hdeclared⟩))⟩

theorem domain_of_node {name : String} {value : Expr} (h : .node name value ∈ p.protocol retained host config) :
    ∃ c ∈ p.domains.all, name = c.flag ∧ value = c.flagValue := by
  rcases List.mem_append.1 h with h | h
  · rcases mem_declarations.1 h with ⟨x, hx, heq⟩ | ⟨port, -, heq⟩
    · cases x <;> cases heq
      exact ⟨_, flag_mem_parts.1 hx, rfl, rfl⟩
    · cases heq
  · cases declared?_rule h

theorem node_of_domain {c : ClockDomain} (hc : c ∈ p.domains.all) :
    .node c.flag c.flagValue ∈ p.protocol retained host config :=
  List.mem_append_left _ (mem_declarations.2 (.inl ⟨.flag c, flag_mem_parts.2 hc, rfl⟩))

end Plan

theorem Stmt.register?_eq_some {ss : List Stmt} {clock reset init : Expr} {name : String} {type : SignalType}
    (h : .reg name type clock reset init ∈ ss)
    (hone : ∀ type' reset' init', .reg name type' clock reset' init' ∈ ss → reset' = reset ∧ init' = init) :
    register? ss clock name = some (reset, init) := by
  cases hfound : register? ss clock name with
  | none => simpa using List.findSome?_eq_none_iff.1 hfound _ h
  | some found =>
    obtain ⟨s, hs, hreg⟩ := List.exists_of_findSome?_eq_some hfound
    split at hreg
    · next name' type' clock' reset' init' =>
      obtain ⟨⟨rfl, rfl⟩, hsome⟩ := Option.ite_none_right_eq_some.1 hreg
      obtain ⟨rfl, rfl⟩ := hone _ _ _ hs
      exact hsome.symm
    · cases hreg

namespace Module.Planned

variable {m : Module} {a : Analysis} {config : Config} {p : Plan} {host : HostSignals} {retained : List Port}
  {st r : Valuation} {x : Rule} {y : Part}

theorem eq_of_place (h : m.Planned a config p) {x' : Rule} (hx : x ∈ p.active r) (hx' : x' ∈ p.active r)
    (hplace : p.place x = p.place x') : x = x' := by
  obtain ⟨hname, hpath⟩ := Expr.follow_ref_inj hplace
  exact Rule.eq_of_part_of_path (h.part_eq (Plan.part_mem_of_active hx) (Plan.part_mem_of_active hx') hname) hpath

/-- An active rule is the only one that drives its place. -/
theorem driver?_place (h : m.Planned a config p) (hx : x ∈ p.active r) :
    Stmt.driver? (p.protocol retained host config) r (p.place x) =
      some (p.connected host (a.connectivity m.name) r x) := by
  have hemits := Plan.connections_protocol retained host config r h.dependencies
  refine Stmt.driver?_eq_some ?_ ?_
  · rw [hemits]
    exact List.mem_map_of_mem hx
  · intro value hvalue
    rw [hemits] at hvalue
    obtain ⟨x', hx', heq⟩ := List.mem_map.1 hvalue
    obtain ⟨hplace, rfl⟩ := Prod.mk.inj heq
    rw [h.eq_of_place hx' hx hplace]

theorem driver?_undriven (h : m.Planned a config p) (hy : y ∈ p.parts) (hnone : ∀ x ∈ p.active r, x.part ≠ y) :
    Stmt.driver? (p.protocol retained host config) r (.ref (p.nameOf y)) = none := by
  refine Stmt.driver?_eq_none fun value hvalue => ?_
  rw [Plan.connections_protocol retained host config r h.dependencies] at hvalue
  obtain ⟨x, hx, heq⟩ := List.mem_map.1 hvalue
  have hplace : (Expr.ref (p.nameOf x.part)).follow x.path = (Expr.ref (p.nameOf y)).follow [] := (Prod.mk.inj heq).1
  exact hnone x hx (h.part_eq (Plan.part_mem_of_active hx) hy (Expr.follow_ref_inj hplace).1)

theorem register?_part (h : m.Planned a config p) {init : Expr} (hy : y ∈ p.parts) (hinit : y.init? = some init) :
    Stmt.register? (p.protocol retained host config) host.clock (p.nameOf y) = some (host.reset, init) := by
  obtain ⟨type, hreg⟩ := Plan.reg_of_part retained host config hy hinit
  refine Stmt.register?_eq_some hreg fun type' reset' init' hreg' => ?_
  obtain ⟨y', hy', hname, hinit', -, rfl⟩ := Plan.part_of_reg hreg'
  rw [h.part_eq hy' hy hname, hinit] at hinit'
  exact ⟨rfl, (Option.some.inj hinit').symm⟩

/-- The place of an active rule holds what the rule connects to it, unless it is a register. -/
theorem value_place (h : m.Planned a config p) (hs : Settled (p.protocol retained host config) st r)
    (hx : x ∈ p.active r) (hinit : x.part.init? = none) :
    (p.place x).value r = (p.connected host (a.connectivity m.name) r x).value r := by
  refine hs.driven (h.driver?_place hx) fun name type clock reset init hreg heq => ?_
  obtain ⟨y, hy, rfl, hinit', -⟩ := Plan.part_of_reg hreg
  have hplace : (Expr.ref (p.nameOf x.part)).follow x.path = (Expr.ref (p.nameOf y)).follow [] := heq
  rw [h.part_eq (Plan.part_mem_of_active hx) hy (Expr.follow_ref_inj hplace).1, hinit'] at hinit
  cases hinit

theorem state_part (hs : Settled (p.protocol retained host config) st r) {init : Expr} (hy : y ∈ p.parts)
    (hinit : y.init? = some init) : r (p.nameOf y) = st (p.nameOf y) := by
  obtain ⟨type, hreg⟩ := Plan.reg_of_part retained host config hy hinit
  exact hs.reg hreg

theorem nextState_reset (h : m.Planned a config p) {init : Expr} (hy : y ∈ p.parts) (hinit : y.init? = some init)
    (hreset : host.reset.isHigh r = true) :
    nextState (p.protocol retained host config) host.clock r (p.nameOf y) = init.value r := by
  simp [nextState, h.register?_part hy hinit, hreset]

theorem nextState_driven (h : m.Planned a config p) {init : Expr} (hx : x ∈ p.active r)
    (hinit : x.part.init? = some init) (hpath : x.path = []) (hreset : host.reset.isHigh r = false) :
    nextState (p.protocol retained host config) host.clock r (p.nameOf x.part) =
      (p.connected host (a.connectivity m.name) r x).value r := by
  have hdriver : Stmt.driver? (p.protocol retained host config) r (p.place x) = _ := h.driver?_place hx
  rw [Plan.place, hpath, Expr.follow_nil] at hdriver
  simp [nextState, h.register?_part (Plan.part_mem_of_active hx) hinit, hreset, hdriver]

theorem nextState_undriven (h : m.Planned a config p) {init : Expr} (hy : y ∈ p.parts) (hinit : y.init? = some init)
    (hnone : ∀ x ∈ p.active r, x.part ≠ y) (hreset : host.reset.isHigh r = false) :
    nextState (p.protocol retained host config) host.clock r (p.nameOf y) = r (p.nameOf y) := by
  simp [nextState, h.register?_part hy hinit, hreset, h.driver?_undriven hy hnone]

end Module.Planned

/-- A token moves through the channel in the cycle. -/
def DataChannel.transfers (d : DataChannel) (r : Valuation) : Bool := d.valid.isHigh r && d.ready.isHigh r

@[simp] theorem DataChannel.isHigh_isFiring {d : DataChannel} {r : Valuation} : d.isFiring.isHigh r = d.transfers r :=
  Expr.isHigh_and

/-- The gate of the domain passes the host clock in the cycle. -/
def ClockDomain.ticks (c : ClockDomain) (r : Valuation) : Bool := (Expr.field (.ref c.buffer) ClockGate.enable).isHigh r

/-- All that a cycle of the protocol can do, from the registers `st` to the registers `st'`. -/
structure Plan.Obeys (p : Plan) (host : HostSignals) (g : Connectivity) (st r st' : Valuation) : Prop where
  state : ∀ {y init}, y ∈ p.parts → y.init? = some init → r (p.nameOf y) = st (p.nameOf y)
  flag : ∀ {c}, c ∈ p.domains.all → r c.flag = c.flagValue.value r
  finishing : p.finishing.isHigh r = (p.dataDone.isHigh r && p.interface.clock.validity.isHigh r)
  clockReady : ∀ {group}, p.interface.clock.group? = some group →
    (Handshake.ready (sinkName group.name)).isHigh r = p.dataDone.isHigh r
  accept : ∀ {d}, d ∈ p.interface.inputs → d.ready.isHigh r = (p.finishing.isHigh r && !d.isFired.isHigh r)
  offer : ∀ {d}, d ∈ p.interface.outputs →
    d.valid.isHigh r = ((p.interface.sources g d).all (·.valid.isHigh r) && !d.isFired.isHigh r)
  gate : ∀ {c}, c ∈ p.domains.all → c.ticks r =
    (c.enable.isHigh r && (p.finishing.isHigh r && (!host.reset.isHigh r && p.domains.doneInit.isHigh r)))
  stamp : ∀ {d t}, d ∈ p.interface.outputs → d.timestamped = true → p.domains.simTime = some t →
    (Handshake.time d.hostPort).value r = r t.reg
  reset : ∀ {y init}, y ∈ p.parts → y.init? = some init → host.reset.isHigh r = true → st' (p.nameOf y) = init.value r
  nextFired : ∀ {d}, d ∈ p.interface.data → host.reset.isHigh r = false → d.isFired.isHigh st' =
    if p.finishing.isHigh r then !d.enable.isHigh r else d.isFired.isHigh r || d.transfers r
  nextEnable : ∀ {c}, c ∈ p.domains.all → host.reset.isHigh r = false →
    st' c.enableReg = if p.finishing.isHigh r then r c.flag else r c.enableReg
  nextDoneInit : host.reset.isHigh r = false →
    p.domains.doneInit.isHigh st' = (p.finishing.isHigh r || p.domains.doneInit.isHigh r)
  nextTime : ∀ {t}, p.domains.simTime = some t → host.reset.isHigh r = false →
    st' t.reg = if p.finishing.isHigh r then t.source.value r else r t.reg

namespace Module.Planned

variable {m : Module} {a : Analysis} {config : Config} {p : Plan} {host : HostSignals} {retained : List Port}
  {st r : Valuation}

theorem nextDoneInit_eq (h : m.Planned a config p) (hreset : host.reset.isHigh r = false) :
    p.domains.doneInit.isHigh (nextState (p.protocol retained host config) host.clock r) =
      (p.finishing.isHigh r || p.domains.doneInit.isHigh r) := by
  cases hfin : p.finishing.isHigh r with
  | true =>
    have hx : Rule.doneInit ∈ p.active r := by simp [Plan.active, hfin]
    exact (Expr.isHigh_ref (h.nextState_driven hx rfl rfl hreset)).trans Expr.isHigh_bit
  | false =>
    have hnone : ∀ x ∈ p.active r, x.part ≠ .doneInit := by
      intro x hx hpart
      cases x <;> simp_all [Plan.active, Rule.part]
    exact Expr.isHigh_ref ((h.nextState_undriven (y := .doneInit) Plan.doneInit_mem_parts rfl hnone hreset).trans
      Expr.value_ref.symm)

theorem nextTime_eq (h : m.Planned a config p) {t : SimTime} (ht : p.domains.simTime = some t)
    (hreset : host.reset.isHigh r = false) :
    nextState (p.protocol retained host config) host.clock r t.reg =
      if p.finishing.isHigh r then t.source.value r else r t.reg := by
  cases hfin : p.finishing.isHigh r with
  | true =>
    have hx : Rule.simTime t ∈ p.active r := by simp [Plan.active, hfin, ht]
    exact h.nextState_driven hx rfl rfl hreset
  | false =>
    have hnone : ∀ x ∈ p.active r, x.part ≠ .simTime t := by
      intro x hx hpart
      cases x <;> simp_all [Plan.active, Rule.part]
    exact h.nextState_undriven (y := .simTime t) (Plan.simTime_mem_parts.2 ht) rfl hnone hreset

theorem nextFired_eq (h : m.Planned a config p) {d : DataChannel} (hd : d ∈ p.interface.data)
    (hreset : host.reset.isHigh r = false) :
    d.isFired.isHigh (nextState (p.protocol retained host config) host.clock r) =
      if p.finishing.isHigh r then !d.enable.isHigh r else d.isFired.isHigh r || d.transfers r := by
  have hx : Rule.fired d ∈ p.active r := by
    simp only [Plan.active, List.mem_append, List.mem_map]
    exact .inl (.inl (.inl (.inl (.inl (.inl (.inr ⟨d, hd, rfl⟩))))))
  refine (Expr.isHigh_ref (h.nextState_driven hx rfl rfl hreset)).trans ?_
  simp only [Plan.connected, DataChannel.firedOrFiring]
  split <;> simp

theorem nextEnable_eq (h : m.Planned a config p) {c : ClockDomain} (hc : c ∈ p.domains.all)
    (hreset : host.reset.isHigh r = false) :
    nextState (p.protocol retained host config) host.clock r c.enableReg =
      if p.finishing.isHigh r then r c.flag else r c.enableReg := by
  have hx : Rule.enable c ∈ p.active r := by simp [Plan.active, hc]
  refine (h.nextState_driven hx rfl rfl hreset).trans ?_
  rw [Plan.connected, Expr.value_mux]
  rfl

/-- A settled cycle of the emitted declarations and rules obeys the protocol. -/
theorem obeys (h : m.Planned a config p) (hs : Settled (p.protocol retained host config) st r) :
    p.Obeys host (a.connectivity m.name) st r (nextState (p.protocol retained host config) host.clock r) where
  state := state_part hs
  flag hc := hs.node (Plan.node_of_domain hc)
  finishing := by
    have hx : Rule.finishing ∈ p.active r := by simp [Plan.active]
    exact (Expr.isHigh_congr (h.value_place hs hx rfl)).trans Expr.isHigh_and
  clockReady {group} hgroup := by
    have hx : Rule.clockReady group ∈ p.active r := by simp [Plan.active, hgroup]
    exact Expr.isHigh_congr (h.value_place hs hx rfl)
  accept {d} hd := by
    have hx : Rule.accept d ∈ p.active r := by simp [Plan.active, hd]
    refine (Expr.isHigh_congr (h.value_place hs hx rfl)).trans ?_
    simp [Plan.connected]
  offer {d} hd := by
    have hx : Rule.offer d ∈ p.active r := by simp [Plan.active, hd]
    refine (Expr.isHigh_congr (h.value_place hs hx rfl)).trans ?_
    simp [Plan.connected, List.all_map, Function.comp_def]
  gate {c} hc := by
    have hx : Rule.gateEnable c ∈ p.active r := by simp [Plan.active, hc]
    refine (Expr.isHigh_congr (h.value_place hs hx rfl)).trans ?_
    simp [Plan.connected]
  stamp {d t} hd hstamped ht := by
    have hx : Rule.stamp d ∈ p.active r := by simp [Plan.active, hd, hstamped, ht]
    refine (h.value_place hs hx rfl).trans ?_
    simp [Plan.connected, ClockDomains.time?, ht]
  reset hy hinit hreset := h.nextState_reset hy hinit hreset
  nextFired hd hreset := h.nextFired_eq hd hreset
  nextEnable hc hreset := h.nextEnable_eq hc hreset
  nextDoneInit hreset := h.nextDoneInit_eq hreset
  nextTime ht hreset := h.nextTime_eq ht hreset

end Module.Planned

namespace TokenModel

/-- The statements around the logic of the module: what the protocol declares, and its rules. -/
def protocol (t : TokenModel) : List Stmt := t.declarations ++ t.rules

/-- A run of the protocol from host reset on, in which host reset stays low. -/
structure Run (t : TokenModel) (host : HostSignals) (st : Valuation) (rs : List Valuation) : Prop where
  start : AfterReset t.protocol host.clock host.reset st
  cycles : IsRun t.protocol host.clock st rs
  low : ∀ r ∈ rs, host.reset.isHigh r = false

end TokenModel

namespace Module.Modelled

variable {m : Module} {a : Analysis} {host : HostSignals} {config : Config} {t : TokenModel} {st r : Valuation}

theorem protocol_eq (h : m.Modelled a host config t) :
    t.protocol = t.plan.protocol (t.plan.retained m) host config := by
  rw [TokenModel.protocol, h.declarations, h.rules]
  rfl

theorem obeys (h : m.Modelled a host config t) (hs : Settled t.protocol st r) :
    t.plan.Obeys host (a.connectivity m.name) st r (nextState t.protocol host.clock r) := by
  rw [h.protocol_eq] at hs ⊢
  exact h.planned.obeys hs

/-- Under reset every register of the protocol takes its initial value. -/
theorem value_afterReset (h : m.Modelled a host config t) (hst : AfterReset t.protocol host.clock host.reset st)
    {y : Part} {init : Expr} (hy : y ∈ t.plan.parts) (hinit : y.init? = some init) :
    ∃ r, st (t.plan.nameOf y) = init.value r := by
  obtain ⟨st₀, r, hs, hreset, rfl⟩ := hst
  exact ⟨r, (h.obeys hs).reset hy hinit hreset⟩

end Module.Modelled

end TokenCircuit
