import TokenCircuit.Proofs.Accounting
import TokenCircuit.Proofs.Drivers

/-!
# Drivers of ports

A connection to a port of the old module has to drive what is left of the port: the host port of its channel, or a wire
where no channel lists it. The left side of the connection is redirected to what stands for the port, except that a
clock keeps its left side. The exception fits the ports that become wires and fails for a clock that a channel lists:
what is left of the clock is not driven, and the connection drives a name that is gone
(`Module.output_drivers_kept_iff`).
-/

namespace TokenCircuit

/-- With this left side a connection still drives what is left of the port: the host port of a channel that has the
port, or the wire that took its name. -/
structure TokenModel.KeepsDriven (t : TokenModel) (q : Port) (loc : Expr) : Prop where
  placed : q.name ∈ t.layout → ∃ c ∈ t.channels, ∃ hostPort g path, c.Lists q.name ∧ c.carried? = some (hostPort, g) ∧
    t.layout.get? q.name = some (.channel hostPort path) ∧ hostPort ∈ t.module.ports.map (·.name) ∧
    loc.root? = some hostPort
  retained : q.name ∉ t.layout → .wire q.name q.type ∈ t.module.body.preorder ∧ loc.root? = some q.name

/-- A left side starts at what stands for its root, or at its root if that is a clock. -/
theorem Expr.root?_leftSide {σ : String → Option Expr} {clocks : List String} {loc : Expr} {name : String}
    (h : loc.root? = some name) : (if loc.isRootedIn clocks then loc else loc.redirect σ).root? =
      if name ∈ clocks then some name else ((σ name).getD (.ref name)).root? := by
  have hrooted : loc.isRootedIn clocks = true ↔ name ∈ clocks := by simp [isRootedIn, h]
  by_cases hclock : name ∈ clocks
  · rw [if_pos hclock, if_pos (hrooted.2 hclock), h]
  · rw [if_neg hclock, if_neg (mt hrooted.1 hclock), (encloses_redirect h).root?]

theorem TokenModel.mem_layout {t : TokenModel} {port : String} : port ∈ t.layout ↔ port ∈ t.plan.placements := by
  rw [OrderedMap.mem_iff_get?, OrderedMap.mem_iff_get?, get?_layout]
  simp [Option.map_eq_some_iff]

theorem TokenModel.standIn_of_not_mem {t : TokenModel} {port : String} (h : port ∉ t.layout) :
    t.plan.standIn port = none :=
  Option.map_eq_none_iff.2 (OrderedMap.get?_eq_none_iff.2 (mt mem_layout.2 h))

namespace Module

variable {m : Module} {a : Analysis} {host : HostSignals} {config : Config} {p : Plan} {t : TokenModel} {q : Port}
  {loc : Expr}

/-- The clock source lists clocks only. -/
theorem Planned.isClockSignal (h : m.Planned a config p) {source : ClockSource}
    (hc : .clock source ∈ p.interface.channels) {port : String} (hport : (Channel.clock source).Lists port) :
    m.IsClockSignal port := by
  obtain ⟨q, hq, rfl⟩ := List.mem_map.1 hport
  refine .inl ⟨q, h.mem_ports hc hq, rfl, SignalType.isClock_iff.1 ?_⟩
  obtain rfl := Planned.eq_clock_of_mem hc
  rcases clockSource_ok h.clock with ⟨g, spec, hclock, -, hcarries, -, hports, -⟩ | ⟨clock, hclock, hinputs, -⟩
  · rw [hclock] at hq
    have hname : q.name ∈ spec.ports := map_name_resolvePorts hports ▸ List.mem_map_of_mem hq
    have hall := List.all_eq_true.1 (Bool.and_eq_true_iff.1 hcarries).2 q.name hname
    rw [port?_of_resolvePorts hports hq] at hall
    exact hall
  · rw [hclock] at hq
    have hq : q ∈ m.clockInputs := hinputs ▸ hq
    exact (Bool.and_eq_true_iff.1 (List.mem_filter.1 hq).2).2

/-- A port other than a clock goes below the host port of a channel, and so does what stands for it. -/
theorem Planned.placed_below_hostPort (h : m.Planned a config p) {port : String} {placement : Placement}
    (hget : p.placements.get? port = some placement) (hclock : ¬ m.IsClockSignal port) :
    ∃ c ∈ p.interface.channels, ∃ hostPort g path, c.Lists port ∧ c.carried? = some (hostPort, g) ∧
      placement.location = .channel hostPort path ∧ placement.value.root? = some hostPort := by
  obtain ⟨c, hc, hlists, hplacement⟩ := h.exists_channel_of_placed hget
  cases c with
  | clock source => exact absurd (h.isClockSignal hc hlists) hclock
  | input d | output d =>
    obtain ⟨path, -, heq⟩ := map_eq_ok.1 hplacement
    cases heq
    exact ⟨_, hc, d.hostPort, _, path, hlists, rfl, rfl, Expr.root?_follow⟩

namespace Modelled

theorem keepsDriven_retained (h : m.Modelled a host config t) (hq : q ∈ m.ports) (hlayout : q.name ∉ t.layout)
    (hroot : loc.root? = some q.name) : t.KeepsDriven q loc where
  placed hmem := absurd hmem hlayout
  retained _ := ⟨h.wire_of_not_placed hq (mt TokenModel.mem_layout.2 hlayout), hroot⟩

/-- A port of a channel is driven at its host port, unless it is a clock. -/
theorem keepsDriven_placed (h : m.Modelled a host config t) (hlayout : q.name ∈ t.layout)
    (hclock : ¬ m.IsClockSignal q.name) (hroot : loc.root? = ((t.plan.standIn q.name).getD (.ref q.name)).root?) :
    t.KeepsDriven q loc := by
  refine ⟨fun _ => ?_, fun hnot => absurd hlayout hnot⟩
  obtain ⟨placement, hget⟩ := OrderedMap.mem_iff_get?.1 (TokenModel.mem_layout.1 hlayout)
  obtain ⟨c, hc, hostPort, g, path, hlists, hcarried, hlocation, hvalue⟩ := h.planned.placed_below_hostPort hget hclock
  obtain ⟨type, -, hport⟩ := h.port?_hostPort hc hcarried
  refine ⟨c, hc, hostPort, g, path, hlists, hcarried, ?_, ?_, ?_⟩
  · rw [TokenModel.get?_layout, hget, Option.map_some, hlocation]
  · exact List.mem_map.2 ⟨_, List.mem_of_find?_eq_some hport, rfl⟩
  · rw [hroot, Plan.standIn, hget]
    exact hvalue

/-- Under its old name a port of a channel is not driven: no host port has the name of an old port. -/
theorem not_keepsDriven (h : m.Modelled a host config t) (hq : q ∈ m.ports) (hlayout : q.name ∈ t.layout)
    (hroot : loc.root? = some q.name) : ¬ t.KeepsDriven q loc := by
  intro hdriven
  obtain ⟨c, hc, hostPort, g, path, -, hcarried, -, -, hhost⟩ := hdriven.placed hlayout
  have hname : q.name = hostPort := Option.some.inj (hroot.symm.trans hhost)
  refine h.planned.hostPort_not_mem hc hcarried (mem_initialNames.2 (.inr (.inr ?_)))
  exact hname ▸ List.mem_append_left _ (List.mem_map_of_mem hq)

/-- The left side that a connection to a port gets drives what is left of the port, but for clocks in channels. -/
theorem keepsDriven_iff (h : m.Modelled a host config t) (hq : q ∈ m.ports)
    (hroot : loc.root? = if q.name ∈ m.clockSignals then some q.name
      else ((t.plan.standIn q.name).getD (.ref q.name)).root?) :
    t.KeepsDriven q loc ↔ ¬ (q.name ∈ t.layout ∧ m.IsClockSignal q.name) := by
  by_cases hlayout : q.name ∈ t.layout
  · by_cases hclock : m.IsClockSignal q.name
    · rw [if_pos (mem_clockSignals.2 hclock)] at hroot
      exact iff_of_false (h.not_keepsDriven hq hlayout hroot) fun hnot => hnot ⟨hlayout, hclock⟩
    · rw [if_neg (mt mem_clockSignals.1 hclock)] at hroot
      exact iff_of_true (h.keepsDriven_placed hlayout hclock hroot) fun hboth => hclock hboth.2
  · -- as a clock the port keeps its name, and otherwise nothing stands for it
    have hname : loc.root? = some q.name := by
      rw [hroot, TokenModel.standIn_of_not_mem hlayout]
      exact ite_self _
    exact iff_of_true (h.keepsDriven_retained hq hlayout hname) fun hboth => hlayout hboth.1

end Modelled

/-- Between the declarations and the rules stands the old body, statement for statement. A connection to a port, an
output in particular, still drives what is left of the port exactly if the port is not a clock in the layout: instead of
a port in the layout the host port of its channel is driven, and a port that is in no channel, clock or not, is declared
as a wire and driven under its name. -/
theorem output_drivers_kept_iff (h : (m.tokenModel a host config).outcome = .ok t) :
    ∃ body : Stmt, t.module.body = .block (t.declarations ++ body.members ++ t.rules) ∧
      m.body.Rewritten (fun e e' => e' = e.redirect t.plan.standIn) m.IsClockSignal body ∧
      ∀ connect ∈ [Stmt.connect, Stmt.partialConnect], ∀ (i : Nat) (loc value : Expr),
        m.body.preorder[i]? = some (connect loc value) →
        ∃ loc' value', body.preorder[i]? = some (connect loc' value') ∧
          ∀ q ∈ m.ports, loc.root? = some q.name →
            (t.KeepsDriven q loc' ↔ ¬ (q.name ∈ t.layout ∧ m.IsClockSignal q.name)) := by
  have hmodel := tokenModel_ok h
  refine ⟨m.body.redirect t.plan.standIn m.clockSignals, ?_, ?_, fun connect hconnect i loc value hi => ?_⟩
  · exact congrArg (fun logic => Stmt.block (t.declarations ++ logic ++ t.rules)) hmodel.logic
  · refine Stmt.rewritten_redirect ?_ (fun _ => mem_clockSignals) _
    exact fun _ => rfl
  · refine ⟨if loc.isRootedIn m.clockSignals then loc else loc.redirect t.plan.standIn, value.redirect t.plan.standIn,
      ?_, fun q hq hroot => hmodel.keepsDriven_iff hq (Expr.root?_leftSide hroot)⟩
    rw [Stmt.preorder_redirect, List.getElem?_map, hi]
    rcases List.mem_pair.1 hconnect with rfl | rfl <;> rfl

end Module

namespace Demo.Repeater

/-- Passes its clock on, next to a signal that it is there. -/
def repeater : Module where
  name := "Repeater"
  ports := [.input "clock" .clock, .output "clock_out" .clock, .output "alive" (.uint 1)]
  body := .block [.connect (.ref "clock_out") (.ref "clock"), .connect (.ref "alive") (.literal 1 1)]

/-- Only the signal is in a channel. -/
def signalled : Analysis := .ofFacts [.output "Repeater" "alive" ⟨some "clock", ["alive"]⟩]

/-- The clock is in a channel of its own. -/
def ticked : Analysis := signalled.add (.output "Repeater" "tick" ⟨some "clock", ["clock_out"]⟩)

/-- Outside of channels the clock that is passed on is a driven wire, and the signal is driven at its host port. -/
theorem clock_out_stays_driven : ∃ (t : TokenModel) (body : Stmt),
    (repeater.tokenModel signalled (.ofConfig {}) {}).outcome = .ok t ∧
    t.module.body = .block (t.declarations ++ body.members ++ t.rules) ∧ "clock_out" ∉ t.layout ∧ "alive" ∈ t.layout ∧
    (∃ loc value, body.preorder[1]? = some (.connect loc value) ∧ t.KeepsDriven (.output "clock_out" .clock) loc) ∧
    ∃ loc value, body.preorder[2]? = some (.connect loc value) ∧ t.KeepsDriven (.output "alive" (.uint 1)) loc := by
  have h : ((repeater.tokenModel signalled (.ofConfig {}) {}).outcome.toOption.map fun t =>
      decide ("clock_out" ∉ t.layout ∧ "alive" ∈ t.layout)) = some true := by
    decide +kernel
  obtain ⟨t, ht, hlayout⟩ := exists_ok_of_map h
  obtain ⟨hclock, halive⟩ := of_decide_eq_true hlayout
  have hsignal : ¬ repeater.IsClockSignal "alive" := mt Module.mem_clockSignals.2 (by decide)
  obtain ⟨body, hbody, -, hdriven⟩ := Module.output_drivers_kept_iff ht
  obtain ⟨loc, value, hi, hiff⟩ := hdriven .connect (by simp) 1 (.ref "clock_out") (.ref "clock") rfl
  obtain ⟨loc', value', hi', hiff'⟩ := hdriven .connect (by simp) 2 (.ref "alive") (.literal 1 1) rfl
  refine ⟨t, body, ht, hbody, hclock, halive, ⟨loc, value, hi, ?_⟩, loc', value', hi', ?_⟩
  · exact (hiff _ (by decide) rfl).2 fun hboth => hclock hboth.1
  · exact (hiff' _ (by decide) rfl).2 fun hboth => hsignal hboth.2

/-- In a channel of its own the clock is driven under a name that is gone, and its place in the payload is not. -/
theorem clock_out_loses_driver : ∃ t, (repeater.tokenModel ticked (.ofConfig {}) {}).outcome = .ok t ∧
    (∀ s ∈ repeater.body.preorder, ∀ name ∈ s.refs, name ∈ repeater.ownNames) ∧
    .output "clock_out" .clock ∈ repeater.ports ∧ .connect (.ref "clock_out") (.ref "clock") ∈ repeater.body.preorder ∧
    t.layout.get? "clock_out" = some (.channel "tick_source" ["bits"]) ∧
    t.logic = [.connect (.ref "clock_out") (.field (.ref "clock_buffer") "O"),
      .connect (.field (.ref "alive_source") "bits") (.literal 1 1)] ∧
    "clock_out" ∉ t.module.ownNames := by
  have h : ((repeater.tokenModel ticked (.ofConfig {}) {}).outcome.toOption.map fun t =>
      (t.layout.get? "clock_out", t.logic, decide ("clock_out" ∈ t.module.ownNames))) =
      some (some (.channel "tick_source" ["bits"]), [.connect (.ref "clock_out") (.field (.ref "clock_buffer") "O"),
        .connect (.field (.ref "alive_source") "bits") (.literal 1 1)], false) := by
    decide +kernel
  obtain ⟨t, ht, hfacts⟩ := exists_ok_of_map h
  obtain ⟨hplace, hrest⟩ := Prod.mk.inj hfacts
  obtain ⟨hlogic, hgone⟩ := Prod.mk.inj hrest
  exact ⟨t, ht, by decide, by decide, by decide, hplace, hlogic, of_decide_eq_false hgone⟩

end Demo.Repeater

end TokenCircuit
