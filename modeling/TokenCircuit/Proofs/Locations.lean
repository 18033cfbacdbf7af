import TokenCircuit.Proofs.Drivers

/-!
# Ports lie apart

Every port that a channel lists lies at a part of the protocol, along a path of fields (`Plan.LiesAt`): a field of the
payload below a host port, or the output of a gate. Parts have names of their own, and two ports at one part have paths
of which neither begins the other (`Module.Planned.eq_of_liesAt`): the fields of a payload are distinct, and a gate has
one clock. So no two ports share a place or the expression that stands for them, whichever of its channels has a port in
the end.
-/

namespace TokenCircuit

/-- The names along a chain of fields. -/
def Expr.steps? : Expr → Option (List String)
  | .ref name => some [name]
  | .field base name => base.steps?.map (· ++ [name])
  | _ => none

/-- The names along the way to a location: a host port or a gate, and then fields. -/
def PortLocation.steps? : PortLocation → Option (List String)
  | .channel hostPort path => some (hostPort :: path)
  | .gatedClock clock => clock.steps?

/-- A port lies at the end of a path of fields below a part of the protocol. -/
inductive Plan.LiesAt (p : Plan) (port : String) : Part → List String → Prop
  | clockPort {g : PortGroup} {path : List String} : p.interface.clock.group? = some g → port ∈ g.ports.map (·.name) →
      g.payloadPath port = .ok path → LiesAt p port (.clockPort g) path
  | hostPort {d : DataChannel} {path : List String} : d ∈ p.interface.data → port ∈ d.ports.map (·.name) →
      d.payloadPath port = .ok path → LiesAt p port (.hostPort d) path
  | gate {c : ClockDomain} : p.domains.domain? port = some c → LiesAt p port (.gate c) [ClockGate.gated]

/-- The location in a placement, and the expression that stands for the port, are places where the port lies. -/
structure Plan.Settles (p : Plan) (port : String) (placement : Placement) : Prop where
  location : ∃ part path, p.LiesAt port part path ∧ placement.location.steps? = some (p.nameOf part :: path)
  value : ∃ part path, p.LiesAt port part path ∧ placement.value = (Expr.ref (p.nameOf part)).follow path

namespace Plan

variable {p : Plan} {port : String} {part : Part} {path : List String}

theorem LiesAt.mem_parts (h : p.LiesAt port part path) : part ∈ p.parts := by
  cases h with
  | clockPort hg => exact clockPort_mem_parts.2 hg
  | hostPort hd => exact hostPort_mem_parts.2 hd
  | gate hc => exact gate_mem_parts.2 (OrderedMap.mem_values_iff.2 ⟨port, hc⟩)

theorem Settles.of_data {d : DataChannel} {placement : Placement} (hd : d ∈ p.interface.data)
    (hport : port ∈ d.ports.map (·.name))
    (hplaced : (Channel.input d).placement p.domains port = .ok (some placement)) : p.Settles port placement := by
  obtain ⟨path, hpath, heq⟩ := map_eq_ok.1 hplaced
  cases heq
  have hlies : p.LiesAt port (.hostPort d) path := .hostPort hd hport hpath
  exact ⟨⟨_, path, hlies, rfl⟩, _, path, hlies, rfl⟩

end Plan

namespace Module.Planned

variable {m : Module} {a : Analysis} {config : Config} {p : Plan} {port port' : String} {part part' : Part}
  {path path' : List String} {placement placement' : Placement}

/-- No port lies at or below the place of another. -/
theorem eq_of_liesAt (h : m.Planned a config p) (hport : p.LiesAt port part path) (hport' : p.LiesAt port' part' path')
    (hpart : p.nameOf part = p.nameOf part') (hbegins : path <+: path') : port = port' := by
  obtain rfl := h.part_eq hport.mem_parts hport'.mem_parts hpart
  rw [← List.append_nil path'] at hbegins
  cases hport with
  | clockPort _ hmem hpath =>
    cases hport' with
    | clockPort _ hmem' hpath' =>
      exact (Payload.eq_of_isPrefix hmem' hmem hpath' hpath hbegins).2
  | hostPort _ hmem hpath =>
    cases hport' with
    | hostPort _ hmem' hpath' =>
      exact (Payload.eq_of_isPrefix hmem' hmem hpath' hpath hbegins).2
  | gate hc =>
    cases hport' with
    | gate hc' => exact (h.domains.describe port _ hc).1.symm.trans (h.domains.describe port' _ hc').1

/-- The location of a port and what stands for it are places where the port lies. -/
theorem settles_of_placed (h : m.Planned a config p) (hget : p.placements.get? port = some placement) :
    p.Settles port placement := by
  obtain ⟨c, hc, hlists, hplacement⟩ := h.exists_channel_of_placed hget
  simp only [Interface.channels, List.mem_cons, List.mem_append, List.mem_map] at hc
  rcases hc with rfl | ⟨d, hd, rfl⟩ | ⟨d, hd, rfl⟩
  · cases hclock : p.interface.clock with
    | channel g =>
      rw [hclock] at hlists hplacement
      obtain ⟨path, hpath, hfound⟩ := map_eq_ok.1 hplacement
      obtain ⟨c, hc, rfl⟩ := Option.map_eq_some_iff.1 hfound
      exact ⟨⟨_, path, .clockPort (by rw [hclock]; rfl) hlists hpath, rfl⟩, _, _, .gate hc, rfl⟩
    | virtual clock =>
      rw [hclock] at hplacement
      obtain ⟨c, hc, rfl⟩ := Option.map_eq_some_iff.1 (Except.ok.inj hplacement)
      exact ⟨⟨_, _, .gate hc, rfl⟩, _, _, .gate hc, rfl⟩
  · exact .of_data (List.mem_append_left _ hd) hlists hplacement
  · exact .of_data (List.mem_append_right _ hd) hlists hplacement

/-- The locations of two ports do not begin one another. -/
theorem not_isPrefix_steps (h : m.Planned a config p) (hne : port ≠ port')
    (hget : p.placements.get? port = some placement) (hget' : p.placements.get? port' = some placement') :
    ∃ steps steps', placement.location.steps? = some steps ∧ placement'.location.steps? = some steps' ∧
      ¬ steps <+: steps' ∧ ¬ steps' <+: steps := by
  obtain ⟨part, path, hlies, hsteps⟩ := (h.settles_of_placed hget).location
  obtain ⟨part', path', hlies', hsteps'⟩ := (h.settles_of_placed hget').location
  refine ⟨_, _, hsteps, hsteps', fun hbegins => hne ?_, fun hbegins => hne ?_⟩
  · obtain ⟨hpart, hpath⟩ := List.cons_prefix_cons.1 hbegins
    exact h.eq_of_liesAt hlies hlies' hpart hpath
  · obtain ⟨hpart, hpath⟩ := List.cons_prefix_cons.1 hbegins
    exact (h.eq_of_liesAt hlies' hlies hpart hpath).symm

/-- What stands for two ports does not overlap. -/
theorem not_overlaps_values (h : m.Planned a config p) (hne : port ≠ port')
    (hget : p.placements.get? port = some placement) (hget' : p.placements.get? port' = some placement') :
    ¬ placement.value.Overlaps placement'.value := by
  obtain ⟨part, path, hlies, hvalue⟩ := (h.settles_of_placed hget).value
  obtain ⟨part', path', hlies', hvalue'⟩ := (h.settles_of_placed hget').value
  rw [hvalue, hvalue']
  intro hoverlaps
  obtain ⟨hpart, hpath | hpath⟩ := Expr.isPrefix_of_overlaps hoverlaps
  · exact hne (h.eq_of_liesAt hlies hlies' hpart hpath)
  · exact hne (h.eq_of_liesAt hlies' hlies hpart.symm hpath).symm

end Module.Planned

/-- The logic is the old body under one simultaneous substitution, which leaves alone the names without a place. Two
ports of the layout have locations of which neither is or begins the other, and the expressions that the substitution
puts in for them are no parts of one another, also where channels share ports. -/
theorem Module.port_locations_apart {m : Module} {a : Analysis} {host : HostSignals} {config : Config} {t : TokenModel}
    (h : (m.tokenModel a host config).outcome = .ok t) :
    ∃ (σ : String → Expr) (body : Stmt), t.logic = body.members ∧
      m.body.Rewritten (fun e e' => e' = e.subst σ) m.IsClockSignal body ∧
      (∀ name, t.layout.get? name = none → σ name = .ref name) ∧
      (∀ port ∈ t.layout, t.plan.standIn port = some (σ port)) ∧
      ∀ (port port' : String) (location location' : PortLocation), port ≠ port' →
        t.layout.get? port = some location → t.layout.get? port' = some location' →
          (∃ steps steps', location.steps? = some steps ∧ location'.steps? = some steps' ∧
            ¬ steps <+: steps' ∧ ¬ steps' <+: steps) ∧
          ¬ (σ port).Overlaps (σ port') := by
  have hmodel := tokenModel_ok h
  obtain ⟨body, hlogic, hrewritten⟩ := hmodel.rewritten
    (R := fun e e' => e' = e.subst t.plan.substitution) fun _ => rfl
  refine ⟨t.plan.substitution, body, hlogic, hrewritten, fun name hnone => ?_, fun port hport => ?_, ?_⟩
  · rw [TokenModel.get?_layout, Option.map_eq_none_iff] at hnone
    exact Plan.substitution_of_not_placed hnone
  · obtain ⟨location, hlocation⟩ := OrderedMap.mem_iff_get?.1 hport
    rw [TokenModel.get?_layout] at hlocation
    obtain ⟨placement, hget, -⟩ := Option.map_eq_some_iff.1 hlocation
    rw [Plan.substitution_of_placed hget, Plan.standIn, hget]
    rfl
  · intro port port' location location' hne hlocation hlocation'
    rw [TokenModel.get?_layout] at hlocation hlocation'
    obtain ⟨placement, hget, rfl⟩ := Option.map_eq_some_iff.1 hlocation
    obtain ⟨placement', hget', rfl⟩ := Option.map_eq_some_iff.1 hlocation'
    rw [Plan.substitution_of_placed hget, Plan.substitution_of_placed hget']
    exact ⟨hmodel.planned.not_isPrefix_steps hne hget hget', hmodel.planned.not_overlaps_values hne hget hget'⟩

namespace Demo.Sampler

/-- The step of the sampler is in two channels. -/
def sharedStep : Analysis := analysis.add (.input "Sampler" "again" ⟨some "clock_fast", ["in_step"]⟩)

/-- The reset stays in the first channel and the step goes with the second. What the logic has for them lies apart. -/
theorem shared_step_apart : ∃ (t : TokenModel) (σ : String → Expr) (body : Stmt),
    (sampler.tokenModel sharedStep (.ofConfig {}) {}).outcome = .ok t ∧
      t.layout.get? "in_reset" = some (.channel "in_sink" ["bits", "reset"]) ∧
      t.layout.get? "in_step" = some (.channel "again_sink" ["bits"]) ∧ t.logic = body.members ∧
      sampler.body.Rewritten (fun e e' => e' = e.subst σ) sampler.IsClockSignal body ∧
      t.plan.standIn "in_reset" = some (σ "in_reset") ∧ t.plan.standIn "in_step" = some (σ "in_step") ∧
      ¬ (σ "in_reset").Overlaps (σ "in_step") := by
  have h : ((sampler.tokenModel sharedStep (.ofConfig {}) {}).outcome.toOption.map fun t =>
      (t.layout.get? "in_reset", t.layout.get? "in_step")) =
      some (some (.channel "in_sink" ["bits", "reset"]), some (.channel "again_sink" ["bits"])) := by
    decide +kernel
  obtain ⟨t, ht, hplaces⟩ := exists_ok_of_map h
  obtain ⟨hreset, hstep⟩ := Prod.mk.inj hplaces
  obtain ⟨σ, body, hlogic, hrewritten, -, hstands, hapart⟩ := Module.port_locations_apart ht
  exact ⟨t, σ, body, ht, hreset, hstep, hlogic, hrewritten, hstands _ (OrderedMap.mem_iff_get?.2 ⟨_, hreset⟩),
    hstands _ (OrderedMap.mem_iff_get?.2 ⟨_, hstep⟩), (hapart _ _ _ _ (by decide) hreset hstep).2⟩

end Demo.Sampler

end TokenCircuit
