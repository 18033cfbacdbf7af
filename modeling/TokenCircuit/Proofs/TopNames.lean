import TokenCircuit.Proofs.Joining
import TokenCircuit.Proofs.Relocation

/-!
# Names of a rewired module

A rewired module has the host's two ports, the ports that stay and the host ports of the top channels, and it declares
what it declared before (`Module.ownNames_rewired`). A host port bears the name that its channel gives it, and nothing
looks whether that name is free: unlike a token-driven module, a rewired one is never refused for a name. So its
names are distinct exactly if the channels happen to bring new ones (`Module.rewired_names_distinct_iff`).
-/

namespace TokenCircuit

namespace Module

variable {m rewired : Module} {a : Analysis} {layouts : OrderedMap String Layout} {host : HostSignals} {config : Config}

/-- The names in a rewired module that do not come from a channel. -/
def keptNames (m : Module) (a : Analysis) (config : Config) : List String :=
  config.hostClock :: config.hostReset :: ((m.survivingPorts a config).map (·.name) ++ m.body.declaredNames)

theorem Rewired.map_name_ports (h : m.Rewired a config rewired) : rewired.ports.map (·.name) =
    config.hostClock :: config.hostReset :: ((m.survivingPorts a config).map (·.name) ++ a.topHostPorts) := by
  obtain ⟨channelPorts, hall, hports⟩ := h.ports
  have hhosts : (config.hostPorts.map m.portOr).map (·.name) = [config.hostClock, config.hostReset] := by
    simp [Config.hostPorts, name_portOr, Port.input]
  rw [hports, List.map_append, List.map_append, hhosts, map_name_topChannelPorts hall, List.append_assoc]
  rfl

theorem ownNames_rewired (h : (m.rewired a layouts host config).outcome = .ok rewired) :
    rewired.ownNames.Perm (m.keptNames a config ++ a.topHostPorts) := by
  have hdeclared : rewired.body.declaredNames = m.body.declaredNames := filterMap_rewired h fun _ => id
  rw [ownNames, (rewired_ok h).map_name_ports, hdeclared, keptNames]
  -- the two sides differ in where the host ports of the channels stand
  refine List.perm_iff_count.2 fun name => ?_
  simp only [List.count_append, List.count_cons, List.cons_append]
  omega

/-- The names that are kept were distinct before. Those of the host may be new, so they must not be declared. -/
theorem nodup_keptNames (hnames : m.ownNames.Nodup) (hhosts : config.hostClock ≠ config.hostReset) :
    (m.keptNames a config).Nodup ↔
      config.hostClock ∉ m.body.declaredNames ∧ config.hostReset ∉ m.body.declaredNames := by
  have hkept : ((m.survivingPorts a config).map (·.name) ++ m.body.declaredNames).Nodup :=
    hnames.sublist ((List.filter_sublist.map _).append_right _)
  have hport : ∀ name ∈ (m.survivingPorts a config).map (·.name),
      name ≠ config.hostClock ∧ name ≠ config.hostReset := by
    intro name hname
    obtain ⟨q, hq, rfl⟩ := List.mem_map.1 hname
    have hstays := (List.mem_filter.1 hq).2
    simp only [Bool.and_eq_true, decide_eq_true_eq] at hstays
    exact ⟨hstays.1.2, hstays.2⟩
  have hclock : config.hostClock ∉ (m.survivingPorts a config).map (·.name) := fun h => (hport _ h).1 rfl
  have hreset : config.hostReset ∉ (m.survivingPorts a config).map (·.name) := fun h => (hport _ h).2 rfl
  rw [keptNames, List.nodup_cons, List.nodup_cons]
  simp only [List.mem_cons, List.mem_append, hhosts, hclock, hreset, hkept, false_or, and_true]

/-- Rewiring fails for a port that is missing or a payload that cannot be formed, and for no other reason. -/
theorem error_of_rewired {e : ChannelizeError} (h : (m.rewired a layouts host config).outcome = .error e) :
    (∃ channel port, e = .unknownPort m.name channel port) ∨ ∃ cause, e = .payload cause := by
  simp only [rewired, Logged.outcome_bind, Logged.outcome_liftM, Logged.outcome_emit, Logged.outcome_emitAll] at h
  rcases bind_eq_error.1 h with h | ⟨-, -, h⟩
  · cases h
  rcases bind_eq_error.1 h with h | ⟨channelPorts, -, h⟩
  · obtain ⟨⟨channel, c⟩, -, h⟩ := exists_error_of_mapM h
    rcases bind_eq_error.1 h with h | ⟨ports, -, h⟩
    · obtain ⟨name, -, h⟩ := exists_error_of_mapM h
      split at h
      · cases h
      · cases h
        exact .inl ⟨channel, name, rfl⟩
    · rcases bind_eq_error.1 h with h | ⟨type, -, h⟩
      · obtain ⟨cause, -, rfl⟩ := mapError_eq_error.1 h
        exact .inr ⟨cause, rfl⟩
      · cases h
  · rcases bind_eq_error.1 h with h | ⟨-, -, h⟩ <;> cases h

/-- A name that is taken never stops the rewiring of a module. If the names in the module were distinct, they are so
afterwards exactly if the module declares nothing under the names of the host's ports and no host port of a top channel
has the name of one of the host's, of a port that stays or of a declaration. -/
theorem rewired_names_distinct_iff (hnames : m.ownNames.Nodup) (hhosts : config.hostClock ≠ config.hostReset) :
    (∀ module channel port,
      (m.rewired a layouts host config).outcome ≠ .error (.hostPortCollision module channel port)) ∧
    ∀ rewired, (m.rewired a layouts host config).outcome = .ok rewired → (rewired.ownNames.Nodup ↔
      (config.hostClock ∉ m.body.declaredNames ∧ config.hostReset ∉ m.body.declaredNames) ∧
      ∀ name ∈ a.topHostPorts, name ∉ m.keptNames a config) := by
  refine ⟨fun module channel port h => ?_, fun rewired h => ?_⟩
  · rcases error_of_rewired h with ⟨_, _, h⟩ | ⟨_, h⟩ <;> cases h
  · rw [(ownNames_rewired h).nodup_iff, List.nodup_append, nodup_keptNames hnames hhosts]
    refine and_congr_right fun _ => ⟨fun hdistinct name hname hkept => ?_, fun hfree => ⟨a.nodup_topHostPorts, ?_⟩⟩
    · exact hdistinct.2 name hkept name hname rfl
    · rintro name hkept _ hname rfl
      exact hfree name hname hkept

end Module

namespace Demo.Stages

/-- The module around the adders, with a wire of the given name. -/
def tapped (wire : String) : Module := { top with body := .block (.wire wire (.uint 16) :: top.body.members) }

/-- A wire with the name of a channel is no obstacle to the channel's host port. -/
theorem tapped_names_distinct : (tapped "io").ownNames.Nodup ∧ ∃ rewired,
    ((tapped "io").rewired analysis adderLayouts (.ofConfig {}) {}).outcome = .ok rewired ∧ rewired.ownNames.Nodup := by
  have hok : (((tapped "io").rewired analysis adderLayouts (.ofConfig {}) {}).outcome.toOption.map fun _ => ()) =
      some () := by
    decide +kernel
  obtain ⟨rewired, hrewired, -⟩ := exists_ok_of_map hok
  have hnames : (tapped "io").ownNames.Nodup := by decide +kernel
  have hiff := (Module.rewired_names_distinct_iff hnames (by decide)).2 rewired hrewired
  exact ⟨hnames, rewired, hrewired, hiff.2 (by decide +kernel)⟩

/-- A wire with the name of a channel's host port stays, and the host port comes on top of it. -/
theorem tapped_names_clash : (tapped "io_sink").ownNames.Nodup ∧ ∃ rewired,
    ((tapped "io_sink").rewired analysis adderLayouts (.ofConfig {}) {}).outcome = .ok rewired ∧
      "io_sink" ∈ rewired.ports.map (·.name) ∧ "io_sink" ∈ rewired.body.declaredNames ∧ ¬ rewired.ownNames.Nodup := by
  have hclash : (((tapped "io_sink").rewired analysis adderLayouts (.ofConfig {}) {}).outcome.toOption.map fun m =>
      decide ("io_sink" ∈ m.ports.map (·.name) ∧ "io_sink" ∈ m.body.declaredNames ∧ ¬ m.ownNames.Nodup)) =
      some true := by
    decide +kernel
  obtain ⟨rewired, hrewired, hclash⟩ := exists_ok_of_map hclash
  exact ⟨by decide +kernel, rewired, hrewired, of_decide_eq_true hclash⟩

end Demo.Stages

end TokenCircuit
