import TokenCircuit.Demo.Stages
import TokenCircuit.Proofs.Channelizing
import TokenCircuit.Proofs.Hygiene
import TokenCircuit.Proofs.Leaves

/-!
# Instances and the modules they are of

Every module keeps its name and its instances. Only gates are added: an instance for each clock domain of a target, and
the module that they are of, which is declared if there is any target. Whether there is such a module already is looked
up among those that are defined outside the circuit. A circuit that defines a module of that name itself ends up with
two, and this is the only way in which an instance can lose the one module that it is of
(`Circuit.channelize_links_iff`).
-/

namespace TokenCircuit

theorem Stmt.instance?_redirect (σ : String → Option Expr) (clocks : List String) (s : Stmt) :
    (s.redirect σ clocks).instance? = s.instance? := by
  cases s with
  | when pred conseq alt => rw [redirect_when]; rfl
  | block body => rw [redirect_block]; rfl
  | _ => rfl

namespace Module

variable {m rewired : Module} {a : Analysis} {layouts : OrderedMap String Layout} {host : HostSignals} {config : Config}
  {t : TokenModel}

/-- The instances in a module, each with the module that it is of. -/
def instances (m : Module) : List (String × String) := m.body.preorder.filterMap Stmt.instance?

theorem instances_rewired (h : (m.rewired a layouts host config).outcome = .ok rewired) :
    rewired.instances = m.instances :=
  filterMap_rewired h Stmt.instance?_eq_none

/-- A token-driven module has a gate for each of its domains, and the instances that it had. -/
theorem Modelled.instances_eq (h : m.Modelled a host config t) :
    t.module.instances = (t.plan.domains.all.map fun d => (d.buffer, config.clockGate)) ++ m.instances := by
  rw [instances, h.filterMap_body Stmt.instance?_eq_none Stmt.instance?_redirect, ← instances, h.declarations]
  congr 1
  have hdomains : ((t.plan.domains.declarations host config).flatMap fun s => s.preorder.filterMap Stmt.instance?) =
      t.plan.domains.all.map fun d => (d.buffer, config.clockGate) := by
    rw [ClockDomains.declarations, List.flatMap_assoc, List.map_eq_flatMap]
    rfl
  have htime :
      ((t.plan.domains.simTimeDeclaration? host).toList.flatMap fun s => s.preorder.filterMap Stmt.instance?) = [] := by
    unfold ClockDomains.simTimeDeclaration?
    cases t.plan.domains.simTime <;> rfl
  have hwires : (((t.plan.retained m).map fun port => Stmt.wire port.name port.type).flatMap fun s =>
      s.preorder.filterMap Stmt.instance?) = [] := by
    rw [List.flatMap_map]
    exact List.flatMap_eq_nil_iff.2 fun _ _ => rfl
  have hfired :
      ((t.plan.interface.data.map (·.firedReg host)).flatMap fun s => s.preorder.filterMap Stmt.instance?) = [] := by
    rw [List.flatMap_map]
    exact List.flatMap_eq_nil_iff.2 fun _ _ => rfl
  simp only [Plan.declarations, List.cons_append, List.flatMap_cons, List.flatMap_append, hdomains, htime, hwires,
    hfired, List.append_nil, List.nil_append]
  rfl

end Module

namespace Circuit

variable {c : Circuit} {a : Analysis} {config : Config} {models : List (String × TokenModel)}
  {records : List (Target × Option Target)} {out : Channelization}

/-- The names of all modules; those defined elsewhere come last. -/
def moduleNames (c : Circuit) : List String := c.modules.map (·.name) ++ c.extModules.map (·.name)

/-- No two modules share a name, and every instance is of exactly one module. -/
def Links (c : Circuit) : Prop :=
  c.moduleNames.Nodup ∧ ∀ m ∈ c.modules, ∀ x ∈ m.instances, c.moduleNames.count x.2 = 1

instance (c : Circuit) : Decidable c.Links := inferInstanceAs (Decidable (_ ∧ _))

theorem links_iff : c.Links ↔ c.moduleNames.Nodup ∧ ∀ m ∈ c.modules, ∀ x ∈ m.instances, x.2 ∈ c.moduleNames := by
  refine and_congr_right fun hnodup => forall₄_congr fun m _ x _ => ?_
  exact ⟨fun hone => List.count_pos_iff.1 (by omega), List.count_eq_one_of_mem hnodup⟩

/-! ### The gate's module -/

theorem moduleNames_declareGate : (declareGate config c).moduleNames =
    if config.clockGate ∈ c.extModules.map (·.name) then c.moduleNames else c.moduleNames ++ [config.clockGate] := by
  have hany : c.extModules.any (·.name = config.clockGate) = true ↔ config.clockGate ∈ c.extModules.map (·.name) := by
    simp [List.any_eq_true]
  unfold declareGate
  by_cases hgate : config.clockGate ∈ c.extModules.map (·.name)
  · rw [if_pos hgate, if_pos (hany.2 hgate)]
  · rw [if_neg hgate, if_neg (mt hany.1 hgate)]
    simp [moduleNames, ClockGate.module]

theorem mem_moduleNames_declareGate {name : String} :
    name ∈ (declareGate config c).moduleNames ↔ name = config.clockGate ∨ name ∈ c.moduleNames := by
  rw [moduleNames_declareGate]
  split
  · next hgate =>
    refine ⟨.inr, ?_⟩
    rintro (rfl | hname)
    · exact List.mem_append_right _ hgate
    · exact hname
  · simp [or_comm]

/-- With the gate's module, the names stay distinct unless the circuit defines a module of that name itself. -/
theorem nodup_moduleNames_declareGate (h : c.moduleNames.Nodup) :
    (declareGate config c).moduleNames.Nodup ↔ config.clockGate ∉ c.modules.map (·.name) := by
  rw [moduleNames_declareGate]
  split
  · next hgate => exact iff_of_true h fun hown => (List.nodup_append.1 h).2.2 _ hown _ hgate rfl
  · next hgate =>
    have hown : config.clockGate ∈ c.moduleNames ↔ config.clockGate ∈ c.modules.map (·.name) := by
      rw [moduleNames, List.mem_append, or_iff_left hgate]
    rw [← List.concat_eq_append, List.nodup_concat, hown, and_iff_left h]

/-! ### The instances of the whole circuit -/

namespace Channelized

theorem moduleNames_eq (h : c.Channelized a config models records out) :
    out.circuit.moduleNames = (c.gated a config).moduleNames := by
  rw [moduleNames, moduleNames, h.names, h.extModules, modules_gated]

/-- An instance is one that the circuit had, or a gate; and gates come with targets only. -/
theorem instance_cases (h : c.Channelized a config models records out) (hnames : (c.modules.map (·.name)).Nodup)
    {m' : Module} (hm' : m' ∈ out.circuit.modules) {x : String × String} (hx : x ∈ m'.instances) :
    (a.targets.toList ≠ [] ∧ x.2 = config.clockGate) ∨ ∃ m ∈ c.modules, x ∈ m.instances := by
  -- names are distinct, so the name of `m'` tells whether it is a target, the main module or one that was left alone
  have hfound : out.circuit.module? m'.name = some m' := find?_of_nodup (h.names ▸ hnames) hm'
  by_cases htarget : m'.name ∈ a.targets
  · obtain ⟨y, hy, hname⟩ : ∃ y ∈ models, y.1 = m'.name := List.mem_map.1 (h.targets ▸ htarget)
    obtain ⟨m, hm, ht, hresult⟩ := h.modelled y hy
    rw [hname, hfound] at hresult
    cases hresult
    rw [(Module.tokenModel_ok ht).instances_eq, List.mem_append] at hx
    rcases hx with hx | hx
    · obtain ⟨d, -, rfl⟩ := List.mem_map.1 hx
      exact .inl ⟨List.ne_nil_of_mem htarget, rfl⟩
    · exact .inr ⟨m, List.mem_of_find?_eq_some hm, hx⟩
  · by_cases hmain : m'.name = c.main
    · obtain ⟨top, rewired, hrewired, hresult, hok⟩ := h.rewired (hmain ▸ htarget)
      rw [← hmain, hfound] at hresult
      cases hresult
      rw [Module.instances_rewired hok] at hx
      exact .inr ⟨top, List.mem_of_find?_eq_some hrewired.found, hx⟩
    · rw [h.rest m'.name htarget hmain] at hfound
      exact .inr ⟨m', List.mem_of_find?_eq_some hfound, hx⟩

end Channelized

/-- Let the names of modules be distinct and every instance be of one of them. Then this is so afterwards, exactly if
there is no target or no module of the circuit has the name of the gate. -/
theorem channelize_links_iff {annotations : List Annotation} (hlinks : c.Links)
    (h : (c.channelize a annotations config).outcome = .ok out) :
    out.circuit.Links ↔ a.targets.toList = [] ∨ config.clockGate ∉ c.modules.map (·.name) := by
  obtain ⟨models, records, hdone⟩ := channelize_ok h
  obtain ⟨hnodup, hinstances⟩ := links_iff.1 hlinks
  have hmodules : (c.modules.map (·.name)).Nodup := hnodup.of_append_left
  rw [links_iff, hdone.moduleNames_eq, gated]
  by_cases htargets : a.targets.toList = []
  · rw [if_pos (List.isEmpty_iff.2 htargets)]
    refine iff_of_true ⟨hnodup, fun m' hm' x hx => ?_⟩ (.inl htargets)
    rcases hdone.instance_cases hmodules hm' hx with ⟨hne, -⟩ | ⟨m, hm, hx⟩
    · exact absurd htargets hne
    · exact hinstances m hm x hx
  · rw [if_neg (mt List.isEmpty_iff.1 htargets), nodup_moduleNames_declareGate hnodup, or_iff_right htargets]
    refine and_iff_left fun m' hm' x hx => mem_moduleNames_declareGate.2 ?_
    rcases hdone.instance_cases hmodules hm' hx with ⟨-, hgate⟩ | ⟨m, hm, hx⟩
    · exact .inl hgate
    · exact .inr (hinstances m hm x hx)

end Circuit

namespace Demo.Stages

/-- A circuit that declares the gate already needs no second declaration. -/
theorem declared_gate_links :
    let c : Circuit := { circuit with extModules := [ClockGate.module {}] }
    c.Links ∧ ∃ out, (c.channelize analysis [] {}).outcome = .ok out ∧ out.circuit.Links := by
  intro c
  have hok : ((c.channelize analysis [] {}).outcome.toOption.map fun _ => ()) = some () := by decide +kernel
  obtain ⟨out, hout, -⟩ := exists_ok_of_map hok
  have hlinks : c.Links := by decide +kernel
  exact ⟨hlinks, out, hout, (Circuit.channelize_links_iff hlinks hout).2 (.inr (by decide +kernel))⟩

/-- A gate that is part of the circuit, and never shut. -/
def openGate : Module where
  name := "ClockGateBuffer"
  ports := [.input "I" .clock, .input "CE" .bool, .output "O" .clock]
  body := .block [.connect (.ref "O") (.ref "I")]

/-- A circuit with a gate of its own is given another of the same name. -/
theorem two_gates_of_one_name :
    let c : Circuit := { circuit with modules := circuit.modules ++ [openGate] }
    c.Links ∧ ∃ out, (c.channelize analysis [] {}).outcome = .ok out ∧
      out.circuit.moduleNames.count "ClockGateBuffer" = 2 ∧ ¬ out.circuit.Links := by
  intro c
  have hfound : ((c.channelize analysis [] {}).outcome.toOption.map fun out =>
      decide (out.circuit.moduleNames.count "ClockGateBuffer" = 2 ∧ ¬ out.circuit.Links)) = some true := by
    decide +kernel
  obtain ⟨out, hout, hfound⟩ := exists_ok_of_map hfound
  exact ⟨by decide +kernel, out, hout, of_decide_eq_true hfound⟩

end Demo.Stages

end TokenCircuit
