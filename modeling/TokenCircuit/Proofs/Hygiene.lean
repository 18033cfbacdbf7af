import TokenCircuit.Proofs.Protocol
import Mathlib.Data.List.Perm.Basic

/-!
# Names of a token-driven module

The names of a token-driven module are those of the host's ports, of the parts of the protocol, of the retained ports
and of what the old body declares, in some order (`Module.Modelled.ownNames_perm`). Parts are named when all other names
are known, so they repeat none of them, and a module whose names are distinct stays so.
-/

namespace TokenCircuit

theorem Module.mem_initialNames {m : Module} {config : Config} {n : String} :
    n ∈ m.initialNames config ↔ n = config.hostClock ∨ n = config.hostReset ∨ n ∈ m.ownNames := by
  rw [initialNames, NameSupply.mem_addAll, NameSupply.mem_ofModule]
  simp only [List.mem_cons, List.not_mem_nil, or_false]
  tauto

/-! ### Declared names -/

namespace Stmt

variable {σ : String → Option Expr} {clocks : List String}

theorem filterMap_members {f : Stmt → Option β} (hf : ∀ s, s.declared? = none → f s = none) (s : Stmt) :
    (s.members.flatMap fun s => s.preorder.filterMap f) = s.preorder.filterMap f := by
  cases s with
  | block body => exact (filterMap_block (hf _ rfl)).symm
  | _ => simp [members]

theorem redirect_when (pred : Expr) (conseq alt : Stmt) : (Stmt.when pred conseq alt).redirect σ clocks =
    .when (pred.redirect σ) (conseq.redirect σ clocks) (alt.redirect σ clocks) := by
  simp only [redirect, mapUp, redirectOwn, mapExprs]

theorem redirect_block (body : List Stmt) :
    (Stmt.block body).redirect σ clocks = .block (body.map (redirect σ clocks)) := by
  simp only [redirect, mapUp, redirectOwn, mapExprs, mapUpList_eq_map]
  rfl

theorem declared?_redirect (s : Stmt) : (s.redirect σ clocks).declared? = s.declared? := by
  cases s with
  | when pred conseq alt => rw [redirect_when]; rfl
  | block body => rw [redirect_block]; rfl
  | _ => rfl

/-- Redirecting a tree of statements redirects each statement of it where it stands. -/
theorem preorder_redirect (s : Stmt) : (s.redirect σ clocks).preorder = s.preorder.map (redirect σ clocks) := by
  induction s with
  | when pred conseq alt ihc iha =>
    rw [redirect_when, preorder, preorder, List.map_cons, List.map_append, ihc, iha, redirect_when]
  | block body ih =>
    rw [redirect_block, preorder, preorder, List.map_cons, redirect_block, preorderList_eq_flatMap,
      preorderList_eq_flatMap, List.flatMap_map, List.map_flatMap, List.flatMap_congr ih]
  | _ => rfl

theorem filterMap_redirect {f : Stmt → Option β} (hf : ∀ s : Stmt, f (s.redirect σ clocks) = f s) (s : Stmt) :
    (s.redirect σ clocks).preorder.filterMap f = s.preorder.filterMap f := by
  rw [preorder_redirect, List.filterMap_map]
  exact List.filterMap_congr fun s _ => hf s

end Stmt

/-! ### Names of host ports -/

namespace Channel

variable {c : Channel}

/-- A channel with a host port moves its payload through it; a virtual clock has neither. -/
theorem hostPort?_ok {found : Option Port} (h : c.hostPort? = .ok found) :
    (c.carried? = none ∧ found = none) ∨ ∃ hostPort group type, c.carried? = some (hostPort, group) ∧
      group.payloadType = .ok type ∧ found = some ⟨c.direction, hostPort, .decoupled type⟩ := by
  unfold hostPort? at h
  split at h
  · next hostPort group hcarried =>
    obtain ⟨type, htype, rfl⟩ := map_eq_ok.1 h
    exact .inr ⟨hostPort, group, type, hcarried, htype, rfl⟩
  · next hcarried =>
    cases h
    exact .inl ⟨hcarried, rfl⟩

theorem map_name_hostPort? {found : Option Port} (h : c.hostPort? = .ok found) :
    found.map (·.name) = c.hostPortName? := by
  rcases hostPort?_ok h with ⟨hcarried, rfl⟩ | ⟨hostPort, group, type, hcarried, -, rfl⟩ <;>
  simp [hostPortName?, hcarried]

theorem map_name_hostPorts {cs : Channels} {found : List (Option Port)}
    (h : List.Forall₂ (fun c port => c.hostPort? = .ok port) cs found) :
    (found.filterMap id).map (·.name) = cs.filterMap hostPortName? := by
  induction h with
  | nil => rfl
  | @cons c port cs found hport _ ih =>
    have hname := map_name_hostPort? hport
    cases port with
    | none => simpa [← hname] using ih
    | some port => simpa [← hname] using ih

end Channel

namespace Plan

variable {p : Plan} {host : HostSignals} {config : Config} {retained : List Port}

theorem declaredNames_declarations :
    (p.declarations retained host config).flatMap Stmt.declaredNames =
      p.finishingWire :: p.domains.doneInitReg :: retained.map (·.name) ++ p.domains.all.flatMap ClockDomain.names ++
        p.interface.data.map (·.fired) ++ (p.domains.simTime.map (·.reg)).toList := by
  have hdomains : (p.domains.declarations host config).flatMap Stmt.declaredNames =
      p.domains.all.flatMap ClockDomain.names := by
    rw [ClockDomains.declarations, List.flatMap_assoc]
    rfl
  have htime : (p.domains.simTimeDeclaration? host).toList.flatMap Stmt.declaredNames =
      (p.domains.simTime.map (·.reg)).toList := by
    unfold ClockDomains.simTimeDeclaration?
    cases p.domains.simTime <;> rfl
  have hwires : (retained.map fun port => Stmt.wire port.name port.type).flatMap Stmt.declaredNames =
      retained.map (·.name) := by
    rw [List.flatMap_map, List.map_eq_flatMap]
    rfl
  have hfired :
      (p.interface.data.map (·.firedReg host)).flatMap Stmt.declaredNames = p.interface.data.map (·.fired) := by
    rw [List.flatMap_map, List.map_eq_flatMap]
    rfl
  simp only [declarations, List.cons_append, List.flatMap_cons, List.flatMap_append, hdomains, htime, hwires, hfired]
  rfl

/-- No rule declares anything, at any depth. -/
theorem declaredNames_statement (g : Connectivity) (x : Rule) : (p.statement host g x).declaredNames = [] := by
  cases x <;> rfl

/-- The host ports of the channels bear the names that were set aside for them. -/
theorem map_name_channelPorts {ports : List Port} (h : p.channelPorts = .ok ports) :
    ports.map (·.name) = p.interface.data.map (·.hostPort) ++
      p.interface.clock.group?.toList.map fun g => sinkName g.name := by
  obtain ⟨found, hfound, h⟩ := bind_eq_ok.1 h
  cases h
  rw [Channel.map_name_hostPorts (mapM_eq_ok.1 hfound)]
  have hdata : ∀ ds : List DataChannel, (ds.map Channel.input).filterMap Channel.hostPortName? = ds.map (·.hostPort) ∧
      (ds.map Channel.output).filterMap Channel.hostPortName? = ds.map (·.hostPort) := by
    intro ds
    constructor <;> rw [List.filterMap_map, ← List.filterMap_eq_map] <;> rfl
  have hclock : [Channel.clock p.interface.clock].filterMap Channel.hostPortName? =
      p.interface.clock.group?.toList.map fun g => sinkName g.name := by
    cases p.interface.clock <;> rfl
  rw [Interface.hostOrder, List.filterMap_append, List.filterMap_append, (hdata _).1, (hdata _).2, hclock,
    Interface.data, List.map_append]

end Plan

/-- The names in a module are distinct, and the host's two ports have names of their own. -/
structure Module.WellNamed (m : Module) (config : Config) : Prop where
  distinct : m.ownNames.Nodup
  hosts : config.hostClock ≠ config.hostReset
  clock : config.hostClock ∉ m.ownNames
  reset : config.hostReset ∉ m.ownNames

namespace Module.Modelled

variable {m : Module} {a : Analysis} {host : HostSignals} {config : Config} {t : TokenModel}

/-- A token-driven module declares the parts of the protocol and then what the old body does, and the rules declare
nothing. -/
theorem filterMap_body (h : m.Modelled a host config t) {f : Stmt → Option β}
    (hf : ∀ s, s.declared? = none → f s = none)
    (hredirect : ∀ (σ : String → Option Expr) (clocks : List String) (s : Stmt), f (s.redirect σ clocks) = f s) :
    t.module.body.preorder.filterMap f =
      (t.declarations.flatMap fun s => s.preorder.filterMap f) ++ m.body.preorder.filterMap f := by
  have hlogic : (t.logic.flatMap fun s => s.preorder.filterMap f) = m.body.preorder.filterMap f := by
    rw [h.logic, redirectedBody, Stmt.filterMap_members hf, Stmt.filterMap_redirect (hredirect _ _)]
  have hrules : (t.rules.flatMap fun s => s.preorder.filterMap f) = [] := by
    rw [h.rules, Plan.firingRules_eq h.planned.dependencies, List.flatMap_map]
    refine List.flatMap_eq_nil_iff.2 fun x _ => List.filterMap_eq_nil_iff.2 fun s hs => hf s ?_
    exact List.filterMap_eq_nil_iff.1 (Plan.declaredNames_statement _ x) s hs
  rw [TokenModel.module, Stmt.filterMap_block (hf _ rfl), List.flatMap_append, List.flatMap_append, hlogic, hrules,
    List.append_nil]

theorem declaredNames_body (h : m.Modelled a host config t) :
    t.module.body.declaredNames = t.declarations.flatMap Stmt.declaredNames ++ m.body.declaredNames :=
  h.filterMap_body (fun _ => id) fun _ _ => Stmt.declared?_redirect

theorem map_name_ports (h : m.Modelled a host config t) :
    t.ports.map (·.name) = config.hostClock :: config.hostReset :: (t.plan.interface.data.map (·.hostPort) ++
      t.plan.interface.clock.group?.toList.map fun g => sinkName g.name) := by
  obtain ⟨ports, hports, heq⟩ := h.ports
  rw [heq, List.map_append, Plan.map_name_channelPorts hports]
  rfl

theorem ownNames_perm (h : m.Modelled a host config t) :
    t.module.ownNames.Perm ([config.hostClock, config.hostReset] ++ t.plan.parts.map t.plan.nameOf ++
      (t.plan.retained m).map (·.name) ++ m.body.declaredNames) := by
  have hports : t.module.ports.map (·.name) = _ := h.map_name_ports
  rw [ownNames, hports, h.declaredNames_body, h.declarations, Plan.declaredNames_declarations, Plan.map_nameOf_parts]
  refine List.perm_iff_count.2 fun name => ?_
  simp only [ClockDomains.names, List.count_append, List.count_cons, List.cons_append, List.nil_append]
  omega

end Module.Modelled

/-- In the token-driven form of a well-named module, the ports and all that the body declares have names of their own.
-/
theorem Module.tokenModel_names_distinct {m : Module} {a : Analysis} {host : HostSignals} {config : Config}
    {t : TokenModel} (hm : m.WellNamed config) (h : (m.tokenModel a host config).outcome = .ok t) :
    t.module.ownNames.Nodup := by
  have hmodel := tokenModel_ok h
  refine hmodel.ownNames_perm.nodup_iff.2 ?_
  obtain ⟨names, hgrows⟩ := hmodel.planned.names
  -- what the module had and keeps is a part of what it had
  have hkept : ((t.plan.retained m).map (·.name) ++ m.body.declaredNames).Sublist m.ownNames :=
    (List.filter_sublist.map _).append_right _
  have hhosts : [config.hostClock, config.hostReset].Nodup := by simpa using hm.hosts
  rw [List.append_assoc, List.append_assoc, List.nodup_append, List.nodup_append]
  refine ⟨hhosts, ⟨hgrows.nodup, hm.distinct.sublist hkept, ?_⟩, ?_⟩
  · rintro n hn _ hn' rfl
    exact hgrows.unused n hn (mem_initialNames.2 (.inr (.inr (hkept.subset hn'))))
  · rintro n hn n' hn' rfl
    have hhost : n = config.hostClock ∨ n = config.hostReset := by simpa using hn
    rcases List.mem_append.1 hn' with hpart | hown
    · refine hgrows.unused n hpart (mem_initialNames.2 ?_)
      tauto
    · rcases hhost with rfl | rfl
      · exact hm.clock (hkept.subset hown)
      · exact hm.reset (hkept.subset hown)

namespace Demo.Sampler

/-- Names that are all in use, by the logic of the sampler or by the protocol itself. -/
def crowded : Config := { finishing := "in_fired", doneInit := "in_fired", simTime := "counter" }

theorem wellNamed_crowded : sampler.WellNamed crowded where
  distinct := by decide +kernel
  hosts := by decide
  clock := by decide +kernel
  reset := by decide +kernel

/-- The finishing wire of the sampler takes the name of a fired register, which has to make way twice. -/
theorem crowded_names_distinct : sampler.WellNamed crowded ∧
    ∃ t, (sampler.tokenModel analysis (.ofConfig crowded) crowded).outcome = .ok t ∧ t.plan.finishingWire = "in_fired" ∧
      t.plan.interface.inputs.map (·.fired) = ["in_fired_1"] ∧ t.module.ownNames.Nodup := by
  have h : ((sampler.tokenModel analysis (.ofConfig crowded) crowded).outcome.toOption.map fun t =>
      (t.plan.finishingWire, t.plan.interface.inputs.map (·.fired))) = some ("in_fired", ["in_fired_1"]) := by
    decide +kernel
  obtain ⟨t, ht, heq⟩ := exists_ok_of_map h
  obtain ⟨hwire, hfired⟩ := Prod.mk.inj heq
  exact ⟨wellNamed_crowded, t, ht, hwire, hfired, Module.tokenModel_names_distinct wellNamed_crowded ht⟩

end Demo.Sampler

end TokenCircuit
