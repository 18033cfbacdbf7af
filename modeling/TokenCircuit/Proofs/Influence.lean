import TokenCircuit.Demo.Stages
import TokenCircuit.Proofs.Planning
import TokenCircuit.Proofs.Reachability
import Mathlib.Data.List.Perm.Subperm

/-!
# Only influence matters

The connectivity of a module is read at two places. The domain of a channel is looked for among the signals that
influence its clock, and an output waits for the inputs that own a signal with influence on one of its ports. Both ask
what the search finds and not in which order, so two sets of edges with the same chains lead to the same plan. The order
shows only where an ambiguous clock is reported, in the list of the drivers that were found.
-/

namespace TokenCircuit

/-! ### Edges with the same chains -/

namespace Connectivity

variable {g g' : Connectivity} {signal x : String}

/-- Whatever a chain of edges leads to in one of the two, a chain leads to in the other. -/
def SameInfluence (g g' : Connectivity) : Prop :=
  ∀ sink source, Relation.TransGen g.Drives sink source ↔ Relation.TransGen g'.Drives sink source

theorem SameInfluence.mem_reachable (h : g.SameInfluence g') : x ∈ g.reachable signal ↔ x ∈ g'.reachable signal := by
  rw [Connectivity.mem_reachable, Connectivity.mem_reachable, h]

theorem transGen_of_edges (h : ∀ edge ∈ g.edges.toList, edge.2 ∈ g'.reachable edge.1) {sink source : String}
    (hchain : Relation.TransGen g.Drives sink source) : Relation.TransGen g'.Drives sink source := by
  induction hchain with
  | single hedge => exact Connectivity.mem_reachable.1 (h _ hedge)
  | tail _ hedge ih => exact ih.trans (Connectivity.mem_reachable.1 (h _ hedge))

/-- It is enough to look at the edges: each has to be a chain of the other. -/
theorem sameInfluence_iff : g.SameInfluence g' ↔ (∀ edge ∈ g.edges.toList, edge.2 ∈ g'.reachable edge.1) ∧
    ∀ edge ∈ g'.edges.toList, edge.2 ∈ g.reachable edge.1 := by
  constructor
  · intro h
    refine ⟨fun edge hedge => ?_, fun edge hedge => ?_⟩
    · rw [← h.mem_reachable]
      exact Connectivity.mem_reachable.2 (.single hedge)
    · rw [h.mem_reachable]
      exact Connectivity.mem_reachable.2 (.single hedge)
  · rintro ⟨h, h'⟩ sink source
    exact ⟨transGen_of_edges h, transGen_of_edges h'⟩

instance : Decidable (g.SameInfluence g') := decidable_of_iff _ sameInfluence_iff.symm

end Connectivity

/-- For one module the two analyses tell the same channels and times, and edges with the same chains. -/
structure Analysis.SameInfluence (a b : Analysis) (module : String) : Prop where
  inputs : a.inputs module = b.inputs module
  outputs : a.outputs module = b.outputs module
  timestamps : ∀ channel, a.isTimestamped channel = b.isTimestamped channel
  connectivity : (a.connectivity module).SameInfluence (b.connectivity module)

/-- The errors are the same, except that the drivers of an ambiguous clock may be listed in another order. -/
inductive ChannelizeError.UpToOrder : ChannelizeError → ChannelizeError → Prop
  | refl (e : ChannelizeError) : UpToOrder e e
  | drivers {module channel clock : String} {drivers drivers' : List String} (h : drivers.Perm drivers') :
    UpToOrder (.ambiguousClockDriver module channel clock drivers) (.ambiguousClockDriver module channel clock drivers')

open ChannelizeError

/-! ### The two places -/

section Places

variable {g g' : Connectivity} (h : g.SameInfluence g')
include h

theorem ClockDomains.driversOf_perm {ds : ClockDomains} {signal : String} :
    (ds.driversOf g signal).Perm (ds.driversOf g' signal) := by
  refine (List.perm_ext_iff_of_nodup (nodup_eraseDups _) (nodup_eraseDups _)).2 fun x => ?_
  simp only [List.mem_eraseDups, List.mem_filter, List.mem_cons, h.mem_reachable]

theorem ClockDomains.agree_resolve {ds : ClockDomains} {isVirtual : Bool} {module channel : String}
    (clock : Option String) :
    Agree UpToOrder Eq (ds.resolve g isVirtual module channel clock)
      (ds.resolve g' isVirtual module channel clock) := by
  cases clock with
  | none => exact .refl UpToOrder.refl _
  | some clock =>
    have hperm : (ds.driversOf g clock).Perm (ds.driversOf g' clock) := driversOf_perm h
    unfold resolve
    dsimp only
    generalize ds.driversOf g clock = drivers at hperm
    generalize ds.driversOf g' clock = drivers' at hperm
    -- a single driver is the same driver on both sides, and with none or several both sides fail
    rcases drivers with _ | ⟨x, _ | ⟨y, drivers⟩⟩
    · rw [List.nil_perm.1 hperm]
      exact .refl UpToOrder.refl _
    · rw [List.singleton_perm.1 hperm]
      exact .refl UpToOrder.refl _
    · have hlength := hperm.length_eq
      rcases drivers' with _ | ⟨x', _ | ⟨y', drivers'⟩⟩
      · cases hlength
      · cases hlength
      · exact .error (.drivers hperm)

theorem Channels.dependencies_eq (cs : Channels) : cs.dependencies g = cs.dependencies g' := by
  unfold dependencies
  refine List.map_congr_left fun o _ => ?_
  have howners : ∀ n, n ∈ cs.owners (o.1.influences g) ↔ n ∈ cs.owners (o.1.influences g') := by
    intro n
    simp only [owners, DataChannel.influences, List.mem_filterMap, List.mem_flatMap, h.mem_reachable]
  simp only [howners]

end Places

/-! ### The plan and the module -/

section Plans

variable {m : Module} {a b : Analysis} {config : Config} {host : HostSignals} (h : a.SameInfluence b m.name)
include h

theorem ChannelContext.agree_checked {clock : ClockSource} {domains : ClockDomains} (channel : String)
    (spec : ChannelSpec) :
    Agree UpToOrder Eq (checked ⟨m, a, clock, domains⟩ channel spec) (checked ⟨m, b, clock, domains⟩ channel spec) := by
  unfold checked
  refine .bind_same UpToOrder.refl fun ports _ => ?_
  dsimp only
  rw [h.timestamps]
  split
  · exact .error (.refl _)
  · refine (ClockDomains.agree_resolve h.connectivity spec.clock).bind ?_
    rintro domain _ rfl
    exact .ok rfl

theorem ChannelContext.agree_dataChannels {clock : ClockSource} {domains : ClockDomains} {direction : Direction}
    (specs : List (String × ChannelSpec)) (names : NameSupply) :
    Agree UpToOrder Eq (dataChannels ⟨m, a, clock, domains⟩ direction specs names).outcome
      (dataChannels ⟨m, b, clock, domains⟩ direction specs names).outcome := by
  induction specs generalizing names with
  | nil => exact .ok rfl
  | cons spec specs ih =>
    simp only [dataChannels, Logged.outcome_bind, Logged.outcome_liftM, Logged.outcome_emit, h.timestamps]
    refine (agree_checked h spec.1 spec.2).bind ?_
    rintro ⟨ports, domain⟩ _ rfl
    refine .bind_same UpToOrder.refl fun _ _ => (ih _).bind ?_
    rintro rest _ rfl
    exact .ok rfl

theorem Module.agree_plan : Agree UpToOrder Eq (m.plan a config).outcome (m.plan b config).outcome := by
  have htimes : a.isTimestamped = b.isTimestamped := funext h.timestamps
  simp only [plan, Logged.outcome_bind, Logged.outcome_liftM, Logged.outcome_mapError, h.inputs, h.outputs, htimes]
  -- the steps before the data channels do not look at the connectivity
  refine .bind_same UpToOrder.refl fun clock _ => .bind_same UpToOrder.refl fun reserved _ =>
    .bind_same UpToOrder.refl fun domains _ => ?_
  refine (ChannelContext.agree_dataChannels h _ _).bind ?_
  rintro inputs _ rfl
  refine (ChannelContext.agree_dataChannels h _ _).bind ?_
  rintro outputs _ rfl
  refine .bind_same UpToOrder.refl fun placements _ => .ok ?_
  rw [Channels.dependencies_eq h.connectivity]

theorem Module.agree_tokenModel :
    Agree UpToOrder Eq (m.tokenModel a host config).outcome (m.tokenModel b host config).outcome := by
  simp only [tokenModel, Logged.outcome_bind, Logged.outcome_liftM, Logged.outcome_emit, Logged.outcome_emitAll]
  refine .bind_same UpToOrder.refl fun _ _ => (agree_plan h).bind ?_
  rintro plan _ rfl
  exact .refl UpToOrder.refl _

end Plans

/-- Of the connectivity of a module only the chains of edges matter. With edges that have the same chains a module
becomes the same token-driven module, with the same channels, dependencies and layout, or it fails for the same reason;
only the drivers of an ambiguous clock may be listed in another order. -/
theorem Module.tokenModel_of_same_influence {m : Module} {a b : Analysis} (h : a.SameInfluence b m.name)
    (host : HostSignals) (config : Config) :
    (∃ t t', (m.tokenModel a host config).outcome = .ok t ∧ (m.tokenModel b host config).outcome = .ok t' ∧
      t.module = t'.module ∧ t.channels = t'.channels ∧ t.dependencies = t'.dependencies ∧ t.layout = t'.layout) ∨
    ∃ e e', (m.tokenModel a host config).outcome = .error e ∧ (m.tokenModel b host config).outcome = .error e' ∧
      e.UpToOrder e' := by
  have hagree : Agree UpToOrder Eq (m.tokenModel a host config).outcome (m.tokenModel b host config).outcome :=
    agree_tokenModel h
  generalize (m.tokenModel a host config).outcome = x at hagree ⊢
  generalize (m.tokenModel b host config).outcome = y at hagree ⊢
  cases hagree with
  | error horder => exact .inr ⟨_, _, rfl, rfl, horder⟩
  | ok heq =>
    subst heq
    exact .inl ⟨_, _, rfl, rfl, rfl, rfl, rfl, rfl⟩

/-- For the adder a way through the carry is as good as edges past it, in any order. -/
theorem Demo.Stages.edges_past_carry :
    let facts : List Fact := [
      .input "Stage" "io" ⟨some "clock", ["io_lhs", "io_rhs"]⟩,
      .output "Stage" "sum" ⟨some "clock", ["sum"]⟩]
    let a := Analysis.ofFacts (facts ++ [
      .edge "Stage" "sum" "carry", .edge "Stage" "carry" "io_lhs", .edge "Stage" "carry" "io_rhs"])
    let b := Analysis.ofFacts (facts ++ [
      .edge "Stage" "carry" "io_rhs", .edge "Stage" "sum" "io_rhs", .edge "Stage" "sum" "carry",
      .edge "Stage" "carry" "io_lhs", .edge "Stage" "sum" "io_lhs", .edge "Stage" "sum" "io_rhs"])
    (a.connectivity "Stage").reachable "sum" ≠ (b.connectivity "Stage").reachable "sum" ∧
    a.SameInfluence b "Stage" ∧
    ∃ t t', (stage.tokenModel a (.ofConfig {}) {}).outcome = .ok t ∧
      (stage.tokenModel b (.ofConfig {}) {}).outcome = .ok t' ∧
      t.module = t'.module ∧ t.dependencies = t'.dependencies := by
  intro facts a b
  have hab : a.SameInfluence b stage.name := ⟨rfl, rfl, fun _ => rfl, by decide +kernel⟩
  have hok : (stage.tokenModel a (.ofConfig {}) {}).outcome.isOk = true := by decide +kernel
  refine ⟨by decide +kernel, hab, ?_⟩
  rcases Module.tokenModel_of_same_influence hab (.ofConfig {}) {} with
    ⟨t, t', ht, ht', hmodule, -, hdeps, -⟩ | ⟨e, -, he, -⟩
  · exact ⟨t, t', ht, ht', hmodule, hdeps⟩
  · rw [he] at hok
    cases hok

end TokenCircuit
