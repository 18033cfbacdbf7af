import TokenCircuit.Demo.Sampler
import TokenCircuit.Proofs.Evaluation
import TokenCircuit.Proofs.Placing

/-!
# The logic of a token-driven module

The logic of a module comes back with its ports redirected. `Stmt.Rewritten` says what must not change on the way: the
tree of statements with all that it declares. Every expression in it is replaced by its simultaneous substitution, and
only the left side of a connection that drives a clock stays as it was. The substitution puts in for a port what the
last channel that lists the port has for it, so a redirected expression means, under every interpretation, what the old
one means when the ports mean what stands for them.
-/

namespace TokenCircuit

universe u

/-- Whether a left side drives one of the clocks. -/
def Expr.DrivesClock (clock : String → Prop) (loc : Expr) : Prop := ∃ name, loc.root? = some name ∧ clock name

/-- A left side stays if it drives a clock; any other is replaced. -/
def Expr.LeftSide (R : Expr → Expr → Prop) (clock : String → Prop) (loc loc' : Expr) : Prop :=
  (loc.DrivesClock clock ∧ loc' = loc) ∨ (¬ loc.DrivesClock clock ∧ R loc loc')

namespace Stmt

/-- Two statements are the same tree, with the same declarations; each expression in the first is related by `R` to the
one at its place in the second, except for the left sides that drive a clock. -/
inductive Rewritten (R : Expr → Expr → Prop) (clock : String → Prop) : Stmt → Stmt → Prop
  | wire {name type} : Rewritten R clock (.wire name type) (.wire name type)
  | reg {name type c c' r r' i i'} : R c c' → R r r' → R i i' →
      Rewritten R clock (.reg name type c r i) (.reg name type c' r' i')
  | inst {name module} : Rewritten R clock (.inst name module) (.inst name module)
  | node {name value value'} : R value value' → Rewritten R clock (.node name value) (.node name value')
  | when {pred pred' conseq conseq' alt alt'} : R pred pred' → Rewritten R clock conseq conseq' →
      Rewritten R clock alt alt' → Rewritten R clock (.when pred conseq alt) (.when pred' conseq' alt')
  | block {body body'} : List.Forall₂ (Rewritten R clock) body body' → Rewritten R clock (.block body) (.block body')
  | partialConnect {loc loc' value value'} : loc.LeftSide R clock loc' → R value value' →
      Rewritten R clock (.partialConnect loc value) (.partialConnect loc' value')
  | connect {loc loc' value value'} : loc.LeftSide R clock loc' → R value value' →
      Rewritten R clock (.connect loc value) (.connect loc' value')
  | invalid {target target'} : R target target' → Rewritten R clock (.invalid target) (.invalid target')
  | skip : Rewritten R clock .skip .skip

variable {R : Expr → Expr → Prop} {clock : String → Prop} {σ : String → Option Expr} {clocks : List String}

theorem leftSide_redirect (hR : ∀ e, R e (e.redirect σ)) (hclock : ∀ name, name ∈ clocks ↔ clock name) (loc : Expr) :
    loc.LeftSide R clock (if loc.isRootedIn clocks then loc else loc.redirect σ) := by
  have hiff : loc.isRootedIn clocks = true ↔ loc.DrivesClock clock := by
    unfold Expr.isRootedIn Expr.DrivesClock
    cases loc.root? <;> simp [hclock]
  by_cases h : loc.DrivesClock clock
  · rw [if_pos (hiff.2 h)]
    exact .inl ⟨h, rfl⟩
  · rw [if_neg (mt hiff.1 h)]
    exact .inr ⟨h, hR loc⟩

theorem rewritten_redirect (hR : ∀ e, R e (e.redirect σ)) (hclock : ∀ name, name ∈ clocks ↔ clock name) (s : Stmt) :
    s.Rewritten R clock (s.redirect σ clocks) := by
  unfold redirect
  induction s with
  | wire name type => exact .wire
  | reg name type c r i => exact .reg (hR c) (hR r) (hR i)
  | inst name module => exact .inst
  | node name value => exact .node (hR value)
  | when pred conseq alt ihc iha =>
    simp only [mapUp, redirectOwn, mapExprs]
    exact .when (hR pred) ihc iha
  | block body ih =>
    simp only [mapUp, redirectOwn, mapExprs, mapUpList_eq_map]
    refine .block (List.forall₂_map_right_iff.2 (List.forall₂_same.2 ih))
  | partialConnect loc value => exact .partialConnect (leftSide_redirect hR hclock loc) (hR value)
  | connect loc value => exact .connect (leftSide_redirect hR hclock loc) (hR value)
  | invalid target => exact .invalid (hR target)
  | skip => exact .skip

end Stmt

/-- A port, wire or register that is a clock. -/
def Module.IsClockSignal (m : Module) (name : String) : Prop :=
  (∃ port ∈ m.ports, port.name = name ∧ port.type = .clock) ∨ .wire name .clock ∈ m.body.preorder ∨
    ∃ c r i, .reg name .clock c r i ∈ m.body.preorder

theorem SignalType.isClock_iff {type : SignalType} : type.isClock = true ↔ type = .clock := by
  cases type <;> simp [isClock]

theorem Stmt.declaredClock?_eq_some {s : Stmt} {name : String} :
    s.declaredClock? = some name ↔ s = .wire name .clock ∨ ∃ c r i, s = .reg name .clock c r i := by
  cases s <;> simp [declaredClock?, SignalType.isClock_iff, and_comm]

theorem Module.mem_clockSignals {m : Module} {name : String} : name ∈ m.clockSignals ↔ m.IsClockSignal name := by
  unfold clockSignals IsClockSignal
  simp only [List.mem_append, List.mem_map, List.mem_filter, List.mem_filterMap, Stmt.declaredClock?_eq_some,
    Port.isClock, SignalType.isClock_iff]
  refine or_congr ⟨?_, ?_⟩ ⟨?_, ?_⟩
  · rintro ⟨port, ⟨hport, htype⟩, hname⟩
    exact ⟨port, hport, hname, htype⟩
  · rintro ⟨port, hport, hname, htype⟩
    exact ⟨port, ⟨hport, htype⟩, hname⟩
  · rintro ⟨s, hs, rfl | ⟨c, r, i, rfl⟩⟩
    exacts [.inl hs, .inr ⟨c, r, i, hs⟩]
  · rintro (hs | ⟨c, r, i, hs⟩)
    exacts [⟨_, hs, .inl rfl⟩, ⟨_, hs, .inr ⟨c, r, i, rfl⟩⟩]

/-- What stands for a name in the logic: the name itself, unless a channel has something in its place. -/
def Plan.substitution (p : Plan) (name : String) : Expr := (p.standIn name).getD (.ref name)

theorem Plan.substitution_of_placed {p : Plan} {name : String} {placement : Placement}
    (h : p.placements.get? name = some placement) : p.substitution name = placement.value := by
  rw [substitution, standIn, h]
  rfl

theorem Plan.substitution_of_not_placed {p : Plan} {name : String} (h : p.placements.get? name = none) :
    p.substitution name = .ref name := by
  rw [substitution, standIn, h]
  rfl

/-- The logic is the old body, rewritten by any relation that substitution obeys. -/
theorem Module.Modelled.rewritten {m : Module} {a : Analysis} {host : HostSignals} {config : Config} {t : TokenModel}
    (h : m.Modelled a host config t) {R : Expr → Expr → Prop} (hR : ∀ e, R e (e.subst t.plan.substitution)) :
    ∃ body, t.logic = body.members ∧ m.body.Rewritten R m.IsClockSignal body := by
  refine ⟨m.body.redirect t.plan.standIn m.clockSignals, h.logic, ?_⟩
  refine Stmt.rewritten_redirect (fun e => ?_) (fun _ => mem_clockSignals) _
  rw [Expr.redirect_eq_subst]
  exact hR e

/-- Between the declarations and the rules stands the old body: the same tree of statements, in which each expression
is its simultaneous substitution and so means, however expressions are interpreted, what the old one means where every
port means what stands for it. A port that channels list is stood for as the last of them has it, and all other names
stand for themselves. -/
theorem Module.logic_is_substituted_body {m : Module} {a : Analysis} {host : HostSignals} {config : Config}
    {t : TokenModel} (h : (m.tokenModel a host config).outcome = .ok t) :
    ∃ (σ : String → Expr) (body : Stmt),
      t.module.body = .block (t.plan.declarations (t.plan.retained m) host config ++ body.members ++
        t.plan.firingRules host) ∧
      m.body.Rewritten (fun e e' => e' = e.subst σ ∧ ∀ (V : Type u) (I : Interpretation V) (r : String → V),
        e'.eval I r = e.eval I fun name => (σ name).eval I r) m.IsClockSignal body ∧
      (∀ (pre : Channels) (c : Channel) (post : Channels) (port : String), t.channels = pre ++ c :: post →
        c.Lists port → (∀ c' ∈ post, ¬ c'.Lists port) → c.StandsFor t.plan.domains port (σ port)) ∧
      ∀ name, (∀ c ∈ t.channels, ¬ c.Lists name) → σ name = .ref name := by
  have hmodel := tokenModel_ok h
  obtain ⟨body, hlogic, hrewritten⟩ := hmodel.rewritten
    (R := fun e e' => e' = e.subst t.plan.substitution ∧ ∀ (V : Type u) (I : Interpretation V) (r : String → V),
      e'.eval I r = e.eval I fun name => (t.plan.substitution name).eval I r)
    fun e => ⟨rfl, fun V I r => Expr.eval_subst ..⟩
  refine ⟨t.plan.substitution, body, ?_, hrewritten, ?_, ?_⟩
  · rw [← hmodel.declarations, ← hmodel.rules, ← hlogic]
    rfl
  · intro pre c post port hcs hport hlast
    obtain ⟨placement, hget, hstands⟩ := hmodel.planned.placed_by_last hcs hport hlast
    rwa [Plan.substitution_of_placed hget]
  · intro name hname
    exact Plan.substitution_of_not_placed (hmodel.planned.not_placed hname)

/-- In the logic of the sampler the step comes from its field in the payload, and the counter stays. -/
theorem Demo.Sampler.step_is_substituted : ∃ (t : TokenModel) (σ : String → Expr) (body : Stmt),
    (sampler.tokenModel analysis (.ofConfig {}) {}).outcome = .ok t ∧
      t.module.body = .block (t.plan.declarations (t.plan.retained sampler) (.ofConfig {}) {} ++ body.members ++
        t.plan.firingRules (.ofConfig {})) ∧
      sampler.body.Rewritten (fun e e' => e' = e.subst σ ∧ ∀ (V : Type) (I : Interpretation V) (r : String → V),
        e'.eval I r = e.eval I fun name => (σ name).eval I r) sampler.IsClockSignal body ∧
      σ "in_step" = (Expr.ref "in_sink").follow ["bits", "step"] ∧ σ "counter" = .ref "counter" := by
  have hfacts : ((sampler.tokenModel analysis (.ofConfig {}) {}).outcome.toOption.map fun t =>
      (t.channels.map fun c => c.ports.map (·.name),
        t.plan.interface.inputs.map fun d => ((Channel.input d).payload "in_step").toOption)) =
      some ([["clock_fast", "clock_slow"], ["in_reset", "in_step"], ["count"], ["sample"]],
        [some ((Expr.ref "in_sink").follow ["bits", "step"])]) := by
    decide +kernel
  obtain ⟨t, ht, hfacts⟩ := exists_ok_of_map hfacts
  obtain ⟨hports, hpayload⟩ := Prod.mk.inj hfacts
  obtain ⟨σ, body, hbody, hrewritten, hlisted, hunlisted⟩ := Module.logic_is_substituted_body ht
  refine ⟨t, σ, body, ht, hbody, hrewritten, ?_, ?_⟩
  · obtain ⟨d, hd, hstep⟩ := List.map_eq_singleton_iff.1 hpayload
    have hchannels :
        t.channels = [.clock t.plan.interface.clock] ++ .input d :: t.plan.interface.outputs.map .output := by
      rw [TokenModel.channels, Interface.channels, hd]
      rfl
    rw [hchannels] at hports
    obtain ⟨hown, hothers⟩ := List.cons.inj (List.cons.inj hports).2
    have hown : (Channel.input d).ports.map (·.name) = ["in_reset", "in_step"] := hown
    have hlist : (Channel.input d).Lists "in_step" := by
      rw [Channel.Lists, hown]
      decide
    have hlast : ∀ names ∈ (t.plan.interface.outputs.map Channel.output).map fun c => c.ports.map (·.name),
        "in_step" ∉ names := by
      rw [hothers]
      decide
    have hstands : (Channel.input d).payload "in_step" = .ok (σ "in_step") :=
      hlisted _ _ _ _ hchannels hlist fun c hc => hlast _ (List.mem_map_of_mem hc)
    rw [hstands] at hstep
    exact Option.some.inj hstep
  · have hnone : ∀ names ∈ t.channels.map fun c => c.ports.map (·.name), "counter" ∉ names := by
      rw [hports]
      decide
    exact hunlisted "counter" fun c hc => hnone _ (List.mem_map_of_mem hc)

end TokenCircuit
