import TokenCircuit.Demo.Stages
import TokenCircuit.Proofs.Channelizing
import Mathlib.Data.List.Perm.Basic

/-!
# The order of the targets

Targets are made token-driven one after the other, each from the circuit that the ones before it leave behind. A target
reads its own module only and leaves behind a module of the same name and records and a layout of its own, so two steps
for different targets can change places (`Circuit.Progress.install_comm`). What they leave behind is not the same on the
nose, since the records stand in a different order, but no later step looks at that order (`Circuit.Progress.Alike`).
-/

namespace TokenCircuit

/-! ### What the order of the targets does not enter -/

/-- Two analyses differ at most in the order of the targets. -/
structure Analysis.Reordered (a b : Analysis) : Prop where
  modules : a.modules = b.modules
  timestamps : a.timestamps = b.timestamps
  targets : a.targets.toList.Perm b.targets.toList
  staleTopPorts : a.staleTopPorts = b.staleTopPorts
  topChannels : a.topChannels = b.topChannels

namespace Analysis.Reordered

variable {a b : Analysis} {m : Module} {host : HostSignals} {config : Config}

theorem inputs (h : a.Reordered b) (module : String) : a.inputs module = b.inputs module := by
  rw [Analysis.inputs, Analysis.inputs, facts, facts, h.modules]

theorem outputs (h : a.Reordered b) (module : String) : a.outputs module = b.outputs module := by
  rw [Analysis.outputs, Analysis.outputs, facts, facts, h.modules]

theorem connectivity (h : a.Reordered b) (module : String) : a.connectivity module = b.connectivity module := by
  rw [Analysis.connectivity, Analysis.connectivity, facts, facts, h.modules]

theorem isTimestamped (h : a.Reordered b) : a.isTimestamped = b.isTimestamped := by
  funext channel
  rw [Analysis.isTimestamped, Analysis.isTimestamped, h.timestamps]

theorem dataChannels (h : a.Reordered b) {clock : ClockSource} {domains : ClockDomains} {direction : Direction}
    (specs : List (String × ChannelSpec)) (names : NameSupply) :
    ChannelContext.dataChannels ⟨m, a, clock, domains⟩ direction specs names =
      ChannelContext.dataChannels ⟨m, b, clock, domains⟩ direction specs names := by
  induction specs generalizing names with
  | nil => rfl
  | cons spec specs ih =>
    simp only [ChannelContext.dataChannels, ChannelContext.checked, h.isTimestamped, h.connectivity, ih]

theorem tokenModel (h : a.Reordered b) : m.tokenModel a host config = m.tokenModel b host config := by
  have hplan : m.plan a config = m.plan b config := by
    simp only [Module.plan, h.inputs, h.outputs, h.connectivity, h.isTimestamped, h.dataChannels]
  rw [Module.tokenModel, Module.tokenModel, hplan]

/-- Rewiring looks layouts up and does not depend on their order either. -/
theorem rewired (h : a.Reordered b) {layouts layouts' : OrderedMap String Layout}
    (hlayouts : ∀ name, layouts.get? name = layouts'.get? name) :
    m.rewired a layouts host config = m.rewired b layouts' host config := by
  have hinstances : m.tokenInstances layouts = m.tokenInstances layouts' := by
    unfold Module.tokenInstances
    congr 1
    refine List.filterMap_congr fun s _ => ?_
    cases s <;> simp [hlayouts]
  have hstale : m.staleNames a config = m.staleNames b config := by
    rw [Module.staleNames, Module.staleNames, h.staleTopPorts, h.topChannels]
  have hsurviving : m.survivingPorts a config = m.survivingPorts b config := by
    rw [Module.survivingPorts, Module.survivingPorts, hstale]
  rw [Module.rewired, Module.rewired, hinstances, hstale, hsurviving, h.topChannels]

end Analysis.Reordered

/-! ### Rename tables as maps -/

namespace RenameMap

variable {r r' : RenameMap} {records : List (Target × Option Target)} {top : String}

/-- Two tables say the same of every signal. -/
def Same (r r' : RenameMap) : Prop := ∀ target, r.entries.get? target = r'.entries.get? target

theorem Same.put (h : r.Same r') {old : Target} {new : Option Target} : (r.put old new).2.Same (r'.put old new).2 := by
  intro target
  rw [get?_entries_put, get?_entries_put, h]

theorem Same.putAll (h : r.Same r') : (r.putAll records).Same (r'.putAll records) := by
  intro target
  rw [get?_entries_putAll, get?_entries_putAll, h]

theorem Same.recordTopPorts (h : r.Same r') (members : List (String × TopChannel × String)) :
    (recordTopPorts top members r).1.Same (recordTopPorts top members r').1 ∧
      (recordTopPorts top members r).2 = (recordTopPorts top members r').2 := by
  induction members generalizing r r' with
  | nil => exact ⟨h, rfl⟩
  | cons member members ih =>
    obtain ⟨channel, c, port⟩ := member
    rw [RenameMap.recordTopPorts, RenameMap.recordTopPorts]
    split
    · exact ih h.put
    · exact ⟨h, rfl⟩

theorem Same.recordTop (h : r.Same r') (channels : OrderedMap String TopChannel) :
    (r.recordTop top channels).1.Same (r'.recordTop top channels).1 ∧
      (r.recordTop top channels).2 = (r'.recordTop top channels).2 :=
  h.recordTopPorts _

theorem Same.recordDropped (h : r.Same r') {ports : List String} :
    (recordDropped top ports r).1.Same (recordDropped top ports r').1 := by
  rw [recordDropped_fst, recordDropped_fst]
  exact h.putAll

theorem lookup_moduleRecords {module : String} {layout : Layout} {target : Target} (h : target.module ≠ module) :
    (moduleRecords module layout).lookup target = none := by
  refine lookup_eq_none fun new hrecord => ?_
  obtain ⟨entry, -, heq⟩ := List.mem_map.1 hrecord
  cases heq
  exact h rfl

theorem same_recordModule {x y : String} {layout layout' : Layout} (hne : x ≠ y) :
    ((r.recordModule x layout).recordModule y layout').Same ((r.recordModule y layout').recordModule x layout) := by
  intro target
  simp only [recordModule_eq, get?_entries_putAll, Option.or_assoc]
  congr 1
  -- at most one of the two modules has a record of the signal
  by_cases hx : target.module = x
  · have hy : target.module ≠ y := hx ▸ hne
    rw [lookup_moduleRecords hy, Option.or_none, Option.none_or]
  · rw [lookup_moduleRecords hx, Option.none_or, Option.or_none]

end RenameMap

/-! ### Steps change places -/

namespace Circuit

theorem modifyFirst_comm {m m' : Module} {x y : String} (hm : m.name = x) (hm' : m'.name = y) (hne : x ≠ y)
    (ms : List Module) : modifyFirst (fun _ => m') y (modifyFirst (fun _ => m) x ms) =
      modifyFirst (fun _ => m) x (modifyFirst (fun _ => m') y ms) := by
  have hmy : ¬ m.name = y := hm ▸ hne
  have hmx : ¬ m'.name = x := hm' ▸ hne.symm
  induction ms with
  | nil => rfl
  | cons m₀ ms ih =>
    by_cases hx : m₀.name = x
    · have hy : ¬ m₀.name = y := hx ▸ hne
      simp only [modifyFirst, if_pos hx, if_neg hy, if_neg hmy]
    · by_cases hy : m₀.name = y
      · simp only [modifyFirst, if_neg hx, if_pos hy, if_neg hmx]
      · simp only [modifyFirst, if_neg hx, if_neg hy, ih]

namespace Progress

variable {p q : Progress} {a b : Analysis} {config : Config} {x y : String} {s t : TokenModel}

/-- The same circuit, and the same records and layouts up to their order. -/
structure Alike (p q : Progress) : Prop where
  circuit : p.circuit = q.circuit
  renames : p.renames.Same q.renames
  layouts : ∀ name, p.layouts.get? name = q.layouts.get? name

theorem Alike.refl (p : Progress) : p.Alike p := ⟨rfl, fun _ => rfl, fun _ => rfl⟩

theorem Alike.trans {q' : Progress} (h : p.Alike q) (h' : q.Alike q') : p.Alike q' where
  circuit := h.circuit.trans h'.circuit
  renames target := (h.renames target).trans (h'.renames target)
  layouts name := (h.layouts name).trans (h'.layouts name)

theorem Alike.install (h : p.Alike q) : (p.install x t).Alike (q.install x t) where
  circuit := by
    show p.circuit.modifyModule x _ = q.circuit.modifyModule x _
    rw [h.circuit]
  renames := by
    show (p.renames.recordModule x t.layout).Same (q.renames.recordModule x t.layout)
    rw [RenameMap.recordModule_eq, RenameMap.recordModule_eq]
    exact h.renames.putAll
  layouts name := by
    show (p.layouts.insert x t.layout).get? name = (q.layouts.insert x t.layout).get? name
    rw [OrderedMap.get?_insert, OrderedMap.get?_insert, h.layouts]

/-- The steps for two targets can change places. -/
theorem install_comm (hs : s.module.name = x) (ht : t.module.name = y) (hne : x ≠ y) :
    ((p.install x s).install y t).Alike ((p.install y t).install x s) where
  circuit := congrArg (fun ms => { p.circuit with modules := ms }) (modifyFirst_comm hs ht hne p.circuit.modules)
  renames := RenameMap.same_recordModule hne
  layouts name := by
    show ((p.layouts.insert x s.layout).insert y t.layout).get? name =
      ((p.layouts.insert y t.layout).insert x s.layout).get? name
    simp only [OrderedMap.get?_insert]
    by_cases hx : name = x
    · have hy : ¬ name = y := hx ▸ hne
      rw [if_neg hy, if_pos hx, if_pos hx]
    · rw [if_neg hx, if_neg hx]

theorem targetModel_install (ht : t.module.name = x) (hne : y ≠ x) :
    (p.install x t).circuit.targetModel a config y = p.circuit.targetModel a config y := by
  rw [targetModel, targetModel, module?_install ht, if_neg hne]

end Progress

variable {a b : Analysis} {config : Config} {p q : Progress} {x y : String} {targets targets' : List String}

/-- Both computations fail, or they end with the same circuit and the same records and layouts up to their order. -/
abbrev SameEnd : Except ChannelizeError Progress → Except ChannelizeError Progress → Prop :=
  Agree (fun _ _ => True) Progress.Alike

theorem outcome_channelizeTargets : (channelizeTargets a config (x :: targets) p).outcome =
    p.circuit.targetModel a config x >>= fun t => (channelizeTargets a config targets (p.install x t)).outcome := by
  rw [channelizeTargets, Logged.outcome_bind, outcome_channelizeTarget]
  cases p.circuit.targetModel a config x <;> rfl

/-- Two targets are looked up in the same circuit, whichever comes first. -/
theorem outcome_channelizeTargets_two (hne : y ≠ x) : (channelizeTargets a config (x :: y :: targets) p).outcome =
    p.circuit.targetModel a config x >>= fun s => p.circuit.targetModel a config y >>= fun t =>
      (channelizeTargets a config targets ((p.install x s).install y t)).outcome := by
  rw [outcome_channelizeTargets]
  cases hs : p.circuit.targetModel a config x with
  | error e => rfl
  | ok s =>
    show (channelizeTargets a config (y :: targets) (p.install x s)).outcome = _
    rw [outcome_channelizeTargets, Progress.targetModel_install (name_of_targetModel hs) hne]
    rfl

theorem sameEnd_of_alike (h : p.Alike q) :
    SameEnd (channelizeTargets a config targets p).outcome (channelizeTargets a config targets q).outcome := by
  induction targets generalizing p q with
  | nil => exact .ok h
  | cons x targets ih =>
    rw [outcome_channelizeTargets, outcome_channelizeTargets, h.circuit]
    exact .bind_same (fun _ => trivial) fun t _ => ih h.install

theorem sameEnd_swap (hne : x ≠ y) : SameEnd (channelizeTargets a config (x :: y :: targets) p).outcome
    (channelizeTargets a config (y :: x :: targets) p).outcome := by
  rw [outcome_channelizeTargets_two hne.symm, outcome_channelizeTargets_two hne]
  -- if one target fails both orders fail, although the errors may differ if both targets do
  cases hs : p.circuit.targetModel a config x with
  | error e =>
    cases p.circuit.targetModel a config y with
    | error e' => exact .error trivial
    | ok t => exact .error trivial
  | ok s =>
    cases ht : p.circuit.targetModel a config y with
    | error e => exact .error trivial
    | ok t => exact sameEnd_of_alike (Progress.install_comm (name_of_targetModel hs) (name_of_targetModel ht) hne)

/-- The order of distinct targets does not matter. -/
theorem sameEnd_of_perm (hperm : targets.Perm targets') (hnodup : targets.Nodup) (p : Progress) :
    SameEnd (channelizeTargets a config targets p).outcome (channelizeTargets a config targets' p).outcome := by
  induction hperm generalizing p with
  | nil => exact .ok (.refl p)
  | cons x hperm ih =>
    rw [outcome_channelizeTargets, outcome_channelizeTargets]
    exact .bind_same (fun _ => trivial) fun t _ => ih hnodup.of_cons (p.install x t)
  | swap x y targets =>
    have hne : y ≠ x := fun heq => (List.nodup_cons.1 hnodup).1 (heq ▸ List.mem_cons_self ..)
    exact sameEnd_swap hne
  | trans hfirst _ ih ih' =>
    -- the list in the middle has no repetitions either
    exact (ih hnodup p).trans (ih' (hfirst.nodup_iff.1 hnodup) p) (fun _ _ => trivial) Progress.Alike.trans

end Circuit

/-! ### The whole change -/

namespace Analysis.Reordered

variable {a b : Analysis} {config : Config} {p q : Circuit.Progress}

open Circuit

theorem mem_targets (h : a.Reordered b) {name : String} : name ∈ a.targets ↔ name ∈ b.targets := h.targets.mem_iff

theorem channelizeTargets (h : a.Reordered b) (targets : List String) (p : Progress) :
    channelizeTargets a config targets p = channelizeTargets b config targets p := by
  induction targets generalizing p with
  | nil => rfl
  | cons target targets ih =>
    have hstep : channelizeTarget a config target p = channelizeTarget b config target p := by
      simp only [channelizeTarget, h.tokenModel]
    simp only [Circuit.channelizeTargets, hstep, ih]

theorem rewireMain (h : a.Reordered b) (hpq : p.Alike q) :
    SameEnd (rewireMain a config p).outcome (rewireMain b config q).outcome := by
  unfold Circuit.rewireMain
  rw [hpq.circuit]
  dsimp only
  split
  · exact .error trivial
  · next top _ =>
    rw [h.rewired hpq.layouts, h.topChannels]
    simp only [Logged.outcome_bind, Logged.outcome_liftM, Logged.outcome_emitAll]
    refine .bind_same (fun _ => trivial) fun rewired _ => ?_
    obtain ⟨hsame, hplaced⟩ := hpq.renames.recordTop b.topChannels
    rw [hplaced]
    refine .bind_same (fun _ => trivial) fun _ _ => ?_
    exact .ok ⟨rfl, hsame.recordDropped, hpq.layouts⟩

theorem channelizeMain (h : a.Reordered b) (hpq : p.Alike q) :
    SameEnd (channelizeMain a config p).outcome (channelizeMain b config q).outcome := by
  unfold Circuit.channelizeMain
  rw [hpq.circuit]
  by_cases hmain : q.circuit.main ∈ b.targets
  · rw [if_pos hmain, if_pos (h.mem_targets.2 hmain)]
    exact .ok hpq
  · rw [if_neg hmain, if_neg (mt h.mem_targets.1 hmain)]
    exact h.rewireMain hpq

theorem prune (h : a.Reordered b) (annotations : List Annotation) :
    Annotation.prune a.targets.toList annotations = Annotation.prune b.targets.toList annotations := by
  have hprotects : ∀ note : Annotation, note.protectsIn a.targets.toList = note.protectsIn b.targets.toList := by
    intro note
    unfold Annotation.protectsIn
    cases note <;> simp [h.targets.mem_iff]
  unfold Annotation.prune
  simp only [hprotects]

end Analysis.Reordered

/-- The order in which the targets are given does not matter: with either order the circuit can be made token-driven, or
with neither. The circuits that come out are equal, and so are the annotations that still apply; the rename tables say
the same of every signal. -/
theorem Circuit.channelize_target_order {a b : Analysis} (h : a.Reordered b) (c : Circuit)
    (annotations : List Annotation) (config : Config) :
    (∃ e e', (c.channelize a annotations config).outcome = .error e ∧
      (c.channelize b annotations config).outcome = .error e') ∨
    ∃ out out', (c.channelize a annotations config).outcome = .ok out ∧
      (c.channelize b annotations config).outcome = .ok out' ∧
      out.circuit = out'.circuit ∧ out.annotations = out'.annotations ∧
      ∀ target, out.renames.entries.get? target = out'.renames.entries.get? target := by
  have hempty : a.targets.toList.isEmpty = b.targets.toList.isEmpty := by
    rw [Bool.eq_iff_iff, List.isEmpty_iff, List.isEmpty_iff, List.eq_nil_iff_forall_not_mem,
      List.eq_nil_iff_forall_not_mem]
    exact forall_congr' fun _ => not_congr h.targets.mem_iff
  have hend : Agree (fun _ _ => True) (fun out out' : Channelization => out.circuit = out'.circuit ∧
      out.annotations = out'.annotations ∧ out.renames.Same out'.renames)
      (c.channelize a annotations config).outcome (c.channelize b annotations config).outcome := by
    simp only [channelize, Logged.outcome_bind, Logged.outcome_emit, Logged.outcome_emitAll, hempty, h.prune,
      h.channelizeTargets]
    refine .bind_same (fun _ => trivial) fun _ _ => ?_
    refine (sameEnd_of_perm h.targets a.targets.nodup _).bind fun p q hpq => ?_
    refine (h.channelizeMain hpq).bind fun p' q' hpq' => ?_
    refine .bind_same (fun _ => trivial) fun _ _ => .bind_same (fun _ => trivial) fun _ _ => .ok ⟨?_, rfl, hpq'.renames⟩
    show (if _ then p'.circuit else declareGate config p'.circuit) =
      if _ then q'.circuit else declareGate config q'.circuit
    rw [hpq'.circuit]
  exact hend.error_or_ok

/-- Of the two adders and the module around them either can be made token-driven first. -/
theorem Demo.Stages.either_target_first :
    let a : Analysis := { analysis with targets := .ofList ["Stage", "Top"] }
    let b : Analysis := { analysis with targets := .ofList ["Top", "Stage"] }
    a.Reordered b ∧ a.targets.toList ≠ b.targets.toList ∧
    ∃ out out', (circuit.channelize a [] {}).outcome = .ok out ∧ (circuit.channelize b [] {}).outcome = .ok out' ∧
      out.circuit = out'.circuit ∧ ∀ target, out.renames.entries.get? target = out'.renames.entries.get? target := by
  intro a b
  have hab : a.Reordered b := ⟨rfl, rfl, by decide, rfl, rfl⟩
  have hok : (circuit.channelize a [] {}).outcome.isOk = true := by decide +kernel
  refine ⟨hab, by decide, ?_⟩
  rcases Circuit.channelize_target_order hab circuit [] {} with
    ⟨e, -, he, -⟩ | ⟨out, out', hout, hout', heq, -, hrenames⟩
  · rw [he] at hok
    cases hok
  · exact ⟨out, out', hout, hout', heq, hrenames⟩

end TokenCircuit
