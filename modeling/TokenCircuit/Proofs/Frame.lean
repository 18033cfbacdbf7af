import TokenCircuit.Demo.Stages
import TokenCircuit.Proofs.Channelizing

/-!
# What stays as it is

A circuit is changed by replacing modules under their own names, and a name stands for the first module that bears it.
So the list of names never changes, nor does a module that repeats the name of an earlier one (`Circuit.SameFrame`). The
first module of a name becomes what is found under that name in the end, and `Circuit.Becomes` lists the three ways for
that.
-/

namespace TokenCircuit

namespace Circuit

variable {c c' c'' : Circuit} {a : Analysis} {config : Config} {i : Nat} {m : Module} {name : String}

theorem getElem?_modifyFirst {f : Module → Module} {ms : List Module} : (modifyFirst f name ms)[i]? =
    ms[i]?.map fun m => if m.name = name ∧ name ∉ (ms.take i).map (·.name) then f m else m := by
  induction ms generalizing i with
  | nil => simp [modifyFirst]
  | cons x ms ih =>
    rw [modifyFirst]
    cases i with
    | zero => split <;> simp_all
    | succ i =>
      by_cases hx : x.name = name
      · simp [hx]
      · have hne : ¬ name = x.name := fun h => hx h.symm
        simp [hx, hne, ih]

/-- The first module of a name is the one that is found under it. -/
theorem getElem?_eq_module? (hname : (c.modules.map (·.name))[i]? = some name)
    (hfirst : name ∉ (c.modules.map (·.name)).take i) : c.modules[i]? = c.module? name := by
  rw [List.getElem?_map, Option.map_eq_some_iff] at hname
  obtain ⟨m, hm, rfl⟩ := hname
  obtain ⟨hi, rfl⟩ := List.getElem?_eq_some_iff.1 hm
  rw [hm, eq_comm, module?, List.find?_eq_some_iff_getElem]
  refine ⟨beq_self_eq_true _, i, hi, rfl, fun j hj => ?_⟩
  have hbefore : c.modules[j].name ∈ (c.modules.map (·.name)).take i := by
    rw [← List.map_take]
    exact List.mem_map_of_mem (List.mem_take_iff_getElem.2 ⟨j, by omega, rfl⟩)
  simp only [Bool.not_eq_true', beq_eq_false_iff_ne]
  exact fun heq => hfirst (heq ▸ hbefore)

/-! ### The frame of a change -/

/-- Nothing but the first modules of their names may differ. -/
structure SameFrame (c c' : Circuit) : Prop where
  main : c'.main = c.main
  names : c'.modules.map (·.name) = c.modules.map (·.name)
  repeats : ∀ i m, c.modules[i]? = some m → m.name ∈ (c.modules.map (·.name)).take i → c'.modules[i]? = some m

theorem SameFrame.refl (c : Circuit) : c.SameFrame c := ⟨rfl, rfl, fun _ _ hm _ => hm⟩

theorem SameFrame.trans (h : c.SameFrame c') (h' : c'.SameFrame c'') : c.SameFrame c'' where
  main := h'.main.trans h.main
  names := h'.names.trans h.names
  repeats i m hm hrepeats := h'.repeats i m (h.repeats i m hm hrepeats) (h.names ▸ hrepeats)

theorem SameFrame.modifyModule {m' : Module} (hname : m'.name = name) :
    c.SameFrame (c.modifyModule name fun _ => m') where
  main := rfl
  names := map_name_modifyFirst hname c.modules
  repeats i m hm hrepeats := by
    rw [← List.map_take] at hrepeats
    have hlater : ¬ (m.name = name ∧ name ∉ (c.modules.take i).map (·.name)) := fun h => h.2 (h.1 ▸ hrepeats)
    show (modifyFirst _ name c.modules)[i]? = some m
    rw [getElem?_modifyFirst, hm, Option.map_some, if_neg hlater]

theorem SameFrame.gated (h : c.SameFrame c') : c.SameFrame (c'.gated a config) where
  main := by
    rw [← h.main]
    unfold Circuit.gated declareGate
    split
    · rfl
    · split <;> rfl
  names := by rw [modules_gated, h.names]
  repeats i m hm hrepeats := by rw [modules_gated, h.repeats i m hm hrepeats]

theorem sameFrame_channelizeTarget {target : String} {p p' : Progress}
    (h : (channelizeTarget a config target p).outcome = .ok p') : p.circuit.SameFrame p'.circuit := by
  rw [outcome_channelizeTarget] at h
  obtain ⟨t, ht, h⟩ := bind_eq_ok.1 h
  cases h
  exact .modifyModule (name_of_targetModel ht)

theorem sameFrame_channelizeTargets {targets : List String} {p p' : Progress}
    (h : (channelizeTargets a config targets p).outcome = .ok p') : p.circuit.SameFrame p'.circuit := by
  induction targets generalizing p with
  | nil =>
    cases h
    exact .refl _
  | cons target targets ih =>
    simp only [channelizeTargets, Logged.outcome_bind] at h
    obtain ⟨q, hstep, h⟩ := bind_eq_ok.1 h
    exact (sameFrame_channelizeTarget hstep).trans (ih h)

theorem sameFrame_channelizeMain {p p' : Progress} (h : (channelizeMain a config p).outcome = .ok p') :
    p.circuit.SameFrame p'.circuit := by
  unfold channelizeMain at h
  split at h
  · simp only [Logged.outcome_bind, Logged.outcome_emit] at h
    cases h
    exact .refl _
  · obtain ⟨top, rewired, _, ⟨htop, hok, _⟩, _, _, hreplaced⟩ := rewireMain_ok h
    rw [hreplaced]
    exact .modifyModule (hok.name.trans (name_of_module? htop))

theorem sameFrame_channelize {annotations : List Annotation} {out : Channelization}
    (h : (c.channelize a annotations config).outcome = .ok out) : c.SameFrame out.circuit := by
  obtain ⟨p, p', htargets, hmain, rfl⟩ := channelize_steps h
  exact ((sameFrame_channelizeTargets htargets).trans (sameFrame_channelizeMain hmain)).gated

/-! ### The modules, one by one -/

/-- What a module at a position turns into. A name stands for its first module: that one is made token-driven if the
name is a target, and rewired if it is the main one of the circuit. -/
inductive Becomes (c : Circuit) (a : Analysis) (config : Config) (i : Nat) (m : Module) : Module → Prop
  | tokenDriven {t : TokenModel} (first : m.name ∉ (c.modules.take i).map (·.name)) (target : m.name ∈ a.targets)
    (h : (m.tokenModel a (.ofConfig config) config).outcome = .ok t) : Becomes c a config i m t.module
  | rewired {m' : Module} (first : m.name ∉ (c.modules.take i).map (·.name)) (noTarget : m.name ∉ a.targets)
    (main : m.name = c.main) (h : (m.rewired a (c.layouts a config) (.ofConfig config) config).outcome = .ok m') :
    Becomes c a config i m m'
  | same (h : m.name ∈ (c.modules.take i).map (·.name) ∨ m.name ∉ a.targets ∧ m.name ≠ c.main) :
      Becomes c a config i m m

namespace Channelized

variable {models : List (String × TokenModel)} {records : List (Target × Option Target)} {out : Channelization}

theorem becomes_of_first (h : c.Channelized a config models records out) (hm : c.module? m.name = some m)
    (hfirst : m.name ∉ (c.modules.take i).map (·.name)) :
    ∃ m', out.circuit.module? m.name = some m' ∧ c.Becomes a config i m m' := by
  by_cases htarget : m.name ∈ a.targets
  · obtain ⟨x, hx, hname⟩ : ∃ x ∈ models, x.1 = m.name := List.mem_map.1 (h.targets ▸ htarget)
    obtain ⟨m₀, hm₀, ht, hresult⟩ := h.modelled x hx
    rw [hname] at hm₀ hresult
    cases hm.symm.trans hm₀
    exact ⟨x.2.module, hresult, .tokenDriven hfirst htarget ht⟩
  · by_cases hmain : m.name = c.main
    · obtain ⟨top, rewired, hrewired, hresult, hok⟩ := h.rewired (hmain ▸ htarget)
      cases (hmain ▸ hm).symm.trans hrewired.found
      exact ⟨rewired, hmain ▸ hresult, .rewired hfirst htarget hmain hok⟩
    · exact ⟨m, (h.rest m.name htarget hmain).trans hm, .same (.inr ⟨htarget, hmain⟩)⟩

theorem becomes (h : c.Channelized a config models records out) (hframe : c.SameFrame out.circuit)
    (hm : c.modules[i]? = some m) : ∃ m', out.circuit.modules[i]? = some m' ∧ c.Becomes a config i m m' := by
  by_cases hrepeats : m.name ∈ (c.modules.take i).map (·.name)
  · exact ⟨m, hframe.repeats i m hm (List.map_take ▸ hrepeats), .same (.inl hrepeats)⟩
  · -- both lists have the same names, so the module is the first of its name in both
    have hname : (c.modules.map (·.name))[i]? = some m.name := by rw [List.getElem?_map, hm, Option.map_some]
    have hfirst : m.name ∉ (c.modules.map (·.name)).take i := List.map_take ▸ hrepeats
    have hfound : c.module? m.name = some m := (getElem?_eq_module? hname hfirst).symm.trans hm
    have hfound' : out.circuit.modules[i]? = out.circuit.module? m.name :=
      getElem?_eq_module? (hframe.names ▸ hname) (hframe.names ▸ hfirst)
    obtain ⟨m', hm', hbecomes⟩ := h.becomes_of_first hfound hrepeats
    exact ⟨m', hfound'.trans hm', hbecomes⟩

theorem mem_names (h : c.Channelized a config models records out) (hname : name ∈ a.targets ∨ name = c.main) :
    name ∈ c.modules.map (·.name) := by
  have hfound : ∃ m, c.module? name = some m := by
    by_cases htarget : name ∈ a.targets
    · obtain ⟨x, hx, rfl⟩ : ∃ x ∈ models, x.1 = name := List.mem_map.1 (h.targets ▸ htarget)
      obtain ⟨m, hm, -⟩ := h.modelled x hx
      exact ⟨m, hm⟩
    · obtain rfl := hname.resolve_left htarget
      obtain ⟨top, _, hrewired, -⟩ := h.rewired htarget
      exact ⟨top, hrewired.found⟩
  obtain ⟨m, hm⟩ := hfound
  exact name_of_module? hm ▸ List.mem_map_of_mem (List.mem_of_find?_eq_some hm)

end Channelized

theorem extModules_gated_eq : (c.gated a config).extModules =
    if a.targets.toList ≠ [] ∧ config.clockGate ∉ c.extModules.map (·.name) then
      c.extModules ++ [ClockGate.module config]
    else c.extModules := by
  have hany : c.extModules.any (·.name = config.clockGate) = true ↔ config.clockGate ∈ c.extModules.map (·.name) := by
    simp [List.any_eq_true]
  unfold gated declareGate
  by_cases htargets : a.targets.toList = []
  · simp [htargets]
  · by_cases hgate : config.clockGate ∈ c.extModules.map (·.name)
    · rw [if_neg (mt List.isEmpty_iff.1 htargets), if_pos (hany.2 hgate), if_neg fun h => h.2 hgate]
    · rw [if_neg (mt List.isEmpty_iff.1 htargets), if_neg (mt hany.1 hgate), if_pos ⟨htargets, hgate⟩]

/-- The frame of the whole change. The circuit keeps its main module's name and the names of its modules, in order, and
each module becomes what `Becomes` says: targets are made token-driven as the circuit had them at first, a main module
that is no target is rewired with the layouts of exactly the targets, and all else is the same. The gate is declared,
last, exactly if there are targets and the circuit does not declare it. -/
theorem channelize_frame {annotations : List Annotation} {out : Channelization}
    (h : (c.channelize a annotations config).outcome = .ok out) :
    out.circuit.main = c.main ∧
    out.circuit.modules.map (·.name) = c.modules.map (·.name) ∧
    (∀ name, name ∈ a.targets ∨ name = c.main → name ∈ c.modules.map (·.name)) ∧
    (∀ i m, c.modules[i]? = some m → ∃ m', out.circuit.modules[i]? = some m' ∧ c.Becomes a config i m m') ∧
    (∀ name layout, (c.layouts a config).get? name = some layout ↔ name ∈ a.targets ∧
      ∃ m t, c.module? name = some m ∧ (m.tokenModel a (.ofConfig config) config).outcome = .ok t ∧ t.layout = layout) ∧
    out.circuit.extModules =
      if a.targets.toList ≠ [] ∧ config.clockGate ∉ c.extModules.map (·.name) then
        c.extModules ++ [ClockGate.module config]
      else c.extModules := by
  obtain ⟨models, records, hdone⟩ := channelize_ok h
  have hframe := sameFrame_channelize h
  refine ⟨hframe.main, hframe.names, fun _ => hdone.mem_names, fun _ _ => hdone.becomes hframe, fun name layout => ?_,
    hdone.extModules.trans extModules_gated_eq⟩
  rw [get?_layouts]
  refine and_congr_right fun _ => ⟨?_, ?_⟩
  · rintro ⟨t, ht, hlayout⟩
    obtain ⟨m, hm, ht⟩ := targetModel_ok ht
    exact ⟨m, t, hm, ht, hlayout⟩
  · rintro ⟨m, t, hm, ht, hlayout⟩
    exact ⟨t, by rw [targetModel, hm]; exact ht, hlayout⟩

end Circuit

/-- Of two adders of one name the first is made token-driven and the second is the same afterwards. -/
theorem Demo.Stages.second_of_name_is_same :
    let c : Circuit := { circuit with modules := [top, stage, { stage with body := .skip }] }
    ∃ out t, (c.channelize analysis [] {}).outcome = .ok out ∧
      (stage.tokenModel analysis (.ofConfig {}) {}).outcome = .ok t ∧
      out.circuit.modules[1]? = some t.module ∧ out.circuit.modules[2]? = some { stage with body := .skip } ∧
      out.circuit.extModules = [ClockGate.module {}] := by
  intro c
  have hok : ((c.channelize analysis [] {}).outcome.toOption.map fun _ => ()) = some () := by decide +kernel
  obtain ⟨out, hout, -⟩ := exists_ok_of_map hok
  obtain ⟨-, -, -, hmodules, -, hgate⟩ := Circuit.channelize_frame hout
  obtain ⟨m₁, hm₁, hfirst⟩ := hmodules 1 stage rfl
  obtain ⟨m₂, hm₂, hsecond⟩ := hmodules 2 { stage with body := .skip } rfl
  refine ⟨out, ?_⟩
  cases hfirst with
  | rewired _ hno => exact absurd (by decide +kernel) hno
  | same h => exact absurd h (by decide +kernel)
  | @tokenDriven t _ _ ht =>
    refine ⟨t, hout, ht, hm₁, ?_, hgate.trans (by decide +kernel)⟩
    cases hsecond with
    | rewired hnot | tokenDriven hnot => exact absurd (by decide +kernel) hnot
    | same => exact hm₂

end TokenCircuit
