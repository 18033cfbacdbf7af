import TokenCircuit.Channelization
import TokenCircuit.Proofs.Placing
import TokenCircuit.Proofs.Records

/-!
# What becomes of a circuit

Targets are replaced one after the other, each in its place and under its old name. So a module is found under its name
throughout, and every target is made token-driven from the module that the circuit had at first: no target comes twice.
The main module is rewired at last, unless it is a target.
-/

namespace TokenCircuit

namespace Circuit

variable {c : Circuit} {a : Analysis} {config : Config}

theorem find?_modifyFirst {m' : Module} {name : String} (hname : m'.name = name) (ms : List Module) (name' : String) :
    (modifyFirst (fun _ => m') name ms).find? (·.name == name') =
      if name' = name then (ms.find? (·.name == name)).map fun _ => m' else ms.find? (·.name == name') := by
  induction ms with
  | nil => simp [modifyFirst]
  | cons m ms ih =>
    rw [modifyFirst]
    by_cases hfirst : m.name = name
    · rw [if_pos hfirst]
      by_cases heq : name' = name
      · subst heq
        simp [hname, hfirst]
      · have hne : ¬ name = name' := fun h => heq h.symm
        simp [hname, hfirst, heq, hne]
    · rw [if_neg hfirst, List.find?_cons, ih]
      by_cases heq : name' = name
      · subst heq
        simp [beq_false_of_ne hfirst]
      · rw [if_neg heq, if_neg heq, List.find?_cons]

/-- A module that is replaced under its own name is found there, and nothing else changes. -/
theorem module?_modifyModule {m' : Module} {name : String} (hname : m'.name = name) (name' : String) :
    (c.modifyModule name fun _ => m').module? name' =
      if name' = name then (c.module? name).map fun _ => m' else c.module? name' :=
  find?_modifyFirst hname c.modules name'

theorem map_name_modifyFirst {m' : Module} {name : String} (hname : m'.name = name) (ms : List Module) :
    (modifyFirst (fun _ => m') name ms).map (·.name) = ms.map (·.name) := by
  induction ms with
  | nil => rfl
  | cons m ms ih =>
    rw [modifyFirst]
    split
    · next hfirst => rw [List.map_cons, List.map_cons, hname, hfirst]
    · rw [List.map_cons, List.map_cons, ih]

theorem name_of_module? {m : Module} {name : String} (h : c.module? name = some m) : m.name = name := by
  simpa using List.find?_some h

/-- The token-driven form of a target as the circuit is. -/
def targetModel (c : Circuit) (a : Analysis) (config : Config) (target : String) : Except ChannelizeError TokenModel :=
  match c.module? target with
  | none => .error (.unknownModule target)
  | some m => (m.tokenModel a (.ofConfig config) config).outcome

theorem targetModel_ok {target : String} {t : TokenModel} (h : c.targetModel a config target = .ok t) :
    ∃ m, c.module? target = some m ∧ (m.tokenModel a (.ofConfig config) config).outcome = .ok t := by
  unfold targetModel at h
  split at h
  · cases h
  · next m hm => exact ⟨m, hm, h⟩

theorem name_of_targetModel {target : String} {t : TokenModel} (h : c.targetModel a config target = .ok t) :
    t.module.name = target := by
  obtain ⟨m, hm, ht⟩ := targetModel_ok h
  exact (Module.tokenModel_ok ht).name.trans (name_of_module? hm)

/-- Puts the token-driven form of a target in its place. -/
def Progress.install (p : Progress) (target : String) (t : TokenModel) : Progress where
  circuit := p.circuit.modifyModule target fun _ => t.module
  renames := p.renames.recordModule target t.layout
  layouts := p.layouts.insert target t.layout

theorem outcome_channelizeTarget {target : String} {p : Progress} : (channelizeTarget a config target p).outcome =
    p.circuit.targetModel a config target >>= fun t => .ok (p.install target t) := by
  unfold channelizeTarget targetModel
  cases p.circuit.module? target with
  | none => rfl
  | some m =>
    dsimp only
    rw [Logged.outcome_bind]
    rfl

theorem Progress.module?_install {p : Progress} {target : String} {t : TokenModel} (hname : t.module.name = target)
    (name : String) : (p.install target t).circuit.module? name =
      if name = target then (p.circuit.module? target).map fun _ => t.module else p.circuit.module? name :=
  module?_modifyModule hname name

/-- The records of the targets, given their token-driven forms. -/
def targetRecords (models : List (String × TokenModel)) : List (Target × Option Target) :=
  models.flatMap fun x => RenameMap.moduleRecords x.1 x.2.layout

/-- Some targets of a circuit are done. -/
structure Advanced (c : Circuit) (a : Analysis) (config : Config) (models : List (String × TokenModel)) (p : Progress) :
    Prop where
  main : p.circuit.main = c.main
  modelled : ∀ x ∈ models, ∃ m, c.module? x.1 = some m ∧
    (m.tokenModel a (.ofConfig config) config).outcome = .ok x.2
  done : ∀ x ∈ models, p.circuit.module? x.1 = some x.2.module
  rest : ∀ name, name ∉ models.map Prod.fst → p.circuit.module? name = c.module? name
  renames : p.renames = RenameMap.putAll {} (targetRecords models)
  layouts : p.layouts = .ofList (models.map fun x => (x.1, x.2.layout))
  names : p.circuit.modules.map (·.name) = c.modules.map (·.name)
  extModules : p.circuit.extModules = c.extModules

theorem Advanced.target {models : List (String × TokenModel)} {p p' : Progress} {target : String}
    (h : c.Advanced a config models p) (hnew : target ∉ models.map Prod.fst)
    (hstep : (channelizeTarget a config target p).outcome = .ok p') :
    ∃ t, c.Advanced a config (models ++ [(target, t)]) p' := by
  rw [outcome_channelizeTarget] at hstep
  obtain ⟨t, hmodel, hstep⟩ := bind_eq_ok.1 hstep
  cases hstep
  obtain ⟨m, hm, ht⟩ := targetModel_ok hmodel
  have hname := name_of_targetModel hmodel
  have hne : ∀ x ∈ models, x.1 ≠ target := fun x hx heq => hnew (heq ▸ List.mem_map_of_mem hx)
  refine ⟨t, h.main, ?_, ?_, ?_, ?_, ?_, (map_name_modifyFirst hname _).trans h.names, h.extModules⟩
  · intro x hx
    rcases List.mem_append.1 hx with hx | hx
    · exact h.modelled x hx
    · rw [List.mem_singleton.1 hx]
      exact ⟨m, (h.rest target hnew).symm.trans hm, ht⟩
  · intro x hx
    rw [Progress.module?_install hname]
    rcases List.mem_append.1 hx with hx | hx
    · rw [if_neg (hne x hx), h.done x hx]
    · rw [List.mem_singleton.1 hx, if_pos rfl, hm]
      rfl
  · intro name hout
    rw [List.map_append, List.mem_append, not_or] at hout
    have hother : name ≠ target := by simpa using hout.2
    rw [Progress.module?_install hname, if_neg hother, h.rest name hout.1]
  · show p.renames.recordModule target t.layout = _
    rw [RenameMap.recordModule_eq, h.renames, ← RenameMap.putAll_append, targetRecords, targetRecords,
      List.flatMap_append, List.flatMap_singleton]
  · show p.layouts.insert target t.layout = _
    rw [h.layouts, OrderedMap.ofList, OrderedMap.ofList, List.map_append, List.foldl_append]
    rfl

theorem Advanced.targets {targets : List String} : ∀ {models : List (String × TokenModel)} {p p' : Progress},
    c.Advanced a config models p → (models.map Prod.fst ++ targets).Nodup →
    (channelizeTargets a config targets p).outcome = .ok p' →
    ∃ models', models'.map Prod.fst = models.map Prod.fst ++ targets ∧ c.Advanced a config models' p' := by
  induction targets with
  | nil =>
    intro models p p' h _ hrun
    cases hrun
    exact ⟨models, (List.append_nil _).symm, h⟩
  | cons target targets ih =>
    intro models p p' h hnodup hrun
    simp only [channelizeTargets, Logged.outcome_bind] at hrun
    obtain ⟨q, hstep, hrun⟩ := bind_eq_ok.1 hrun
    have hnew : target ∉ models.map Prod.fst := fun hmem =>
      (List.nodup_append.1 hnodup).2.2 _ hmem _ (List.mem_cons_self ..) rfl
    obtain ⟨t, hq⟩ := h.target hnew hstep
    have hmap : (models ++ [(target, t)]).map Prod.fst ++ targets = models.map Prod.fst ++ target :: targets := by simp
    obtain ⟨models', hmap', hdone⟩ := ih hq (by rwa [hmap]) hrun
    exact ⟨models', hmap'.trans hmap, hdone⟩

end Circuit

namespace Circuit

variable {c : Circuit} {a : Analysis} {config : Config}

/-- Where the ports of the targets go, target by target. -/
def layouts (c : Circuit) (a : Analysis) (config : Config) : OrderedMap String Layout :=
  .ofList (a.targets.toList.filterMap fun target =>
    (c.targetModel a config target).toOption.map fun t => (target, t.layout))

theorem Advanced.layouts_eq {models : List (String × TokenModel)} {p : Progress} (h : c.Advanced a config models p)
    (htargets : models.map Prod.fst = a.targets.toList) : p.layouts = c.layouts a config := by
  rw [h.layouts, Circuit.layouts, ← htargets, List.filterMap_map, ← List.filterMap_eq_map]
  refine congrArg OrderedMap.ofList (List.filterMap_congr fun x hx => ?_)
  obtain ⟨m, hm, ht⟩ := h.modelled x hx
  simp [targetModel, hm, ht, Except.toOption]

theorem get?_layouts {target : String} {layout : Layout} : (c.layouts a config).get? target = some layout ↔
    target ∈ a.targets ∧ ∃ t, c.targetModel a config target = .ok t ∧ t.layout = layout := by
  have hmem : ∀ layout, (target, layout) ∈ (a.targets.toList.filterMap fun target =>
      (c.targetModel a config target).toOption.map fun t => (target, t.layout)) ↔
      target ∈ a.targets ∧ ∃ t, c.targetModel a config target = .ok t ∧ t.layout = layout := by
    intro layout
    rw [List.mem_filterMap]
    constructor
    · rintro ⟨target', htarget, hfound⟩
      cases hmodel : c.targetModel a config target' with
      | error => rw [hmodel] at hfound; cases hfound
      | ok t =>
        rw [hmodel] at hfound
        cases hfound
        exact ⟨htarget, t, hmodel, rfl⟩
    · rintro ⟨htarget, t, hmodel, rfl⟩
      exact ⟨target, htarget, by rw [hmodel]; rfl⟩
  rw [← hmem]
  constructor
  · exact fun h => (OrderedMap.mem_of_get?_foldl_insert h).resolve_right (by rintro ⟨⟩)
  · intro hlayout
    refine OrderedMap.get?_foldl_insert (List.mem_map_of_mem (f := Prod.fst) hlayout) (fun layout' hlayout' => ?_) _
    obtain ⟨-, t, ht, rfl⟩ := (hmem layout).1 hlayout
    obtain ⟨-, t', ht', rfl⟩ := (hmem layout').1 hlayout'
    cases ht.symm.trans ht'
    rfl

end Circuit

/-! ### The main module -/

/-- What is known of a rewired module. -/
structure Module.Rewired (m : Module) (a : Analysis) (config : Config) (rewired : Module) : Prop where
  name : rewired.name = m.name
  ports : ∃ channelPorts, List.Forall₂ (fun entry port => m.topChannelPort entry.1 entry.2 = .ok port)
      a.topChannels.entries channelPorts ∧
    rewired.ports = config.hostPorts.map m.portOr ++ m.survivingPorts a config ++ channelPorts

theorem Module.rewired_ok {m rewired : Module} {a : Analysis} {layouts : OrderedMap String Layout} {host : HostSignals}
    {config : Config} (h : (m.rewired a layouts host config).outcome = .ok rewired) : m.Rewired a config rewired := by
  simp only [Module.rewired, Logged.outcome_bind, Logged.outcome_liftM, Logged.outcome_emit, Logged.outcome_emitAll]
    at h
  obtain ⟨-, -, h⟩ := bind_eq_ok.1 h
  obtain ⟨channelPorts, hports, h⟩ := bind_eq_ok.1 h
  obtain ⟨-, -, h⟩ := bind_eq_ok.1 h
  cases h
  exact ⟨rfl, channelPorts, mapM_eq_ok.1 hports, rfl⟩

namespace Circuit

variable {c : Circuit} {a : Analysis} {config : Config}

/-- The ports that a rewired module no longer has. -/
def gonePorts (top rewired : Module) : List String :=
  (top.ports.filter fun port => (rewired.port? port.name).isNone).map (·.name)

/-- What is known of a main module that is no target, and of what is recorded about it. -/
structure MainRewired (c : Circuit) (a : Analysis) (config : Config) (top rewired : Module)
    (records : List (Target × Option Target)) : Prop where
  found : c.module? c.main = some top
  result : top.Rewired a config rewired
  records : ∃ placed, List.Forall₂ (fun member record => RenameMap.topRecord c.main member = .ok record)
      (RenameMap.topMembers a.topChannels) placed ∧
    records = placed ++ RenameMap.lostRecords c.main (gonePorts top rewired)

theorem rewireMain_ok {p p' : Progress} (h : (rewireMain a config p).outcome = .ok p') :
    ∃ top rewired records, p.circuit.MainRewired a config top rewired records ∧ p'.renames = p.renames.putAll records ∧
      (top.rewired a p.layouts (.ofConfig config) config).outcome = .ok rewired ∧
      p'.circuit = p.circuit.modifyModule p.circuit.main fun _ => rewired := by
  unfold rewireMain at h
  dsimp only at h
  split at h
  · cases h
  · next top htop =>
    simp only [Logged.outcome_bind, Logged.outcome_liftM, Logged.outcome_emitAll] at h
    obtain ⟨rewired, hrewired, h⟩ := bind_eq_ok.1 h
    obtain ⟨⟨⟩, hplaced, h⟩ := bind_eq_ok.1 h
    obtain ⟨-, -, h⟩ := bind_eq_ok.1 h
    cases h
    obtain ⟨placed, hall, heq⟩ := RenameMap.recordTop_ok (mapError_eq_ok.1 hplaced)
    have hok := Module.rewired_ok hrewired
    refine ⟨top, rewired, _, ⟨htop, hok, placed, hall, rfl⟩, ?_, hrewired, rfl⟩
    rw [RenameMap.putAll_append, ← heq]
    exact RenameMap.recordDropped_fst

/-! ### The gate's module -/

/-- The circuit with the gate's module, if it has targets that may use it. -/
def gated (a : Analysis) (config : Config) (c : Circuit) : Circuit :=
  if a.targets.toList.isEmpty then c else declareGate config c

theorem modules_gated : (c.gated a config).modules = c.modules := by
  unfold gated declareGate
  split
  · rfl
  · split <;> rfl

theorem module?_gated {name : String} : (c.gated a config).module? name = c.module? name := by
  rw [module?, modules_gated, module?]

theorem extModules_gated {c' : Circuit} (h : c'.extModules = c.extModules) :
    (c'.gated a config).extModules = (c.gated a config).extModules := by
  unfold gated declareGate
  rw [h]
  split
  · exact h
  · split
    · exact h
    · rfl

/-! ### The whole circuit -/

/-- What is known of a circuit that has been made token-driven: the token-driven forms of its targets, and what is
recorded about the main module. -/
structure Channelized (c : Circuit) (a : Analysis) (config : Config) (models : List (String × TokenModel))
    (records : List (Target × Option Target)) (out : Channelization) : Prop where
  targets : models.map Prod.fst = a.targets.toList
  modelled : ∀ x ∈ models, ∃ m, c.module? x.1 = some m ∧
    (m.tokenModel a (.ofConfig config) config).outcome = .ok x.2 ∧ out.circuit.module? x.1 = some x.2.module
  main : (c.main ∈ a.targets ∧ records = []) ∨ ∃ top rewired, c.main ∉ a.targets ∧
    c.MainRewired a config top rewired records ∧ out.circuit.module? c.main = some rewired ∧
    (top.rewired a (c.layouts a config) (.ofConfig config) config).outcome = .ok rewired
  renames : out.renames = RenameMap.putAll {} (targetRecords models ++ records)
  rest : ∀ name, name ∉ a.targets → name ≠ c.main → out.circuit.module? name = c.module? name
  names : out.circuit.modules.map (·.name) = c.modules.map (·.name)
  extModules : out.circuit.extModules = (c.gated a config).extModules

theorem Channelized.rewired {models : List (String × TokenModel)} {records : List (Target × Option Target)}
    {out : Channelization} (h : c.Channelized a config models records out) (hmain : c.main ∉ a.targets) :
    ∃ top rewired, c.MainRewired a config top rewired records ∧ out.circuit.module? c.main = some rewired ∧
      (top.rewired a (c.layouts a config) (.ofConfig config) config).outcome = .ok rewired := by
  rcases h.main with ⟨htarget, -⟩ | ⟨top, rewired, -, hrewired⟩
  · exact absurd htarget hmain
  · exact ⟨top, rewired, hrewired⟩

/-- The targets come first, then the main module; the gate and the annotations are left for the end. -/
theorem channelize_steps {annotations : List Annotation} {out : Channelization}
    (h : (c.channelize a annotations config).outcome = .ok out) : ∃ p p',
      (channelizeTargets a config a.targets.toList ⟨c, {}, ∅⟩).outcome = .ok p ∧
      (channelizeMain a config p).outcome = .ok p' ∧
      out = ⟨p'.circuit.gated a config, p'.renames, annotations.filter (!·.protectsIn a.targets.toList)⟩ := by
  simp only [channelize, Logged.outcome_bind, Logged.outcome_emit, Logged.outcome_emitAll] at h
  obtain ⟨-, -, h⟩ := bind_eq_ok.1 h
  obtain ⟨p, htargets, h⟩ := bind_eq_ok.1 h
  obtain ⟨p', hmain, h⟩ := bind_eq_ok.1 h
  obtain ⟨-, -, h⟩ := bind_eq_ok.1 h
  obtain ⟨-, -, h⟩ := bind_eq_ok.1 h
  cases h
  exact ⟨p, p', htargets, hmain, rfl⟩

namespace Advanced

variable {models : List (String × TokenModel)} {p p' : Progress} {kept : List Annotation}

theorem channelized_of_target (h : c.Advanced a config models p) (hmodels : models.map Prod.fst = a.targets.toList)
    (hmain : c.main ∈ a.targets) : c.Channelized a config models [] ⟨p.circuit.gated a config, p.renames, kept⟩ where
  targets := hmodels
  modelled x hx := by
    obtain ⟨m, hm, ht⟩ := h.modelled x hx
    exact ⟨m, hm, ht, module?_gated.trans (h.done x hx)⟩
  main := .inl ⟨hmain, rfl⟩
  renames := by rw [List.append_nil, h.renames]
  rest name hname _ := module?_gated.trans (h.rest name (hmodels ▸ hname))
  names := by rw [modules_gated, h.names]
  extModules := extModules_gated h.extModules

theorem channelized_of_rewired (h : c.Advanced a config models p) (hmodels : models.map Prod.fst = a.targets.toList)
    (hmain : c.main ∉ a.targets) (hrun : (rewireMain a config p).outcome = .ok p') :
    ∃ records, c.Channelized a config models records ⟨p'.circuit.gated a config, p'.renames, kept⟩ := by
  obtain ⟨top, rewired, records, ⟨htop, hok, hrecords⟩, hrecorded, hrewired, hreplaced⟩ := rewireMain_ok hrun
  rw [h.main] at htop hrecords hreplaced
  have hname : rewired.name = c.main := hok.name.trans (name_of_module? htop)
  have hmodule : ∀ name, (p'.circuit.gated a config).module? name =
      if name = c.main then some rewired else p.circuit.module? name := by
    intro name
    rw [module?_gated, hreplaced, module?_modifyModule hname, htop]
    rfl
  have hother : ∀ name, name ∉ a.targets → p.circuit.module? name = c.module? name := fun name hname =>
    h.rest name (by rwa [hmodels])
  -- the main module is no target, so it is rewired as the circuit had it
  rw [hother c.main hmain] at htop
  have hresult : (p'.circuit.gated a config).module? c.main = some rewired := by rw [hmodule, if_pos rfl]
  exact ⟨records, {
    targets := hmodels
    modelled := fun x hx => by
      obtain ⟨m, hm, ht⟩ := h.modelled x hx
      have htarget : x.1 ∈ a.targets.toList := hmodels ▸ List.mem_map_of_mem hx
      have hne : x.1 ≠ c.main := fun heq => hmain (heq ▸ htarget)
      exact ⟨m, hm, ht, by rw [hmodule, if_neg hne, h.done x hx]⟩
    main := .inr ⟨top, rewired, hmain, ⟨htop, hok, hrecords⟩, hresult, h.layouts_eq hmodels ▸ hrewired⟩
    renames := by rw [hrecorded, h.renames, RenameMap.putAll_append]
    rest := fun name hname hne => by rw [hmodule, if_neg hne, hother name hname]
    names := by
      rw [modules_gated, hreplaced]
      exact (map_name_modifyFirst hname _).trans h.names
    extModules := extModules_gated (by rw [hreplaced]; exact h.extModules) }⟩

end Advanced

theorem channelize_ok {annotations : List Annotation} {out : Channelization}
    (h : (c.channelize a annotations config).outcome = .ok out) :
    ∃ models records, c.Channelized a config models records out := by
  obtain ⟨p, p', htargets, hmain, rfl⟩ := channelize_steps h
  have hstart : c.Advanced a config [] ⟨c, {}, ∅⟩ := by
    refine ⟨rfl, ?_, ?_, fun _ _ => rfl, rfl, rfl, rfl, rfl⟩ <;> exact fun x hx => absurd hx List.not_mem_nil
  obtain ⟨models, hmodels, hdone⟩ := hstart.targets a.targets.nodup htargets
  unfold channelizeMain at hmain
  split at hmain
  · next htarget =>
    simp only [Logged.outcome_bind, Logged.outcome_emit] at hmain
    cases hmain
    exact ⟨models, [], hdone.channelized_of_target hmodels (hdone.main ▸ htarget)⟩
  · next htarget => exact ⟨models, hdone.channelized_of_rewired hmodels (hdone.main ▸ htarget) hmain⟩

end Circuit

/-! ### Instances of targets -/

def Stmt.instance? : Stmt → Option (String × String)
  | .inst name module => some (name, module)
  | _ => none

theorem Stmt.instance?_eq_none (s : Stmt) (h : s.declared? = none) : s.instance? = none := by
  cases s with
  | inst => cases h
  | _ => rfl

/-- The target that an instance is of; the last one made under that name counts. -/
def Module.targetOf? (m : Module) (a : Analysis) (inst : String) : Option String :=
  (m.body.preorder.filterMap Stmt.instance?).reverse.findSome? fun x =>
    if x.1 = inst ∧ x.2 ∈ a.targets then some x.2 else none

theorem Module.targetOf?_eq_some {m : Module} {a : Analysis} {inst target : String}
    (h : m.targetOf? a inst = some target) : .inst inst target ∈ m.body.preorder ∧ target ∈ a.targets := by
  obtain ⟨⟨name, module⟩, hx, hfound⟩ := List.exists_of_findSome?_eq_some h
  obtain ⟨s, hs, hinst⟩ := List.mem_filterMap.1 (List.mem_reverse.1 hx)
  by_cases hmatch : name = inst ∧ module ∈ a.targets
  · obtain rfl : module = target := by simpa [hmatch] using hfound
    cases s with
    | inst =>
      cases hinst
      exact ⟨hmatch.1 ▸ hs, hmatch.2⟩
    | _ => cases hinst
  · simp [hmatch] at hfound

theorem findSome?_bind {α β γ : Type} {f : α → Option β} {g : β → Option γ}
    (h : ∀ x y, f x = some y → ∃ z, g y = some z) (l : List α) :
    (l.findSome? fun x => (f x).bind g) = (l.findSome? f).bind g := by
  induction l with
  | nil => rfl
  | cons x l ih =>
    rw [List.findSome?_cons, List.findSome?_cons]
    cases hx : f x with
    | none => exact ih
    | some y =>
      obtain ⟨z, hz⟩ := h x y hx
      simp [hz]

theorem findSome?_filterMap {α β γ : Type} {f : α → Option β} {g : β → Option γ} (l : List α) :
    (l.filterMap f).findSome? g = l.findSome? fun x => (f x).bind g := by
  induction l with
  | nil => rfl
  | cons x l ih =>
    rw [List.filterMap_cons, List.findSome?_cons]
    cases f x with
    | none => exact ih
    | some y => rw [List.findSome?_cons, ih]; rfl

namespace Circuit.Channelized

variable {c : Circuit} {a : Analysis} {config : Config} {models : List (String × TokenModel)}
  {records : List (Target × Option Target)} {out : Channelization}

theorem exists_layout (h : c.Channelized a config models records out) {target : String} (htarget : target ∈ a.targets) :
    ∃ layout, (c.layouts a config).get? target = some layout := by
  obtain ⟨⟨_, t⟩, hx, rfl⟩ := List.mem_map.1 (h.targets ▸ htarget : target ∈ models.map Prod.fst)
  obtain ⟨m, hm, ht, -⟩ := h.modelled _ hx
  exact ⟨t.layout, get?_layouts.2 ⟨htarget, t, by rw [targetModel, hm]; exact ht, rfl⟩⟩

/-- The token-driven instances in the main module are the instances of targets. -/
theorem get?_tokenInstances (h : c.Channelized a config models records out) (m : Module) (inst : String) :
    (m.tokenInstances (c.layouts a config)).get? inst = (m.targetOf? a inst).bind (c.layouts a config).get? := by
  rw [Module.tokenInstances, OrderedMap.get?_ofList_filterMap, Module.targetOf?, ← List.filterMap_reverse,
    findSome?_filterMap, ← findSome?_bind]
  · congr 1
    funext s
    cases s with
    | inst name module =>
      simp only [Stmt.instance?, Option.bind_some]
      cases hlayout : (c.layouts a config).get? module with
      | none =>
        have hnot : module ∉ a.targets := fun htarget => by
          obtain ⟨layout, hsome⟩ := h.exists_layout htarget
          rw [hlayout] at hsome
          cases hsome
        simp [hnot]
      | some layout =>
        have htarget : module ∈ a.targets := (get?_layouts.1 hlayout).1
        by_cases hname : name = inst <;> simp [hname, htarget, hlayout]
    | _ => rfl
  · intro s target hs
    obtain ⟨x, -, hx⟩ := Option.bind_eq_some_iff.1 hs
    split at hx
    · next hmatch =>
      cases hx
      exact h.exists_layout hmatch.2
    · cases hx

end Circuit.Channelized

end TokenCircuit
