import TokenCircuit.Model.Interface
import Mathlib.Data.List.Flatten
import Mathlib.Data.List.Forall2
import Mathlib.Data.List.Nodup

/-!
# Names handed out on the way

Planning threads a supply of names through its steps. `NameSupply.Grows s new t` packages what every step does to it:
the names `new` are pairwise distinct, none was in use in `s`, all are in use in `t`, and nothing in use is ever given
back. Steps compose (`Grows.trans`), so a later step cannot repeat a name of an earlier one.
-/

namespace TokenCircuit

/-! ### Computations that succeed -/

section Outcomes

variable {ε ε' α β : Type}

theorem bind_eq_ok {x : Except ε α} {f : α → Except ε β} {b : β} :
    (x >>= f) = .ok b ↔ ∃ a, x = .ok a ∧ f a = .ok b := by
  cases x with
  | error e => simp [bind, Except.bind]
  | ok a => simp [bind, Except.bind]

theorem map_eq_ok {x : Except ε α} {f : α → β} {b : β} : x.map f = .ok b ↔ ∃ a, x = .ok a ∧ f a = b := by
  cases x <;> simp [Except.map]

theorem mapError_eq_ok {x : Except ε α} {f : ε → ε'} {a : α} : x.mapError f = .ok a ↔ x = .ok a := by
  cases x <;> simp [Except.mapError]

theorem mapM_eq_ok {f : α → Except ε β} : ∀ {l : List α} {l' : List β},
    l.mapM f = .ok l' ↔ List.Forall₂ (fun a b => f a = .ok b) l l'
  | [], l' => by
    rw [List.mapM_nil, List.forall₂_nil_left_iff]
    exact ⟨fun h => by cases h; rfl, fun h => by rw [h]; rfl⟩
  | a :: l, l' => by
    rw [List.mapM_cons, bind_eq_ok, List.forall₂_cons_left_iff]
    constructor
    · rintro ⟨b, hb, h⟩
      obtain ⟨bs, hbs, h⟩ := bind_eq_ok.1 h
      cases h
      exact ⟨b, bs, hb, mapM_eq_ok.1 hbs, rfl⟩
    · rintro ⟨b, bs, hb, hbs, rfl⟩
      exact ⟨b, hb, bind_eq_ok.2 ⟨bs, mapM_eq_ok.2 hbs, rfl⟩⟩

theorem bind_eq_error {x : Except ε α} {f : α → Except ε β} {e : ε} :
    (x >>= f) = .error e ↔ x = .error e ∨ ∃ a, x = .ok a ∧ f a = .error e := by
  cases x with
  | error e => simp [bind, Except.bind]
  | ok a => simp [bind, Except.bind]

theorem mapError_eq_error {x : Except ε α} {f : ε → ε'} {e : ε'} :
    x.mapError f = .error e ↔ ∃ e', x = .error e' ∧ f e' = e := by
  cases x <;> simp [Except.mapError]

/-- A traversal that fails fails at one of the elements. -/
theorem exists_error_of_mapM {f : α → Except ε β} {l : List α} {e : ε} (h : l.mapM f = .error e) :
    ∃ a ∈ l, f a = .error e := by
  induction l with
  | nil => cases h
  | cons a l ih =>
    rw [List.mapM_cons, bind_eq_error] at h
    rcases h with h | ⟨b, -, h⟩
    · exact ⟨a, List.mem_cons_self .., h⟩
    · rcases bind_eq_error.1 h with h | ⟨bs, -, h⟩
      · obtain ⟨a', ha', he⟩ := ih h
        exact ⟨a', List.mem_cons_of_mem _ ha', he⟩
      · cases h

theorem toOption_eq_some {x : Except ε α} {a : α} : x.toOption = some a ↔ x = .ok a := by
  cases x <;> simp [Except.toOption]

theorem exists_ok_of_map {x : Except ε α} {f : α → β} {b : β} (h : x.toOption.map f = some b) :
    ∃ a, x = .ok a ∧ f a = b := by
  obtain ⟨a, ha, hb⟩ := Option.map_eq_some_iff.1 h
  exact ⟨a, toOption_eq_some.1 ha, hb⟩

theorem exists_mem_right {R : α → β → Prop} {l : List α} {l' : List β} (h : List.Forall₂ R l l') {a : α} (ha : a ∈ l) :
    ∃ b ∈ l', R a b := by
  induction h with
  | nil => cases ha
  | cons hab _ ih =>
    rcases List.mem_cons.1 ha with rfl | ha
    · exact ⟨_, List.mem_cons_self .., hab⟩
    · obtain ⟨b, hb, hr⟩ := ih ha
      exact ⟨b, List.mem_cons_of_mem _ hb, hr⟩

theorem exists_mem_left {R : α → β → Prop} {l : List α} {l' : List β} (h : List.Forall₂ R l l') {b : β} (hb : b ∈ l') :
    ∃ a ∈ l, R a b :=
  exists_mem_right h.flip hb

/-- The computation ends without an error. -/
def Succeeds (x : Except ε α) : Prop := ∃ a, x = .ok a

theorem succeeds_ok {a : α} : Succeeds (.ok a : Except ε α) := ⟨a, rfl⟩

theorem not_succeeds_error {e : ε} : ¬ Succeeds (.error e : Except ε α) := by rintro ⟨a, ⟨⟩⟩

theorem not_succeeds_iff {x : Except ε α} : ¬ Succeeds x ↔ ∃ e, x = .error e := by
  cases x with
  | error e => exact iff_of_true not_succeeds_error ⟨e, rfl⟩
  | ok a => exact iff_of_false (not_not_intro succeeds_ok) (by rintro ⟨e, ⟨⟩⟩)

theorem succeeds_of_isOk {x : Except ε α} (h : x.isOk = true) : Succeeds x := by
  cases x with
  | error e => cases h
  | ok a => exact succeeds_ok

theorem succeeds_bind {x : Except ε α} {f : α → Except ε β} : Succeeds (x >>= f) ↔ ∃ a, x = .ok a ∧ Succeeds (f a) := by
  simp only [Succeeds, bind_eq_ok]
  exact ⟨fun ⟨b, a, ha, hb⟩ => ⟨a, ha, b, hb⟩, fun ⟨a, ha, b, hb⟩ => ⟨b, a, ha, hb⟩⟩

theorem succeeds_bind_pure {x : Except ε α} {f : α → β} : Succeeds (x >>= fun a => pure (f a)) ↔ Succeeds x := by
  rw [succeeds_bind]
  exact exists_congr fun a => and_iff_left succeeds_ok

theorem succeeds_map {x : Except ε α} {f : α → β} : Succeeds (x.map f) ↔ Succeeds x := by
  cases x <;> simp [Succeeds, Except.map]

theorem succeeds_mapError {x : Except ε α} {f : ε → ε'} : Succeeds (x.mapError f) ↔ Succeeds x := by
  cases x <;> simp [Succeeds, Except.mapError]

theorem succeeds_mapM {f : α → Except ε β} {l : List α} : Succeeds (l.mapM f) ↔ ∀ a ∈ l, Succeeds (f a) := by
  constructor
  · rintro ⟨bs, hbs⟩ a ha
    obtain ⟨b, -, hb⟩ := exists_mem_right (mapM_eq_ok.1 hbs) ha
    exact ⟨b, hb⟩
  · intro h
    cases hmap : l.mapM f with
    | ok bs => exact succeeds_ok
    | error e =>
      obtain ⟨a, ha, he⟩ := exists_error_of_mapM hmap
      exact absurd (he ▸ h a ha) not_succeeds_error

/-- A traversal stops at the first error. -/
theorem mapM_eq_error {f : α → Except ε β} {before after : List α} {a : α} {e : ε}
    (hbefore : ∀ b ∈ before, Succeeds (f b)) (h : f a = .error e) : (before ++ a :: after).mapM f = .error e := by
  obtain ⟨bs, hbs⟩ := succeeds_mapM.2 hbefore
  rw [List.mapM_append, hbs, List.mapM_cons, h]
  rfl

end Outcomes

/-! ### Outcomes that agree -/

section Agreement

variable {ε α β γ δ : Type} {E : ε → ε → Prop} {R : α → β → Prop} {S : γ → δ → Prop}

/-- Both computations fail, with related errors, or both succeed, with related values. -/
inductive Agree (E : ε → ε → Prop) (R : α → β → Prop) : Except ε α → Except ε β → Prop
  | error {e e' : ε} (h : E e e') : Agree E R (.error e) (.error e')
  | ok {x : α} {y : β} (h : R x y) : Agree E R (.ok x) (.ok y)

theorem Agree.bind {x : Except ε α} {y : Except ε β} {f : α → Except ε γ} {g : β → Except ε δ} (h : Agree E R x y)
    (hfg : ∀ a b, R a b → Agree E S (f a) (g b)) : Agree E S (x >>= f) (y >>= g) := by
  cases h with
  | error he => exact .error he
  | ok hab => exact hfg _ _ hab

theorem Agree.bind_same {x : Except ε α} {f : α → Except ε γ} {g : α → Except ε δ} (hE : ∀ e, E e e)
    (hfg : ∀ a, x = .ok a → Agree E S (f a) (g a)) : Agree E S (x >>= f) (x >>= g) := by
  cases x with
  | error e => exact .error (hE e)
  | ok a => exact hfg a rfl

theorem Agree.refl (hE : ∀ e, E e e) (x : Except ε α) : Agree E Eq x x := by
  cases x with
  | error e => exact .error (hE e)
  | ok a => exact .ok rfl

theorem Agree.trans {R' : β → γ → Prop} {T : α → γ → Prop} {x : Except ε α} {y : Except ε β} {z : Except ε γ}
    (h : Agree E R x y) (h' : Agree E R' y z) (hE : ∀ {e e' e''}, E e e' → E e' e'' → E e e'')
    (hT : ∀ {a b c}, R a b → R' b c → T a c) : Agree E T x z := by
  cases h with
  | error he =>
    cases h' with
    | error he' => exact .error (hE he he')
  | ok hab =>
    cases h' with
    | ok hbc => exact .ok (hT hab hbc)

theorem Agree.succeeds_iff {x : Except ε α} {y : Except ε β} (h : Agree E R x y) : Succeeds x ↔ Succeeds y := by
  cases h with
  | error => exact iff_of_false not_succeeds_error not_succeeds_error
  | ok => exact iff_of_true succeeds_ok succeeds_ok

theorem Agree.eq_error {x : Except ε α} {y : Except ε β} {e : ε} (h : Agree Eq R x y) (hy : y = .error e) :
    x = .error e := by
  cases h with
  | error he =>
    cases hy
    rw [he]
  | ok => cases hy

theorem Agree.error_or_ok {x : Except ε α} {y : Except ε β} (h : Agree E R x y) :
    (∃ e e', x = .error e ∧ y = .error e') ∨ ∃ a b, x = .ok a ∧ y = .ok b ∧ R a b := by
  cases h with
  | error => exact .inl ⟨_, _, rfl, rfl⟩
  | ok hab => exact .inr ⟨_, _, rfl, rfl, hab⟩

end Agreement

namespace NameSupply

variable {s t u : NameSupply} {new new' : List String}

theorem mem_addAll {names : List String} {n : String} : n ∈ s.addAll names ↔ n ∈ s ∨ n ∈ names := by
  unfold addAll
  induction names generalizing s with
  | nil => simp
  | cons name names ih =>
    rw [List.foldl_cons, ih, mem_add, List.mem_cons]
    tauto

theorem not_mem_empty {n : String} : ¬ n ∈ ({} : NameSupply) := List.not_mem_nil

theorem mem_ofModule {m : Module} {n : String} : n ∈ ofModule m ↔ n ∈ m.ownNames := by
  rw [ofModule, mem_addAll, or_iff_right not_mem_empty]

/-- From `s` to `t` the names `new` are handed out. -/
structure Grows (s : NameSupply) (new : List String) (t : NameSupply) : Prop where
  nodup : new.Nodup
  unused : ∀ n ∈ new, n ∉ s
  used : ∀ n ∈ new, n ∈ t
  kept : ∀ n, n ∈ s → n ∈ t

namespace Grows

theorem refl (s : NameSupply) : Grows s [] s := ⟨List.nodup_nil, by simp, by simp, fun _ h => h⟩

theorem trans (h : Grows s new t) (h' : Grows t new' u) : Grows s (new ++ new') u where
  nodup := List.nodup_append.2 ⟨h.nodup, h'.nodup, fun a ha b hb e => h'.unused b hb (e ▸ h.used a ha)⟩
  unused n hn := by
    rcases List.mem_append.1 hn with hn | hn
    · exact h.unused n hn
    · exact fun hs => h'.unused n hn (h.kept n hs)
  used n hn := by
    rcases List.mem_append.1 hn with hn | hn
    · exact h'.kept n (h.used n hn)
    · exact h'.used n hn
  kept n hn := h'.kept n (h.kept n hn)

theorem sublist (h : Grows s new t) (hs : new'.Sublist new) : Grows s new' t :=
  ⟨h.nodup.sublist hs, fun n hn => h.unused n (hs.subset hn), fun n hn => h.used n (hs.subset hn), h.kept⟩

theorem add {name : String} (h : name ∉ s) : Grows s [name] (s.add name) where
  nodup := List.nodup_singleton _
  unused n hn := by rwa [List.mem_singleton.1 hn]
  used n hn := by rw [List.mem_singleton.1 hn]; exact mem_add.2 (.inl rfl)
  kept n hn := mem_add.2 (.inr hn)

theorem fresh (s : NameSupply) (base : String) : Grows s [(s.fresh base).1] (s.fresh base).2 := add fresh_not_mem

end Grows

theorem grows_reserveHostPorts {module : String} : ∀ {ports : List (String × String)} {s t : NameSupply},
    reserveHostPorts module ports s = .ok t → Grows s (ports.map Prod.snd) t
  | [], s, t, h => by cases h; exact .refl s
  | (channel, port) :: rest, s, t, h => by
    rw [reserveHostPorts] at h
    split at h
    · cases h
    · next hport => exact (Grows.add hport).trans (grows_reserveHostPorts h)

end NameSupply

namespace OrderedMap

variable {κ α : Type} [DecidableEq κ] {m : OrderedMap κ α} {k : κ} {v : α}

theorem mem_values_iff : v ∈ m.values ↔ ∃ k, m.get? k = some v := by
  simp [values, get?_eq_some_iff]

theorem mem_iff_get? : k ∈ m ↔ ∃ v, m.get? k = some v := by
  simp only [mem_iff, get?_eq_some_iff]

theorem get?_eq_none_iff : m.get? k = none ↔ k ∉ m := by
  rw [mem_iff_get?, Option.eq_none_iff_forall_ne_some, not_exists]

theorem values_insert_sublist (m : OrderedMap κ α) (k : κ) (v : α) :
    (m.insert k v).values.Sublist (m.values ++ [v]) := by
  simp only [values, insert, List.map_append, List.map_cons, List.map_nil]
  exact (List.filter_sublist.map _).append_right _

end OrderedMap

/-! ### Clock domains -/

/-- The names that a domain declares. -/
def ClockDomain.names (d : ClockDomain) : List String := [d.enableReg, d.buffer, d.flag]

namespace ClockDomains

variable {c : Channel} {isVirtual : Bool} {domains domains' : OrderedMap String ClockDomain}
  {s t t' : NameSupply} {k : String} {d : ClockDomain}

/-- Each domain stands under its clock and has the flag that the channel `c` gives that clock. -/
def Describe (c : Channel) (isVirtual : Bool) (domains : OrderedMap String ClockDomain) : Prop :=
  ∀ k d, domains.get? k = some d → d.clock = k ∧ d.isVirtual = isVirtual ∧ flagValue c k = .ok d.flagValue

theorem Describe.insert (h : Describe c isVirtual domains) (hclock : d.clock = k) (hvirtual : d.isVirtual = isVirtual)
    (hvalue : flagValue c k = .ok d.flagValue) : Describe c isVirtual (domains.insert k d) := by
  intro k' d' hget
  rw [OrderedMap.get?_insert] at hget
  split at hget
  · next e => cases hget; exact ⟨by rw [hclock, e], hvirtual, by rw [e, hvalue]⟩
  · exact h k' d' hget

/-- A repeated clock takes its older domain out of the map, so some names may be handed out in vain. -/
theorem grows_insert (h : s.Grows (domains.values.flatMap ClockDomain.names) t) (hd : t.Grows d.names t') :
    s.Grows ((domains.insert k d).values.flatMap ClockDomain.names) t' := by
  refine (h.trans hd).sublist ?_
  simpa using (OrderedMap.values_insert_sublist domains k d).flatMap ClockDomain.names

theorem addDomains_ok : ∀ {ports : List Port} {domains : OrderedMap String ClockDomain} {t : NameSupply},
    (addDomains c isVirtual ports domains t).outcome = .ok (domains', t') →
    s.Grows (domains.values.flatMap ClockDomain.names) t → Describe c isVirtual domains →
    s.Grows (domains'.values.flatMap ClockDomain.names) t' ∧ Describe c isVirtual domains' ∧
      ∀ k, k ∈ domains' ↔ k ∈ domains ∨ k ∈ ports.map (·.name)
  | [], domains, t, h, hnames, hdesc => by
    cases h
    exact ⟨hnames, hdesc, fun k => by simp⟩
  | port :: ports, domains, t, h, hnames, hdesc => by
    simp only [addDomains, Logged.outcome_bind, Logged.outcome_liftM, Logged.outcome_emit] at h
    obtain ⟨value, hvalue, h⟩ := bind_eq_ok.1 h
    obtain ⟨-, -, h⟩ := bind_eq_ok.1 h
    have hfresh := (NameSupply.Grows.fresh t (port.name ++ "_enabled")).trans
      ((NameSupply.Grows.fresh _ (port.name ++ "_buffer")).trans (NameSupply.Grows.fresh _ (port.name ++ "_flag")))
    obtain ⟨hgrows, hdesc', hmem⟩ := addDomains_ok h (grows_insert hnames hfresh) (hdesc.insert rfl rfl hvalue)
    refine ⟨hgrows, hdesc', fun k => ?_⟩
    rw [hmem k, OrderedMap.mem_insert, List.map_cons, List.mem_cons, or_assoc, or_left_comm]

theorem buffer_of_addDomains : ∀ {ports : List Port} {domains : OrderedMap String ClockDomain} {t : NameSupply},
    (addDomains c isVirtual ports domains t).outcome = .ok (domains', t') →
    (∀ d ∈ domains.values, ∃ s : NameSupply, d.buffer = s.freshName (d.clock ++ "_buffer")) →
    ∀ d ∈ domains'.values, ∃ s : NameSupply, d.buffer = s.freshName (d.clock ++ "_buffer")
  | [], domains, t, h, hold => by cases h; exact hold
  | port :: ports, domains, t, h, hold => by
    simp only [addDomains, Logged.outcome_bind, Logged.outcome_liftM, Logged.outcome_emit] at h
    obtain ⟨value, -, h⟩ := bind_eq_ok.1 h
    obtain ⟨-, -, h⟩ := bind_eq_ok.1 h
    refine buffer_of_addDomains h fun d hd => ?_
    rcases List.mem_append.1 ((OrderedMap.values_insert_sublist ..).subset hd) with hd | hd
    · exact hold d hd
    · rw [List.mem_singleton.1 hd]
      exact ⟨_, rfl⟩

/-- What is known of the domains of a clock channel. -/
structure DomainsOf (c : Channel) (ds : ClockDomains) : Prop where
  describe : Describe c (isVirtualClock c) ds.domains
  buffer : ∀ d ∈ ds.all, ∃ s : NameSupply, d.buffer = s.freshName (d.clock ++ "_buffer")
  mem_iff : ∀ k, k ∈ ds.domains ↔ k ∈ c.ports.map (·.name)
  time : ds.simTime.map (·.source) = clockTime? c

/-- The names that the domains declare, in the order in which they are handed out. -/
def names (ds : ClockDomains) : List String :=
  ds.all.flatMap ClockDomain.names ++ ds.doneInitReg :: (ds.simTime.map (·.reg)).toList

theorem synthesize_ok {config : Config} {ds : ClockDomains}
    (h : (synthesize c config t).outcome = .ok (ds, t')) : DomainsOf c ds ∧ t.Grows ds.names t' := by
  simp only [synthesize, Logged.outcome_bind] at h
  obtain ⟨⟨domains, mid⟩, hadd, h⟩ := bind_eq_ok.1 h
  obtain ⟨hgrows, hdesc, hmem⟩ := addDomains_ok hadd (.refl t) (by intro k d h; cases h)
  have hbuffer := buffer_of_addDomains hadd fun d hd => absurd hd List.not_mem_nil
  have hdone := hgrows.trans (NameSupply.Grows.fresh mid config.doneInit)
  have hmem' : ∀ k, k ∈ domains ↔ k ∈ c.ports.map (·.name) := fun k => by
    rw [hmem k]
    exact or_iff_right List.not_mem_nil
  cases htime : clockTime? c with
  | none =>
    simp only [htime] at h
    cases h
    exact ⟨⟨hdesc, hbuffer, hmem', htime.symm⟩, by simpa [ClockDomains.names, all] using hdone⟩
  | some source =>
    simp only [htime] at h
    cases h
    refine ⟨⟨hdesc, hbuffer, hmem', htime.symm⟩, ?_⟩
    simpa [ClockDomains.names, all] using hdone.trans (NameSupply.Grows.fresh _ config.simTime)

end ClockDomains

/-! ### Data channels -/

namespace ChannelContext

/-- The data channel `d` is what becomes of a channel's description. -/
structure Makes (ctx : ChannelContext) (direction : Direction) (spec : String × ChannelSpec) (d : DataChannel) :
    Prop where
  name : d.name = spec.1
  hostPort : d.hostPort = hostPortName spec.1 direction
  ports : ctx.module.resolvePorts spec.1 spec.2.ports = .ok d.ports
  timestamped : d.timestamped = ctx.analysis.isTimestamped spec.1
  timeBase : d.timestamped = true → ctx.domains.simTime.isSome
  domain : ∃ c, ctx.domains.resolve (ctx.analysis.connectivity ctx.module.name) ctx.clock.isVirtual ctx.module.name
    spec.1 spec.2.clock = .ok c ∧ d.enable = c.channelEnable direction

variable {ctx : ChannelContext} {direction : Direction}

theorem checked_ok {channel : String} {spec : ChannelSpec} {ports : List Port} {c : ClockDomain}
    (h : ctx.checked channel spec = .ok (ports, c)) :
    ctx.module.resolvePorts channel spec.ports = .ok ports ∧
      (ctx.analysis.isTimestamped channel = true → ctx.domains.simTime.isSome) ∧
      ctx.domains.resolve (ctx.analysis.connectivity ctx.module.name) ctx.clock.isVirtual ctx.module.name channel
        spec.clock = .ok c := by
  obtain ⟨ports', hports, h⟩ := bind_eq_ok.1 h
  split at h
  · cases h
  · next htime =>
    obtain ⟨c', hresolve, h⟩ := bind_eq_ok.1 h
    cases h
    refine ⟨hports, fun hstamp => ?_, hresolve⟩
    simpa [hstamp, Option.isSome_iff_ne_none] using htime

theorem dataChannels_ok : ∀ {specs : List (String × ChannelSpec)} {ds : List DataChannel} {s t : NameSupply},
    (ctx.dataChannels direction specs s).outcome = .ok (ds, t) →
    List.Forall₂ (ctx.Makes direction) specs ds ∧ s.Grows (ds.map (·.fired)) t
  | [], ds, s, t, h => by
    cases h
    exact ⟨.nil, .refl _⟩
  | (channel, spec) :: specs, ds, s, t, h => by
    simp only [dataChannels, Logged.outcome_bind, Logged.outcome_liftM, Logged.outcome_emit] at h
    obtain ⟨⟨ports, c⟩, hchecked, h⟩ := bind_eq_ok.1 h
    obtain ⟨-, -, h⟩ := bind_eq_ok.1 h
    obtain ⟨⟨rest, u⟩, hrest, h⟩ := bind_eq_ok.1 h
    cases h
    obtain ⟨hports, htime, hresolve⟩ := checked_ok hchecked
    obtain ⟨hmakes, hgrows⟩ := dataChannels_ok hrest
    exact ⟨.cons ⟨rfl, rfl, hports, rfl, htime, c, hresolve, rfl⟩ hmakes,
      (NameSupply.Grows.fresh s (channel ++ "_fired")).trans hgrows⟩

end ChannelContext

end TokenCircuit
