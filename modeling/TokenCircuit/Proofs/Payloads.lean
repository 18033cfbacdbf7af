import TokenCircuit.Proofs.Names
import Mathlib.Data.List.Forall2

/-!
# Where ports lie in a payload

The ports of a channel lie side by side below the bits of its host port. Their field names are distinct, so no port lies
at or below the place of another (`Payload.eq_of_isPrefix`), and none touches the time of a timestamped channel. The
type of the host port has the type of the port at that place (`Payload.follow?_path`), though the two are worked out
apart.
-/

namespace TokenCircuit

namespace Payload

variable {channel port port' name : String} {ports names taken : List String} {timestamped : Bool}

theorem fieldNamesFrom_ok (h : fieldNamesFrom channel taken ports = .ok names) :
    names.length = ports.length ∧ names.Nodup ∧ ∀ name ∈ names, name ∉ taken := by
  induction ports generalizing taken names with
  | nil =>
    cases h
    exact ⟨rfl, List.nodup_nil, fun _ hname => by cases hname⟩
  | cons port ports ih =>
    obtain ⟨name, -, h⟩ := bind_eq_ok.1 h
    split at h
    · cases h
    · next hname =>
      obtain ⟨rest, hrest, h⟩ := bind_eq_ok.1 h
      cases h
      obtain ⟨hlength, hnodup, hfresh⟩ := ih hrest
      refine ⟨by rw [List.length_cons, List.length_cons, hlength], List.nodup_cons.2 ⟨fun hmem => ?_, hnodup⟩, ?_⟩
      · exact hfresh name hmem (List.mem_cons_self ..)
      · rintro x (_ | ⟨_, hx⟩) hmem
        · exact hname hmem
        · exact hfresh x hx (List.mem_cons_of_mem _ hmem)

theorem eq_of_lookup (hlength : names.length = ports.length) (hnodup : names.Nodup)
    (h : (ports.zip names).lookup port = some name) (h' : (ports.zip names).lookup port' = some name) :
    port = port' := by
  obtain ⟨l₁, l₂, hzip, -⟩ := List.lookup_eq_some_iff.1 h
  obtain ⟨l₁', l₂', hzip', -⟩ := List.lookup_eq_some_iff.1 h'
  have hmem : (port, name) ∈ ports.zip names := hzip ▸ List.mem_append_right _ (List.mem_cons_self ..)
  have hmem' : (port', name) ∈ ports.zip names := hzip' ▸ List.mem_append_right _ (List.mem_cons_self ..)
  have hinj : ((ports.zip names).map Prod.snd).Nodup := by
    rw [List.map_snd_zip (Nat.le_of_eq hlength)]
    exact hnodup
  exact congrArg Prod.fst (List.inj_on_of_nodup_map hinj hmem hmem' rfl)

/-- No port lies at or below the place of another. -/
theorem eq_of_isPrefix {q q' rest : List String} (hport : port ∈ ports) (hport' : port' ∈ ports)
    (h : path channel ports port timestamped = .ok q) (h' : path channel ports port' timestamped = .ok q')
    (hbegins : q' <+: q ++ rest) : q' = q ∧ port' = port := by
  unfold path at h h'
  by_cases hlength : ports.length ≤ 1
  · -- a single port is the payload
    rw [if_pos hlength] at h h'
    cases h
    cases h'
    refine ⟨rfl, ?_⟩
    rcases ports with _ | ⟨x, _ | ⟨y, ports⟩⟩
    · cases hport
    · rw [List.mem_singleton.1 hport, List.mem_singleton.1 hport']
    · simp at hlength
  · rw [if_neg hlength] at h h'
    obtain ⟨names, hnames, h⟩ := bind_eq_ok.1 h
    obtain ⟨names', hnames', h'⟩ := bind_eq_ok.1 h'
    cases hnames.symm.trans hnames'
    obtain ⟨hsame, hnodup, -⟩ := fieldNamesFrom_ok hnames
    split at h
    · next name hname =>
      split at h'
      · next name' hname' =>
        cases h
        cases h'
        obtain rfl : name' = name := by
          rw [List.append_assoc] at hbegins
          have htail := (List.prefix_append_right_inj _).1 hbegins
          simpa using htail
        exact ⟨rfl, (eq_of_lookup hsame hnodup hname hname').symm⟩
      · cases h'
    · cases h

end Payload

/-! ### The types of payloads -/

theorem SignalType.follow?_append {t : SignalType} {path path' : List String} :
    t.follow? (path ++ path') = (t.follow? path).bind (·.follow? path') := by
  induction path generalizing t with
  | nil => rfl
  | cons name path ih =>
    rw [List.cons_append, follow?, follow?]
    cases t.field? name with
    | none => rfl
    | some part => exact ih

namespace Payload

variable {channel name : String} {ports : List Port} {names : List String} {timestamped : Bool}

theorem forall₂_fieldNamesFrom {taken ports : List String} (h : fieldNamesFrom channel taken ports = .ok names) :
    List.Forall₂ (fun port name => fieldName channel port = .ok name) ports names := by
  induction ports generalizing taken names with
  | nil => cases h; exact .nil
  | cons port ports ih =>
    obtain ⟨name, hname, h⟩ := bind_eq_ok.1 h
    split at h
    · cases h
    · obtain ⟨rest, hrest, h⟩ := bind_eq_ok.1 h
      cases h
      exact .cons hname (ih hrest)

theorem fieldName_of_lookup {ports : List String} {port : String} (hnames : fieldNames channel ports = .ok names)
    (h : (ports.zip names).lookup port = some name) : fieldName channel port = .ok name := by
  obtain ⟨l, l', hzip, -⟩ := List.lookup_eq_some_iff.1 h
  have hmem : (port, name) ∈ ports.zip names := hzip ▸ List.mem_append_right _ (List.mem_cons_self ..)
  exact (List.forall₂_iff_zip.1 (forall₂_fieldNamesFrom hnames)).2 hmem

/-- A field is found by its name, since no other field has it. -/
theorem field?_zipWith {port : Port} (hnodup : names.Nodup) (h : (name, port) ∈ names.zip ports) :
    (SignalType.bundle (List.zipWith (fun name port => ⟨name, false, carrier port⟩) names ports)).field? name =
      some (carrier port) := by
  induction names generalizing ports with
  | nil => cases h
  | cons first names ih =>
    cases ports with
    | nil => cases h
    | cons firstPort ports =>
      obtain ⟨hfirst, hnodup⟩ := List.nodup_cons.1 hnodup
      rw [List.zip_cons_cons, List.mem_cons] at h
      rcases h with heq | h
      · cases heq
        simp [SignalType.field?]
      · have hne : first ≠ name := fun heq => hfirst (heq ▸ (List.of_mem_zip h).1)
        have hrest := ih hnodup h
        rw [SignalType.field?] at hrest ⊢
        rw [List.zipWith_cons_cons, List.find?_cons_of_neg (by simpa using hne), hrest]

theorem carrier_eq {port : Port} : carrier port = if port.type = .clock then .uint 1 else port.type := by
  unfold carrier Port.isClock
  cases port.type <;> rfl

theorem follow?_basePath {data : SignalType} :
    (SignalType.decoupled (if timestamped then .timestamped data else data)).follow? (basePath timestamped) =
      some data := by
  cases timestamped <;> rfl

theorem dataType_of_many (h : ¬ ports.length ≤ 1) : dataType channel ports =
    (fieldNames channel (ports.map (·.name))).map fun names =>
      .bundle (List.zipWith (fun name port => ⟨name, false, carrier port⟩) names ports) := by
  rcases ports with _ | ⟨q, _ | ⟨q', rest⟩⟩
  · rfl
  · exact absurd (Nat.le_refl 1) h
  · rfl

/-- The name that a port looks up is the name of its own field. -/
theorem mem_zip_of_lookup {port : Port} (hnames : fieldNames channel (ports.map (·.name)) = .ok names)
    (hport : port ∈ ports) (h : ((ports.map (·.name)).zip names).lookup port.name = some name) :
    (name, port) ∈ names.zip ports := by
  have hfields := forall₂_fieldNamesFrom hnames
  have hlooked := fieldName_of_lookup hnames h
  have hlength := hfields.length_eq
  rw [List.length_map] at hlength
  rw [← List.map_snd_zip (Nat.le_of_eq hlength)] at hport
  obtain ⟨⟨name', port'⟩, hmem, heq⟩ := List.mem_map.1 hport
  obtain rfl : port' = port := heq
  have hown : fieldName channel port'.name = .ok name' :=
    (List.forall₂_iff_zip.1 (List.forall₂_map_left_iff.1 hfields).flip).2 hmem
  obtain rfl : name = name' := Except.ok.inj (hlooked.symm.trans hown)
  exact hmem

/-- The place of a port in the type of the host port has the type that carries the port. -/
theorem follow?_path {port : Port} {place : List String} {type : SignalType} (hport : port ∈ ports)
    (hpath : path channel (ports.map (·.name)) port.name timestamped = .ok place)
    (htype : Payload.type channel ports timestamped = .ok type) :
    (SignalType.decoupled type).follow? place = some (carrier port) := by
  obtain ⟨data, hdata, rfl⟩ := map_eq_ok.1 htype
  by_cases hlength : ports.length ≤ 1
  · -- a single port is the payload
    rcases ports with _ | ⟨q, _ | ⟨q', rest⟩⟩
    · cases hport
    · cases hpath
      cases hdata
      rw [List.mem_singleton.1 hport]
      exact follow?_basePath
    · simp at hlength
  · rw [path, List.length_map, if_neg hlength] at hpath
    obtain ⟨names, hnames, hpath⟩ := bind_eq_ok.1 hpath
    rw [dataType_of_many hlength, hnames] at hdata
    cases hdata
    split at hpath
    · next name hname =>
      cases hpath
      have hfield := field?_zipWith (fieldNamesFrom_ok hnames).2.1 (mem_zip_of_lookup hnames hport hname)
      rw [SignalType.follow?_append, follow?_basePath, Option.bind_some, SignalType.follow?, hfield]
      rfl
    · cases hpath

theorem isSuffix_of_fieldName {port : String} (h : fieldName channel port = .ok name) :
    name.toList <:+ port.toList := by
  unfold fieldName at h
  split at h
  · next found hfound =>
    cases h
    obtain ⟨start, -, hstart⟩ := List.mem_filterMap.1 (List.mem_of_find?_eq_some hfound)
    obtain ⟨rest, hrest, rfl⟩ := Option.map_eq_some_iff.1 hstart
    rw [String.toList_ofList]
    exact ⟨start.toList, List.isPrefixOf?_eq_some_iff_append_eq.1 hrest⟩
  · cases h

/-- A place is made of the fixed fields of a payload and of what ends the name of the port. -/
theorem mem_path {ports : List String} {port : String} {place : List String}
    (h : path channel ports port timestamped = .ok place) (hname : name ∈ place) :
    name = "bits" ∨ name = "data" ∨ name.toList <:+ port.toList := by
  have hbase : name ∈ basePath timestamped → name = "bits" ∨ name = "data" := by
    intro hname
    cases timestamped with
    | true => simpa [basePath] using hname
    | false => exact .inl (by simpa [basePath] using hname)
  unfold path at h
  split at h
  · cases h
    exact (hbase hname).imp_right .inl
  · obtain ⟨names, hnames, h⟩ := bind_eq_ok.1 h
    split at h
    · next found hfound =>
      cases h
      rcases List.mem_append.1 hname with hname | hname
      · exact (hbase hname).imp_right .inl
      · rw [List.mem_singleton.1 hname]
        exact .inr (.inr (isSuffix_of_fieldName (fieldName_of_lookup hnames hfound)))
    · cases h

end Payload

/-! ### Payloads that can be formed -/

namespace Payload

variable {channel start port name : String} {ports names taken : List String} {timestamped : Bool}

/-- `name` is what the name of the port adds to that of the channel, apart from an underscore in between. -/
def IsField (channel port name : String) : Prop :=
  (port = channel ++ "_" ++ name ∨ port = channel ++ name) ∧ ∃ c rest, name.toList = c :: rest ∧ c ≠ '_'

/-- If there are several ports, each has a field of its own. -/
def Separates (channel : String) (ports : List String) : Prop :=
  2 ≤ ports.length → ∃ names, List.Forall₂ (IsField channel) ports names ∧ names.Nodup

theorem afterStart?_eq_some : afterStart? start port = some name ↔ port = start ++ name := by
  rw [afterStart?, Option.map_eq_some_iff]
  constructor
  · rintro ⟨rest, hrest, rfl⟩
    refine String.toList_injective ?_
    rw [String.toList_append, String.toList_ofList, List.isPrefixOf?_eq_some_iff_append_eq.1 hrest]
  · rintro rfl
    refine ⟨name.toList, List.isPrefixOf?_eq_some_iff_append_eq.2 ?_, String.ofList_toList⟩
    rw [String.toList_append]

theorem isFieldName_iff : isFieldName name = true ↔ ∃ c rest, name.toList = c :: rest ∧ c ≠ '_' := by
  unfold isFieldName
  cases name.toList with
  | nil => simp
  | cons c rest => simp

/-- A name that goes on without an underscore does not also go on with one. -/
theorem afterStart?_underscore (hname : isFieldName name = true) :
    afterStart? (channel ++ "_") (channel ++ name) = none := by
  rw [Option.eq_none_iff_forall_ne_some]
  intro other hother
  have heq := congrArg String.toList (afterStart?_eq_some.1 hother)
  simp only [String.toList_append, List.append_assoc] at heq
  obtain ⟨c, rest, hchars, hc⟩ := isFieldName_iff.1 hname
  rw [List.append_cancel_left_eq, hchars] at heq
  exact hc (List.cons.inj heq).1

theorem fieldName_eq_ok : fieldName channel port = .ok name ↔ IsField channel port name := by
  constructor
  · intro h
    unfold fieldName at h
    split at h
    · next found hfound =>
      cases h
      refine ⟨?_, isFieldName_iff.1 (List.find?_some hfound)⟩
      obtain ⟨start, hstart, hrest⟩ := List.mem_filterMap.1 (List.mem_of_find?_eq_some hfound)
      rw [afterStart?_eq_some] at hrest
      rcases List.mem_pair.1 hstart with rfl | rfl
      · exact .inl hrest
      · exact .inr hrest
    · cases h
  · rintro ⟨hport, hname⟩
    rw [← isFieldName_iff] at hname
    rcases hport with rfl | rfl
    · have hfirst : afterStart? (channel ++ "_") (channel ++ "_" ++ name) = some name := afterStart?_eq_some.2 rfl
      simp [fieldName, hfirst, hname]
    · have hsecond : afterStart? channel (channel ++ name) = some name := afterStart?_eq_some.2 rfl
      simp [fieldName, afterStart?_underscore hname, hsecond, hname]

theorem fieldNamesFrom_of_forall₂ (hfields : List.Forall₂ (IsField channel) ports names) (hnodup : names.Nodup)
    (htaken : ∀ name ∈ names, name ∉ taken) : fieldNamesFrom channel taken ports = .ok names := by
  induction hfields generalizing taken with
  | nil => rfl
  | @cons port name ports names hfield _ ih =>
    obtain ⟨hname, hnodup⟩ := List.nodup_cons.1 hnodup
    have hrest : fieldNamesFrom channel (name :: taken) ports = .ok names := by
      refine ih hnodup fun other hother => ?_
      rw [List.mem_cons, not_or]
      exact ⟨fun heq => hname (heq ▸ hother), htaken other (List.mem_cons_of_mem _ hother)⟩
    rw [fieldNamesFrom, fieldName_eq_ok.2 hfield]
    show (if _ then _ else _) = _
    rw [if_neg (htaken name (List.mem_cons_self ..)), hrest]
    rfl

theorem succeeds_fieldNames :
    Succeeds (fieldNames channel ports) ↔ ∃ names, List.Forall₂ (IsField channel) ports names ∧ names.Nodup := by
  refine exists_congr fun names => ⟨fun h => ⟨?_, (fieldNamesFrom_ok h).2.1⟩, fun ⟨hfields, hnodup⟩ => ?_⟩
  · exact (forall₂_fieldNamesFrom h).imp fun port name => fieldName_eq_ok.1
  · exact fieldNamesFrom_of_forall₂ hfields hnodup fun name _ => List.not_mem_nil

theorem separates_of_length (h : ports.length ≤ 1) : Separates channel ports := fun hmany => absurd hmany (by omega)

theorem separates_iff (h : ¬ ports.length ≤ 1) : Separates channel ports ↔ Succeeds (fieldNames channel ports) := by
  rw [succeeds_fieldNames]
  exact imp_iff_right (by omega)

theorem succeeds_path (hport : port ∈ ports) :
    Succeeds (path channel ports port timestamped) ↔ Separates channel ports := by
  unfold path
  by_cases hlength : ports.length ≤ 1
  · rw [if_pos hlength]
    exact iff_of_true succeeds_ok (separates_of_length hlength)
  · rw [if_neg hlength, separates_iff hlength, succeeds_bind]
    refine exists_congr fun names => and_iff_left_of_imp fun hnames => ?_
    -- a port of the channel has a name to look up
    have hkeys : port ∈ (ports.zip names).map Prod.fst := by
      rwa [List.map_fst_zip (Nat.le_of_eq (fieldNamesFrom_ok hnames).1.symm)]
    obtain ⟨entry, hentry, rfl⟩ := List.mem_map.1 hkeys
    cases hlookup : (ports.zip names).lookup entry.1 with
    | some name => exact succeeds_ok
    | none => exact absurd (List.lookup_eq_none_iff.1 hlookup entry hentry) (by simp)

theorem succeeds_type {ports : List Port} :
    Succeeds (Payload.type channel ports timestamped) ↔ Separates channel (ports.map (·.name)) := by
  rw [Payload.type, succeeds_map]
  rcases ports with _ | ⟨port, _ | ⟨port', ports⟩⟩
  · exact iff_of_true succeeds_ok (separates_of_length (Nat.zero_le 1))
  · exact iff_of_true succeeds_ok (separates_of_length (Nat.le_refl 1))
  · have hmany : ¬ ((port :: port' :: ports).map (·.name)).length ≤ 1 := by simp
    rw [dataType_of_many (by simp), succeeds_map, separates_iff hmany]

end Payload

/-- A port is found below the bits of the host port, beside their time if they have one. -/
theorem PortGroup.payloadPath_ok {g : PortGroup} {port : String} {path : List String}
    (h : g.payloadPath port = .ok path) :
    ∃ rest, path = "bits" :: rest ∧ (g.timestamped = true → rest.head? = some "data") := by
  have hbase : ∃ rest, path = Payload.basePath g.timestamped ++ rest := by
    unfold payloadPath Payload.path at h
    split at h
    · exact ⟨[], by rw [List.append_nil]; exact (Except.ok.inj h).symm⟩
    · obtain ⟨names, -, h⟩ := bind_eq_ok.1 h
      split at h
      · next name _ => exact ⟨[name], (Except.ok.inj h).symm⟩
      · cases h
  obtain ⟨rest, rfl⟩ := hbase
  cases htime : g.timestamped with
  | true => exact ⟨"data" :: rest, rfl, fun _ => rfl⟩
  | false => exact ⟨rest, rfl, fun hfalse => by cases hfalse⟩

theorem Channel.payload_ok {c : Channel} {port : String} {value : Expr} (h : c.payload port = .ok value) :
    ∃ hostPort group rest, c.carried? = some (hostPort, group) ∧ group.payloadPath port = .ok ("bits" :: rest) ∧
      value = (Expr.ref hostPort).follow ("bits" :: rest) ∧ (group.timestamped = true → rest.head? = some "data") := by
  unfold payload at h
  split at h
  · next hostPort group hcarried =>
    obtain ⟨path, hpath, rfl⟩ := map_eq_ok.1 h
    obtain ⟨rest, rfl, htime⟩ := PortGroup.payloadPath_ok hpath
    exact ⟨hostPort, group, rest, hcarried, hpath, rfl, htime⟩
  · cases h

end TokenCircuit
