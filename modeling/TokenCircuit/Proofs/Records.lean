import TokenCircuit.Renaming.RenameMap
import TokenCircuit.Proofs.Names

/-!
# The rename table as a list of records

Whatever is recorded about a token-driven module, the top module or dropped ports is recorded one signal at a time, so a
table is no more than a list of records (`RenameMap.putAll`). The first record of a signal is the one that counts.
-/

namespace TokenCircuit

section Lookup

variable {κ α : Type} [BEq κ] [LawfulBEq κ] {k : κ} {v : α} {l : List (κ × α)}

theorem mem_of_lookup (h : l.lookup k = some v) : (k, v) ∈ l := by
  obtain ⟨before, after, hsplit, -⟩ := List.lookup_eq_some_iff.1 h
  rw [hsplit]
  exact List.mem_append_right _ (List.mem_cons_self ..)

theorem exists_lookup (h : (k, v) ∈ l) : ∃ w, l.lookup k = some w ∧ (k, w) ∈ l := by
  obtain ⟨w, hw⟩ := Option.isSome_iff_exists.1 (List.lookup_isSome_iff.2 ⟨(k, v), h, beq_self_eq_true k⟩)
  exact ⟨w, hw, mem_of_lookup hw⟩

theorem lookup_eq_none (h : ∀ w, (k, w) ∉ l) : l.lookup k = none := by
  refine List.lookup_eq_none_iff.2 fun entry hentry => bne_iff_ne.2 ?_
  rintro rfl
  exact h entry.2 hentry

end Lookup

/-- What bears a name that nothing else bears is found by it. -/
theorem find?_of_nodup {α : Type} {name : α → String} {l : List α} {x : α} (hnodup : (l.map name).Nodup) (hx : x ∈ l) :
    l.find? (name · == name x) = some x := by
  cases hfound : l.find? (name · == name x) with
  | none => exact absurd (beq_self_eq_true (name x)) (List.find?_eq_none.1 hfound x hx)
  | some y =>
    have hname : name y = name x := by simpa using List.find?_some hfound
    rw [List.inj_on_of_nodup_map hnodup (List.mem_of_find?_eq_some hfound) hx hname]

namespace RenameMap

variable {m : RenameMap} {old : Target} {new : Option Target} {records records' : List (Target × Option Target)}

/-- Records one signal after the other. -/
def putAll (m : RenameMap) (records : List (Target × Option Target)) : RenameMap :=
  records.foldl (fun m record => (m.put record.1 record.2).2) m

theorem putAll_append : m.putAll (records ++ records') = (m.putAll records).putAll records' := List.foldl_append

theorem get?_entries_put {target : Target} :
    (m.put old new).2.entries.get? target = (m.entries.get? target).or (if target = old then some new else none) := by
  show (m.entries.insertIfNew old new).get? target = _
  unfold OrderedMap.insertIfNew
  split
  · next hold =>
    obtain ⟨found, hfound⟩ := OrderedMap.mem_iff_get?.1 hold
    split
    · next heq => rw [heq, hfound]; rfl
    · rw [Option.or_none]
  · next hold =>
    rw [OrderedMap.get?_insert]
    split
    · next heq =>
      rw [heq, OrderedMap.get?_eq_none_iff.2 hold]
      rfl
    · rw [Option.or_none]

/-- The first record of a signal counts. -/
theorem get?_entries_putAll {target : Target} :
    (m.putAll records).entries.get? target = (m.entries.get? target).or (records.lookup target) := by
  induction records generalizing m with
  | nil => exact (Option.or_none).symm
  | cons record records ih =>
    have hstep : (m.putAll (record :: records)) = (m.put record.1 record.2).2.putAll records := rfl
    rw [hstep, ih, get?_entries_put, Option.or_assoc, List.lookup_cons]
    congr 1
    by_cases heq : target = record.1
    · rw [if_pos heq, beq_iff_eq.2 heq]
      rfl
    · rw [if_neg heq, beq_false_of_ne heq]
      rfl

theorem mem_of_get?_putAll {target place : Target} (h : (RenameMap.putAll {} records).get? target = some place) :
    (target, some place) ∈ records := by
  have hfound := Option.join_eq_some_iff.1 h
  rw [get?_entries_putAll] at hfound
  exact mem_of_lookup hfound

/-! ### The records of each operation -/

def moduleRecords (module : String) (layout : Layout) : List (Target × Option Target) :=
  layout.entries.map fun entry => (⟨module, entry.1⟩, some ⟨module, entry.2.reference⟩)

theorem recordModule_eq {module : String} {layout : Layout} :
    m.recordModule module layout = m.putAll (moduleRecords module layout) := by
  rw [putAll, moduleRecords, List.foldl_map]
  rfl

/-- The ports of top channels, each with its channel. -/
def topMembers (channels : OrderedMap String TopChannel) : List (String × TopChannel × String) :=
  channels.entries.flatMap fun entry => entry.2.ports.map fun port => (entry.1, entry.2, port)

def topRecord (top : String) (member : String × TopChannel × String) : Except PayloadError (Target × Option Target) :=
  (Payload.path member.1 member.2.1.ports member.2.2 member.2.1.timestamped).map fun path =>
    (⟨top, member.2.2⟩, some ⟨top, (PortLocation.channel (hostPortName member.1 member.2.1.direction) path).reference⟩)

theorem recordTopPorts_ok {top : String} {members : List (String × TopChannel × String)}
    (h : (recordTopPorts top members m).2 = .ok ()) :
    ∃ records, List.Forall₂ (fun member record => topRecord top member = .ok record) members records ∧
      (recordTopPorts top members m).1 = m.putAll records := by
  induction members generalizing m with
  | nil => exact ⟨[], .nil, rfl⟩
  | cons member members ih =>
    obtain ⟨channel, c, port⟩ := member
    rw [recordTopPorts] at h ⊢
    split at h
    · next path hpath =>
      obtain ⟨records, hall, heq⟩ := ih h
      exact ⟨_ :: records, .cons (map_eq_ok.2 ⟨path, hpath, rfl⟩) hall, heq⟩
    · cases h

theorem recordTop_ok {top : String} {channels : OrderedMap String TopChannel}
    (h : (m.recordTop top channels).2 = .ok ()) :
    ∃ records, List.Forall₂ (fun member record => topRecord top member = .ok record) (topMembers channels) records ∧
      (m.recordTop top channels).1 = m.putAll records :=
  recordTopPorts_ok h

/-- The records of lost ports. -/
def lostRecords (module : String) (ports : List String) : List (Target × Option Target) :=
  ports.map fun port => (⟨module, port⟩, none)

theorem lookup_lostRecords {module port : String} (ports : List String) :
    (lostRecords module ports).lookup ⟨module, port⟩ = if port ∈ ports then some none else none := by
  by_cases hport : port ∈ ports
  · have hrecord : (⟨module, port⟩, none) ∈ lostRecords module ports := List.mem_map.2 ⟨port, hport, rfl⟩
    obtain ⟨new, hlookup, hmem⟩ := exists_lookup hrecord
    obtain ⟨_, -, heq⟩ := List.mem_map.1 hmem
    cases heq
    rw [if_pos hport, hlookup]
  · rw [if_neg hport]
    refine lookup_eq_none fun new hmem => hport ?_
    obtain ⟨_, hname, heq⟩ := List.mem_map.1 hmem
    cases heq
    exact hname

theorem recordDropped_fst {top : String} {ports : List String} :
    (recordDropped top ports m).1 = m.putAll (lostRecords top ports) := by
  induction ports generalizing m with
  | nil => rfl
  | cons port ports ih => exact ih

end RenameMap

end TokenCircuit
