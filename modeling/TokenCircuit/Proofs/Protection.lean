import TokenCircuit.Demo.Stages
import TokenCircuit.Proofs.Accounting

/-!
# Protected signals

Annotations are pruned by module: those that protect a signal of a target go, whatever signal it is, and all others
stay. The rename table is filled signal by signal, and it has entries for two kinds of modules: the targets, and the
main module if it is rewired. So the two agree on every module but a rewired main module. There a protection stays
although its signal has moved or is gone, exactly if the signal is a port in a top channel or a port that was dropped
(`Circuit.channelize_keeps_annotations`).
-/

namespace TokenCircuit

/-- The signal that an annotation protects. -/
def Annotation.signal? : Annotation → Option Target
  | .dontTouch target => some target
  | .noDedup _ => none

theorem Annotation.protectsIn_eq (modules : List String) (note : Annotation) :
    note.protectsIn modules = note.signal?.any (·.module ∈ modules) := by
  cases note <;> rfl

namespace Circuit

variable {c : Circuit} {a : Analysis} {config : Config} {models : List (String × TokenModel)} {top rewired : Module}
  {records : List (Target × Option Target)} {out : Channelization} {annotations : List Annotation}

namespace Channelized

/-- The table has an entry for a port of a rewired main module if it is in a top channel or lost. -/
theorem mem_entries_main (h : c.Channelized a config models records out) (hmain : c.main ∉ a.targets)
    (hrewired : c.MainRewired a config top rewired records) {port : String} :
    ⟨c.main, port⟩ ∈ out.renames.entries ↔ a.InTopChannel port ∨ port ∈ gonePorts top rewired := by
  rw [OrderedMap.mem_iff_get?, h.get?_main hmain]
  rcases hrewired.lookup_records port with ⟨hin, place, hlookup⟩ | ⟨hout, hlookup⟩
  · exact iff_of_true ⟨_, hlookup⟩ (.inl hin)
  · rw [hlookup, or_iff_right hout]
    by_cases hgone : port ∈ gonePorts top rewired
    · exact iff_of_true ⟨none, if_pos hgone⟩ hgone
    · rw [if_neg hgone]
      exact iff_of_false (fun ⟨_, hfound⟩ => by cases hfound) hgone

/-- Outside of targets, the table speaks of a rewired main module only. -/
theorem mem_entries_iff (h : c.Channelized a config models records out) {old : Target} (hold : old.module ∉ a.targets) :
    old ∈ out.renames.entries ↔ old.module = c.main ∧ ∃ top rewired, c.module? c.main = some top ∧
      out.circuit.module? c.main = some rewired ∧ (a.InTopChannel old.reference ∨
        ∃ q ∈ top.ports, q.name = old.reference ∧ rewired.port? old.reference = none) := by
  obtain ⟨module, port⟩ := old
  constructor
  · intro hentry
    obtain rfl : module = c.main := (h.port_of_mem hentry).1.resolve_left hold
    obtain ⟨top, rewired, hrewired, hresult, -⟩ := h.rewired hold
    refine ⟨rfl, top, rewired, hrewired.found, hresult, ?_⟩
    rw [h.mem_entries_main hold hrewired, mem_gonePorts_iff] at hentry
    exact hentry
  · rintro ⟨rfl, top, rewired, htop, hresult, hfate⟩
    obtain ⟨top', rewired', hrewired, hresult', -⟩ := h.rewired hold
    cases htop.symm.trans hrewired.found
    cases hresult.symm.trans hresult'
    rw [h.mem_entries_main hold hrewired, mem_gonePorts_iff]
    exact hfate

end Channelized

/-- The annotations that stay are all but those that protect a signal of a target, in the order in which they were. One
that protects a signal with an entry in the rename table is about a main module that is no target, and about a port of
it that is in a top channel or that the new main module does not have; and every such port has an entry. -/
theorem channelize_keeps_annotations (h : (c.channelize a annotations config).outcome = .ok out) :
    (out.annotations = annotations.filter fun note => note.signal?.all (·.module ∉ a.targets)) ∧
    ∀ target, .dontTouch target ∈ out.annotations → (target ∈ out.renames.entries ↔
      c.main ∉ a.targets ∧ target.module = c.main ∧ ∃ top rewired, c.module? c.main = some top ∧
        out.circuit.module? c.main = some rewired ∧ (a.InTopChannel target.reference ∨
          ∃ q ∈ top.ports, q.name = target.reference ∧ rewired.port? target.reference = none)) := by
  have hkept : out.annotations = annotations.filter fun note => note.signal?.all (·.module ∉ a.targets) := by
    obtain ⟨p, p', -, -, rfl⟩ := channelize_steps h
    refine List.filter_congr fun note _ => ?_
    rw [note.protectsIn_eq]
    cases note.signal? with
    | none => rfl
    | some target => simp [← OrderedSet.mem_toList]
  obtain ⟨models, records, hdone⟩ := channelize_ok h
  refine ⟨hkept, fun target hnote => ?_⟩
  have hmodule : target.module ∉ a.targets := by
    rw [hkept] at hnote
    exact of_decide_eq_true (List.mem_filter.1 hnote).2
  rw [hdone.mem_entries_iff hmodule]
  exact ⟨fun hmain => ⟨hmain.1 ▸ hmodule, hmain⟩, fun hmain => hmain.2⟩

end Circuit

namespace Demo.Stages

/-- The sum of an adder is no longer protected; the instance `first` is, and has no entry. -/
theorem instance_stays_protected :
    ∃ out, (circuit.channelize analysis
        [.dontTouch ⟨"Stage", "sum"⟩, .dontTouch ⟨"Top", "first"⟩, .noDedup "Stage"] {}).outcome = .ok out ∧
      out.annotations = [.dontTouch ⟨"Top", "first"⟩, .noDedup "Stage"] ∧
      ⟨"Top", "first"⟩ ∉ out.renames.entries := by
  have hok : ((circuit.channelize analysis [.dontTouch ⟨"Stage", "sum"⟩, .dontTouch ⟨"Top", "first"⟩,
      .noDedup "Stage"] {}).outcome.toOption.map fun _ => ()) = some () := by
    decide +kernel
  obtain ⟨out, hout, -⟩ := exists_ok_of_map hok
  obtain ⟨hkept, hentries⟩ := Circuit.channelize_keeps_annotations hout
  have hnotes : out.annotations = [.dontTouch ⟨"Top", "first"⟩, .noDedup "Stage"] := hkept.trans (by decide +kernel)
  refine ⟨out, hout, hnotes, fun hentry => ?_⟩
  obtain ⟨-, -, top', rewired, htop, -, hfate⟩ := (hentries _ (hnotes ▸ List.mem_cons_self ..)).1 hentry
  have hmain : circuit.module? circuit.main = some top := by decide +kernel
  cases hmain.symm.trans htop
  rcases hfate with hin | ⟨q, hq, hname, -⟩
  · revert hin
    unfold Analysis.InTopChannel
    decide +kernel
  · revert q
    decide +kernel

/-- The ports of the module around the adders stay protected, although one has moved and the other is gone. -/
theorem lost_ports_stay_protected :
    ∃ out, (circuit.channelize analysis [.dontTouch ⟨"Top", "sum"⟩, .dontTouch ⟨"Top", "clock"⟩] {}).outcome = .ok out ∧
      out.annotations = [.dontTouch ⟨"Top", "sum"⟩, .dontTouch ⟨"Top", "clock"⟩] ∧
      out.renames.get? ⟨"Top", "sum"⟩ = some ⟨"Top", "sum_source.bits"⟩ ∧
      out.renames.isDeleted ⟨"Top", "clock"⟩ = true ∧
      ⟨"Top", "sum"⟩ ∈ out.renames.entries ∧ ⟨"Top", "clock"⟩ ∈ out.renames.entries := by
  have hfound : ((circuit.channelize analysis
      [.dontTouch ⟨"Top", "sum"⟩, .dontTouch ⟨"Top", "clock"⟩] {}).outcome.toOption.map
      fun out => decide (out.annotations = [.dontTouch ⟨"Top", "sum"⟩, .dontTouch ⟨"Top", "clock"⟩] ∧
        out.renames.get? ⟨"Top", "sum"⟩ = some ⟨"Top", "sum_source.bits"⟩ ∧
      out.renames.isDeleted ⟨"Top", "clock"⟩ = true ∧
        ⟨"Top", "sum"⟩ ∈ out.renames.entries ∧ ⟨"Top", "clock"⟩ ∈ out.renames.entries)) = some true := by
    decide +kernel
  obtain ⟨out, hout, hfound⟩ := exists_ok_of_map hfound
  exact ⟨out, hout, of_decide_eq_true hfound⟩

end Demo.Stages

end TokenCircuit
