import TokenCircuit.Proofs.Reachability
import TokenCircuit.Proofs.Records
import Mathlib.Data.List.Induction

/-!
# The first record of a signal counts

A rename table is filled in steps: with one signal, with the layout of a module, with the channels of the top module or
with its dropped ports. Whatever the step, it comes down to records made one after the other
(`RenameMap.Step.run_eq_putAll`); one that stops at a port without a place has made those before it. A record of a
signal that is known changes nothing, so the table lists the signals as they came up first (`RenameMap.keys_putAll`),
each with what was recorded then.
-/

namespace TokenCircuit

/-- The values before the first failure. -/
def untilError {ε α : Type} : List (Except ε α) → List α
  | .ok a :: rest => a :: untilError rest
  | _ => []

namespace RenameMap

/-- One of the ways to fill a table. -/
inductive Step where
  | signal (old new : Target)
  | deleted (old : Target)
  | module (name : String) (layout : Layout)
  | top (name : String) (channels : OrderedMap String TopChannel)
  | dropped (name : String) (ports : List String)

namespace Step

/-- The table after the step, also if the step fails. -/
def run (m : RenameMap) : Step → RenameMap
  | .signal old new => (m.record old new).2
  | .deleted old => (m.recordDeleted old).2
  | .module name layout => m.recordModule name layout
  | .top name channels => (m.recordTop name channels).1
  | .dropped name ports => (recordDropped name ports m).1

/-- What the step has to say, signal by signal. Of the top module this ends at the first port without a place. -/
def records : Step → List (Target × Option Target)
  | .signal old new => [(old, some new)]
  | .deleted old => [(old, none)]
  | .module name layout => moduleRecords name layout
  | .top name channels => untilError ((topMembers channels).map (topRecord name))
  | .dropped name ports => lostRecords name ports

end Step

/-- The table after the steps, from the empty one. -/
def ofSteps (steps : List Step) : RenameMap := steps.foldl Step.run {}

variable {m : RenameMap} {old : Target} {new : Option Target}

/-! ### Steps as records -/

theorem recordTopPorts_fst {top : String} {members : List (String × TopChannel × String)} :
    (recordTopPorts top members m).1 = m.putAll (untilError (members.map (topRecord top))) := by
  induction members generalizing m with
  | nil => rfl
  | cons member members ih =>
    obtain ⟨channel, c, port⟩ := member
    rw [recordTopPorts, List.map_cons, topRecord]
    cases Payload.path channel c.ports port c.timestamped with
    | error e => rfl
    | ok path => exact ih

theorem Step.run_eq_putAll (step : Step) : step.run m = m.putAll step.records := by
  cases step with
  | signal old new | deleted old => rfl
  | module name layout => exact recordModule_eq
  | top name channels => exact recordTopPorts_fst
  | dropped name ports => exact recordDropped_fst

theorem ofSteps_eq_putAll (steps : List Step) : ofSteps steps = putAll {} (steps.flatMap Step.records) := by
  unfold ofSteps
  generalize ({} : RenameMap) = m
  induction steps generalizing m with
  | nil => rfl
  | cons step steps ih => rw [List.foldl_cons, ih, Step.run_eq_putAll, List.flatMap_cons, putAll_append]

/-! ### One record -/

theorem put_of_mem (h : old ∈ m.entries) : m.put old new = (false, m) := by
  rw [put, OrderedMap.insertIfNew, if_pos h, decide_eq_false (not_not_intro h)]

theorem fst_put : (m.put old new).1 = true ↔ old ∉ m.entries := decide_eq_true_iff

/-- A signal that is new comes last. -/
theorem keys_put : (m.put old new).2.entries.keys =
    if old ∈ m.entries.keys then m.entries.keys else m.entries.keys ++ [old] := by
  by_cases h : old ∈ m.entries
  · rw [put_of_mem h]
    exact (if_pos h).symm
  · have hkeys : m.entries.keys.filter (· ≠ old) = m.entries.keys := by
      refine List.filter_eq_self.2 fun key hkey => decide_eq_true ?_
      rintro rfl
      exact h hkey
    rw [put, OrderedMap.insertIfNew, if_neg h, OrderedMap.keys_insert, hkeys]
    exact (if_neg h).symm

/-! ### All records -/

/-- The table lists every signal once, where it came up first. -/
theorem keys_putAll (records : List (Target × Option Target)) :
    (putAll {} records).entries.keys = (records.map Prod.fst).eraseDups := by
  -- on the last record, since whether a signal is new depends on the records before
  induction records using List.reverseRecOn with
  | nil => rfl
  | append_singleton records record ih =>
    have hstep : putAll {} (records ++ [record]) = ((putAll {} records).put record.1 record.2).2 := putAll_append
    rw [hstep, keys_put, ih, List.map_append, List.map_singleton, eraseDups_concat]
    simp only [List.mem_eraseDups]

theorem mem_entries_putAll {records : List (Target × Option Target)} :
    (old, new) ∈ (putAll {} records).entries.entries ↔ records.lookup old = some new := by
  rw [← OrderedMap.get?_eq_some_iff, get?_entries_putAll]
  rfl

/-- What is in the table has a place or is deleted, not both, and of anything else nothing is known. -/
theorem known_iff : (old ∈ m.entries ↔ Xor (∃ place, m.get? old = some place) (m.isDeleted old = true)) ∧
    (old ∉ m.entries ↔ m.get? old = none ∧ m.isDeleted old = false) := by
  rw [← OrderedMap.get?_eq_none_iff, OrderedMap.mem_iff_get?]
  unfold get? isDeleted
  rcases m.entries.get? old with _ | _ | place <;> simp [Xor]

/-- After any steps the table lists the signals recorded, each once and in the order in which they came up first, with
what was recorded of it then. Recording a signal tells whether it is the first record of it and changes nothing if it is
not. A signal in the table either has a new place or is deleted, and of no other signal is either known. -/
theorem first_record_counts (steps : List Step) :
    let m := ofSteps steps
    let records := steps.flatMap Step.records
    (m.entries.keys.Nodup ∧ m.entries.keys = (records.map Prod.fst).eraseDups ∧
      ∀ old new, (old, new) ∈ m.entries.entries ↔ records.lookup old = some new) ∧
    (∀ old new, ((m.record old new).1 = true ↔ old ∉ records.map Prod.fst) ∧
      ((m.record old new).1 = false → (m.record old new).2 = m)) ∧
    (∀ old, ((m.recordDeleted old).1 = true ↔ old ∉ records.map Prod.fst) ∧
      ((m.recordDeleted old).1 = false → (m.recordDeleted old).2 = m)) ∧
    ∀ old, (old ∈ m.entries.keys ↔ Xor (∃ place, m.get? old = some place) (m.isDeleted old = true)) ∧
      (old ∉ m.entries.keys ↔ m.get? old = none ∧ m.isDeleted old = false) := by
  intro m records
  have hm : m = putAll {} records := ofSteps_eq_putAll steps
  have hkeys : m.entries.keys = (records.map Prod.fst).eraseDups := by rw [hm, keys_putAll]
  have hput : ∀ old new, ((m.put old new).1 = true ↔ old ∉ records.map Prod.fst) ∧
      ((m.put old new).1 = false → (m.put old new).2 = m) := by
    intro old new
    refine ⟨?_, fun hfalse => ?_⟩
    · rw [fst_put, ← List.mem_eraseDups, ← hkeys]
      rfl
    · have hold : old ∈ m.entries := by
        by_contra hnew
        rw [fst_put.2 hnew] at hfalse
        cases hfalse
      rw [put_of_mem hold]
  refine ⟨⟨m.entries.nodup, hkeys, fun old new => ?_⟩, fun old new => hput old (some new), fun old => hput old none,
    fun old => known_iff⟩
  rw [hm]
  exact mem_entries_putAll

end RenameMap

end TokenCircuit
