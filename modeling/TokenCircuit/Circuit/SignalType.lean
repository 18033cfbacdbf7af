/-!
Types of signals.

A bundle groups named fields, some of which may flow against the others. Two bundles recur: a `decoupled` payload
comes with the handshake of a channel, and a `timestamped` one with the time at which it holds.
-/

namespace TokenCircuit

/-- A bundle field; a flipped one flows against the bundle. -/
structure Field (τ : Type) where
  name : String
  flipped : Bool
  type : τ
  deriving DecidableEq, Repr, Inhabited

inductive SignalType where
  | clock
  | uint (width : Nat)
  | sint (width : Nat)
  | vector (element : SignalType) (size : Nat)
  | bundle (fields : List (Field SignalType))
  deriving Repr, Inhabited

namespace SignalType

/-- Structural induction in which the fields of a bundle come with a hypothesis each. -/
@[elab_as_elim, induction_eliminator]
theorem induct {motive : SignalType → Prop} (clock : motive .clock) (uint : ∀ width, motive (.uint width))
    (sint : ∀ width, motive (.sint width))
    (vector : ∀ element size, motive element → motive (.vector element size))
    (bundle : ∀ fields, (∀ f ∈ fields, motive f.type) → motive (.bundle fields)) (t : SignalType) : motive t :=
  @SignalType.rec motive (fun fields => ∀ f ∈ fields, motive f.type) (fun f => motive f.type) clock uint sint vector
    bundle (by simp) (fun _ _ head tail => by simpa using ⟨head, tail⟩) (fun _ _ _ type => type) t

/-! ### Equality -/

mutual

def beq : SignalType → SignalType → Bool
  | .clock, .clock => true
  | .uint w, .uint w' => w == w'
  | .sint w, .sint w' => w == w'
  | .vector t n, .vector t' n' => beq t t' && n == n'
  | .bundle fs, .bundle fs' => beqFields fs fs'
  | _, _ => false

def beqFields : List (Field SignalType) → List (Field SignalType) → Bool
  | [], [] => true
  | ⟨n, b, t⟩ :: fs, ⟨n', b', t'⟩ :: fs' => n == n' && b == b' && beq t t' && beqFields fs fs'
  | _, _ => false

end

mutual

theorem eq_of_beq : ∀ {a b : SignalType}, beq a b = true → a = b
  | .clock, b, h | .uint _, b, h | .sint _, b, h => by cases b <;> simp_all [beq]
  | .vector .., b, h => by
    cases b <;> simp [beq] at h
    rw [eq_of_beq h.1, h.2]
  | .bundle _, b, h => by
    cases b <;> simp [beq] at h
    rw [eq_of_beqFields h]

theorem eq_of_beqFields : ∀ {as bs : List (Field SignalType)}, beqFields as bs = true → as = bs
  | [], bs, h => by cases bs <;> simp_all [beqFields]
  | ⟨_, _, _⟩ :: _, [], h => by simp [beqFields] at h
  | ⟨_, _, _⟩ :: _, ⟨_, _, _⟩ :: _, h => by
    simp only [beqFields, Bool.and_eq_true, beq_iff_eq] at h
    rw [h.1.1.1, h.1.1.2, eq_of_beq h.1.2, eq_of_beqFields h.2]

end

mutual

theorem beq_self : ∀ a : SignalType, beq a a = true
  | .clock => rfl
  | .uint _ | .sint _ => by simp [beq]
  | .vector t _ => by simp [beq, beq_self t]
  | .bundle fs => by simp [beq, beqFields_self fs]

theorem beqFields_self : ∀ as : List (Field SignalType), beqFields as as = true
  | [] => rfl
  | ⟨_, _, t⟩ :: fs => by simp [beqFields, beq_self t, beqFields_self fs]

end

instance : DecidableEq SignalType := fun a b =>
  decidable_of_iff (beq a b = true) ⟨eq_of_beq, fun h => h ▸ beq_self a⟩

/-! ### Bundles -/

def isClock : SignalType → Bool
  | .clock => true
  | _ => false

/-- The type of a bundle's first field of that name. -/
def field? (name : String) : SignalType → Option SignalType
  | .bundle fields => (fields.find? (·.name == name)).map (·.type)
  | _ => none

/-- The type at the end of a path of fields. -/
def follow? : SignalType → List String → Option SignalType
  | t, [] => some t
  | t, name :: path => (t.field? name).bind (follow? · path)

def bool : SignalType := .uint 1

/-- Width of the time field of a timestamped payload. -/
def timeWidth : Nat := 64

/-- A payload with the handshake that moves it. -/
def decoupled (bits : SignalType) : SignalType :=
  .bundle [⟨"ready", true, bool⟩, ⟨"valid", false, bool⟩, ⟨"bits", false, bits⟩]

/-- A payload with the time at which it holds. -/
def timestamped (data : SignalType) : SignalType :=
  .bundle [⟨"data", false, data⟩, ⟨"time", false, .uint timeWidth⟩]

end SignalType

end TokenCircuit
