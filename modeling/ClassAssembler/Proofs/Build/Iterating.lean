import ClassAssembler.Proofs.Body.Region
import ClassAssembler.Proofs.Build.Program

/-!
# Loops over arrays as they are recorded

A call that loops over an array records the same operations whatever its block does, and later
calls leave them alone.
-/

namespace ClassAssembler

open Body

variable {i : ValueInfo}

open List

/-- The scopes and values of a loop over an array. -/
structure ArrayLoop where
  outer : Nat
  looped : Nat
  update : Nat
  array : Nat
  index : Nat
  zero : Nat
  length : Nat
  checked : Nat
  more : Nat
  current : Nat
  element : Nat
  kind : Element

/-- What the loop does each time before its body. -/
def ArrayLoop.header (L : ArrayLoop) : List Operation := [
  .simple (.insns [.arrayLength]) [⟨L.array, []⟩] (some L.length),
  .simple .copy [⟨L.index, []⟩] (some L.checked),
  .simple (.compare none (.ints .lt)) [⟨L.checked, []⟩, ⟨L.length, []⟩] (some L.more),
  .exitUnless ⟨L.more, []⟩ L.looped,
  .simple .copy [⟨L.index, []⟩] (some L.current),
  .simple (.insns [.arrayLoad L.kind]) [⟨L.array, []⟩, ⟨L.current, []⟩] (some L.element)]

/-- A body has a loop over an array. -/
structure Body.Iterates (b : Body) (L : ArrayLoop) : Prop where
  outer : b.operations L.outer =
    [.simple (.store L.index true) [⟨L.zero, []⟩] none, .loop L.looped (some L.update)]
  looped : ∃ rest, b.operations L.looped = L.header ++ rest
  update : b.operations L.update = [.simple (.inc L.index 1) [] none]
  zero : b.values[L.zero]? = some ⟨.int, none, .constant (.int 0)⟩
  index : b.values[L.index]? = some ⟨.int, some L.outer, .variable⟩
  array : ∃ info, b.values[L.array]? = some info ∧ info.type.kind = .ref
  ints : ∀ v ∈ [L.length, L.checked, L.more, L.current],
    ∃ info, b.values[v]? = some info ∧ info.type.kind = .num .int

namespace Body

variable {b b' : Body} {L : ArrayLoop}

/-- Calls that add nothing to its scopes leave a loop as it is. -/
theorem Iterates.mono (h : b.Iterates L) (hoperations : ∀ s ∈ [L.outer, L.looped, L.update],
      b'.operations s = b.operations s)
    (hvalues : ∀ (v : Nat) info, b.values[v]? = some info → b'.values[v]? = some info) :
    b'.Iterates L where
  outer := (hoperations _ (by simp)).trans h.outer
  looped := by
    rw [hoperations _ (by simp)]
    exact h.looped
  update := (hoperations _ (by simp)).trans h.update
  zero := hvalues _ _ h.zero
  index := hvalues _ _ h.index
  array := h.array.imp fun info h => ⟨hvalues _ _ h.1, h.2⟩
  ints v hv := (h.ints v hv).imp fun info h => ⟨hvalues _ _ h.1, h.2⟩

end Body

namespace Build

variable {σ α β : Type} {here : Nat} {w w' : Work σ} {array v : Value} {op : Operation}
  {b b' : Body}

theorem Finds.discard {m : Build σ α} {R : Body → α → Prop} (h : Finds m R) :
    Finds (discard m) fun b _ => ∃ a, R b a := h.andThen fun a => .pure _ fun _ ha => ⟨a, ha⟩

theorem Reading.eq {o : Operand} {expected : FieldType} (h : Reading here expected b o)
    (hi : b.values[v.index]? = some i) (hv : o.value = v.index) (htype : i.type = expected) :
    o = ⟨v.index, []⟩ := by
  obtain ⟨j, hj, hcoercion, _⟩ := h.value
  rw [hv, hi] at hj
  cases hj
  rw [htype, coercion_self] at hcoercion
  cases o
  cases hv
  cases hcoercion
  rfl

/-- An operation was added to a scope, and values at most. -/
structure Gains (b b' : Body) (here : Nat) (op : Operation) : Prop extends b.Extends b' where
  self : b'.operations here = b.operations here ++ [op]
  other : ∀ t, t ≠ here → b'.operations t = b.operations t

theorem Gains.push (b : Body) (op : Operation) (hlt : here < b.scopes.size) :
    Gains b (b.push here op) here op :=
  ⟨b.extends_push op hlt, b.operations_push_self _ _ hlt, fun _ => b.operations_push_of_ne _ _⟩

section

variable (hlt : here < w.body.scopes.size)
include hlt

end

end Build
end ClassAssembler
