import ClassAssembler.Proofs.Build.Nesting

/-!
# Constructs step by step

A construct makes calls without blocks, opens scopes, lets blocks build into them, and adds an
operation that holds what it opened.
-/

namespace ClassAssembler

open Operation
namespace Build

/-- A way to follow the steps of a construct. `G here P m Q` is about steps in `here` or in the
scopes `P`, which nothing holds yet; after the steps these are `Q`. -/
structure Follows {σ : Type} (G : {α : Type} → Nat → List Nat → Build σ α → (α → List Nat) → Prop) :
    Prop where
  bind {α β : Type} {here : Nat} {P : List Nat} {m : Build σ α} {Q : α → List Nat}
    {f : α → Build σ β} {R : β → List Nat} :
    G here P m Q → (∀ a, G here (Q a) (f a) R) → G here P (m >>= f) R
  quiet {α : Type} {here x : Nat} {P : List Nat} {m : Build σ α} :
    x = here ∨ x ∈ P → Calm x m → (∀ mayInit, Stepwise mayInit m) → G here P m fun _ => P
  visit {α : Type} {here x : Nat} {P : List Nat} {m : Build σ α} :
    x = here ∨ x ∈ P → G x [] m (fun _ => []) → G here P m fun _ => P
  openScope {here x : Nat} {P : List Nat} {kind : ScopeKind} : x = here ∨ x ∈ P →
    kind ≠ .catchAll → kind ≠ .finallyCopy → G here P (openScope x kind) fun c => P ++ [c]
  hold {here : Nat} {P : List Nat} {op : Operation} : (∀ S, op ≠ .switch S) → P ⊆ op.owned →
    G here P (push here op) fun _ => []

namespace Follows

variable {σ α β : Type} {G : {α : Type} → Nat → List Nat → Build σ α → (α → List Nat) → Prop}
  {here x : Nat} {P : List Nat} {m : Build σ α} (hG : Follows G)
include hG

theorem leaf (hx : x = here ∨ x ∈ P) (hm : Leaf x (fun _ => True) (fun _ => True) m) :
    G here P m fun _ => P := hG.quiet hx hm.calm hm.stepwise

theorem find {R : Body → α → Prop} (hm : Finds m R) : G here P m fun _ => P :=
  hG.quiet (.inl rfl) hm.calm fun _ => .find hm

theorem discard {R : Body → α → Prop} (hm : Finds m R) : G here P (discard m) fun _ => P :=
  hG.bind (hG.find hm) fun _ => hG.find (R := fun _ _ => True) (.pure _ fun _ => trivial)

theorem exitUnless (hx : x = here ∨ x ∈ P) (cond : Value) :
    G here P (exitUnless x cond) fun _ => P :=
  hG.quiet hx (leaf_exitUnless (anywhere cond)).calm (leaf_exitUnless (anywhere cond)).stepwise

theorem enter {kind : ScopeKind} {m : Nat → Build σ α} {f : Nat → α → Build σ β} {R : β → List Nat}
    (hk : kind ≠ .catchAll) (hk' : kind ≠ .finallyCopy) (hm : ∀ c, G c [] (m c) fun _ => [])
    (hf : ∀ c a, G here (P ++ [c]) (f c a) R) :
    G here P (Build.openScope here kind >>= fun c => m c >>= f c) R :=
  hG.bind (hG.openScope (.inl rfl) hk hk') fun c => hG.bind (hG.visit (.inr (by simp))
    (hm c)) (hf c)

variable {block : Block σ} {body : Nat → Value → Build σ Unit}

theorem ifThen (cond : Value) (hblock : ∀ c, G c [] (block c) fun _ => []) :
    G here [] (ifThen here cond block) fun _ => [] :=
  hG.bind (hG.find (.operand cond .boolean)) fun _ =>
    hG.enter (by decide) (by decide) hblock fun _ _ =>
      hG.hold (by simp) (by simp [owned, nested])

theorem ifElse (cond : Value) {whenTrue whenFalse : Block σ}
    (htrue : ∀ c, G c [] (whenTrue c) fun _ => []) (hfalse : ∀ c, G c [] (whenFalse c)
      fun _ => []) :
    G here [] (ifElse here cond whenTrue whenFalse) fun _ => [] :=
  hG.bind (hG.find (.operand cond .boolean)) fun _ =>
    hG.enter (by decide) (by decide) htrue fun _ _ =>
      hG.enter (by decide) (by decide) hfalse fun _ _ =>
        hG.hold (by simp) (by simp [owned, nested])

theorem nest (hblock : ∀ c, G c [] (block c) fun _ => []) :
    G here [] (Build.block here block) fun _ => [] :=
  hG.enter (by decide) (by decide) hblock fun _ _ =>
    hG.hold (by simp) (by simp [owned, nested])

theorem loop (hblock : ∀ c, G c [] (block c) fun _ => []) :
    G here [] (loop here block) fun _ => [] :=
  hG.enter (by decide) (by decide) hblock fun _ _ =>
    hG.hold (by simp) (by simp [owned, nested])

theorem whileLoop {test : Nat → Build σ Value} (htest : ∀ c, G c [] (test c) fun _ => [])
    (hblock : ∀ c, G c [] (block c) fun _ => []) :
    G here [] (whileLoop here test block) fun _ => [] := by
  refine hG.enter (by decide) (by decide) htest fun c cond => ?_
  refine hG.bind (hG.exitUnless (.inr (by simp)) cond) fun _ => ?_
  refine hG.bind (hG.visit (.inr (by simp)) (hblock c)) fun _ => ?_
  exact hG.hold (by simp) (by simp [owned, nested])

theorem arrayLoop (array : Value) (hbody : ∀ c v, G c [] (body c v) fun _ => []) :
    G here [] (arrayLoop here array body) fun _ => [] := by
  refine hG.bind (hG.openScope (.inl rfl) (by decide) (by decide)) fun looped => ?_
  refine hG.bind (hG.openScope (.inr (by simp)) (by decide) (by decide)) fun update => ?_
  refine hG.bind (hG.leaf (.inl rfl) (.constant rfl)) fun zero => ?_
  refine hG.bind (hG.leaf (.inl rfl) (leaf_declare trivial)) fun index => ?_
  refine hG.bind (hG.leaf (.inr (by simp)) (leaf_arrayLength trivial)) fun length => ?_
  refine hG.bind (hG.leaf (.inr (by simp)) (leaf_get trivial)) fun position => ?_
  refine hG.bind (hG.leaf (.inr (by simp)) (leaf_compare trivial trivial .lt)) fun cond => ?_
  refine hG.bind (hG.exitUnless (.inr (by simp)) cond) fun _ => ?_
  refine hG.bind (hG.leaf (.inr (by simp)) (leaf_get trivial)) fun position => ?_
  refine hG.bind (hG.leaf (.inr (by simp)) (leaf_arrayLoad trivial trivial)) fun element => ?_
  refine hG.bind (hG.visit (.inr (by simp)) (hbody looped element)) fun _ => ?_
  refine hG.bind (hG.leaf (.inr (by simp)) (leaf_inc trivial 1)) fun _ => ?_
  exact hG.hold (by simp) (by simp [owned, nested])

theorem forEachArray (array : Value) (hbody : ∀ c v, G c [] (body c v) fun _ => []) :
    G here [] (forEachArray here array body) fun _ => [] := by
  rw [forEachArray_eq]
  exact hG.bind (hG.discard (.elementType array)) fun _ =>
    hG.bind (hG.discard (.operandAsIs array)) fun _ => hG.nest fun _ => hG.arrayLoop array hbody

theorem iterableLoop (iterable : Value) (hbody : ∀ c v, G c [] (body c v) fun _ => []) :
    G here [] (iterableLoop here iterable body) fun _ => [] := by
  refine hG.bind (hG.openScope (.inl rfl) (by decide) (by decide)) fun looped => ?_
  refine hG.bind (hG.leaf (.inl rfl) (leaf_ask rfl rfl trivial)) fun iterator => ?_
  refine hG.bind (hG.leaf (.inl rfl) (leaf_declare trivial)) fun iterator => ?_
  refine hG.bind (hG.leaf (.inr (by simp)) (leaf_get trivial)) fun current => ?_
  refine hG.bind (hG.leaf (.inr (by simp)) (leaf_ask rfl rfl trivial)) fun cond => ?_
  refine hG.bind (hG.exitUnless (.inr (by simp)) cond) fun _ => ?_
  refine hG.bind (hG.leaf (.inr (by simp)) (leaf_get trivial)) fun current => ?_
  refine hG.bind (hG.leaf (.inr (by simp)) (leaf_ask rfl rfl trivial)) fun element => ?_
  refine hG.bind (hG.visit (.inr (by simp)) (hbody looped element)) fun _ => ?_
  exact hG.hold (by simp) (by simp [owned, nested])

theorem forEachIterable (iterable : Value) (hbody : ∀ c v, G c [] (body c v) fun _ => []) :
    G here [] (forEachIterable here iterable body) fun _ => [] := by
  rw [forEachIterable_eq]
  exact hG.nest fun _ => hG.iterableLoop iterable hbody

variable (hedge : ∀ destination, G here [] (change (Body.exitEdge here destination))
  fun cleanups : List Cleanup => cleanups.map Cleanup.scope)
include hedge

theorem returnValue (value : Value) : G here [] (returnValue here value) fun _ => [] := by
  refine hG.bind (hG.find (.see _)) fun returns => ?_
  cases returns with
  | none => exact hG.bind (hG.find (.typeOf value)) fun _ => hG.leaf (.inl rfl) (.mismatch _ _)
  | some type =>
    have hleave : ∀ o, G here [] (do
        let cleanups ← Build.change (Body.exitEdge here none)
        Build.push here (.ret (some o) cleanups)) fun _ => [] :=
      fun o => hG.bind (hedge none) fun _ => hG.hold (by simp) fun _ hc => hc
    refine hG.bind (hG.find (.operand value type)) fun direct => ?_
    refine hG.bind (hG.find (.see _)) fun crossing => ?_
    split
    · exact hG.bind (hG.leaf (.inl rfl) (leaf_declareOf trivial type)) fun _ =>
        hG.bind (hG.find (.operandAsIs _)) hleave
    · exact hleave direct

theorem returnVoid : G here [] (returnVoid here) fun _ => [] := by
  refine hG.bind (hG.find (.see _)) fun returns => ?_
  cases returns with
  | some type => exact hG.leaf (.inl rfl) (.fail (by simp))
  | none => exact hG.bind (hedge none) fun _ => hG.hold (by simp) fun _ hc => hc

theorem jump (kind : JumpKind) (target : Target) :
    G here [] (jump here kind target) fun _ => [] := by
  refine hG.bind (hG.find (.see _)) fun id => ?_
  split
  · exact hG.leaf (.inl rfl) (.fail_bind _ (by simp))
  refine hG.bind (hG.find (.see _)) fun found => hG.bind (hG.find (.see _)) fun inside => ?_
  cases inside with
  | false =>
    exact hG.bind (hG.find (.see _)) fun _ => hG.quiet (.inl rfl) (.fail_bind _ _) fun _ =>
      .fail_bind _ _
  | true =>
    show G here [] (if kind = .again ∧ found ≠ .loop then _ else _) _
    split
    · exact hG.leaf (.inl rfl) (.fail_bind _ (by simp))
    · exact hG.bind (hedge _) fun _ => hG.hold (by simp) fun _ hc => hc

end Follows

end Build
end ClassAssembler
