import ClassAssembler.Proofs.Build.Constructs
import ClassAssembler.Proofs.Build.Program

/-!
# Programs that go step by step

Every call of a builder, with whatever blocks it is given, changes the body in steps if the blocks
do.
-/

namespace ClassAssembler
namespace Build

variable {σ α β : Type} {here : Nat} {mayInit : Bool}

namespace Stepwise

theorem attempt {m : Build σ α} (hm : Stepwise mayInit m) : Stepwise mayInit (attempt m) := by
  intro w
  rw [after_attempt]
  exact hm w

theorem steps_openCleanups (here : Nat) (destination : Option Nat) (frames : List TryFrame)
    (b : Body) : b.Steps mayInit (Body.openCleanups here destination frames b).2.2 := by
  induction frames generalizing b with
  | nil => exact .refl
  | cons frame frames ih =>
    unfold Body.openCleanups
    split
    · exact (Body.Steps.one (.openScope b frame.scope .finallyCopy)).trans (ih _)
    · exact ih b

theorem exitEdge (destination : Option Nat) :
    Stepwise mayInit (Build.change (Body.exitEdge here destination) : Build σ (List Cleanup)) :=
  change fun b => (steps_openCleanups here destination b.tries b).step (.tries _ _ _)

theorem follows : Follows (σ := σ) fun _ _ m _ => Stepwise mayInit m where
  bind := bind
  quiet _ _ h := h mayInit
  visit _ h := h
  openScope _ _ _ := openScope _ _
  hold h _ := push h

end Stepwise

theorem Call.stepwise_or_constructs {m : Build σ α} {handles : List Handle}
    (h : Call σ here m handles) : (∀ mayInit, Stepwise mayInit m) ∨ Constructs σ here m
      handles := by
  rcases h.sorts with hexit | hinit | hleaf
  · refine .inl fun mayInit => ?_
    cases hexit with
    | jump kind target => exact Stepwise.follows.jump .exitEdge kind target
    | returnVoid => exact Stepwise.follows.returnVoid .exitEdge
    | returnValue value => exact Stepwise.follows.returnValue .exitEdge value
  · exact .inr hinit
  · exact .inl hleaf.stepwise

theorem Call.stepwise {m : Build σ α} {handles : List Handle} (h : Call σ here m handles) :
    Stepwise true m := by
  rcases h.stepwise_or_constructs with h | h
  · exact h true
  · cases h with
    | call constructor args => exact stepwise_invokeConstructor constructor args

namespace Stepwise

theorem inStage (call : TryCall) (allowed : List TryStage) :
    Stepwise mayInit (inStage call allowed : Try σ Unit) := by
  refine (draft _).bind fun stage => ?_
  split
  · exact fail _
  · exact pure _

theorem ownFrame (call : TryCall) (f : TryFrame → α × TryFrame) :
    Stepwise mayInit (ownFrame call f : Try σ α) := by
  refine (draft _).bind fun id => (draft _).bind fun stage => (change fun b => ?_).bind fun _ =>
    ofOption _ _
  split
  · split
    · exact .one (.tries b _ b.nextTry)
    · exact .refl
  · exact .refl

theorem placeholder : Stepwise mayInit (placeholder : Try σ Cleanup) :=
  (draft _).bind fun _ => (openScope _ _).bind fun _ => (ownFrame _ _).bind fun _ =>
    (draft _).bind fun _ => pure _

theorem tryBody {block : Block σ} (hblock : ∀ c, Stepwise mayInit (block c)) :
    Stepwise mayInit (tryBody block) :=
  (inStage _ _).bind fun _ => (draft _).bind fun _ => (openScope _ _).bind fun c =>
    (hblock c).outside.bind fun _ => (redraft _).bind fun _ => placeholder.bind fun _ => redraft _

theorem catchClause (caught : ClassName) {block : Nat → Value → Build σ Unit}
    (hblock : ∀ c v, Stepwise mayInit (block c v)) :
      Stepwise mayInit (catchClause caught block) := by
  refine (inStage _ _).bind fun _ => (draft _).bind fun known => ?_
  split
  · exact fail_bind _ _
  · exact (draft _).bind fun _ => (openScope _ _).bind fun c => (yield _ _ _).bind fun v =>
      (hblock c v).outside.bind fun _ => placeholder.bind fun _ => redraft _

theorem finallyBlock {block : Block σ} (hblock : ∀ c, Stepwise mayInit (block c)) :
    Stepwise mayInit (finallyBlock block) :=
  (inStage _ _).bind fun _ => (ownFrame _ _).bind fun _ =>
    (alter fun b => .one (.tries b b.tries.tail b.nextTry)).bind fun _ => (redraft _).bind fun _ =>
    (forM (fun c => (hblock c).outside) _).bind fun _ => (draft _).bind fun _ =>
    (openScope _ _).bind fun _ => (yield _ _ _).bind fun _ => (openScope _ _).bind fun c =>
    (hblock c).outside.bind fun _ => (push (by simp)).bind fun _ =>
      (of_leaf (leaf_throwValue (anywhere _))).bind fun _ =>
    redraft _

theorem closeFrame (d : TryDraft) : Stepwise mayInit (closeFrame d : Build σ Unit) := by
  unfold Build.closeFrame
  split
  · refine (change fun b => .one (.tries b b.tries.tail b.nextTry)).bind fun closed => ?_
    split
    · exact fail _
    · exact pure _
  · exact pure _

theorem tryCatch {parts : Try σ Unit} (hparts : Stepwise mayInit parts) :
    Stepwise mayInit (tryCatch here parts) := by
  refine (openScope _ _).bind fun frame =>
    (change fun b => .one (.tries b _ (b.nextTry + 1))).bind fun id =>
    (hparts.withDraft _).bind fun d => ?_
  split
  · exact fail _
  · exact (closeFrame d).bind fun _ => push (by simp)

end Stepwise

section

variable {w : Work σ} {T : Operation → Prop}

/-- A call that succeeds ends by recording an operation with `T`. -/
def EndsWith (here : Nat) (w : Work σ) (m : Build σ α) (T : Operation → Prop) : Prop :=
  ∀ a w', m w = .ok a w' → ∃ b op, w'.body = Body.push b here op ∧ T op

namespace EndsWith

theorem fail (e : Fault) : EndsWith here w (fail e : Build σ α) T := fun _ _ h => nomatch h

theorem mismatch (expected : Expectation) (found : FieldType) :
    EndsWith here w (mismatch expected found : Build σ α) T := fail _

theorem bind {m : Build σ α} {f : α → Build σ β}
    (hf : ∀ a w1, m w = .ok a w1 → EndsWith here w1 (f a) T) : EndsWith here w (m >>= f) T := by
  intro b w' h
  obtain ⟨a, w1, hr, h⟩ := bind_eq_ok h
  exact hf a w1 hr b w' h

theorem find {m : Build σ α} {f : α → Build σ β} {R : Body → α → Prop} (hm : Finds m R)
    (hf : ∀ a, R w.body a → EndsWith here w (f a) T) : EndsWith here w (m >>= f) T := by
  refine .bind fun a w1 h => ?_
  rcases hm w with ⟨a', hr, hR⟩ | ⟨e, hr⟩
  · rw [hr] at h
    cases h
    exact hf a hR
  · rw [hr] at h
    cases h

end EndsWith

end

end Build
end ClassAssembler
