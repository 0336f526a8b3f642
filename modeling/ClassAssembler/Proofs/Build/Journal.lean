import ClassAssembler.Proofs.Build.Program

/-!
# Programs that note the runs of their finally blocks

A finally block is a closure that is run once for each of its copies.
-/

namespace ClassAssembler
namespace Build

/-- Runs of finally blocks, first to last: the frame of the statement, and the scope that the
block was run into. -/
abbrev Journal := List (Nat × Nat)

variable {σ : Type}

def note (frame scope : Nat) : Build (Journal × σ) Unit :=
  redraft fun journal => journal ++ [(frame, scope)]

def finallyNoted (block : Block (Journal × σ)) : Try (Journal × σ) Unit := do
  let frame ← draft TryDraft.frame
  finallyBlock fun scope => do
    note frame scope
    block scope

mutual

inductive Records (σ : Type) : (here : Nat) → (α : Type) → Build (Journal × σ) α → Prop
  | pure {here α} (a : α) : Records σ here α (pure a)
  | fail {here α} (e : Fault) : Records σ here α (fail e)
  | carry {here α} (f : σ → α × σ) : Records σ here α (outside (carry f))
  | bind {here α β} {m : Build (Journal × σ) α} {f : α → Build (Journal × σ) β} :
      Records σ here α m → (∀ a, Records σ here β (f a)) → Records σ here β (m >>= f)
  | call {here α} {m : Build (Journal × σ) α} {handles : List Handle} :
      Call (Journal × σ) here m handles → Records σ here α m
  | ifThen {here} (cond : Value) {whenTrue : Block (Journal × σ)} :
      (∀ c, Records σ c Unit (whenTrue c)) → Records σ here Unit (ifThen here cond whenTrue)
  | ifElse {here} (cond : Value) {whenTrue whenFalse : Block (Journal × σ)} :
      (∀ c, Records σ c Unit (whenTrue c)) → (∀ c, Records σ c Unit (whenFalse c)) →
      Records σ here Unit (ifElse here cond whenTrue whenFalse)
  | block {here} {inner : Block (Journal × σ)} :
      (∀ c, Records σ c Unit (inner c)) → Records σ here Unit (block here inner)
  | whileLoop {here} {test : Nat → Build (Journal × σ) Value} {body : Block (Journal × σ)} :
      (∀ c, Records σ c Value (test c)) → (∀ c, Records σ c Unit (body c)) →
      Records σ here Unit (whileLoop here test body)
  | loop {here} {body : Block (Journal × σ)} :
      (∀ c, Records σ c Unit (body c)) → Records σ here Unit (loop here body)
  | forEachArray {here} (array : Value) {body : Nat → Value → Build (Journal × σ) Unit} :
      (∀ c v, Records σ c Unit (body c v)) → Records σ here Unit (forEachArray here array body)
  | forEachIterable {here} (iterable : Value) {body : Nat → Value → Build (Journal × σ) Unit} :
      (∀ c v, Records σ c Unit (body c v)) → Records σ here Unit
        (forEachIterable here iterable body)
  | tryCatch {here} {parts : Try (Journal × σ) Unit} :
      RecordsTry σ Unit parts → Records σ here Unit (tryCatch here parts)
  | switchInt {here} (selector : Value) {arms : Switch (Journal × σ) Unit} :
      RecordsSwitch σ Unit arms → Records σ here Unit (switchInt here selector arms)
  | switchString {here} (selector : Value) {arms : Switch (Journal × σ) Unit} :
      RecordsSwitch σ Unit arms → Records σ here Unit (switchString here selector arms)
  | switchEnum {here} (selector : Value) {arms : Switch (Journal × σ) Unit} :
      RecordsSwitch σ Unit arms → Records σ here Unit (switchEnum here selector arms)

inductive RecordsTry (σ : Type) : (α : Type) → Try (Journal × σ) α → Prop
  | pure {α} (a : α) : RecordsTry σ α (pure a)
  | fail {α} (e : Fault) : RecordsTry σ α (fail e)
  | carry {α} (f : σ → α × σ) : RecordsTry σ α (outside (outside (carry f)))
  | bind {α β} {m : Try (Journal × σ) α} {f : α → Try (Journal × σ) β} :
      RecordsTry σ α m → (∀ a, RecordsTry σ β (f a)) → RecordsTry σ β (m >>= f)
  | body {block : Block (Journal × σ)} :
      (∀ c, Records σ c Unit (block c)) → RecordsTry σ Unit (tryBody block)
  | catchClause (caught : ClassName) {block : Nat → Value → Build (Journal × σ) Unit} :
      (∀ c v, Records σ c Unit (block c v)) → RecordsTry σ Unit (catchClause caught block)
  | finallyNoted {block : Block (Journal × σ)} :
      (∀ c, Records σ c Unit (block c)) → RecordsTry σ Unit (finallyNoted block)

inductive RecordsSwitch (σ : Type) : (α : Type) → Switch (Journal × σ) α → Prop
  | pure {α} (a : α) : RecordsSwitch σ α (pure a)
  | fail {α} (e : Fault) : RecordsSwitch σ α (fail e)
  | carry {α} (f : σ → α × σ) : RecordsSwitch σ α (outside (outside (carry f)))
  | bind {α β} {m : Switch (Journal × σ) α} {f : α → Switch (Journal × σ) β} :
      RecordsSwitch σ α m → (∀ a, RecordsSwitch σ β (f a)) → RecordsSwitch σ β (m >>= f)
  | case (labels : List CaseLabel) {block : Block (Journal × σ)} :
      (∀ c, Records σ c Unit (block c)) → RecordsSwitch σ Unit (case labels block)
  | defaultCase {block : Block (Journal × σ)} :
      (∀ c, Records σ c Unit (block c)) → RecordsSwitch σ Unit (defaultCase block)
  | setFallthrough (fallthrough : Bool) : RecordsSwitch σ Unit (setFallthrough fallthrough)
  | target : RecordsSwitch σ Target switchTarget

end

theorem Keeps.note {base : Body} {here : Nat} {P : Body → Prop} (frame scope : Nat) :
    Keeps base here P (note frame scope : Build (Journal × σ) Unit) := fun _ hw hg _ => ⟨hw, hg⟩

theorem keeps_finallyNoted {block : Block (Journal × σ)}
    (hblock : ∀ base c, Keeps base c (fun _ => True) (block c)) :
      KeepsTry (finallyNoted block) := by
  intro base here frame
  refine (Triple.draft _).bind fun f => ?_
  refine Triple.pre (fun _ _ h => h.1) (keeps_finallyBlock (fun base c => ?_) base here frame)
  exact (Keeps.note f c).bind fun _ => hblock base c

mutual

theorem Records.keeps {σ : Type} {here : Nat} {α : Type} {m : Build (Journal × σ) α} :
    Records σ here α m → ∀ base, Keeps base here (fun _ => True) m
  | .pure a, _ => .pure a
  | .fail e, _ => .fail e
  | .carry _, _ => fun _ hw hg _ => ⟨hw, hg⟩
  | .bind hm hf, base => (hm.keeps base).bind fun a => (hf a).keeps base
  | .call h, base => h.keeps base
  | .ifThen cond hblock, _ => keeps_ifThen cond fun base c => (hblock c).keeps base
  | .ifElse cond htrue hfalse, _ => keeps_ifElse cond (fun base c => (htrue c).keeps base)
      fun base c => (hfalse c).keeps base
  | .block hblock, _ => keeps_block fun base c => (hblock c).keeps base
  | .whileLoop htest hbody, _ => keeps_whileLoop (fun base c => (htest c).keeps base)
      fun base c => (hbody c).keeps base
  | .loop hbody, _ => keeps_loop fun base c => (hbody c).keeps base
  | .forEachArray array hbody, _ => keeps_forEachArray array fun base c v => (hbody c v).keeps base
  | .forEachIterable iterable hbody, _ =>
      keeps_forEachIterable iterable fun base c v => (hbody c v).keeps base
  | .tryCatch hparts, _ => keeps_tryCatch hparts.keeps
  | .switchInt selector harms, _ => keeps_switchPlain selector harms.keeps (by simp)
  | .switchString selector harms, _ => keeps_switchPlain selector harms.keeps (by simp)
  | .switchEnum selector harms, _ => keeps_switchEnum selector harms.keeps

theorem RecordsTry.keeps {σ : Type} {α : Type} {m : Try (Journal × σ) α} :
    RecordsTry σ α m → KeepsTry m
  | .pure a => fun _ _ _ => .pure a
  | .fail e => fun _ _ _ => .fail e fun _ _ h => h
  | .carry _ => fun _ _ _ _ h => h
  | .bind hm hf => fun base here frame => (hm.keeps base here frame).bind fun a =>
      (hf a).keeps base here frame
  | .body hblock => keeps_tryBody fun base c => (hblock c).keeps base
  | .catchClause caught hblock => keeps_catchClause caught fun base c v => (hblock c v).keeps base
  | .finallyNoted hblock => keeps_finallyNoted fun base c => (hblock c).keeps base

theorem RecordsSwitch.keeps {σ : Type} {α : Type} {m : Switch (Journal × σ) α} :
    RecordsSwitch σ α m → KeepsSwitch m
  | .pure a => fun _ _ _ _ => .pure a
  | .fail e => fun _ _ _ _ => .fail e fun _ _ h => h
  | .carry _ => fun _ _ _ _ _ h => h
  | .bind hm hf => fun base start here frame => (hm.keeps base start here frame).bind fun a =>
      (hf a).keeps base start here frame
  | .case labels hblock => keeps_case labels fun base c => (hblock c).keeps base
  | .defaultCase hblock => keeps_defaultCase fun base c => (hblock c).keeps base
  | .setFallthrough fallthrough => keeps_setFallthrough fallthrough
  | .target => keeps_switchTarget

end

end Build
end ClassAssembler
