import ClassAssembler.Body.Exit
import ClassAssembler.Build.Member

/-!
# Branches, loops and exits

A construct with nested scopes opens them, lets a block build into each, and then adds one
operation to the scope it stands in.
-/

namespace ClassAssembler
namespace Build

variable {σ : Type}

def ifThen (here : Nat) (cond : Value) (whenTrue : Block σ) : Build σ Unit := do
  let cond ← operand here cond .boolean
  let thenScope ← openScope here .thenArm
  whenTrue thenScope
  push here (.branch cond thenScope none)

def ifElse (here : Nat) (cond : Value) (whenTrue whenFalse : Block σ) : Build σ Unit := do
  let cond ← operand here cond .boolean
  let thenScope ← openScope here .thenArm
  whenTrue thenScope
  let elseScope ← openScope here .elseArm
  whenFalse elseScope
  push here (.branch cond thenScope (some elseScope))

def block (here : Nat) (inner : Block σ) : Build σ Unit := do
  let scope ← openScope here .block
  inner scope
  push here (.block scope)

/-- Leaves the scope `looped` from within, unless the condition holds. -/
def exitUnless (looped : Nat) (cond : Value) : Build σ Unit := do
  let cond ← operand looped cond .boolean
  push looped (.exitUnless cond looped)

/-- Repeats `body` as long as `test` yields true. Both build into the loop. -/
def whileLoop (here : Nat) (test : Nat → Build σ Value) (body : Block σ) : Build σ Unit := do
  let looped ← openScope here .loop
  exitUnless looped (← test looped)
  body looped
  push here (.loop looped none)

def loop (here : Nat) (body : Block σ) : Build σ Unit := do
  let looped ← openScope here .loop
  body looped
  push here (.loop looped none)

/-- Runs `body` on each element of an array, in order. -/
def forEachArray (here : Nat) (array : Value) (body : Nat → Value → Build σ Unit) :
    Build σ Unit := do
  discard <| elementType array
  discard <| operandAsIs here array
  let outer ← openScope here .block
  let looped ← openScope outer .loop
  let update ← openScope looped .loopUpdate
  let index ← declare outer (← constInt 0)
  let length ← arrayLength looped array
  let position ← get looped index
  exitUnless looped (← compare looped .lt position length)
  let position ← get looped index
  body looped (← arrayLoad looped array position)
  inc update index 1
  push outer (.loop looped (some update))
  push here (.block outer)

def ask (here : Nat) (method : MethodRef) (type : FieldType) (object : Value) : Build σ Value := do
  let object ← operand here object (.object method.owner)
  yield here (.insns [.invoke (.interface 1) method]) [object] type

/-- Runs `body` on each element that an iterable object yields. -/
def forEachIterable (here : Nat) (iterable : Value) (body : Nat → Value → Build σ Unit) :
    Build σ Unit := do
  let outer ← openScope here .block
  let looped ← openScope outer .loop
  let iterator ← ask outer .iterableIterator (.object .iterator) iterable
  let iterator ← declare outer iterator
  let current ← get looped iterator
  exitUnless looped (← ask looped .iteratorHasNext .boolean current)
  let current ← get looped iterator
  body looped (← ask looped .iteratorNext (.object .object) current)
  push outer (.loop looped none)
  push here (.block outer)

def jump (here : Nat) (kind : JumpKind) (target : Target) : Build σ Unit := do
  if target.body ≠ (← see (·.id)) then
    fail .foreignHandle
  let found ← see (·.kindOf target.scope)
  if !(← see (·.encloses target.scope here)) then
    fail (.scopeViolation found (← see (·.kindOf here)))
  if kind = .again ∧ found ≠ .loop then
    fail (.notALoop found)
  let cleanups ← change (Body.exitEdge here (some target.scope))
  push here (.jump kind target.scope cleanups)

def leave (here : Nat) (target : Target) : Build σ Unit := jump here .leave target

def again (here : Nat) (target : Target) : Build σ Unit := jump here .again target

def returnVoid (here : Nat) : Build σ Unit := do
  match ← see (·.method.type.returns) with
  | some type => fail (.typeMismatch (.type type) .nothing)
  | none =>
      let cleanups ← change (Body.exitEdge here none)
      push here (.ret none cleanups)

/-- Returns a value. If finally blocks run on the way out, the value waits for them in
a variable, so that they find the stack empty. -/
def returnValue (here : Nat) (value : Value) : Build σ Unit := do
  match ← see (·.method.type.returns) with
  | none => mismatch .nothing (← typeOf value)
  | some type =>
      let direct ← operand here value type
      let operand ←
        if ← see (·.crossesAny here none) then do
          let stash ← declareOf here type value
          operandAsIs here stash.value
        else pure direct
      let cleanups ← change (Body.exitEdge here none)
      push here (.ret (some operand) cleanups)

def throwValue (here : Nat) (exception : Value) : Build σ Unit := do
  let found ← typeOf exception
  if !found.isReference then mismatch .exception found
  push here (.throw (← operandAsIs here exception))

def throwNew (here : Nat) (name : ClassName) (message : Option String) : Build σ Unit := do
  let exception ← match message with
    | some text => do newInstance here (.messageInit name) [← constString text]
    | none => newInstance here (.noArgInit name) []
  throwValue here exception

end Build
end ClassAssembler
