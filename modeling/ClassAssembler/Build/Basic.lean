import ClassAssembler.Body.Basic
import ClassAssembler.Coercion

/-!
# Building bodies

A `Build` step adds to a body. A step that fails keeps what it added before it failed, so that a
caller may go on from there.
-/

namespace ClassAssembler

/-- A body under construction and the caller's state. -/
structure Work (σ : Type) where
  body : Body
  carried : σ

abbrev Build (σ : Type) := EStateM Fault (Work σ)

abbrev Block (σ : Type) := Nat → Build σ Unit

namespace Build

variable {σ τ α : Type}

def see (f : Body → α) : Build σ α := fun work =>
  let a := f work.body
  .ok a work

def change (f : Body → α × Body) : Build σ α := fun ⟨body, carried⟩ =>
  let (a, body) := f body
  .ok a ⟨body, carried⟩

def alter (f : Body → Body) : Build σ Unit := fun ⟨body, carried⟩ =>
  .ok () ⟨f body, carried⟩

def carry (f : σ → α × σ) : Build σ α := fun ⟨body, carried⟩ =>
  let (a, carried) := f carried
  .ok a ⟨body, carried⟩

def carried (f : σ → α) : Build σ α := fun work =>
  let a := f work.carried
  .ok a work

def fail (fault : Fault) : Build σ α := throw fault

def ofOption (fault : Fault) : Option α → Build σ α
  | some a => pure a
  | none => fail fault

def ofExcept : Except Fault α → Build σ α
  | .ok a => pure a
  | .error fault => fail fault

/-- Runs a step of the outer state from within a state with a draft in front of it. -/
def outside (step : Build σ α) : Build (τ × σ) α := fun ⟨body, draft, carried⟩ =>
  match step ⟨body, carried⟩ with
  | .ok a ⟨body, carried⟩ => .ok a ⟨body, draft, carried⟩
  | .error fault ⟨body, carried⟩ => .error fault ⟨body, draft, carried⟩

/-- Runs a step with a draft in front of the state, and returns the draft as the step
left it. -/
def withDraft (draft : τ) (step : Build (τ × σ) Unit) : Build σ τ := fun ⟨body, carried⟩ =>
  match step ⟨body, draft, carried⟩ with
  | .ok () ⟨body, draft, carried⟩ => .ok draft ⟨body, carried⟩
  | .error fault ⟨body, _, carried⟩ => .error fault ⟨body, carried⟩

def draft (f : τ → α) : Build (τ × σ) α := carried fun state => f state.1

def redraft (f : τ → τ) : Build (τ × σ) Unit := carry fun (draft, state) => ((), f draft, state)

def openScope (parent : Nat) (kind : ScopeKind) : Build σ Nat :=
  change (·.openScope (some parent) kind)

def push (here : Nat) (operation : Operation) : Build σ Unit :=
  alter (·.push here operation)

def target (here : Nat) : Build σ Target :=
  see fun body => ⟨body.id, here⟩

def addValue (info : ValueInfo) : Build σ Value :=
  change fun body =>
    let id := body.id
    let (index, body) := body.addValue info
    (⟨id, index⟩, body)

def info (value : Value) : Build σ ValueInfo := do
  ofOption .foreignHandle (← see (·.value? value))

def typeOf (value : Value) : Build σ FieldType :=
  ValueInfo.type <$> info value

/-- A read of a value at the type its reader expects. The scope that owns the value
must be around the reader. -/
def operand (here : Nat) (value : Value) (expected : FieldType) : Build σ Operand := do
  let info ← info value
  match info.owner with
  | none => pure ()
  | some owner =>
      if !(← see (·.encloses owner here)) then
        fail (.scopeViolation (← see (·.kindOf owner)) (← see (·.kindOf here)))
  return { value := value.index, coercion := coercion info.type expected }

def operandAsIs (here : Nat) (value : Value) : Build σ Operand := do
  operand here value (← typeOf value)

def perform (here : Nat) (action : Action) (operands : List Operand) : Build σ Unit :=
  push here (.simple action operands none)

def yield (here : Nat) (action : Action) (operands : List Operand) (type : FieldType) :
    Build σ Value := do
  let value ← addValue { type, owner := some here, origin := .result }
  push here (.simple action operands (some value.index))
  return value

def mismatch (expected : Expectation) (found : FieldType) : Build σ α :=
  fail (.typeMismatch expected (.type found))

end Build
end ClassAssembler
