import ClassAssembler.Build.Flow

/-!
# Try statements

A try statement is built in parts: a body, then catch clauses, then a finally block.
-/

namespace ClassAssembler

structure TryDraft where
  id : Nat
  frame : Nat
  stage : TryStage := .fresh
  body : Option Nat := none
  bodyExit : List Cleanup := []
  clauses : Array CatchClause := #[]
  catchAll : Option Nat := none
  /-- Whether exits still open placeholders in this statement. -/
  collecting : Bool := true

namespace TryDraft

def statement (draft : TryDraft) (body : Nat) : TryStatement where
  id := draft.id
  frame := draft.frame
  body := body
  bodyExit := draft.bodyExit
  clauses := draft.clauses.toList
  catchAll := draft.catchAll

end TryDraft

namespace Build

variable {σ : Type}

abbrev Try (σ : Type) := Build (TryDraft × σ)

def inStage (call : TryCall) (allowed : List TryStage) : Try σ Unit := do
  let stage ← draft TryDraft.stage
  if stage ∉ allowed then
    fail (.tryOrder call (.at stage))

def ownFrame {α : Type} (call : TryCall) (f : TryFrame → α × TryFrame) : Try σ α := do
  let id ← draft TryDraft.id
  let stage ← draft TryDraft.stage
  let result ← change fun body =>
    match body.tries with
    | frame :: outer =>
        if frame.id = id then
          let (a, frame) := f frame
          (some a, { body with tries := frame :: outer })
        else (none, body)
    | [] => (none, body)
  ofOption (.tryOrder call (.at stage)) result

/-- A placeholder for the finally block where the body or a clause ends. -/
def placeholder : Try σ Cleanup := do
  let scope ← openScope (← draft TryDraft.frame) .finallyCopy
  ownFrame .exit fun frame =>
    ((), { frame with placeholders := frame.placeholders.push scope })
  return ⟨← draft TryDraft.id, scope⟩

def tryBody (block : Block σ) : Try σ Unit := do
  inStage .body [.fresh]
  let scope ← openScope (← draft TryDraft.frame) .tryBody
  outside (block scope)
  redraft fun draft => { draft with body := some scope }
  let exit ← placeholder
  redraft fun draft => { draft with bodyExit := [exit], stage := .body }

def catchClause (caught : ClassName) (block : Nat → Value → Build σ Unit) : Try σ Unit := do
  inStage .catchClause [.body, .catches]
  if ← draft (·.clauses.any (·.caught == caught)) then
    fail (.duplicateCatch caught)
  let scope ← openScope (← draft TryDraft.frame) .catchClause
  let exception ← yield scope .caught [] (.object caught)
  outside (block scope exception)
  let exit ← placeholder
  redraft fun draft =>
    { draft with clauses := draft.clauses.push ⟨caught, scope, [exit]⟩, stage := .catches }

/-- A block to run on every way out of the body and of the clauses. -/
def finallyBlock (block : Block σ) : Try σ Unit := do
  inStage .finallyBlock [.body, .catches]
  let placeholders ← ownFrame .finallyBlock fun frame =>
    (frame.placeholders.toList, { frame with placeholders := #[] })
  alter fun body => { body with tries := body.tries.tail }
  redraft fun draft => { draft with collecting := false }
  placeholders.forM fun scope => outside (block scope)
  let handler ← openScope (← draft TryDraft.frame) .catchAll
  let exception ← yield handler .caught [] (.object .throwable)
  let copy ← openScope handler .finallyCopy
  outside (block copy)
  push handler (.block copy)
  throwValue handler exception
  redraft fun draft => { draft with catchAll := some handler, stage := .finished }

def closeFrame (draft : TryDraft) : Build σ Unit := do
  if draft.collecting then
    let closed ← change fun body =>
      (body.tries.head?.map TryFrame.id, { body with tries := body.tries.tail })
    if closed ≠ some draft.id then
      fail (.tryOrder .finish .unfinishedInner)

def tryCatch (here : Nat) (parts : Try σ Unit) : Build σ Unit := do
  let frame ← openScope here .tryFrame
  let id ← change fun body =>
    let id := body.nextTry
    (id, { body with
      nextTry := id + 1
      tries := { id, scope := frame, placeholders := #[] } :: body.tries })
  let draft ← withDraft { id, frame } parts
  match draft.body with
  | none => fail (.tryOrder .finish (.at draft.stage))
  | some scope =>
      closeFrame draft
      push here (.tryCatch (draft.statement scope))

end Build
end ClassAssembler
