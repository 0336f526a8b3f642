import ClassAssembler.Body.Basic

/-!
# Ways out

A `break`, `continue` or `return` may leave try statements that are still under construction.
-/

namespace ClassAssembler
namespace Body

/-- Whether an exit from `here` to a scope, or out of the method, leaves a try
statement. -/
def crosses (body : Body) (here : Nat) (destination : Option Nat) (frame : TryFrame) : Bool :=
  body.encloses frame.scope here &&
    match destination with
    | none => true
    | some scope => !body.encloses frame.scope scope

def crossesAny (body : Body) (here : Nat) (destination : Option Nat) : Bool :=
  body.tries.any (body.crosses here destination)

/-- Opens a placeholder in each try statement that an exit leaves, innermost first. -/
def openCleanups (here : Nat) (destination : Option Nat) :
    List TryFrame → Body → List Cleanup × List TryFrame × Body
  | [], body => ([], [], body)
  | frame :: outer, body =>
      if body.crosses here destination frame then
        let (scope, body) := body.openScope (some frame.scope) .finallyCopy
        let (cleanups, frames, body) := openCleanups here destination outer body
        (⟨frame.id, scope⟩ :: cleanups,
          { frame with placeholders := frame.placeholders.push scope } :: frames, body)
      else
        let (cleanups, frames, body) := openCleanups here destination outer body
        (cleanups, frame :: frames, body)

def exitEdge (here : Nat) (destination : Option Nat) (body : Body) : List Cleanup × Body :=
  let (cleanups, tries, body) := openCleanups here destination body.tries body
  (cleanups, { body with tries })

end Body
end ClassAssembler
