import ClassAssembler.Body.Basic

/-!
# Where values live

One walk over the scope tree, in the order it is laid out, gives each result of an operation a
home. A result that nobody reads goes nowhere.
-/

namespace ClassAssembler

inductive Home where
  /-- Pushed anew at every read. -/
  | constant
  /-- Left on the stack for the next operation. -/
  | stack
  | slot (index : Nat)
  | nowhere
  deriving DecidableEq

def Origin.home : Origin → Home
  | .constant _ => .constant
  | .param slot => .slot slot.toNat
  | .variable | .result => .nowhere

structure Allocation where
  homes : Array Home
  nextSlot : Nat
  maxLocals : Nat
  kept : Nat

namespace Allocation

def start (body : Body) : Allocation where
  homes := body.values.map fun info => info.origin.home
  nextSlot := body.firstFree
  maxLocals := body.firstFree
  kept := 0

def reads (body : Body) : Array Nat :=
  body.scopes.foldl (fun counts scope =>
    scope.operations.foldl (fun counts operation =>
      operation.operands.foldl (fun counts operand => counts.modify operand.value (· + 1)) counts)
      counts)
    (Array.replicate body.values.size 0)

def reserve (body : Body) (value : Nat) (a : Allocation) : Allocation :=
  let width := match body.values[value]? with
    | some info => info.type.width
    | none => 1
  { homes := a.homes.setIfInBounds value (.slot a.nextSlot)
    nextSlot := a.nextSlot + width
    maxLocals := max a.maxLocals (a.nextSlot + width)
    kept := a.kept }

def place (body : Body) (reads : Array Nat) (value : Nat) (next : Option Operation)
    (a : Allocation) : Allocation :=
  let reads := reads[value]?.getD 0
  if reads = 0 then
    { a with homes := a.homes.setIfInBounds value .nowhere }
  else if reads = 1 ∧ next.bind Operation.top? = some value then
    { a with homes := a.homes.setIfInBounds value .stack, kept := a.kept + 1 }
  else
    a.reserve body value

def operation (body : Body) (reads : Array Nat) (operation : Operation) (next : Option Operation)
    (a : Allocation) : Allocation :=
  match operation with
  | .simple action _ result =>
      let a := match action with
        | .store var true => a.reserve body var
        | _ => a
      match result with
      | some value => a.place body reads value next
      | none => a
  | _ => a

def operations (body : Body) (reads : Array Nat) (scope : Nat → Allocation → Allocation) :
    List Operation → Allocation → Allocation
  | [], a => a
  | op :: rest, a =>
      let a := a.operation body reads op rest.head?
      let a := op.nested.foldl (fun a inner => scope inner a) a
      operations body reads scope rest a

/-- Walks a scope that has at most `depth` scopes inside one another. -/
def scope (body : Body) (reads : Array Nat) :
    (depth : Nat) → (scope : Nat) → Allocation → Allocation
  | 0, _, a => a
  | depth + 1, index, a =>
      let saved := a.nextSlot
      { operations body reads (scope body reads depth) (body.operations index) a with
        nextSlot := saved }

end Allocation

/-- The homes of all values. Scopes nest no deeper than there are scopes. -/
def Body.allocate (body : Body) : Allocation :=
  Allocation.scope body (Allocation.reads body) body.scopes.size 0 (.start body)

end ClassAssembler
