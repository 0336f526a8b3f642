import ClassAssembler.Instruction.Basic

/-!
# Operations

A scope holds a list of operations. A simple one loads its operands in order and yields at most
one value.
-/

namespace ClassAssembler

/-- A value that is read, with the instructions that convert it for its reader. -/
structure Operand where
  value : Nat
  coercion : List Instruction
  deriving DecidableEq

/-- What a simple operation does with its operands. -/
inductive Action where
  | insns (insns : List Instruction)
  /-- Allocates an object and calls its constructor on the operands. -/
  | new (constructor : MethodRef)
  /-- Yields whether the test holds, after the `lead` instruction if there is one. -/
  | compare (lead : Option Instruction) (test : Test)
  /-- Writes the operand into a variable, which starts to exist here if `declares`. -/
  | store (var : Nat) (declares : Bool)
  | inc (var : Nat) (delta : Int16)
  | copy
  | caught
  deriving DecidableEq

inductive JumpKind where
  /-- To the end of the target. -/
  | leave
  /-- To the next pass of the target, a loop. -/
  | again
  deriving DecidableEq

/-- A copy of a finally block, run where an exit leaves its try statement. -/
structure Cleanup where
  owner : Nat
  scope : Nat
  deriving DecidableEq

structure CatchClause where
  caught : ClassName
  scope : Nat
  exit : List Cleanup
  deriving DecidableEq

structure TryStatement where
  id : Nat
  frame : Nat
  body : Nat
  bodyExit : List Cleanup
  clauses : List CatchClause
  /-- Runs the finally block on an exception and throws it again. -/
  catchAll : Option Nat
  deriving DecidableEq

inductive SwitchKind where
  | int
  | string
  /-- Goes through the ordinal table that `accessor` returns. -/
  | enum (type : ClassName) (accessor : MethodRef)
  deriving DecidableEq

inductive CaseKey where
  | int (value : Int32)
  | text (text : String)
  | index (value : Int32)
  deriving DecidableEq, Hashable

structure Arm where
  keys : List CaseKey
  isDefault : Bool
  scope : Nat
  deriving DecidableEq

structure SwitchStatement where
  kind : SwitchKind
  selector : Operand
  frame : Nat
  arms : List Arm
  /-- Whether an arm that ends normally goes on with the next one. -/
  fallthrough : Bool
  deriving DecidableEq

inductive Operation where
  | simple (action : Action) (operands : List Operand) (result : Option Nat)
  | block (scope : Nat)
  | branch (cond : Operand) (whenTrue : Nat) (whenFalse : Option Nat)
  /-- Repeats a scope; `update` runs between two passes. -/
  | loop (scope : Nat) (update : Option Nat)
  /-- Leaves `target` unless the condition holds. -/
  | exitUnless (cond : Operand) (target : Nat)
  | jump (kind : JumpKind) (target : Nat) (cleanups : List Cleanup)
  /-- The value is loaded behind the cleanups. -/
  | ret (value : Option Operand) (cleanups : List Cleanup)
  | throw (value : Operand)
  | tryCatch (statement : TryStatement)
  | switch (statement : SwitchStatement)
  deriving DecidableEq

namespace Operation

/-- The value that an operation loads before it does anything else. If the operation
before it yields that value, and nobody else reads it, it can stay on the stack. -/
def top? : Operation → Option Nat
  | simple (.new _) _ _ | simple .caught _ _ => none
  | simple _ operands _ => operands.head?.map Operand.value
  | branch cond _ _ | exitUnless cond _ => some cond.value
  | ret (some value) [] => some value.value
  | throw value => some value.value
  | switch ⟨.int, selector, _, _, _⟩ => some selector.value
  | _ => none

def operands : Operation → List Operand
  | simple _ operands _ => operands
  | branch cond _ _ | exitUnless cond _ => [cond]
  | ret (some value) _ => [value]
  | throw value => [value]
  | switch statement => [statement.selector]
  | _ => []

def nested : Operation → List Nat
  | block scope => [scope]
  | branch _ whenTrue whenFalse => whenFalse.toList ++ [whenTrue]
  | loop scope update => scope :: update.toList
  | jump _ _ cleanups | ret _ cleanups => cleanups.map Cleanup.scope
  | tryCatch statement =>
      statement.body :: (statement.bodyExit.map Cleanup.scope ++
        statement.clauses.flatMap (fun clause => clause.scope :: clause.exit.map Cleanup.scope) ++
        statement.catchAll.toList)
  | switch statement => statement.arms.map Arm.scope
  | simple _ _ _ | exitUnless _ _ | throw _ => []

end Operation
end ClassAssembler
