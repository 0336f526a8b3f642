import ClassAssembler.Body.Operation
import ClassAssembler.Notice
import ClassAssembler.OrdinalTable

/-!
# Method bodies

A body is an arena of scopes and an arena of values, both only ever added to. Scope 0 is the whole
body, and every other scope has a parent with a smaller index.
-/

namespace ClassAssembler

/-- Tells the bodies of one assembly apart: the class, and the body within it. -/
structure BodyId where
  draft : Nat
  index : Nat
  deriving DecidableEq

structure Value where
  body : BodyId
  index : Nat
  deriving DecidableEq

/-- A local variable of some body. Reading it yields a value of its own. -/
structure Variable where
  value : Value
  deriving DecidableEq

structure Target where
  body : BodyId
  scope : Nat
  deriving DecidableEq

inductive Literal where
  | int (value : Int32)
  | long (value : Int64)
  | float (bits : UInt32)
  | double (bits : UInt64)
  | string (text : String)
  | null
  | classObject (type : RefType)
  deriving DecidableEq

/-- How a value comes to be. -/
inductive Origin where
  | constant (literal : Literal)
  | param (slot : UInt16)
  | variable
  | result
  deriving DecidableEq

structure ValueInfo where
  type : FieldType
  /-- The scope it belongs to; none may be read everywhere. -/
  owner : Option Nat
  origin : Origin
  deriving DecidableEq

structure Scope where
  parent : Option Nat
  kind : ScopeKind
  operations : Array Operation
  entry : Label
  exit : Label
  /-- Where the next pass of a loop begins; the entry of any other scope. -/
  again : Label

structure TryFrame where
  id : Nat
  scope : Nat
  /-- Scopes that stand for the finally block, one on each way out. -/
  placeholders : Array Nat

structure InitState where
  called : Bool := false
  earlyField : Option MemberName := none

structure Body where
  id : BodyId
  method : MethodRef
  superClass : ClassName
  settings : Settings
  init : Option InitState
  hasReceiver : Bool
  scopes : Array Scope
  values : Array ValueInfo
  nextLabel : Nat
  firstFree : Nat
  /-- Try statements under construction, innermost first. -/
  tries : List TryFrame
  nextTry : Nat
  tables : OrdinalTable.All
  notices : Array Notice

namespace Body

/-- Opens a scope and returns its index. Loops have a label of their own for the next
pass. -/
def openScope (body : Body) (parent : Option Nat) (kind : ScopeKind) : Nat × Body :=
  let entry : Label := ⟨body.nextLabel⟩
  let exit : Label := ⟨body.nextLabel + 1⟩
  let (again, nextLabel) : Label × Nat :=
    if kind = .loop then (⟨body.nextLabel + 2⟩, body.nextLabel + 3)
    else (entry, body.nextLabel + 2)
  (body.scopes.size,
    { body with
      scopes := body.scopes.push { parent, kind, operations := #[], entry, exit, again }
      nextLabel })

def addValue (body : Body) (info : ValueInfo) : Nat × Body :=
  (body.values.size, { body with values := body.values.push info })

def push (body : Body) (scope : Nat) (operation : Operation) : Body :=
  { body with
    scopes := body.scopes.modify scope fun scope =>
      { scope with operations := scope.operations.push operation } }

/-- The values of the parameters and the slot behind them. The first parameter that
would start beyond the last slot is refused. -/
def layParams (types : List FieldType) :
    Except CodeFault (Array ValueInfo × Nat) :=
  types.foldlM (fun (values, slot) type =>
    if slot < UInt16.size then
      .ok (values.push { type, owner := none, origin := .param (UInt16.ofNat slot) },
        slot + type.width)
    else .error (.localsOverflow slot)) (#[], 0)

def start (id : BodyId) (method : MethodRef) (access : Access .method) (superClass : ClassName)
    (settings : Settings) (tables : OrdinalTable.All) : Except Fault Body :=
  let hasReceiver := !access.contains .staticFlag
  let types := (if hasReceiver then [.object method.owner] else []) ++ method.type.params
  match layParams types with
  | .error fault => .error (.code fault)
  | .ok (values, firstFree) =>
      let body : Body := {
        id, method, superClass, settings, hasReceiver, values, firstFree, tables
        init := if method.isConstructor then some {} else none
        scopes := #[]
        nextLabel := 0
        tries := []
        nextTry := 0
        notices := #[] }
      .ok (body.openScope none .root).2

/-- A scope and the scopes around it, innermost first, at most `rounds` of them. -/
def outward (scopes : Array Scope) : (rounds : Nat) → (scope : Nat) → List Nat
  | 0, _ => []
  | rounds + 1, scope =>
      scope :: match scopes[scope]?.bind Scope.parent with
        | some parent => outward scopes rounds parent
        | none => []

/-- Whether `outer` is `inner` or a scope around it. Parents have smaller indices, so
no chain is longer than the index of its first scope. -/
def encloses (body : Body) (outer inner : Nat) : Bool :=
  (outward body.scopes (inner + 1) inner).contains outer

def operations (body : Body) (scope : Nat) : List Operation :=
  match body.scopes[scope]? with
  | some scope => scope.operations.toList
  | none => []

def kindOf (body : Body) (scope : Nat) : ScopeKind :=
  match body.scopes[scope]? with
  | some scope => scope.kind
  | none => .root

def value? (body : Body) (value : Value) : Option ValueInfo :=
  if value.body = body.id then body.values[value.index]? else none

def receiver? (body : Body) : Option Value :=
  if body.hasReceiver then some ⟨body.id, 0⟩ else none

def param? (body : Body) (index : Nat) : Option Value :=
  if index < body.method.type.params.length then
    some ⟨body.id, index + if body.hasReceiver then 1 else 0⟩
  else none

end Body
end ClassAssembler
