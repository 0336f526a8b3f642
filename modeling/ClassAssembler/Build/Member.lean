import ClassAssembler.Build.Value

/-!
# Fields and methods

Calls, object creation, and access to fields.
-/

namespace ClassAssembler
namespace Build

variable {σ : Type}

def arguments (here : Nat) (method : MethodRef) (args : List Value) : Build σ (List Operand) := do
  let params := method.type.params
  if params.length ≠ args.length then
    fail (.arity method params.length args.length)
  (params.zip args).mapM fun (type, arg) => operand here arg type

/-- Calls a method; the result is there if the method returns something. -/
def invoke (here : Nat) (kind : InvokeKind) (method : MethodRef) (receiver : Option Value)
    (args : List Value) : Build σ (Option Value) := do
  let receiver ← match receiver with
    | none => pure []
    | some value => do pure [← operand here value (.object method.owner)]
  let operands := receiver ++ (← arguments here method args)
  let action : Action := .insns [.invoke kind method]
  match method.type.returns with
  | none =>
      perform here action operands
      return none
  | some type => return some (← yield here action operands type)

def invokeStatic (here : Nat) (method : MethodRef) (args : List Value) :
    Build σ (Option Value) :=
  invoke here .static method none args

def invokeVirtual (here : Nat) (method : MethodRef) (receiver : Value) (args : List Value) :
    Build σ (Option Value) :=
  invoke here .virtual method (some receiver) args

def invokeSpecial (here : Nat) (method : MethodRef) (receiver : Value) (args : List Value) :
    Build σ (Option Value) :=
  invoke here .special method (some receiver) args

/-- A call through an interface, whose argument words are counted in one byte. -/
def invokeInterface (here : Nat) (method : MethodRef) (receiver : Value) (args : List Value) :
    Build σ (Option Value) := do
  let words := method.type.paramWords + 1
  if words < UInt8.size then
    invoke here (.interface (UInt8.ofNat words)) method (some receiver) args
  else
    fail (.unsupported (.tooManyArguments method))

def newInstance (here : Nat) (constructor : MethodRef) (args : List Value) : Build σ Value := do
  if !constructor.isConstructor then
    fail (.unsupported (.notConstructor constructor))
  let operands ← arguments here constructor args
  yield here (.new constructor) operands (.object constructor.owner)

/-- Counts the constructor call that a constructor makes on its own object. It is
refused if a field was used before it, which is then forgotten. -/
def noteInit : Build σ Unit := do
  let early ← change fun body =>
    match body.init with
    | none => (none, body)
    | some state =>
        match state.earlyField with
        | some field => (some field, { body with init := some { state with earlyField := none } })
        | none => (none, { body with init := some { state with called := true } })
  match early with
  | some field => fail (.earlyField field)
  | none => pure ()

/-- Calls a constructor of this class or of its super class on the object under
construction. -/
def invokeConstructor (here : Nat) (constructor : MethodRef) (args : List Value) :
    Build σ Unit := do
  match ← see (·.init), ← see (·.receiver?) with
  | some _, some object =>
      let owner ← see (·.method.owner)
      let superClass ← see (·.superClass)
      if !constructor.isConstructor ||
          (constructor.owner != owner && constructor.owner != superClass) then
        fail (.unsupported (.strangeConstructor constructor owner))
      noteInit
      let object ← operandAsIs here object
      let args ← arguments here constructor args
      perform here (.insns [.invoke .special constructor]) (object :: args)
  | _, _ => fail .notInConstructor

/-- Remembers the first field of the object under construction that is used before
its constructor call. -/
def noteField (field : FieldRef) (object : Value) : Build σ Unit :=
  alter fun body =>
    if body.receiver? = some object then
      match body.init with
      | some ⟨false, none⟩ => { body with init := some ⟨false, some field.name⟩ }
      | _ => body
    else body

def getField (here : Nat) (field : FieldRef) (object : Value) : Build σ Value := do
  noteField field object
  let object ← operand here object (.object field.owner)
  yield here (.insns [.field .getField field]) [object] field.type

def putField (here : Nat) (field : FieldRef) (object value : Value) : Build σ Unit := do
  noteField field object
  let object ← operand here object (.object field.owner)
  let value ← operand here value field.type
  perform here (.insns [.field .putField field]) [object, value]

def getStatic (here : Nat) (field : FieldRef) : Build σ Value :=
  yield here (.insns [.field .getStatic field]) [] field.type

def putStatic (here : Nat) (field : FieldRef) (value : Value) : Build σ Unit := do
  let value ← operand here value field.type
  perform here (.insns [.field .putStatic field]) [value]

end Build
end ClassAssembler
