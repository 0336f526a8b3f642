import ClassAssembler.Build.Basic

/-!
# Values

Constants, parameters, variables, arithmetic, comparisons and conversions.
-/

namespace ClassAssembler
namespace Build

variable {σ : Type}

def constant (type : FieldType) (literal : Literal) : Build σ Value :=
  addValue { type, owner := none, origin := .constant literal }

def constInt (n : Int32) : Build σ Value := constant .int (.int n)

def constLong (n : Int64) : Build σ Value := constant .long (.long n)

def constFloat (bits : UInt32) : Build σ Value := constant .float (.float bits)

def constDouble (bits : UInt64) : Build σ Value := constant .double (.double bits)

def constBool (b : Bool) : Build σ Value := constant .boolean (.int (if b then 1 else 0))

def constString (text : String) : Build σ Value := constant .string (.string text)

def constNull (type : RefType) : Build σ Value := constant (.ref type) .null

def constClass (type : RefType) : Build σ Value :=
  constant (.object .classObject) (.classObject type)

def param (index : Nat) : Build σ Value := do
  ofOption (.noParameter index) (← see (·.param? index))

def receiver : Build σ Value := do
  ofOption .noReceiver (← see (·.receiver?))

def declareOf (here : Nat) (type : FieldType) (initial : Value) : Build σ Variable := do
  let initial ← operand here initial type
  let value ← addValue { type, owner := some here, origin := .variable }
  perform here (.store value.index true) [initial]
  return ⟨value⟩

def declare (here : Nat) (initial : Value) : Build σ Variable := do
  declareOf here (← typeOf initial) initial

def get (here : Nat) (var : Variable) : Build σ Value := do
  let operand ← operandAsIs here var.value
  yield here .copy [operand] (← typeOf var.value)

/-- The type of a variable that is visible here. No other value passes for one. -/
def variableType (here : Nat) (var : Variable) : Build σ FieldType := do
  let info ← info var.value
  if info.origin ≠ .variable then
    fail .foreignHandle
  discard <| operandAsIs here var.value
  return info.type

def set (here : Nat) (var : Variable) (value : Value) : Build σ Unit := do
  let operand ← operand here value (← variableType here var)
  perform here (.store var.value.index false) [operand]

def inc (here : Nat) (var : Variable) (delta : Int16) : Build σ Unit := do
  let type ← variableType here var
  if type ≠ .int then mismatch (.type .int) type
  perform here (.inc var.value.index delta) []

def numericPair (left right : Value) : Build σ NumKind := do
  let leftType ← typeOf left
  let rightType ← typeOf right
  match leftType.numKind?, rightType.numKind? with
  | some l, some r =>
      if l = r then return l
      else fail (.typeMismatch .sameKind (.pair leftType rightType))
  | _, _ => fail (.typeMismatch .sameKind (.pair leftType rightType))

def binary (here : Nat) (select : NumKind → Option Instruction) (left right : Value) :
    Build σ Value := do
  let kind ← numericPair left right
  let type := kind.type
  match select kind with
  | none => mismatch .integral type
  | some insn =>
      let logical := (← typeOf left) = .boolean ∧ (← typeOf right) = .boolean
      let left ← operand here left type
      let right ← operand here right type
      yield here (.insns [insn]) [left, right] (if logical then .boolean else type)

def arith (here : Nat) (op : ArithOp) : (left right : Value) → Build σ Value :=
  binary here fun kind => some (.arith op kind)

def bitwise (here : Nat) (op : BitOp) : (left right : Value) → Build σ Value :=
  binary here fun kind => kind.bitKind?.map (.bitwise op)

def shift (here : Nat) (direction : Shift) (value amount : Value) : Build σ Value := do
  let found ← typeOf value
  match found.numKind?.bind NumKind.bitKind? with
  | none => mismatch .intOrLong found
  | some kind =>
      let value ← operand here value kind.type
      let amount ← operand here amount .int
      yield here (.insns [.shift kind direction]) [value, amount] kind.type

def neg (here : Nat) (value : Value) : Build σ Value := do
  let found ← typeOf value
  match found.numKind? with
  | none => mismatch .number found
  | some kind =>
      let operand ← operand here value kind.type
      yield here (.insns [.neg kind]) [operand] kind.type

def condition (here : Nat) (lead : Option Instruction) (test : Test) (operands : List Operand) :
    Build σ Value :=
  yield here (.compare lead test) operands .boolean

def nanMode : OrdTest → NanMode
  | .lt | .le => .greater
  | _ => .less

def numberTest (ord : OrdTest) : NumKind → Option Instruction × Test
  | .int => (none, .ints ord)
  | .long => (some .compareLong, .zero ord)
  | .float => (some (.compareFloat (nanMode ord)), .zero ord)
  | .double => (some (.compareDouble (nanMode ord)), .zero ord)

def refTest? : OrdTest → Option EqTest
  | .eq => some .eq
  | .ne => some .ne
  | _ => none

def compare (here : Nat) (ord : OrdTest) (left right : Value) : Build σ Value := do
  let leftType ← typeOf left
  let rightType ← typeOf right
  if leftType.isReference && rightType.isReference then
    match refTest? ord with
    | none => mismatch .numeric leftType
    | some same =>
        let left ← operandAsIs here left
        let right ← operandAsIs here right
        condition here none (.refs same) [left, right]
  else
    let kind ← numericPair left right
    let (lead, test) := numberTest ord kind
    let left ← operand here left kind.type
    let right ← operand here right kind.type
    condition here lead test [left, right]

def nullCheck (here : Nat) (same : EqTest) (value : Value) : Build σ Value := do
  let found ← typeOf value
  if !found.isReference then mismatch .reference found
  let operand ← operandAsIs here value
  condition here none (.null same) [operand]

def not (here : Nat) (value : Value) : Build σ Value := do
  let operand ← operand here value .boolean
  condition here none (.zero .eq) [operand]

def copyAs (here : Nat) (value : Value) (type : FieldType) : Build σ Value := do
  let operand ← operand here value type
  yield here .copy [operand] type

def convert (here : Nat) (value : Value) (target : Primitive) : Build σ Value := do
  let found ← typeOf value
  match found.numKind? with
  | none => mismatch .primitive found
  | some source =>
      match conversion? source target with
      | none => fail (.typeMismatch .conversion (.conversion found (.prim target)))
      | some insns =>
          let operand ← operand here value source.type
          yield here (.insns insns) [operand] (.prim target)

def box (here : Nat) (value : Value) : Build σ Value := do
  match ← typeOf value with
  | .prim p => copyAs here value (.object p.wrapper)
  | found => mismatch .primitive found

def unbox (here : Nat) (value : Value) : Build σ Value := do
  let found ← typeOf value
  match found.unboxed? with
  | none => mismatch .wrapper found
  | some p => copyAs here value (.prim p)

/-- Converts between primitives; boxes, unboxes or casts otherwise. -/
def cast (here : Nat) (value : Value) (type : FieldType) : Build σ Value := do
  match ← typeOf value, type with
  | .prim _, .prim target => convert here value target
  | _, _ => copyAs here value type

def instanceOf (here : Nat) (value : Value) (type : RefType) : Build σ Value := do
  let operand ← operandAsIs here value
  yield here (.insns [.instanceOf type]) [operand] .boolean

def newArray (here : Nat) (element : FieldType) (length : Value) : Build σ Value := do
  let insn : Instruction := match element with
    | .prim p => .newArray p
    | .ref r => .newRefArray r
  let length ← operand here length .int
  yield here (.insns [insn]) [length] (.array element)

def elementType (array : Value) : Build σ FieldType := do
  let found ← typeOf array
  match found.element? with
  | some element => return element
  | none => mismatch .array found

def arrayLength (here : Nat) (array : Value) : Build σ Value := do
  discard <| elementType array
  let operand ← operandAsIs here array
  yield here (.insns [.arrayLength]) [operand] .int

def arrayLoad (here : Nat) (array index : Value) : Build σ Value := do
  let element ← elementType array
  let array ← operandAsIs here array
  let index ← operand here index .int
  yield here (.insns [.arrayLoad element.element]) [array, index] element

def arrayStore (here : Nat) (array index value : Value) : Build σ Unit := do
  let element ← elementType array
  let array ← operandAsIs here array
  let index ← operand here index .int
  let value ← operand here value element
  perform here (.insns [.arrayStore element.element]) [array, index, value]

end Build
end ClassAssembler
