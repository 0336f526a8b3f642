import ClassAssembler.Instruction.Basic
import ClassAssembler.Number.Decimal
import ClassAssembler.Text.Quoted

/-!
# Text of instructions

Two forms. `line` is the brief one, a mnemonic with its operands behind blanks. `detail` spells
every operand out as a term, the form used in listings.
-/

namespace ClassAssembler

def NumKind.letter : NumKind → String
  | .int => "I"
  | .long => "L"
  | .float => "F"
  | .double => "D"

def NumKind.all : List NumKind := [.int, .long, .float, .double]

def Kind.letter : Kind → String
  | .num kind => kind.letter
  | .ref => "A"

def Kind.all : List Kind := NumKind.all.map .num ++ [.ref]

def BitKind.letter : BitKind → String
  | .int => "I"
  | .long => "L"

def BitKind.all : List BitKind := [.int, .long]

def Element.letter : Element → String
  | .of kind => kind.letter
  | .byte => "B"
  | .char => "C"
  | .short => "S"

def Element.all : List Element := Kind.all.map .of ++ [.byte, .char, .short]

def ArithOp.mnemonic : ArithOp → String
  | .add => "Add"
  | .sub => "Sub"
  | .mul => "Mul"
  | .div => "Div"
  | .rem => "Rem"

def ArithOp.all : List ArithOp := [.add, .sub, .mul, .div, .rem]

def BitOp.mnemonic : BitOp → String
  | .and => "And"
  | .or => "Or"
  | .xor => "Xor"

def BitOp.all : List BitOp := [.and, .or, .xor]

def Shift.mnemonic : Shift → String
  | .left => "Left"
  | .logicalRight => "LogicalRight"
  | .arithmeticRight => "ArithmeticRight"

def Shift.all : List Shift := [.left, .logicalRight, .arithmeticRight]

def NanMode.mnemonic : NanMode → String
  | .less => "L"
  | .greater => "G"

def NanMode.all : List NanMode := [.less, .greater]

def Conversion.mnemonic : Conversion → String
  | .i2l => "I2L"
  | .i2f => "I2F"
  | .i2d => "I2D"
  | .l2i => "L2I"
  | .l2f => "L2F"
  | .l2d => "L2D"
  | .f2i => "F2I"
  | .f2l => "F2L"
  | .f2d => "F2D"
  | .d2i => "D2I"
  | .d2l => "D2L"
  | .d2f => "D2F"
  | .i2b => "I2B"
  | .i2c => "I2C"
  | .i2s => "I2S"

def Conversion.all : List Conversion :=
  [.i2l, .i2f, .i2d, .l2i, .l2f, .l2d, .f2i, .f2l, .f2d, .d2i, .d2l, .d2f, .i2b, .i2c, .i2s]

def OrdTest.mnemonic : OrdTest → String
  | .eq => "EQ"
  | .ge => "GE"
  | .gt => "GT"
  | .le => "LE"
  | .lt => "LT"
  | .ne => "NE"

def OrdTest.all : List OrdTest := [.eq, .ge, .gt, .le, .lt, .ne]

def EqTest.mnemonic : EqTest → String
  | .eq => "EQ"
  | .ne => "NE"

def EqTest.all : List EqTest := [.eq, .ne]

def FieldAction.mnemonic : FieldAction → String
  | .getStatic => "GetStatic"
  | .putStatic => "PutStatic"
  | .getField => "GetField"
  | .putField => "PutField"

def FieldAction.all : List FieldAction := [.getStatic, .putStatic, .getField, .putField]

def InvokeKind.mnemonic : InvokeKind → String
  | .virtual => "Virtual"
  | .special => "Special"
  | .static => "Static"
  | .interface words => "Interface(" ++ toString words.toNat ++ ")"

def Instruction.mnemonic : Instruction → String
  | .nop => "Nop"
  | .constNull => "AConstNull"
  | .constInt k => if k = 0 then "IConstM1" else "IConst" ++ toString (k.val - 1)
  | .constLong k => "LConst" ++ toString k.val
  | .constFloat k => "FConst" ++ toString k.val
  | .constDouble k => "DConst" ++ toString k.val
  | .pushByte _ => "BiPush"
  | .pushShort _ => "SiPush"
  | .ldc _ => "Ldc"
  | .ldc2 _ => "Ldc2"
  | .load kind _ => kind.letter ++ "Load"
  | .store kind _ => kind.letter ++ "Store"
  | .arrayLoad element => element.letter ++ "ALoad"
  | .arrayStore element => element.letter ++ "AStore"
  | .pop => "Pop"
  | .pop2 => "Pop2"
  | .dup => "Dup"
  | .dupX1 => "DupX1"
  | .dupX2 => "DupX2"
  | .dup2 => "Dup2"
  | .swap => "Swap"
  | .arith op kind => kind.letter ++ op.mnemonic
  | .neg kind => kind.letter ++ "Neg"
  | .shift kind _ => kind.letter ++ "Sh"
  | .bitwise op kind => kind.letter ++ op.mnemonic
  | .inc _ _ => "IInc"
  | .convert conversion => conversion.mnemonic
  | .compareLong => "LCmp"
  | .compareFloat _ => "FCmp"
  | .compareDouble _ => "DCmp"
  | .field action _ => action.mnemonic
  | .invoke _ _ => "Invoke"
  | .new _ => "New"
  | .newArray _ => "NewArray"
  | .newRefArray _ => "ANewArray"
  | .arrayLength => "ArrayLength"
  | .checkCast _ => "CheckCast"
  | .instanceOf _ => "InstanceOf"

def Instruction.bare : List Instruction :=
  [.nop, .constNull, .pop, .pop2, .dup, .dupX1, .dupX2, .dup2, .swap, .compareLong, .arrayLength]
    ++ (List.finRange 7).map .constInt ++ (List.finRange 2).map .constLong
    ++ (List.finRange 3).map .constFloat ++ (List.finRange 2).map .constDouble
    ++ Element.all.map .arrayLoad ++ Element.all.map .arrayStore
    ++ ArithOp.all.flatMap (fun op => NumKind.all.map (.arith op)) ++ NumKind.all.map .neg
    ++ BitOp.all.flatMap (fun op => BitKind.all.map (.bitwise op)) ++ Conversion.all.map .convert

def Instruction.ofMnemonic? (name : String) : Option Instruction :=
  bare.find? (·.mnemonic == name)

def Test.mnemonic : Test → String
  | .zero _ => "If"
  | .ints _ => "IfICmp"
  | .refs _ => "IfACmp"
  | .null _ => "IfNull"

def Test.relation : Test → String
  | .zero ord | .ints ord => ord.mnemonic
  | .refs same | .null same => same.mnemonic

def Branch.mnemonic : Branch → String
  | .jumpIf test _ => test.mnemonic
  | .goto _ => "Goto"
  | .tableSwitch _ _ _ => "TableSwitch"
  | .lookupSwitch _ _ => "LookupSwitch"
  | .ret none => "Return"
  | .ret (some kind) => kind.letter ++ "Return"
  | .throw => "AThrow"

def Branch.bare : List Branch :=
  [.throw, .ret none] ++ Kind.all.map (fun kind => .ret (some kind))

def Branch.ofMnemonic? (name : String) : Option Branch :=
  bare.find? (·.mnemonic == name)

def hexText (width n : Nat) : String :=
  let digits := Nat.toDigits 16 n
  String.ofList (List.replicate (width - digits.length) '0' ++ digits)

def Constant.line : Constant → String
  | .integer value => "Integer " ++ toString value.toInt
  | .long value => "Long " ++ toString value.toInt
  | .float bits => "Float " ++ hexText 8 bits.toNat
  | .double bits => "Double " ++ hexText 16 bits.toNat
  | .string text => "String " ++ text
  | .classObject type => "Class " ++ Descriptor.render type

def Instruction.operandText : Instruction → List String
  | .pushByte value => [toString value.toInt]
  | .pushShort value => [toString value.toInt]
  | .ldc value | .ldc2 value => [value.line]
  | .load _ slot | .store _ slot => [toString slot.toNat]
  | .shift _ direction => [direction.mnemonic]
  | .inc slot delta => [toString slot.toNat, toString delta.toInt]
  | .compareFloat mode | .compareDouble mode => [mode.mnemonic]
  | .field _ member => [member.display]
  | .invoke kind method =>
      [kind.mnemonic, method.display ++ if method.ofInterface then " [interface]" else ""]
  | .new name => [name.text]
  | .newArray element => [Descriptor.render element]
  | .newRefArray type | .checkCast type | .instanceOf type => [Descriptor.render type]
  | _ => []

def Instruction.line (insn : Instruction) : String :=
  " ".intercalate (insn.mnemonic :: insn.operandText)

def Branch.operandText : Branch → List String
  | .jumpIf test target => [test.relation, target.display]
  | .goto target => [target.display]
  | .tableSwitch fallback low targets =>
      [toString low.toInt, "default=" ++ fallback.display,
        "[" ++ ",".intercalate (targets.map Label.display) ++ "]"]
  | .lookupSwitch fallback targets =>
      ["default=" ++ fallback.display,
        "[" ++ ",".intercalate (targets.map fun entry =>
          toString entry.1.toInt ++ "=" ++ entry.2.display) ++ "]"]
  | .ret _ | .throw => []

def Branch.line (branch : Branch) : String :=
  " ".intercalate (branch.mnemonic :: branch.operandText)

/-- `name(a, b)`, or just the name when there are no arguments. -/
def termText (name : String) : List String → String
  | [] => name
  | args => name ++ "(" ++ ", ".intercalate args ++ ")"

/-- A record with its named fields, as in `name { a: 1, b: 2 }`. -/
def recordText (name : String) (fields : List (String × String)) : String :=
  name ++ " \x7b " ++ ", ".intercalate (fields.map fun field => field.1 ++ ": " ++ field.2)
    ++ " \x7d"

def listText (items : List String) : String :=
  "[" ++ ", ".intercalate items ++ "]"

def Primitive.detail : Primitive → String
  | .byte => "Byte"
  | .char => "Char"
  | .double => "Double"
  | .float => "Float"
  | .int => "Int"
  | .long => "Long"
  | .short => "Short"
  | .boolean => "Boolean"

def RefType.detail : RefType → String
  | .object name => termText "Object" [name.text]
  | .primArray element => termText "Array" [termText "Base" [element.detail]]
  | .refArray element => termText "Array" [termText "Ref" [element.detail]]

def FieldType.detail : FieldType → String
  | .prim p => termText "Base" [p.detail]
  | .ref r => termText "Ref" [r.detail]

def MethodType.detail (type : MethodType) : String :=
  recordText "MethodDescriptor"
    [("parameters", listText (type.params.map FieldType.detail)),
      ("return_type", match type.returns with
        | none => "None"
        | some returns => termText "Some" [returns.detail])]

def FieldRef.detail (field : FieldRef) : String :=
  recordText "FieldRef"
    [("class", field.owner.text), ("name", field.name.text), ("descriptor", field.type.detail)]

def MethodRef.detail (method : MethodRef) : String :=
  recordText "MethodRef"
    [("class", method.owner.text), ("name", method.name.text),
      ("descriptor", method.type.detail), ("is_interface", toString method.ofInterface)]

def Constant.detail : Constant → String
  | .integer value => termText "Integer" [toString value.toInt]
  | .long value => termText "Long" [toString value.toInt]
  | .float bits => termText "Float" [(Binary.single bits).text]
  | .double bits => termText "Double" [(Binary.double bits).text]
  | .string text => termText "String" [Text.quoted text]
  | .classObject type => termText "Class" [type.detail]

def Instruction.operandDetail : Instruction → List String
  | .ldc value | .ldc2 value => [value.detail]
  | .field _ member => [member.detail]
  | .invoke kind method => [kind.mnemonic, method.detail]
  | .newArray element => [element.detail]
  | .newRefArray type | .checkCast type | .instanceOf type => [type.detail]
  | insn => insn.operandText

def Instruction.detail (insn : Instruction) : String :=
  termText insn.mnemonic insn.operandDetail

def Branch.detail : Branch → String
  | .tableSwitch fallback low targets =>
      recordText "TableSwitch"
        [("default", fallback.display), ("low", toString low.toInt),
          ("targets", listText (targets.map Label.display))]
  | .lookupSwitch fallback targets =>
      recordText "LookupSwitch"
        [("default", fallback.display),
          ("targets", listText (targets.map fun entry =>
            termText "" [toString entry.1.toInt, entry.2.display]))]
  | branch => termText branch.mnemonic branch.operandText

end ClassAssembler
