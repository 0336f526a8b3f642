import ClassAssembler.Instruction.Basic

/-!
# Coercions

A value is read at the type its reader expects.
-/

namespace ClassAssembler

/-- Whether the wrapper of a primitive can stand for a reference without a cast. -/
def Primitive.boxesInto (p : Primitive) : RefType → Bool
  | .object name =>
      name == .object || name == p.wrapper || (name == .number && p.isNumeric)
  | _ => false

def Instruction.unbox (receiver : ClassName) (p : Primitive) : Instruction :=
  .invoke .virtual (.unbox receiver p)

/-- The wrapper class a reference can be unboxed from directly: that of `p` itself, or
another numeric one if `p` is numeric too. -/
def RefType.unboxesTo? (r : RefType) (p : Primitive) : Option ClassName :=
  match r with
  | .object name =>
      match Primitive.ofWrapper? name with
      | some held => if held == p || (held.isNumeric && p.isNumeric) then some name else none
      | none => none
  | _ => none

/-- The instructions that turn a value of type `actual` into one of type `expected`. -/
def coercion (actual expected : FieldType) : List Instruction :=
  if actual = expected then []
  else match actual, expected with
    | .prim _, .prim _ => []
    | .ref r, .prim p =>
        match r.unboxesTo? p with
        | some receiver => [.unbox receiver p]
        | none => [.checkCast (.object p.wrapper), .unbox p.wrapper p]
    | .prim p, .ref r =>
        .invoke .static (.box p) :: if p.boxesInto r then [] else [.checkCast r]
    | .ref _, .ref r => if r = .object .object then [] else [.checkCast r]

/-- The instructions that convert a number, or none if there is no such conversion.
Nothing converts to a `boolean`. -/
def conversion? (source : NumKind) (target : Primitive) : Option (List Instruction) :=
  let widen : List Conversion := match source, target.numKind with
    | .int, .long => [.i2l]
    | .int, .float => [.i2f]
    | .int, .double => [.i2d]
    | .long, .int => [.l2i]
    | .long, .float => [.l2f]
    | .long, .double => [.l2d]
    | .float, .int => [.f2i]
    | .float, .long => [.f2l]
    | .float, .double => [.f2d]
    | .double, .int => [.d2i]
    | .double, .long => [.d2l]
    | .double, .float => [.d2f]
    | _, _ => []
  let narrow? : Option (List Conversion) := match target with
    | .byte => some [.i2b]
    | .char => some [.i2c]
    | .short => some [.i2s]
    | .boolean => none
    | _ => some []
  narrow?.map fun narrow => (widen ++ narrow).map .convert

end ClassAssembler
