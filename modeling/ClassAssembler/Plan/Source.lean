import ClassAssembler.Fault

/-!
# References by their texts

A plan names types and members by texts. Resolving a text checks it, and the parts of a reference
are checked in the order owner, name, type.
-/

namespace ClassAssembler

namespace Resolve

def className (text : String) : Except Fault ClassName :=
  match ClassName.ofString text with
  | .ok name => .ok name
  | .error flaw => .error (.malformedName flaw)

def memberName (text : String) : Except Fault MemberName :=
  match MemberName.ofString text with
  | .ok name => .ok name
  | .error flaw => .error (.malformedName flaw)

def type {α : Type} [Descriptor α] (text : String) : Except Fault α :=
  match Descriptor.parse text with
  | .ok a => .ok a
  | .error fault => .error (.code (.malformedDescriptor fault))

end Resolve

structure FieldSource where
  owner : String
  name : String
  type : String

def FieldSource.resolve (source : FieldSource) : Except Fault FieldRef := do
  let owner ← Resolve.className source.owner
  let name ← Resolve.memberName source.name
  let type ← Resolve.type source.type
  return { owner, name, type }

/-- A method by its parts, or one of those that generated code uses. -/
inductive MethodSource where
  | parts (owner name type : String) (ofInterface : Bool)
  | objectInit
  | noArgInit (owner : String)
  | stringHashCode
  | stringEquals
  | enumOrdinal (owner : String)
  | enumValues (owner : String)
  | box (type : String)
  | unbox (owner type : String)
  | iterableIterator
  | iteratorHasNext
  | iteratorNext

def MethodSource.resolve : MethodSource → Except Fault MethodRef
  | .parts owner name type ofInterface => do
      let owner ← Resolve.className owner
      let name ← Resolve.memberName name
      let type ← Resolve.type type
      return { owner, name, type, ofInterface }
  | .objectInit => return .objectInit
  | .noArgInit owner => MethodRef.noArgInit <$> Resolve.className owner
  | .stringHashCode => return .stringHashCode
  | .stringEquals => return .stringEquals
  | .enumOrdinal owner => MethodRef.enumOrdinal <$> Resolve.className owner
  | .enumValues owner => MethodRef.enumValues <$> Resolve.className owner
  | .box type => MethodRef.box <$> Resolve.type type
  | .unbox owner type => do
      let owner ← Resolve.className owner
      let type ← Resolve.type type
      return .unbox owner type
  | .iterableIterator => return .iterableIterator
  | .iteratorHasNext => return .iteratorHasNext
  | .iteratorNext => return .iteratorNext

end ClassAssembler
