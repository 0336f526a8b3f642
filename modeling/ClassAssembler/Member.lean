import ClassAssembler.Descriptor.Text

/-!
# Member references

A reference names a member by its declaring class, its name and its type. The references below the
two structures are those that generated code needs: boxing, iteration, strings and enums.
-/

namespace ClassAssembler

structure FieldRef where
  owner : ClassName
  name : MemberName
  type : FieldType
  deriving DecidableEq, Hashable, Inhabited

structure MethodRef where
  owner : ClassName
  name : MemberName
  type : MethodType
  ofInterface : Bool := false
  deriving DecidableEq, Hashable, Inhabited

def FieldRef.display (field : FieldRef) : String :=
  field.owner.text ++ "." ++ field.name.text ++ ":" ++ Descriptor.render field.type

namespace MethodRef

def display (method : MethodRef) : String :=
  method.owner.text ++ "." ++ method.name.text ++ Descriptor.render method.type

def isConstructor (method : MethodRef) : Bool :=
  method.name == MemberName.init

def noArgInit (owner : ClassName) : MethodRef :=
  { owner, name := .init, type := ⟨[], none⟩ }

def objectInit : MethodRef := noArgInit .object

def messageInit (owner : ClassName) : MethodRef :=
  { owner, name := .init, type := ⟨[.string], none⟩ }

def stringHashCode : MethodRef :=
  { owner := .string, name := ⟨"hashCode"⟩, type := ⟨[], some .int⟩ }

def stringEquals : MethodRef :=
  { owner := .string, name := ⟨"equals"⟩, type := ⟨[.object .object], some .boolean⟩ }

def enumOrdinal (owner : ClassName) : MethodRef :=
  { owner, name := ⟨"ordinal"⟩, type := ⟨[], some .int⟩ }

def enumValues (owner : ClassName) : MethodRef :=
  { owner, name := ⟨"values"⟩, type := ⟨[], some (.array (.object owner))⟩ }

def box (p : Primitive) : MethodRef :=
  { owner := p.wrapper, name := ⟨"valueOf"⟩, type := ⟨[.prim p], some (.object p.wrapper)⟩ }

/-- Method of `receiver` yielding a primitive. The receiver is a parameter since
every `java/lang/Number` yields all the numeric primitives. -/
def unbox (receiver : ClassName) (p : Primitive) : MethodRef :=
  { owner := receiver, name := p.unboxName, type := ⟨[], some (.prim p)⟩ }

def iterableIterator : MethodRef :=
  { owner := .iterable, name := ⟨"iterator"⟩, type := ⟨[], some (.object .iterator)⟩,
    ofInterface := true }

def iteratorHasNext : MethodRef :=
  { owner := .iterator, name := ⟨"hasNext"⟩, type := ⟨[], some .boolean⟩, ofInterface := true }

def iteratorNext : MethodRef :=
  { owner := .iterator, name := ⟨"next"⟩, type := ⟨[], some (.object .object)⟩,
    ofInterface := true }

end MethodRef
end ClassAssembler
