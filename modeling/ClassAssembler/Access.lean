/-!
# Access flags

Classes, fields and methods each name some bits of a 16-bit word. A set of flags is kept as the
word itself; bits without a name are dropped on the way in.
-/

namespace ClassAssembler

inductive Declared where
  | type | field | method
  deriving DecidableEq

/-- The named bits, in the order they are listed. -/
def Declared.flags : Declared → List (String × UInt16)
  | .type =>
      [("PUBLIC", 0x0001), ("FINAL", 0x0010), ("SUPER", 0x0020), ("INTERFACE", 0x0200),
        ("ABSTRACT", 0x0400)]
  | .field =>
      [("PUBLIC", 0x0001), ("PRIVATE", 0x0002), ("PROTECTED", 0x0004), ("STATIC", 0x0008),
        ("FINAL", 0x0010), ("SYNTHETIC", 0x1000)]
  | .method =>
      [("PUBLIC", 0x0001), ("PRIVATE", 0x0002), ("PROTECTED", 0x0004), ("STATIC", 0x0008),
        ("FINAL", 0x0010), ("NATIVE", 0x0100), ("ABSTRACT", 0x0400), ("SYNTHETIC", 0x1000)]

structure Access (kind : Declared) where
  bits : UInt16
  deriving DecidableEq, Inhabited

namespace Access

def ofBits (kind : Declared) (bits : UInt16) : Access kind :=
  ⟨bits &&& (kind.flags.foldl (fun mask flag => mask ||| flag.2) 0)⟩

variable {kind : Declared}

def union (a b : Access kind) : Access kind := ⟨a.bits ||| b.bits⟩

instance : OrOp (Access kind) := ⟨union⟩

def contains (a b : Access kind) : Bool := a.bits &&& b.bits == b.bits

def intersects (a b : Access kind) : Bool := a.bits &&& b.bits != 0

def describe (a : Access kind) : String :=
  match kind.flags.filter (fun flag => a.contains ⟨flag.2⟩) with
  | [] => "(empty)"
  | set => " | ".intercalate (set.map Prod.fst)

def publicFlag : Access kind := ⟨0x0001⟩
def privateFlag : Access kind := ⟨0x0002⟩
def staticFlag : Access kind := ⟨0x0008⟩
def superFlag : Access .type := ⟨0x0020⟩
def interfaceFlag : Access .type := ⟨0x0200⟩
def nativeFlag : Access .method := ⟨0x0100⟩
def abstractFlag : Access .method := ⟨0x0400⟩
def syntheticFlag : Access kind := ⟨0x1000⟩

/-- Abstract and native methods have no code. -/
def lacksCode (access : Access .method) : Bool :=
  access.intersects (abstractFlag ||| nativeFlag)

end Access
end ClassAssembler
