/-!
# Names

Fields and methods carry unqualified names. Classes carry binary names, which are unqualified
segments joined by `/`.
-/

namespace ClassAssembler

structure MemberName where
  text : String
  deriving DecidableEq, Hashable, Inhabited

/-- Name of a class or an interface, with `/` between its segments. -/
structure ClassName where
  text : String
  deriving DecidableEq, Hashable, Inhabited

inductive NameFlaw where
  | emptyMember
  | illegal (name : String) (found : Char)
  | brackets (name : String)
  | emptyClass
  | segment (name : String) (flaw : NameFlaw)
  deriving DecidableEq

def NameFlaw.message : NameFlaw → String
  | .emptyMember => "empty unqualified name"
  | .illegal name found =>
      "'" ++ name ++ "' contains the illegal character '" ++ found.toString ++ "'"
  | .brackets name =>
      "'" ++ name ++ "' has angle brackets but is not '<init>' or '<clinit>'"
  | .emptyClass => "empty binary name"
  | .segment name flaw => "bad segment in class name '" ++ name ++ "': " ++ flaw.message

namespace MemberName

/-- The characters that descriptors and class names give a meaning of their own. -/
def isReserved (c : Char) : Bool :=
  c == '.' || c == ';' || c == '[' || c == '/'

def isBracket (c : Char) : Bool :=
  c == '<' || c == '>'

def isSpecial (name : String) : Bool :=
  name == "<init>" || name == "<clinit>"

/-- The first rule a text breaks: it is empty, it holds a reserved character, or
it holds brackets without being one of the special names. -/
def flaw? (name : String) : Option NameFlaw :=
  if name.isEmpty then
    some .emptyMember
  else
    match name.toList.find? isReserved with
    | some c => some (.illegal name c)
    | none =>
        if !isSpecial name && name.toList.any isBracket then some (.brackets name) else none

def ofString (name : String) : Except NameFlaw MemberName :=
  match flaw? name with
  | some flaw => .error flaw
  | none => .ok ⟨name⟩

def Valid (name : MemberName) : Prop :=
  flaw? name.text = none

def init : MemberName := ⟨"<init>"⟩
def clinit : MemberName := ⟨"<clinit>"⟩

end MemberName

namespace ClassName

/-- The pieces of a text between occurrences of `sep`; there is always at least
one. -/
def pieces (sep : Char) (text : List Char) : List (List Char) :=
  text.foldr (fun c parts =>
    if c = sep then [] :: parts
    else match parts with
      | [] => [[c]]
      | part :: rest => (c :: part) :: rest) [[]]

def segments (name : String) : List String :=
  (pieces '/' name.toList).map String.ofList

def flaw? (name : String) : Option NameFlaw :=
  if name.isEmpty then
    some .emptyClass
  else
    ((segments name).findSome? MemberName.flaw?).map (.segment name)

def ofString (name : String) : Except NameFlaw ClassName :=
  match flaw? name with
  | some flaw => .error flaw
  | none => .ok ⟨name⟩

def Valid (name : ClassName) : Prop :=
  flaw? name.text = none

/-- The name with `$` in place of `/`, for use inside a member name. -/
def flattened (name : ClassName) : MemberName :=
  ⟨String.ofList (name.text.toList.map fun c => if c = '/' then '$' else c)⟩

def object : ClassName := ⟨"java/lang/Object"⟩
def string : ClassName := ⟨"java/lang/String"⟩
def classObject : ClassName := ⟨"java/lang/Class"⟩
def number : ClassName := ⟨"java/lang/Number"⟩
def throwable : ClassName := ⟨"java/lang/Throwable"⟩
def noSuchField : ClassName := ⟨"java/lang/NoSuchFieldError"⟩
def iterable : ClassName := ⟨"java/lang/Iterable"⟩
def iterator : ClassName := ⟨"java/util/Iterator"⟩

end ClassName
end ClassAssembler
