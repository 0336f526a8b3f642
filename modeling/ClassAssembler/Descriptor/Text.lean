import ClassAssembler.Descriptor.Basic

/-!
# Descriptor text

Each kind of type has a text form (`I`, `[Ljava/lang/String;`, `(JI)V`). `render` writes it.
-/

namespace ClassAssembler

inductive Wanted where
  | primitive | classMark | reference | field | openParen
  deriving DecidableEq

def Wanted.describe : Wanted → String
  | .primitive => "a primitive type"
  | .classMark => "'L'"
  | .reference => "a reference type"
  | .field => "a field type"
  | .openParen => "'('"

/-- Why a text is not a descriptor. Offsets count bytes of UTF-8. -/
inductive DescriptorFlaw where
  | unexpected (wanted : Wanted) (offset : Nat) (found : Char)
  | ended (wanted : Wanted)
  | unterminated
  | badName (flaw : NameFlaw)
  | trailing (rest : String)
  deriving DecidableEq

def DescriptorFlaw.message : DescriptorFlaw → String
  | .unexpected wanted offset found =>
      "expected " ++ wanted.describe ++ " at offset " ++ toString offset ++
        ", found '" ++ found.toString ++ "'"
  | .ended wanted => "expected " ++ wanted.describe ++ " but the descriptor ended"
  | .unterminated => "class name is missing its ';'"
  | .badName flaw => flaw.message
  | .trailing rest => "trailing input '" ++ rest ++ "'"

structure DescriptorFault where
  text : String
  flaw : DescriptorFlaw
  deriving DecidableEq

def DescriptorFault.message (fault : DescriptorFault) : String :=
  "malformed descriptor '" ++ fault.text ++ "': " ++ fault.flaw.message

/-- The unread part of a text and how many bytes came before it. -/
structure Cursor where
  offset : Nat
  rest : List Char
  deriving DecidableEq

namespace Cursor

def start (text : String) : Cursor := ⟨0, text.toList⟩

def advance (cur : Cursor) (taken rest : List Char) : Cursor :=
  ⟨cur.offset + taken.foldr (fun c bytes => c.utf8Size + bytes) 0, rest⟩

def missing (cur : Cursor) (wanted : Wanted) : DescriptorFlaw :=
  match cur.rest with
  | [] => .ended wanted
  | c :: _ => .unexpected wanted cur.offset c

end Cursor

/-- A value and the cursor behind it, or a flaw and the cursor at it. -/
abbrev Read (α : Type) := EStateM.Result DescriptorFlaw Cursor α

def Read.map {α β : Type} (f : α → β) : Read α → Read β
  | .ok a cur => .ok (f a) cur
  | .error flaw cur => .error flaw cur

class Descriptor (α : Type) where
  chars : α → List Char
  read : Cursor → Read α

namespace Descriptor

def render {α : Type} [Descriptor α] (a : α) : String :=
  String.ofList (chars a)

def parse {α : Type} [Descriptor α] (text : String) : Except DescriptorFault α :=
  match read (Cursor.start text) with
  | .error flaw _ => .error ⟨text, flaw⟩
  | .ok a cur =>
      match cur.rest with
      | [] => .ok a
      | rest => .error ⟨text, .trailing (String.ofList rest)⟩

end Descriptor

def Primitive.chars (p : Primitive) : List Char := [p.code]

def Primitive.read (cur : Cursor) : Read Primitive :=
  match cur.rest with
  | [] => .error (cur.missing .primitive) cur
  | c :: rest =>
      match Primitive.ofCode? c with
      | some p => .ok p (cur.advance [c] rest)
      | none => .error (cur.missing .primitive) cur

instance : Descriptor Primitive := ⟨Primitive.chars, Primitive.read⟩

def ClassName.chars (name : ClassName) : List Char :=
  'L' :: (name.text.toList ++ [';'])

/-- Reads a class name up to its `;`. A name without one leaves the cursor where
the name would start; a name that breaks the naming rules is consumed. -/
def ClassName.readBody (cur : Cursor) : Read ClassName :=
  let name := cur.rest.takeWhile (· != ';')
  match cur.rest.dropWhile (· != ';') with
  | [] => .error .unterminated cur
  | mark :: rest =>
      let behind := cur.advance (name ++ [mark]) rest
      match ClassName.ofString (String.ofList name) with
      | .ok c => .ok c behind
      | .error flaw => .error (.badName flaw) behind

def ClassName.read (cur : Cursor) : Read ClassName :=
  match cur.rest with
  | 'L' :: rest => ClassName.readBody (cur.advance ['L'] rest)
  | _ => .error (cur.missing .classMark) cur

instance : Descriptor ClassName := ⟨ClassName.chars, ClassName.read⟩

def RefType.chars : RefType → List Char
  | .object name => name.chars
  | .primArray p => '[' :: p.chars
  | .refArray r => '[' :: r.chars

def FieldType.chars : FieldType → List Char
  | .prim p => p.chars
  | .ref r => r.chars

/-- Reads a field type from `rest`, which starts at byte `offset`. -/
def FieldType.readAt : (offset : Nat) → (rest : List Char) → Read FieldType
  | offset, '[' :: rest => (FieldType.readAt (offset + 1) rest).map .array
  | offset, 'L' :: rest => (ClassName.readBody ⟨offset + 1, rest⟩).map .object
  | offset, rest =>
      match Primitive.read ⟨offset, rest⟩ with
      | .ok p cur => .ok (.prim p) cur
      | .error _ cur => .error (cur.missing .field) cur

def FieldType.read (cur : Cursor) : Read FieldType :=
  FieldType.readAt cur.offset cur.rest

instance : Descriptor FieldType := ⟨FieldType.chars, FieldType.read⟩

def RefType.read (cur : Cursor) : Read RefType :=
  match cur.rest with
  | '[' :: rest => (FieldType.read (cur.advance ['['] rest)).map .array
  | 'L' :: rest => (ClassName.readBody (cur.advance ['L'] rest)).map .object
  | _ => .error (cur.missing .reference) cur

instance : Descriptor RefType := ⟨RefType.chars, RefType.read⟩

def MethodType.chars (type : MethodType) : List Char :=
  '(' :: (type.params.flatMap FieldType.chars ++
    ')' :: (match type.returns with
      | none => ['V']
      | some returns => returns.chars))

/-- Reads parameters up to the closing parenthesis. Each takes at least one
character, so as many rounds as there are characters are enough. -/
def MethodType.readParams : Nat → List FieldType → Cursor → Read (List FieldType)
  | 0, _, cur => .error (cur.missing .field) cur
  | rounds + 1, seen, cur =>
      match cur.rest with
      | ')' :: rest => .ok seen.reverse (cur.advance [')'] rest)
      | _ =>
          match FieldType.read cur with
          | .ok type next => MethodType.readParams rounds (type :: seen) next
          | .error flaw next => .error flaw next

def MethodType.readReturns (cur : Cursor) : Read (Option FieldType) :=
  match cur.rest with
  | 'V' :: rest => .ok none (cur.advance ['V'] rest)
  | _ => (FieldType.read cur).map some

def MethodType.read (cur : Cursor) : Read MethodType :=
  match cur.rest with
  | '(' :: rest =>
      match MethodType.readParams (rest.length + 1) [] (cur.advance ['('] rest) with
      | .error flaw next => .error flaw next
      | .ok params next => (MethodType.readReturns next).map (⟨params, ·⟩)
  | _ => .error (cur.missing .openParen) cur

instance : Descriptor MethodType := ⟨MethodType.chars, MethodType.read⟩

end ClassAssembler
