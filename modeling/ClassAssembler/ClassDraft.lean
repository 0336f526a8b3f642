import ClassAssembler.Body.Code
import ClassAssembler.Build.Accessor
import ClassAssembler.Listing.Basic

/-!
# Classes

A class is drafted member by member, and written only when it is closed: then all of it is handed
over, or nothing if one of its methods failed.
-/

namespace ClassAssembler

inductive MethodKind where
  | plain | constructor | initializer
  deriving DecidableEq

structure MethodSpec where
  header : MethodHeader
  kind : MethodKind

namespace MethodSpec

def plain (name : MemberName) (type : MethodType) (access : Option (Access .method)) :
    MethodSpec where
  header := { name, type, access := access.getD .publicFlag }
  kind := .plain

def constructor (params : List FieldType) (access : Option (Access .method)) : MethodSpec where
  header := { name := .init, type := ⟨params, none⟩, access := access.getD .publicFlag }
  kind := .constructor

def initializer (access : Option (Access .method)) : MethodSpec where
  header := {
    name := .clinit
    type := ⟨[], none⟩
    access := match access with
      | none => .staticFlag
      | some access => access ||| .staticFlag }
  kind := .initializer

end MethodSpec

structure MethodDraft where
  header : MethodHeader
  code : Option Code

def MethodDraft.directives (method : MethodDraft) : List Directive :=
  .openMethod method.header :: match method.code with
    | some code => code.directives ++ [.closeMethod code.maxLocals]
    | none => [.closeMethod 0]

structure ClassDraft where
  /-- Tells the drafts of one assembly apart. -/
  serial : Nat
  header : ClassHeader
  settings : Settings
  fields : Array FieldHeader
  methods : Array MethodDraft
  tables : OrdinalTable.All
  bodies : Nat
  broken : Bool
  notices : Array Notice

namespace ClassDraft

def defaultAccess : Access .type := .publicFlag ||| .superFlag

def start (serial : Nat) (header : ClassHeader) (settings : Settings) : ClassDraft where
  serial := serial
  header := header
  settings := settings
  fields := #[]
  methods := #[]
  tables := #[]
  bodies := 0
  broken := false
  notices := #[]

def isInterface (draft : ClassDraft) : Bool :=
  draft.header.access.contains .interfaceFlag

def methodRef (draft : ClassDraft) (spec : MethodSpec) : MethodRef where
  owner := draft.header.name
  name := spec.header.name
  type := spec.header.type
  ofInterface := draft.isInterface

def note (notice : Notice) (draft : ClassDraft) : ClassDraft :=
  { draft with notices := draft.notices.push notice }

def fieldFault? (draft : ClassDraft) (field : FieldHeader) : Option Fault :=
  if draft.isInterface && !field.access.contains .staticFlag then
    some (.unsupported (.instanceField draft.header.name field.name))
  else if draft.fields.any fun known => known.name == field.name && known.type == field.type then
    some (.duplicateField field.name field.type)
  else none

def addField (field : FieldHeader) : EStateM Fault ClassDraft FieldRef := fun draft =>
  match draft.fieldFault? field with
  | some fault => .error fault draft
  | none =>
      .ok { owner := draft.header.name, name := field.name, type := field.type }
        { draft with fields := draft.fields.push field }

def hasMethod (draft : ClassDraft) (header : MethodHeader) : Bool :=
  draft.methods.any fun method =>
    method.header.name == header.name && method.header.type == header.type

def duplicateFault? (draft : ClassDraft) (header : MethodHeader) : Option Fault :=
  if draft.hasMethod header then some (.duplicateMethod header.name header.type) else none

def addMethod (header : MethodHeader) (code : Option Code) (draft : ClassDraft) : ClassDraft :=
  { draft with methods := draft.methods.push { header, code } }

def declareFault? (draft : ClassDraft) (spec : MethodSpec) : Option Fault :=
  if !spec.header.access.lacksCode then
    some (.unsupported (.bodyMissing (draft.methodRef spec)))
  else if spec.kind ≠ .plain then
    some (.unsupported (.bodyRequired (draft.methodRef spec)))
  else draft.duplicateFault? spec.header

def declareMethod (spec : MethodSpec) : EStateM Fault ClassDraft MethodRef := fun draft =>
  match draft.declareFault? spec with
  | some fault => .error fault draft
  | none => .ok (draft.methodRef spec) (draft.addMethod spec.header none)

def defineFault? (draft : ClassDraft) (spec : MethodSpec) : Option Fault :=
  if spec.header.access.lacksCode then
    some (.unsupported (.bodyForbidden spec.header.name))
  else if spec.kind = .constructor && draft.isInterface then
    some (.unsupported (.interfaceConstructor draft.header.name))
  else draft.duplicateFault? spec.header

def startBody (spec : MethodSpec) (draft : ClassDraft) : Except Fault Body × ClassDraft :=
  (Body.start ⟨draft.serial, draft.bodies⟩ (draft.methodRef spec) spec.header.access
      draft.header.superClass draft.settings draft.tables,
    { draft with tables := #[], bodies := draft.bodies + 1 })

variable {σ : Type}

/-- Builds the code of a method. The tables come back only if all goes well. -/
def buildCode (spec : MethodSpec) (block : Block σ) : EStateM Fault (ClassDraft × σ) Code :=
  fun (draft, carried) =>
    match draft.defineFault? spec with
    | some fault => .error fault (draft, carried)
    | none =>
        let (body, draft) := draft.startBody spec
        match body with
        | .error fault => .error fault (draft, carried)
        | .ok body =>
            match block 0 ⟨body, carried⟩ with
            | .error fault ⟨body, carried⟩ =>
                .error fault ({ draft with notices := draft.notices ++ body.notices }, carried)
            | .ok () ⟨body, carried⟩ =>
                let draft := { draft with notices := draft.notices ++ body.notices }
                match body.toCode with
                | .error fault => .error fault (draft, carried)
                | .ok (code, notice) =>
                    .ok code ({ draft.note notice with tables := body.tables }, carried)

def defineMethod (spec : MethodSpec) (block : Block σ) :
    EStateM Fault (ClassDraft × σ) MethodRef := fun (draft, carried) =>
  let method := draft.methodRef spec
  match buildCode spec block (draft, carried) with
  | .ok code (draft, carried) => .ok method (draft.addMethod spec.header (some code), carried)
  | .error fault (draft, carried) =>
      .error fault ({ draft.note (.failed method fault) with broken := true }, carried)

def addTable (table : OrdinalTable) : EStateM Fault ClassDraft Unit := do
  let settings := (← get).settings
  discard <| addField
    { name := table.field.name, type := table.field.type, access := settings.tableFieldAccess }
  let spec := MethodSpec.plain table.accessor.name table.accessor.type
    (some settings.tableMethodAccess)
  fun draft =>
    match defineMethod spec table.accessorBody (draft, ()) with
    | .ok _ (draft, ()) => .ok () draft
    | .error fault (draft, ()) => .error fault draft

def complete : EStateM Fault ClassDraft Unit := do
  let draft ← get
  if draft.broken then
    throw (.incompleteClass draft.header.name)
  let tables := draft.tables
  set { draft with tables := #[] }
  tables.forM addTable

def directives (draft : ClassDraft) : List Directive :=
  .openClass draft.header :: (draft.fields.toList.map .field ++
    draft.methods.toList.flatMap MethodDraft.directives ++ [.closeClass])

def close : EStateM Fault (ClassDraft × Listing) Unit := fun (draft, listing) =>
  match complete draft with
  | .error fault draft => .error fault (draft, listing)
  | .ok () draft =>
      match Listing.acceptAll draft.directives listing with
      | .error fault listing => .error (.code fault) (draft, listing)
      | .ok () listing =>
          let notice := .wrote draft.header.name draft.fields.size draft.methods.size
          .ok () (draft.note notice, listing)

end ClassDraft
end ClassAssembler
