import ClassAssembler.ClassDraft
import ClassAssembler.Plan.Run

/-!
# Assemblies

Whole classes written down as data, built one after another into one listing. Names are shared by
all of them, so a step may use what a step of another method has bound.
-/

namespace ClassAssembler

structure SettingsPlan where
  tableSharing : Option TableSharing := none
  tableFieldStart : Option String := none
  tableMethodStart : Option String := none
  tableFieldAccess : Option (Access .field) := none
  tableMethodAccess : Option (Access .method) := none
  voidReturn : Option Bool := none
  superCall : Option Bool := none

inductive MethodShape where
  | plain (name type : String)
  | constructor (params : List String)
  | initializer

inductive MemberPlan where
  | field (bind : Option String) (name type : String) (access : Access .field)
  | method (bind : Option String) (shape : MethodShape) (access : Option (Access .method))
      (body : Option (List Step))

structure ClassPlan where
  name : String
  superClass : Option String
  interfaces : List String
  access : Option (Access .type)
  settings : SettingsPlan
  members : List MemberPlan

inductive MemberRef where
  | field (field : FieldRef)
  | method (method : MethodRef)

structure MemberReport where
  result : Except Fault MemberRef
  outcomes : Option (Array Outcome)

inductive ClassReport where
  | rejected (fault : Fault)
  | drafted (members : List MemberReport) (closed : Except Fault Unit)

structure AssemblyReport where
  classes : List ClassReport
  listing : Listing
  notices : Array Notice

def SettingsPlan.resolve (plan : SettingsPlan) : Except Fault Settings := do
  let standard : Settings := {}
  let tableFieldStart ← plan.tableFieldStart.mapM Resolve.memberName
  let tableMethodStart ← plan.tableMethodStart.mapM Resolve.memberName
  return {
    tableSharing := plan.tableSharing.getD standard.tableSharing
    tableFieldStart := tableFieldStart.getD standard.tableFieldStart
    tableMethodStart := tableMethodStart.getD standard.tableMethodStart
    tableFieldAccess := plan.tableFieldAccess.getD standard.tableFieldAccess
    tableMethodAccess := plan.tableMethodAccess.getD standard.tableMethodAccess
    voidReturn := plan.voidReturn.getD standard.voidReturn
    superCall := plan.superCall.getD standard.superCall }

def MethodShape.resolve (access : Option (Access .method)) : MethodShape → Except Fault MethodSpec
  | .plain name type => do
      let name ← Resolve.memberName name
      let type ← Resolve.type type
      return .plain name type access
  | .constructor params => do
      return .constructor (← params.mapM Resolve.type) access
  | .initializer => return .initializer access

def addFieldPlan (bind : Option String) (name type : String) (access : Access .field)
    (draft : ClassDraft) (handles : Handles) : MemberReport × ClassDraft × Handles :=
  let header : Except Fault FieldHeader := do
    let name ← Resolve.memberName name
    let type ← Resolve.type type
    return { name, type, access }
  match header with
  | .error fault => (⟨.error fault, none⟩, draft, handles)
  | .ok header =>
      match ClassDraft.addField header draft with
      | .error fault draft => (⟨.error fault, none⟩, draft, handles)
      | .ok field draft =>
          let handles := match bind with
            | some name => handles.insert name (.field field)
            | none => handles
          (⟨.ok (.field field), none⟩, draft, handles)

/-- A method of a class. It has its name already while its body is built, so that it
can call itself. -/
def addMethodPlan (bind : Option String) (spec : MethodSpec) (body : Option (List Step))
    (draft : ClassDraft) (handles : Handles) : MemberReport × ClassDraft × Handles :=
  let method := draft.methodRef spec
  let handles := match bind with
    | some name => handles.insert name (.method method)
    | none => handles
  match body with
  | none =>
      match ClassDraft.declareMethod spec draft with
      | .ok method draft => (⟨.ok (.method method), none⟩, draft, handles)
      | .error fault draft => (⟨.error fault, none⟩, draft, handles)
  | some steps =>
      let run : Run := { handles, outcomes := #[], silent := false }
      match ClassDraft.defineMethod spec (Step.runAll steps) (draft, run) with
      | .ok method (draft, run) =>
          (⟨.ok (.method method), some run.outcomes⟩, draft, run.handles)
      | .error fault (draft, run) => (⟨.error fault, some run.outcomes⟩, draft, run.handles)

def MemberPlan.add (plan : MemberPlan) (draft : ClassDraft) (handles : Handles) :
    MemberReport × ClassDraft × Handles :=
  match plan with
  | .field bind name type access => addFieldPlan bind name type access draft handles
  | .method bind shape access body =>
      match shape.resolve access with
      | .error fault => (⟨.error fault, body.map fun _ => #[]⟩, draft, handles)
      | .ok spec => addMethodPlan bind spec body draft handles

def MemberPlan.addAll : List MemberPlan → ClassDraft → Handles →
    List MemberReport × ClassDraft × Handles
  | [], draft, handles => ([], draft, handles)
  | plan :: rest, draft, handles =>
      let (report, draft, handles) := plan.add draft handles
      let (reports, draft, handles) := addAll rest draft handles
      (report :: reports, draft, handles)

/-- Begins a class. Its names are checked in the order interfaces, super class, name,
settings. -/
def ClassPlan.begin (plan : ClassPlan) (serial : Nat) : Except Fault ClassDraft := do
  let interfaces ← plan.interfaces.mapM Resolve.className
  let superClass ← plan.superClass.mapM Resolve.className
  let name ← Resolve.className plan.name
  let settings ← plan.settings.resolve
  return .start serial
    { name, interfaces
      superClass := superClass.getD .object
      access := plan.access.getD ClassDraft.defaultAccess }
    settings

structure Assembly where
  listing : Listing
  handles : Handles
  notices : Array Notice

def ClassPlan.build (plan : ClassPlan) (serial : Nat) (assembly : Assembly) :
    ClassReport × Assembly :=
  match plan.begin serial with
  | .error fault => (.rejected fault, assembly)
  | .ok draft =>
      let ⟨listing, handles, notices⟩ := assembly
      let (members, draft, handles) := MemberPlan.addAll plan.members draft handles
      match ClassDraft.close (draft, listing) with
      | .ok () (draft, listing) =>
          (.drafted members (.ok ()), ⟨listing, handles, notices ++ draft.notices⟩)
      | .error fault (draft, listing) =>
          (.drafted members (.error fault), ⟨listing, handles, notices ++ draft.notices⟩)

def ClassPlan.buildAll : List ClassPlan → (serial : Nat) → Assembly → List ClassReport × Assembly
  | [], _, assembly => ([], assembly)
  | plan :: rest, serial, assembly =>
      let (report, assembly) := plan.build serial assembly
      let (reports, assembly) := buildAll rest (serial + 1) assembly
      (report :: reports, assembly)

def assemble (plans : List ClassPlan) (listing : Listing) : AssemblyReport :=
  let (classes, assembly) := ClassPlan.buildAll plans 0 ⟨listing, ∅, #[]⟩
  { classes, listing := assembly.listing, notices := assembly.notices }

end ClassAssembler
