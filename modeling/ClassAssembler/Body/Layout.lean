import ClassAssembler.Body.Allocation
import ClassAssembler.Code.Push
import ClassAssembler.Code.Recorder
import ClassAssembler.Text.Utf16

/-!
# Laying a body out

The scope tree is laid out in one walk, in the order the allocation used, as a list of items. A
scope becomes its entry label, its operations and its exit label.
-/

namespace ClassAssembler

inductive Item where
  | entry (entry : Entry)
  /-- Protection of what lies between two labels, the holes apart. -/
  | protect (start stop : Label) (holes : List (Label × Label)) (handler : Label)
      (caught : Option ClassName)

/-- A try statement whose body or clauses are being laid out. -/
structure OpenTry where
  id : Nat
  holes : Array (Label × Label)

structure Layout where
  items : Array Item
  nextLabel : Nat
  tries : List OpenTry

abbrev Lay := EStateM Fault Layout

namespace Lay

variable (body : Body) (homes : Array Home)

def entry (e : Entry) : Lay Unit :=
  modify fun layout => { layout with items := layout.items.push (.entry e) }

def entries (es : List Entry) : Lay Unit := es.forM entry

def insn (i : Instruction) : Lay Unit := entry (.insn i)

def insns (is : List Instruction) : Lay Unit := is.forM insn

def branch (b : Branch) : Lay Unit := entry (.branch b)

def place (label : Label) : Lay Unit := entry (.label label)

def goto (label : Label) : Lay Unit := branch (.goto label)

def jumpIf (ord : OrdTest) (label : Label) : Lay Unit := branch (.jumpIf (.zero ord) label)

def freshLabel : Lay Label :=
  modifyGet fun layout => (⟨layout.nextLabel⟩, { layout with nextLabel := layout.nextLabel + 1 })

def protect (start stop : Label) (holes : List (Label × Label)) (handler : Label)
    (caught : Option ClassName) : Lay Unit :=
  modify fun layout =>
    { layout with items := layout.items.push (.protect start stop holes handler caught) }

def entryOf (scope : Nat) : Label :=
  match body.scopes[scope]? with
  | some scope => scope.entry
  | none => ⟨0⟩

def exitOf (scope : Nat) : Label :=
  match body.scopes[scope]? with
  | some scope => scope.exit
  | none => ⟨0⟩

def againOf (scope : Nat) : Label :=
  match body.scopes[scope]? with
  | some scope => scope.again
  | none => ⟨0⟩

def enclosed (inner : Nat → Lay Unit) (scope : Nat) : Lay Unit := do
  place (entryOf body scope)
  inner scope
  place (exitOf body scope)

def typeOf (value : Nat) : FieldType :=
  match body.values[value]? with
  | some info => info.type
  | none => .int

def homeOf (value : Nat) : Home := homes[value]?.getD .nowhere

/-- The slot of a value, if it has one. Instructions can name no slot beyond 65535. -/
def slot? (value : Nat) : Lay (Option UInt16) :=
  match homeOf homes value with
  | .slot slot =>
      if slot < UInt16.size then return some (UInt16.ofNat slot)
      else throw (.code (.localsOverflow slot))
  | _ => return none

def literal : Literal → List Instruction
  | .int n => Push.int n
  | .long n => Push.long n
  | .float bits => Push.float bits
  | .double bits => Push.double bits
  | .string text => Push.string text
  | .null => Push.null
  | .classObject type => Push.classObject type

def pushConstant (value : Nat) : Lay Unit :=
  match body.values[value]? with
  | some ⟨_, _, .constant l⟩ => insns (literal l)
  | _ => return

def load (operand : Operand) : Lay Unit := do
  match homeOf homes operand.value with
  | .constant => pushConstant body operand.value
  | .stack => pure ()
  | .slot _ =>
      match ← slot? homes operand.value with
      | some slot => insn ((typeOf body operand.value).load slot)
      | none => pure ()
  | .nowhere => throw (.unsupported .readTooEarly)
  insns operand.coercion

/-- Stores the value on the stack into its slot, if it has one. -/
def storeInto (value : Nat) : Lay Unit := do
  match ← slot? homes value with
  | some slot => insn ((typeOf body value).store slot)
  | none => pure ()

def settle (result : Option Nat) : Lay Unit :=
  match result with
  | none => return
  | some value =>
      match homeOf homes value with
      | .stack | .constant => return
      | .nowhere => insn (typeOf body value).drop
      | .slot _ => storeInto body homes value

def action (loads : Lay Unit) : Action → Lay Unit
  | .insns is => do
      loads
      insns is
  | .new constructor => do
      insn (.new constructor.owner)
      insn .dup
      loads
      insn (.invoke .special constructor)
  | .compare lead test => do
      loads
      insns lead.toList
      let holds ← freshLabel
      let done ← freshLabel
      entries (test.entries holds done)
  | .store var _ => do
      loads
      storeInto body homes var
  | .inc var delta => do
      match ← slot? homes var with
      | some slot => insn (.inc slot delta)
      | none => pure ()
  | .copy => loads
  | .caught => pure ()

def simple (act : Action) (operands : List Operand) (result : Option Nat) : Lay Unit := do
  action body homes (operands.forM (load body homes)) act
  settle body homes result

/-- Makes a hole in the try statements that `crossed` cleanups belong to. -/
def addHole (crossed : List Cleanup) (hole : Label × Label) : Lay Unit :=
  modify fun layout =>
    { layout with
      tries := layout.tries.map fun statement =>
        if crossed.any (·.owner == statement.id) then
          { statement with holes := statement.holes.push hole }
        else statement }

def hole (crossed : List Cleanup) (part : Lay Unit) : Lay Unit := do
  let start ← freshLabel
  let stop ← freshLabel
  place start
  part
  place stop
  addHole crossed (start, stop)

/-- The finally copies of an exit. A copy belongs to one of the statements the exit
leaves, and is a hole in that one and in those it left before; statements further out
still protect it. -/
def cleanupsFrom (inner : Nat → Lay Unit) (before : List Cleanup) : List Cleanup → Lay Unit
  | [] => return
  | cleanup :: rest => do
      let crossed := before ++ [cleanup]
      hole crossed (enclosed body inner cleanup.scope)
      cleanupsFrom inner crossed rest

def exit (inner : Nat → Lay Unit) (cleanups : List Cleanup) (final : Lay Unit) : Lay Unit := do
  cleanupsFrom body inner [] cleanups
  hole cleanups final

def holes : Lay (List (Label × Label)) := do
  match (← get).tries with
  | [] => return []
  | innermost :: _ => return innermost.holes.toList

def tryCatch (inner : Nat → Lay Unit) (statement : TryStatement) : Lay Unit := do
  let frameExit := exitOf body statement.frame
  place (entryOf body statement.frame)
  let start ← freshLabel
  place start
  modify fun layout => { layout with tries := ⟨statement.id, #[]⟩ :: layout.tries }
  enclosed body inner statement.body
  exit body inner statement.bodyExit (goto frameExit)
  let bodyEnd ← freshLabel
  place bodyEnd
  -- A handler must be named before it is placed, or it would count as unreachable.
  let bodyHoles ← holes
  statement.clauses.forM fun clause =>
    protect start bodyEnd bodyHoles (entryOf body clause.scope) (some clause.caught)
  statement.clauses.forM fun clause => do
    enclosed body inner clause.scope
    exit body inner clause.exit (goto frameExit)
  let clausesEnd ← freshLabel
  place clausesEnd
  let allHoles ← holes
  modify fun layout => { layout with tries := layout.tries.tail }
  match statement.catchAll with
  | none => pure ()
  | some handler =>
      protect start clausesEnd allHoles (entryOf body handler) none
      enclosed body inner handler
  place frameExit

/-- The branch for integer keys in ascending order: a table if the keys fill at least
half of their range, or if one is asked for, and a search otherwise. -/
def intSwitch (targets : List (Int32 × Label)) (fallback : Label) (asTable : Bool) : Branch :=
  match targets.head?, targets.getLast? with
  | some (low, _), some (high, _) =>
      let range := (high.toInt - low.toInt + 1).toNat
      if asTable || range ≤ 2 * targets.length then
        .tableSwitch fallback low
          ((List.range range).map fun i =>
            (targets.lookup (low + Int32.ofNat i)).getD fallback)
      else
        .lookupSwitch fallback targets
  | _, _ => .lookupSwitch fallback []

/-- The integer keys of the arms with the labels they go to, in ascending order. -/
def intTargets (key? : CaseKey → Option Int32) (arms : List Arm) : List (Int32 × Label) :=
  (arms.flatMap fun arm =>
    (arm.keys.filterMap key?).map fun key => (key, entryOf body arm.scope)).mergeSort
      fun a b => a.1 ≤ b.1

def textTargets (arms : List Arm) : List (String × Label) :=
  arms.flatMap fun arm =>
    arm.keys.filterMap fun
      | .text text => some (text, entryOf body arm.scope)
      | _ => none

def groups {α β : Type} [DecidableEq α] (pairs : List (α × β)) : List (α × List β) :=
  pairs.foldr (fun (a, b) done =>
    match done with
    | (key, bs) :: rest => if a = key then (key, b :: bs) :: rest else (a, [b]) :: done
    | [] => [(a, [b])]) []

/-- The string keys with equal hash codes, by ascending hash code. -/
def buckets (arms : List Arm) : List (Int32 × List (String × Label)) :=
  groups (((textTargets body arms).map fun target => (Text.hashCode target.1, target)).mergeSort
    fun a b => a.1 ≤ b.1)

/-- Goes by the hash code of a string first, and by equality within a bucket. -/
def stringSwitch (selector : Operand) (arms : List Arm) (fallback : Label) : Lay Unit := do
  let buckets ← (buckets body arms).mapM fun (hash, texts) => do
    return (hash, ← freshLabel, texts)
  load body homes selector
  insn (.invoke .virtual .stringHashCode)
  branch (.lookupSwitch fallback (buckets.map fun (hash, label, _) => (hash, label)))
  buckets.forM fun (_, label, texts) => do
    place label
    texts.forM fun (text, target) => do
      load body homes selector
      insns (Push.string text)
      insn (.invoke .virtual .stringEquals)
      jumpIf .ne target
    goto fallback

def fallback (statement : SwitchStatement) : Label :=
  match statement.arms.find? Arm.isDefault with
  | some arm => entryOf body arm.scope
  | none => exitOf body statement.frame

def dispatch (statement : SwitchStatement) : Lay Unit := do
  let fallback := fallback body statement
  match statement.kind with
  | .int => do
      load body homes statement.selector
      let targets := intTargets body (fun | .int n => some n | _ => none) statement.arms
      branch (intSwitch targets fallback false)
  | .enum type accessor => do
      insn (.invoke .static accessor)
      load body homes statement.selector
      insn (.invoke .virtual (.enumOrdinal type))
      insn (.arrayLoad (.of (.num .int)))
      let targets := intTargets body (fun | .index n => some n | _ => none) statement.arms
      branch (intSwitch targets fallback true)
  | .string => stringSwitch body homes statement.selector statement.arms fallback

def switch (inner : Nat → Lay Unit) (statement : SwitchStatement) : Lay Unit := do
  let frameExit := exitOf body statement.frame
  place (entryOf body statement.frame)
  dispatch body homes statement
  statement.arms.forM fun arm => do
    enclosed body inner arm.scope
    if !statement.fallthrough then goto frameExit
  place frameExit

def operation (inner : Nat → Lay Unit) : Operation → Lay Unit
  | .simple act operands result => simple body homes act operands result
  | .block scope => enclosed body inner scope
  | .branch cond whenTrue none => do
      load body homes cond
      jumpIf .eq (exitOf body whenTrue)
      enclosed body inner whenTrue
  | .branch cond whenTrue (some whenFalse) => do
      load body homes cond
      jumpIf .ne (entryOf body whenTrue)
      enclosed body inner whenFalse
      goto (exitOf body whenTrue)
      enclosed body inner whenTrue
  | .loop scope update => do
      place (entryOf body scope)
      inner scope
      place (againOf body scope)
      update.forM (enclosed body inner)
      goto (entryOf body scope)
      place (exitOf body scope)
  | .exitUnless cond target => do
      load body homes cond
      jumpIf .eq (exitOf body target)
  | .jump kind target cleanups =>
      exit body inner cleanups <| goto <| match kind with
        | .leave => exitOf body target
        | .again => againOf body target
  | .ret value cleanups =>
      exit body inner cleanups do
        value.forM (load body homes)
        branch (.returning body.method.type.returns)
  | .throw value => do
      load body homes value
      branch .throw
  | .tryCatch statement => tryCatch body inner statement
  | .switch statement => switch body homes inner statement

def operations : (depth : Nat) → (scope : Nat) → Lay Unit
  | 0, _ => return
  | depth + 1, scope => (body.operations scope).forM (operation body homes (operations depth))

end Lay

/-- Lays a whole body out. Scopes nest no deeper than there are scopes. -/
def Body.layOut (body : Body) (homes : Array Home) : Except Fault Layout :=
  let start : Layout := { items := #[], nextLabel := body.nextLabel, tries := [] }
  match Lay.enclosed body (Lay.operations body homes body.scopes.size) 0 start with
  | .ok () layout => .ok layout
  | .error fault _ => .error fault

def Item.record : Item → Record Unit
  | .entry e => Record.entry e
  | .protect start stop holes handler caught =>
      modify (·.protect start stop holes handler caught)

def Layout.record (layout : Layout) : Record Unit :=
  layout.items.forM Item.record

end ClassAssembler
