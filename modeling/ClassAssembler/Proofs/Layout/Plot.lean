import ClassAssembler.Body.Code
import ClassAssembler.Proofs.Body.Tree
import ClassAssembler.Proofs.Layout.Stack

/-!
# Plots

A plot is the layout of a part of a body as a plain list, given the first label that is still
free.
-/

namespace ClassAssembler

open Lay

/-- What is known at a point of the code. -/
structure Status where
  stack : List (Cell (Option Nat))
  kept : List Nat

/-- What an instruction works for. -/
structure Site where
  scope : Nat
  /-- For the jump or return that ends an exit: the scope that the exit leads to, or none
  if it leaves the method. -/
  exit : Option (Option Nat) := none
  deriving DecidableEq

/-- What an instruction does to a local variable slot. -/
inductive Role where
  | plain
  | load (value : Nat)
  | store (value : Nat)
  deriving DecidableEq

/-- An item of a layout, or a remark between two items. -/
inductive Point where
  /-- A label, with what it finds if it is there to be jumped to. -/
  | label (label : Label) (status : Option Status)
  | insn (insn : Instruction) (role : Role) (site : Site)
  | branch (branch : Branch) (site : Option Site)
  | reads (value : Nat)
  /-- The value on top of the stack is the result that an operation yields. -/
  | yields (value : Nat)
  | protect (start stop : Label) (holes : List (Label × Label)) (handler : Label)
      (caught : Option ClassName)

namespace Point

def code? : Point → Option Entry
  | label l _ => some (.label l)
  | insn i _ _ => some (.insn i)
  | branch b _ => some (.branch b)
  | _ => none

def item? : Point → Option Item
  | protect start stop holes handler caught => some (.protect start stop holes handler caught)
  | p => p.code?.map .entry

end Point

/-- A hole in the protection of the try statements with the given numbers. -/
structure Hole where
  owners : List Nat
  start : Label
  stop : Label

/-- A part of a layout. -/
structure Stretch where
  points : List Point
  holes : List Hole
  next : Nat

namespace Stretch

def holesOf (s : Stretch) (id : Nat) : List (Label × Label) :=
  (s.holes.filter fun hole => hole.owners.contains id).map fun hole => (hole.start, hole.stop)

end Stretch

/-- A part of a layout, from the first free label. -/
def Plot := Nat → Stretch

namespace Plot

variable (body : Body) (homes : Array Home)

def nil : Plot := fun n => ⟨[], [], n⟩

def append (p q : Plot) : Plot := fun n =>
  let a := p n
  let b := q a.next
  ⟨a.points ++ b.points, a.holes ++ b.holes, b.next⟩

instance : Append Plot := ⟨append⟩

def concat : List Plot → Plot
  | [] => nil
  | p :: ps => p ++ concat ps

def point (p : Point) : Plot := fun n => ⟨[p], [], n⟩

def mark (hole : Hole) : Plot := fun n => ⟨[], [hole], n⟩

def fresh (p : Label → Plot) : Plot := fun n => p ⟨n⟩ (n + 1)

def freshFor {α : Type} : List α → (List (Label × α) → Plot) → Plot
  | [], p => p []
  | a :: as, p => fresh fun l => freshFor as fun rest => p ((l, a) :: rest)

def place (l : Label) (status : Status) : Plot := point (.label l (some status))

def border (l : Label) : Plot := point (.label l none)

def insn (site : Site) (i : Instruction) : Plot := point (.insn i .plain site)

def insns (site : Site) (is : List Instruction) : Plot := concat (is.map (insn site))

def branch (site : Site) (b : Branch) : Plot := point (.branch b (some site))

def goto (site : Site) (l : Label) : Plot := branch site (.goto l)

def fetch (site : Site) (value : Nat) : Plot :=
  match homeOf homes value with
  | .constant =>
      match body.values[value]? with
      | some ⟨_, _, .constant l⟩ => insns site (literal l)
      | _ => nil
  | .slot slot =>
      point (.insn ((typeOf body value).load (UInt16.ofNat slot)) (.load value) site)
  | .stack | .nowhere => nil

def load (site : Site) (operand : Operand) : Plot :=
  point (.reads operand.value) ++ fetch body homes site operand.value ++
    insns site operand.coercion

def loads (site : Site) (operands : List Operand) : Plot :=
  concat (operands.map (load body homes site))

def storeInto (site : Site) (value : Nat) : Plot :=
  match homeOf homes value with
  | .slot slot =>
      point (.insn ((typeOf body value).store (UInt16.ofNat slot)) (.store value) site)
  | _ => nil

def settle (site : Site) : Option Nat → Plot
  | none => nil
  | some value =>
      point (.yields value) ++
        match homeOf homes value with
        | .stack | .constant => nil
        | .nowhere => insn site (typeOf body value).drop
        | .slot _ => storeInto body homes site value

def decision (site : Site) (kept : List Nat) (test : Test) : Plot :=
  fresh fun holds => fresh fun done =>
    branch site (.jumpIf test holds) ++ insn site (.constInt ⟨1, Nat.one_lt_succ_succ 5⟩) ++
      goto site done ++ place holds ⟨[], kept⟩ ++ insn site
        (.constInt ⟨2, Nat.succ_lt_succ (Nat.one_lt_succ_succ 4)⟩) ++
      place done ⟨[⟨none, 1⟩], kept⟩

def action (site : Site) (kept : List Nat) (operands : List Operand) : Action → Plot
  | .insns is => loads body homes site operands ++ insns site is
  | .new constructor =>
      insn site (.new constructor.owner) ++ insn site .dup ++ loads body homes site operands ++
        insn site (.invoke .special constructor)
  | .compare lead test =>
      loads body homes site operands ++ insns site lead.toList ++ decision site kept test
  | .store var _ => loads body homes site operands ++ storeInto body homes site var
  | .inc var delta =>
      match homeOf homes var with
      | .slot slot => point (.insn (.inc (UInt16.ofNat slot) delta) (.store var) site)
      | _ => nil
  | .copy => loads body homes site operands
  | .caught => nil

def simple (site : Site) (kept : List Nat) (act : Action) (operands : List Operand)
    (result : Option Nat) : Plot :=
  action body homes site kept operands act ++ settle body homes site result

/-- How the operations of a scope are plotted, from what its first one finds. -/
abbrev Inner := Nat → Status → Plot

def enclosed (inner : Inner) (scope : Nat) (status : Status) : Plot :=
  place (entryOf body scope) status ++ inner scope status ++
    place (exitOf body scope) ⟨[], status.kept⟩

def hole (owners : List Nat) (part : Plot) : Plot :=
  fresh fun start => fresh fun stop =>
    border start ++ part ++ border stop ++ mark ⟨owners, start, stop⟩

def cleanupsFrom (inner : Inner) (status : Status) (before : List Nat) : List Cleanup → Plot
  | [] => nil
  | cleanup :: rest =>
      hole (before ++ [cleanup.owner]) (enclosed body inner cleanup.scope status) ++
        cleanupsFrom inner status (before ++ [cleanup.owner]) rest

def exit (inner : Inner) (status : Status) (cleanups : List Cleanup) (final : Plot) : Plot :=
  cleanupsFrom body inner status [] cleanups ++
    hole (cleanups.map Cleanup.owner) final

def thrown (kept : List Nat) : Status := ⟨[⟨none, 1⟩], kept⟩

/-- The body of a try statement, or a clause, with its way out of the statement. -/
def guarded (inner : Inner) (scope frame part : Nat) (status : Status) (kept : List Nat)
    (cleanups : List Cleanup) : Plot :=
  enclosed body inner part status ++
    exit body inner ⟨[], kept⟩ cleanups
      (goto ⟨part, some (some scope)⟩ (exitOf body frame))

def protects (start stop : Label) (holes : List (Label × Label)) (clauses : List CatchClause) :
    Plot :=
  concat (clauses.map fun clause =>
    point (.protect start stop holes (entryOf body clause.scope) (some clause.caught)))

def catchAll (inner : Inner) (kept : List Nat) (start stop : Label)
    (holes : List (Label × Label)) : Option Nat → Plot
  | none => nil
  | some handler =>
      point (.protect start stop holes (entryOf body handler) none) ++
        enclosed body inner handler (thrown kept)

/-- A plot and what follows it, which depends on the holes it made in a try statement. -/
def withHoles (id : Nat) (p : Plot) (rest : List (Label × Label) → Plot) : Plot := fun n =>
  (p ++ rest ((p n).holesOf id)) n

def tryCatch (inner : Inner) (scope : Nat) (status : Status) (statement : TryStatement) : Plot :=
  let kept := status.kept
  place (entryOf body statement.frame) status ++ fresh fun start =>
    border start ++
    withHoles statement.id
      (guarded body inner scope statement.frame statement.body status kept statement.bodyExit)
      fun bodyHoles => fresh fun bodyEnd =>
        border bodyEnd ++ protects body start bodyEnd bodyHoles statement.clauses ++
        withHoles statement.id
          (concat (statement.clauses.map fun clause =>
            guarded body inner scope statement.frame clause.scope (thrown kept) kept clause.exit))
          fun clauseHoles => fresh fun clausesEnd =>
            border clausesEnd ++
            catchAll body inner kept start clausesEnd (bodyHoles ++ clauseHoles)
              statement.catchAll ++
            place (exitOf body statement.frame) ⟨[], kept⟩

def textTests (site : Site) (selector : Operand) (texts : List (String × Label)) : Plot :=
  concat (texts.map fun (text, target) =>
    load body homes site selector ++ insns site (Push.string text) ++
      insn site (.invoke .virtual .stringEquals) ++
      branch site (.jumpIf (.zero .ne) target))

def stringSwitch (site : Site) (kept : List Nat) (selector : Operand) (arms : List Arm)
    (fallback : Label) : Plot :=
  freshFor (buckets body arms) fun buckets =>
    load body homes site selector ++ insn site (.invoke .virtual .stringHashCode) ++
      branch site (.lookupSwitch fallback (buckets.map fun (label, hash, _) => (hash, label))) ++
      concat (buckets.map fun (label, _, texts) =>
        place label ⟨[], kept⟩ ++ textTests body homes site selector texts ++
          goto site fallback)

def dispatch (site : Site) (kept : List Nat) (statement : SwitchStatement) : Plot :=
  let fallback := fallback body statement
  match statement.kind with
  | .int =>
      let targets := intTargets body (fun | .int n => some n | _ => none) statement.arms
      load body homes site statement.selector ++
        branch site (intSwitch targets fallback false)
  | .enum type accessor =>
      let targets := intTargets body (fun | .index n => some n | _ => none) statement.arms
      insn site (.invoke .static accessor) ++ load body homes site statement.selector ++
        insn site (.invoke .virtual (.enumOrdinal type)) ++
        insn site (.arrayLoad (.of (.num .int))) ++
        branch site (intSwitch targets fallback true)
  | .string => stringSwitch body homes site kept statement.selector statement.arms fallback

def switch (inner : Inner) (scope : Nat) (status : Status) (statement : SwitchStatement) : Plot :=
  let frameExit := exitOf body statement.frame
  place (entryOf body statement.frame) status ++
    dispatch body homes ⟨scope, none⟩ status.kept statement ++
    concat (statement.arms.map fun arm =>
      enclosed body inner arm.scope ⟨[], status.kept⟩ ++
        if statement.fallthrough then nil else goto ⟨scope, none⟩ frameExit) ++
    place frameExit ⟨[], status.kept⟩

def operation (inner : Inner) (scope : Nat) (status : Status) : Operation → Plot
  | .simple act operands result =>
      simple body homes ⟨scope, none⟩ status.kept act operands result
  | .block nested => enclosed body inner nested status
  | .branch cond whenTrue none =>
      load body homes ⟨scope, none⟩ cond ++
        branch ⟨scope, none⟩ (.jumpIf (.zero .eq) (exitOf body whenTrue)) ++
        enclosed body inner whenTrue ⟨[], status.kept⟩
  | .branch cond whenTrue (some whenFalse) =>
      load body homes ⟨scope, none⟩ cond ++
        branch ⟨scope, none⟩ (.jumpIf (.zero .ne) (entryOf body whenTrue)) ++
        enclosed body inner whenFalse ⟨[], status.kept⟩ ++
        goto ⟨scope, none⟩ (exitOf body whenTrue) ++
        enclosed body inner whenTrue ⟨[], status.kept⟩
  | .loop nested update =>
      place (entryOf body nested) status ++ inner nested status ++
        place (againOf body nested) ⟨[], status.kept⟩ ++
        concat (update.toList.map fun scope => enclosed body inner scope ⟨[], status.kept⟩) ++
        goto ⟨scope, none⟩ (entryOf body nested) ++
        place (exitOf body nested) ⟨[], status.kept⟩
  | .exitUnless cond target =>
      load body homes ⟨scope, none⟩ cond ++
        branch ⟨scope, none⟩ (.jumpIf (.zero .eq) (exitOf body target))
  | .jump kind target cleanups =>
      exit body inner status cleanups <| goto ⟨scope, some (some target)⟩ <| match kind with
        | .leave => exitOf body target
        | .again => againOf body target
  | .ret value cleanups =>
      exit body inner status cleanups <|
        loads body homes ⟨scope, some none⟩ value.toList ++
          branch ⟨scope, some none⟩ (.returning body.method.type.returns)
  | .throw value => load body homes ⟨scope, none⟩ value ++ branch ⟨scope, none⟩ .throw
  | .tryCatch statement => tryCatch body inner scope status statement
  | .switch statement => switch body homes inner scope status statement

end Plot

def Lay.inSlot (homes : Array Home) (value : Nat) : Bool :=
  match homeOf homes value with
  | .slot _ => true
  | _ => false

namespace Plot

variable (body : Body) (homes : Array Home)

def leaves : Operation → List (Cell (Option Nat))
  | .simple _ _ (some value) =>
      match homeOf homes value with
      | .stack => [⟨some value, (typeOf body value).width⟩]
      | _ => []
  | _ => []

def after (status : Status) (op : Operation) : Status :=
  ⟨leaves body homes op, status.kept ++ op.defines.filter (inSlot homes)⟩

def inOrder (inner : Inner) (scope : Nat) : List Operation → Status → Plot
  | [], _ => nil
  | op :: rest, status =>
      operation body homes inner scope status op ++
        inOrder inner scope rest (after body homes status op)

/-- The operations of a scope that has at most `depth` scopes inside one another. -/
def operations : (depth : Nat) → Inner
  | 0, _, _ => nil
  | depth + 1, scope, status =>
      inOrder body homes (operations depth) scope (body.operations scope) status

end Plot

namespace Body

def params (body : Body) : List Nat :=
  (List.range body.values.size).filter fun value =>
    match body.values[value]? with
    | some ⟨_, _, .param _⟩ => true
    | _ => false

def plot (body : Body) (homes : Array Home) : Plot :=
  Plot.enclosed body (Plot.operations body homes body.scopes.size) 0 ⟨[], body.params⟩

end Body
end ClassAssembler
