import ClassAssembler.Build.Switch
import ClassAssembler.Plan.Step
import Std.Data.HashMap

/-!
# Running steps

Steps run one after another against a body. Each leaves an outcome when it ends, so the outcomes
of nested steps come before that of the step around them.
-/

namespace ClassAssembler

inductive Handle where
  | value (value : Value)
  | variable (var : Variable)
  | target (target : Target)
  | field (field : FieldRef)
  | method (method : MethodRef)

abbrev Handles := Std.HashMap String Handle

inductive Part where
  | body | catchClause | finallyBlock | case | defaultCase | fallthrough | scope
  deriving DecidableEq

inductive Outcome where
  | value (type : FieldType)
  | void
  | done
  | part (part : Part)
  | failed (fault : Fault)
  deriving DecidableEq

structure Run where
  handles : Handles
  outcomes : Array Outcome
  silent : Bool

namespace Run

def find {α : Type} (sort : Handle → Option α) (name : String) : Build Run α := do
  let found ← Build.carried fun run => run.handles[name]?.bind sort
  Build.ofOption (.unsupported (.unbound name)) found

def value (name : String) : Build Run Value :=
  find (fun | .value value => some value | _ => none) name

def values (names : List String) : Build Run (List Value) :=
  names.mapM value

def var (name : String) : Build Run Variable :=
  find (fun | .variable var => some var | _ => none) name

def target (name : String) : Build Run Target :=
  find (fun | .target target => some target | _ => none) name

def field : GivenField → Build Run FieldRef
  | .named name => find (fun | .field field => some field | _ => none) name
  | .here source => Build.ofExcept source.resolve

def method : GivenMethod → Build Run MethodRef
  | .named name => find (fun | .method method => some method | _ => none) name
  | .here source => Build.ofExcept source.resolve

def bindTo (name : Option String) (handle : Handle) (run : Run) : Run :=
  match name with
  | none => run
  | some name => { run with handles := run.handles.insert name handle }

def bind (name : Option String) (handle : Handle) : Build Run Unit :=
  Build.carry fun run => ((), run.bindTo name handle)

def type {α : Type} [Descriptor α] (text : String) : Build Run α :=
  Build.ofExcept (Resolve.type text)

def record (outcome : Outcome) (run : Run) : Run :=
  if run.silent then run else { run with outcomes := run.outcomes.push outcome }

def note (outcome : Outcome) : Build Run Unit :=
  Build.carry fun run => ((), run.record outcome)

/-- Notes how a step ended, and lets the list go on if it may. -/
def settle {ρ : Type} (note : Outcome → Build ρ Unit) (lenient : Bool) (step : Build ρ Outcome) :
    Build ρ Unit := fun work =>
  match step work with
  | .ok outcome work => note outcome work
  | .error fault work =>
      match note (.failed fault) work with
      | .ok () work => if lenient then .ok () work else .error fault work
      | .error _ work => .error fault work

def silently (step : Build Run Unit) : Build Run Unit := fun ⟨body, run⟩ =>
  let before := run.silent
  match step ⟨body, { run with silent := true }⟩ with
  | .ok () ⟨body, run⟩ => .ok () ⟨body, { run with silent := before }⟩
  | .error fault ⟨body, run⟩ => .error fault ⟨body, { run with silent := before }⟩

end Run

def ValueStep.run (here : Nat) : ValueStep → Build Run Value
  | .constInt n => Build.constInt n
  | .constLong n => Build.constLong n
  | .constFloat bits => Build.constFloat bits
  | .constDouble bits => Build.constDouble bits
  | .constBool b => Build.constBool b
  | .constString text => Build.constString text
  | .constNull type => do Build.constNull (← Run.type type)
  | .constClass type => do Build.constClass (← Run.type type)
  | .param index => Build.param index
  | .receiver => Build.receiver
  | .get var => do Build.get here (← Run.var var)
  | .arith op left right => do Build.arith here op (← Run.value left) (← Run.value right)
  | .bitwise op left right => do Build.bitwise here op (← Run.value left) (← Run.value right)
  | .shift direction value amount => do
      Build.shift here direction (← Run.value value) (← Run.value amount)
  | .compare ord left right => do Build.compare here ord (← Run.value left) (← Run.value right)
  | .neg value => do Build.neg here (← Run.value value)
  | .not value => do Build.not here (← Run.value value)
  | .nullCheck same value => do Build.nullCheck here same (← Run.value value)
  | .box value => do Build.box here (← Run.value value)
  | .unbox value => do Build.unbox here (← Run.value value)
  | .convert value type => do Build.convert here (← Run.value value) (← Run.type type)
  | .cast value type => do Build.cast here (← Run.value value) (← Run.type type)
  | .instanceOf value type => do Build.instanceOf here (← Run.value value) (← Run.type type)
  | .newInstance constructor args => do
      Build.newInstance here (← Run.method constructor) (← Run.values args)
  | .getField field object => do Build.getField here (← Run.field field) (← Run.value object)
  | .getStatic field => do Build.getStatic here (← Run.field field)
  | .newArray type length => do Build.newArray here (← Run.type type) (← Run.value length)
  | .arrayLength array => do Build.arrayLength here (← Run.value array)
  | .arrayLoad array index => do Build.arrayLoad here (← Run.value array) (← Run.value index)

def CallKind.run (here : Nat) (kind : CallKind) (method : GivenMethod) (args : List String) :
    Build Run (Option Value) := do
  let method ← Run.method method
  let args ← Run.values args
  match kind with
  | .static => Build.invokeStatic here method args
  | .virtual receiver => do Build.invokeVirtual here method (← Run.value receiver) args
  | .interface receiver => do Build.invokeInterface here method (← Run.value receiver) args
  | .special receiver => do Build.invokeSpecial here method (← Run.value receiver) args

def ActionStep.run (here : Nat) : ActionStep → Build Run Unit
  | .scope bind => do Run.bind bind (.target (← Build.target here))
  | .declare bind initial => do
      Run.bind bind (.variable (← Build.declare here (← Run.value initial)))
  | .declareOf bind type initial => do
      Run.bind bind (.variable (← Build.declareOf here (← Run.type type) (← Run.value initial)))
  | .set var value => do Build.set here (← Run.var var) (← Run.value value)
  | .inc var delta => do Build.inc here (← Run.var var) delta
  | .putField field object value => do
      Build.putField here (← Run.field field) (← Run.value object) (← Run.value value)
  | .putStatic field value => do Build.putStatic here (← Run.field field) (← Run.value value)
  | .arrayStore array index value => do
      Build.arrayStore here (← Run.value array) (← Run.value index) (← Run.value value)
  | .invokeConstructor constructor args => do
      Build.invokeConstructor here (← Run.method constructor) (← Run.values args)
  | .leave target => do Build.leave here (← Run.target target)
  | .again target => do Build.again here (← Run.target target)
  | .returnVoid => Build.returnVoid here
  | .returnValue value => do Build.returnValue here (← Run.value value)
  | .throwValue exception => do Build.throwValue here (← Run.value exception)
  | .throwNew name message => do
      Build.throwNew here (← Build.ofExcept (Resolve.className name)) message

def SwitchSort.build (sort : SwitchSort) (here : Nat) (selector : Value)
    (arms : Build.Switch Run Unit) : Build Run Unit :=
  match sort with
  | .int => Build.switchInt here selector arms
  | .string => Build.switchString here selector arms
  | .enum => Build.switchEnum here selector arms

mutual

def Step.run : Step → Block Run
  | .mk lenient form, here => Run.settle Run.note lenient (form.run here)

def StepForm.run : StepForm → Nat → Build Run Outcome
  | .value bind step, here => do
      let value ← step.run here
      let type ← Build.typeOf value
      Run.bind bind (.value value)
      return .value type
  | .typeOf value, _ => do return .value (← Build.typeOf (← Run.value value))
  | .call bind kind method args, here => do
      match ← kind.run here method args with
      | none => return .void
      | some value =>
          let type ← Build.typeOf value
          Run.bind bind (.value value)
          return .value type
  | .action step, here => do
      step.run here
      return .done
  | .ifThen cond whenTrue, here => do
      Build.ifThen here (← Run.value cond) (Step.runAll whenTrue)
      return .done
  | .ifElse cond whenTrue whenFalse, here => do
      Build.ifElse here (← Run.value cond) (Step.runAll whenTrue) (Step.runAll whenFalse)
      return .done
  | .block inner, here => do
      Build.block here (Step.runAll inner)
      return .done
  | .loop body, here => do
      Build.loop here (Step.runAll body)
      return .done
  | .whileLoop test cond body, here => do
      Build.whileLoop here
        (fun here => do
          Step.runAll test here
          Run.value cond)
        (Step.runAll body)
      return .done
  | .forEachArray array bind body, here => do
      Build.forEachArray here (← Run.value array) fun here element => do
        Run.bind bind (.value element)
        Step.runAll body here
      return .done
  | .forEachIterable iterable bind body, here => do
      Build.forEachIterable here (← Run.value iterable) fun here element => do
        Run.bind bind (.value element)
        Step.runAll body here
      return .done
  | .tryCatch parts, here => do
      Build.tryCatch here (TryStep.runAll parts)
      return .done
  | .switch sort selector parts, here => do
      sort.build here (← Run.value selector) (SwitchStep.runAll parts)
      return .done
  | .repeated times body, here => do
      Run.silently (times.forM fun _ _ => Step.runAll body here)
      return .done

def Step.runAll : List Step → Block Run
  | [], _ => return
  | step :: rest, here => do
      step.run here
      Step.runAll rest here

def TryStep.run : TryStep → Build.Try Run Unit
  | .body lenient block =>
      Run.settle (Build.outside ∘ Run.note) lenient do
        Build.tryBody (Step.runAll block)
        return .part .body
  | .catchClause lenient caught bind block =>
      Run.settle (Build.outside ∘ Run.note) lenient do
        let caught ← Build.ofExcept (Resolve.className caught)
        Build.catchClause caught fun here exception => do
          Run.bind bind (.value exception)
          Step.runAll block here
        return .part .catchClause
  | .finallyBlock lenient block =>
      Run.settle (Build.outside ∘ Run.note) lenient do
        Build.finallyBlock (Step.runAll block)
        return .part .finallyBlock

def TryStep.runAll : List TryStep → Build.Try Run Unit
  | [] => return
  | step :: rest => do
      step.run
      TryStep.runAll rest

def SwitchStep.run : SwitchStep → Build.Switch Run Unit
  | .case lenient labels block =>
      Run.settle (Build.outside ∘ Run.note) lenient do
        Build.case labels (Step.runAll block)
        return .part .case
  | .defaultCase lenient block =>
      Run.settle (Build.outside ∘ Run.note) lenient do
        Build.defaultCase (Step.runAll block)
        return .part .defaultCase
  | .fallthrough lenient on =>
      Run.settle (Build.outside ∘ Run.note) lenient do
        Build.setFallthrough on
        return .part .fallthrough
  | .scope lenient bind =>
      Run.settle (Build.outside ∘ Run.note) lenient do
        let target ← Build.switchTarget
        Build.outside (Run.bind bind (.target target))
        return .part .scope

def SwitchStep.runAll : List SwitchStep → Build.Switch Run Unit
  | [] => return
  | step :: rest => do
      step.run
      SwitchStep.runAll rest

end

end ClassAssembler
