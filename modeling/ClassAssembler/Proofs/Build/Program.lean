import ClassAssembler.Proofs.Build.SwitchParts
import ClassAssembler.Proofs.Build.TryParts

/-!
# Programs of builder calls

A body is built by a program that makes calls of a builder.
-/

namespace ClassAssembler
namespace Build

def attempt {σ α : Type} (m : Build σ α) : Build σ (Except Fault α) := fun w =>
  match m w with
  | .ok a w => .ok (.ok a) w
  | .error e w => .ok (.error e) w

/-- The calls of the builder of a scope that take no blocks, with the handles they use. -/
inductive Call (σ : Type) (here : Nat) : {α : Type} → Build σ α → List Handle → Prop
  | constInt (n : Int32) : Call σ here (constInt n) []
  | constLong (n : Int64) : Call σ here (constLong n) []
  | constFloat (bits : UInt32) : Call σ here (constFloat bits) []
  | constDouble (bits : UInt64) : Call σ here (constDouble bits) []
  | constBool (b : Bool) : Call σ here (constBool b) []
  | constString (text : String) : Call σ here (constString text) []
  | constNull (type : RefType) : Call σ here (constNull type) []
  | constClass (type : RefType) : Call σ here (constClass type) []
  | param (index : Nat) : Call σ here (param index) []
  | receiver : Call σ here receiver []
  | typeOf (value : Value) : Call σ here (typeOf value) []
  | target : Call σ here (target here) []
  | declareOf (type : FieldType) (initial : Value) :
      Call σ here (declareOf here type initial) [.value initial]
  | declare (initial : Value) : Call σ here (declare here initial) [.value initial]
  | get (var : Variable) : Call σ here (get here var) [.value var.value]
  | set (var : Variable) (value : Value) :
      Call σ here (set here var value) [.value var.value, .value value]
  | inc (var : Variable) (delta : Int16) : Call σ here (inc here var delta) [.value var.value]
  | arith (op : ArithOp) (left right : Value) :
      Call σ here (arith here op left right) [.value left, .value right]
  | bitwise (op : BitOp) (left right : Value) :
      Call σ here (bitwise here op left right) [.value left, .value right]
  | shift (direction : Shift) (value amount : Value) :
      Call σ here (shift here direction value amount) [.value value, .value amount]
  | neg (value : Value) : Call σ here (neg here value) [.value value]
  | compare (ord : OrdTest) (left right : Value) :
      Call σ here (compare here ord left right) [.value left, .value right]
  | nullCheck (same : EqTest) (value : Value) :
      Call σ here (nullCheck here same value) [.value value]
  | not (value : Value) : Call σ here (not here value) [.value value]
  | convert (value : Value) (type : Primitive) :
      Call σ here (convert here value type) [.value value]
  | box (value : Value) : Call σ here (box here value) [.value value]
  | unbox (value : Value) : Call σ here (unbox here value) [.value value]
  | cast (value : Value) (type : FieldType) : Call σ here (cast here value type) [.value value]
  | instanceOf (value : Value) (type : RefType) :
      Call σ here (instanceOf here value type) [.value value]
  | newArray (element : FieldType) (length : Value) :
      Call σ here (newArray here element length) [.value length]
  | arrayLength (array : Value) : Call σ here (arrayLength here array) [.value array]
  | arrayLoad (array index : Value) :
      Call σ here (arrayLoad here array index) [.value array, .value index]
  | arrayStore (array index value : Value) :
      Call σ here (arrayStore here array index value) [.value array, .value index, .value value]
  | invokeStatic (method : MethodRef) (args : List Value) :
      Call σ here (invokeStatic here method args) (args.map .value)
  | invokeVirtual (method : MethodRef) (object : Value) (args : List Value) :
      Call σ here (invokeVirtual here method object args) (.value object :: args.map .value)
  | invokeSpecial (method : MethodRef) (object : Value) (args : List Value) :
      Call σ here (invokeSpecial here method object args) (.value object :: args.map .value)
  | invokeInterface (method : MethodRef) (object : Value) (args : List Value) :
      Call σ here (invokeInterface here method object args) (.value object :: args.map .value)
  | newInstance (constructor : MethodRef) (args : List Value) :
      Call σ here (newInstance here constructor args) (args.map .value)
  | invokeConstructor (constructor : MethodRef) (args : List Value) :
      Call σ here (invokeConstructor here constructor args) (args.map .value)
  | getField (field : FieldRef) (object : Value) :
      Call σ here (getField here field object) [.value object]
  | putField (field : FieldRef) (object value : Value) :
      Call σ here (putField here field object value) [.value object, .value value]
  | getStatic (field : FieldRef) : Call σ here (getStatic here field) []
  | putStatic (field : FieldRef) (value : Value) :
      Call σ here (putStatic here field value) [.value value]
  | leave (target : Target) : Call σ here (leave here target) [.scope target]
  | again (target : Target) : Call σ here (again here target) [.scope target]
  | returnVoid : Call σ here (returnVoid here) []
  | returnValue (value : Value) : Call σ here (returnValue here value) [.value value]
  | throwValue (exception : Value) : Call σ here (throwValue here exception) [.value exception]
  | throwNew (name : ClassName) (message : Option String) :
      Call σ here (throwNew here name message) []

mutual

/-- The programs that build into a scope. -/
inductive Writes : (σ : Type) → (here : Nat) → (α : Type) → Build σ α → Prop
  | pure {σ here α} (a : α) : Writes σ here α (pure a)
  | fail {σ here α} (e : Fault) : Writes σ here α (fail e)
  | carry {σ here α} (f : σ → α × σ) : Writes σ here α (carry f)
  | bind {σ here α β} {m : Build σ α} {f : α → Build σ β} :
      Writes σ here α m → (∀ a, Writes σ here β (f a)) → Writes σ here β (m >>= f)
  | attempt {σ here α} {m : Build σ α} :
      Writes σ here α m → Writes σ here (Except Fault α) (attempt m)
  | call {σ here α} {m : Build σ α} {handles : List Handle} :
      Call σ here m handles → Writes σ here α m
  | ifThen {σ here} (cond : Value) {whenTrue : Block σ} :
      (∀ c, Writes σ c Unit (whenTrue c)) → Writes σ here Unit (ifThen here cond whenTrue)
  | ifElse {σ here} (cond : Value) {whenTrue whenFalse : Block σ} :
      (∀ c, Writes σ c Unit (whenTrue c)) → (∀ c, Writes σ c Unit (whenFalse c)) →
      Writes σ here Unit (ifElse here cond whenTrue whenFalse)
  | block {σ here} {inner : Block σ} :
      (∀ c, Writes σ c Unit (inner c)) → Writes σ here Unit (block here inner)
  | whileLoop {σ here} {test : Nat → Build σ Value} {body : Block σ} :
      (∀ c, Writes σ c Value (test c)) → (∀ c, Writes σ c Unit (body c)) →
      Writes σ here Unit (whileLoop here test body)
  | loop {σ here} {body : Block σ} :
      (∀ c, Writes σ c Unit (body c)) → Writes σ here Unit (loop here body)
  | forEachArray {σ here} (array : Value) {body : Nat → Value → Build σ Unit} :
      (∀ c v, Writes σ c Unit (body c v)) → Writes σ here Unit (forEachArray here array body)
  | forEachIterable {σ here} (iterable : Value) {body : Nat → Value → Build σ Unit} :
      (∀ c v, Writes σ c Unit (body c v)) → Writes σ here Unit (forEachIterable here iterable body)
  | tryCatch {σ here} {parts : Try σ Unit} :
      WritesTry σ Unit parts → Writes σ here Unit (tryCatch here parts)
  | switchInt {σ here} (selector : Value) {arms : Switch σ Unit} :
      WritesSwitch σ Unit arms → Writes σ here Unit (switchInt here selector arms)
  | switchString {σ here} (selector : Value) {arms : Switch σ Unit} :
      WritesSwitch σ Unit arms → Writes σ here Unit (switchString here selector arms)
  | switchEnum {σ here} (selector : Value) {arms : Switch σ Unit} :
      WritesSwitch σ Unit arms → Writes σ here Unit (switchEnum here selector arms)

inductive WritesTry : (σ : Type) → (α : Type) → Try σ α → Prop
  | pure {σ α} (a : α) : WritesTry σ α (pure a)
  | fail {σ α} (e : Fault) : WritesTry σ α (fail e)
  | carry {σ α} (f : σ → α × σ) : WritesTry σ α (outside (carry f))
  | bind {σ α β} {m : Try σ α} {f : α → Try σ β} :
      WritesTry σ α m → (∀ a, WritesTry σ β (f a)) → WritesTry σ β (m >>= f)
  | attempt {σ α} {m : Try σ α} : WritesTry σ α m → WritesTry σ (Except Fault α) (attempt m)
  | body {σ} {block : Block σ} :
      (∀ c, Writes σ c Unit (block c)) → WritesTry σ Unit (tryBody block)
  | catchClause {σ} (caught : ClassName) {block : Nat → Value → Build σ Unit} :
      (∀ c v, Writes σ c Unit (block c v)) → WritesTry σ Unit (catchClause caught block)
  | finallyBlock {σ} {block : Block σ} :
      (∀ c, Writes σ c Unit (block c)) → WritesTry σ Unit (finallyBlock block)

inductive WritesSwitch : (σ : Type) → (α : Type) → Switch σ α → Prop
  | pure {σ α} (a : α) : WritesSwitch σ α (pure a)
  | fail {σ α} (e : Fault) : WritesSwitch σ α (fail e)
  | carry {σ α} (f : σ → α × σ) : WritesSwitch σ α (outside (carry f))
  | bind {σ α β} {m : Switch σ α} {f : α → Switch σ β} :
      WritesSwitch σ α m → (∀ a, WritesSwitch σ β (f a)) → WritesSwitch σ β (m >>= f)
  | attempt {σ α} {m : Switch σ α} :
      WritesSwitch σ α m → WritesSwitch σ (Except Fault α) (attempt m)
  | case {σ} (labels : List CaseLabel) {block : Block σ} :
      (∀ c, Writes σ c Unit (block c)) → WritesSwitch σ Unit (case labels block)
  | defaultCase {σ} {block : Block σ} :
      (∀ c, Writes σ c Unit (block c)) → WritesSwitch σ Unit (defaultCase block)
  | setFallthrough {σ} (fallthrough : Bool) : WritesSwitch σ Unit (setFallthrough fallthrough)
  | target {σ} : WritesSwitch σ Target switchTarget

end

section

variable {σ α : Type} {here : Nat} {m : Build σ α} {handles : List Handle}

inductive Exit (σ : Type) (here : Nat) : {α : Type} → Build σ α → List Handle → Prop
  | jump (kind : JumpKind) (target : Target) : Exit σ here (jump here kind target) [.scope target]
  | returnVoid : Exit σ here (returnVoid here) []
  | returnValue (value : Value) : Exit σ here (returnValue here value) [.value value]

/-- The call that notes that the object under construction is initialized. -/
inductive Constructs (σ : Type) (here : Nat) : {α : Type} → Build σ α → List Handle → Prop
  | call (constructor : MethodRef) (args : List Value) :
      Constructs σ here (invokeConstructor here constructor args) (args.map .value)

/-- A call is an exit, or it initializes the object, or it is a leaf. -/
theorem Call.sorts (h : Call σ here m handles) :
    Exit σ here m handles ∨ Constructs σ here m handles ∨
      Leaf here (fun v => .value v ∈ handles) (fun _ => True) m := by
  have hargs : ∀ {args : List Value} {arg}, arg ∈ args → Handle.value arg ∈ args.map .value :=
    fun harg => List.mem_map_of_mem harg
  have hobject : ∀ {object : Value} {args : List Value}, ∀ v ∈ some object,
      Handle.value v ∈ .value object :: args.map .value := by
    rintro object args v ⟨⟩
    exact .head ..
  have hmore : ∀ {object : Value} {args : List Value} {arg}, arg ∈ args →
      Handle.value arg ∈ .value object :: args.map .value :=
    fun harg => .tail _ (hargs harg)
  cases h with
  | leave target => exact .inl (.jump .leave target)
  | again target => exact .inl (.jump .again target)
  | returnVoid => exact .inl .returnVoid
  | returnValue value => exact .inl (.returnValue value)
  | invokeConstructor constructor args => exact .inr (.inl (.call constructor args))
  | constInt _ | constLong _ | constFloat _ | constDouble _ | constBool _ | constString _
  | constNull _ | constClass _ => exact .inr (.inr (.constant rfl))
  | param _ | receiver => exact .inr (.inr ((Looks.see _).bind fun _ =>
      (Looks.ofOption (fun _ _ h => by cases h) _).leaf))
  | typeOf value => exact .inr (.inr (Looks.typeOf value).leaf)
  | target => exact .inr (.inr (Looks.see _).leaf)
  | declareOf type _ => exact .inr (.inr (leaf_declareOf (by simp) type))
  | declare _ => exact .inr (.inr (leaf_declare (by simp)))
  | get _ => exact .inr (.inr (leaf_get (by simp)))
  | set _ _ => exact .inr (.inr (leaf_set (by simp) (by simp)))
  | inc _ delta => exact .inr (.inr (leaf_inc (by simp) delta))
  | arith op _ _ => exact .inr (.inr (leaf_arith (by simp) (by simp) op))
  | bitwise op _ _ => exact .inr (.inr (leaf_bitwise (by simp) (by simp) op))
  | shift direction _ _ => exact .inr (.inr (leaf_shift (by simp) (by simp) direction))
  | neg _ => exact .inr (.inr (leaf_neg (by simp)))
  | compare ord _ _ => exact .inr (.inr (leaf_compare (by simp) (by simp) ord))
  | nullCheck same _ => exact .inr (.inr (leaf_nullCheck (by simp) same))
  | not _ => exact .inr (.inr (leaf_not (by simp)))
  | convert _ type => exact .inr (.inr (leaf_convert (by simp) type))
  | box _ => exact .inr (.inr (leaf_box (by simp)))
  | unbox _ => exact .inr (.inr (leaf_unbox (by simp)))
  | cast _ type => exact .inr (.inr (leaf_cast (by simp) type))
  | instanceOf _ type => exact .inr (.inr (leaf_instanceOf (by simp) type))
  | newArray element _ => exact .inr (.inr (leaf_newArray (by simp) element))
  | arrayLength _ => exact .inr (.inr (leaf_arrayLength (by simp)))
  | arrayLoad _ _ => exact .inr (.inr (leaf_arrayLoad (by simp) (by simp)))
  | arrayStore _ _ _ => exact .inr (.inr (leaf_arrayStore (by simp) (by simp) (by simp)))
  | invokeStatic method _ =>
    exact .inr (.inr (leaf_invoke .static method rfl (fun _ h => by cases h) fun _ => hargs))
  | invokeVirtual method _ _ =>
    exact .inr (.inr (leaf_invoke .virtual method rfl hobject fun _ => hmore))
  | invokeSpecial method _ _ =>
    exact .inr (.inr (leaf_invoke .special method rfl hobject fun _ => hmore))
  | invokeInterface method _ _ =>
    exact .inr (.inr (leaf_invokeInterface method (hobject _ rfl) fun _ => hmore))
  | newInstance constructor _ => exact .inr (.inr (leaf_newInstance constructor fun _ => hargs))
  | getField field _ => exact .inr (.inr (leaf_getField (by simp) field))
  | putField field _ _ => exact .inr (.inr (leaf_putField (by simp) (by simp) field))
  | getStatic field => exact .inr (.inr (leaf_getStatic field))
  | putStatic field _ => exact .inr (.inr (leaf_putStatic (by simp) field))
  | throwValue _ => exact .inr (.inr (leaf_throwValue (by simp)))
  | throwNew name message => exact .inr (.inr (leaf_throwNew name message))

theorem Call.keeps (h : Call σ here m handles) (base : Body) :
    Keeps base here (fun _ => True) m := by
  rcases h.sorts with hexit | hinit | hleaf
  · cases hexit with
    | jump kind target => exact keeps_jump kind target
    | returnVoid => exact keeps_returnVoid
    | returnValue value => exact keeps_returnValue value
  · cases hinit with
    | call constructor args => exact keeps_invokeConstructor constructor args
  · exact hleaf.keeps base

end

theorem after_attempt {σ α : Type} (m : Build σ α) (w : Work σ) :
    after (attempt m) w = after m w := by
  cases hr : m w <;> simp only [attempt, after, hr]

theorem attempt_eq_ok {σ α : Type} {m : Build σ α} {w w' : Work σ} {r : Except Fault α}
    (h : attempt m w = .ok r w') : (∃ a, m w = .ok a w') ∨ ∃ e, m w = .error e w' := by
  cases hr : m w with
  | ok a v =>
    simp only [attempt, hr] at h
    cases h
    exact .inl ⟨a, rfl⟩
  | error e v =>
    simp only [attempt, hr] at h
    cases h
    exact .inr ⟨e, rfl⟩

theorem Keeps.attempt {σ α : Type} {base : Body} {here : Nat} {P : Body → Prop} {m : Build σ α}
    (hm : Keeps base here P m) : Keeps base here P (attempt m) := by
  intro w hw hg hP
  rw [after_attempt]
  exact hm w hw hg hP

theorem Triple.attempt {δ σ α : Type} {I : δ → Body → Prop} {m : Build (δ × σ) α}
    (hm : Triple I m (fun _ => I) I) : Triple I (attempt m) (fun _ => I) I := by
  refine .of_after fun w hw => ?_
  rw [after_attempt]
  exact hm.ends hw

mutual

/-- A program in a scope keeps the body ready for the scope. -/
theorem Writes.keeps {σ : Type} {here : Nat} {α : Type} {m : Build σ α} :
    Writes σ here α m → ∀ base, Keeps base here (fun _ => True) m
  | .pure a, _ => .pure a
  | .fail e, _ => .fail e
  | .carry _, _ => fun _ hw hg _ => ⟨hw, hg⟩
  | .bind hm hf, base => (hm.keeps base).bind fun a => (hf a).keeps base
  | .attempt hm, base => (hm.keeps base).attempt
  | .call h, base => h.keeps base
  | .ifThen cond hblock, _ => keeps_ifThen cond fun base c => (hblock c).keeps base
  | .ifElse cond htrue hfalse, _ => keeps_ifElse cond (fun base c => (htrue c).keeps base)
      fun base c => (hfalse c).keeps base
  | .block hblock, _ => keeps_block fun base c => (hblock c).keeps base
  | .whileLoop htest hbody, _ => keeps_whileLoop (fun base c => (htest c).keeps base)
      fun base c => (hbody c).keeps base
  | .loop hbody, _ => keeps_loop fun base c => (hbody c).keeps base
  | .forEachArray array hbody, _ => keeps_forEachArray array fun base c v => (hbody c v).keeps base
  | .forEachIterable iterable hbody, _ =>
      keeps_forEachIterable iterable fun base c v => (hbody c v).keeps base
  | .tryCatch hparts, _ => keeps_tryCatch hparts.keeps
  | .switchInt selector harms, _ => keeps_switchPlain selector harms.keeps (by simp)
  | .switchString selector harms, _ => keeps_switchPlain selector harms.keeps (by simp)
  | .switchEnum selector harms, _ => keeps_switchEnum selector harms.keeps

theorem WritesTry.keeps {σ : Type} {α : Type} {m : Try σ α} : WritesTry σ α m → KeepsTry m
  | .pure a => fun _ _ _ => .pure a
  | .fail e => fun _ _ _ => .fail e fun _ _ h => h
  | .carry _ => fun _ _ _ _ h => h
  | .bind hm hf => fun base here frame => (hm.keeps base here frame).bind fun a =>
      (hf a).keeps base here frame
  | .attempt hm => fun base here frame => (hm.keeps base here frame).attempt
  | .body hblock => keeps_tryBody fun base c => (hblock c).keeps base
  | .catchClause caught hblock => keeps_catchClause caught fun base c v => (hblock c v).keeps base
  | .finallyBlock hblock => keeps_finallyBlock fun base c => (hblock c).keeps base

theorem WritesSwitch.keeps {σ : Type} {α : Type} {m : Switch σ α} :
    WritesSwitch σ α m → KeepsSwitch m
  | .pure a => fun _ _ _ _ => .pure a
  | .fail e => fun _ _ _ _ => .fail e fun _ _ h => h
  | .carry _ => fun _ _ _ _ _ h => h
  | .bind hm hf => fun base start here frame => (hm.keeps base start here frame).bind fun a =>
      (hf a).keeps base start here frame
  | .attempt hm => fun base start here frame => (hm.keeps base start here frame).attempt
  | .case labels hblock => keeps_case labels fun base c => (hblock c).keeps base
  | .defaultCase hblock => keeps_defaultCase fun base c => (hblock c).keeps base
  | .setFallthrough fallthrough => keeps_setFallthrough fallthrough
  | .target => keeps_switchTarget

end

end Build
end ClassAssembler
