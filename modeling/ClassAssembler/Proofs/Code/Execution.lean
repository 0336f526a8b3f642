import ClassAssembler.Code.Push
import ClassAssembler.Proofs.Code.Machine
import ClassAssembler.Text.Utf16

/-!
# Executing dispatch code

What the instructions do that switches are made of.
-/

namespace ClassAssembler

def Text.polynomial (units : List Nat) : Nat := units.foldl (fun sum unit => 31 * sum + unit) 0

theorem Text.unitsHash_eq (units : List Nat) :
    unitsHash units = Int32.ofNat (polynomial units) := by
  have hfold : ∀ sum : Nat, units.foldl (fun hash unit => 31 * hash + Int32.ofNat unit)
      (Int32.ofNat sum) = Int32.ofNat (units.foldl (fun sum unit => 31 * sum + unit) sum) := by
    induction units with
    | nil => exact fun _ => rfl
    | cons unit units ih =>
      intro sum
      rw [List.foldl_cons, List.foldl_cons, ← ih, Int32.ofNat_add, Int32.ofNat_mul]
      rfl
  exact hfold 0

/-- What a slot or an entry of the stack holds. -/
inductive Datum where
  | int (value : Int32)
  | null
  | text (units : List Nat)
  | other (kind : Kind) (id : Nat)
  deriving DecidableEq

def Datum.kind : Datum → Kind
  | int _ => .num .int
  | other kind _ => kind
  | _ => .ref

structure Frame where
  stack : List Datum
  locals : UInt16 → Option Datum

def Frame.push (f : Frame) (d : Datum) : Frame := { f with stack := d :: f.stack }

/-- What instructions do that have nothing to do with numbers and texts. -/
structure World where
  insn : Instruction → Frame → Effect Frame
  insn_ne_jump : ∀ {i f l f'}, insn i f ≠ .jump l f'

namespace World

def invokeVirtual? (method : MethodRef) (f : Frame) : Option Frame :=
  match f.stack with
  | .text units :: rest =>
      if method = .stringHashCode then
        some { f with stack := .int (Int32.ofNat (Text.polynomial units)) :: rest }
      else
        match rest with
        | .text receiver :: rest =>
            if method = .stringEquals then
              some { f with stack := .int (if receiver = units then 1 else 0) :: rest }
            else none
        | _ => none
  | _ => none

def load? (kind : Kind) (slot : UInt16) (f : Frame) : Option Frame :=
  ((f.locals slot).filter (·.kind = kind)).map f.push

def checkCast? (type : RefType) (f : Frame) : Option Frame :=
  match f.stack with
  | .null :: _ => some f
  | .text _ :: _ => if type = .object .string ∨ type = .object .object then some f else none
  | _ => none

def insn? (i : Instruction) (f : Frame) : Option Frame :=
  match i with
  | .constNull => some (f.push .null)
  | .constInt k => some (f.push (.int (Int32.ofInt (k - 1))))
  | .pushByte n => some (f.push (.int (Int32.ofInt n.toInt)))
  | .pushShort n => some (f.push (.int (Int32.ofInt n.toInt)))
  | .ldc (.integer n) => some (f.push (.int n))
  | .ldc (.string text) => some (f.push (.text (Text.units text)))
  | .load kind slot => load? kind slot f
  | .invoke .virtual method => invokeVirtual? method f
  | .checkCast type => checkCast? type f
  | _ => none

variable (world : World)

def execute (i : Instruction) (f : Frame) : Effect Frame :=
  match insn? i f with
  | some f => .next f
  | none => world.insn i f

def jumpWhen (holds : Bool) (l : Label) (f : Frame) : Effect Frame :=
  if holds then .jump l f else .next f

def jumpIf (test : Test) (l : Label) (f : Frame) : Effect Frame :=
  match test, f.stack with
  | .zero ord, .int n :: rest => jumpWhen (ord.holds n) l { f with stack := rest }
  | .null same, d :: rest => jumpWhen (same.holds (d = .null)) l { f with stack := rest }
  | _, _ => .stuck

def ret (kind : Option Kind) (f : Frame) : Effect Frame :=
  if kind = none ∨ kind = f.stack.head?.map Datum.kind then .halt f else .stuck

def choose (br : Branch) (f : Frame) : Effect Frame :=
  match f.stack with
  | .int n :: rest =>
      match br.select n with
      | some l => .jump l { f with stack := rest }
      | none => .stuck
  | _ => .stuck

def branch (br : Branch) (f : Frame) : Effect Frame :=
  match br with
  | .goto l => .jump l f
  | .jumpIf test l => jumpIf test l f
  | .ret kind => ret kind f
  | br => choose br f

def act : Entry → Frame → Effect Frame
  | .label _, f => .next f
  | .insn i, f => world.execute i f
  | .branch br, f => branch br f

/-- The machine that executes code, and the lists that code stands in. -/
def machine {α : Type} (code? : α → Option Entry) (handler? : Nat → ClassName → Option Label) :
    Machine α Frame where
  code? := code?
  pass _ f := f
  act := world.act
  handler? := handler?

variable {world} {f f' : Frame} {l : Label}

theorem execute_of_some {i : Instruction} (h : insn? i f = some f') :
    world.execute i f = .next f' := by
  rw [execute, h]

theorem jumpIf_eq_jump {test : Test} {l' : Label} (h : jumpIf test l' f = .jump l f') : l = l' := by
  have hwhen : ∀ {holds f0}, jumpWhen holds l' f0 = .jump l f' → l = l' := by
    intro holds f0 h
    cases holds <;> cases h
    rfl
  unfold jumpIf at h
  split at h
  · exact hwhen h
  · exact hwhen h
  · cases h

theorem choose_ne_next (br : Branch) : choose br f ≠ .next f' := by
  intro h
  unfold choose at h
  repeat' split at h
  all_goals cases h

theorem choose_eq_jump (br : Branch) (h : choose br f = .jump l f') : l ∈ br.targets := by
  unfold choose at h
  split at h
  · split at h
    · next hselect =>
      cases h
      exact Branch.select_mem hselect
    · cases h
  · cases h

theorem ret_eq (kind : Option Kind) (f : Frame) : ret kind f = .halt f ∨ ret kind f = .stuck := by
  unfold ret
  split
  · exact .inl rfl
  · exact .inr rfl

theorem execute_ne_jump (i : Instruction) : world.execute i f ≠ .jump l f' := by
  intro h
  unfold execute at h
  split at h
  · cases h
  · exact world.insn_ne_jump h

theorem branches {α : Type} {code? : α → Option Entry} {handler? : Nat → ClassName → Option Label} :
    (world.machine code? handler?).Branches f fun n => f.push (.int n) where
  label _ := rfl
  goto _ := rfl
  jumpIf _ _ _ := rfl
  choose br n l hl := by
    cases br with
    | tableSwitch | lookupSwitch =>
      cases hl
      rfl
    | _ => cases hl

theorem pushInt (n : Int32) (f : Frame) :
    ∃ i, Push.int n = [i] ∧ insn? i f = some (f.push (.int n)) := by
  refine ⟨_, rfl, ?_⟩
  unfold Push.short?
  split
  · next h =>
    have hk : ((n.toInt + 1).toNat : Int) - 1 = n.toInt := by omega
    show some (f.push (.int (Int32.ofInt (((n.toInt + 1).toNat : Int) - 1)))) = _
    rw [hk, Int32.ofInt_toInt]
  · split
    · next h =>
      show some (f.push (.int (Int32.ofInt (Int8.ofInt n.toInt).toInt))) = _
      rw [Int8.toInt_ofInt_of_le (by omega) (by omega), Int32.ofInt_toInt]
    · split
      · next h =>
        show some (f.push (.int (Int32.ofInt (Int16.ofInt n.toInt).toInt))) = _
        rw [Int16.toInt_ofInt_of_le (by omega) (by omega), Int32.ofInt_toInt]
      · rfl

theorem sensible : Machine.Sensible world.act where
  next {e f f'} h := by
    cases e with
    | branch br =>
      cases br with
      | jumpIf test l => rfl
      | goto l => cases h
      | ret kind => rcases ret_eq kind f with h' | h' <;> cases h'.symm.trans h
      | tableSwitch fallback low targets => exact absurd h (choose_ne_next (.tableSwitch ..))
      | lookupSwitch fallback targets => exact absurd h (choose_ne_next (.lookupSwitch ..))
      | throw => exact absurd h (choose_ne_next .throw)
    | _ => rfl
  jump {e f l f'} h := by
    cases e with
    | label l' => cases h
    | insn i => exact absurd h (execute_ne_jump i)
    | branch br =>
      cases br with
      | jumpIf test l' => exact List.mem_singleton.mpr (jumpIf_eq_jump h)
      | goto l' =>
        cases h
        exact .head _
      | ret kind => rcases ret_eq kind f with h' | h' <;> cases h'.symm.trans h
      | tableSwitch fallback low targets => exact choose_eq_jump (.tableSwitch ..) h
      | lookupSwitch fallback targets => exact choose_eq_jump (.lookupSwitch fallback targets) h
      | throw => exact choose_eq_jump .throw h

end World
end ClassAssembler
