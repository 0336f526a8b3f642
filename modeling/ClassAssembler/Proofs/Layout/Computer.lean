import ClassAssembler.Proofs.Layout.Running

/-!
# Computers

A computer executes all code. What it does with numbers, arrays and local variables is fixed, and
what every other entry does is up to it, but for the local variables, which nothing else touches.
-/

namespace ClassAssembler

namespace Machine

variable {α W : Type} {M : Machine α W} {ps : List α}

/-- A run comes from one configuration to another by way of some positions, each in some state. -/
inductive Path (M : Machine α W) (ps : List α) : Config W → List (Nat × W) → Config W → Prop
  | nil {c : Config W} : Path M ps c [] c
  | cons {i : Nat} {w : W} {c c' : Config W} {way : List (Nat × W)} :
      M.step ps (.running i w) = c → Path M ps c way c' → Path M ps (.running i w)
        ((i, w) :: way) c'

theorem Path.append {c c' c'' : Config W} {way way' : List (Nat × W)} (h : M.Path ps c way c')
    (h' : M.Path ps c' way' c'') : M.Path ps c (way ++ way') c'' := by
  induction h with
  | nil => exact h'
  | cons hstep _ ih => exact .cons hstep (ih h')

def onEntries (act : Entry → W → Effect W) (handler? : Nat → ClassName → Option Label) :
    Machine Entry W := ⟨some, fun _ w => w, act, handler?⟩

end Machine

def OrdTest.compares (x y : Int32) : OrdTest → Bool
  | eq => x = y
  | ne => x ≠ y
  | lt => x < y
  | le => x ≤ y
  | gt => y < x
  | ge => y ≤ x

/-- A way to execute code with values in `V` and states in `W`. -/
structure Computer (V W : Type) where
  act : Entry → W → Effect W
  stack : W → List V
  locals : W → UInt16 → Option V
  kind : V → Kind
  int : Int32 → V
  length? : V → Option Nat
  kind_int : ∀ n, kind (int n) = .num .int
  kind_array : ∀ {a n}, length? a = some n → kind a = .ref
  length_lt : ∀ {a n}, length? a = some n → n < 2147483648
  sensible : Machine.Sensible act
  /-- Only what writes a local variable changes it. -/
  frame : ∀ {e w w'} {slot : UInt16}, (act e w).state? = some w' →
    (∀ i, e = .insn i → i.writesTo slot.toNat = false) → locals w' slot = locals w slot
  raised : ∀ {e w cause w'}, act e w = .raise cause w' → locals w' = locals w
  label : ∀ l w, act (.label l) w = .next w
  goto : ∀ l w, act (.branch (.goto l)) w = .jump l w
  push : ∀ (k : Fin 7) w, ∃ w', act (.insn (.constInt k)) w = .next w' ∧
    stack w' = int (Int32.ofInt (k - 1)) :: stack w
  load : ∀ {w slot d}, locals w slot = some d →
    ∃ w', act (.insn (.load (kind d) slot)) w = .next w' ∧ stack w' = d :: stack w
  store : ∀ {w d rest} (slot), stack w = d :: rest → ∃ w',
    act (.insn (.store (kind d) slot)) w = .next w' ∧ stack w' = rest ∧ locals w' slot = some d
  drop : ∀ {w d rest} {type : FieldType}, stack w = d :: rest → kind d = type.kind →
    ∃ w', act (.insn type.drop) w = .next w' ∧ stack w' = rest
  inc : ∀ {w slot n} (delta : Int16), locals w slot = some (int n) →
    ∃ w', act (.insn (.inc slot delta)) w = .next w' ∧
      locals w' slot = some (int (n + Int32.ofInt delta.toInt))
  jumpIf : ∀ {w n rest} (ord : OrdTest) (l), stack w = int n :: rest → ∃ w',
    act (.branch (.jumpIf (.zero ord) l)) w = (if ord.holds n then .jump l w' else .next w') ∧
      stack w' = rest
  compare : ∀ {w m n rest} (ord : OrdTest) (l), stack w = int n :: int m :: rest → ∃ w',
    act (.branch (.jumpIf (.ints ord) l)) w =
      (if ord.compares m n then .jump l w' else .next w') ∧ stack w' = rest
  arrayLength : ∀ {w a n rest}, length? a = some n → stack w = a :: rest →
    ∃ w', act (.insn .arrayLength) w = .next w' ∧ stack w' = int (Int32.ofNat n) :: rest
  arrayLoad : ∀ {w a n i rest} (element), length? a = some n → i < n →
    stack w = int (Int32.ofNat i) :: a :: rest →
    ∃ w' d, act (.insn (.arrayLoad element)) w = .next w' ∧ stack w' = d :: rest

namespace Computer

section reads

variable {V W : Type} (K : Computer V W) (x : Nat)

/-- The two topmost values on the stack whenever a run is at a position. -/
def reads (way : List (Nat × W)) : List (List V) :=
  (way.filter (·.1 = x)).map fun s => (K.stack s.2).take 2

theorem reads_append (way way' : List (Nat × W)) :
    K.reads x (way ++ way') = K.reads x way ++ K.reads x way' := by
  rw [reads, List.filter_append, List.map_append, reads, reads]

variable {x} in
theorem reads_eq_nil {way : List (Nat × W)} (h : ∀ s ∈ way, s.1 ≠ x) : K.reads x way = [] := by
  rw [reads, List.filter_eq_nil_iff.mpr fun s hs => by simpa using h s hs, List.map_nil]

end reads

abbrev Sample := Int32 ⊕ Fin 2147483648

abbrev SampleState := List Sample × (UInt16 → Option Sample)

def sampleInsn : Instruction → SampleState → SampleState
  | .constInt k, (stack, locals) => (.inl (Int32.ofInt (k - 1)) :: stack, locals)
  | .load _ slot, (stack, locals) => ((locals slot).toList ++ stack, locals)
  | .store _ slot, (stack, locals) =>
      (stack.tail, fun other => if other = slot then stack.head? else locals other)
  | .inc slot delta, (stack, locals) => (stack, fun other =>
      if other = slot then (locals slot).map (Sum.map (· + Int32.ofInt delta.toInt) id)
      else locals other)
  | .pop, (stack, locals) => (stack.tail, locals)
  | .arrayLength, (.inr n :: stack, locals) => (.inl (Int32.ofNat n) :: stack, locals)
  | .arrayLoad _, (stack, locals) => (.inl 0 :: stack.drop 2, locals)
  | _, w => w

def sampleAct : Entry → SampleState → Effect SampleState
  | .label _, w => .next w
  | .insn i, w => .next (sampleInsn i w)
  | .branch (.goto l), w => .jump l w
  | .branch (.jumpIf (.zero ord) l), (.inl n :: stack, locals) =>
      if ord.holds n then .jump l (stack, locals) else .next (stack, locals)
  | .branch (.jumpIf (.ints ord) l), (.inl n :: .inl m :: stack, locals) =>
      if ord.compares m n then .jump l (stack, locals) else .next (stack, locals)
  | _, _ => .stuck

theorem locals_sampleInsn {i : Instruction} {slot : UInt16} (w : SampleState)
    (hslot : i.writesTo slot.toNat = false) : (sampleInsn i w).2 slot = w.2 slot := by
  unfold sampleInsn
  split
  case h_3 | h_4 =>
    refine if_neg ?_
    rintro rfl
    simp [Instruction.writesTo, Instruction.writes?, Kind.words_pos] at hslot
  all_goals rfl

/-- A computer that knows no more than it has to. -/
def sample : Computer Sample SampleState where
  act := sampleAct
  stack := Prod.fst
  locals := Prod.snd
  kind d := match d with
    | .inl _ => .num .int
    | .inr _ => .ref
  int := .inl
  length? d := d.getRight?.map Fin.val
  kind_int _ := rfl
  kind_array {a n} h := by
    cases a with
    | inl _ => cases h
    | inr _ => rfl
  length_lt {a n} h := by
    cases a with
    | inl _ => cases h
    | inr n => cases h; exact n.isLt
  sensible := by
    constructor
    · intro e w w' h
      unfold sampleAct at h
      split at h
      all_goals first | rfl | cases h
    · intro e w l w' h
      unfold sampleAct at h
      split at h
      case h_4 | h_5 =>
        split at h
        all_goals cases h
        all_goals exact List.mem_cons_self
      all_goals cases h
      exact List.mem_cons_self
  frame {e w w' slot} h hslot := by
    change (sampleAct e w).state? = some w' at h
    unfold sampleAct at h
    split at h
    case h_2 =>
      cases h
      exact locals_sampleInsn w (hslot _ rfl)
    case h_4 | h_5 =>
      split at h
      all_goals cases h
      all_goals rfl
    all_goals cases h
    all_goals rfl
  raised {e w cause w'} h := by
    change sampleAct e w = _ at h
    unfold sampleAct at h
    split at h
    case h_4 | h_5 => split at h <;> cases h
    all_goals cases h
  label _ _ := rfl
  goto _ _ := rfl
  push k w := ⟨_, rfl, rfl⟩
  load {w slot d} h := ⟨(d :: w.1, w.2), by simp [sampleAct, sampleInsn, h], rfl⟩
  store {w d rest} slot h := by
    obtain ⟨stack, locals⟩ := w
    cases h
    exact ⟨_, rfl, rfl, if_pos rfl⟩
  drop {w d rest type} h hkind := by
    have hwidth : type.width ≠ 2 := by
      rw [← FieldType.words_kind, ← hkind]
      cases d <;> exact Nat.ne_of_lt Nat.one_lt_two
    obtain ⟨stack, locals⟩ := w
    cases h
    rw [FieldType.drop, if_neg hwidth]
    exact ⟨_, rfl, rfl⟩
  inc {w slot n} delta h := ⟨_, rfl, by simp [sampleInsn, h]⟩
  jumpIf {w n rest} ord l h := by
    obtain ⟨stack, locals⟩ := w
    cases h
    exact ⟨_, rfl, rfl⟩
  compare {w m n rest} ord l h := by
    obtain ⟨stack, locals⟩ := w
    cases h
    exact ⟨_, rfl, rfl⟩
  arrayLength {w a n rest} hn h := by
    obtain ⟨stack, locals⟩ := w
    cases h
    cases a with
    | inl _ => cases hn
    | inr a => cases hn; exact ⟨_, rfl, rfl⟩
  arrayLoad {w a n i rest} element _ _ h := by
    obtain ⟨stack, locals⟩ := w
    cases h
    exact ⟨_, _, rfl, rfl⟩

end Computer
end ClassAssembler
