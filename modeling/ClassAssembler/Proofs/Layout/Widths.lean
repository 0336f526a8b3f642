import ClassAssembler.Proofs.Body.Sound

/-!
# Widths of a stack

Tags do not matter to what instructions do to the stack, so a stack can be given by the widths of
its values.
-/

namespace ClassAssembler

open List Instruction

def Cell.map {α β : Type} (f : α → β) (cell : Cell α) : Cell β := ⟨f cell.tag, cell.words⟩

namespace Instruction

theorem act_map {α β : Type} (f : α → β) (fresh : α) (i : Instruction) (stack : List (Cell α)) :
    i.act (f fresh) (stack.map (Cell.map f)) =
      (i.act fresh stack).map (List.map (Cell.map f)) := by
  cases i with
  | pop | dup =>
    cases stack with
    | nil => rfl
    | cons a s =>
      simp only [act, map_cons, Cell.map]
      split <;> rfl
  | dupX1 | swap =>
    rcases stack with _ | ⟨a, _ | ⟨b, s⟩⟩
    · rfl
    · rfl
    · simp only [act, map_cons, Cell.map]
      split <;> rfl
  | pop2 | dup2 =>
    rcases stack with _ | ⟨a, _ | ⟨b, s⟩⟩
    · rfl
    · simp only [act, map_cons, map_nil, Cell.map]
      split <;> rfl
    · simp only [act, map_cons, Cell.map]
      split
      · rfl
      · split <;> rfl
  | dupX2 =>
    rcases stack with _ | ⟨a, _ | ⟨b, _ | ⟨c, s⟩⟩⟩
    · rfl
    · rfl
    · simp only [act, map_cons, map_nil, Cell.map]
      split <;> rfl
    · simp only [act, map_cons, Cell.map]
      split
      · rfl
      · split <;> rfl
  | _ =>
    simp only [act, length_map]
    split
    · simp [Cell.map, Function.comp_def]
    · rfl

/-- The widths on the stack behind an instruction, if it finds what it needs. -/
def reshape (i : Instruction) (widths : List Nat) : Option (List Nat) :=
  (i.act () (widths.map (Cell.mk ()))).map (List.map Cell.words)

def reshapeAll : List Instruction → List Nat → Option (List Nat)
  | [], widths => some widths
  | i :: is, widths => (i.reshape widths).bind (reshapeAll is)

variable {i : Instruction} {is : List Instruction} {ws : List Nat}

theorem reshape_act {α : Type} (fresh : α) (i : Instruction) (stack : List (Cell α)) :
    i.reshape (stack.map Cell.words) = (i.act fresh stack).map (List.map Cell.words) := by
  have hcells : (stack.map Cell.words).map (Cell.mk ()) = stack.map (Cell.map fun _ => ()) := by
    rw [map_map]
    rfl
  rw [reshape, hcells, act_map (fun _ => ()) fresh, Option.map_map]
  cases i.act fresh stack with
  | none => rfl
  | some s => simp [Cell.map, Function.comp_def]

theorem reshapeAll_actAll {α : Type} (fresh : α) (is : List Instruction) (stack : List (Cell α)) :
    reshapeAll is (stack.map Cell.words) =
      (actAll fresh is stack).map (List.map Cell.words) := by
  induction is generalizing stack with
  | nil => rfl
  | cons i is ih =>
    rw [reshapeAll, actAll, reshape_act fresh]
    cases i.act fresh stack with
    | none => rfl
    | some s => exact ih s

theorem reshape_eq (hi : i.shuffles = false) (hlen : i.uses ≤ ws.length) :
    i.reshape ws = some (i.gives.toList ++ ws.drop i.uses) := by
  rw [reshape, act_eq hi () (by rwa [length_map])]
  cases i.gives <;> simp [Function.comp_def]

theorem reshape_one (hi : i.shuffles = false) (huses : i.uses = 1) {w : Nat}
    (hgives : i.gives = some w) (w' : Nat) (ws : List Nat) :
    i.reshape (w' :: ws) = some (w :: ws) := by
  rw [reshape_eq hi (by rw [huses]; simp), huses, hgives]
  rfl

theorem reshape_push (hi : i.shuffles = false) (huses : i.uses = 0) {w : Nat}
    (hgives : i.gives = some w) (ws : List Nat) : i.reshape ws = some (w :: ws) := by
  rw [reshape_eq hi (by rw [huses]; exact Nat.zero_le _), huses, hgives]
  rfl

theorem reshapeAll_singleton : reshapeAll [i] ws = i.reshape ws := by
  rw [reshapeAll]
  cases i.reshape ws <;> rfl

def Pushes (is : List Instruction) (w : Nat) : Prop :=
  Quiet is ∧ ∀ ws, reshapeAll is ws = some (w :: ws)

theorem pushes_one {w : Nat} (hi : i.isPlain) (huses : i.uses = 0) (hgives : i.gives = some w) :
    Pushes [i] w :=
  ⟨quiet_of_isPlain hi, fun ws => by
    rw [reshapeAll_singleton, reshape_push (shuffles_of_isPlain hi) huses hgives]⟩

structure IsConstant (i : Instruction) (w : Nat) : Prop where
  plain : i.isPlain
  uses : i.uses = 0
  gives : i.gives = some w
  notCall : ∀ kind m, i ≠ .invoke kind m

theorem isConstant_short {n : Int} (h : Push.short? n = some i) : i.IsConstant 1 := by
  unfold Push.short? at h
  split at h
  · cases h
    exact ⟨rfl, rfl, rfl, by simp⟩
  · split at h
    · cases h
      exact ⟨rfl, rfl, rfl, by simp⟩
    · split at h
      · cases h
        exact ⟨rfl, rfl, rfl, by simp⟩
      · cases h

theorem literal_cases {P : List Instruction → Prop} (l : Literal)
    (hone : ∀ i, IsConstant i l.words → P [i])
    (hwide : ∀ i conversion, IsConstant i 1 → conversion.words = l.words →
      P [i, .convert conversion]) : P (Lay.literal l) := by
  have hconst : ∀ {i : Instruction}, i.isPlain → i.uses = 0 → i.gives = some l.words →
      (∀ kind m, i ≠ .invoke kind m) → P [i] := fun h1 h2 h3 h4 => hone _ ⟨h1, h2, h3, h4⟩
  cases l with
  | int n =>
    show P [_]
    cases hshort : Push.short? n.toInt with
    | none => exact hconst rfl rfl rfl (by simp)
    | some i => exact hone i (isConstant_short hshort)
  | long n =>
    show P (Push.long n)
    unfold Push.long
    split
    · exact hconst rfl rfl rfl (by simp)
    · split
      · exact hconst rfl rfl rfl (by simp)
      · split
        · next hshort => exact hwide _ .i2l (isConstant_short hshort) rfl
        · exact hconst rfl rfl rfl (by simp)
  | float bits =>
    show P (Push.float bits)
    unfold Push.float
    split
    · exact hconst rfl rfl rfl (by simp)
    · split
      · exact hconst rfl rfl rfl (by simp)
      · split
        · exact hconst rfl rfl rfl (by simp)
        · split
          · next hshort =>
            obtain ⟨n, _, hshort⟩ := Option.bind_eq_some_iff.mp hshort
            exact hwide _ .i2f (isConstant_short hshort) rfl
          · exact hconst rfl rfl rfl (by simp)
  | double bits =>
    show P (Push.double bits)
    unfold Push.double
    split
    · exact hconst rfl rfl rfl (by simp)
    · split
      · exact hconst rfl rfl rfl (by simp)
      · split
        · next hshort =>
          obtain ⟨n, _, hshort⟩ := Option.bind_eq_some_iff.mp hshort
          exact hwide _ .i2d (isConstant_short hshort) rfl
        · exact hconst rfl rfl rfl (by simp)
  | string _ | null | classObject _ => exact hconst rfl rfl rfl (by simp)

theorem pushes_literal (l : Literal) : Pushes (Lay.literal l) l.words := by
  refine literal_cases (P := (Pushes · l.words)) l
    (fun i hi => pushes_one hi.plain hi.uses hi.gives) fun i conversion hi hwords =>
      ⟨fun j hj => ?_, fun ws => ?_⟩
  · rcases mem_cons.mp hj with rfl | hj
    · exact quiet_of_isPlain hi.plain _ (mem_singleton.mpr rfl)
    · rw [mem_singleton.mp hj]
      rfl
  · rw [reshapeAll, reshape_push (shuffles_of_isPlain hi.plain) hi.uses hi.gives,
      Option.bind_some, reshapeAll_singleton, ← hwords]
    exact reshape_one rfl rfl rfl _ _

theorem not_mem_literal (l : Literal) (kind : InvokeKind) (m : MethodRef) :
    .invoke kind m ∉ Lay.literal l := by
  refine literal_cases (P := (.invoke kind m ∉ ·)) l (fun i hi hmem => ?_)
    fun i conversion hi _ hmem => ?_
  · exact hi.notCall kind m (mem_singleton.mp hmem).symm
  · rcases mem_cons.mp hmem with heq | hmem
    · exact hi.notCall kind m heq.symm
    · cases mem_singleton.mp hmem

end Instruction

theorem FieldType.words_kind (type : FieldType) : type.kind.words = type.width := by
  cases type with
  | prim p => cases p <;> rfl
  | ref r => rfl

theorem FieldType.width_pos (type : FieldType) : 0 < type.width := by
  cases type with
  | prim p => cases p <;> decide
  | ref r => exact Nat.one_pos

theorem FieldType.reshape_drop (type : FieldType) (ws : List Nat) :
    type.drop.reshape (type.width :: ws) = some ws := by
  have hcases : type.width = 1 ∨ type.width = 2 := by
    cases type with
    | prim p => cases p <;> decide
    | ref r => exact .inl rfl
  unfold FieldType.drop
  rcases hcases with h | h
  · rw [if_neg (by omega), h]
    simp [reshape, act, Function.comp_def]
  · rw [if_pos h, h]
    cases ws <;> simp [reshape, act, Function.comp_def]

theorem Operand.Fits.reshape {o : Operand} (h : o.Fits) (w : Nat) (ws : List Nat) :
    ∃ w', reshapeAll o.coercion (w :: ws) = some (w' :: ws) := by
  let stack : List (Cell (Option Nat)) := ws.map (Cell.mk none)
  obtain ⟨cell', hact⟩ := h.2 ⟨none, w⟩ stack
  have hshape := reshapeAll_actAll none o.coercion (⟨none, w⟩ :: stack)
  rw [hact] at hshape
  refine ⟨cell'.words, ?_⟩
  simpa [stack, Function.comp_def] using hshape

end ClassAssembler
