import ClassAssembler.Proofs.Build.Leaf

/-!
# Calls that add simple operations

Every call that reads values and adds operations without scopes of their own keeps a body ready.
-/

namespace ClassAssembler

variable {expected : FieldType} {i : Instruction} {o : Operand}

open Instruction

variable {type : FieldType} {operands : List Operand}

variable {b : Body}

theorem Body.hasWidth_new (b : Body) (info : ValueInfo) :
    (b.addValue info).2.HasWidth b.values.size info.type.width :=
  ⟨info, by rw [getElem?_addValue, if_pos rfl], rfl⟩

theorem Primitive.width_numKind (p : Primitive) : p.numKind.type.width = p.width := by
  cases p <;> rfl

theorem NumKind.width_type (kind : NumKind) : kind.type.width = kind.words := by
  cases kind <;> rfl

theorem BitKind.width_type (kind : BitKind) : kind.type.width = kind.words := by
  cases kind <;> rfl

theorem NumKind.words_bitKind {kind : NumKind} {bits : BitKind} (h : kind.bitKind? = some bits) :
    bits.words = kind.words := by
  cases kind <;> cases h <;> rfl

theorem FieldType.width_element (type : FieldType) : type.element.words = type.width := by
  cases type with
  | prim p => cases p <;> rfl
  | ref r => rfl

theorem conversion?_acts {source : NumKind} {target : Primitive} {is : List Instruction}
    (h : conversion? source target = some is) :
    (is = [] ∧ source.type.width = target.width) ∨
      ∀ cell : Cell (Option Nat),
        actAll none is [cell] = some [⟨none, target.width⟩] := by
  cases source <;> cases target <;> cases h <;>
    first
    | exact .inl ⟨rfl, rfl⟩
    | exact .inr fun _ => rfl

theorem quiet_conversion? {source : NumKind} {target : Primitive} {is : List Instruction}
    (h : conversion? source target = some is) : Instruction.Quiet is := by
  obtain ⟨narrow, _, rfl⟩ := Option.map_eq_some_iff.mp h
  intro i hi
  obtain ⟨c, _, rfl⟩ := List.mem_map.mp hi
  rfl

namespace Action

theorem computes_insn {result : Option Nat} (hi : i.isPlain) (hlen : operands.length = i.uses)
    (hnone : Instruction.InitsVoid [i] → result = none → i.gives = none)
    (hsome : ∀ v, result = some v → ∃ w, i.gives = some w ∧ b.HasWidth v w) :
    (Action.insns [i]).Fits b operands result := by
  refine ⟨quiet_of_isPlain hi, .inr ⟨i.gives, fun cells hcells => ?_, hnone, hsome⟩⟩
  rw [actAll_singleton]
  exact act_exact (shuffles_of_isPlain hi) none (hcells.trans hlen)

end Action

namespace Build

variable {σ : Type} {base : Body} {here : Nat} {given : Value → Prop}
  {P : Body → Prop} {value left right array index amount : Value} {var : Variable}

namespace Leaf

theorem yieldInsn (hi : i.isPlain) (hlen : operands.length = i.uses)
    (hgives : i.gives = some type.width) (h : ∀ b, P b → Readings here b operands) :
    Leaf here given P (Build.yield here (.insns [i]) operands type : Build σ Value) := by
  refine .yield rfl fun b hP => ⟨h b hP, ?_⟩
  refine Action.computes_insn hi hlen (fun _ hnone => by cases hnone) fun v hv => ?_
  cases hv
  exact ⟨_, hgives, Body.hasWidth_new _ _⟩

theorem performInsn (hi : i.isPlain) (hlen : operands.length = i.uses) (hgives : i.gives = none)
    (h : ∀ b, P b → Readings here b operands) :
    Leaf here given P (Build.perform here (.insns [i]) operands : Build σ Unit) := by
  refine .perform fun _ => .perform rfl fun b hP => ⟨h b hP, ?_⟩
  exact Action.computes_insn hi hlen (fun _ _ => hgives) fun v hv => by cases hv

end Leaf

theorem readings_nil (b : Body) : Readings here b [] := fun _ h => by cases h

theorem Readings.cons {os : List Operand} (h : Reading here expected b o)
    (hs : Readings here b os) : Readings here b (o :: os) :=
  List.forall_mem_cons.mpr ⟨⟨expected, h⟩, hs⟩

theorem Readings.append {os os' : List Operand} (h : Readings here b os)
    (h' : Readings here b os') : Readings here b (os ++ os') := List.forall_mem_append.mpr ⟨h, h'⟩

theorem Reading.readings (h : Reading here expected b o) :
    Readings here b [o] := .cons h (readings_nil b)

theorem keeps_declareWith (type : FieldType) (o : Operand) :
    Keeps base here (fun b => P b ∧ Reading here type b o ∧ o.value = value.index) (do
      let v ← addValue ⟨type, some here, .variable⟩
      perform here (.store v.index true) [o]
      return ⟨v⟩ : Build σ Variable) := by
  refine .of_step fun w hw hP => ?_
  have hread : Reading here type w.body o := hP.2.1
  have ha : Body.Addable ⟨type, some here, .variable⟩ :=
    ⟨(fun hnone => by cases hnone), fun _ _ => .inl rfl⟩
  have hnew : (w.body.addValue ⟨type, some here, .variable⟩).2.values[w.body.values.size]? =
      some ⟨type, some here, .variable⟩ := by rw [Body.getElem?_addValue, if_pos rfl]
  refine hw.isOpen.pushValue hw.sound hw.collects ha
    (.simple (.store w.body.values.size true) [o] none) ?_ rfl rfl
  refine hw.accepts_simple (w.body.extends_addValue _) rfl (fun _ => rfl)
    ⟨rfl, rfl, _, hnew, rfl⟩ hread.readings.fits
    (Readings.needs hread.readings hw fun v hv => by cases hv) rfl (by simp) (fun v hv => ?_)
    (fun v hv => ?_) (fun v hv => by cases hv) (by simp)
  · cases List.mem_singleton.mp hv
    exact ⟨_, hnew, rfl⟩
  · cases List.mem_singleton.mp hv
    exact Nat.le_refl _

theorem leaf_declareOf (hv : given value) (type : FieldType) :
    Leaf here given P (declareOf here type value : Build σ Variable) :=
  (Looks.operand hv type).bind fun o => {
    keeps := fun _ => keeps_declareWith type o
    calm := (Calm.addValue _).bind fun _ => (Calm.push _).bind fun _ => .pure _
    stepwise := fun _ => (Stepwise.addValue _).bind fun _ => (Stepwise.perform _ _).bind
      fun _ => .pure _
    blames := fun _ _ _ _ h => by cases h }

theorem leaf_declare (hv : given value) :
    Leaf here given P (declare here value : Build σ Variable) :=
  (Looks.typeOf value).bind fun type => leaf_declareOf hv type

theorem Reading.copies {i : ValueInfo} (ho : Reading here expected b o)
    (hi : b.values[o.value]? = some i)
    (hact : ∀ cell : Cell (Option Nat), cell.words = i.type.width → ∃ tag,
      actAll none (coercion i.type expected) [cell] = some [⟨tag, type.width⟩]) (owner : Option Nat)
    (origin : Origin) :
    Action.Copies (b.addValue ⟨type, owner, origin⟩).2 [o] (some b.values.size) := by
  obtain ⟨i', hi', hc, _⟩ := ho.value
  rw [hi] at hi'
  cases hi'
  refine ⟨o, _, type.width, rfl, rfl, Body.hasWidth_new _ _, fun cell hcell => ?_⟩
  obtain ⟨j, hj, hw⟩ := hcell
  rw [(b.extends_addValue _).value _ _ hi] at hj
  cases hj
  rw [hc]
  exact hact cell hw.symm

theorem leaf_get (hv : given var.value) : Leaf here given P (get here var : Build σ Value) := by
  refine (Looks.operandAsIs hv).bind fun o => (Looks.typeOf var.value).bind fun type => ?_
  refine .yield rfl ?_
  rintro b ⟨⟨_, i, hi, hread, hv⟩, i', hi', rfl⟩
  rw [hi] at hi'
  cases hi'
  refine ⟨hread.readings, hread.copies (by rw [hv]; exact hi) (fun cell hw => ?_) _ _⟩
  obtain ⟨cell', hact, hwords⟩ := actAll_coercion none [] i.type i.type cell
  exact ⟨cell'.tag, by rw [hact, ← hwords hw (.inl rfl)]⟩

theorem Finds.variableType (var : Variable) :
    Finds (variableType here var : Build σ FieldType) fun b type => ∃ i,
      b.values[var.value.index]? = some i ∧ i.origin = .variable ∧ i.type = type ∧
        ∀ owner, i.owner = some owner → b.Descends → b.Within owner here := by
  unfold Build.variableType
  refine (info var.value).andThen fun i => ?_
  by_cases ho : i.origin ≠ .variable
  · rw [if_pos ho]
    exact .fail_bind _ _
  · rw [if_neg ho]
    refine ((operandAsIs var.value).andThen (S := fun b _ => ∀ owner,
      b.values[var.value.index]? = some i → i.owner = some owner → b.Descends →
        b.Within owner here)
      fun o => .pure _ ?_).andThen fun _ => .pure _ ?_
    · rintro b ⟨i', hi', hread, hv⟩ owner hi howner
      obtain ⟨j, hj, _, hall⟩ := hread.value
      rw [hv, hi] at hj
      cases hj
      exact hall owner howner
    · intro b hall hi
      exact ⟨i, hi, by simpa using ho, rfl, fun owner howner => hall owner hi howner⟩

theorem Looks.variableType (hv : given var.value) :
    Looks here given (variableType here var : Build σ FieldType) fun b type => ∃ i,
      b.values[var.value.index]? = some i ∧ i.origin = .variable ∧ i.type = type ∧
        ∀ owner, i.owner = some owner → b.Descends → b.Within owner here := by
  refine ⟨.variableType var, fun hw => .find (.info _) (blames_info _) fun i _ => ?_⟩
  split
  · exact .fail_bind _ fun _ _ h => by cases h
  · exact .bind (.find (.operandAsIs _) ((operandAsIs hv).blames hw) fun _ _ => .pure _)
      fun _ _ _ => .pure _

theorem leaf_change {var : Variable} {action : Action}
    (hdefines : (Operation.simple action operands none).defines = [])
    (hchanges : (Operation.simple action operands none).changes = [var.value.index])
    (hcaught : action ≠ .caught)
    (h : ∀ b, P b → Readings here b operands ∧ action.Fits b operands none ∧ ∃ i,
      b.values[var.value.index]? = some i ∧
        ∀ owner, i.owner = some owner → b.Descends → b.Within owner here) :
    Leaf here given P (perform here action operands : Build σ Unit) := by
  refine .perform fun _ => .add hcaught hdefines fun b hP => ?_
  obtain ⟨hreads, hfits, i, hi, hall⟩ := h b hP
  refine ⟨hreads, hfits, fun hb v hv => ?_⟩
  rw [hchanges] at hv
  cases List.mem_singleton.mp hv
  exact hb.visible hi fun owner howner => hall owner howner hb.sound.descends

theorem leaf_set (hvar : given var.value) (hv : given value) :
    Leaf here given P (set here var value : Build σ Unit) := by
  refine (Looks.variableType hvar).bind fun type => (Looks.operand hv type).bind fun o => ?_
  refine leaf_change rfl rfl (by simp) ?_
  rintro b ⟨⟨_, i, hi, horigin, _, hall⟩, hread, _⟩
  exact ⟨hread.readings, ⟨rfl, rfl, i, hi, horigin⟩, i, hi, hall⟩

theorem leaf_inc (hvar : given var.value) (delta : Int16) :
    Leaf here given P (inc here var delta : Build σ Unit) := by
  refine (Looks.variableType hvar).bind fun type => ?_
  by_cases htype : type ≠ .int
  · rw [if_pos htype]
    exact .fail_bind _ fun _ _ h => by cases h
  · rw [if_neg htype]
    refine leaf_change rfl rfl (by simp) ?_
    rintro b ⟨_, i, hi, horigin, rfl, hall⟩
    have hwidth : i.type.width = 1 := by
      rw [Decidable.not_not.mp htype]
      rfl
    exact ⟨readings_nil b, ⟨rfl, rfl, ⟨i, hi, horigin⟩, i, hi, hwidth⟩, i, hi, hall⟩

theorem Finds.numericPair_both (left right : Value) :
    Finds (Build.numericPair left right : Build σ NumKind) fun b kind =>
      ∀ v ∈ [left, right], ∃ i, b.values[v.index]? = some i ∧ i.type.numKind? = some kind := by
  unfold Build.numericPair
  refine (typeOf left).andThen fun lt => (typeOf right).andThen fun rt => ?_
  split
  · next l r hl hr =>
    split
    · next heq =>
      subst heq
      refine .pure _ ?_
      rintro b ⟨j, hj, rfl⟩ ⟨i, hi, rfl⟩ v hv
      rcases List.mem_cons.mp hv with rfl | hv
      · exact ⟨i, hi, hl⟩
      · cases List.mem_singleton.mp hv
        exact ⟨j, hj, hr⟩
    · exact .fail _
  · exact .fail _

theorem Finds.numericPair (left right : Value) :
    Finds (numericPair left right : Build σ NumKind) fun b kind =>
      ∃ i, b.values[left.index]? = some i ∧ i.type.numKind? = some kind :=
  (numericPair_both left right).weaken fun _ _ h => h left (.head _)

theorem Looks.numericPair (left right : Value) :
    Looks here given (numericPair left right : Build σ NumKind) fun b kind =>
      ∃ i, b.values[left.index]? = some i ∧ i.type.numKind? = some kind := by
  refine ⟨.numericPair left right, fun _ => .find (.typeOf left) (blames_typeOf left) fun _ _ =>
    .find (.typeOf right) (blames_typeOf right) fun _ _ => ?_⟩
  split
  · split
    · exact .pure _
    · exact .fail fun _ _ h => by cases h
  · exact .fail fun _ _ h => by cases h

section

variable (hleft : given left) (hright : given right)
include hleft hright

theorem leaf_binary
    {select : NumKind → Option Instruction} (hselect : ∀ kind i, select kind = some i →
      i.isPlain ∧ i.uses = 2 ∧ i.gives = some kind.type.width) :
    Leaf here given P (binary here select left right : Build σ Value) := by
  refine (Looks.numericPair left right).bind fun kind => ?_
  dsimp only
  cases hs : select kind with
  | none => exact .mismatch _ _
  | some insn =>
    obtain ⟨hi, huses, hgives⟩ := hselect kind insn hs
    refine (Looks.typeOf left).bind fun lt => (Looks.typeOf right).bind fun rt => ?_
    refine (Looks.operand hleft kind.type).bind fun l => (Looks.operand hright kind.type).bind
      fun r => ?_
    -- Two booleans are numbers of kind `int`, so the result is as wide as either.
    refine .yield rfl ?_
    rintro b ⟨⟨⟨⟨⟨_, i, hleft, hkind⟩, i', hleft', rfl⟩, _⟩, hl, _⟩, hr, _⟩
    refine ⟨.cons hl hr.readings, ?_⟩
    refine Action.computes_insn hi (by rw [huses]; rfl) (fun _ hnone => by cases hnone)
      fun v hv => ⟨_, hgives, ?_⟩
    cases hv
    rw [hleft] at hleft'
    cases hleft'
    by_cases hlogical : i.type = .boolean ∧ rt = .boolean
    · rw [if_pos hlogical]
      rw [hlogical.1] at hkind
      cases hkind
      exact Body.hasWidth_new _ _
    · rw [if_neg hlogical]
      exact Body.hasWidth_new _ _

theorem leaf_arith (op : ArithOp) :
    Leaf here given P (arith here op left right : Build σ Value) := by
  refine leaf_binary hleft hright fun kind i hi => ?_
  cases hi
  exact ⟨rfl, rfl, by rw [NumKind.width_type]; rfl⟩

theorem leaf_bitwise (op : BitOp) :
    Leaf here given P (bitwise here op left right : Build σ Value) := by
  refine leaf_binary hleft hright fun kind i hi => ?_
  obtain ⟨bits, hbits, rfl⟩ := Option.map_eq_some_iff.mp hi
  refine ⟨rfl, rfl, ?_⟩
  rw [NumKind.width_type, ← NumKind.words_bitKind hbits]
  rfl

end

theorem leaf_shift (hv : given value) (hamount : given amount) (direction : Shift) :
    Leaf here given P (shift here direction value amount : Build σ Value) := by
  refine (Looks.typeOf value).bind fun found => ?_
  split
  · exact .mismatch _ _
  · next kind _ =>
    refine (Looks.operand hv kind.type).bind fun v => (Looks.operand hamount .int).bind fun a => ?_
    refine .yieldInsn rfl rfl (by rw [BitKind.width_type]; rfl) ?_
    rintro b ⟨⟨_, hv, _⟩, ha, _⟩
    exact .cons hv ha.readings

theorem leaf_neg (hv : given value) : Leaf here given P (neg here value : Build σ Value) := by
  refine (Looks.typeOf value).bind fun found => ?_
  split
  · exact .mismatch _ _
  · next kind _ =>
    refine (Looks.operand hv kind.type).bind fun v => ?_
    refine .yieldInsn rfl rfl (by rw [NumKind.width_type]; rfl) ?_
    rintro b ⟨_, hv, _⟩
    exact hv.readings

theorem leaf_condition {lead : Option Instruction} {test : Test}
    (hquiet : Instruction.Quiet lead.toList)
    (hact : ∀ cells : List (Cell (Option Nat)), cells.length = operands.length → ∃ cells',
      actAll none lead.toList cells = some cells' ∧ cells'.length = test.uses)
    (h : ∀ b, P b → Readings here b operands) :
    Leaf here given P (condition here lead test operands : Build σ Value) :=
  .yield rfl fun b hP => ⟨h b hP, hquiet, hact, _, rfl, Body.hasWidth_new b _⟩

theorem condition_acts {n : Nat} (hn : operands.length = n) (cells : List (Cell (Option Nat)))
    (hcells : cells.length = operands.length) :
    ∃ cells', actAll none (none : Option Instruction).toList cells = some cells' ∧
      cells'.length = n := ⟨cells, rfl, hcells.trans hn⟩

theorem quiet_numberTest (ord : OrdTest) (kind : NumKind) :
    Instruction.Quiet (numberTest ord kind).1.toList := by
  cases kind <;> simp [numberTest, Instruction.Quiet, localAccess?]

theorem numberTest_acts (ord : OrdTest) (kind : NumKind) (l r : Operand)
    (cells : List (Cell (Option Nat))) (hcells : cells.length = [l, r].length) :
    ∃ cells', actAll none (numberTest ord kind).1.toList cells = some cells' ∧
      cells'.length = (numberTest ord kind).2.uses := by
  have hlead : ∀ i : Instruction, i.shuffles = false → i.uses = 2 → i.gives = some 1 →
      ∃ cells', actAll none [i] cells = some cells' ∧ cells'.length = 1 := by
    intro i hi huses hgives
    rw [actAll_singleton, act_exact hi none (hcells.trans huses.symm), hgives]
    exact ⟨_, rfl, rfl⟩
  cases kind with
  | int => exact ⟨cells, rfl, hcells⟩
  | long => exact hlead _ rfl rfl rfl
  | float => exact hlead _ rfl rfl rfl
  | double => exact hlead _ rfl rfl rfl

theorem leaf_compare (hleft : given left) (hright : given right) (ord : OrdTest) :
    Leaf here given P (compare here ord left right : Build σ Value) := by
  refine (Looks.typeOf left).bind fun lt => (Looks.typeOf right).bind fun rt => ?_
  split
  · split
    · exact .mismatch _ _
    · refine (Looks.operandAsIs hleft).bind fun l => (Looks.operandAsIs hright).bind fun r => ?_
      refine leaf_condition (by simp [Instruction.Quiet]) (condition_acts rfl) ?_
      rintro b ⟨⟨_, i, _, hl, _⟩, j, _, hr, _⟩
      exact .cons hl hr.readings
  · refine (Looks.numericPair left right).bind fun kind => ?_
    refine (Looks.operand hleft kind.type).bind fun l => (Looks.operand hright kind.type).bind
      fun r => ?_
    refine leaf_condition (quiet_numberTest ord kind) (numberTest_acts ord kind l r) ?_
    rintro b ⟨⟨_, hl, _⟩, hr, _⟩
    exact .cons hl hr.readings

theorem leaf_nullCheck (hv : given value) (same : EqTest) :
    Leaf here given P (nullCheck here same value : Build σ Value) := by
  refine (Looks.typeOf value).bind fun found => ?_
  split
  · exact .fail_bind _ fun _ _ h => by cases h
  · refine (Looks.operandAsIs hv).bind fun o => ?_
    refine leaf_condition (by simp [Instruction.Quiet]) (condition_acts rfl) ?_
    rintro b ⟨_, i, _, ho, _⟩
    exact ho.readings

theorem leaf_not (hv : given value) : Leaf here given P (not here value : Build σ Value) := by
  refine (Looks.operand hv .boolean).bind fun o => ?_
  refine leaf_condition (by simp [Instruction.Quiet]) (condition_acts rfl) ?_
  rintro b ⟨_, ho, _⟩
  exact ho.readings

theorem leaf_copyAs (hv : given value)
    (h : ∀ b, P b → ∀ i, b.values[value.index]? = some i → i.type.isReference ∨ type.isReference) :
    Leaf here given P (copyAs here value type : Build σ Value) := by
  refine (Looks.operand hv type).bind fun o => ?_
  refine .yield rfl ?_
  rintro b ⟨hP, hread, hv⟩
  obtain ⟨i, hi, _⟩ := hread.value
  refine ⟨hread.readings, hread.copies hi (fun cell hw => ?_) _ _⟩
  obtain ⟨cell', hact, hwords⟩ := actAll_coercion none [] i.type type cell
  refine ⟨cell'.tag, ?_⟩
  rw [hact, ← hwords hw (.inr (h b hP i (hv ▸ hi)))]

theorem actAll_coercion_number {kind : NumKind} (h : type.numKind? = some kind)
    (cell : Cell (Option Nat)) (hw : cell.words = type.width) : ∃ tag,
      actAll none (coercion type kind.type) [cell] = some [⟨tag, kind.type.width⟩] := by
  obtain ⟨cell', hact, hwords⟩ := actAll_coercion none [] type kind.type cell
  cases type with
  | ref r =>
    refine ⟨cell'.tag, ?_⟩
    rw [hact, ← hwords hw (.inr (.inl rfl))]
  | prim p =>
    -- A primitive is not converted, but it is of the right width already.
    have hkind : p.numKind = kind := by
      cases p <;> cases h <;> rfl
    have hcoercion : coercion (.prim p) kind.type = [] := by
      subst hkind
      cases p <;> rfl
    refine ⟨cell.tag, ?_⟩
    rw [hcoercion, ← hkind, Primitive.width_numKind]
    show some [cell] = _
    rw [← show cell.words = p.width from hw]

section

variable (hv : given value)
include hv

theorem leaf_convert (target : Primitive) :
    Leaf here given P (convert here value target : Build σ Value) := by
  refine (Looks.typeOf value).bind fun found => ?_
  split
  · exact .mismatch _ _
  · next source hsource =>
    split
    · exact .fail fun _ _ h => by cases h
    · next is his =>
      refine (Looks.operand hv source.type).bind fun o => ?_
      refine .yield rfl ?_
      rintro b ⟨⟨_, i, hi, rfl⟩, hread, hv⟩
      rw [← hv] at hi
      refine ⟨hread.readings, quiet_conversion? his, ?_⟩
      rcases conversion?_acts his with ⟨rfl, hwidth⟩ | hact
      · refine .inl ⟨rfl, hread.copies hi (fun cell hw => ?_) _ _⟩
        rw [show (FieldType.prim target).width = source.type.width from hwidth.symm]
        exact actAll_coercion_number hsource cell hw
      · refine .inr ⟨some target.width, fun cells hcells => ?_, (fun _ hnone => by cases hnone),
          fun v hv' => ⟨_, rfl, ?_⟩⟩
        · obtain ⟨cell, rfl⟩ := List.length_eq_one_iff.mp hcells
          exact hact cell
        · cases hv'
          exact Body.hasWidth_new _ _

theorem leaf_box : Leaf here given P (box here value : Build σ Value) := by
  refine (Looks.typeOf value).bind fun found => ?_
  split
  · exact leaf_copyAs hv fun _ _ _ _ => .inr rfl
  · exact .mismatch _ _

theorem leaf_unbox : Leaf here given P (unbox here value : Build σ Value) := by
  refine (Looks.typeOf value).bind fun found => ?_
  split
  · exact .mismatch _ _
  · next p hp =>
    refine leaf_copyAs hv ?_
    rintro b ⟨_, i, hi, rfl⟩ i' hi'
    rw [hi] at hi'
    cases hi'
    refine .inl ?_
    cases ht : i.type with
    | prim q =>
      rw [ht] at hp
      cases hp
    | ref r => rfl

theorem leaf_cast (type : FieldType) :
    Leaf here given P (cast here value type : Build σ Value) := by
  refine (Looks.typeOf value).bind fun found => ?_
  split
  · exact leaf_convert hv _
  · next hne =>
    refine leaf_copyAs hv ?_
    rintro b ⟨_, i, hi, rfl⟩ i' hi'
    rw [hi] at hi'
    cases hi'
    cases ht : i.type with
    | ref r => exact .inl rfl
    | prim p =>
      cases type with
      | ref r => exact .inr rfl
      | prim q => exact absurd rfl (hne p q ht)

theorem leaf_instanceOf (type : RefType) :
    Leaf here given P (instanceOf here value type : Build σ Value) := by
  refine (Looks.operandAsIs hv).bind fun o => ?_
  refine .yieldInsn rfl rfl rfl ?_
  rintro b ⟨_, i, _, ho, _⟩
  exact ho.readings

theorem leaf_newArray (element : FieldType) :
    Leaf here given P (newArray here element value : Build σ Value) := by
  refine (Looks.operand hv .int).bind fun o => ?_
  cases element <;>
    exact .yieldInsn rfl rfl rfl fun b hP => hP.2.1.readings

end

theorem Finds.elementType (array : Value) :
    Finds (elementType array : Build σ FieldType) fun b element =>
      ∃ i, b.values[array.index]? = some i ∧ i.type.element? = some element := by
  refine (typeOf array).andThen fun found => ?_
  split
  · next helement =>
    refine .pure _ ?_
    rintro b ⟨i, hi, rfl⟩
    exact ⟨i, hi, helement⟩
  · exact .fail _

theorem Looks.elementType (array : Value) :
    Looks here given (elementType array : Build σ FieldType) fun _ _ => True := by
  refine ⟨(Finds.elementType array).weaken fun _ _ _ => trivial, fun _ => .find (.typeOf array)
    (blames_typeOf array) fun _ _ => ?_⟩
  split
  · exact .pure _
  · exact .mismatch _ _

theorem leaf_arrayLength (harray : given array) :
    Leaf here given P (arrayLength here array : Build σ Value) := by
  refine ((Looks.elementType array).andThen (S := fun _ _ => True) fun _ =>
    .pure _ fun _ _ => trivial).bind fun _ => ?_
  refine (Looks.operandAsIs harray).bind fun o => ?_
  refine .yieldInsn rfl rfl rfl ?_
  rintro b ⟨_, i, _, ho, _⟩
  exact ho.readings

theorem leaf_arrayLoad (harray : given array) (hindex : given index) :
    Leaf here given P (arrayLoad here array index : Build σ Value) := by
  refine (Looks.elementType array).bind fun element => ?_
  refine (Looks.operandAsIs harray).bind fun a => (Looks.operand hindex .int).bind fun i => ?_
  refine .yieldInsn rfl rfl (by rw [← FieldType.width_element]; rfl) ?_
  rintro b ⟨⟨_, _, _, ha, _⟩, hi, _⟩
  exact .cons ha hi.readings

theorem leaf_arrayStore (harray : given array) (hindex : given index) (hv : given value) :
    Leaf here given P (arrayStore here array index value : Build σ Unit) := by
  refine (Looks.elementType array).bind fun element => ?_
  refine (Looks.operandAsIs harray).bind fun a => (Looks.operand hindex .int).bind fun i => ?_
  refine (Looks.operand hv element).bind fun v => ?_
  refine .performInsn rfl rfl rfl ?_
  rintro b ⟨⟨⟨_, _, _, ha, _⟩, hi, _⟩, hv, _⟩
  exact .cons ha (.cons hi hv.readings)

end Build
end ClassAssembler
