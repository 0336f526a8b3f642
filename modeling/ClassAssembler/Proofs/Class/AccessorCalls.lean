import ClassAssembler.Proofs.Class.Tables

/-!
# Calls of accessors

A switch on an enum asks for its table by a static call, before the accessor of the table is
declared.
-/

namespace ClassAssembler

open List OrdinalTable ClassDraft

theorem Body.not_calls_superCall (b : Body) (m : MethodRef) : ¬ b.superCall.Calls m := by
  rintro (⟨o, ho, hm⟩ | ⟨act, os, result, heq, hm⟩ | ⟨S, type, heq, _⟩)
  · cases mem_singleton.mp ho
    cases hm
  · cases heq
    cases mem_singleton.mp hm
  · cases heq

/-- Every static call in the code of a body is made for one of its operations. -/
theorem Body.Built.calls {b : Body} (hb : b.Built) {code : Code} {notice : Notice}
    (hcode : b.toCode = .ok (code, notice)) {m : MethodRef}
    (hm : .insn (.invoke .static m) ∈ code.entries) : ∃ s, ∃ op ∈ b.operations s, op.Calls m := by
  obtain ⟨b', hinit⟩ := exists_completeInit hcode
  have hsound := (hb.finished.completeInit hinit).sound
  obtain ⟨layout, _, hentries, _⟩ := toCode_kept hsound hinit hcode
  obtain ⟨i, _, hi⟩ := mem_filterMap.mp (hentries ▸ hm)
  rcases Recorder.point_of_kept hi with ⟨p, hp, hentry⟩ | ⟨_, heq⟩
  · have htells := (tells_plot hsound b'.nextLabel).1 p (mem_of_getElem? hp)
    cases p with
    | insn i role site =>
      cases hentry
      obtain ⟨s, op, hop, hcalls⟩ := htells.1 m rfl
      rcases Body.mem_of_completeInit hb.finished.sound hinit hop with hop | rfl
      · exact ⟨s, op, hop, hcalls⟩
      · exact absurd hcalls (b.not_calls_superCall m)
    | _ => cases hentry
  · cases heq

namespace OrdinalTable

open Build

variable {σ : Type} {here : Nat} (table : OrdinalTable)

theorem stepwise_enterConstant (fresh : Value) (constant : MemberName) (position : Nat) :
    Stepwise false (table.enterConstant fresh constant position here : Build σ Unit) := by
  refine .tryCatch ((Stepwise.tryBody fun c => ?_).bind fun _ =>
    .catchClause _ fun _ _ => .pure ())
  exact (Stepwise.yield _ _ _).bind fun _ => (Stepwise.operand _ _).bind fun _ =>
    (Stepwise.yield _ _ _).bind fun _ => (Stepwise.addValue _).bind fun _ =>
    .of_leaf (leaf_arrayStore (anywhere _) (anywhere _) (anywhere _))

theorem stepwise_accessorBody : Stepwise false (table.accessorBody here : Build σ Unit) :=
  (Stepwise.yield _ _ _).bind fun _ =>
    (Stepwise.of_leaf (leaf_nullCheck (anywhere _) _)).bind fun _ =>
    (Stepwise.follows.ifThen _ fun _ => Stepwise.follows.returnValue .exitEdge _).bind fun _ =>
    (Stepwise.yield _ _ _).bind fun _ =>
    (Stepwise.of_leaf (leaf_arrayLength (anywhere _))).bind fun _ =>
    (Stepwise.of_leaf (leaf_newArray (anywhere _) _)).bind fun _ =>
    (Stepwise.forM (fun _ => table.stepwise_enterConstant _ _ _) _).bind fun _ =>
    (Stepwise.of_leaf (leaf_putStatic (anywhere _) _)).bind fun _ =>
    Stepwise.follows.returnValue .exitEdge _

theorem AccessorLeft.noSwitch {header : ClassHeader} {settings : Settings} {code : Code}
    (h : table.AccessorLeft header settings code) :
    ∃ (b : Body) (notice : Notice), b.Built ∧ b.toCode = .ok (code, notice) ∧
      b.method.name = table.accessor.name ∧ b.method.type = table.accessor.type ∧
      ∀ s S, .switch S ∉ b.operations s := by
  obtain ⟨draft, before, behind, _, _, hleft, hseal⟩ := h
  obtain ⟨body, work, notice, hstart, hblock, hb, hcode, _⟩ :=
    seal?_built hseal hleft table.writes_accessorBody
  have hbegins : Body.Begins before body := ⟨_, _, _, _, _, hstart⟩
  have hsteps : body.Steps false work.body := by
    rw [← after_of_ok hblock]
    exact table.stepwise_accessorBody ⟨body, ()⟩
  have hmethod := hsteps.sameHead.method.trans (start_head hstart).2.1
  refine ⟨work.body, notice, hb, hcode, by rw [hmethod]; rfl, by rw [hmethod]; rfl,
    hsteps.noSwitch fun s S hS => ?_⟩
  rw [hbegins.bare.2.2.1] at hS
  cases hS

end OrdinalTable

variable {draft : ClassDraft} {settings : Settings} {listed : ClassListing}

def ClassListing.Declares (listed : ClassListing) (draft : ClassDraft) (m : MethodRef) : Prop :=
  ∃ table ∈ draft.tables.toList, m = draft.methodRef (table.accessorSpec draft.settings) ∧
    ∃ method ∈ listed.methods.toList, method.header.name = m.name ∧ method.header.type = m.type ∧
      method.header.access.contains .staticFlag

/-- The static calls in a method are those that the operations of the body built for it hold, and
calls of the accessors for its switches, which are declared. -/
def MethodListing.CallsDeclared (method : MethodListing) (draft : ClassDraft)
    (listed : ClassListing) : Prop :=
  method.entries = [] ∨ ∃ (b : Body) (code : Code) (notice : Notice), b.Built ∧
    b.toCode = .ok (code, notice) ∧ method.entries = code.entries ∧
    b.method.name = method.header.name ∧ b.method.type = method.header.type ∧
    (∀ m, .insn (.invoke .static m) ∈ code.entries → ∃ s, ∃ op ∈ b.operations s, op.Calls m) ∧
    ∀ s S type accessor, .switch S ∈ b.operations s → S.kind = .enum type accessor →
      listed.Declares draft accessor

theorem ClassDraft.Asks.accessor (h : draft.Asks) (hclass : draft.isInterface = false) {b : Body}
    (hb : b.Built) (htables : Extend b.tables draft.tables) {s : Nat} {S : SwitchStatement}
    {type : ClassName} {accessor : MethodRef} (hS : .switch S ∈ b.operations s)
    (hkind : S.kind = .enum type accessor) :
    ∃ table ∈ draft.tables.toList,
      accessor = draft.methodRef (table.accessorSpec draft.settings) := by
  obtain ⟨⟨_, hkeyed⟩, _⟩ := hb.keyedSwitches s S hS
  obtain ⟨t, row, _, hrow, _, rfl⟩ := hkeyed.row type accessor hkind
  obtain ⟨row', hrow', hgrows⟩ := htables t row hrow
  have hmem := Array.mem_toList_iff.mpr (Array.mem_of_getElem? hrow')
  obtain ⟨n, _, _, hnamed⟩ := h.asked.named row' hmem
  refine ⟨row', hmem, ?_⟩
  rw [← hgrows.accessor]
  unfold methodRef accessorSpec MethodSpec.plain
  rw [hclass, hnamed.accessor]

section listed

variable {header : ClassHeader} {settings : Settings} {made : Members}
  {accessors : List (OrdinalTable × Code)}

theorem Members.Listed.declares (h : made.Listed header settings accessors listed)
    (hstatic : settings.tableMethodAccess.contains .staticFlag)
    {table : OrdinalTable} (htable : table ∈ made.tables.toList) :
    ∃ method ∈ listed.methods.toList, method.header.name = table.accessor.name ∧
      method.header.type = table.accessor.type ∧ method.header.access.contains .staticFlag := by
  obtain ⟨x, hx, rfl⟩ := mem_map.mp (h.tables ▸ htable)
  refine ⟨MethodDraft.listing ⟨(x.1.accessorSpec settings).header, some x.2⟩, ?_, rfl, rfl, hstatic⟩
  rw [h.methods]
  exact mem_map_of_mem (mem_append_right _ (mem_map_of_mem hx))

/-- A method of the class, or an accessor that is added to it, calls accessors that are declared. -/
theorem Members.Listed.callsDeclared (h : made.Listed header settings accessors listed)
    (hstatic : settings.tableMethodAccess.contains .staticFlag)
    (hcodes : ∀ x ∈ accessors, x.1.AccessorLeft header settings x.2)
    (hagree : Agree draft made) (hbroken : draft.broken = false) (hasks : draft.Asks)
    (hclass : draft.isInterface = false)
    {method : MethodListing} (hmethod : method ∈ listed.methods.toList) :
    method.CallsDeclared draft listed := by
  rw [h.methods] at hmethod
  obtain ⟨⟨header', code?⟩, hmade, rfl⟩ := mem_map.mp hmethod
  cases code? with
  | none => exact .inl rfl
  | some code =>
    rcases mem_append.mp hmade with hmade | hmade
    · obtain ⟨b, notice, hb, hcode, hname, htype, htables⟩ :=
        hasks.bodies hbroken _ (hagree.methods ▸ hmade) code rfl
      refine .inr ⟨b, code, notice, hb, hcode, rfl, hname, htype, fun m hm => hb.calls hcode hm, ?_⟩
      intro s S type accessor hS hkind
      obtain ⟨table, htable, rfl⟩ := hasks.accessor hclass hb htables hS hkind
      exact ⟨table, htable, rfl, h.declares hstatic (hagree.tables ▸ htable)⟩
    · obtain ⟨x, hx, heq⟩ := mem_map.mp hmade
      cases heq
      obtain ⟨b, notice, hb, hcode, hname, htype, hnone⟩ := (hcodes x hx).noSwitch
      exact .inr ⟨b, x.2, notice, hb, hcode, rfl, hname, htype, fun m hm => hb.calls hcode hm,
        fun s S type accessor hS => absurd hS (hnone s S)⟩

end listed

/-- In a class whose table methods have the flags they have by default, every call of an accessor
is one of a static method that is declared when the class is closed. -/
theorem accessor_calls_declared (serial : Nat) (header : ClassHeader) (settings : Settings)
    (calls : List MemberCall) (classes : Array ClassListing)
    (hclass : header.access.contains .interfaceFlag = false)
    (hstatic : settings.tableMethodAccess = ({} : Settings).tableMethodAccess) :
    let draft := (MemberCall.runAll serial header settings calls).1
    (∃ fault after, close (draft, ⟨classes, none, none⟩) = .error fault after) ∨
      ∃ after listed, close (draft, ⟨classes, none, none⟩) =
          .ok () (after, ⟨classes.push listed, none, none⟩) ∧ listed.header = header ∧
        ∀ method ∈ listed.methods.toList, method.CallsDeclared draft listed := by
  intro draft
  have hasks : draft.Asks := asks_runAll serial header settings calls
  have hfollow := Members.follow_runAll serial header settings calls
  cases hcomplete : complete draft with
  | error fault after => exact .inl ⟨fault, _, close_of_error hcomplete⟩
  | ok _ after =>
    have hbroken : draft.broken = false := by
      cases hbroken : draft.broken with
      | false => rfl
      | true =>
        rw [complete_of_broken hbroken] at hcomplete
        cases hcomplete
    have hok := hfollow.broken.symm.trans hbroken
    obtain ⟨accessors, hfst, hcodes, hholds⟩ := hfollow.complete hok hcomplete
    obtain ⟨_, hafter⟩ := hholds.agree
    obtain ⟨after', hclose⟩ := close_of_ok hcomplete
      fun method hm => hafter.inOrder method (hafter.methods ▸ hm)
    have hlisted := hholds.listed hfollow hok hfst hcodes
    refine .inr ⟨after', _, hclose, hlisted.header, fun method hmethod => ?_⟩
    exact hlisted.callsDeclared (by rw [hstatic]; decide) hcodes (hfollow.agree hok)
      hbroken hasks (by rw [isInterface, hfollow.header, hclass]) hmethod

/-- A class with switches on two enums. -/
theorem accessor_calls_declared_two :
    let draft := twoSwitches .publicFlag ⟨"demo/Color"⟩ ⟨"demo/Tint"⟩
    draft.broken = false ∧ draft.tables.size = 2 ∧
      ((∃ fault after, close (draft, ⟨#[], none, none⟩) = .error fault after) ∨
        ∃ after listed, close (draft, ⟨#[], none, none⟩) =
            .ok () (after, ⟨#[listed], none, none⟩) ∧
          listed.header = ⟨⟨"demo/A"⟩, .object, [], .publicFlag⟩ ∧
          ∀ method ∈ listed.methods.toList, method.CallsDeclared draft listed) := by
  intro draft
  obtain ⟨_, _, _, htables, hbroken, _⟩ :=
    twoSwitches_eq (by decide +kernel) Body.checked_apart
  refine ⟨hbroken, ?_, accessor_calls_declared 0 _ {} _ #[] (by decide) rfl⟩
  rw [show draft.tables = _ from htables]
  decide +kernel

def Operation.accessor? : Operation → Option MethodRef
  | .switch S => match S.kind with
    | .enum _ accessor => some accessor
    | _ => none
  | _ => none

/-- In an interface, a switch calls the accessor as if it were a method of a class. -/
theorem accessor_call_of_interface :
    let draft := twoSwitches .interfaceFlag ⟨"demo/Color"⟩ ⟨"demo/Tint"⟩
    draft.isInterface = true ∧ draft.broken = false ∧
      ∃ (b : Body) (code : Code) (notice : Notice), b.Built ∧ b.toCode = .ok (code, notice) ∧
        draft.methods.toList.map MethodDraft.code = [some code] ∧
        ∃ S type accessor, .switch S ∈ b.operations 0 ∧ S.kind = .enum type accessor ∧
          ∀ spec, accessor ≠ draft.methodRef spec := by
  intro draft
  have hchecked : (Body.twoSwitches .interfaceFlag ⟨"demo/Color"⟩ ⟨"demo/Tint"⟩).Checked := by
    constructor <;> decide +kernel
  obtain ⟨code, notice, hcode, _, hbroken, hmethods, hheader⟩ :=
    twoSwitches_eq (by decide +kernel) hchecked
  have hinterface : draft.isInterface = true := by
    unfold isInterface
    rw [show draft.header = _ from hheader]
    decide
  refine ⟨hinterface, hbroken, _, code, notice, Body.built_twoSwitches .., hcode, hmethods, ?_⟩
  have hops : ((Body.twoSwitches .interfaceFlag ⟨"demo/Color"⟩ ⟨"demo/Tint"⟩).operations 0).any
      (fun op => op.accessor?.any fun m => !m.ofInterface) = true := by decide +kernel
  obtain ⟨op, hop, hasks⟩ := any_eq_true.mp hops
  cases op with
  | switch S =>
    cases hkind : S.kind with
    | enum type accessor =>
      refine ⟨S, type, accessor, hop, hkind, fun spec heq => ?_⟩
      rw [Operation.accessor?, hkind] at hasks
      rw [heq, Option.any_some, methodRef, hinterface] at hasks
      cases hasks
    | _ =>
      rw [Operation.accessor?, hkind] at hasks
      cases hasks
  | _ => cases hasks

end ClassAssembler
