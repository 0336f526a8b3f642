import ClassAssembler.Proofs.Build.Simple

/-!
# Calls of methods, and exits

Method calls, object creation and field access keep a body ready, and so do the ways out of a
scope: jumps, returns and exceptions.
-/

namespace ClassAssembler

open List

namespace Build

variable {σ α β : Type} {base : Body} {here : Nat} {given : Value → Prop}
  {P : Body → Prop} {b : Body} {value object : Value} {args : List Value}

namespace Keeps

theorem change {f : Body → α × Body}
    (h : ∀ b, b.Ready here → P b → (f b).2.Ready here ∧ b.Grows (f b).2 here) :
    Keeps base here P (change f : Build σ α) :=
  .of_step fun w hw hP => h w.body hw hP

theorem alter {f : Body → Body}
    (h : ∀ b, b.Ready here → P b → (f b).Ready here ∧ b.Grows (f b) here) :
    Keeps base here P (alter f : Build σ Unit) :=
  .of_step fun w hw hP => h w.body hw hP

end Keeps

namespace Finds

theorem mapM {f : α → Build σ β} {R : α → Body → β → Prop} (hf : ∀ a, Finds (f a) (R a))
    (as : List α) : Finds (as.mapM f) fun b bs =>
      bs.length = as.length ∧ ∀ y ∈ bs, ∃ a ∈ as, R a b y := by
  induction as with
  | nil =>
    rw [mapM_nil]
    exact .pure _ fun b => ⟨rfl, fun y hy => by cases hy⟩
  | cons a as ih =>
    rw [mapM_cons]
    refine (hf a).andThen fun y => ih.andThen fun ys => .pure _ ?_
    rintro b ⟨hlen, hall⟩ hy
    refine ⟨by rw [length_cons, length_cons, hlen], fun z hz => ?_⟩
    rcases mem_cons.mp hz with rfl | hz
    · exact ⟨a, .head .., hy⟩
    · obtain ⟨x, hx, hR⟩ := hall z hz
      exact ⟨x, .tail _ hx, hR⟩

theorem arguments (method : MethodRef) (args : List Value) :
    Finds (arguments here method args : Build σ (List Operand)) fun b os =>
      Readings here b os ∧ os.length = method.type.params.length := by
  unfold Build.arguments
  by_cases hlen : method.type.params.length ≠ args.length
  · rw [if_pos hlen]
    exact .fail_bind _ _
  · rw [if_neg hlen]
    refine (mapM (fun x : FieldType × Value => operand x.2 x.1) _).weaken ?_
    rintro b os ⟨hos, hall⟩
    refine ⟨fun o ho => ?_, ?_⟩
    · obtain ⟨x, _, hread, _⟩ := hall o ho
      exact ⟨x.1, hread⟩
    · rw [hos, length_zip]
      have := Decidable.not_not.mp hlen
      omega

end Finds

theorem Looks.arguments (method : MethodRef) (hargs : ∀ arg ∈ args, given arg) :
    Looks here given (arguments here method args : Build σ (List Operand)) fun b os =>
      Readings here b os ∧ os.length = method.type.params.length := by
  refine ⟨.arguments method args, fun {F w} hw => ?_⟩
  have hreads : ∀ reads : List (FieldType × Value), (∀ read ∈ reads, given read.2) →
      Blames w F (reads.mapM fun read => Build.operand here read.2 read.1) := by
    intro reads h
    induction reads with
    | nil =>
      rw [mapM_nil]
      exact .pure _
    | cons read rest ih =>
      rw [mapM_cons]
      refine .find (.operand read.2 read.1) ((operand (h read (.head ..)) _).blames hw)
        fun _ _ => .find (.mapM (fun x : FieldType × Value => .operand x.2 x.1) rest) (ih ?_)
          fun _ _ => .pure _
      exact fun read hread => h read (.tail _ hread)
  unfold Build.arguments
  dsimp only
  split
  · exact .fail_bind _ fun _ _ h => by cases h
  · exact hreads _ fun read hread => hargs read.2 (of_mem_zip hread).2

def callOn (here : Nat) (kind : InvokeKind) (method : MethodRef) (args : List Value)
    (ros : List Operand) : Build σ (Option Value) := do
  let operands := ros ++ (← arguments here method args)
  let action : Action := .insns [.invoke kind method]
  match method.type.returns with
  | none =>
      perform here action operands
      return none
  | some type => return some (← yield here action operands type)

theorem leaf_callOn (kind : InvokeKind) (method : MethodRef) (ros : List Operand)
    (hargs : ∀ arg ∈ args, given arg) :
    Leaf here given (fun b => P b ∧ Readings here b ros ∧ ros.length = kind.receivers)
      (callOn here kind method args ros : Build σ (Option Value)) := by
  refine (Looks.arguments method hargs).bind fun aos => ?_
  have hlen : ros.length = kind.receivers → aos.length = method.type.params.length →
      (ros ++ aos).length = (Instruction.invoke kind method).uses := by
    intro hr ha
    rw [length_append, hr, ha]
    rfl
  have hgives : (Instruction.invoke kind method).gives =
    method.type.returns.map FieldType.width := rfl
  dsimp only
  cases hret : method.type.returns with
  | none =>
    rw [hret] at hgives
    refine (Leaf.perform fun _ => .perform rfl ?_).map _
    rintro b ⟨⟨_, hr, hrlen⟩, ha, halen⟩
    exact ⟨hr.append ha, Action.computes_insn rfl (hlen hrlen halen) (fun _ _ => hgives)
      fun v hv => by cases hv⟩
  | some type =>
    rw [hret] at hgives
    refine (Leaf.yield rfl ?_).map _
    rintro b ⟨⟨_, hr, hrlen⟩, ha, halen⟩
    refine ⟨hr.append ha, Action.computes_insn rfl (hlen hrlen halen)
      (fun _ hnone => by cases hnone) fun v hv => ⟨_, hgives, ?_⟩⟩
    cases hv
    exact Body.hasWidth_new _ _

theorem leaf_invoke (kind : InvokeKind) (method : MethodRef) {object : Option Value}
    (hobject : object.toList.length = kind.receivers) (hgiven : ∀ v ∈ object, given v)
    (hargs : ∀ arg ∈ args, given arg) :
    Leaf here given P (invoke here kind method object args : Build σ (Option Value)) := by
  cases object with
  | none =>
    exact (Looks.pure (R := fun b os => Readings here b os ∧ os.length = kind.receivers) []
      fun b => ⟨readings_nil b, hobject⟩).bind fun ros => leaf_callOn kind method ros hargs
  | some value =>
    refine (Looks.operand (hgiven value rfl) (.object method.owner)).bind fun o => ?_
    refine Leaf.weaken (Q := fun b => P b ∧ Readings here b [o] ∧ [o].length = kind.receivers)
      (leaf_callOn kind method [o] hargs) ?_
    rintro b ⟨hP, ho, _⟩
    exact ⟨hP, ho.readings, hobject⟩

theorem leaf_invokeInterface (method : MethodRef) (hobject : given object)
    (hargs : ∀ arg ∈ args, given arg) :
    Leaf here given P (invokeInterface here method object args : Build σ (Option Value)) := by
  unfold invokeInterface
  dsimp only
  split
  · exact leaf_invoke _ _ rfl (fun _ hv => Option.some.inj hv ▸ hobject) hargs
  · exact .fail fun _ _ h => by cases h

theorem leaf_newInstance (constructor : MethodRef) (hargs : ∀ arg ∈ args, given arg) :
    Leaf here given P (newInstance here constructor args : Build σ Value) := by
  unfold newInstance
  split
  · exact .fail_bind _ fun _ _ h => by cases h
  · next hinit =>
    refine (Looks.arguments constructor hargs).bind fun os => ?_
    refine .yield rfl fun b h => ⟨h.2.1, by simpa using hinit, h.2.2, _, rfl, ?_⟩
    exact Body.hasWidth_new b _

theorem keeps_noteInit : Keeps base here P (noteInit : Build σ Unit) := by
  unfold noteInit
  refine (Keeps.change fun b hb _ => ?_).bind fun early => ?_
  · have htables := hb.collects.accessors
    split
    · exact ⟨hb, .refl b _⟩
    · split <;> exact hb.congr _ rfl rfl rfl rfl rfl rfl rfl rfl htables
  · split
    · exact .fail _
    · exact .pure _

section

variable (constructor : MethodRef) (args : List Value)

theorem keeps_invokeConstructor :
    Keeps base here P (invokeConstructor here constructor args : Build σ Unit) := by
  unfold invokeConstructor
  refine (Finds.see _).bind fun init => (Finds.see _).bind fun object => ?_
  split
  · refine (Finds.see _).bind fun owner => (Finds.see _).bind fun superClass => ?_
    split
    · exact .fail_bind _ _
    · next hinit =>
      have hinit : constructor.isConstructor = true := by
        rw [Bool.or_eq_true, not_or] at hinit
        simpa using hinit.1
      refine keeps_noteInit.bind fun _ => ?_
      refine (Finds.operandAsIs _).bind fun o => (Finds.arguments constructor args).bind
        fun os => ?_
      refine .perform rfl ?_
      rintro b ⟨⟨_, i, _, ho, _⟩, hos, hlen⟩
      refine ⟨.cons ho hos, Action.computes_insn rfl ?_ (fun hvoid _ => ?_) fun v hv => by cases hv⟩
      · rw [length_cons, hlen, Nat.add_comm]
        rfl
      · show constructor.type.returns.map FieldType.width = none
        rw [hvoid _ _ (.head _) hinit]
        rfl
  · exact .fail _

theorem calm_invokeConstructor :
    Calm here (invokeConstructor here constructor args : Build σ Unit) := by
  refine (Calm.see _).bind fun init => (Calm.see _).bind fun object => ?_
  split
  · refine (Calm.see _).bind fun owner => (Calm.see _).bind fun superClass => ?_
    split
    · exact .fail_bind _ _
    · exact Calm.noteInit.bind fun _ => (Calm.operandAsIs _).bind fun _ =>
        (Finds.arguments constructor args).calm.bind fun _ => .push _
  · exact .fail _

theorem stepwise_invokeConstructor :
    Stepwise true (invokeConstructor here constructor args : Build σ Unit) := by
  refine (Stepwise.see _).bind fun init => (Stepwise.see _).bind fun object => ?_
  split
  · refine (Stepwise.see _).bind fun owner => (Stepwise.see _).bind fun superClass => ?_
    split
    · exact .fail_bind _ _
    · exact Stepwise.noteInit.bind fun _ => (Stepwise.operandAsIs _).bind fun _ =>
        (Stepwise.find (.arguments constructor args)).bind fun _ => .perform _ _
  · exact .fail _

end

theorem keeps_noteField (field : FieldRef) (object : Value) :
    Keeps base here P (noteField field object : Build σ Unit) := by
  refine .alter fun b hb _ => ?_
  have htables := hb.collects.accessors
  split
  · split
    · exact hb.congr _ rfl rfl rfl rfl rfl rfl rfl rfl htables
    · exact ⟨hb, .refl b _⟩
  · exact ⟨hb, .refl b _⟩

theorem noteField_same {field : FieldRef} {w w' : Work σ}
    (hr : noteField field object w = .ok () w') :
    w'.body.id = w.body.id ∧ w'.body.scopes = w.body.scopes ∧ w'.body.values = w.body.values := by
  cases hr
  dsimp only
  split
  · split <;> exact ⟨rfl, rfl, rfl⟩
  · exact ⟨rfl, rfl, rfl⟩

theorem Leaf.noteField (field : FieldRef) {f : Build σ α} (hf : Leaf here given (fun _ => True) f) :
    Leaf here given P (noteField field object >>= fun _ => f) where
  keeps base := (keeps_noteField field object).bind fun _ => hf.keeps base
  calm := (Calm.noteField field object).bind fun _ => hf.calm
  stepwise mayInit := (Stepwise.noteField field object).bind fun _ => hf.stepwise mayInit
  blames hw := .bind (.alter _) fun _ _ hr =>
    have ⟨hid, hscopes, hvalues⟩ := noteField_same hr
    hf.blames (hw.after_calm (.noteField field object) hr fun v hv =>
      (hw.inScope v hv).congr hid hscopes hvalues)

theorem leaf_getField (hobject : given object) (field : FieldRef) :
    Leaf here given P (getField here field object : Build σ Value) := by
  refine .noteField field ((Looks.operand hobject _).bind fun o => ?_)
  exact .yieldInsn rfl rfl rfl fun b h => h.2.1.readings

theorem leaf_putField (hobject : given object) (hv : given value) (field : FieldRef) :
    Leaf here given P (putField here field object value : Build σ Unit) := by
  refine .noteField field ((Looks.operand hobject _).bind fun o => (Looks.operand hv _).bind
    fun v => ?_)
  exact .performInsn rfl rfl rfl fun b h => .cons h.1.2.1 h.2.1.readings

theorem leaf_getStatic (field : FieldRef) :
    Leaf here given P (getStatic here field : Build σ Value) :=
  .yieldInsn rfl rfl rfl fun b _ => readings_nil b

theorem leaf_putStatic (hv : given value) (field : FieldRef) :
    Leaf here given P (putStatic here field value : Build σ Unit) := by
  refine (Looks.operand hv _).bind fun v => ?_
  exact .performInsn rfl rfl rfl fun b h => h.2.1.readings

theorem accepts_exit {b' : Body} {destination : Option Nat} {cs : List Cleanup} {op : Operation}
    (hexit : b.Exits here destination cs b') (hb : b.Ready here)
    (hsimple : ∀ action operands result, op ≠ .simple action operands result)
    (howned : op.owned = cs.map Cleanup.scope) (hfits : op.Fits b' here)
    (hreads : Readings here b op.operands) : b'.Accepts [] here op := by
  have hreads' := hreads.mono hexit.grows.toExtends
  refine hexit.ready.accepts hsimple hfits (fun o ho => ?_) (fun o ho => ?_)
    (by rw [howned]; exact hexit.nodup) (fun c hc => ?_) fun c hc s hown => ?_
  · obtain ⟨_, hr⟩ := hreads' o ho
    exact hr.fits
  · obtain ⟨_, hr⟩ := hreads' o ho
    exact hr.visible hexit.ready
  · rw [howned] at hc
    exact Nat.lt_of_lt_of_le hb.isOpen.lt (hexit.new c hc)
  · rw [howned] at hc
    rw [Body.owned, hexit.operations] at hown
    exact absurd (hexit.new c hc) (Nat.not_le.mpr (hb.sound.owned_lt hown))

theorem keeps_exit {destination : Option Nat} {op : List Cleanup → Operation}
    (howned : ∀ cs, (op cs).owned = cs.map Cleanup.scope)
    (hends : ∀ cs, (op cs).exit? = some (destination, cs))
    (h : ∀ b, b.Ready here → P b → (∀ t, destination = some t → b.Within t here) ∧
      ∀ cs b', b.Exits here destination cs b' → b'.Accepts [] here (op cs)) :
    Keeps base here P (do
      let cleanups ← Build.change (Body.exitEdge here destination)
      push here (op cleanups) : Build σ Unit) := by
  refine .of_step fun w hw hP => ?_
  obtain ⟨hdest, hacc⟩ := h w.body hw hP
  have hexit := hw.exitEdge hdest
  refine ⟨hexit.ready.push (hacc _ _ hexit) ⟨fun d cs heq => ?_, fun statement heq => ?_⟩,
    hexit.grows.push hexit.ready.isOpen.lt .refl hw.isOpen.not_settled fun c hc => ?_⟩
  · rw [hends] at heq
    cases heq
    exact hexit.complete
  · have hnone := congrArg Operation.exit? heq
    rw [hends] at hnone
    cases hnone
  · rw [howned] at hc
    exact hexit.new c hc

theorem keeps_jump (kind : JumpKind) (target : Target) :
    Keeps base here P (jump here kind target : Build σ Unit) := by
  unfold jump
  refine (Finds.see _).bind fun id => ?_
  split
  · exact .fail_bind _ _
  · refine (Finds.see _).bind fun found => (Finds.see _).bind fun inside => ?_
    cases inside with
    | false => exact (Finds.see _).bind fun _ => .fail_bind _ _
    | true =>
      show Keeps base here _ (if kind = .again ∧ found ≠ .loop then _ else _)
      split
      · exact .fail_bind _ _
      · next hkind =>
        refine keeps_exit (fun _ => rfl) (fun _ => rfl) ?_
        rintro b hb ⟨⟨_, hfound⟩, hinside⟩
        have hw : b.Within target.scope here :=
          (Body.encloses_iff hb.sound.descends).mp hinside.symm
        refine ⟨fun t ht => ?_, fun cs b' hexit => ?_⟩
        · cases ht
          exact hw
        · refine accepts_exit hexit hb (by simp) rfl
            ⟨hexit.grows.within hw, fun hagain => ?_, hexit.fits⟩ (readings_nil b)
          have hloop : found = .loop := Decidable.not_not.mp fun hne => hkind ⟨hagain, hne⟩
          exact hexit.grows.kindOf (hfound ▸ hloop) (by decide)

theorem keeps_returnVoid : Keeps base here P (returnVoid here : Build σ Unit) := by
  unfold returnVoid
  refine (Finds.see _).bind fun returns => ?_
  split
  · exact .fail _
  · refine keeps_exit (fun _ => rfl) (fun _ => rfl) ?_
    rintro b hb ⟨_, hreturns⟩
    refine ⟨(fun t ht => by cases ht), fun cs b' hexit => ?_⟩
    refine accepts_exit hexit hb (by simp) rfl ⟨?_, hexit.fits⟩ (readings_nil b)
    rw [hexit.grows.method, ← hreturns]
    rfl

theorem keeps_retWith (o : Operand) :
    Keeps base here (fun b => b.method.type.returns.isSome ∧ Readings here b [o]) (do
      let cleanups ← Build.change (Body.exitEdge here none)
      push here (.ret (some o) cleanups) : Build σ Unit) := by
  refine keeps_exit (fun _ => rfl) (fun _ => rfl) ?_
  rintro b hb ⟨hreturns, hread⟩
  refine ⟨(fun t ht => by cases ht), fun cs b' hexit => ?_⟩
  refine accepts_exit hexit hb (by simp) rfl ⟨?_, hexit.fits⟩ hread
  rw [hexit.grows.method, hreturns]
  rfl

theorem keeps_returnValue (value : Value) :
    Keeps base here P (returnValue here value : Build σ Unit) := by
  unfold returnValue
  refine (Finds.see _).bind fun returns => ?_
  split
  · exact (Finds.typeOf value).bind fun _ => .fail _
  · next type =>
    refine (Finds.operand value type).bind fun direct => (Finds.see _).bind fun crosses => ?_
    have hsome : ∀ b : Body, some type = b.method.type.returns → b.method.type.returns.isSome :=
      fun b h => by rw [← h]; rfl
    split
    · refine Keeps.bindWith (Q := fun b => b.method.type.returns.isSome)
        (leaf_declareOf (anywhere value) type).keeps
        (fun b b' _ hg h => by rw [hg.method]; exact hsome b h.1.1.2) (gives_true _) fun stash => ?_
      refine (Finds.operandAsIs stash.value).bind fun o => ?_
      refine (keeps_retWith o).weaken ?_
      rintro b ⟨⟨hreturns, _⟩, _, _, hread, _⟩
      exact ⟨hreturns, hread.readings⟩
    · refine (keeps_retWith direct).weaken ?_
      rintro b ⟨⟨⟨_, hreturns⟩, hread, _⟩, _⟩
      exact ⟨hsome b hreturns, hread.readings⟩

theorem keeps_throwWith (o : Operand) (hread : ∀ b, P b → Readings here b [o]) :
    Keeps base here P (push here (.throw o) : Build σ Unit) := by
  refine .of_step fun w hw hP => ?_
  refine ⟨hw.push ?_ (.of_plain rfl (by simp)),
    (Body.Grows.refl _ _).push hw.isOpen.lt .refl hw.isOpen.not_settled fun c hc => by cases hc⟩
  refine hw.accepts (by simp) trivial (fun o' ho' => ?_) (fun o' ho' => ?_) nodup_nil
    (fun c hc => by cases hc) fun c hc => by cases hc
  · obtain ⟨_, hr⟩ := hread _ hP o' ho'
    exact hr.fits
  · obtain ⟨_, hr⟩ := hread _ hP o' ho'
    exact hr.visible hw

theorem leaf_throwValue (hv : given value) :
    Leaf here given P (throwValue here value : Build σ Unit) := by
  refine (Looks.typeOf value).bind fun found => ?_
  split
  · exact .fail_bind _ fun _ _ h => by cases h
  · refine (Looks.operandAsIs hv).bind fun o => ⟨fun _ => keeps_throwWith o ?_, .push _,
      fun _ => .push (by simp), fun _ => .push _ _⟩
    rintro b ⟨_, i, _, hread, _⟩
    exact hread.readings

theorem gives_yield (action : Action) (operands : List Operand) (type : FieldType) :
    Gives (yield here action operands type : Build σ Value) fun b v => OwnedBy here v.index b := by
  intro w v w' h
  cases h
  refine ⟨⟨type, some here, .result⟩, ?_, rfl⟩
  show (w.body.addValue _).2.values[w.body.values.size]? = _
  rw [Body.getElem?_addValue, if_pos rfl]

theorem gives_newInstance (constructor : MethodRef) (args : List Value) :
    Gives (newInstance here constructor args : Build σ Value) fun b v => OwnedBy here
      v.index b := by
  unfold newInstance
  split
  · exact fun _ _ _ h => by cases h
  · exact .bind fun os => gives_yield _ _ _

theorem leaf_throwNew (name : ClassName) (message : Option String) :
    Leaf here given (fun _ => True) (throwNew here name message : Build σ Unit) := by
  have hthrow : ∀ {given : Value → Prop} constructor {args}, (∀ arg ∈ args, given arg) →
      Leaf here given (fun _ => True) (newInstance here constructor args >>= fun exception =>
        throwValue here exception : Build σ Unit) := fun constructor _ hargs =>
    (leaf_newInstance constructor hargs).bind (fun w exception w' hr => inScope_of_readable
      (gives_newInstance constructor _ w exception w' hr).readable) fun _ => leaf_throwValue rfl
  unfold throwNew
  cases message with
  | none => exact hthrow _ fun _ h => by cases h
  | some text =>
    exact Leaf.bind (m := constString text) (g := id) (.constant rfl)
      (fun _ _ _ => inScope_constant) fun v => hthrow _ fun arg harg => (mem_singleton.mp harg).symm

end Build
end ClassAssembler
