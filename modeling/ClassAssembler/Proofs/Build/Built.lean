import ClassAssembler.Body.Code
import ClassAssembler.Proofs.Build.Program

/-!
# Built bodies

A body begins with its parameters and an empty root scope, and a program of builder calls adds to
it.
-/

namespace ClassAssembler

variable {b b' : Body}

open List

structure Laid (values : Array ValueInfo) (free : Nat) : Prop where
  bound : ∀ {v : Nat} {info : ValueInfo}, values[v]? = some info → info.owner = none ∧
    ∃ slot, info.origin = .param slot ∧ slot.toNat + info.type.width ≤ free
  apart : ∀ {u v : Nat} {iu iv : ValueInfo} {su sv : UInt16}, values[u]? = some iu →
    values[v]? = some iv → iu.origin = .param su → iv.origin = .param sv → u < v →
    su.toNat + iu.type.width ≤ sv.toNat

theorem Laid.push {values : Array ValueInfo} {free : Nat} (h : Laid values free) (type : FieldType)
    (hfree : free < UInt16.size) :
    Laid (values.push { type, owner := none, origin := .param (UInt16.ofNat free) })
      (free + type.width) := by
  have hnat : (UInt16.ofNat free).toNat = free := UInt16.toNat_ofNat_of_lt' hfree
  refine ⟨fun {v info} hv => ?_, fun {u v iu iv su sv} hu hv ou ov hlt => ?_⟩
  · rw [Array.getElem?_push] at hv
    split at hv
    · cases hv
      exact ⟨rfl, _, rfl, Nat.le_of_eq (by rw [hnat])⟩
    · obtain ⟨hnone, slot, ho, hle⟩ := h.bound hv
      exact ⟨hnone, slot, ho, Nat.le_trans hle (Nat.le_add_right _ _)⟩
  · rw [Array.getElem?_push] at hu hv
    have hlt_size : ∀ {x : Nat} {i : ValueInfo}, values[x]? = some i → x < values.size :=
      fun hx => (Array.getElem?_eq_some_iff.mp hx).1
    split at hu
    · next heq =>
      subst heq
      rw [if_neg (Nat.ne_of_gt hlt)] at hv
      exact absurd (hlt_size hv) (Nat.not_lt.mpr (Nat.le_of_lt hlt))
    · split at hv
      · cases hv
        cases ov
        obtain ⟨_, slot, ho, hle⟩ := h.bound hu
        rw [ou] at ho
        cases ho
        rw [hnat]
        exact hle
      · exact h.apart hu hv ou ov hlt

theorem Laid.layParams {types : List FieldType} {values : Array ValueInfo} {free : Nat}
    (h : Body.layParams types = .ok (values, free)) :
    Laid values free ∧ values.size = types.length := by
  have hstart : Laid #[] 0 := ⟨fun hv => by simp at hv, fun hu => by simp at hu⟩
  have hsize : values.size = types.length + (#[] : Array ValueInfo).size →
      values.size = types.length := id
  unfold Body.layParams at h
  refine And.imp_right hsize ?_
  clear hsize
  generalize (#[] : Array ValueInfo) = before at h hstart ⊢
  generalize 0 = slot at h hstart
  induction types generalizing before slot with
  | nil =>
    cases h
    exact ⟨hstart, (Nat.zero_add _).symm⟩
  | cons type types ih =>
    rw [foldlM_cons] at h
    dsimp only at h
    split at h
    · next hlt =>
      obtain ⟨hlaid, hsize⟩ := ih _ _ h (hstart.push type hlt)
      exact ⟨hlaid, by rw [hsize, Array.size_push, length_cons]; omega⟩
    · cases h

namespace Body

theorem ready_root (hscopes : b.scopes = #[]) (htries : b.tries = []) (hnext : b.nextTry = 0)
    (hlaid : Laid b.values b.firstFree) (hreceiver : b.hasReceiver → 0 < b.values.size)
    (htables : ∀ table ∈ b.tables, table.accessor.type = ⟨[], some OrdinalTable.rowType⟩) :
    (b.openScope none .root).2.Ready 0 := by
  have hnone : ∀ s : Nat, b.scopes[s]? = none := fun s => by rw [hscopes]; rfl
  have hsize : (b.openScope none .root).2.scopes.size = 1 := by rw [size_openScope, hscopes]; rfl
  have hkind : ∀ s, (b.openScope none .root).2.kindOf s = .root := by
    intro s
    rw [kindOf_openScope, kindOf, hnone]
    exact ite_self _
  have hparent : ∀ s p, (b.openScope none .root).2.parentOf s ≠ some p := by
    intro s p hp
    rw [parentOf_openScope, parentOf, hnone] at hp
    split at hp <;> cases hp
  have hops : ∀ s, (b.openScope none .root).2.operations s = [] := by
    intro s
    rw [operations_openScope, operations, hnone]
  have howned : ∀ s, (b.openScope none .root).2.owned s = [] := fun s => by rw [owned, hops]; rfl
  have hdefines : ∀ s, (b.openScope none .root).2.defines s = [] := fun s => by
    rw [defines, hops]
    rfl
  have hlabels : b.LabelsFit := by
    constructor <;> intro _ _ <;> intros <;> simp_all
  have hsound : (b.openScope none .root).2.Sound :=
    { rooted := by rw [hsize]; decide
      root := hkind 0
      descends := fun s p hp => absurd hp (hparent s p)
      labels := hlabels.openScope none .root
      fits := fun hop => by rw [hops] at hop; cases hop
      operands := fun hop => by rw [hops] at hop; cases hop
      owned_gt := fun hc => by rw [howned] at hc; cases hc
      owned_nodup := fun s => by rw [howned]; exact nodup_nil
      owned_unique := fun hc => by rw [howned] at hc; cases hc
      visible := fun {s l1 op l2} hsplit => by rw [hops] at hsplit; simp at hsplit
      defines_nodup := fun s => by rw [hdefines]; exact nodup_nil
      defines_owner := fun hv => by rw [hdefines] at hv; cases hv
      defined := fun {v info s} hv ho => by rw [(hlaid.bound hv).1] at ho; cases ho
      results := fun hop => by rw [hops] at hop; cases hop
      lasting := fun {v info} hv _ => by
        obtain ⟨_, slot, ho, _⟩ := hlaid.bound hv
        exact .inl ⟨slot, ho⟩
      owned_origin := fun {v info s} hv ho => by
        rw [(hlaid.bound hv).1] at ho
        cases ho
      frames := fun {s} _ => hops s
      caught := fun {s l1 op l2} hsplit => by rw [hops] at hsplit; simp at hsplit
      updates := fun hop => by rw [hops] at hop; cases hop
      params :=
        { bound := fun {v info slot} hv ho => by
            obtain ⟨_, slot', ho', hle⟩ := hlaid.bound hv
            rw [ho] at ho'
            cases ho'
            exact hle
          apart := hlaid.apart }
      receiver := fun hr => by
        have hlt := hreceiver hr
        exact ⟨_, Array.getElem?_eq_getElem hlt, (hlaid.bound (Array.getElem?_eq_getElem hlt)).1⟩ }
  have hempty : (b.openScope none .root).2.tries = [] := htries
  have hnotry : ∀ f, f ∉ (b.openScope none .root).2.tries := fun f hf => by
    rw [hempty] at hf
    cases hf
  exact
    { sound := hsound
      collects :=
        { next := by
            show b.nextTry = _
            rw [tryNumber_openScope b none .root _ rfl, hnext, hscopes]
            rfl
          frame := fun f hf => absurd hf (hnotry f)
          id := fun f hf => absurd hf (hnotry f)
          copies := fun f hf => absurd hf (hnotry f)
          ordered := by rw [hempty]; exact .nil
          complete := fun hk => by rw [hkind] at hk; cases hk
          accessors := htables }
      isOpen :=
        { lt := by rw [hsize]; decide
          steady := fun c _ hc => by rw [hkind] at hc; cases hc
          unowned := fun c p _ hp => absurd hp (hparent c p)
          entered := fun f hf => by
            obtain ⟨frame, hframe, _⟩ := mem_map.mp hf
            exact absurd hframe (hnotry frame) }
      notFrame := by rw [hkind]; decide
      started := fun hh => by rw [hkind] at hh; cases hh }

/-- A body as it begins, with the tables its class has so far. -/
def Begins (tables : OrdinalTable.All) (b : Body) : Prop :=
  ∃ id method access superClass settings,
    Body.start id method access superClass settings tables = .ok b

theorem Begins.ready {tables : OrdinalTable.All} (h : Begins tables b)
    (htables : ∀ table ∈ tables, table.accessor.type = ⟨[], some OrdinalTable.rowType⟩) :
    b.Ready 0 := by
  obtain ⟨id, method, access, superClass, settings, h⟩ := h
  unfold Body.start at h
  dsimp only at h
  split at h
  · cases h
  · next values free hparams =>
    obtain ⟨hlaid, hsize⟩ := Laid.layParams hparams
    cases h
    refine ready_root rfl rfl rfl hlaid (fun hr => ?_) htables
    show 0 < values.size
    rw [hsize, show (!access.contains .staticFlag) = true from hr]
    simp

theorem Begins.bare {tables : OrdinalTable.All} (h : Begins tables b) :
    b.scopes.size = 1 ∧ b.tries = [] ∧ (∀ s, b.operations s = []) ∧
      (b.method.isConstructor → b.init = some {}) := by
  obtain ⟨id, method, access, superClass, settings, h⟩ := h
  unfold Body.start at h
  dsimp only at h
  split at h
  · cases h
  · cases h
    exact ⟨rfl, rfl, fun s => operations_openScope _ _ _ s, fun hinit => if_pos hinit⟩

/-- The bodies that programs of builder calls lead to, whether or not they fail. -/
inductive Built : Body → Prop
  | first {b : Body} {σ : Type} {program : Build σ Unit} {s : σ} : Begins #[] b →
      Build.Writes σ 0 Unit program → Built (Build.after program ⟨b, s⟩).body
  | next {b b' : Body} {σ : Type} {program : Build σ Unit} {s : σ} : Built b' →
      Begins b'.tables b → Build.Writes σ 0 Unit program → Built (Build.after program ⟨b, s⟩).body

theorem Built.ready (h : Built b) : b.Ready 0 := by
  induction h with
  | first hb hprogram =>
    have hready := hb.ready fun table ht => absurd ht (Array.not_mem_empty table)
    exact (hprogram.keeps _ ⟨_, _⟩ hready (.refl _ _) trivial).1
  | next _ hb hprogram ih =>
    have hready := hb.ready ih.collects.accessors
    exact (hprogram.keeps _ ⟨_, _⟩ hready (.refl _ _) trivial).1

def prepend (b : Body) (op : Operation) : Body :=
  { b with
    scopes := b.scopes.modify 0 fun scope =>
      { scope with operations := #[op] ++ scope.operations } }

section prepend

variable {b : Body} {op : Operation}

theorem prepend_eq : b.prepend op = b.amend 0 (#[op] ++ ·) := rfl

section

variable (op : Operation) (h : 0 < b.scopes.size)
include h

theorem operations_prepend (s : Nat) :
    (b.prepend op).operations s = if s = 0 then op :: b.operations s else b.operations s := by
  rw [prepend_eq]
  split
  · next hs =>
    rw [hs, operations_amend_self b 0 _ h]
    simp
  · next hs => rw [operations_amend_of_ne b 0 _ hs]

theorem inserts_prepend :
    b.Inserts (b.prepend op) 0 op [] (b.operations 0) :=
  ⟨rfl, operations_prepend op h 0, fun s hs => (operations_prepend op h s).trans (if_neg hs)⟩

theorem extends_prepend (howned : op.owned = []) :
    b.Extends (b.prepend op) where
  size := Nat.le_of_eq (b.size_amend 0 (#[op] ++ ·)).symm
  parent s _ := b.parentOf_amend 0 (#[op] ++ ·) s
  kind s _ := b.kindOf_amend 0 (#[op] ++ ·) s
  value _ _ hv := hv
  operations s := by
    rw [operations_prepend op h]
    split
    · refine ⟨[op], [], by simp, fun x hx => ?_⟩
      cases mem_singleton.mp hx
      exact howned
    · exact Surrounds.refl _
  method := rfl

end

theorem SoundUpTo.prepend (h : b.Sound) (howned : op.owned = []) (hdefines : op.defines = [])
    (hcaught : op.isCaught = false) (hfits : op.Fits b 0) (hoperands : ∀ o ∈ op.operands, o.Fits)
    (hneeds : ∀ v ∈ op.needs, b.Visible 0 [] v)
    (hresult : ∀ action operands v, op ≠ .simple action operands (some v)) :
    (b.prepend op).Sound := by
  have hkind : ∀ {kind}, kind ≠ .root → b.kindOf 0 ≠ kind := fun hne heq => hne (heq ▸ h.root)
  have hnot : ¬ (b.kindOf 0).isHandler := by rw [h.root]; decide
  refine h.insert (f := (#[op] ++ ·)) ?_ (extends_prepend op h.rooted howned)
    (inserts_prepend op h.rooted) hneeds (.inr ⟨hdefines, hnot⟩)
  exact
    { lt := h.rooted
      notFrame := by rw [h.root]; decide
      fits := hfits
      operands := hoperands
      needs := fun v hv => (hneeds v hv).weaken fun _ hu => by cases hu
      owned_nodup := howned ▸ nodup_nil
      owned_gt := fun c hc => by rw [howned] at hc; cases hc
      unowned := fun c hc => by rw [howned] at hc; cases hc
      defines := hdefines
      pending_nodup := nodup_nil
      pending_owner := fun v hv => by cases hv
      pending_new := fun v hv => by cases hv
      result := fun heq => absurd heq (hresult _ _ _)
      caught := by simp [hcaught, hnot]
      updates := fun hk => absurd hk (hkind (by decide)) }

end prepend

/-- A body whose code can be laid out: it is sound, and the exits of its try statements run
their finally blocks. -/
structure Finished (b : Body) : Prop where
  sound : b.Sound
  complete : ∀ {frame part s}, b.kindOf frame = .tryFrame → b.parentOf part = some frame →
    (b.kindOf part).isGuarded → part ∈ b.owned s → b.Complete frame part

theorem Built.finished (h : Built b) : b.Finished :=
  ⟨h.ready.sound, fun hk hp hg hown => h.ready.collects.complete hk hp hg (.inr ⟨_, hown⟩)⟩

theorem Finished.superCall (h : b.Finished) (hreceiver : b.hasReceiver) :
    (b.prepend b.superCall).Finished := by
  obtain ⟨info, hinfo, howner⟩ := h.sound.receiver hreceiver
  have he := extends_prepend b.superCall h.sound.rooted rfl
  have hi := inserts_prepend b.superCall h.sound.rooted
  refine ⟨h.sound.prepend rfl rfl rfl ?_ (fun o ho => ?_) (fun v hv => ?_) fun _ _ _ heq => ?_, ?_⟩
  · exact Action.computes_insn rfl rfl (fun _ _ => rfl) fun v hv => by cases hv
  · cases mem_singleton.mp (show o ∈ [⟨0, []⟩] from ho)
    exact ⟨fun i hi => (by cases hi), fun cell rest => ⟨cell, rfl⟩⟩
  · cases mem_singleton.mp (show v ∈ [0] from hv)
    exact ⟨info, hinfo, .inl howner⟩
  · cases heq
  · intro frame part s hk hp hg hown
    rw [prepend_eq, kindOf_amend] at hk hg
    rw [prepend_eq, parentOf_amend] at hp
    have hown : part ∈ b.owned s := (hi.of_mem_flatMap hown).resolve_right fun h => by cases h.2
    refine (h.complete hk hp hg hown).mono h.sound he
      (lt_size_of_kindOf (by rw [hk]; decide)) fun s op d cs hop hnot _ hexit => ?_
    -- The new operation is not an exit.
    obtain ⟨_, rfl⟩ := (hi.of_mem hop).resolve_left hnot
    cases hexit

theorem completeInit_cases (h : b.completeInit = .ok b') :
    b' = b ∨ (b.hasReceiver ∧ b' = b.prepend b.superCall) := by
  unfold completeInit at h
  split at h
  · next hreceiver =>
    split at h <;> cases h
    exact .inr ⟨hreceiver, rfl⟩
  · cases h
    exact .inl rfl

/-- At most the call of a constructor is put into a body that is complete without it. -/
theorem mem_of_completeInit (hb : b.Sound) (h : b.completeInit = .ok b') {s : Nat} {op : Operation}
    (hop : op ∈ b'.operations s) : op ∈ b.operations s ∨ op = b.superCall := by
  rcases completeInit_cases h with rfl | ⟨_, rfl⟩
  · exact .inl hop
  · exact ((inserts_prepend b.superCall hb.rooted).of_mem hop).imp_right And.right

theorem Finished.completeInit (h : b.Finished) (hc : b.completeInit = .ok b') :
    b'.Finished := by
  rcases completeInit_cases hc with rfl | ⟨hreceiver, rfl⟩
  · exact h
  · exact h.superCall hreceiver

end Body

namespace Build

def countdown : Build Unit Unit := do
  let counter ← declare 0 (← param 0)
  let zero ← constInt 0
  whileLoop 0 (fun looped => do compare looped .gt (← get looped counter) zero)
    fun looped => inc looped counter (-1)
  returnVoid 0

theorem writes_countdown : Writes Unit 0 Unit countdown :=
  .bind (.call (.param 0)) fun first => .bind (.call (.declare first)) fun counter =>
    .bind (.call (.constInt 0)) fun zero =>
    .bind (.whileLoop (fun _ => .bind (.call (.get counter)) fun current =>
        .call (.compare .gt current zero)) fun _ => .call (.inc counter (-1))) fun _ =>
    .call .returnVoid

/-- Returns from a try statement with a finally block, goes on behind the return, and tries in
vain to return a value. -/
def earlyReturn : Build Unit Unit := do
  let first ← param 0
  let zero ← constInt 0
  tryCatch 0 do
    tryBody fun body => do
      let positive ← compare body .gt first zero
      ifThen body positive fun arm => do
        returnVoid arm
        let _ ← neg arm first
        pure ()
      let _ ← attempt (returnValue body first)
      pure ()
    finallyBlock fun copy => do
      let _ ← neg copy first
      pure ()

theorem writes_earlyReturn : Writes Unit 0 Unit earlyReturn :=
  .bind (.call (.param 0)) fun first => .bind (.call (.constInt 0)) fun zero =>
    .tryCatch (.bind (.body fun _ => .bind (.call (.compare .gt first zero)) fun positive =>
        .bind (.ifThen positive fun _ => .bind (.call .returnVoid) fun _ =>
          .bind (.call (.neg first)) fun _ => .pure ()) fun _ =>
        .bind (.attempt (.call (.returnValue first))) fun _ => .pure ()) fun _ =>
      .finallyBlock fun _ => .bind (.call (.neg first)) fun _ => .pure ())

end Build

def Body.sampleStart (returns : Option FieldType) : Body :=
  ((Body.start ⟨0, 0⟩ { owner := ⟨"Sample"⟩, name := ⟨"run"⟩, type := ⟨[.int], returns⟩ }
    .staticFlag .object {} #[]).toOption).get rfl

theorem Body.begins_sampleStart (returns : Option FieldType) : Begins #[] (sampleStart returns) :=
  ⟨⟨0, 0⟩, { owner := ⟨"Sample"⟩, name := ⟨"run"⟩, type := ⟨[.int], returns⟩ },
    .staticFlag, .object, {}, rfl⟩

def Body.countdown : Body := (Build.after Build.countdown ⟨sampleStart none, ()⟩).body

theorem Body.built_countdown : Body.countdown.Built :=
  .first (begins_sampleStart none) Build.writes_countdown

def Body.earlyReturn : Body := (Build.after Build.earlyReturn ⟨sampleStart none, ()⟩).body

theorem Body.built_earlyReturn : Body.earlyReturn.Built :=
  .first (begins_sampleStart none) Build.writes_earlyReturn

end ClassAssembler
