import ClassAssembler.Proofs.Layout.Views

/-!
# Views along a simple operation

A simple operation takes its operands, leaves its result on the stack or in its slots, and keeps
everything else where it is.
-/

namespace ClassAssembler

open List Lay Instruction Status

def Operation.InitsVoid : Operation → Prop
  | .simple (.insns is) _ _ => Instruction.InitsVoid is
  | .simple (.new constructor) _ _ => constructor.type.returns = none
  | _ => True

namespace Plot

/-- A value can be pushed, or is on the stack. -/
structure Available (b : Body) (homes : Array Home) (kept : List Nat) (v : Nat) : Prop where
  home : homeOf homes v ≠ .nowhere
  kept : ∀ k, homeOf homes v = .slot k → v ∈ kept
  constant : homeOf homes v = .constant →
    ∃ info l, b.values[v]? = some info ∧ info.origin = .constant l ∧ l.words = info.type.width

/-- A value can be read, and then lies on top of `ws`. -/
structure Offers (b : Body) (homes : Array Home) (voids : Prop) (σ : View) (ws : List Nat)
    (v : Nat) : Prop extends Available b homes σ.kept v where
  onTop : homeOf homes v = .stack → σ.top = some v ∧ (voids → σ.stack = b.widthOf v :: ws)
  below : homeOf homes v ≠ .stack → voids → σ.stack = ws

variable {b : Body} {homes : Array Home} {ψ : Label → Option Status} {voids : Prop}
  {before : Label → Prop} {base : List Nat} {σ : View} {ws : List Nat} {v slot : Nat}
  {site : Site} {status : Status} {op : Operation}

namespace Meets

variable (h : Meets b homes slot status op)
include h

theorem available (hv : v ∈ op.operands.map Operand.value) : Available b homes status.kept v :=
  ⟨h.home v hv, h.kept v (mem_append_left _ hv), h.constant v hv⟩

theorem stack_eq_nil (hcaught : ¬ op.isCaught)
    (htop : ∀ v, op.top? = some v → homeOf homes v ≠ .stack) : status.stack = [] := by
  rw [h.stack, finds, if_neg hcaught]
  split
  · next v hv => rw [if_neg (htop v hv)]
  · rfl

theorem offers (hcaught : ¬ op.isCaught) (htop : op.top? = some v) :
    Offers b homes voids status.view [] v where
  toAvailable := h.available (Body.mem_operands_of_top htop)
  onTop hhome := by
    have hstack : status.stack = [⟨some v, b.widthOf v⟩] := by
      rw [h.stack, finds, if_neg hcaught, htop]
      exact if_pos hhome
    rw [view, hstack]
    exact ⟨rfl, fun _ => rfl⟩
  below hhome _ := by
    have hstack : status.stack = [] := h.stack_eq_nil hcaught fun u hu => by
      rw [htop] at hu
      cases hu
      exact hhome
    rw [view, hstack]
    rfl

theorem not_stack (hv : v ∈ op.operands.map Operand.value)
    (hnot : op.top? = some v → 1 < (op.operands.map Operand.value).count v) :
    homeOf homes v ≠ .stack := by
  intro hhome
  obtain ⟨htop, hcount⟩ := h.onTop v hv hhome
  have hlt := hnot htop
  omega

end Meets

theorem flows_fetch (h : Offers b homes voids σ ws v) (hbase : base ⊆ σ.kept) :
    Flows b homes ψ voids before base σ (fetch b homes site v)
      ⟨b.widthOf v :: ws, none, σ.kept⟩ := by
  unfold fetch
  split
  · next hhome =>
    obtain ⟨⟨type, owner, origin⟩, l, hinfo, horigin, hwords⟩ := h.constant hhome
    have horigin : origin = .constant l := horigin
    subst horigin
    obtain ⟨hquiet, hpush⟩ := pushes_literal l
    have hwidth : b.widthOf v = l.words := by rw [Body.widthOf, hinfo, hwords]
    rw [hinfo]
    refine .insns hquiet (fun hv => ?_) hbase
    rw [h.below (by rw [hhome]; simp) hv, hpush, hwidth]
  · next k hhome =>
    refine (Flows.point (.load (h.kept k hhome) hhome) hbase
      fun _ _ _ _ _ h => by cases h).weaken (.plain (fun hv => ?_) fun _ hv => hv)
    dsimp only
    rw [h.below (by rw [hhome]; simp) hv]
  · next hhome => exact .nil (.plain (h.onTop hhome).2 fun _ hv => hv)
  · next hhome => exact absurd hhome h.home

theorem flows_load {o : Operand} {ws' : List Nat} (h : Offers b homes voids σ ws o.value)
    (hquiet : Instruction.Quiet o.coercion)
    (hcoerce : voids → reshapeAll o.coercion (b.widthOf o.value :: ws) = some ws')
    (hbase : base ⊆ σ.kept) :
    Flows b homes ψ voids before base σ (load b homes site o) ⟨ws', none, σ.kept⟩ := by
  have hread : Move b homes ψ voids σ (.reads o.value) σ :=
    .reads h.home h.kept fun hhome => (h.onTop hhome).1
  exact ((Flows.point hread hbase fun _ _ _ _ _ h => by cases h).append
    (flows_fetch h hbase)).append
    (.insns hquiet hcoerce hbase)

theorem exists_flows_load {o : Operand} (h : Offers b homes voids σ ws o.value) (hfits : o.Fits)
    (hbase : base ⊆ σ.kept) :
    ∃ w, Flows b homes ψ voids before base σ (load b homes site o) ⟨w :: ws, none, σ.kept⟩ := by
  obtain ⟨w, hw⟩ := hfits.reshape (b.widthOf o.value) ws
  exact ⟨w, flows_load h hfits.1 (fun _ => hw) hbase⟩

variable {os : List Operand} {result : Option Nat} {kept : List Nat}

theorem flows_loads (hos : ∀ o ∈ os, Available b homes σ.kept o.value ∧
    homeOf homes o.value ≠ .stack ∧ o.Fits) (hstack : voids → σ.stack = ws)
    (hbase : base ⊆ σ.kept) :
    ∃ ws', ws'.length = os.length ∧ Flows b homes ψ voids before base σ (loads b homes site os)
      ⟨ws' ++ ws, none, σ.kept⟩ := by
  induction os generalizing σ ws with
  | nil => exact ⟨[], rfl, .nil (.plain hstack fun _ hv => hv)⟩
  | cons o os ih =>
    obtain ⟨havail, hhome, hfits⟩ := hos o (.head ..)
    have hoffers : Offers b homes voids σ ws o.value :=
      ⟨havail, fun h => absurd h hhome, fun _ => hstack⟩
    obtain ⟨w, hfirst⟩ := exists_flows_load hoffers hfits hbase
    obtain ⟨ws', hlen, hrest⟩ : ∃ ws', ws'.length = os.length ∧
        Flows b homes ψ voids before base ⟨w :: ws, none, σ.kept⟩ (loads b homes site os)
          ⟨ws' ++ w :: ws, none, σ.kept⟩ := by
      refine ih ?_ (fun _ => rfl) hbase
      exact fun o' ho' => hos o' (.tail _ ho')
    refine ⟨ws' ++ [w], by simp [hlen], ?_⟩
    rw [List.append_assoc]
    exact hfirst.append hrest

theorem flows_operands (h : Meets b homes slot status op) (hcaught : ¬ op.isCaught)
    (hos : op.operands = os)
    (htop : op.top? = os.head?.map Operand.value) (hfits : ∀ o ∈ os, o.Fits)
    (hbase : base ⊆ status.kept) :
    ∃ ws, ws.length = os.length ∧ Flows b homes ψ voids before base status.view
      (loads b homes site os) ⟨ws, none, status.kept⟩ := by
  cases os with
  | nil =>
    have hnil := h.stack_eq_nil hcaught fun v hv => by rw [htop] at hv; cases hv
    exact ⟨[], rfl, .nil (.plain (fun _ => by rw [view, hnil]; rfl) fun _ hv => hv)⟩
  | cons o os =>
    have hoffers : Offers b homes voids status.view [] o.value := h.offers hcaught htop
    obtain ⟨w, hfirst⟩ := exists_flows_load hoffers (hfits o (.head ..)) hbase
    have hmem : ∀ o' ∈ os, o'.value ∈ op.operands.map Operand.value := fun o' ho' => by
      rw [hos]
      exact mem_map_of_mem (.tail _ ho')
    have hrest : ∀ o' ∈ os, Available b homes status.kept o'.value ∧
        homeOf homes o'.value ≠ .stack ∧ o'.Fits := by
      intro o' ho'
      refine ⟨h.available (hmem o' ho'), h.not_stack (hmem o' ho') fun htop' => ?_,
        hfits o' (.tail _ ho')⟩
      rw [htop] at htop'
      have heq : o.value = o'.value := Option.some.inj htop'
      rw [hos, map_cons, heq, count_cons_self]
      exact Nat.succ_lt_succ (count_pos_iff.mpr (mem_map_of_mem ho'))
    obtain ⟨ws, hlen, hflows⟩ : ∃ ws : List Nat, ws.length = os.length ∧
        Flows b homes ψ voids before base ⟨[w], none, status.kept⟩ (loads b homes site os)
          ⟨ws ++ [w], none, status.kept⟩ := flows_loads hrest (fun _ => rfl) hbase
    refine ⟨ws ++ [w], by simp [hlen], ?_⟩
    exact hfirst.append hflows

theorem flows_copy (h : Meets b homes slot status op) (hcaught : ¬ op.isCaught)
    (hos : op.operands = os) (htop : op.top? = os.head?.map Operand.value)
    (hfits : ∀ o ∈ os, o.Fits) (hcopies : Action.Copies b os result)
    (hsize : ∀ o ∈ os, o.value < b.values.size) (hbase : base ⊆ status.kept) :
    Flows b homes ψ voids before base status.view (loads b homes site os)
      ⟨(result.map b.widthOf).toList, none, status.kept⟩ := by
  obtain ⟨o, v, w, rfl, rfl, hw, hcoerce⟩ := hcopies
  have hoffers : Offers b homes voids status.view [] o.value := h.offers hcaught htop
  obtain ⟨tag, hact⟩ := hcoerce ⟨none, b.widthOf o.value⟩
    ((Body.hasWidth_iff (hsize o (.head _))).mpr rfl)
  refine (flows_load hoffers (hfits o (.head _)).1 (fun _ => ?_) hbase).append
    (.nil (.refl _))
  have hshape := reshapeAll_actAll none o.coercion
    [(⟨none, b.widthOf o.value⟩ : Cell (Option Nat))]
  rw [hact] at hshape
  rw [Option.map_some, hw.eq]
  exact hshape

theorem flows_settle (htidy : b.Tidy homes slot kept)
    (hhome : homeOf homes v = .slot slot ∨ homeOf homes v = .stack ∨
      homeOf homes v = .nowhere)
    {τ : Status} (hdefines : τ.kept = kept ++ [v].filter (inSlot homes))
    (hstack : τ.stack = if homeOf homes v = .stack then [⟨some v, b.widthOf v⟩] else [])
    (hbase : base ⊆ kept) :
    Flows b homes ψ voids before base ⟨[b.widthOf v], none, kept⟩
      (settle b homes site (some v)) τ.view := by
  have hyields : Flows b homes ψ voids before base ⟨[b.widthOf v], none, kept⟩
      (Plot.point (.yields v)) ⟨[b.widthOf v], some v, kept⟩ := by
    refine .point (.yields (htidy.not_mem fun k hk => ?_) fun _ => cons_ne_nil _ _) hbase
      fun _ _ _ _ _ h => by cases h
    rcases hhome with h | h | h <;> rw [hk] at h <;> cases h
    rfl
  refine hyields.append ?_
  rw [view, hdefines, hstack]
  have hfilter (h : inSlot homes v = false) : [v].filter (inSlot homes) = [] := by
    rw [filter_cons_of_neg (by rw [h]; exact Bool.false_ne_true), filter_nil]
  rcases hhome with h | h | h
  · have hfilter : [v].filter (inSlot homes) = [v] := by
      rw [filter_cons_of_pos (by rw [inSlot, h])]
      rfl
    rw [hfilter, storeInto, h, if_neg (by simp)]
    exact .point (.store h (fun _ => rfl) (htidy.alone h) fun _ => rfl) hbase
      fun _ _ _ _ _ h => by cases h
  · rw [hfilter (by rw [inSlot, h]), h, List.append_nil, if_pos rfl]
    exact .nil (.refl _)
  · rw [hfilter (by rw [inSlot, h]), h, List.append_nil, if_neg (by simp)]
    refine .insn ?_ (fun _ => ?_) hbase
    · unfold FieldType.drop
      split <;> rfl
    · rw [← Body.width_typeOf]
      exact FieldType.reshape_drop _ _

theorem flows_storeInto {w k : Nat} (horigin : b.HasOrigin v .variable)
    (hhome : homeOf homes v = .slot k) (halone : b.Alone homes kept v)
    (hbase : base ⊆ kept) :
    Flows b homes ψ voids before base ⟨[w], none, kept⟩ (storeInto b homes site v)
      ⟨[], none, kept ++ [v]⟩ := by
  rw [storeInto, hhome]
  refine .point (.store hhome (fun _ => rfl) halone fun hresult => ?_) hbase
    fun _ _ _ _ _ h => by cases h
  obtain ⟨info, hinfo, h⟩ := horigin
  obtain ⟨info', hinfo', h'⟩ := hresult
  rw [hinfo] at hinfo'
  cases hinfo'
  rw [h] at h'
  cases h'

theorem flows_decision {test : Test} (hws : ws.length = test.uses)
    (hbase : base ⊆ kept) :
    Flows b homes ψ voids before base ⟨ws, none, kept⟩ (decision site kept test)
      ⟨[1], none, kept⟩ := by
  refine .fresh fun holds => .fresh fun done => ?_
  refine .of_puts (Puts.place holds ⟨[], kept⟩).right.left.left fun hholds => ?_
  refine .of_puts (Puts.place done ⟨[⟨none, 1⟩], kept⟩).right fun hdone => ?_
  have hjump : Flows b homes ψ voids before base ⟨ws, none, kept⟩
      (branch site (.jumpIf test holds)) ⟨[], none, kept⟩ := by
    have hpop : View.pop ⟨ws, none, kept⟩ (Branch.jumpIf test holds).uses = ⟨[], none, kept⟩ := by
      rw [View.pop, Branch.uses, drop_eq_nil_of_le (Nat.le_of_eq hws)]
    refine .branch (fun _ => ⟨Nat.le_of_eq hws.symm, fun h => by cases h⟩) (fun t ht => ?_)
      (fun _ => hpop.symm)
      hbase
    cases mem_singleton.mp ht
    refine ⟨_, hholds, ?_⟩
    rw [hpop]
    exact .refl _
  have hgoto : Flows b homes ψ voids before base ⟨[1], none, kept⟩ (goto site done)
      ⟨[], none, kept⟩ := by
    refine .branch (fun _ => ⟨Nat.zero_le _, fun h => by cases h⟩) (fun t ht => ?_)
      (fun h => by cases h) hbase
    cases mem_singleton.mp ht
    exact ⟨_, hdone, .refl _⟩
  have hpush : ∀ n, Flows b homes ψ voids before base ⟨[], none, kept⟩ (insn site (.constInt n))
      ⟨[1], none, kept⟩ := fun n => .insn rfl (fun _ => reshape_push rfl rfl rfl _) hbase
  have hplace : Flows b homes ψ voids before base ⟨[], none, kept⟩ (place holds ⟨[], kept⟩)
      ⟨[], none, kept⟩ := .place (.refl _) hbase
  exact ((((hjump.append (hpush _)).append hgoto).append hplace).append (hpush _)).append
    (.place (.refl _) hbase)

theorem reshapeAll_of_act {is : List Instruction} {cells : List (Cell (Option Nat))}
    (hact : actAll none is (ws.map (Cell.mk none)) = some cells) :
    reshapeAll is ws = some (cells.map Cell.words) := by
  have hshape := reshapeAll_actAll none is (ws.map (Cell.mk (none : Option Nat)))
  have hid : (Cell.words ∘ Cell.mk (none : Option Nat)) = id := rfl
  rwa [hact, map_map, hid, List.map_id] at hshape

theorem reshape_computes {is : List Instruction}
    (h : Action.Computes b is os result) (hinits : Instruction.InitsVoid is)
    (hlen : ws.length = os.length) : reshapeAll is ws = some (result.map b.widthOf).toList := by
  obtain ⟨words, hact, hnone, hsome⟩ := h
  rw [reshapeAll_of_act (hact _ (by rw [length_map, hlen])), map_map,
    show (Cell.words ∘ Cell.mk (none : Option Nat)) = id from rfl, List.map_id]
  cases result with
  | none => rw [hnone hinits rfl]; rfl
  | some v =>
    obtain ⟨w, rfl, hw⟩ := hsome v rfl
    rw [Option.map_some, hw.eq]

theorem flows_action {act : Action}
    (h : Meets b homes slot status (.simple act os result)) (hfits : act.Fits b os result)
    (hos : ∀ o ∈ os, o.Fits) (hsize : ∀ o ∈ os, o.value < b.values.size)
    (hvoids : voids → (Operation.simple act os result).InitsVoid)
    (hvar : ∀ v d, act ≠ .store v d) (hinc : ∀ v d, act ≠ .inc v d)
    (hbase : base ⊆ status.kept) :
    Flows b homes ψ voids before base status.view (action b homes site status.kept os act)
      ⟨(result.map b.widthOf).toList, none, status.kept⟩ := by
  cases act with
  | insns is =>
    obtain ⟨hquiet, ⟨rfl, hcopies⟩ | hcomputes⟩ := hfits
    · exact (flows_copy h Bool.false_ne_true rfl rfl hos hcopies hsize hbase).append
        (.nil (.refl _))
    · obtain ⟨ws, hlen, hflows⟩ := flows_operands h Bool.false_ne_true rfl rfl hos hbase
      exact hflows.append (.insns hquiet
        (fun hv => reshape_computes hcomputes (hvoids hv) hlen) hbase)
  | new constructor =>
    obtain ⟨_, hparams, v, rfl, hwidth⟩ := hfits
    have hnil := h.stack_eq_nil Bool.false_ne_true fun _ h => by cases h
    have hnew : Flows b homes ψ voids before base status.view
        (insn site (.new constructor.owner)) ⟨[1], none, status.kept⟩ := by
      refine .insn rfl (fun _ => ?_) hbase
      rw [view, hnil]
      rfl
    have hdup : Flows b homes ψ voids before base ⟨[1], none, status.kept⟩ (insn site .dup)
        ⟨[1, 1], none, status.kept⟩ := .insn rfl (fun _ => rfl) hbase
    have hoperands : ∀ o ∈ os, Available b homes status.kept o.value ∧
        homeOf homes o.value ≠ .stack ∧ o.Fits := by
      intro o ho
      have hmem : o.value ∈ os.map Operand.value := mem_map_of_mem ho
      exact ⟨h.available hmem, h.not_stack hmem (fun h => by cases h), hos o ho⟩
    obtain ⟨ws, hlen, hloads⟩ : ∃ ws : List Nat, ws.length = os.length ∧
        Flows b homes ψ voids before base ⟨[1, 1], none, status.kept⟩ (loads b homes site os)
          ⟨ws ++ [1, 1], none, status.kept⟩ := flows_loads hoperands (fun _ => rfl) hbase
    refine ((hnew.append hdup).append hloads).append (.insn rfl (fun hv => ?_) hbase)
    have hinit : constructor.type.returns = none := hvoids hv
    have huses : (invoke .special constructor).uses = ws.length + 1 := by
      show 1 + constructor.type.params.length = _
      omega
    have hgives : (invoke .special constructor).gives = none := by
      show constructor.type.returns.map FieldType.width = none
      rw [hinit]
      rfl
    rw [reshape_eq rfl (by rw [huses]; simp), huses, hgives, drop_append,
      Option.map_some, hwidth.eq]
    simp
  | compare lead test =>
    obtain ⟨hquiet, hlead, v, rfl, hwidth⟩ := hfits
    obtain ⟨ws, hlen, hloads⟩ : ∃ ws : List Nat, ws.length = os.length ∧
        Flows b homes ψ voids before base status.view (loads b homes site os)
          ⟨ws, none, status.kept⟩ := flows_operands h Bool.false_ne_true rfl rfl hos hbase
    obtain ⟨cells, hact, huses⟩ := hlead (ws.map (Cell.mk none)) (by rw [length_map, hlen])
    rw [Option.map_some, hwidth.eq]
    exact (hloads.append (.insns hquiet (fun _ => reshapeAll_of_act hact) hbase)).append
      (flows_decision (by rw [length_map, huses]) hbase)
  | store var declares => exact absurd rfl (hvar var declares)
  | inc var delta => exact absurd rfl (hinc var delta)
  | copy => exact flows_copy h Bool.false_ne_true rfl rfl hos hfits hsize hbase
  | caught =>
    obtain ⟨rfl, v, rfl, hwidth⟩ := hfits
    have hstack : status.stack = [⟨none, 1⟩] := h.stack
    refine .nil ?_
    rw [view, hstack, Option.map_some, hwidth.eq]
    exact .refl _

theorem flows_simple {act : Action}
    (h : Meets b homes slot status (.simple act os result)) (hfits : act.Fits b os result)
    (hos : ∀ o ∈ os, o.Fits) (hsize : ∀ o ∈ os, o.value < b.values.size)
    (hvoids : voids → (Operation.simple act os result).InitsVoid) (hbase : base ⊆ status.kept) :
    Flows b homes ψ voids before base status.view
      (simple b homes site status.kept act os result)
      (after b homes status (.simple act os result)).view := by
  by_cases hvar : ∃ v d, act = .store v d
  · obtain ⟨var, declares, rfl⟩ := hvar
    obtain ⟨hlen, rfl, horigin⟩ := hfits
    obtain ⟨ws, hws, hloads⟩ := flows_operands h Bool.false_ne_true rfl rfl hos hbase
    obtain ⟨w, rfl⟩ : ∃ w, ws = [w] := length_eq_one_iff.mp (hws.trans hlen)
    have hslot : ∃ k, homeOf homes var = .slot k ∧ b.Alone homes status.kept var := by
      cases declares with
      | true =>
        have hhome := h.declared var (.head _)
        exact ⟨slot, hhome, h.tidy.alone hhome⟩
      | false =>
        obtain ⟨k, hk⟩ := h.changes var (.head _)
        have hmem : var ∈ (Operation.simple (.store var false) os none).needs :=
          mem_append_right _ (.head _)
        exact ⟨k, hk, h.tidy.apart var (h.kept var hmem k hk)⟩
    obtain ⟨k, hhome, halone⟩ := hslot
    refine Flows.append (hloads.append (flows_storeInto horigin hhome halone hbase)) (.nil ?_)
    refine .plain (fun _ => rfl) fun v hv => ?_
    rcases mem_append.mp hv with hv | hv
    · exact mem_append_left _ hv
    · have hdef := (mem_filter.mp hv).1
      cases declares with
      | true => exact mem_append_right _ hdef
      | false => cases hdef
  · by_cases hinc : ∃ v d, act = .inc v d
    · obtain ⟨var, delta, rfl⟩ := hinc
      obtain ⟨rfl, rfl, horigin, hwidth⟩ := hfits
      have hmem : var ∈ (Operation.simple (.inc var delta) [] none).needs :=
        .head _
      obtain ⟨k, hk⟩ := h.changes var (.head _)
      have hkept := h.kept var hmem k hk
      have hstack := h.stack_eq_nil Bool.false_ne_true fun _ h => by cases h
      refine Flows.append ?_ (.nil (.refl _))
      rw [action, hk]
      refine (Flows.point (.inc hk hkept horigin hwidth (h.tidy.apart var hkept)) hbase
        fun _ _ _ _ _ h => by cases h).weaken (.plain (fun _ => ?_) fun v hv => ?_)
      · rw [view, hstack]
        rfl
      · simpa [after, Operation.defines, view] using hv
    · have hdefines : (Operation.simple act os result).defines = result.toList := by
        cases act with
        | store var declares => exact absurd ⟨var, declares, rfl⟩ hvar
        | _ => rfl
      have haction : Flows b homes ψ voids before base status.view
          (action b homes site status.kept os act)
          ⟨(result.map b.widthOf).toList, none, status.kept⟩ :=
        flows_action h hfits hos hsize hvoids (fun v d hd => hvar ⟨v, d, hd⟩)
          (fun v d hd => hinc ⟨v, d, hd⟩) hbase
      cases result with
      | none =>
        refine haction.append (.nil (.plain (fun _ => rfl) fun v hv => ?_))
        rw [after, hdefines] at hv
        simpa [view] using hv
      | some v =>
        refine haction.append (flows_settle h.tidy
          (h.defines v (by rw [hdefines]; exact .head _)) ?_ ?_ hbase)
        · rw [after, hdefines]
          rfl
        · rw [after, leaves, Body.width_typeOf]
          cases homeOf homes v <;> rfl

end Plot
end ClassAssembler
