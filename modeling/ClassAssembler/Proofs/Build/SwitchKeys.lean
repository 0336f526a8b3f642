import ClassAssembler.Proofs.Build.Built
import ClassAssembler.Proofs.Build.Stepwise

/-!
# Labels of switches

A switch remembers the labels it has taken, and takes none of them twice.
-/

namespace ClassAssembler

open List OrdinalTable

namespace OrdinalTable

theorem getElem?_of_shared {settings : Settings} {tables : OrdinalTable.All} {enumType : ClassName}
    {index : Nat} {row : OrdinalTable} (h : shared? settings tables enumType = some (index, row)) :
    tables[index]? = some row ∧ row.enumType = enumType := by
  unfold shared? at h
  split at h
  · obtain ⟨i, hfind, h⟩ := Option.bind_eq_some_iff.mp h
    obtain ⟨row', hrow, h⟩ := Option.bind_eq_some_iff.mp h
    cases h
    obtain ⟨hlt, htype, _⟩ := Array.findIdx?_eq_some_iff_getElem.mp hfind
    rw [Array.getElem?_eq_getElem hlt] at hrow
    cases hrow
    exact ⟨Array.getElem?_eq_getElem hlt, eq_of_beq htype⟩
  · cases h

end OrdinalTable

def SwitchKind.key? : SwitchKind → CaseLabel → Option CaseKey
  | int, .int n => some (.int n)
  | string, .text text => some (.text text)
  | _, _ => none

namespace Build

variable {σ α : Type} {kind : SwitchKind} {table : Option Nat}

structure Fair (kind : SwitchKind) (table : Option Nat) (d : SwitchDraft) (b : Body) : Prop where
  sameKind : d.kind = kind
  sameTable : d.table = table
  keyed : Keyed b.tables table kind d.arms.toList
  seen : ∀ arm ∈ d.arms, ∀ key ∈ arm.keys, key ∈ d.seen
  noDefault : d.hasDefault = false → d.arms.toList.filter Arm.isDefault = []

structure Taking (kind : SwitchKind) (table : Option Nat) (keys : List CaseKey) (d : SwitchDraft)
    (b : Body) : Prop extends Fair kind table d b where
  taken : ∀ key ∈ keys, kind.Takes b.tables table key
  remembered : ∀ key ∈ keys, key ∈ d.seen
  fresh : ∀ key ∈ keys, ∀ arm ∈ d.arms, key ∉ arm.keys
  different : keys.Nodup

section

variable {d : SwitchDraft} {b b' : Body} {keys : List CaseKey}

theorem Fair.mono (h : Fair kind table d b) (he : OrdinalTable.Extend b.tables b'.tables) :
    Fair kind table d b' :=
  ⟨h.sameKind, h.sameTable, h.keyed.mono he, h.seen, h.noDefault⟩

theorem Fair.taking (h : Fair kind table d b) : Taking kind table [] d b :=
  ⟨h, (fun _ hkey => by cases hkey), (fun _ hkey => by cases hkey), (fun _ hkey => by cases hkey),
    .nil⟩

section

variable (h : Taking kind table keys d b)
include h

theorem Taking.mono (he : OrdinalTable.Extend b.tables b'.tables) :
    Taking kind table keys d b' :=
  ⟨h.toFair.mono he, fun key hkey => (h.taken key hkey).mono he, h.remembered, h.fresh, h.different⟩

theorem Taking.take {key : CaseKey} (hkind : kind.Takes b.tables table key)
    (hnew : d.seen.contains key = false) :
    Taking kind table (keys ++ [key]) { d with seen := d.seen.insert key } b := by
  have hnot : key ∉ d.seen := by
    rw [Std.HashSet.mem_iff_contains, hnew]
    exact Bool.false_ne_true
  have hinsert : ∀ {k}, k ∈ d.seen → k ∈ d.seen.insert key := fun hk =>
    Std.HashSet.mem_insert.mpr (.inr hk)
  refine ⟨⟨h.sameKind, h.sameTable, h.keyed, fun arm harm k hk => hinsert (h.seen arm harm k hk),
    h.noDefault⟩, fun k hk => ?_, fun k hk => ?_, fun k hk arm harm hmem => ?_, ?_⟩
  · rcases mem_append.mp hk with hk | hk
    · exact h.taken k hk
    · cases mem_singleton.mp hk
      exact hkind
  · rcases mem_append.mp hk with hk | hk
    · exact hinsert (h.remembered k hk)
    · cases mem_singleton.mp hk
      exact Std.HashSet.mem_insert_self
  · rcases mem_append.mp hk with hk | hk
    · exact h.fresh k hk arm harm hmem
    · cases mem_singleton.mp hk
      exact hnot (h.seen arm harm key hmem)
  · refine nodup_append.mpr ⟨h.different, by simp, fun x hx y hy heq => ?_⟩
    cases mem_singleton.mp hy
    exact hnot (heq ▸ h.remembered x hx)

theorem Taking.pushArm (isDefault : Bool) (scope : Nat)
    (hdefault : isDefault → keys = [] ∧ d.hasDefault ∧ d.arms.toList.filter Arm.isDefault = []) :
    Fair kind table { d with arms := d.arms.push ⟨keys, isDefault, scope⟩ } b := by
  have hmem : ∀ {arm}, arm ∈ (d.arms.push ⟨keys, isDefault, scope⟩).toList →
      arm ∈ d.arms.toList ∨ arm = ⟨keys, isDefault, scope⟩ := by
    intro arm harm
    rw [Array.toList_push] at harm
    exact (mem_append.mp harm).imp id mem_singleton.mp
  refine ⟨h.sameKind, h.sameTable, ⟨fun arm harm key hkey => ?_, ?_, fun arm harm hd => ?_, ?_,
    h.keyed.row⟩, fun arm harm key hkey => ?_, fun hnone => ?_⟩
  · rcases hmem harm with harm | rfl
    · exact h.keyed.takes arm harm key hkey
    · exact h.taken key hkey
  · rw [Array.toList_push, flatMap_append, flatMap_singleton, nodup_append]
    refine ⟨h.keyed.nodup, h.different, fun x hx y hy heq => ?_⟩
    obtain ⟨arm, harm, hx⟩ := mem_flatMap.mp hx
    exact h.fresh y hy arm (Array.mem_toList_iff.mp harm) (heq ▸ hx)
  · rcases hmem harm with harm | rfl
    · exact h.keyed.unlabelled arm harm hd
    · exact (hdefault hd).1
  · rw [Array.toList_push, filter_append, length_append]
    cases isDefault with
    | false => simpa using h.keyed.oneDefault
    | true =>
      rw [(hdefault rfl).2.2]
      simp
  · rcases hmem (Array.mem_toList_iff.mpr harm) with harm | rfl
    · exact h.seen arm (Array.mem_toList_iff.mp harm) key hkey
    · exact h.remembered key hkey
  · rw [Array.toList_push, filter_append, h.noDefault hnone]
    cases isDefault with
    | false => rfl
    | true =>
      have hsome : d.hasDefault = true := (hdefault rfl).2.1
      rw [show d.hasDefault = false from hnone] at hsome
      cases hsome

end

end

theorem triple_caseKey (keys : List CaseKey) (label : CaseLabel) :
    Triple (Taking kind table keys) (caseKey label : Switch σ CaseKey)
      (fun key d b => Taking kind table keys d b ∧ kind.Takes b.tables table key)
      (Fair kind table) := by
  unfold caseKey
  refine Triple.bind (J := fun k d b => Taking kind table keys d b ∧ k = kind)
    (fun w h => ⟨h, h.sameKind⟩) fun k => ?_
  refine Triple.bind (J := fun t d b => Taking kind table keys d b ∧ k = kind ∧ t = table)
    (fun w h => ⟨h.1, h.2, h.1.sameTable⟩) fun t => ?_
  split
  · rintro w ⟨h, rfl, _⟩
    exact ⟨h, trivial⟩
  · rintro w ⟨h, rfl, _⟩
    exact ⟨h, trivial⟩
  · next type accessor t text =>
    split
    · exact .fail _ fun _ _ h => h.1.toFair
    · next constant _ =>
      refine Triple.bind (J := fun v d b => Taking kind table keys d b ∧
        kind.Takes b.tables table (.index v)) (.change fun d b h => ?_) fun v w h => h
      obtain ⟨h, rfl, rfl⟩ := h
      obtain ⟨t', row, ht', hrow, _⟩ := h.keyed.row type accessor rfl
      cases ht'
      have hlt := (Array.getElem?_eq_some_iff.mp hrow).1
      rw [hrow]
      refine ⟨h.mono (.enter hrow constant), t, (row.enter constant).2, (row.enter constant).1, rfl,
        ?_, ?_, rfl⟩
      · exact Array.getElem?_setIfInBounds_self_of_lt hlt
      · exact (Array.getElem?_eq_some_iff.mp (row.getElem?_enter constant)).1
  · exact .fail _ fun _ _ h => h.1.toFair

theorem triple_takeLabel (keys : List CaseKey) (label : CaseLabel) :
    Triple (Taking kind table keys) (takeLabel label : Switch σ CaseKey)
      (fun key => Taking kind table (keys ++ [key])) (Fair kind table) := by
  refine (triple_caseKey keys label).bind fun key => ?_
  refine Triple.bind (J := fun known d b => Fair kind table d b ∧ (known = false → Taking kind table
    (keys ++ [key]) d b)) (fun w h => ⟨?_, fun hnew => h.1.take h.2 hnew⟩) fun known => ?_
  · exact ⟨h.1.sameKind, h.1.sameTable, h.1.keyed, fun arm harm k hk =>
      Std.HashSet.mem_insert.mpr (.inr (h.1.seen arm harm k hk)), h.1.noDefault⟩
  · cases known with
    | true => exact fun w h => h.1
    | false => exact fun w h => h.2 rfl

theorem triple_takeLabels (keys : List CaseKey) (labels : List CaseLabel) :
    Triple (Taking kind table keys) (labels.mapM takeLabel : Switch σ (List CaseKey))
      (fun taken => Taking kind table (keys ++ taken)) (Fair kind table) := by
  induction labels generalizing keys with
  | nil =>
    rw [mapM_nil]
    intro w h
    show Taking kind table (keys ++ []) w.carried.1 w.body
    rwa [List.append_nil]
  | cons label labels ih =>
    rw [mapM_cons]
    refine (triple_takeLabel keys label).bind fun key => (ih (keys ++ [key])).bind fun taken => ?_
    intro w h
    rw [List.append_assoc] at h
    exact h

theorem triple_armBlock {I : SwitchDraft → Body → Prop} {block : Build σ Unit}
    (hblock : Stepwise true block)
    (hI : ∀ d b b', I d b → OrdinalTable.Extend b.tables b'.tables → I d b')
    (hE : ∀ d b, I d b → Fair kind table d b) : Triple I (outside block) (fun _ => I)
      (Fair kind table) := by
  refine (Triple.of_after ?_).weaken_error hE
  rintro ⟨b, d, s⟩ h
  rw [after_outside]
  exact hI d _ _ h (hblock ⟨b, s⟩).tables

variable {block : Block σ} {b : Body} {d : SwitchDraft} {s : σ}

theorem fair_arm {I : SwitchDraft → Body → Prop} (scopeKind : ScopeKind) (keys : List CaseKey)
    (isDefault : Bool) (hblock : ∀ c, Stepwise true (block c))
    (hI : ∀ d b b', I d b → OrdinalTable.Extend b.tables b'.tables → I d b')
    (hE : ∀ d b, I d b → Fair kind table d b)
    (hpush : ∀ d b scope, I d b → Fair kind table { d with arms := d.arms.push ⟨keys, isDefault,
      scope⟩ } b) :
    Triple I (arm scopeKind keys isDefault block) (fun _ => Fair kind table) (Fair kind table) := by
  refine Triple.bind (J := fun _ => I) (fun w h => h) fun frame => ?_
  refine Triple.bind (J := fun _ => I) (.change fun d b h => hI d b _ h (.refl _)) fun scope => ?_
  exact (triple_armBlock (hblock scope) hI hE).bind fun _ => .redraft fun d b h => hpush d b scope h

theorem fair_case (labels : List CaseLabel) (hblock : ∀ c, Stepwise true (block c)) :
    Triple (Fair kind table) (case labels block) (fun _ => Fair kind table) (Fair kind table) := by
  refine Triple.pre (I := Taking kind table []) (fun _ _ h => h.taking) ?_
  refine (triple_takeLabels [] labels).bind fun keys => ?_
  rw [List.nil_append]
  exact fair_arm _ keys false hblock (fun _ _ _ h he => h.mono he) (fun _ _ h => h.toFair)
    fun _ _ scope h => h.pushArm false scope (by simp)

theorem fair_defaultCase (hblock : ∀ c, Stepwise true (block c)) :
    Triple (Fair kind table) (defaultCase block) (fun _ => Fair kind table) (Fair kind table) := by
  refine (Triple.draft _).bind fun known => ?_
  cases known with
  | true => exact fun w h => h.1
  | false =>
    refine Triple.bind (J := fun _ d b => Fair kind table d b ∧ d.hasDefault ∧
      d.arms.toList.filter Arm.isDefault = []) (.redraft fun d b h => ?_) fun _ => ?_
    · exact ⟨⟨h.1.sameKind, h.1.sameTable, h.1.keyed, h.1.seen, fun hd => by cases hd⟩, rfl,
        h.1.noDefault h.2.symm⟩
    · exact fair_arm _ [] true hblock (fun _ _ _ h he => ⟨h.1.mono he, h.2⟩) (fun _ _ h => h.1)
        fun _ _ scope h => h.1.taking.pushArm true scope fun _ => ⟨rfl, h.2⟩

namespace Stepwise

variable {mayInit : Bool}

theorem tableIndex (table : Nat) (constant : MemberName) :
    Stepwise mayInit (tableIndex table constant : Build σ Int32) := by
  refine change fun b => ?_
  split
  · exact .refl
  · next row hrow => exact .one (.enter b table row constant hrow)

theorem takeLabel (label : CaseLabel) : Stepwise mayInit (takeLabel label : Switch σ CaseKey) := by
  refine bind (bind (draft _) fun kind => bind (draft _) fun table => ?_) fun key =>
    bind (carry _) fun known => ?_
  · split
    · exact pure _
    · exact pure _
    · split
      · exact fail _
      · exact (tableIndex _ _).bind fun _ => pure _
    · exact fail _
  · split
    · exact fail_bind _ _
    · exact pure _

variable {block : Block σ}

theorem arm (kind : ScopeKind) (keys : List CaseKey) (isDefault : Bool)
    (hblock : ∀ c, Stepwise mayInit (block c)) : Stepwise mayInit (arm kind keys isDefault block) :=
  (draft _).bind fun _ => (openScope _ _).bind fun c => (hblock c).outside.bind fun _ => redraft _

theorem case (labels : List CaseLabel) (hblock : ∀ c, Stepwise mayInit (block c)) :
    Stepwise mayInit (case labels block) :=
  (mapM takeLabel labels).bind fun keys => arm _ keys false hblock

theorem defaultCase (hblock : ∀ c, Stepwise mayInit (block c)) :
    Stepwise mayInit (defaultCase block) := by
  refine (draft _).bind fun known => ?_
  split
  · exact fail_bind _ _
  · exact (redraft _).bind fun _ => arm _ [] true hblock

end Stepwise

theorem fair_start (frame : Nat)
    (hrow : ∀ type accessor, kind = .enum type accessor → ∃ t row, table = some t ∧
      b.tables[t]? = some row ∧ row.enumType = type ∧ row.accessor = accessor) :
    Fair kind table { kind, table, frame } b :=
  ⟨rfl, rfl, ⟨(fun arm harm => by cases harm), .nil, (fun arm harm => by cases harm),
    Nat.zero_le _, hrow⟩, (fun arm harm => absurd harm (Array.not_mem_empty arm)), fun _ => rfl⟩

theorem steps_switchOn {here : Nat} {selector : Operand}
    {arms : Switch σ Unit} (hsteps : Stepwise true arms) (hfair : Triple (Fair kind table) arms
      (fun _ => Fair kind table) (Fair kind table))
    {w : Work σ} {info : ValueInfo} (hinfo : w.body.values[selector.value]? = some info)
    (hconverts : kind.Converts info.type selector.coercion)
    (hrow : ∀ type accessor, kind = .enum type accessor → ∃ t row, table = some t ∧
      w.body.tables[t]? = some row ∧ row.enumType = type ∧ row.accessor = accessor) :
    w.body.Steps true (after (switchOn here kind table selector arms) w).body := by
  have hopen : w.body.Steps true (w.body.openScope (some here) .switchFrame).2 :=
    .one (.openScope w.body here .switchFrame)
  have hboth : Triple (fun d b => Fair kind table d b ∧ w.body.Steps true b) arms
      (fun _ d b => Fair kind table d b ∧ w.body.Steps true b)
      (fun d b => Fair kind table d b ∧ w.body.Steps true b) :=
    .of_after fun v h => ⟨hfair.ends h.1, h.2.trans (hsteps v)⟩
  refine hboth.withDraft (Q := w.body.Steps true)
    (w := ⟨(w.body.openScope (some here) .switchFrame).2, w.carried⟩) ⟨fair_start _ hrow, hopen⟩
    (fun _ _ h => h.2) fun d w' h => ?_
  exact h.2.step (.pushSwitch w'.body here _ table rfl h.1.keyed ⟨info, h.2.values hinfo,
    hconverts⟩)

theorem steps_tableFor (mayInit : Bool) (enumType : ClassName) (w : Work σ) :
    w.body.Steps mayInit (after (tableFor enumType) w).body ∧
      ∀ t accessor w', tableFor enumType w = .ok (t, accessor) w' →
        ∃ row, w'.body.tables[t]? = some row ∧ row.enumType = enumType ∧ row.accessor =
          accessor := by
  cases hshared : shared? w.body.settings w.body.tables enumType with
  | some shared =>
    obtain ⟨index, row⟩ := shared
    have hrun : tableFor enumType w = .ok (index, row.accessor) w := by
      simp only [tableFor, bind, EStateM.bind, see, hshared]
      rfl
    rw [after_of_ok hrun]
    refine ⟨.refl, fun t accessor w' h => ?_⟩
    rw [hrun] at h
    cases h
    obtain ⟨hrow, htype⟩ := getElem?_of_shared hshared
    exact ⟨row, hrow, htype, rfl⟩
  | none =>
    cases hcreate : create w.body.settings w.body.method.owner enumType
        (siblings w.body.tables enumType) with
    | error e =>
      have hrun : tableFor enumType w = .error e w := by
        simp only [tableFor, bind, EStateM.bind, see, hshared, hcreate]
        rfl
      rw [after_of_error hrun]
      refine ⟨.refl, fun t accessor w' h => ?_⟩
      rw [hrun] at h
      cases h
    | ok row =>
      have hrun : tableFor enumType w = .ok (w.body.tables.size, row.accessor) ⟨{ w.body with
          notices := w.body.notices.push (.tableCreated row.field enumType)
          tables := w.body.tables.push row }, w.carried⟩ := by
        simp only [tableFor, bind, EStateM.bind, see, hshared, hcreate]
        rfl
      rw [after_of_ok hrun]
      refine ⟨.one (.addTable w.body enumType row _ hshared hcreate), fun t accessor w' h => ?_⟩
      rw [hrun] at h
      cases h
      exact ⟨row, Array.getElem?_push_size, (types_of_create hcreate).1, rfl⟩

theorem caseKey_of_key? {label : CaseLabel} {key : CaseKey}
    (h : d.kind.key? label = some key) : caseKey label ⟨b, d, s⟩ = .ok key ⟨b, d, s⟩ := by
  obtain ⟨kind, table, frame, arms, seen, hasDefault, fallthrough⟩ := d
  cases kind <;> cases label <;> cases h <;> rfl

theorem takeLabel_of_new {label : CaseLabel} {key : CaseKey}
    (hkey : d.kind.key? label = some key) (hnew : key ∉ d.seen) :
    takeLabel label ⟨b, d, s⟩ = .ok key ⟨b, { d with seen := d.seen.insert key }, s⟩ := by
  rw [takeLabel, bind_of_ok (caseKey_of_key? hkey)]
  have hcarry : (carry fun carried => (carried.1.seen.contains key,
      ({ carried.1 with seen := carried.1.seen.insert key }, carried.2)) : Switch σ Bool)
        ⟨b, d, s⟩ =
      .ok false ⟨b, { d with seen := d.seen.insert key }, s⟩ := by
    rw [carry, Std.HashSet.contains_eq_false_iff_not_mem.mpr hnew]
  rw [bind_of_ok hcarry]
  rfl

theorem takeLabels_of_new {labels : List CaseLabel} {keys : List CaseKey}
    (hkeys : labels.map d.kind.key? = keys.map some)
    (hnodup : keys.Nodup) (hnew : ∀ key ∈ keys, key ∉ d.seen) :
    ∃ seen : Std.HashSet CaseKey, (∀ key, key ∈ seen ↔ key ∈ keys ∨ key ∈ d.seen) ∧
      labels.mapM takeLabel ⟨b, d, s⟩ = .ok keys ⟨b, { d with seen := seen }, s⟩ := by
  induction labels generalizing keys d with
  | nil =>
    cases keys with
    | nil => exact ⟨d.seen, by simp, rfl⟩
    | cons key keys => cases hkeys
  | cons label labels ih =>
    cases keys with
    | nil => cases hkeys
    | cons key keys =>
      obtain ⟨hkey, hkeys⟩ := List.cons.inj hkeys
      obtain ⟨hfresh, hnodup⟩ := nodup_cons.mp hnodup
      obtain ⟨seen, hseen, hrun⟩ := ih (d := { d with seen := d.seen.insert key }) hkeys hnodup
        fun other hother hmem => by
          rcases Std.HashSet.mem_insert.mp hmem with heq | hmem
          · exact hfresh (eq_of_beq heq ▸ hother)
          · exact hnew other (mem_cons_of_mem _ hother) hmem
      refine ⟨seen, fun other => ?_, ?_⟩
      · rw [hseen, Std.HashSet.mem_insert, mem_cons, beq_iff_eq, eq_comm]
        exact or_left_comm.trans or_assoc.symm
      · rw [mapM_cons,
          bind_of_ok (takeLabel_of_new hkey (hnew key mem_cons_self)), bind_of_ok hrun]
        rfl

theorem case_of_new (labels : List CaseLabel) (keys : List CaseKey) (block : Block σ) (b : Body)
    (d : SwitchDraft) (s : σ) {b' : Body} {s' : σ} (hkeys : labels.map d.kind.key? = keys.map some)
    (hnodup : keys.Nodup) (hnew : ∀ key ∈ keys, key ∉ d.seen)
    (hblock : block b.scopes.size ⟨(b.openScope (some d.frame) .switchCase).2, s⟩ = .ok ()
      ⟨b', s'⟩) :
    ∃ seen : Std.HashSet CaseKey, (∀ key, key ∈ seen ↔ key ∈ keys ∨ key ∈ d.seen) ∧
      case labels block ⟨b, d, s⟩ = .ok () ⟨b', { d with
        seen := seen, arms := d.arms.push ⟨keys, false, b.scopes.size⟩ }, s'⟩ := by
  obtain ⟨seen, hseen, htake⟩ := takeLabels_of_new (b := b) (s := s) hkeys hnodup hnew
  refine ⟨seen, hseen, ?_⟩
  have hopen : openScope d.frame .switchCase (⟨b, { d with seen := seen }, s⟩ : Work
    (SwitchDraft × σ)) =
      .ok b.scopes.size ⟨(b.openScope (some d.frame) .switchCase).2, { d with seen := seen }, s⟩ :=
        rfl
  have hdraft : (draft SwitchDraft.frame : Switch σ Nat) ⟨b, { d with seen := seen }, s⟩ =
      .ok d.frame ⟨b, { d with seen := seen }, s⟩ := rfl
  have hout : outside (block b.scopes.size) (⟨(b.openScope (some d.frame) .switchCase).2,
      { d with seen := seen }, s⟩ : Work (SwitchDraft × σ)) =
      .ok () ⟨b', { d with seen := seen }, s'⟩ := by
    simp only [outside, hblock]
  rw [case, bind_of_ok htake, arm, bind_of_ok hdraft, bind_of_ok hopen, bind_of_ok hout]
  rfl

theorem withDraft_of_ok {δ : Type} {m : Build (δ × σ) Unit} {b b' : Body} {d d' : δ} {s s' : σ}
    (h : m ⟨b, d, s⟩ = .ok () ⟨b', d', s'⟩) : withDraft d m ⟨b, s⟩ = .ok d' ⟨b', s'⟩ := by
  simp only [withDraft, h]

theorem switchOn_of_ok {here : Nat} {kind : SwitchKind} {o : Operand} {arms : Switch σ Unit}
    {b b' : Body} {d : SwitchDraft} {s s' : σ}
    (harms : arms ⟨(b.openScope (some here) .switchFrame).2,
      { kind, table := none, frame := b.scopes.size }, s⟩ = .ok () ⟨b', d, s'⟩) :
    switchOn here kind none o arms ⟨b, s⟩ = .ok () ⟨b'.push here (.switch {
      kind, selector := o, frame := b.scopes.size
      arms := d.arms.toList, fallthrough := d.fallthrough }), s'⟩ :=
  (bind_of_ok (show openScope here .switchFrame ⟨b, s⟩ = .ok b.scopes.size _ from rfl)).trans
    (bind_of_ok (withDraft_of_ok harms))

/-- The arms of a switch are added in steps, and keep it fair. -/
structure FairSteps (arms : Switch σ α) : Prop where
  steps : Stepwise true arms
  fair : ∀ kind table, Triple (Fair kind table) arms (fun _ => Fair kind table) (Fair kind table)

namespace Stepwise

variable {here : Nat} {arms : Switch σ Unit}

section

variable (selector : Value) (harms : FairSteps arms)
include harms

theorem switchInt :
    Stepwise true (switchInt here selector arms) := by
  refine find_bind (.operand selector _) fun o w ho => ?_
  obtain ⟨info, hinfo, hconverts, _⟩ := ho.1.value
  exact steps_switchOn harms.steps (harms.fair _ _) hinfo hconverts fun _ _ h => nomatch h

theorem switchString : Stepwise true (switchString here selector arms) := by
  refine find_bind (.operand selector _) fun o w ho => ?_
  obtain ⟨info, hinfo, hconverts, _⟩ := ho.1.value
  exact steps_switchOn harms.steps (harms.fair _ _) hinfo hconverts fun _ _ h => nomatch h

theorem switchEnum :
    Stepwise true (switchEnum here selector arms) := by
  refine find_bind (.typeOf selector) fun type w htype => ?_
  split
  · next enumType =>
    have hfinds : Finds (Build.operandAsIs here selector : Build σ Operand) _ :=
      .operandAsIs selector
    rcases hfinds w with ⟨o, hr, ho⟩ | ⟨e, hr⟩
    case inr =>
      rw [after, bind_of_error hr]
      exact .refl
    rw [after, bind_of_ok hr]
    obtain ⟨seen, hseen, htype⟩ := htype
    obtain ⟨info, hinfo, ho, hvalue⟩ := ho
    cases Option.some.inj (hseen.symm.trans hinfo)
    obtain ⟨same, hsame, hconverts, _⟩ := ho.value
    rw [hvalue, hinfo] at hsame
    cases hsame
    rw [coercion_self] at hconverts
    rw [← hvalue] at hinfo
    obtain ⟨hsteps, hrow⟩ := steps_tableFor true enumType w
    cases hr : tableFor enumType w with
    | error e w' =>
      rw [after_of_error hr] at hsteps
      rw [bind_of_error hr]
      exact hsteps
    | ok found w' =>
      obtain ⟨t, accessor⟩ := found
      rw [after_of_ok hr] at hsteps
      rw [bind_of_ok hr]
      refine hsteps.trans (steps_switchOn harms.steps (harms.fair _ _) (hsteps.values hinfo)
        ⟨htype, hconverts⟩ fun type accessor' h => ?_)
      cases h
      obtain ⟨row, hrow, htype, haccessor⟩ := hrow t accessor w' hr
      exact ⟨t, row, rfl, hrow, htype, haccessor⟩
  · exact mismatch _ _ w

end

end Stepwise

mutual

theorem Writes.stepwise {σ : Type} {here : Nat} {α : Type} {m : Build σ α} :
    Writes σ here α m → Stepwise true m
  | .pure a => .pure a
  | .fail e => .fail e
  | .carry f => .carry f
  | .bind hm hf => hm.stepwise.bind fun a => (hf a).stepwise
  | .attempt hm => hm.stepwise.attempt
  | .call h => h.stepwise
  | .ifThen cond hblock => Stepwise.follows.ifThen cond fun c => (hblock c).stepwise
  | .ifElse cond htrue hfalse =>
    Stepwise.follows.ifElse cond (fun c => (htrue c).stepwise) fun c => (hfalse c).stepwise
  | .block hblock => Stepwise.follows.nest fun c => (hblock c).stepwise
  | .whileLoop htest hbody =>
    Stepwise.follows.whileLoop (fun c => (htest c).stepwise) fun c => (hbody c).stepwise
  | .loop hbody => Stepwise.follows.loop fun c => (hbody c).stepwise
  | .forEachArray array hbody => Stepwise.follows.forEachArray array fun c v => (hbody c v).stepwise
  | .forEachIterable iterable hbody =>
    Stepwise.follows.forEachIterable iterable fun c v => (hbody c v).stepwise
  | .tryCatch hparts => .tryCatch hparts.stepwise
  | .switchInt selector harms => .switchInt selector harms.fairSteps
  | .switchString selector harms => .switchString selector harms.fairSteps
  | .switchEnum selector harms => .switchEnum selector harms.fairSteps

theorem WritesTry.stepwise {σ : Type} {α : Type} {m : Try σ α} :
    WritesTry σ α m → Stepwise true m
  | .pure a => .pure a
  | .fail e => .fail e
  | .carry f => (Stepwise.carry f).outside
  | .bind hm hf => hm.stepwise.bind fun a => (hf a).stepwise
  | .attempt hm => hm.stepwise.attempt
  | .body hblock => .tryBody fun c => (hblock c).stepwise
  | .catchClause caught hblock => .catchClause caught fun c v => (hblock c v).stepwise
  | .finallyBlock hblock => .finallyBlock fun c => (hblock c).stepwise

theorem WritesSwitch.fairSteps {σ : Type} {α : Type} {m : Switch σ α} :
    WritesSwitch σ α m → FairSteps m
  | .pure a => ⟨.pure a, fun _ _ => .pure a⟩
  | .fail e => ⟨.fail e, fun _ _ => .fail e fun _ _ h => h⟩
  | .carry f => ⟨(Stepwise.carry f).outside, fun _ _ _ h => h⟩
  | .bind hm hf =>
    ⟨hm.fairSteps.steps.bind fun a => (hf a).fairSteps.steps, fun kind table =>
      (hm.fairSteps.fair kind table).bind fun a => (hf a).fairSteps.fair kind table⟩
  | .attempt hm =>
    ⟨hm.fairSteps.steps.attempt, fun kind table => (hm.fairSteps.fair kind table).attempt⟩
  | .case labels hblock =>
    ⟨.case labels fun c => (hblock c).stepwise, fun _ _ => fair_case labels fun c =>
      (hblock c).stepwise⟩
  | .defaultCase hblock =>
    ⟨.defaultCase fun c => (hblock c).stepwise, fun _ _ => fair_defaultCase fun c =>
      (hblock c).stepwise⟩
  | .setFallthrough fallthrough => ⟨.redraft _, fun _ _ => .redraft fun _ _ h =>
      ⟨h.sameKind, h.sameTable, h.keyed, h.seen, h.noDefault⟩⟩
  | .target => ⟨(Stepwise.draft _).bind fun _ => .see _, fun _ _ _ h => h⟩

end

end Build

namespace Body

/-- Every switch of a body has different labels of its kind, and a selector that it goes by. -/
def KeyedSwitches (b : Body) : Prop :=
  ∀ s S, .switch S ∈ b.operations s →
    (∃ table, Keyed b.tables table S.kind S.arms) ∧ S.Reads b.values

variable {b : Body}

theorem KeyedSwitches.step {b b' : Body} (h : b.KeyedSwitches) (hstep : Step true b b') :
    b'.KeyedSwitches := by
  have htables := (Steps.one hstep).tables
  have hold : ∀ {s S}, .switch S ∈ b.operations s →
      (∃ table, Keyed b'.tables table S.kind S.arms) ∧ S.Reads b'.values := by
    intro s S hS
    obtain ⟨⟨table, hkeyed⟩, info, hinfo, hconverts⟩ := h s S hS
    exact ⟨⟨table, hkeyed.mono htables⟩, info, (Steps.one hstep).values hinfo, hconverts⟩
  intro s S hS
  cases hstep with
  | push t op hop =>
    rcases of_mem_operations_push hS with hS | ⟨_, heq⟩
    · exact hold hS
    · exact absurd heq.symm (hop S)
  | pushSwitch t S' table _ hkeyed hreads =>
    rcases of_mem_operations_push hS with hS | ⟨_, heq⟩
    · exact hold hS
    · cases heq
      exact ⟨⟨table, hkeyed⟩, hreads⟩
  | openScope parent kind =>
    rw [operations_openScope] at hS
    exact hold hS
  | _ => exact hold hS

theorem Steps.noSwitch {b b' : Body} (h : b.Steps false b')
    (hb : ∀ s S, .switch S ∉ b.operations s) (s : Nat) (S : SwitchStatement) :
    .switch S ∉ b'.operations s := by
  refine h.preserves (P := fun b => ∀ s S, .switch S ∉ b.operations s) ?_ hb s S
  intro c c' hstep hc s S hS
  cases hstep with
  | push t op hop =>
    rcases of_mem_operations_push hS with hS | ⟨_, heq⟩
    · exact hc s S hS
    · exact hop S heq.symm
  | pushSwitch t S' table hmay => cases hmay
  | openScope parent kind => exact hc s S (operations_openScope _ _ _ _ ▸ hS)
  | _ => exact hc s S hS

theorem Built.exists_steps (h : Built b) :
    ∃ b0 : Body, (∀ s, b0.operations s = []) ∧ b0.Steps true b := by
  cases h with
  | first hb hprogram => exact ⟨_, hb.bare.2.2.1, hprogram.stepwise ⟨_, _⟩⟩
  | next _ hb hprogram => exact ⟨_, hb.bare.2.2.1, hprogram.stepwise ⟨_, _⟩⟩

theorem Built.keyedSwitches (h : Built b) : b.KeyedSwitches := by
  obtain ⟨b0, hempty, hsteps⟩ := h.exists_steps
  refine hsteps.preserves (fun hstep hc => hc.step hstep) fun s S hS => ?_
  rw [hempty] at hS
  cases hS

theorem Built.keyed {b b' : Body} (h : Built b) (hinit : b.completeInit = .ok b') :
    b'.KeyedSwitches := by
  have hsame : b'.tables = b.tables ∧ b'.values = b.values := by
    rcases completeInit_cases hinit with rfl | ⟨_, rfl⟩ <;> exact ⟨rfl, rfl⟩
  intro s S hS
  rw [hsame.1, hsame.2]
  rcases mem_of_completeInit h.finished.sound hinit hS with hS | heq
  · exact h.keyedSwitches s S hS
  · cases heq

end Body
end ClassAssembler
