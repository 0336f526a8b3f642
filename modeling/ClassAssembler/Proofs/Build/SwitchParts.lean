import ClassAssembler.Proofs.Build.Draft

/-!
# Switches under construction

While its arms are added, a switch is a draft beside the body.
-/

namespace ClassAssembler

open List OrdinalTable

theorem OrdinalTable.accessor_enter (table : OrdinalTable) (constant : MemberName) :
    (table.enter constant).2.accessor = table.accessor := by
  unfold enter
  split <;> rfl

variable {settings : Settings}

theorem OrdinalTable.mem_of_shared {tables : OrdinalTable.All}
    {enumType : ClassName} {index : Nat} {table : OrdinalTable}
    (h : shared? settings tables enumType = some (index, table)) : table ∈ tables := by
  unfold shared? at h
  split at h
  · cases hfind : tables.findIdx? (·.enumType == enumType) with
    | none => simp [hfind] at h
    | some i =>
      cases hget : tables[i]? with
      | none => simp [hfind, hget] at h
      | some t =>
        simp [hfind, hget] at h
        exact h.2 ▸ Array.mem_of_getElem? hget
  · cases h

theorem OrdinalTable.types_of_create {owner enumType : ClassName}
    {siblings : Nat} {table : OrdinalTable}
    (h : create settings owner enumType siblings = .ok table) :
    table.enumType = enumType ∧ table.accessor.type = ⟨[], some rowType⟩ := by
  unfold create at h
  simp only [bind, Except.bind] at h
  split at h
  · cases h
  · split at h
    · cases h
    · cases h
      exact ⟨rfl, rfl⟩

theorem OrdinalTable.fault_of_create {owner enumType : ClassName} {siblings : Nat} {e : Fault}
    (h : create settings owner enumType siblings = .error e) : ∃ flaw, e = .malformedName flaw := by
  have hname : ∀ {start : MemberName} {nameEnd : String} {e : Fault},
      memberName start nameEnd = .error e → ∃ flaw, e = .malformedName flaw := by
    intro start nameEnd e he
    unfold memberName at he
    split at he
    · cases he
    · next flaw _ =>
      cases he
      exact ⟨flaw, rfl⟩
  unfold create at h
  simp only [bind, Except.bind] at h
  split at h
  · next hfield =>
    cases h
    exact hname hfield
  · split at h
    · next hmethod =>
      cases h
      exact hname hmethod
    · cases h

namespace Build

variable {σ : Type} {base : Body} {here : Nat} {P : Body → Prop}

/-- A scope opened since `base` that can take operations and that no operation holds. -/
structure FreshPart (base : Body) (frame c : Nat) (b : Body) : Prop where
  new : base.scopes.size ≤ c
  child : b.Child frame c
  unowned : ∀ s, c ∉ b.owned s

theorem stable_freshPart (base : Body) (frame c : Nat) : Stable (FreshPart base frame c) := by
  intro b b' _ hg h
  refine ⟨h.new, h.child.mono hg.toExtends, fun s hown => h.unowned s (hg.owned s c hown ?_)⟩
  exact Body.lt_size_of_parentOf h.child.1

/-- A switch under construction, whose frame was opened between `base` and `start`. -/
structure Switching (base start : Body) (here frame : Nat) (d : SwitchDraft) (b : Body) : Prop where
  ready : b.Ready here
  grows : start.Grows b here
  same : d.frame = frame
  fresh : Fresh base here .switchFrame frame b
  arms : ∀ arm ∈ d.arms, FreshPart start frame arm.scope b
  nodup : (d.arms.toList.map Arm.scope).Nodup

namespace Switching

variable {start : Body} {frame : Nat} {d d' : SwitchDraft} {b b' : Body}

variable (h : Switching base start here frame d b)
include h

theorem mono (hready : b'.Ready here) (hg : b.Grows b' here) (hframe : d'.frame = d.frame)
    (harms : d'.arms = d.arms) : Switching base start here frame d' b' where
  ready := hready
  grows := h.grows.trans hg
  same := hframe.trans h.same
  fresh := stable_fresh _ _ _ (by decide) b b' _ hg h.fresh
  arms arm harm := stable_freshPart _ _ _ b b' _ hg (h.arms arm (harms ▸ harm))
  nodup := by rw [harms]; exact h.nodup

theorem enter {c : Nat} (hc : FreshPart start frame c b) : b.Ready c := by
  have hopen : b.Open frame :=
    h.ready.open_child h.fresh.parent (by rw [h.fresh.isKind]; decide) (h.fresh.unowned here)
  refine h.ready.into hc.child.2.1 fun hupdate =>
    hopen.enter h.ready.collects hc.child.1 hupdate (hc.unowned _) fun hf => ?_
  have hk := h.ready.collects.kindOf_trying hf
  rw [h.fresh.isKind] at hk
  cases hk

theorem leave {c : Nat} (hc : FreshPart start frame c b) (hready : b'.Ready c) (hg : b.Grows b' c) :
    Switching base start here frame d b' := by
  have hframe := hg.parentOf h.fresh.parent
  have hchild := hg.parentOf hc.child.1
  have hd := hready.sound.descends
  have hopen := (hready.isOpen.leave hd hchild).leave hd hframe
  exact h.mono (hready.back hopen h.ready hg.toExtends)
    (hg.outer (.step hchild (.of_parent hframe)) hd hready.isOpen) rfl rfl

end Switching

abbrev KeepsSwitch {α : Type} (m : Switch σ α) : Prop :=
  ∀ base start here frame, Triple (Switching base start here frame) m
    (fun _ => Switching base start here frame) (Switching base start here frame)

theorem keeps_switchTarget : KeepsSwitch (switchTarget : Switch σ Target) := by
  intro base start here frame
  exact (Triple.draft _).bind fun _ => .weaken (I := Switching base start here frame)
    (J := fun _ => Switching base start here frame) (fun w hI => hI) (fun _ _ h => h.1)
      fun _ _ _ h => h

theorem keeps_setFallthrough (fallthrough : Bool) :
    KeepsSwitch (setFallthrough fallthrough : Switch σ Unit) := by
  intro base start here frame
  exact .redraft fun d b h => h.mono h.ready (.refl b _) rfl rfl

theorem keeps_tableIndex (table : Nat) (constant : MemberName) :
    KeepsSwitch (tableIndex table constant : Switch σ Int32) := by
  intro base start here frame
  refine .change fun d b h => ?_
  have haccessors := h.ready.collects.accessors
  split
  · exact h
  · next row hrow =>
    have haccess : ∀ t ∈ b.tables.setIfInBounds table (row.enter constant).2,
        t.accessor.type = ⟨[], some rowType⟩ := by
      intro t ht
      rcases Array.mem_or_eq_of_mem_setIfInBounds ht with ht | rfl
      · exact haccessors t ht
      · rw [row.accessor_enter]
        exact haccessors row (Array.mem_of_getElem? hrow)
    obtain ⟨hready, hg⟩ := h.ready.congr { b with
      tables := b.tables.setIfInBounds table (row.enter constant).2 }
      rfl rfl rfl rfl rfl rfl rfl rfl haccess
    exact h.mono hready hg rfl rfl

theorem keeps_caseKey (label : CaseLabel) : KeepsSwitch (caseKey label : Switch σ CaseKey) := by
  intro base start here frame
  unfold caseKey
  refine (Triple.draft _).bind fun kind => (Triple.draft _).bind fun table => ?_
  refine .weaken (I := Switching base start here frame) (J := fun _ => Switching base start here
    frame) ?_ (fun _ _ h => h.1.1) fun _ _ _ h => h
  split
  · exact .pure _
  · exact .pure _
  · split
    · exact .fail _ fun _ _ h => h
    · exact (keeps_tableIndex _ _ base start here frame).bind fun _ => .pure _
  · exact .fail _ fun _ _ h => h

theorem keeps_takeLabel (label : CaseLabel) : KeepsSwitch (takeLabel label : Switch σ CaseKey) := by
  intro base start here frame
  refine (keeps_caseKey label base start here frame).bind fun key => ?_
  refine Triple.bind (J := fun _ => Switching base start here frame)
    (fun w h => h.mono h.ready (.refl _ _) rfl rfl) fun known => ?_
  split
  · exact fun w h => h
  · exact .pure _

abbrev ArmOpened (base start : Body) (here frame c : Nat) (d : SwitchDraft) (b : Body) : Prop :=
  Switching base start here frame d b ∧ FreshPart start frame c b ∧ ∀ arm ∈ d.arms, arm.scope ≠ c

theorem triple_openArm {kind : ScopeKind} (hk : kind.isPlain ∧ kind ≠ .loop)
    (hne : kind ≠ .tryFrame)
    {base start : Body} {here frame parent : Nat} {E : SwitchDraft → Body → Prop} :
    Triple (fun d b => Switching base start here frame d b ∧ parent = d.frame)
      (openScope parent kind : Switch σ Nat) (fun c => ArmOpened base start here frame c) E := by
  refine .change ?_
  rintro d b ⟨h, rfl⟩
  rw [h.same]
  have hlt := Body.lt_size_of_parentOf h.fresh.parent
  refine ⟨h.mono (h.ready.openScope hlt hne) ((Body.Grows.refl b _).openScope _ _) rfl rfl, ?_, ?_⟩
  · refine ⟨h.grows.size, ⟨b.parentOf_new _ _, by rw [Body.openScope_fst, b.kindOf_new]; exact hk⟩,
      fun s hown => ?_⟩
    rw [Body.owned_openScope] at hown
    exact h.ready.sound.unowned_new s hown
  · intro arm harm heq
    have hlt := Body.lt_size_of_parentOf (h.arms arm harm).child.1
    rw [heq] at hlt
    exact Nat.lt_irrefl _ hlt

variable {block : Block σ} {arms : Switch σ Unit}

theorem keeps_arm {kind : ScopeKind} (hk : kind.isPlain ∧ kind ≠ .loop) (hne : kind ≠ .tryFrame)
    (keys : List CaseKey) (isDefault : Bool)
    (hblock : ∀ base c, Keeps base c (fun _ => True) (block c)) :
    KeepsSwitch (arm kind keys isDefault block) := by
  intro base start here frame
  unfold arm
  refine (Triple.draft _).bind fun parent => (triple_openArm hk hne).bind fun c => ?_
  refine Triple.bind (J := fun _ => ArmOpened base start here frame c)
    (.keeps (fun base => (hblock base c).outside) (.outside _) (fun _ _ h => h.1.enter h.2.1) ?_
      fun _ _ h => h.1) fun _ => .redraft ?_
  · rintro d b b' ⟨h, hc, hnew⟩ hready hg
    exact ⟨h.leave hc hready hg, stable_freshPart _ _ _ _ _ _ hg hc, hnew⟩
  · rintro d b ⟨h, hc, hnew⟩
    refine ⟨h.ready, h.grows, h.same, h.fresh, fun arm harm => ?_, ?_⟩
    · rcases Array.mem_push.mp harm with harm | rfl
      · exact h.arms arm harm
      · exact hc
    · rw [Array.toList_push, List.map_append, nodup_append]
      refine ⟨h.nodup, by simp, fun x hx y hy heq => ?_⟩
      obtain ⟨arm, harm, rfl⟩ := mem_map.mp hx
      cases mem_singleton.mp hy
      exact hnew arm (Array.mem_toList_iff.mp harm) heq

theorem keeps_case (labels : List CaseLabel)
    (hblock : ∀ base c, Keeps base c (fun _ => True) (block c)) :
    KeepsSwitch (case labels block) := by
  intro base start here frame
  refine (Triple.mapM (fun label => keeps_takeLabel label base start here frame) labels).bind
    fun keys => ?_
  exact keeps_arm (by decide) (by decide) keys false hblock base start here frame

theorem keeps_defaultCase (hblock : ∀ base c, Keeps base c (fun _ => True) (block c)) :
    KeepsSwitch (defaultCase block) := by
  intro base start here frame
  unfold defaultCase
  refine (Triple.draft _).bind fun known => ?_
  refine .weaken (I := Switching base start here frame) (J := fun _ => Switching base start here
    frame) ?_ (fun _ _ h => h.1) fun _ _ _ h => h
  split
  · exact fun w h => h
  · refine Triple.bind (J := fun _ => Switching base start here frame)
      (.redraft fun d b h => h.mono h.ready (.refl b _) rfl rfl) fun _ => ?_
    exact keeps_arm (by decide) (by decide) [] true hblock base start here frame

theorem switching_start {b : Body} {frame : Nat} (k : SwitchKind) (t : Option Nat)
    (hready : b.Ready here) (hfresh : Fresh base here .switchFrame frame b) :
    Switching base b here frame { kind := k, table := t, frame } b where
  ready := hready
  grows := .refl _ _
  same := rfl
  fresh := hfresh
  arms arm harm := absurd harm (Array.not_mem_empty arm)
  nodup := nodup_nil

theorem keeps_switchOn {kind : SwitchKind} {table : Option Nat} {selector : Operand}
    (harms : KeepsSwitch arms) (hP : Stable P)
    (hselector : ∀ b, P b → ∃ expected, Reading here expected b selector)
    (haccessor : ∀ type accessor, kind = .enum type accessor →
      accessor.type = ⟨[], some rowType⟩) :
    Keeps base here P (switchOn here kind table selector arms) := by
  refine .openScope hP (fun b hb _ => hb.isOpen.lt) (by decide) fun frame => ?_
  intro w hready hg ⟨hPb, hfresh⟩
  have hstart := switching_start kind table hready hfresh
  refine (harms base w.body here frame).withDraft
    (Q := fun b => b.Ready here ∧ base.Grows b here) hstart
    (fun d b h => ⟨h.ready, hg.trans h.grows⟩) fun d w' h => ?_
  -- The selector is still readable when the arms are done.
  have hread : ∃ expected, Reading here expected w'.body selector :=
    hselector w'.body (hP _ _ _ h.grows hPb)
  have hkeeps : Keeps base here (fun b => Switching base w.body here frame d b ∧
      ∃ expected, Reading here expected b selector) (push here (.switch {
        kind, selector, frame, arms := d.arms.toList, fallthrough := d.fallthrough }) :
        Build σ Unit) := by
    refine .push (by simp) rfl (by simp) fun b hb ⟨h, hread⟩ => ⟨?_, ?_, ?_, fun c hc => ?_⟩
    · exact ⟨h.fresh.parent, h.fresh.isKind,
        fun arm harm => (h.arms arm (Array.mem_toList_iff.mp harm)).child, haccessor⟩
    · obtain ⟨_, hread⟩ := hread
      exact hread.readings
    · refine nodup_cons.mpr ⟨fun hmem => ?_, h.nodup⟩
      obtain ⟨arm, harm, heq⟩ := mem_map.mp hmem
      have hchild := (h.arms arm (Array.mem_toList_iff.mp harm)).child
      exact Nat.lt_irrefl _ (heq ▸ hb.sound.descends hchild.1)
    · have hhere := h.fresh.ownable hb
      rcases mem_cons.mp hc with rfl | hc
      · exact hhere
      · obtain ⟨arm, harm, rfl⟩ := mem_map.mp hc
        have hpart := h.arms arm (Array.mem_toList_iff.mp harm)
        exact ⟨Nat.le_trans hg.size hpart.new,
          Nat.lt_trans hhere.2.1 (hb.sound.descends hpart.child.1), hpart.unowned⟩
  exact hkeeps w' h.ready (hg.trans h.grows) ⟨h, hread⟩

theorem keeps_switchPlain {kind : SwitchKind} {type : FieldType} (selector : Value)
    (harms : KeepsSwitch arms) (hkind : ∀ type accessor, kind ≠ .enum type accessor) :
    Keeps base here P (operand here selector type >>= fun o => switchOn here kind none o arms) := by
  refine (Finds.operand selector type).bind fun o => ?_
  refine (keeps_switchOn harms (stable_reading here type o (o.value = selector.index))
    (fun b h => ⟨_, h.1⟩) fun type accessor h => absurd h (hkind _ _)).weaken fun b h => h.2

/-- A table comes with an accessor that returns a row, whether it is new or shared. -/
theorem keeps_tableFor {enumType : ClassName} {β : Type} {f : Nat × MethodRef → Build σ β}
    (hP : Stable P) (hf : ∀ a, a.2.type = ⟨[], some rowType⟩ → Keeps base here P (f a)) :
    Keeps base here P (tableFor enumType >>= f) := by
  unfold tableFor
  rw [bind_assoc]
  refine (Finds.see _).bind fun settings => ?_
  rw [bind_assoc]
  refine (Finds.see _).bind fun found => ?_
  cases found with
  | some shared =>
    intro w hw hg ⟨⟨hPw, _⟩, hshared⟩
    refine hf _ (hw.collects.accessors _ ?_) w hw hg hPw
    exact mem_of_shared hshared.symm
  | none =>
    show Keeps base here _ ((see _ >>= fun owner => see _ >>= fun siblings =>
      ofExcept (create settings owner enumType siblings) >>= fun table =>
      Build.change fun body => ((body.tables.size, table.accessor), _)) >>= f)
    rw [bind_assoc]
    refine (Finds.see _).bind fun owner => ?_
    rw [bind_assoc]
    refine (Finds.see _).bind fun siblings => ?_
    rw [bind_assoc]
    cases hcreate : create settings owner enumType siblings with
    | error fault => exact .fail_bind _ _
    | ok table =>
      have htype := (types_of_create hcreate).2
      intro w hw hg ⟨⟨⟨⟨hPw, _⟩, _⟩, _⟩, _⟩
      have haccess : ∀ t ∈ w.body.tables.push table,
          t.accessor.type = ⟨[], some rowType⟩ := by
        intro t ht
        rcases Array.mem_push.mp ht with ht | rfl
        · exact hw.collects.accessors t ht
        · exact htype
      obtain ⟨hready, hg'⟩ := hw.congr { w.body with
        notices := w.body.notices.push (.tableCreated table.field enumType)
        tables := w.body.tables.push table } rfl rfl rfl rfl rfl rfl rfl rfl haccess
      exact hf (w.body.tables.size, table.accessor) htype ⟨_, w.carried⟩ hready (hg.trans hg')
        (hP _ _ _ hg' hPw)

theorem keeps_switchEnum (selector : Value) (harms : KeepsSwitch arms) :
    Keeps base here P (switchEnum here selector arms) := by
  unfold switchEnum
  refine (Finds.typeOf selector).bind fun type => ?_
  split
  · next enumType =>
    refine (Finds.operandAsIs selector).bind fun o => ?_
    refine Keeps.weaken (Q := fun b => ∃ expected, Reading here expected b o) ?_
      fun b h => ?_
    · have hstable : Stable fun b => ∃ expected, Reading here expected b o :=
        fun _ _ _ hg ⟨t, h⟩ => ⟨t, h.mono hg.toExtends⟩
      refine keeps_tableFor hstable fun ⟨table, accessor⟩ haccessor => ?_
      refine keeps_switchOn harms hstable (fun b h => h) fun type accessor' h => ?_
      cases h
      exact haccessor
    · obtain ⟨i, _, hread, _⟩ := h.2
      exact ⟨i.type, hread⟩
  · exact .fail _

end Build
end ClassAssembler
