import ClassAssembler.Proofs.Body.Sound

/-!
# Growing bodies

A body only ever grows: scopes, values and operations are added, and nothing that is there
changes.
-/

namespace ClassAssembler

variable {b' : Body} {frame v : Nat} {op : Operation}

open List

namespace Body

variable {b b' b'' : Body} {s t p : Nat}

/-- Operations were added behind others, or before them if they hold no scopes. -/
def Surrounds (ops ops' : List Operation) : Prop :=
  ∃ l1 l2, ops' = l1 ++ (ops ++ l2) ∧ ∀ op ∈ l1, op.owned = []

namespace Surrounds

variable {l l' l'' : List Operation}

theorem refl (l : List Operation) : Surrounds l l := ⟨[], [], by simp, fun _ h => by cases h⟩

theorem behind (l l2 : List Operation) : Surrounds l (l ++ l2) :=
  ⟨[], l2, rfl, fun _ h => by cases h⟩

theorem trans (h : Surrounds l l') (h' : Surrounds l' l'') : Surrounds l l'' := by
  obtain ⟨l1, l2, rfl, hl⟩ := h
  obtain ⟨l3, l4, rfl, hl'⟩ := h'
  refine ⟨l3 ++ l1, l2 ++ l4, by simp, fun op hop => ?_⟩
  exact (mem_append.mp hop).elim (hl' op) (hl op)

end Surrounds

/-- The second body has all that the first one has. -/
structure Extends (b b' : Body) : Prop where
  size : b.scopes.size ≤ b'.scopes.size
  parent : ∀ s, s < b.scopes.size → b'.parentOf s = b.parentOf s
  kind : ∀ s, s < b.scopes.size → b'.kindOf s = b.kindOf s
  value : ∀ (v : Nat) info, b.values[v]? = some info → b'.values[v]? = some info
  operations : ∀ s, Surrounds (b.operations s) (b'.operations s)
  method : b'.method = b.method

namespace Extends

theorem refl (b : Body) : b.Extends b where
  size := Nat.le_refl _
  parent _ _ := rfl
  kind _ _ := rfl
  value _ _ h := h
  operations _ := Surrounds.refl _
  method := rfl

theorem trans (h : b.Extends b') (h' : b'.Extends b'') : b.Extends b'' where
  size := Nat.le_trans h.size h'.size
  parent s hs := (h'.parent s (Nat.lt_of_lt_of_le hs h.size)).trans (h.parent s hs)
  kind s hs := (h'.kind s (Nat.lt_of_lt_of_le hs h.size)).trans (h.kind s hs)
  value v info hv := h'.value v info (h.value v info hv)
  operations s := (h.operations s).trans (h'.operations s)
  method := h'.method.trans h.method

variable (h : b.Extends b')
include h

theorem parentOf (hp : b.parentOf s = some p) : b'.parentOf s = some p := by
  rw [h.parent s (lt_size_of_parentOf hp), hp]

theorem within (hw : b.Within s t) : b'.Within s t := by
  induction hw with
  | refl => exact .refl
  | step hp _ ih => exact .step (h.parentOf hp) ih

theorem within_iff (hd : b.Descends) (ht : t < b.scopes.size) : b'.Within s t ↔ b.Within s t := by
  constructor
  · intro hw
    induction hw with
    | refl => exact .refl
    | step hp _ ih =>
      rw [h.parent _ ht] at hp
      exact .step hp (ih (Nat.lt_trans (hd hp) ht))
  · exact h.within

theorem kindOf (hk : b.kindOf s = k) (hne : k ≠ .root) : b'.kindOf s = k := by
  rcases Nat.lt_or_ge s b.scopes.size with hlt | hge
  · rw [h.kind s hlt, hk]
  · rw [Body.kindOf, Array.getElem?_eq_none hge] at hk
    exact absurd hk.symm hne

theorem tryNumber (hs : s ≤ b.scopes.size) : b'.tryNumber s = b.tryNumber s := by
  refine countP_congr fun t ht => ?_
  rw [h.kind t (Nat.lt_of_lt_of_le (mem_range.mp ht) hs)]

theorem operations_ne_nil (hne : b.operations s ≠ []) : b'.operations s ≠ [] := by
  obtain ⟨l1, l2, heq, _⟩ := h.operations s
  rw [heq]
  simp [hne]

theorem hasWidth {w : Nat} (hv : b.HasWidth v w) : b'.HasWidth v w := by
  obtain ⟨info, hi, hw⟩ := hv
  exact ⟨info, h.value _ _ hi, hw⟩

theorem hasOrigin {o : Origin} (hv : b.HasOrigin v o) : b'.HasOrigin v o := by
  obtain ⟨info, hi, ho⟩ := hv
  exact ⟨info, h.value _ _ hi, ho⟩

end Extends

theorem lt_size_of_kindOf (hne : b.kindOf s ≠ .root) : s < b.scopes.size := by
  rcases Nat.lt_or_ge s b.scopes.size with hlt | hge
  · exact hlt
  · rw [kindOf, Array.getElem?_eq_none hge] at hne
    exact absurd rfl hne

theorem Before.mono (h : b.Extends b') {c : Nat} (hv : b.Before c s v) : b'.Before c s v := by
  obtain ⟨hmem, hall⟩ := hv
  obtain ⟨l, l', hl, hnone⟩ := h.operations s
  refine ⟨?_, fun l1 op l2 hsplit hop => ?_⟩
  · rw [defines, hl, flatMap_append, flatMap_append]
    exact mem_append_right _ (mem_append_left _ hmem)
  rw [hl] at hsplit
  -- The operations added before the others hold no scopes.
  obtain ⟨m, rfl, hm⟩ : ∃ m, l1 = l ++ m ∧ b.operations s ++ l' = m ++ op :: l2 := by
    rcases split_append hsplit with ⟨m, hm, _⟩ | hm
    · rw [hnone op (by rw [hm]; simp)] at hop
      cases hop
    · exact hm
  rw [flatMap_append]
  refine mem_append_right _ ?_
  -- Either the operation was there before, or all that was there comes before it.
  rcases split_append hm with ⟨m', hm, _⟩ | ⟨m', rfl, _⟩
  · exact hall m op m' hm hop
  · rw [flatMap_append]
    exact mem_append_left _ hmem

theorem Visible.mono (h : b.Extends b') {known : List Nat} (hv : b.Visible s known v) :
    b'.Visible s known v := by
  obtain ⟨info, hi, hv⟩ := hv
  refine ⟨info, h.value _ _ hi, ?_⟩
  rcases hv with hnone | hown | ⟨c, owner, ho, hc, hp, hk, hb⟩
  · exact .inl hnone
  · exact .inr (.inl hown)
  · refine .inr (.inr ⟨c, owner, ho, h.within hc, h.parentOf hp, ?_, hb.mono h⟩)
    rwa [h.kind c (lt_size_of_parentOf hp)]

theorem Visible.weaken {known known' : List Nat} (hv : b.Visible s known v)
    (h : ∀ u ∈ known, u ∈ known') : b.Visible s known' v := by
  obtain ⟨info, hi, hv⟩ := hv
  exact ⟨info, hi, hv.imp_right (Or.imp_left (And.imp_right (h v)))⟩

theorem guards_iff (h : b.Extends b') (hd : b.Descends) (hs : s < b.scopes.size) :
    b'.Guards frame s ↔ b.Guards frame s := by
  constructor
  · rintro ⟨hk, c, hc, hp, hg⟩
    have hcs : b.Within c s := (h.within_iff hd hs).mp hc
    have hlt : c < b.scopes.size := hcs.lt_size hs hd
    rw [h.parent c hlt] at hp
    rw [h.kind c hlt] at hg
    rw [h.kind frame (Nat.lt_trans (hd hp) hlt)] at hk
    exact ⟨hk, c, hcs, hp, hg⟩
  · rintro ⟨hk, c, hc, hp, hg⟩
    refine ⟨h.kindOf hk (by decide), c, h.within hc, h.parentOf hp, ?_⟩
    rwa [h.kind c (lt_size_of_parentOf hp)]

theorem Guards.within (h : b.Guards frame s) : b.Within frame s := by
  obtain ⟨_, c, hc, hp, _⟩ := h
  exact (Within.of_parent hp).trans hc

section

variable (h : b.Extends b')
include h

theorem leaves_iff (hd : b.Descends) {d : Option Nat}
    (hs : ∀ t, d = some t → t < b.scopes.size) : b'.Leaves frame d ↔ b.Leaves frame d := by
  constructor
  · intro hl t ht hw
    exact hl t ht (h.within hw)
  · intro hl t ht hw
    exact hl t ht ((h.within_iff hd (hs t ht)).mp hw)

theorem CopyOf.mono {c : Cleanup} (hc : b.CopyOf frame c) :
    b'.CopyOf frame c where
  isTry := h.kindOf hc.isTry (by decide)
  parent := h.parentOf hc.parent
  kind := h.kindOf hc.kind (by decide)
  owner := by
    rw [h.tryNumber (Nat.le_of_lt (lt_size_of_kindOf (by rw [hc.isTry]; decide)))]
    exact hc.owner

theorem ExitFits.mono (hd : b.Descends) {d : Option Nat} {cs : List Cleanup}
    (hs : s < b.scopes.size) (ht : ∀ t, d = some t → t < b.scopes.size)
    (he : b.ExitFits s d cs) : b'.ExitFits s d cs where
  each c hc := by
    obtain ⟨frame, hcopy, hg, hl⟩ := he.each c hc
    exact ⟨frame, hcopy.mono h, (guards_iff h hd hs).mpr hg, (leaves_iff h hd ht).mpr hl⟩
  ordered := he.ordered

theorem Child.mono (hc : b.Child p s) : b'.Child p s := by
  refine ⟨h.parentOf hc.1, ?_⟩
  rw [h.kind s (lt_size_of_parentOf hc.1)]
  exact hc.2

theorem TryFits.mono {statement : TryStatement} (ht : b.TryFits s statement) :
    b'.TryFits s statement where
  parent := h.parentOf ht.parent
  frame := h.kindOf ht.frame (by decide)
  id := by
    rw [h.tryNumber (Nat.le_of_lt (lt_size_of_parentOf ht.parent))]
    exact ht.id
  body := ⟨h.parentOf ht.body.1, h.kindOf ht.body.2 (by decide)⟩
  bodyExit := by
    obtain ⟨c, hc, hcopy⟩ := ht.bodyExit
    exact ⟨c, hc, hcopy.mono h⟩
  clauses clause hclause := by
    obtain ⟨hp, hk, hne, c, hc, hcopy⟩ := ht.clauses clause hclause
    exact ⟨h.parentOf hp, h.kindOf hk (by decide), h.operations_ne_nil hne, c, hc, hcopy.mono h⟩
  catchAll handler hhandler := by
    obtain ⟨hp, hk, hne⟩ := ht.catchAll handler hhandler
    exact ⟨h.parentOf hp, h.kindOf hk (by decide), h.operations_ne_nil hne⟩

theorem SwitchFits.mono {statement : SwitchStatement}
    (hs : b.SwitchFits s statement) : b'.SwitchFits s statement where
  parent := h.parentOf hs.parent
  frame := h.kindOf hs.frame (by decide)
  arms arm harm := (hs.arms arm harm).mono h
  accessor := hs.accessor

end

end Body

theorem Action.Copies.mono {b : Body} (h : b.Extends b') {operands : List Operand}
    {result : Option Nat}
    (hreads : ∀ operand ∈ operands, ∃ info, b.values[operand.value]? = some info)
    (hf : Action.Copies b operands result) : Action.Copies b' operands result := by
  obtain ⟨operand, v, w, rfl, hv, hw, hact⟩ := hf
  refine ⟨operand, v, w, rfl, hv, h.hasWidth hw, fun cell hcell => hact cell ?_⟩
  obtain ⟨info, hinfo⟩ := hreads operand (.head _)
  obtain ⟨info', hinfo', hcell⟩ := hcell
  rw [h.value _ _ hinfo] at hinfo'
  cases hinfo'
  exact ⟨info, hinfo, hcell⟩

theorem Action.Fits.mono {b : Body} (h : b.Extends b') {action : Action} {operands : List Operand}
    {result : Option Nat}
    (hreads : ∀ operand ∈ operands, ∃ info, b.values[operand.value]? = some info)
    (hf : action.Fits b operands result) : action.Fits b' operands result := by
  cases action with
  | insns is =>
    refine ⟨hf.1, ?_⟩
    rcases hf.2 with ⟨hnil, hcopy⟩ | ⟨words, hact, hvoid, hresult⟩
    · exact .inl ⟨hnil, hcopy.mono h hreads⟩
    · refine .inr ⟨words, hact, hvoid, fun v hv => ?_⟩
      obtain ⟨w, hw, hwidth⟩ := hresult v hv
      exact ⟨w, hw, h.hasWidth hwidth⟩
  | new m =>
    obtain ⟨hinit, hlen, v, hv, hw⟩ := hf
    exact ⟨hinit, hlen, v, hv, h.hasWidth hw⟩
  | compare lead test =>
    obtain ⟨hquiet, hact, v, hv, hw⟩ := hf
    exact ⟨hquiet, hact, v, hv, h.hasWidth hw⟩
  | store var declares =>
    obtain ⟨hlen, hr, ho⟩ := hf
    exact ⟨hlen, hr, h.hasOrigin ho⟩
  | inc var delta =>
    obtain ⟨hops, hr, ho, hw⟩ := hf
    exact ⟨hops, hr, h.hasOrigin ho, h.hasWidth hw⟩
  | copy => exact Action.Copies.mono h hreads hf
  | caught =>
    obtain ⟨hops, v, hv, hw⟩ := hf
    exact ⟨hops, v, hv, h.hasWidth hw⟩

theorem Operation.Fits.mono {b : Body} (h : b.Extends b') (hd : b.Descends) {s : Nat}
    (hs : s < b.scopes.size)
    (hreads : ∀ operand ∈ op.operands, ∃ info, b.values[operand.value]? = some info)
    (hf : op.Fits b s) : op.Fits b' s := by
  cases op with
  | simple action operands result => exact Action.Fits.mono h hreads hf
  | block inner => exact Body.Child.mono h hf
  | branch cond whenTrue whenFalse =>
    exact ⟨hf.1.mono h, fun t ht => (hf.2 t ht).mono h⟩
  | loop looped update =>
    refine ⟨h.parentOf hf.1, h.kindOf hf.2.1 (by decide), fun t ht => ?_⟩
    obtain ⟨hp, hk⟩ := hf.2.2 t ht
    exact ⟨h.parentOf hp, h.kindOf hk (by decide)⟩
  | exitUnless cond target => exact ⟨hf.1, h.kindOf hf.2 (by decide)⟩
  | jump kind target cleanups =>
    obtain ⟨hw, ha, he⟩ := hf
    have htarget : target < b.scopes.size := hw.lt_size hs hd
    refine ⟨h.within hw, fun hk => h.kindOf (ha hk) (by decide), he.mono h hd hs ?_⟩
    rintro t ⟨⟩
    exact htarget
  | ret value cleanups =>
    refine ⟨by rw [h.method]; exact hf.1, hf.2.mono h hd hs ?_⟩
    rintro t ⟨⟩
  | throw value => trivial
  | tryCatch statement => exact Body.TryFits.mono h hf
  | switch statement => exact Body.SwitchFits.mono h hf

/-! ## Scopes -/

namespace Body

variable {b : Body} {pending : List Nat} {here : Nat}

section

variable (b : Body) (parent : Option Nat) (kind : ScopeKind)

theorem extends_openScope :
    b.Extends (b.openScope parent kind).2 where
  size := by rw [size_openScope]; exact Nat.le_succ _
  parent s hs := by rw [parentOf_openScope, if_neg (Nat.ne_of_lt hs)]
  kind s hs := by rw [kindOf_openScope, if_neg (Nat.ne_of_lt hs)]
  value _ _ h := h
  operations s := by rw [operations_openScope]; exact Surrounds.refl _
  method := rfl

theorem nextLabel_openScope :
    (b.openScope parent kind).2.nextLabel =
      b.nextLabel + if kind = .loop then 3 else 2 := by
  by_cases hk : kind = .loop <;> simp [openScope, hk]

end

/-- A scope is an old one, or the new one with the next labels. -/
theorem scope_openScope {parent : Option Nat} {kind : ScopeKind} {s : Nat} {sc : Scope}
    (h : (b.openScope parent kind).2.scopes[s]? = some sc) :
    (s < b.scopes.size ∧ b.scopes[s]? = some sc) ∨
      (s = b.scopes.size ∧ sc = ⟨parent, kind, #[], ⟨b.nextLabel⟩, ⟨b.nextLabel + 1⟩,
        if kind = .loop then ⟨b.nextLabel + 2⟩ else ⟨b.nextLabel⟩⟩) := by
  rw [openScope, Array.getElem?_push] at h
  split at h
  · next heq =>
    cases h
    by_cases hk : kind = .loop <;> simp [heq, hk]
  · exact .inl ⟨(Array.getElem?_eq_some_iff.mp h).1, h⟩

theorem LabelsFit.openScope (h : b.LabelsFit) (parent : Option Nat) (kind : ScopeKind) :
    (b.openScope parent kind).2.LabelsFit := by
  refine ⟨fun hs => ?_, fun hs => ?_, fun {s t _ _} hs ht hlt => ?_, fun hs => ?_⟩
  · rcases scope_openScope hs with ⟨_, hs⟩ | ⟨_, rfl⟩
    · exact h.exit hs
    · rfl
  · rcases scope_openScope hs with ⟨_, hs⟩ | ⟨_, rfl⟩
    · exact h.again hs
    · by_cases hk : kind = .loop <;> simp [hk]
  · rcases scope_openScope hs with ⟨hs', hs⟩ | ⟨rfl, rfl⟩
    · rcases scope_openScope ht with ⟨_, ht⟩ | ⟨_, rfl⟩
      · exact h.apart hs ht hlt
      · exact h.bound hs
    · rcases scope_openScope ht with ⟨ht', _⟩ | ⟨rfl, _⟩ <;> omega
  · rw [nextLabel_openScope]
    rcases scope_openScope hs with ⟨_, hs⟩ | ⟨_, rfl⟩
    · exact Nat.le_trans (h.bound hs) (Nat.le_add_right _ _)
    · exact Nat.le_refl _

theorem owned_openScope (b : Body) (parent : Option Nat) (kind : ScopeKind) (s : Nat) :
    (b.openScope parent kind).2.owned s = b.owned s := by
  rw [owned, operations_openScope, owned]

theorem defines_openScope (b : Body) (parent : Option Nat) (kind : ScopeKind) (s : Nat) :
    (b.openScope parent kind).2.defines s = b.defines s := by
  rw [defines, operations_openScope, defines]

theorem Extends.of_scopes (hscopes : b'.scopes = b.scopes) (hvalues : b'.values = b.values)
    (hmethod : b'.method = b.method) : b.Extends b' := by
  cases b
  cases b'
  cases hscopes
  cases hvalues
  exact
    { size := Nat.le_refl _
      parent := fun _ _ => rfl
      kind := fun _ _ => rfl
      value := fun _ _ hv => hv
      operations := fun _ => Surrounds.refl _
      method := hmethod }

namespace SoundUpTo

section

variable (h : SoundUpTo pending b)
include h

theorem reads_value {s : Nat} (hop : op ∈ b.operations s) :
    ∀ operand ∈ op.operands, ∃ info, b.values[operand.value]? = some info := by
  intro operand hoperand
  obtain ⟨l1, l2, hsplit⟩ := append_of_mem hop
  obtain ⟨info, hinfo, _⟩ := h.visible hsplit operand.value
    (mem_append_left _ (mem_map_of_mem hoperand))
  exact ⟨info, hinfo⟩

theorem fits_mono (he : b.Extends b') {s : Nat} (hop : op ∈ b.operations s) : op.Fits b' s :=
  (h.fits hop).mono he h.descends (lt_size_of_mem_operations hop) (h.reads_value hop)

theorem openScope {p : Nat} (hp : p < b.scopes.size)
    (kind : ScopeKind) : SoundUpTo pending (b.openScope (some p) kind).2 := by
  have he := b.extends_openScope (some p) kind
  have hops := b.operations_openScope (some p) kind
  have hkind : ∀ {s op}, op ∈ b.operations s →
      (b.openScope (some p) kind).2.kindOf s = b.kindOf s :=
    fun hop => he.kind _ (lt_size_of_mem_operations hop)
  refine
    { h with
      rooted := Nat.lt_of_lt_of_le h.rooted he.size
      root := by rw [he.kind 0 h.rooted]; exact h.root
      descends := fun s q hq => ?_
      labels := h.labels.openScope _ _
      fits := fun hop => h.fits_mono he (by rwa [hops] at hop)
      operands := fun hop => h.operands (by rwa [hops] at hop)
      owned_gt := fun hc => h.owned_gt (by rwa [owned_openScope] at hc)
      owned_nodup := fun s => by rw [owned_openScope]; exact h.owned_nodup s
      owned_unique := fun hc hc' => h.owned_unique (by rwa [owned_openScope] at hc)
        (by rwa [owned_openScope] at hc')
      visible := fun hsplit v hv => (h.visible (by rwa [hops] at hsplit) v hv).mono he
      defines_nodup := fun s => by rw [defines_openScope]; exact h.defines_nodup s
      defines_owner := fun hv => h.defines_owner (by rwa [defines_openScope] at hv)
      defined := fun hv ho => by rw [defines_openScope]; exact h.defined hv ho
      results := fun hop => he.hasOrigin (h.results (by rwa [hops] at hop))
      frames := fun {s} hs => ?_
      caught := fun {s l1 op l2} hsplit => ?_
      updates := fun {s op} hop hk => ?_
      params := ⟨h.params.bound, h.params.apart⟩ }
  · rw [parentOf_openScope] at hq
    by_cases heq : s = b.scopes.size
    · rw [if_pos heq] at hq
      cases hq
      rw [heq]
      exact hp
    · rw [if_neg heq] at hq
      exact h.descends hq
  · rw [hops]
    rcases Nat.lt_or_ge s b.scopes.size with hlt | hge
    · rw [he.kind s hlt] at hs
      exact h.frames hs
    · exact operations_eq_nil hge
  · rw [hops] at hsplit
    have hop : op ∈ b.operations s := by rw [hsplit]; simp
    rw [hkind hop]
    exact h.caught hsplit
  · rw [hops] at hop
    rw [hkind hop] at hk
    exact h.updates hop hk

theorem congr (hscopes : b'.scopes = b.scopes)
    (hvalues : b'.values = b.values) (hmethod : b'.method = b.method)
    (hlabel : b'.nextLabel = b.nextLabel) (hfree : b'.firstFree = b.firstFree)
    (hreceiver : b'.hasReceiver = b.hasReceiver) : SoundUpTo pending b' := by
  have he := Extends.of_scopes hscopes hvalues hmethod
  cases b
  cases b'
  cases hscopes
  cases hvalues
  cases hlabel
  cases hfree
  cases hreceiver
  exact
    { h with
      labels := ⟨h.labels.exit, h.labels.again, h.labels.apart, h.labels.bound⟩
      fits := fun hop => h.fits_mono he hop
      visible := fun hsplit v hv => (h.visible hsplit v hv).mono he
      results := fun hop => he.hasOrigin (h.results hop)
      params := ⟨h.params.bound, h.params.apart⟩ }

end

end SoundUpTo

/-! ## Values -/

theorem getElem?_addValue (b : Body) (info : ValueInfo) (v : Nat) :
    (b.addValue info).2.values[v]? = if v = b.values.size then some info else b.values[v]? := by
  rw [addValue, Array.getElem?_push]

theorem extends_addValue (b : Body) (info : ValueInfo) : b.Extends (b.addValue info).2 where
  size := Nat.le_refl _
  parent _ _ := rfl
  kind _ _ := rfl
  value v i hv := by
    rw [getElem?_addValue, if_neg (Nat.ne_of_lt (Array.getElem?_eq_some_iff.mp hv).1)]
    exact hv
  operations _ := Surrounds.refl _
  method := rfl

/-- A value that may be added: a constant, or a value that an operation is about to give a
meaning to. -/
structure Addable (info : ValueInfo) : Prop where
  lasting : info.owner = none → ∃ l, info.origin = .constant l ∧ l.words = info.type.width
  owned : ∀ s, info.owner = some s → info.origin = .variable ∨ info.origin = .result

namespace Addable

theorem not_param {info : ValueInfo} (h : Addable info) (slot : UInt16) :
    info.origin ≠ .param slot := by
  intro ho
  cases howner : info.owner with
  | none =>
    obtain ⟨l, hl, _⟩ := h.lasting howner
    rw [hl] at ho
    cases ho
  | some s => rcases h.owned s howner with hs | hs <;> rw [hs] at ho <;> cases ho

end Addable

namespace SoundUpTo

theorem addValue (h : b.Sound) {info : ValueInfo} (ha : Addable info)
    (hp : ∀ s, info.owner = some s → b.values.size ∈ pending) :
    SoundUpTo pending (b.addValue info).2 := by
  have he := b.extends_addValue info
  -- A value is an old one or the new one.
  have scope_openScope : ∀ {v : Nat} {i : ValueInfo}, (b.addValue info).2.values[v]? = some i →
      b.values[v]? = some i ∨ (v = b.values.size ∧ i = info) := by
    intro v i hv
    rw [getElem?_addValue] at hv
    by_cases heq : v = b.values.size
    · rw [if_pos heq] at hv
      cases hv
      exact .inr ⟨heq, rfl⟩
    · rw [if_neg heq] at hv
      exact .inl hv
  refine
    { h with
      labels := ⟨h.labels.exit, h.labels.again, h.labels.apart, h.labels.bound⟩
      fits := fun hop => h.fits_mono he hop
      visible := fun hsplit v hv => (h.visible hsplit v hv).mono he
      defines_owner := fun {s v} hv => ?_
      defined := fun hv ho => ?_
      results := fun hop => he.hasOrigin (h.results hop)
      lasting := fun hv ho => ?_
      owned_origin := fun hv ho => ?_
      params := ⟨fun hv ho => ?_, fun hu hv hou hov hlt => ?_⟩
      receiver := fun hr => ?_ }
  · obtain ⟨i, hi, ho⟩ := h.defines_owner hv
    exact ⟨i, he.value v i hi, ho⟩
  · rcases scope_openScope hv with hv | ⟨rfl, rfl⟩
    · rcases h.defined hv ho with hd | hd
      · exact .inl hd
      · cases hd
    · exact .inr (hp _ ho)
  · rcases scope_openScope hv with hv | ⟨rfl, rfl⟩
    · exact h.lasting hv ho
    · exact .inr (ha.lasting ho)
  · rcases scope_openScope hv with hv | ⟨rfl, rfl⟩
    · exact h.owned_origin hv ho
    · exact ha.owned _ ho
  · rcases scope_openScope hv with hv | ⟨rfl, rfl⟩
    · exact h.params.bound hv ho
    · exact absurd ho (ha.not_param _)
  · rcases scope_openScope hu with hu | ⟨_, rfl⟩
    · rcases scope_openScope hv with hv | ⟨_, rfl⟩
      · exact h.params.apart hu hv hou hov hlt
      · exact absurd hov (ha.not_param _)
    · exact absurd hou (ha.not_param _)
  · obtain ⟨i, hi, ho⟩ := h.receiver hr
    exact ⟨i, he.value 0 i hi, ho⟩

end SoundUpTo

/-! ## Operations -/

theorem operations_push (b : Body) (here : Nat) (op : Operation) (h : here < b.scopes.size)
    (s : Nat) : (b.push here op).operations s =
      if s = here then b.operations s ++ [op] else b.operations s := by
  by_cases hs : s = here
  · rw [if_pos hs, hs, operations_push_self b here op h]
  · rw [if_neg hs, operations_push_of_ne b here op hs]

theorem extends_push (b : Body) {here : Nat} (op : Operation) (h : here < b.scopes.size) :
    b.Extends (b.push here op) where
  size := Nat.le_of_eq (size_push b here op).symm
  parent s _ := parentOf_push b here op s
  kind s _ := kindOf_push b here op s
  value _ _ hv := hv
  operations s := by
    rw [operations_push b here op h]
    split
    · exact .behind _ _
    · exact Surrounds.refl _
  method := rfl

theorem LabelsFit.congr (h : b.LabelsFit) (hnext : b.nextLabel ≤ b'.nextLabel)
    (same : ∀ {s : Nat} {sc : Scope}, b'.scopes[s]? = some sc →
      ∃ ops, b.scopes[s]? = some { sc with operations := ops }) : b'.LabelsFit := by
  refine ⟨fun hs => ?_, fun hs => ?_, fun hs ht hlt => ?_, fun hs => ?_⟩
  · obtain ⟨_, hs'⟩ := same hs
    have hexit := h.exit hs'
    exact hexit
  · obtain ⟨_, hs'⟩ := same hs
    have hagain := h.again hs'
    exact hagain
  · obtain ⟨_, hs'⟩ := same hs
    obtain ⟨_, ht'⟩ := same ht
    have hapart := h.apart hs' ht' hlt
    exact hapart
  · obtain ⟨_, hs'⟩ := same hs
    have hbound := h.bound hs'
    exact Nat.le_trans hbound hnext

theorem LabelsFit.amend (h : b.LabelsFit) (here : Nat) (f : Array Operation → Array Operation) :
    (b.amend here f).LabelsFit := by
  refine h.congr .refl fun {s sc} hs => ?_
  rw [getElem?_amend] at hs
  by_cases heq : here = s
  · rw [if_pos heq] at hs
    cases hsc : b.scopes[s]? with
    | none => rw [hsc] at hs; cases hs
    | some sc' =>
      rw [hsc] at hs
      cases hs
      exact ⟨sc'.operations, rfl⟩
  · rw [if_neg heq] at hs
    exact ⟨sc.operations, hs⟩

/-- An operation that may be pushed behind those of a scope, and which gives a meaning to
the values that wait for it. -/
structure Accepts (b : Body) (pending : List Nat) (here : Nat) (op : Operation) : Prop where
  lt : here < b.scopes.size
  notFrame : ¬ (b.kindOf here).isFrame
  fits : op.Fits b here
  operands : ∀ operand ∈ op.operands, operand.Fits
  needs : ∀ v ∈ op.needs, b.Visible here (b.defines here) v
  owned_nodup : op.owned.Nodup
  owned_gt : ∀ c ∈ op.owned, here < c
  unowned : ∀ c ∈ op.owned, ∀ s, c ∉ b.owned s
  defines : op.defines = pending
  pending_nodup : pending.Nodup
  pending_owner : ∀ v ∈ pending, ∃ info, b.values[v]? = some info ∧ info.owner = some here
  pending_new : ∀ v ∈ pending, v ∉ b.defines here
  result : ∀ {action operands v}, op = .simple action operands (some v) → b.HasOrigin v .result
  caught : op.isCaught ↔ (b.kindOf here).isHandler ∧ b.operations here = []
  updates : b.kindOf here = .loopUpdate → op.isSimple

/-- The operations of a body are those of another, and one more in a scope. -/
structure Inserts (b b' : Body) (here : Nat) (op : Operation) (l1 l2 : List Operation) : Prop where
  old : b.operations here = l1 ++ l2
  new : b'.operations here = l1 ++ op :: l2
  others : ∀ s, s ≠ here → b'.operations s = b.operations s

namespace Inserts

variable {b' : Body} {op op' : Operation} {l1 l2 m1 m2 : List Operation} {α : Type} {s : Nat}

variable (hi : b.Inserts b' here op l1 l2)
include hi

theorem flatMap_perm (g : Operation → List α) (s : Nat) :
    ((b'.operations s).flatMap g).Perm
      (if s = here then (b.operations s).flatMap g ++ g op else (b.operations s).flatMap g) := by
  split
  · next hs =>
    rw [hs, hi.new, hi.old]
    exact (perm_middle.flatMap_right g).trans perm_append_comm
  · next hs => rw [hi.others s hs]

theorem of_mem_flatMap {g : Operation → List α} {x : α} (hx : x ∈ (b'.operations s).flatMap g) :
    x ∈ (b.operations s).flatMap g ∨ (s = here ∧ x ∈ g op) := by
  have hx := (hi.flatMap_perm g s).mem_iff.mp hx
  split at hx
  · exact (mem_append.mp hx).imp_right fun hx => ⟨‹_›, hx⟩
  · exact .inl hx

theorem of_mem (hop : op' ∈ b'.operations s) : op' ∈ b.operations s ∨ (s = here ∧ op' = op) := by
  simpa using hi.of_mem_flatMap (g := fun op => [op]) (by simpa using hop)

theorem nodup_flatMap {g : Operation → List Nat} (hs : ((b.operations s).flatMap g).Nodup)
    (hop : (g op).Nodup) (hapart : ∀ x ∈ g op, x ∉ (b.operations here).flatMap g) :
    ((b'.operations s).flatMap g).Nodup := by
  refine (hi.flatMap_perm g s).nodup_iff.mpr ?_
  split
  · next heq =>
    subst heq
    exact nodup_append.mpr ⟨hs, hop, fun x hx y hy heq => hapart y hy (heq ▸ hx)⟩
  · exact hs

theorem of_split (hlast : l2 = [] ∨ op.defines = [] ∧ ¬ (b.kindOf here).isHandler)
    (hsplit : b'.operations s = m1 ++ op' :: m2) :
    (s = here ∧ m1 = l1 ∧ op' = op) ∨ ∃ k1 k2, b.operations s = k1 ++ op' :: k2 ∧
      m1.flatMap Operation.defines = k1.flatMap Operation.defines ∧
      ((b.kindOf s).isHandler → (k1 = [] ↔ m1 = [])) := by
  by_cases hs : s = here
  · subst hs
    rw [hi.new] at hsplit
    rcases split_cons hsplit with ⟨rfl, rfl, _⟩ | ⟨l, rfl, _⟩ | ⟨l, rfl, rfl⟩
    · exact .inl ⟨rfl, rfl, rfl⟩
    · exact .inr ⟨m1, l ++ l2, by simp [hi.old], rfl, fun _ => .rfl⟩
    · obtain ⟨hnone, hhandler⟩ := hlast.resolve_left (by simp)
      refine .inr ⟨l1 ++ l, m2, by simp [hi.old], ?_, fun hh => absurd hh hhandler⟩
      simp [hnone]
  · rw [hi.others s hs] at hsplit
    exact .inr ⟨m1, m2, hsplit, rfl, fun _ => .rfl⟩

end Inserts

section push

variable {op op' : Operation} {s : Nat}

theorem inserts_push (b : Body) (op : Operation) (h : here < b.scopes.size) :
    b.Inserts (b.push here op) here op (b.operations here) [] where
  old := (List.append_nil _).symm
  new := b.operations_push_self here op h
  others _ hs := b.operations_push_of_ne here op hs

theorem of_mem_operations_push (hop : op' ∈ (b.push here op).operations s) :
    op' ∈ b.operations s ∨ (s = here ∧ op' = op) := by
  by_cases hs : s = here
  · have hlt := lt_size_of_mem_operations hop
    rw [size_push, hs] at hlt
    exact (b.inserts_push op hlt).of_mem hop
  · rw [operations_push_of_ne _ _ _ hs] at hop
    exact .inl hop

theorem of_mem_owned_push {c : Nat} (hc : c ∈ (b.push here op).owned s) :
    c ∈ b.owned s ∨ (s = here ∧ c ∈ op.owned) := by
  obtain ⟨_, hop, hin⟩ := mem_flatMap.mp hc
  rcases of_mem_operations_push hop with hop | ⟨rfl, rfl⟩
  · exact .inl (mem_flatMap_of_mem hop hin)
  · exact .inr ⟨rfl, hin⟩

end push

namespace SoundUpTo

/-- A body stays sound when a scope takes an operation that it accepts. -/
theorem insert (h : SoundUpTo pending b) (ha : b.Accepts pending here op)
    {f : Array Operation → Array Operation} (he : b.Extends (b.amend here f))
    {l1 l2 : List Operation} (hi : b.Inserts (b.amend here f) here op l1 l2)
    (hneeds : ∀ v ∈ op.needs, b.Visible here (l1.flatMap Operation.defines) v)
    (hlast : l2 = [] ∨ op.defines = [] ∧ ¬ (b.kindOf here).isHandler) : (b.amend here f).Sound := by
  have hkind := b.kindOf_amend here f
  have hreads : ∀ operand ∈ op.operands, ∃ info, b.values[operand.value]? = some info := by
    intro operand hoperand
    obtain ⟨info, hinfo, _⟩ := ha.needs operand.value
      (mem_append_left _ (mem_map_of_mem hoperand))
    exact ⟨info, hinfo⟩
  refine
    { h with
      rooted := by rw [size_amend]; exact h.rooted
      root := by rw [hkind]; exact h.root
      descends := fun s q hq => h.descends (by rwa [parentOf_amend] at hq)
      labels := h.labels.amend here f
      fits := fun hop => ?_
      operands := fun hop => ?_
      owned_gt := fun hc => ?_
      owned_nodup := fun s => hi.nodup_flatMap (h.owned_nodup s) ha.owned_nodup fun x hx =>
        ha.unowned x hx here
      owned_unique := fun {s t c} hc hc' => ?_
      visible := fun {s m1 op' m2} hsplit v hv => ?_
      defines_nodup := fun s => ?_
      defines_owner := fun {s v} hv => ?_
      defined := fun {v info s} hv ho => .inl ?_
      results := fun {s action operands v} hop => ?_
      frames := fun {s} hs => ?_
      caught := fun {s m1 op' m2} hsplit => ?_
      updates := fun hop hk => ?_
      params := ⟨h.params.bound, h.params.apart⟩ }
  · rcases hi.of_mem hop with hop | ⟨rfl, rfl⟩
    · exact h.fits_mono he hop
    · exact ha.fits.mono he h.descends ha.lt hreads
  · rcases hi.of_mem hop with hop | ⟨rfl, rfl⟩
    · exact h.operands hop
    · exact ha.operands
  · rcases hi.of_mem_flatMap hc with hs | ⟨rfl, hop⟩
    · exact h.owned_gt hs
    · exact ha.owned_gt _ hop
  · rcases hi.of_mem_flatMap hc with hs | ⟨rfl, hop⟩ <;> rcases hi.of_mem_flatMap hc' with ht
      | ⟨rfl, hop'⟩
    · exact h.owned_unique hs ht
    · exact absurd hs (ha.unowned c hop' s)
    · exact absurd ht (ha.unowned c hop t)
    · rfl
  · rcases hi.of_split hlast hsplit with ⟨rfl, rfl, rfl⟩ | ⟨k1, k2, hsplit, hsame, _⟩
    · exact (hneeds v hv).mono he
    · rw [hsame]
      exact (h.visible hsplit v hv).mono he
  · refine hi.nodup_flatMap (h.defines_nodup s) ?_ fun v hv => ?_
    · rw [ha.defines]
      exact ha.pending_nodup
    · exact ha.pending_new v (by rwa [ha.defines] at hv)
  · rcases hi.of_mem_flatMap hv with hs | ⟨rfl, hop⟩
    · exact h.defines_owner hs
    · exact ha.pending_owner v (ha.defines ▸ hop)
  · refine (hi.flatMap_perm Operation.defines s).mem_iff.mpr ?_
    rcases h.defined hv ho with hd | hd
    · split
      · exact mem_append_left _ hd
      · exact hd
    · obtain ⟨info', hv', ho'⟩ := ha.pending_owner v hd
      cases hv'.symm.trans hv
      cases ho'.symm.trans ho
      rw [if_pos rfl, ha.defines]
      exact mem_append_right _ hd
  · rcases hi.of_mem hop with hs | ⟨rfl, heq⟩
    · exact he.hasOrigin (h.results hs)
    · exact he.hasOrigin (ha.result heq.symm)
  · rw [hkind] at hs
    rw [hi.others s (by rintro rfl; exact ha.notFrame hs)]
    exact h.frames hs
  · rw [hkind]
    rcases hi.of_split hlast hsplit with ⟨rfl, rfl, rfl⟩ | ⟨k1, k2, hsplit, _, hsame⟩
    · rw [ha.caught, hi.old]
      rcases hlast with rfl | ⟨_, hhandler⟩
      · rw [List.append_nil]
      · exact ⟨fun hh => absurd hh.1 hhandler, fun hh => absurd hh.1 hhandler⟩
    · rw [h.caught hsplit]
      exact and_congr_right hsame
  · rw [hkind] at hk
    rcases hi.of_mem hop with hs | ⟨rfl, rfl⟩
    · exact h.updates hs hk
    · exact ha.updates hk

theorem push (h : SoundUpTo pending b) (ha : b.Accepts pending here op) : (b.push here op).Sound :=
  h.insert (f := (·.push op)) ha (b.extends_push op ha.lt) (b.inserts_push op ha.lt) ha.needs
    (.inl rfl)

end SoundUpTo
end Body
end ClassAssembler
