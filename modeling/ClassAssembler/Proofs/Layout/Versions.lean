import ClassAssembler.Proofs.Layout.Handlers

/-!
# The flow of values

Every time a value comes to be it has a new version.
-/

namespace ClassAssembler

open Instruction

/-- A value, as it came to be at a time. -/
structure Version where
  value : Nat
  time : Nat
  deriving DecidableEq

/-- What is where, after some steps. -/
structure Memory where
  time : Nat
  words : Nat → Option Version
  newest : Nat → Option Nat
  stack : List (Cell (Option Version))
  /-- The result that an operation has left, if nothing was executed since. -/
  result : Option Version

/-- The words of the local variables that an instruction writes: the first, and how many. -/
def Instruction.writes? : Instruction → Option (Nat × Nat)
  | store kind slot => some (slot.toNat, kind.words)
  | inc slot _ => some (slot.toNat, 1)
  | _ => none

def Instruction.writesTo (i : Instruction) (w : Nat) : Bool :=
  match i.writes? with
  | some (first, words) => first ≤ w && w < first + words
  | none => false

namespace Body

variable (b : Body)

def isResult (v : Nat) : Bool :=
  match b.values[v]? with
  | some ⟨_, _, .result⟩ => true
  | _ => false

/-- A word of the local variables that a method is called with holds a parameter. -/
def arrivesIn (w v : Nat) : Bool :=
  match b.values[v]? with
  | some ⟨type, _, .param slot⟩ => slot.toNat ≤ w && w < slot.toNat + type.width
  | _ => false

end Body

namespace Plot.Move

variable {b : Body} {homes : Array Home} {ψ : Label → Option Status} {voids : Prop} {σ τ : View}

theorem touches {i : Instruction} {role : Role} {site : Site} {first : UInt16} {words : Nat}
    (h : Move b homes ψ voids σ (.insn i role site) τ)
    (hnamed : Lay.Named homes [.insn i role site]) (haccess : i.localAccess? = some (first,
      words)) :
    ∃ v, role.value? = some v ∧
      ∀ w, b.Occupies homes v w ↔ first.toNat ≤ w ∧ w < first.toNat + words := by
  have hslot := fun v k => hnamed i role site (.head _) v k
  have hoccupies : ∀ {v k : Nat}, role.value? = some v → Lay.homeOf homes v = .slot k →
      ∀ w, b.Occupies homes v w ↔
        (UInt16.ofNat k).toNat ≤ w ∧ w < (UInt16.ofNat k).toNat + b.widthOf v := by
    intro v k hv hk w
    rw [UInt16.toNat_ofNat_of_lt' (hslot v k hv hk), Body.Occupies, hk]
    simp
  cases h with
  | plain hnone => rw [hnone] at haccess; cases haccess
  | @load v k _ _ hk =>
    refine ⟨v, rfl, ?_⟩
    cases haccess
    rw [FieldType.words_kind, Body.width_typeOf]
    exact hoccupies rfl hk
  | @store v k _ _ _ hk =>
    refine ⟨v, rfl, ?_⟩
    cases haccess
    rw [FieldType.words_kind, Body.width_typeOf]
    exact hoccupies rfl hk
  | @inc v k _ _ hk _ _ hw =>
    refine ⟨v, rfl, ?_⟩
    cases haccess
    rw [← hw.eq]
    exact hoccupies rfl hk

end Plot.Move

namespace Memory

variable (b : Body)

def start : Memory where
  time := 1
  words w := (b.params.find? (b.arrivesIn w)).map fun v => ⟨v, 0⟩
  newest v := if v ∈ b.params then some 0 else none
  stack := []
  result := none

/-- What an instruction pushes. Two words are a value only if they belong together. -/
def loaded (m : Memory) : Instruction → Option Version
  | .load kind slot => (m.words slot.toNat).filter fun x =>
      m.words (slot.toNat + kind.words - 1) = some x
  | _ => none

/-- A result is written as its operation has left it. Anything else comes to be when it is
written. -/
def written (m : Memory) : Role → Option Version
  | .store v => if b.isResult v then m.result.filter fun x => x.value = v else some ⟨v, m.time⟩
  | _ => none

def renewed (m : Memory) : Role → Nat → Option Nat
  | .store v, u => if u = v ∧ b.isResult v = false then some m.time else m.newest u
  | _, u => m.newest u

def execute (m : Memory) (i : Instruction) (role : Role) : Memory where
  time := m.time + 1
  words w := if i.writesTo w then m.written b role else m.words w
  newest := m.renewed b role
  stack := (i.act (m.loaded i) m.stack).getD []
  result := none

def yield (m : Memory) (v : Nat) : Memory where
  time := m.time + 1
  words := m.words
  newest u := if u = v then some m.time else m.newest u
  stack := (m.stack.take 1).map (fun cell => ⟨some ⟨v, m.time⟩, cell.words⟩) ++ m.stack.drop 1
  result := some ⟨v, m.time⟩

def pass (m : Memory) : Point → Memory
  | .yields v => m.yield v
  | .insn i role _ => m.execute b i role
  | .branch br _ => { m with time := m.time + 1, stack := m.stack.drop br.uses, result := none }
  | _ => { m with time := m.time + 1 }

def raise (m : Memory) : Memory :=
    { m with time := m.time + 1, stack := [⟨none, 1⟩], result := none }

def leave (ps : List Point) (m : Memory) (i : Nat) : Passage → Memory
  | .passed => (ps[i]?.map (m.pass b)).getD m
  | .thrown true => ((ps[i]?.map (m.pass b)).getD m).raise
  | .thrown false => m.raise

def after (ps : List Point) : List (Nat × Passage) → Memory
  | [] => start b
  | (i, how) :: past => (after ps past).leave b ps i how

def Holds (homes : Array Home) (m : Memory) (v : Nat) : Prop :=
  ∃ t, m.newest v = some t ∧ ∀ w, b.Occupies homes v w → m.words w = some ⟨v, t⟩

def Shows (m : Memory) (v : Nat) : Prop :=
  ∃ t, m.newest v = some t ∧ m.stack.head?.bind Cell.tag = some ⟨v, t⟩

/-- The newest version of a value was left by the operation that has ended last. -/
def Leaves (m : Memory) (v : Nat) : Prop := ∃ t, m.newest v = some t ∧ m.result = some ⟨v, t⟩

/-- What is known at a point is so. -/
structure Keeps (homes : Array Home) (voids : Prop) (m : Memory) (σ : View) : Prop where
  kept : ∀ v ∈ σ.kept, m.Holds b homes v
  left : ∀ v, σ.top = some v → m.Leaves v
  top : voids → ∀ v, σ.top = some v → m.Shows v
  stack : voids → m.stack.map Cell.words = σ.stack

variable {b} {homes : Array Home} {ψ : Label → Option Status} {voids : Prop} {m : Memory}
  {σ τ : View} {p : Point}

theorem Keeps.suits (h : Keeps b homes voids m σ) (h' : σ.Suits voids τ) :
    Keeps b homes voids m τ where
  kept v hv := h.kept v (h'.kept hv)
  left v hv := h.left v (h'.top v hv)
  top hvoids v hv := h.top hvoids v (h'.top v hv)
  stack hvoids := (h.stack hvoids).trans (h'.stack hvoids)

theorem Keeps.apart (h : Keeps b homes voids m σ) {u v w : Nat} (hu : u ∈ σ.kept) (hv : v ∈ σ.kept)
    (hne : u ≠ v) (hw : b.Occupies homes u w) : ¬ b.Occupies homes v w := by
  intro hw'
  obtain ⟨t, _, hwords⟩ := h.kept u hu
  obtain ⟨t', _, hwords'⟩ := h.kept v hv
  have hsame := (hwords w hw).symm.trans (hwords' w hw')
  cases hsame
  exact hne rfl

variable {v : Nat} {i : Instruction} {role : Role}

theorem isResult_iff : b.isResult v ↔ b.HasOrigin v .result := by
  unfold Body.isResult Body.HasOrigin
  cases b.values[v]? with
  | none => simp
  | some info =>
    obtain ⟨type, owner, origin⟩ := info
    cases origin <;> simp

theorem arrivesIn_iff (hb : b.Sound) {v w : Nat} (hv : v ∈ b.params) :
    b.arrivesIn w v ↔ b.Occupies b.allocate.homes v w := by
  obtain ⟨⟨type, owner, origin⟩, k, hinfo, rfl, hhome, hwidth⟩ := Body.home_param hb hv
  unfold Body.arrivesIn Body.Occupies
  rw [hinfo, hhome, hwidth]
  simp

theorem keeps_start (hb : b.Sound) :
    Keeps b b.allocate.homes voids (start b) ⟨[], none, b.params⟩ where
  kept v hv := by
    refine ⟨0, if_pos hv, fun w hw => ?_⟩
    have hfound : b.params.find? (b.arrivesIn w) = some v := by
      cases hfind : b.params.find? (b.arrivesIn w) with
      | none => exact absurd ((arrivesIn_iff hb hv).mpr hw) (List.find?_eq_none.mp hfind v hv)
      | some u =>
        have hu := List.mem_of_find?_eq_some hfind
        have hw' := (arrivesIn_iff hb hu).mp (List.find?_some hfind)
        by_cases hne : u = v
        · rw [hne]
        · exact absurd hw' ((Body.tidy_params hb).apart v hv u hu hne w hw)
    show (b.params.find? _).map _ = _
    rw [hfound]
    rfl
  left v hv := by cases hv
  top _ v hv := by cases hv
  stack _ := rfl

theorem Holds.of_eq {m' : Memory} (h : m.Holds b homes v) (hwords : m'.words = m.words)
    (hnewest : m'.newest v = m.newest v) : m'.Holds b homes v := by
  obtain ⟨t, ht, hw⟩ := h
  exact ⟨t, by rw [hnewest, ht], by rw [hwords]; exact hw⟩

theorem Holds.execute (h : m.Holds b homes v)
    (hwrites : ∀ w, b.Occupies homes v w → i.writesTo w = false) (hrole : role ≠ .store v) :
    (m.execute b i role).Holds b homes v := by
  obtain ⟨t, ht, hw⟩ := h
  refine ⟨t, ?_, fun w hv => ?_⟩
  · cases role with
    | store u =>
      show (if v = u ∧ _ then _ else _) = _
      rw [if_neg fun heq => hrole (by rw [heq.1]), ht]
    | _ => exact ht
  · show (if i.writesTo w = true then _ else _) = _
    rw [hwrites w hv, if_neg Bool.false_ne_true, hw w hv]

theorem stack_execute {ws : List Nat}
    (hstack : m.stack.map Cell.words = σ.stack) (hact : i.reshape σ.stack = some ws) :
    (m.execute b i role).stack.map Cell.words = ws := by
  rw [← hstack, reshape_act (m.loaded i)] at hact
  obtain ⟨stack, hstack, rfl⟩ := Option.map_eq_some_iff.mp hact
  show ((i.act (m.loaded i) m.stack).getD []).map Cell.words = _
  rw [hstack]
  rfl

theorem Keeps.execute {ws : List Nat} (h : Keeps b homes voids m σ)
    (hwrites : i.writes? = none) (hrole : ∀ v, role ≠ .store v)
    (hact : voids → i.reshape σ.stack = some ws) :
    Keeps b homes voids (m.execute b i role) ⟨ws, none, σ.kept⟩ where
  kept v hv := (h.kept v hv).execute (fun w _ => by rw [writesTo, hwrites]) (hrole v)
  left v hv := by cases hv
  top _ v hv := by cases hv
  stack hvoids := stack_execute (h.stack hvoids) (hact hvoids)

theorem Keeps.write {ws kept : List Nat} (h : Keeps b homes voids m σ)
    (hwrites : ∀ w, i.writesTo w ↔ b.Occupies homes v w) (halone : b.Alone homes σ.kept v)
    (htop : b.isResult v → σ.top = some v) (hkept : ∀ u ∈ kept, u ∈ σ.kept ∨ u = v)
    (hact : voids → i.reshape σ.stack = some ws) :
    Keeps b homes voids (m.execute b i (.store v)) ⟨ws, none, kept⟩ where
  kept u hu := by
    by_cases heq : u = v
    · subst heq
      have hwords : ∀ w, b.Occupies homes u w →
          (m.execute b i (.store u)).words w = m.written b (.store u) := fun w hw =>
        if_pos ((hwrites w).mpr hw)
      cases hresult : b.isResult u with
      | true =>
        obtain ⟨t, ht, hleft⟩ := h.left u (htop hresult)
        refine ⟨t, ?_, fun w hw => ?_⟩
        · show (if u = u ∧ b.isResult u = false then _ else _) = _
          rw [hresult, if_neg fun hc => Bool.noConfusion hc.2, ht]
        · rw [hwords w hw]
          show (if b.isResult u = true then _ else _) = _
          rw [if_pos hresult, hleft]
          simp [Option.filter]
      | false =>
        refine ⟨m.time, if_pos ⟨rfl, hresult⟩, fun w hw => ?_⟩
        rw [hwords w hw]
        show (if b.isResult u = true then _ else _) = _
        rw [hresult, if_neg Bool.false_ne_true]
    · have hmem := (hkept u hu).resolve_right heq
      refine (h.kept u hmem).execute (fun w hw => ?_) fun hrole => ?_
      · rw [← Bool.not_eq_true, hwrites]
        exact fun hw' => halone u hmem heq w hw' hw
      · cases hrole
        exact heq rfl
  left u hu := by cases hu
  top _ u hu := by cases hu
  stack hvoids := stack_execute (h.stack hvoids) (hact hvoids)

theorem writesTo_iff {site : Site} (hmove : Plot.Move b homes ψ voids σ (.insn i (.store v) site) τ)
    (hnamed : Lay.Named homes [.insn i (.store v) site]) (w : Nat) :
    i.writesTo w ↔ b.Occupies homes v w := by
  obtain ⟨first, words, hwrites, haccess⟩ : ∃ first words,
      i.writes? = some (first.toNat, words) ∧ i.localAccess? = some (first, words) := by
    cases hmove <;> exact ⟨_, _, rfl, rfl⟩
  obtain ⟨u, hu, hoccupies⟩ := hmove.touches hnamed haccess
  cases hu
  rw [hoccupies, writesTo, hwrites]
  simp

theorem writes?_of_localAccess? (h : i.localAccess? = none) : i.writes? = none := by
  cases i with
  | store => cases h
  | inc => cases h
  | _ => rfl

theorem Keeps.yield (h : Keeps b homes voids m σ) (hv : v ∉ σ.kept)
    (hstack : voids → σ.stack ≠ []) :
    Keeps b homes voids (m.yield v) ⟨σ.stack, some v, σ.kept⟩ where
  kept u hu := by
    refine (h.kept u hu).of_eq rfl (if_neg ?_)
    rintro rfl
    exact hv hu
  left u hu := by
    cases hu
    exact ⟨m.time, if_pos rfl, rfl⟩
  top hvoids u hu := by
    cases hu
    refine ⟨m.time, if_pos rfl, ?_⟩
    have hwidths := h.stack hvoids
    unfold Memory.yield
    cases hm : m.stack with
    | nil =>
      rw [hm] at hwidths
      exact absurd hwidths.symm (hstack hvoids)
    | cons cell cells => rfl
  stack hvoids := by
    rw [← h.stack hvoids]
    unfold Memory.yield
    cases m.stack <;> rfl

theorem Keeps.branch (h : Keeps b homes voids m σ) (br : Branch) (site : Option Site) :
    Keeps b homes voids (m.pass b (.branch br site)) (σ.pop br.uses) where
  kept v hv := (h.kept v hv).of_eq rfl rfl
  left v hv := by cases hv
  top _ v hv := by cases hv
  stack hvoids := by
    show (m.stack.drop _).map Cell.words = _
    rw [List.map_drop, h.stack hvoids]
    rfl

theorem Keeps.raise {kept : List Nat} (h : ∀ v ∈ kept, m.Holds b homes v) :
    Keeps b homes voids m.raise (Plot.thrown kept).view where
  kept v hv := (h v hv).of_eq rfl rfl
  left v hv := by cases hv
  top _ v hv := by cases hv
  stack _ := rfl

theorem keeps_pass (hmove : Plot.Move b homes ψ voids σ p τ) (hnamed : Lay.Named homes [p])
    (h : Keeps b homes voids m σ) (hfalls : ∀ br site, p = .branch br site → br.fallsThrough) :
    Keeps b homes voids (m.pass b p) τ := by
  have hwrites : ∀ {i : Instruction} {v : Nat} {site : Site}, p = .insn i (.store v) site →
      ∀ w, i.writesTo w ↔ b.Occupies homes v w := by
    rintro i v site rfl
    exact writesTo_iff hmove hnamed
  -- Passing a mark changes only the time.
  have hmark : Keeps b homes voids { m with time := m.time + 1 } σ :=
    ⟨fun v hv => (h.kept v hv).of_eq rfl rfl, h.left, h.top, h.stack⟩
  cases hmove with
  | label hσ => exact hmark.suits hσ
  | border => exact hmark
  | plain hnone hact =>
    exact h.execute (writes?_of_localAccess? hnone) (fun v hv => by cases hv) hact
  | @load v k _ _ _ =>
    refine h.execute rfl (fun v hv => by cases hv) fun _ => reshape_push rfl rfl ?_ _
    show some (Lay.typeOf b v).kind.words = _
    rw [FieldType.words_kind, Body.width_typeOf]
  | store _ hstack halone htop =>
    refine h.write (hwrites rfl) halone (fun hr => htop (isResult_iff.mp hr))
      (fun u hu => ?_) fun hvoids => ?_
    · exact (List.mem_append.mp hu).imp_right List.mem_singleton.mp
    · rw [hstack hvoids]
      exact reshape_eq rfl (Nat.succ_le_succ (Nat.zero_le _))
  | inc _ _ hvar _ halone =>
    refine h.write (hwrites rfl) halone (fun hr => ?_) (fun u hu => .inl hu)
      fun _ => reshape_eq rfl (Nat.zero_le _)
    obtain ⟨info, hinfo, horigin⟩ := hvar
    obtain ⟨info', hinfo', horigin'⟩ := isResult_iff.mp hr
    rw [hinfo] at hinfo'
    cases hinfo'
    rw [horigin] at horigin'
    cases horigin'
  | branch _ _ hτ =>
    rw [hτ (hfalls _ _ rfl)]
    exact h.branch _ _
  | reads _ _ _ => exact hmark
  | yields hv hstack => exact h.yield hv hstack
  | protect _ => exact hmark

theorem holds_pass (hmove : Plot.Move b homes ψ voids σ p τ) (hnamed : Lay.Named homes [p])
    (h : Keeps b homes voids m σ) (hp : p.isInsn) (hv : v ∈ σ.kept) :
    (m.pass b p).Holds b homes v := by
  cases p with
  | branch br site => exact (h.branch br site).kept v hv
  | insn i role site =>
    refine (keeps_pass hmove hnamed h fun br site heq => by cases heq).kept v ?_
    cases hmove with
    | store => exact List.mem_append_left _ hv
    | _ => exact hv
  | _ => cases hp

end Memory
end ClassAssembler
