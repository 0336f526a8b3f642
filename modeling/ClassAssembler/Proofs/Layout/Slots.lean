import ClassAssembler.Proofs.Layout.Running

/-!
# Slots

The walk that gives values their homes takes slots one behind the other and frees them at the end
of each scope.
-/

namespace ClassAssembler

open Body Lay Allocation

variable {a : Allocation}

open List

namespace Body

/-- A result is read once, and what comes behind its operation begins by loading it. -/
def SingleUse (b : Body) (rest : List Operation) (v : Nat) : Prop :=
  b.allReads.count v = 1 ∧ rest.head?.bind Operation.top? = some v

instance (b : Body) (rest : List Operation) (v : Nat) : Decidable (b.SingleUse rest v) :=
  inferInstanceAs (Decidable (_ ∧ _))

/-- The values with slots that an operation introduces, if `rest` comes behind it. -/
def slotted (b : Body) (op : Operation) (rest : List Operation) : List Nat :=
  op.defines.filter fun v => v ∈ op.declared ∨ b.allReads.count v ≠ 0 ∧ ¬ b.SingleUse rest v

def widthSum (b : Body) : List Nat → Nat
  | [] => 0
  | v :: vs => b.widthOf v + b.widthSum vs

/-- Walking the scope tree one comes to the operations `rest` of a scope. -/
inductive Comes (b : Body) : (held : List Nat) → (scope : Nat) → (rest : List Operation) → Prop
  | root : Comes b [] 0 (b.operations 0)
  | next {held : List Nat} {s : Nat} {op : Operation} {rest : List Operation} :
      Comes b held s (op :: rest) → Comes b (held ++ b.slotted op rest) s rest
  | enter {held : List Nat} {s c : Nat} {op : Operation} {rest : List Operation} :
      Comes b held s (op :: rest) → c ∈ op.nested →
      Comes b (held ++ b.slotted op rest) c (b.operations c)

variable {b : Body} {held : List Nat} {s t v : Nat} {op : Operation} {rest : List Operation}

theorem widthSum_append (b : Body) (us vs : List Nat) :
    b.widthSum (us ++ vs) = b.widthSum us + b.widthSum vs := by
  induction us with
  | nil => exact (Nat.zero_add _).symm
  | cons u us ih => rw [cons_append, widthSum, widthSum, ih, Nat.add_assoc]

theorem wordsOf_filter {home : Nat → Home} {p : Nat → Bool} {vs : List Nat}
    (h : ∀ v ∈ vs, (home v).words (b.widthOf v) = if p v then b.widthOf v else 0) :
    b.wordsOf home vs = b.widthSum (vs.filter p) := by
  induction vs with
  | nil => rfl
  | cons v vs ih =>
    rw [wordsOf, h v mem_cons_self, ih fun u hu => h u (.tail _ hu),
      filter_cons]
    split
    · rfl
    · exact Nat.zero_add _

theorem mem_slotted : v ∈ b.slotted op rest ↔
    v ∈ op.defines ∧ (v ∈ op.declared ∨ b.allReads.count v ≠ 0 ∧ ¬ b.SingleUse rest v) := by
  rw [slotted, mem_filter, decide_eq_true_iff]

namespace Comes

theorem exists_before (h : b.Comes held s rest) : ∃ before, b.operations s = before ++ rest := by
  induction h with
  | root => exact ⟨[], rfl⟩
  | @next held s op rest _ ih =>
    obtain ⟨before, hops⟩ := ih
    exact ⟨before ++ [op], by rw [hops, List.append_assoc]; rfl⟩
  | enter => exact ⟨[], rfl⟩

theorem mem (h : b.Comes held s (op :: rest)) : op ∈ b.operations s := by
  obtain ⟨before, hops⟩ := h.exists_before
  rw [hops]
  exact mem_append_right _ mem_cons_self

theorem skip {before : List Operation} (h : b.Comes held s (before ++ rest)) :
    ∃ held', b.Comes held' s rest := by
  induction before generalizing held with
  | nil => exact ⟨held, h⟩
  | cons op before ih => exact ih h.next

end Comes

theorem exists_comes (hb : b.Sound) (ht : b.Region 0 t) {before : List Operation}
    (hops : b.operations t = before ++ op :: rest) : ∃ held, b.Comes held t (op :: rest) := by
  induction ht generalizing before op rest with
  | refl =>
    have hroot : b.Comes [] 0 (before ++ op :: rest) := hops ▸ .root
    exact hroot.skip
  | @step t c _ hc ih =>
    obtain ⟨outer, houter, hc⟩ := mem_flatMap.mp hc
    obtain ⟨l1, l2, hsplit⟩ := append_of_mem houter
    obtain ⟨held, hcomes⟩ := ih hsplit
    rcases mem_frames_or_nested hc with hframe | hnested
    · have hnil := operations_frame hb houter hframe
      rw [hops] at hnil
      cases (append_eq_nil_iff.mp hnil).2
    · have henter : b.Comes (held ++ b.slotted outer l2) c (before ++ op :: rest) :=
        hops ▸ hcomes.enter hnested
      exact henter.skip

end Body

namespace Allocation

open Body

variable {b : Body} {held : List Nat} {s v slot n depth : Nat} {op : Operation}
  {rest : List Operation} {next : Option Operation} {counts : Array Nat}

section

variable (hv : v < b.values.size)
include hv

theorem given_eq : given (reads b) op rest.head? slot v =
    if v ∈ op.declared then .slot slot else if b.allReads.count v = 0 then .nowhere
    else if b.SingleUse rest v then .stack else .slot slot := by
  rw [given, reads_eq b hv]
  rfl

theorem given_of_slotted (h : v ∈ b.slotted op rest) :
    given (reads b) op rest.head? slot v = .slot slot := by
  rw [given_eq hv]
  rcases (mem_slotted.mp h).2 with hdeclared | ⟨hread, hsingle⟩
  · rw [if_pos hdeclared]
  · rw [if_neg hread, if_neg hsingle]
    exact ite_self _

theorem given_of_not_slotted (hdefines : v ∈ op.defines)
    (h : v ∉ b.slotted op rest) (k : Nat) : given (reads b) op rest.head? slot v ≠ .slot k := by
  have hneither := fun hor => h (mem_slotted.mpr ⟨hdefines, hor⟩)
  rw [given_eq hv, if_neg fun hdeclared => hneither (.inl hdeclared)]
  split
  · exact nofun
  · next hread =>
    rw [if_pos (Classical.not_not.mp fun hsingle => hneither (.inr ⟨hread, hsingle⟩))]
    exact nofun

theorem given_result (hdeclared : v ∉ op.declared) :
    (given (reads b) op rest.head? slot v = .nowhere ↔ b.allReads.count v = 0) ∧
      (given (reads b) op rest.head? slot v = .stack ↔ b.SingleUse rest v) ∧
      (b.allReads.count v ≠ 0 → ¬ b.SingleUse rest v →
        given (reads b) op rest.head? slot v = .slot slot) := by
  rw [given_eq hv, if_neg hdeclared]
  by_cases hunread : b.allReads.count v = 0
  · have hsingle : ¬ b.SingleUse rest v := fun h => by
      have hone := h.1
      omega
    simp [hunread, hsingle]
  · by_cases hsingle : b.SingleUse rest v
    · simp [hunread, hsingle]
    · simp [hunread, hsingle]

end

theorem wordsOf_given (hvalues : ∀ v ∈ op.defines, v < b.values.size) {home : Nat → Home}
    (hhome : ∀ v ∈ op.defines, home v = given (reads b) op rest.head? slot v) :
    b.wordsOf home op.defines = b.widthSum (b.slotted op rest) := by
  refine wordsOf_filter fun v hv => ?_
  rw [hhome v hv]
  by_cases hslotted : v ∈ b.slotted op rest
  · rw [given_of_slotted (hvalues v hv) hslotted, if_pos (mem_filter.mp hslotted).2]
    rfl
  · rw [if_neg fun h => hslotted (mem_filter.mpr ⟨hv, h⟩)]
    have hnone : ∀ k, given (reads b) op rest.head? slot v ≠ .slot k :=
      given_of_not_slotted (hvalues v hv) hv hslotted
    cases hgiven : given (reads b) op rest.head? slot v with
    | slot k => exact absurd hgiven (hnone k)
    | _ => rfl

theorem housed_comes (hb : b.Sound) (h : b.Comes held s rest) :
    ∃ depth, b.scopes.size ≤ s + depth + 1 ∧ HousedFrom b (reads b) b.allocate.homes
      (Housed b (reads b) b.allocate.homes depth) rest (b.firstFree + b.widthSum held) := by
  have htaken : ∀ {held s op rest} (inner : Nat → Nat → Prop), b.Comes held s (op :: rest) →
      HousedFrom b (reads b) b.allocate.homes inner (op :: rest) (b.firstFree + b.widthSum held) →
      b.firstFree + b.widthSum held + taken b b.allocate.homes op =
        b.firstFree + b.widthSum (held ++ b.slotted op rest) := by
    intro held s op rest inner hcomes hhoused
    rw [widthSum_append, taken, wordsOf_given (fun v hv => ?_) hhoused.1, Nat.add_assoc]
    exact defines_lt hb (mem_flatMap.mpr ⟨op, hcomes.mem, hv⟩)
  induction h with
  | root =>
    obtain ⟨depth, hdepth⟩ := Nat.exists_eq_add_of_lt hb.rooted
    have hhoused := housed hb
    rw [hdepth] at hhoused
    exact ⟨0 + depth, by omega, hhoused⟩
  | next hcomes ih =>
    obtain ⟨depth, hdepth, hhoused⟩ := ih
    refine ⟨depth, hdepth, ?_⟩
    rw [← htaken _ hcomes hhoused]
    exact hhoused.2.2
  | @enter held s c op rest hcomes hc ih =>
    obtain ⟨depth, hdepth, hhoused⟩ := ih
    have howned := mem_owned hcomes.mem (mem_owned_of_nested hc)
    have hgt := hb.owned_gt howned
    have hlt := hb.owned_lt howned
    cases depth with
    | zero => omega
    | succ depth =>
      refine ⟨depth, by omega, ?_⟩
      rw [← htaken _ hcomes hhoused]
      exact hhoused.2.1 c hc

theorem home_comes (hb : b.Sound) (h : b.Comes held s (op :: rest)) (hv : v ∈ op.defines) :
    homeOf b.allocate.homes v =
      given (reads b) op rest.head? (b.firstFree + b.widthSum held) v := by
  obtain ⟨_, _, hhoused⟩ := housed_comes hb h
  exact hhoused.1 v hv

theorem nextSlot_scope (a : Allocation) : (scope b counts depth s a).nextSlot = a.nextSlot := by
  cases depth with
  | zero => rfl
  | succ depth => rfl

theorem scope_keeps {P : Allocation → Prop}
    (hoperation : ∀ {s op}, op ∈ b.operations s → ∀ next a, P a → P (a.operation b counts op next))
    (hfree : ∀ a slot, P a → P { a with nextSlot := slot }) (h : P a) :
    P (scope b counts depth s a) := by
  induction depth generalizing s a with
  | zero => exact h
  | succ depth ih =>
    have hops : ∀ ops, (∀ op ∈ ops, op ∈ b.operations s) → ∀ a, P a →
        P (operations b counts (scope b counts depth) ops a) := by
      intro ops hmem
      induction ops with
      | nil => exact fun a ha => ha
      | cons op rest ihops =>
        intro a ha
        refine ihops (fun o ho => hmem o (.tail _ ho)) _ ?_
        have hop := hoperation (hmem op mem_cons_self) rest.head? a ha
        generalize a.operation b counts op rest.head? = a' at hop
        induction op.nested generalizing a' with
        | nil => exact hop
        | cons c cs ihnested => exact ihnested _ (ih hop)
    exact hfree _ _ (hops _ (fun _ hop => hop) a h)

def Bounded (b : Body) (a : Allocation) : Prop :=
  ∀ v k, homeOf a.homes v = .slot k → k + b.widthOf v ≤ a.maxLocals

theorem bounded_operation (hfits : op.Fits b s) (h : Bounded b a) :
    Bounded b (a.operation b counts op next) := by
  intro v k hk
  have hsettles : Settles b counts op next a (a.operation b counts op next) :=
    settles_operation hfits a
  have hlt : v < a.homes.size := by
    rw [← hsettles.size]
    refine Nat.lt_of_not_le fun hge => ?_
    rw [homeOf, Array.getElem?_eq_none hge] at hk
    cases hk
  by_cases hv : v ∈ op.defines
  · rw [homeOf, hsettles.home v hv hlt, Option.getD_some] at hk
    cases hsettles.takes with
    | @some u hdefines hgiven hmax =>
      rw [hdefines, mem_singleton] at hv
      rw [hv, hgiven] at hk
      cases hk
      rw [hv]
      omega
    | none hnone => exact absurd hk (hnone v hv k)
  · rw [homeOf, hsettles.same v hv] at hk
    have hle := h v k hk
    cases hsettles.takes with
    | some _ _ hmax => omega
    | none _ hmax => omega

theorem bounded_allocate (hb : b.Sound) : Bounded b b.allocate := by
  refine scope_keeps (fun hop next a => bounded_operation (hb.fits hop)) (fun a slot ha => ha) ?_
  intro v k hk
  cases hv : b.values[v]? with
  | none =>
    simp only [homeOf, start, Array.getElem?_map, hv, Option.map_none, Option.getD_none] at hk
    cases hk
  | some info =>
    simp only [homeOf, start, Array.getElem?_map, hv, Option.map_some, Option.getD_some] at hk
    cases horigin : info.origin with
    | param slot =>
      rw [horigin] at hk
      cases hk
      have hle := hb.params.bound hv horigin
      rwa [widthOf, hv]
    | _ =>
      rw [horigin] at hk
      cases hk

/-- Some number is not exceeded by the slots of any value that one comes to. -/
def Spans (b : Body) (n : Nat) : Prop :=
  ∀ held s op rest v, b.Comes held s (op :: rest) → v ∈ b.slotted op rest →
    b.firstFree + b.widthSum held + b.widthOf v ≤ n

/-- One comes to some operations with an allocation in which the next slots are free. -/
structure Meets (b : Body) (held : List Nat) (s : Nat) (rest : List Operation) (a : Allocation) :
    Prop where
  comes : b.Comes held s rest
  nextSlot : a.nextSlot = b.firstFree + b.widthSum held

section

variable (hb : b.Sound)
include hb

theorem Meets.operation (h : Meets b held s (op :: rest) a) :
    (a.operation b (reads b) op rest.head?).nextSlot =
      b.firstFree + b.widthSum (held ++ b.slotted op rest) := by
  have hop := h.comes.mem
  have hsettles : Settles b (reads b) op rest.head? a (a.operation b (reads b) op rest.head?) :=
    settles_operation (hb.fits hop) a
  have hvalues : ∀ v ∈ op.defines, v < b.values.size := fun v hv =>
    defines_lt hb (mem_flatMap.mpr ⟨op, hop, hv⟩)
  rw [hsettles.nextSlot, wordsOf_given hvalues fun _ _ => rfl, h.nextSlot, widthSum_append,
    Nat.add_assoc]

theorem Meets.maxLocals_le (hn : Spans b n) (h : Meets b held s (op :: rest) a)
    (ha : a.maxLocals ≤ n) : (a.operation b (reads b) op rest.head?).maxLocals ≤ n := by
  have hop := h.comes.mem
  have hsettles : Settles b (reads b) op rest.head? a (a.operation b (reads b) op rest.head?) :=
    settles_operation (hb.fits hop) a
  cases hsettles.takes with
  | @some v hdefines hgiven hmax =>
    have hv : v ∈ op.defines := by rw [hdefines]; exact mem_cons_self
    have hlt : v < b.values.size := defines_lt hb (mem_flatMap.mpr ⟨op, hop, hv⟩)
    have hslotted : v ∈ b.slotted op rest := by
      refine Classical.not_not.mp fun hnot => ?_
      exact given_of_not_slotted hlt hv hnot _ hgiven
    have hle := hn _ _ _ _ _ h.comes hslotted
    rw [hmax, h.nextSlot]
    exact Nat.max_le.mpr ⟨ha, hle⟩
  | none _ hmax => exact hmax ▸ ha

theorem maxLocals_operations_le (hn : Spans b n)
    (hinner : ∀ {held c a}, Meets b held c (b.operations c) a → a.maxLocals ≤ n →
      (scope b (reads b) depth c a).maxLocals ≤ n) (h : Meets b held s rest a)
    (ha : a.maxLocals ≤ n) :
    (operations b (reads b) (scope b (reads b) depth) rest a).maxLocals ≤ n := by
  induction rest generalizing held a with
  | nil => exact ha
  | cons op rest ih =>
    -- The scopes inside the operation all begin at the same slot.
    have hnested : ∀ cs : List Nat, (∀ c ∈ cs, c ∈ op.nested) → ∀ a : Allocation,
        a.nextSlot = b.firstFree + b.widthSum (held ++ b.slotted op rest) → a.maxLocals ≤ n →
        (cs.foldl (fun a c => scope b (reads b) depth c a) a).nextSlot =
          b.firstFree + b.widthSum (held ++ b.slotted op rest) ∧
        (cs.foldl (fun a c => scope b (reads b) depth c a) a).maxLocals ≤ n := by
      intro cs hcs
      induction cs with
      | nil => exact fun a hnext ha => ⟨hnext, ha⟩
      | cons c cs ihcs =>
        intro a hnext ha
        refine ihcs (fun d hd => hcs d (.tail _ hd)) _ ?_ ?_
        · rw [nextSlot_scope, hnext]
        · exact hinner ⟨h.comes.enter (hcs c mem_cons_self), hnext⟩ ha
    obtain ⟨hnext, hmax⟩ := hnested op.nested (fun _ hc => hc) _ (h.operation hb)
      (h.maxLocals_le hb hn ha)
    exact ih ⟨h.comes.next, hnext⟩ hmax

theorem maxLocals_scope_le (hn : Spans b n) (depth : Nat)
    (h : Meets b held s (b.operations s) a) (ha : a.maxLocals ≤ n) :
    (scope b (reads b) depth s a).maxLocals ≤ n := by
  induction depth generalizing held s a with
  | zero => exact ha
  | succ depth ih => exact maxLocals_operations_le hb hn (fun h' ha' => ih h' ha') h ha

theorem firstFree_le : b.firstFree ≤ b.allocate.maxLocals := by
  refine scope_keeps (P := fun a => b.firstFree ≤ a.maxLocals) (fun {s op} hop next a ha => ?_)
    (fun a slot ha => ha) .refl
  have hsettles : Settles b (reads b) op next a (a.operation b (reads b) op next) :=
    settles_operation (hb.fits hop) a
  cases hsettles.takes with
  | some _ _ hmax => omega
  | none _ hmax => omega

theorem spans_maxLocals : Spans b b.allocate.maxLocals := by
  intro held s op rest v hcomes hv
  have hdefines := (mem_slotted.mp hv).1
  have hlt : v < b.values.size := defines_lt hb (mem_flatMap.mpr ⟨op, hcomes.mem, hdefines⟩)
  refine bounded_allocate hb v _ ?_
  rw [home_comes hb hcomes hdefines, given_of_slotted hlt hv]

/-- No slots are counted but those of the parameters and of the values that one comes to. -/
theorem maxLocals_attained : b.allocate.maxLocals = b.firstFree ∨
    ∃ held s op rest v, b.Comes held s (op :: rest) ∧ v ∈ b.slotted op rest ∧
      b.allocate.maxLocals = b.firstFree + b.widthSum held + b.widthOf v := by
  by_cases hfree : b.allocate.maxLocals = b.firstFree
  · exact .inl hfree
  refine .inr (Classical.not_not.mp fun hnone => ?_)
  have hle := firstFree_le hb
  -- Otherwise one slot less would do.
  have hspans : Spans b (b.allocate.maxLocals - 1) := by
    intro held s op rest v hcomes hv
    have hspan := spans_maxLocals hb _ _ _ _ _ hcomes hv
    have hne : b.allocate.maxLocals ≠ b.firstFree + b.widthSum held + b.widthOf v := fun heq =>
      hnone ⟨held, s, op, rest, v, hcomes, hv, heq⟩
    omega
  have hless : b.allocate.maxLocals ≤ b.allocate.maxLocals - 1 :=
    maxLocals_scope_le hb hspans b.scopes.size ⟨.root, rfl⟩ (show b.firstFree ≤ _ by omega)
  omega

end

end Allocation

/-- The code of a body counts no more slots than its allocation. -/
theorem Body.maxLocals_toCode_le {b b' : Body} {code : Code} {notice : Notice} (hb : b'.Sound)
    (hinit : b.completeInit = .ok b') (hcode : b.toCode = .ok (code, notice)) :
    code.maxLocals.toNat ≤ b'.allocate.maxLocals := by
  obtain ⟨layout, r, hlay, hend, hfinish⟩ := toCode_recorded hb hinit hcode
  obtain ⟨_, _, hlt, rfl⟩ := Recorder.finish_eq_ok_iff.mp hfinish
  have hnamed : Lay.Named b'.allocate.homes (b'.points b'.allocate.homes) := by
    rcases b'.layOut_eq b'.allocate.homes with ⟨_, _, _, _, hnamed⟩ | ⟨_, herror, _⟩
    · exact hnamed
    · rw [hlay] at herror
      cases herror
  show (UInt16.ofNat r.maxLocals).toNat ≤ _
  rw [UInt16.toNat_ofNat_of_lt' hlt, maxLocals_completeEnd hend, Recorder.upTo_length]
  exact Recorder.maxLocals_run_le (firstFree_le hb) fun p hp =>
    slots_le_of_fits hb hnamed (bounded_allocate hb) hp

/-- Every value has the home that its place in the scope tree asks for. A walk over the tree
comes to every operation that is laid out. A variable, and a result that is read and does not
stay on the stack, begins behind the first free slot and the values with slots that are there when
the walk comes to it. A result is nowhere just if it is never read, and stays on the stack just
if it is read once, first of all by the next operation of its scope. The slots that are counted
are the most that these values and the parameters need, and the code needs no more of them. -/
theorem slots_exact {b b' : Body} (hb : b.Built) (hb' : b' = b ∨ b.completeInit = .ok b') :
    (∀ s before op rest, b'.Region 0 s → b'.operations s = before ++ op :: rest →
      ∃ held, b'.Comes held s (op :: rest)) ∧
    (∀ held s op rest v, b'.Comes held s (op :: rest) → v ∈ op.defines →
      b'.HasOrigin v .variable ∧
          homeOf b'.allocate.homes v = .slot (b'.firstFree + b'.widthSum held) ∨
        b'.HasOrigin v .result ∧
          (homeOf b'.allocate.homes v = .nowhere ↔ b'.allReads.count v = 0) ∧
          (homeOf b'.allocate.homes v = .stack ↔ b'.SingleUse rest v) ∧
          (b'.allReads.count v ≠ 0 → ¬ b'.SingleUse rest v →
            homeOf b'.allocate.homes v = .slot (b'.firstFree + b'.widthSum held))) ∧
    b'.firstFree ≤ b'.allocate.maxLocals ∧
    (∀ held s op rest v, b'.Comes held s (op :: rest) → v ∈ b'.slotted op rest →
      b'.firstFree + b'.widthSum held + b'.widthOf v ≤ b'.allocate.maxLocals) ∧
    (b'.allocate.maxLocals = b'.firstFree ∨
      ∃ held s op rest v, b'.Comes held s (op :: rest) ∧ v ∈ b'.slotted op rest ∧
        b'.allocate.maxLocals = b'.firstFree + b'.widthSum held + b'.widthOf v) ∧
    ∀ code notice, b.completeInit = .ok b' → b.toCode = .ok (code, notice) →
      code.maxLocals.toNat ≤ b'.allocate.maxLocals := by
  have hsound : b'.Sound := by
    rcases hb' with rfl | hinit
    · exact hb.finished.sound
    · exact (hb.finished.completeInit hinit).sound
  refine ⟨fun s before op rest hs hops => exists_comes hsound hs hops,
    fun held s op rest v hcomes hv => ?_, firstFree_le hsound,
    spans_maxLocals hsound, maxLocals_attained hsound,
    fun code notice hinit hcode => maxLocals_toCode_le hsound hinit hcode⟩
  rw [home_comes hsound hcomes hv]
  by_cases hdeclared : v ∈ op.declared
  · obtain ⟨operands, result, rfl⟩ := exists_of_mem_declared hdeclared
    exact .inl ⟨(hsound.fits hcomes.mem).2.2, if_pos hdeclared⟩
  · obtain ⟨action, operands, rfl⟩ := (declared_or_result hv).resolve_left hdeclared
    have hlt : v < b'.values.size :=
      defines_lt hsound (mem_flatMap.mpr ⟨_, hcomes.mem, hv⟩)
    exact .inr ⟨hsound.results hcomes.mem, given_result hlt hdeclared⟩

/-- A loop that counts down: the counter begins behind the parameter, and two slots do. -/
theorem slots_exact_countdown :
    countdown.Built ∧ countdown.completeInit = .ok countdown ∧
      countdown.HasOrigin 1 .variable ∧
      homeOf countdown.allocate.homes 1 = .slot 1 ∧
      ∃ code notice, countdown.toCode = .ok (code, notice) ∧ code.maxLocals.toNat ≤ 2 := by
  have hinit : countdown.completeInit = .ok countdown :=
    completeInit_of_called (by decide +kernel)
  obtain ⟨code, notice, hcode⟩ := exists_code_countdown
  obtain ⟨_, hhomes, _, _, _, hlocals⟩ := slots_exact built_countdown (.inr hinit)
  have hops : countdown.operations 0 =
      [.simple (.store 1 true) [⟨0, []⟩] none, .loop 1 none, .ret none []] := by decide +kernel
  have hmax : countdown.allocate.maxLocals = 2 := by decide +kernel
  have horigin : countdown.values[1]?.map ValueInfo.origin = some .variable := by decide +kernel
  have hfree : countdown.firstFree = 1 := by decide +kernel
  have hroot : countdown.Comes [] 0 (countdown.operations 0) := .root
  rw [hops] at hroot
  have hhome := hhomes [] 0 _ _ 1 hroot mem_cons_self
  rw [hfree] at hhome
  refine ⟨built_countdown, hinit, Option.map_eq_some_iff.mp horigin, ?_, code, notice, hcode,
    hmax ▸ hlocals code notice hinit hcode⟩
  rcases hhome with ⟨_, hslot⟩ | ⟨⟨info, hinfo, hresult⟩, _⟩
  · exact hslot
  · rw [hinfo, Option.map_some, hresult] at horigin
    cases horigin

end ClassAssembler
