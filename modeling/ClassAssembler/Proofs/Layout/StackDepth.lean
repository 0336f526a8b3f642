import ClassAssembler.Proofs.Layout.Positions

/-!
# Stack depth

Every entry of the code of a body is reached with one and the same stack on all ways to it, and
finds the values it takes.
-/

namespace ClassAssembler

open Body

/-- The stack behind an entry, by the widths of its values. There is none if the entry does not
find the values it takes. -/
def Entry.effect : Entry → List Nat → Option (List Nat)
  | label _, stack => some stack
  | insn i, stack => i.reshape stack
  | branch b, stack => if b.uses ≤ stack.length then some (stack.drop b.uses) else none

/-- The stacks at the positions of some code fit together. -/
structure Code.Stacked (code : Code) (shapes : Nat → List Nat) : Prop where
  start : shapes 0 = []
  handler : ∀ range ∈ code.ranges, ∀ j, code.entries[j]? = some (.label range.handler) →
    (shapes j).length = 1
  /-- Every entry finds what it takes, and leaves what is found wherever control goes. -/
  step : ∀ i e, code.entries[i]? = some e → ∃ stack, e.effect (shapes i) = some stack ∧
    (e.fallsThrough → shapes (i + 1) = stack) ∧
    ∀ t ∈ e.targets, ∀ j, code.entries[j]? = some (.label t) → shapes j = stack
  value : ∀ i kind, code.entries[i]? = some (.branch (.ret (some kind))) → (shapes i).length = 1
  throw : ∀ i, code.entries[i]? = some (.branch .throw) → (shapes i).length = 1
  void : ∀ i, code.entries[i]? = some (.branch (.ret none)) → (shapes i).length = 0

namespace Plot

open Point

section viewed

variable {b : Body} {homes : Array Home} {ψ : Label → Option Status} {views : Nat → View}
  {i : Nat} {p : Point} {e : Entry}

section

variable (h : Viewed b homes ψ True views)
include h

theorem Viewed.effect (hnodup : (placed (b.points homes)).Nodup)
    (hp : (b.points homes)[i]? = some p) (he : p.code? = some e) :
    ∃ stack, e.effect (views i).stack = some stack ∧
      (e.fallsThrough → (views (i + 1)).stack = stack) ∧
      ∀ t ∈ e.targets, ∀ j, Stands code? (b.points homes) j (.label t) →
        (views j).stack = stack := by
  obtain ⟨σ, hmove, hσ⟩ := h.move hp
  have hnext : (views (i + 1)).stack = σ.stack := (hσ.stack trivial).symm
  cases hmove with
  | @label l status hlabel =>
    cases he
    exact ⟨_, rfl, fun _ => hnext.trans (hlabel.stack trivial).symm, nofun⟩
  | border =>
    cases he
    exact ⟨_, rfl, fun _ => hnext, nofun⟩
  | plain _ hreshape =>
    cases he
    exact ⟨_, hreshape trivial, fun _ => hnext, nofun⟩
  | @load v k site =>
    cases he
    refine ⟨_, Instruction.reshape_push rfl rfl ?_ _, fun _ => hnext, nofun⟩
    show some (Lay.typeOf b v).kind.words = _
    rw [FieldType.words_kind, width_typeOf]
  | @store v k w ws site _ hstack =>
    cases he
    refine ⟨ws, ?_, fun _ => hnext, nofun⟩
    rw [hstack trivial]
    exact Instruction.reshape_eq rfl (Nat.succ_le_succ (Nat.zero_le _))
  | inc =>
    cases he
    refine ⟨_, ?_, fun _ => hnext, nofun⟩
    exact Instruction.reshape_eq rfl (Nat.zero_le _)
  | @branch _ br site huses htargets hfalls =>
    cases he
    refine ⟨_, if_pos (huses trivial).1, fun hf => ?_, fun t ht j hj => ?_⟩
    · rw [hnext, hfalls hf]
      rfl
    · obtain ⟨status, hψ, hpop⟩ := htargets t ht
      rw [(h.label hnodup hψ hj).stack trivial, ← hpop.stack trivial]
      rfl
  | reads => cases he
  | yields => cases he
  | protect => cases he

theorem Viewed.stack_of_none
    (hp : (b.points homes)[i]? = some p) (he : p.code? = none) :
    (views (i + 1)).stack = (views i).stack := by
  obtain ⟨σ, hmove, hσ⟩ := h.move hp
  rw [← hσ.stack trivial]
  cases hmove with
  | reads => rfl
  | yields => rfl
  | protect => rfl
  | _ => cases he

theorem Viewed.exact {br : Branch} {site : Option Site}
    (hp : (b.points homes)[i]? = some (.branch br site)) (ht : br.targets = []) :
    (views i).stack.length = br.uses := by
  obtain ⟨σ, hmove, _⟩ := h.move hp
  cases hmove with
  | branch huses => exact (huses trivial).2 ht

end

end viewed

end Plot

theorem exists_carried {β : Type} (P : Nat → Prop) (f : Nat → β) (n : Nat) :
    ∃ g : Nat → β, (∀ i, P i → g i = f i) ∧ ∀ i < n, ¬ P i → g i = g (i + 1) := by
  induction n generalizing P f with
  | zero => exact ⟨f, fun _ _ => rfl, fun _ h => absurd h (Nat.not_lt_zero _)⟩
  | succ n ih =>
    obtain ⟨g, hsame, hcarried⟩ := ih (fun i => P (i + 1)) fun i => f (i + 1)
    refine ⟨fun i => if i = 0 then (open Classical in if P 0 then f 0 else g 0) else g (i - 1),
      fun i hi => ?_, fun i hi hnot => ?_⟩
    · cases i with
      | zero => simp [hi]
      | succ i => simpa using hsame i hi
    · cases i with
      | zero => simp [hnot]
      | succ i => simpa using hcarried i (Nat.lt_of_succ_lt_succ hi) hnot

namespace Recorder

open Point Plot

/-- Stacks at all positions of a body: those at the positions that control can be at, carried up
over the others. -/
structure Carries (b : Body) (homes : Array Home) (free params : Nat) (views : Nat → View)
    (shapes : Nat → List Nat) : Prop where
  live : ∀ i, LiveAt free params (b.points homes) i → shapes i = (views i).stack
  dead : ∀ i < (b.points homes).length + 1, ¬ LiveAt free params (b.points homes) i →
    shapes i = shapes (i + 1)

namespace Carries

variable {b : Body} {homes : Array Home} {ψ : Label → Option Status} {views : Nat → View}
  {free params : Nat} {shapes : Nat → List Nat} {i : Nat} {p : Point} {e : Entry}

theorem same (h : Carries b homes free params views shapes) (hv : Viewed b homes ψ True views)
    (hi : i < (b.points homes).length + 1)
    (hnone : kept? free params (b.points homes) i = none) : shapes (i + 1) = shapes i := by
  by_cases hlive : LiveAt free params (b.points homes) i
  · obtain ⟨p, hp, he⟩ := exists_mark hi hnone hlive
    rw [h.live i hlive, h.live (i + 1) (.inl (hlive.skip hp he)), hv.stack_of_none hp he]
  · exact (h.dead i hi hlive).symm

theorem step (h : Carries b homes free params views shapes) (hv : Viewed b homes ψ True views)
    (hregular : Regular (b.points homes)) (hp : (b.points homes)[i]? = some p)
    (he : p.code? = some e) (hkeep : e.isLabel ∨ Live false free params (b.points homes) i) :
    ∃ stack, e.effect (shapes i) = some stack ∧ (e.fallsThrough → shapes (i + 1) = stack) ∧
      ∀ t ∈ e.targets, ∀ j, Stands code? (b.points homes) j (.label t) → shapes j = stack := by
  by_cases hlive : LiveAt free params (b.points homes) i
  · obtain ⟨stack, heffect, hnext, htargets⟩ := hv.effect hregular.nodup hp he
    rw [h.live i hlive]
    refine ⟨stack, heffect, fun hfalls => ?_, fun t ht j hj => ?_⟩
    · rw [h.live (i + 1) (.inl (hlive.next ⟨p, hp, he⟩ hfalls)), hnext hfalls]
    · have hbranch : LiveAt free params (b.points homes) j := by
        obtain ⟨br, site, rfl, rfl⟩ := exists_branch he ht
        exact liveAt_target hregular hp (hkeep.resolve_left nofun) ht hj
      rw [h.live j hbranch, htargets t ht j hj]
  · -- A label that nothing leads to.
    have hlabel : e.isLabel := hkeep.resolve_right fun hl => hlive (.inl hl)
    have hi := (List.getElem?_eq_some_iff.mp hp).1
    cases e with
    | label l => exact ⟨_, rfl, fun _ => (h.dead i (Nat.lt_succ_of_lt hi) hlive).symm, nofun⟩
    | _ => cases hlabel

end Carries
end Recorder

namespace Body

variable {b b' : Body}

theorem initsVoid_completeInit (hb : b.Sound) (hinit : b.completeInit = .ok b')
    (h : ∀ s, ∀ op ∈ b.operations s, op.InitsVoid) : ∀ s, ∀ op ∈ b'.operations s, op.InitsVoid := by
  intro s op hop
  rcases mem_of_completeInit hb hinit hop with hop | rfl
  · exact h s op hop
  · intro kind method hmem _
    cases List.mem_singleton.mp hmem
    rfl

end Body

namespace Recorder

open Point Plot

variable {b : Body} {ψ : Label → Option Status} {views : Nat → View} {free params : Nat}

/-- What is recorded of the points of a body has a stack for every position, if the points have. -/
theorem stacked_kept {homes : Array Home} {code : Code} (hv : Viewed b homes ψ True views)
    (hregular : Regular (b.points homes))
    (hentries : code.entries = (List.range ((b.points homes).length + 1)).filterMap
      (kept? free params (b.points homes)))
    (hranges : code.ranges =
      (upTo false free params (b.points homes) (b.points homes).length).ranges.toList) :
    ∃ shapes, code.Stacked shapes := by
  obtain ⟨at', hlive, hdead⟩ := exists_carried (LiveAt free params (b.points homes))
    (fun i => (views i).stack) ((b.points homes).length + 1)
  have hc : Carries b homes free params views at' := ⟨hlive, hdead⟩
  have hrank : ∀ i p, (List.range ((b.points homes).length + 1))[i]? = some p →
      kept? free params (b.points homes) p = none → at' (i + 1) = at' i := by
    intro i p hp hnone
    obtain ⟨hi, rfl⟩ := List.getElem?_eq_some_iff.mp hp
    rw [List.length_range] at hi
    rw [List.getElem_range] at hnone
    exact hc.same hv hi hnone
  obtain ⟨shapes, hshapes⟩ := exists_of_rank hrank
  have hfind : ∀ {x : Nat} {e : Entry}, code.entries[x]? = some e →
      ∃ i, Stands (kept? free params (b.points homes))
        (List.range ((b.points homes).length + 1)) i e ∧
        shapes x = at' i ∧ (shapes (x + 1) = at' (i + 1)) := by
    intro x e hx
    rw [hentries] at hx
    obtain ⟨i, hi, rfl⟩ := exists_stands (e := e) ⟨e, hx, rfl⟩
    refine ⟨i, hi, hshapes i (Nat.le_of_lt hi.lt_length), ?_⟩
    rw [← hi.rank_succ]
    exact hshapes (i + 1) hi.lt_length
  have hbranch : ∀ {x : Nat} {br : Branch}, code.entries[x]? = some (.branch br) →
      (∃ i site, (b.points homes)[i]? = some (.branch br site) ∧ shapes x = (views i).stack) ∨
        br = .ret none ∧ shapes x = [] := by
    intro x br hx
    obtain ⟨i, hi, hsame, _⟩ := hfind hx
    rcases stands_kept hi with ⟨p, hp, he, hkeep⟩ | ⟨rfl, hend, he⟩
    · cases p with
      | branch br site =>
        cases he
        exact .inl ⟨i, site, hp, hsame.trans (hlive i (.inl (hkeep.resolve_left nofun)))⟩
      | _ => cases he
    · cases he
      exact .inr ⟨rfl, by rw [hsame, hlive _ (.inl hend), hv.last]⟩
  refine ⟨shapes, ?_, fun range hr x hx => ?_, fun x e hx => ?_, fun x kind hx => ?_,
    fun x hx => ?_, fun x hx => ?_⟩
  · have hzero := hshapes 0 (Nat.zero_le _)
    rw [show rank (kept? free params (b.points homes))
      (List.range ((b.points homes).length + 1)) 0 = 0 from rfl] at hzero
    rw [hzero, hlive 0 (.inl rfl)]
    exact (hv.start.stack trivial).symm
  · obtain ⟨i, hi, hsame, _⟩ := hfind hx
    rw [hranges] at hr
    have hi := stands_kept_label hi
    obtain ⟨k, _, start, stop, holes, hp, _⟩ := (mem_ranges_iff hregular.nodup).mp hr
    obtain ⟨kept, _, hψ, _⟩ := hv.guarded hp
    rw [hsame, hlive i (liveAt_handler hregular hr hi),
      (hv.label hregular.nodup hψ hi).stack trivial]
    rfl
  · obtain ⟨i, hi, hsame, hnext⟩ := hfind hx
    rw [hsame, hnext]
    rcases stands_kept hi with ⟨p, hp, he, hkeep⟩ | ⟨_, _, rfl⟩
    · obtain ⟨stack, heffect, hfalls, htargets⟩ := hc.step hv hregular hp he hkeep
      refine ⟨stack, heffect, hfalls, fun t ht y hy => ?_⟩
      obtain ⟨j, hj, hsame, _⟩ := hfind hy
      rw [hsame]
      exact htargets t ht j (stands_kept_label hj)
    · exact ⟨_, rfl, nofun, nofun⟩
  · obtain ⟨i, site, hp, hsame⟩ := (hbranch hx).resolve_right nofun
    rw [hsame]
    exact hv.exact hp rfl
  · obtain ⟨i, site, hp, hsame⟩ := (hbranch hx).resolve_right nofun
    rw [hsame]
    exact hv.exact hp rfl
  · rcases hbranch hx with ⟨i, site, hp, hsame⟩ | ⟨_, hsame⟩
    · rw [hsame]
      exact hv.exact hp rfl
    · rw [hsame]
      rfl

end Recorder

/-- The code of a body has a stack for every label and instruction, if no constructor that is
called returns anything. -/
theorem stack_discipline {b : Body} {code : Code} {notice : Notice} (hb : b.Built)
    (hvoid : ∀ s, ∀ op ∈ b.operations s, op.InitsVoid) (hcode : b.toCode = .ok (code, notice)) :
    WellPlaced code.entries code.ranges ∧ ∃ shapes, code.Stacked shapes := by
  obtain ⟨b', hinit⟩ := exists_completeInit hcode
  have hsound := (hb.finished.completeInit hinit).sound
  obtain ⟨layout, _, hentries, hranges⟩ := toCode_kept hsound hinit hcode
  have hvoid' : True → ∀ s, b'.Region 0 s → ∀ op ∈ b'.operations s, op.InitsVoid := fun _ s _ =>
    initsVoid_completeInit hb.finished.sound hinit hvoid s
  obtain ⟨ψ, views, hv⟩ := Plot.exists_viewed hsound hvoid'
  exact ⟨hb.finished.wellPlaced hcode,
    Recorder.stacked_kept hv (regular hsound _) hentries hranges⟩

def Instruction.initVoid : Instruction → Bool
  | .invoke _ method => !method.isConstructor || method.type.returns.isNone
  | _ => true

theorem Instruction.initsVoid_of_all {is : List Instruction} (h : is.all initVoid) :
    InitsVoid is := by
  intro kind method hmem hinit
  have hvoid := List.all_eq_true.mp h _ hmem
  simpa [initVoid, hinit] using hvoid

def Operation.initVoid : Operation → Bool
  | .simple (.insns is) _ _ => is.all Instruction.initVoid
  | .simple (.new constructor) _ _ => constructor.type.returns.isNone
  | _ => true

theorem Operation.initsVoid_of_initVoid {op : Operation} (h : op.initVoid) : op.InitsVoid := by
  cases op with
  | simple action operands result =>
    cases action with
    | insns is => exact Instruction.initsVoid_of_all h
    | new constructor => exact Option.isNone_iff_eq_none.mp h
    | _ => trivial
  | _ => trivial

theorem Body.initsVoid_of_all {b : Body}
    (h : b.scopes.toList.all fun scope => scope.operations.toList.all Operation.initVoid) :
    ∀ s, ∀ op ∈ b.operations s, op.InitsVoid := by
  intro s op hop
  unfold operations at hop
  cases hs : b.scopes[s]? with
  | none =>
    rw [hs] at hop
    cases hop
  | some scope =>
    rw [hs] at hop
    have hscope := List.all_eq_true.mp h scope (Array.mem_toList_iff.mpr (Array.mem_of_getElem? hs))
    exact Operation.initsVoid_of_initVoid (List.all_eq_true.mp hscope op hop)

/-- A body with an exit out of a try statement has code with a stack everywhere. -/
theorem stack_discipline_earlyReturn : ∃ code notice,
    earlyReturn.toCode = .ok (code, notice) ∧
      (∀ s, ∀ op ∈ earlyReturn.operations s, op.InitsVoid) ∧
      WellPlaced code.entries code.ranges ∧ ∃ shapes, code.Stacked shapes := by
  obtain ⟨code, notice, hcode⟩ := exists_code_earlyReturn
  have hvoid := initsVoid_of_all (b := earlyReturn) (by decide +kernel)
  exact ⟨code, notice, hcode, hvoid, stack_discipline built_earlyReturn hvoid hcode⟩

end ClassAssembler
