import ClassAssembler.Proofs.Body.Growth

/-!
# Bodies that are ready for a scope

A call of a builder works in a scope that is still open: no operation holds the scope, or one
around it, so whatever is read there is read before it is held.
-/

namespace ClassAssembler

open List Cleanup

def TryStatement.guarded (T : TryStatement) : List Nat := T.body :: T.clauses.map CatchClause.scope

def Operation.cleanups : Operation → List Cleanup
  | jump _ _ cleanups | ret _ cleanups => cleanups
  | tryCatch T => T.bodyExit ++ T.clauses.flatMap CatchClause.exit
  | _ => []

theorem Operation.mem_nested_tryCatch {T : TryStatement} {c : Nat} :
    c ∈ (tryCatch T).nested ↔ c = T.body ∨ c ∈ T.bodyExit.map scope ∨
      (∃ clause ∈ T.clauses, c ∈ clause.scope :: clause.exit.map scope) ∨
      T.catchAll = some c := by
  show c ∈ _ :: (_ ++ _ ++ _) ↔ _
  rw [mem_cons, mem_append, mem_append, mem_flatMap, Option.mem_toList, or_assoc]

namespace Body

variable {b b' b'' : Body} {here p c : Nat}

theorem CopyOf.of_single {f : Nat} {cs : List Cleanup} {cl : Cleanup}
    (h : ∃ c, cs = [c] ∧ b.CopyOf f c) (hcl : cl ∈ cs) : b.CopyOf f cl := by
  obtain ⟨c, rfl, hcopy⟩ := h
  cases mem_singleton.mp hcl
  exact hcopy

/-- Nothing holds the scope or a scope around it yet. -/
structure Open (b : Body) (here : Nat) : Prop where
  lt : here < b.scopes.size
  steady : ∀ c, b.Within c here → b.kindOf c ≠ .loopUpdate
  unowned : ∀ c p, b.Within c here → b.parentOf c = some p → c ∉ b.owned p
  entered : ∀ f ∈ b.trying, b.Within f here → f ≠ here → b.Guards f here

/-- Calls in `here` add nothing to a scope: its parent holds it, or it is the update of a loop that
is `here` or finished. -/
def Settled (b : Body) (here s : Nat) : Prop :=
  (∃ p, b.parentOf s = some p ∧ s ∈ b.owned p) ∨
    b.kindOf s = .loopUpdate ∧ (b.parentOf s = some here ∨ ∃ p, s ∈ b.owned p)

theorem Extends.mem_owned {s : Nat} (he : b.Extends b') (h : s ∈ b.owned p) : s ∈ b'.owned p := by
  obtain ⟨l1, l2, heq, _⟩ := he.operations p
  rw [owned, heq, flatMap_append, flatMap_append]
  exact mem_append_right _ (mem_append_left _ h)

theorem Settled.mono {s : Nat} (h : b.Settled here s) (he : b.Extends b') : b'.Settled here s :=
  h.imp (fun ⟨p, hp, hown⟩ => ⟨p, he.parentOf hp, he.mem_owned hown⟩) fun ⟨hk, h⟩ =>
    ⟨he.kindOf hk (by decide), h.imp he.parentOf fun ⟨p, hown⟩ => ⟨p, he.mem_owned hown⟩⟩

theorem Open.not_settled (h : b.Open here) : ¬ b.Settled here here
  | .inl ⟨_, hp, hown⟩ => h.unowned _ _ .refl hp hown
  | .inr ⟨hk, _⟩ => h.steady _ .refl hk

/-- The scope can take operations. -/
structure Ready (b : Body) (here : Nat) : Prop where
  sound : b.Sound
  collects : b.Collects
  isOpen : b.Open here
  notFrame : ¬ (b.kindOf here).isFrame
  started : (b.kindOf here).isHandler → b.operations here ≠ []

/-- The second body came from the first one by calls in a scope, which hold new scopes
only. -/
structure Grows (b b' : Body) (here : Nat) : Prop extends Extends b b' where
  owned : ∀ s c, c ∈ b'.owned s → c < b.scopes.size → c ∈ b.owned s
  trying : ∀ f, f < b.scopes.size → (f ∈ b'.trying ↔ f ∈ b.trying)
  inside : ∀ s, b'.operations s = b.operations s ∨ b'.Within here s
  settled : ∀ s, b.Settled here s → b'.operations s = b.operations s
  behind : ∀ s, b.operations s <+: b'.operations s

namespace Grows

theorem refl (b : Body) (here : Nat) : b.Grows b here where
  toExtends := .refl b
  owned _ _ h _ := h
  trying _ _ := Iff.rfl
  inside _ := .inl rfl
  settled _ _ := rfl
  behind _ := prefix_rfl

theorem trans (h : b.Grows b' here) (h' : b'.Grows b'' here) : b.Grows b'' here where
  toExtends := h.toExtends.trans h'.toExtends
  owned s c hc hlt := h.owned s c (h'.owned s c hc (Nat.lt_of_lt_of_le hlt h.size)) hlt
  trying f hf := (h'.trying f (Nat.lt_of_lt_of_le hf h.size)).trans (h.trying f hf)
  inside s := by
    rcases h'.inside s with heq | hw
    · rw [heq]
      exact (h.inside s).imp_right h'.within
    · exact .inr hw
  settled s hs := (h'.settled s (hs.mono h.toExtends)).trans (h.settled s hs)
  behind s := (h.behind s).trans (h'.behind s)

theorem outer (h : b.Grows b' c) (hc : b'.Within here c) (hd : b'.Descends) (hopen : b'.Open c) :
    b.Grows b' here where
  toExtends := h.toExtends
  owned := h.owned
  trying := h.trying
  inside s := (h.inside s).imp_right hc.trans
  settled s hs := by
    rcases hs with hs | ⟨hk, hp | hown⟩
    · exact h.settled s (.inl hs)
    · rcases h.inside s with heq | hw
      · exact heq
      -- Control is not in the update itself, so it is in the loop.
      cases hw with
      | refl => exact absurd (h.kindOf hk (by decide)) (hopen.steady _ .refl)
      | step hparent hw =>
        cases hparent.symm.trans (h.parentOf hp)
        have heq := Nat.le_antisymm (hc.le hd) (hw.le hd)
        exact h.settled s (.inr ⟨hk, .inl (heq ▸ hp)⟩)
    · exact h.settled s (.inr ⟨hk, .inr hown⟩)
  behind := h.behind

theorem of_operations (he : b.Extends b') (hops : ∀ s, b'.operations s = b.operations s)
    (htrying : b'.trying = b.trying) : b.Grows b' here where
  toExtends := he
  owned s c hc _ := by rwa [Body.owned, hops] at hc
  trying f _ := by rw [htrying]
  inside s := .inl (hops s)
  settled s _ := hops s
  behind s := hops s ▸ prefix_rfl

end Grows

theorem Collects.kindOf_trying (h : b.Collects) {f : Nat} (hf : f ∈ b.trying) :
    b.kindOf f = .tryFrame := by
  obtain ⟨frame, hframe, rfl⟩ := mem_map.mp hf
  exact h.frame frame hframe

theorem Collects.trying_lt (h : b.Collects) {f : Nat} (hf : f ∈ b.trying) : f < b.scopes.size :=
  lt_size_of_kindOf (by rw [h.kindOf_trying hf]; decide)

/-! ## What an operation holds -/

variable {pending : List Nat} {op : Operation} {other : Nat} {f : TryFrame} {info : ValueInfo}
  {destination : Option Nat}

section held

variable {s : Nat}

theorem mem_frames_or_nested (hc : c ∈ op.owned) :
    c ∈ op.frames ∨ c ∈ op.nested := mem_append.mp hc

/-- How a scope that an operation of `s` owns lies in the scope tree. -/
inductive Nests (b : Body) (s : Nat) (op : Operation) (c : Nat) : Prop
  | child : b.parentOf c = some s → Nests b s op c
  | part {p : Nat} : p ∈ op.owned → b.parentOf c = some p → b.parentOf p = some s →
      ((b.kindOf p).isFrame ∨ b.kindOf c = .loopUpdate) → Nests b s op c
  | copy {f : Nat} : b.parentOf c = some f → b.kindOf c = .finallyCopy → b.Guards f s →
      Nests b s op c

theorem Nests.tryPart {statement : TryStatement} (h : b.TryFits s statement)
    (hp : b.parentOf c = some statement.frame) : b.Nests s (.tryCatch statement) c :=
  .part (.head ..) hp h.parent (.inl (by rw [h.frame]; rfl))

/-- How a scope belongs to an operation of `s`. -/
inductive Held (b : Body) (s : Nat) : Operation → Nat → Prop
  | child {op : Operation} {c : Nat} : b.Child s c → Held b s op c
  | looped {nested : Nat} {update : Option Nat} : b.parentOf nested = some s →
      b.kindOf nested = .loop → Held b s (.loop nested update) nested
  | update {nested update : Nat} : b.parentOf nested = some s → b.kindOf nested = .loop →
      b.parentOf update = some nested → b.kindOf update = .loopUpdate →
      Held b s (.loop nested (some update)) update
  | exit {op : Operation} {cl : Cleanup} {f : Nat} : cl ∈ op.cleanups → b.CopyOf f cl →
      b.Guards f s → Held b s op cl.scope
  | tryFrame {T : TryStatement} : b.TryFits s T → Held b s (.tryCatch T) T.frame
  | part {T : TryStatement} {c : Nat} : b.TryFits s T → b.parentOf c = some T.frame →
      (b.kindOf c = .tryBody ∨ (b.kindOf c).isHandler ∧ b.operations c ≠ []) →
      (c ∈ T.guarded ∨ T.catchAll = some c) → Held b s (.tryCatch T) c
  | copy {T : TryStatement} {cl : Cleanup} : b.TryFits s T →
      cl ∈ (Operation.tryCatch T).cleanups → b.CopyOf T.frame cl → Held b s (.tryCatch T) cl.scope
  | switchFrame {S : SwitchStatement} : b.SwitchFits s S → Held b s (.switch S) S.frame
  | arm {S : SwitchStatement} {c : Nat} : b.SwitchFits s S → b.Child S.frame c →
      Held b s (.switch S) c

/-- Every scope of an operation has its place in it. -/
theorem held_of_fits (hfits : op.Fits b s) (hc : c ∈ op.owned) : b.Held s op c := by
  cases op with
  | simple action operands result => cases hc
  | block inner =>
    cases mem_singleton.mp hc
    exact .child hfits
  | branch cond whenTrue whenFalse =>
    rcases mem_append.mp (show c ∈ whenFalse.toList ++ [whenTrue] from hc) with hc | hc
    · exact .child (hfits.2 c (Option.mem_toList.mp hc))
    · cases mem_singleton.mp hc
      exact .child hfits.1
  | loop looped update =>
    rcases mem_cons.mp (show c ∈ looped :: update.toList from hc) with rfl | hc
    · exact .looped hfits.1 hfits.2.1
    · cases Option.mem_toList.mp hc
      obtain ⟨hp, hk⟩ := hfits.2.2 c rfl
      exact .update hfits.1 hfits.2.1 hp hk
  | exitUnless cond target => cases hc
  | jump kind target cleanups =>
    obtain ⟨cl, hcl, rfl⟩ := mem_map.mp hc
    obtain ⟨f, hcopy, hg, _⟩ := hfits.2.2.each cl hcl
    exact .exit hcl hcopy hg
  | ret value cleanups =>
    obtain ⟨cl, hcl, rfl⟩ := mem_map.mp hc
    obtain ⟨f, hcopy, hg, _⟩ := hfits.2.each cl hcl
    exact .exit hcl hcopy hg
  | throw value => cases hc
  | tryCatch T =>
    rcases mem_cons.mp hc with rfl | hc
    · exact .tryFrame hfits
    rcases Operation.mem_nested_tryCatch.mp hc with rfl | hc | ⟨clause, hclause, hc⟩ | hc
    · exact .part hfits hfits.body.1 (.inl hfits.body.2) (.inl (.head ..))
    · obtain ⟨cl, hcl, rfl⟩ := mem_map.mp hc
      exact .copy hfits (mem_append_left _ hcl) (.of_single hfits.bodyExit hcl)
    · obtain ⟨hp, hk, hne, hexit⟩ := hfits.clauses clause hclause
      rcases mem_cons.mp hc with rfl | hc
      · exact .part hfits hp (.inr ⟨by rw [hk]; rfl, hne⟩)
          (.inl (.tail _ (mem_map_of_mem hclause)))
      · obtain ⟨cl, hcl, rfl⟩ := mem_map.mp hc
        exact .copy hfits (mem_append_right _ (mem_flatMap.mpr ⟨clause, hclause, hcl⟩))
          (.of_single hexit hcl)
    · obtain ⟨hp, hk, hne⟩ := hfits.catchAll c hc
      exact .part hfits hp (.inr ⟨by rw [hk]; rfl, hne⟩) (.inr hc)
  | switch S =>
    rcases mem_cons.mp hc with rfl | hc
    · exact .switchFrame hfits
    · obtain ⟨arm, harm, rfl⟩ := mem_map.mp hc
      exact .arm hfits (hfits.arms arm harm)

theorem nests_of_fits (hfits : op.Fits b s) (hc : c ∈ op.owned) : b.Nests s op c := by
  cases held_of_fits hfits hc with
  | child h => exact .child h.1
  | looped hp => exact .child hp
  | update hp _ hin hk => exact .part (.head ..) hin hp (.inr hk)
  | exit _ h hg => exact .copy h.parent h.kind hg
  | tryFrame h | switchFrame h => exact .child h.parent
  | part h hp => exact .tryPart h hp
  | copy h _ hcopy => exact .tryPart h hcopy.parent
  | arm h harm => exact .part (.head ..) harm.1 h.parent (.inl (by rw [h.frame]; rfl))

theorem SoundUpTo.owned_lt (h : SoundUpTo pending b) (hc : c ∈ b.owned s) : c < b.scopes.size := by
  obtain ⟨op, hop, hc⟩ := mem_flatMap.mp hc
  cases nests_of_fits (h.fits hop) hc with
  | child hp | part _ hp | copy hp => exact lt_size_of_parentOf hp

theorem copyOf_cleanup (hfits : op.Fits b s) {cl : Cleanup} (hcl : cl ∈ op.cleanups) :
    ∃ f, b.CopyOf f cl := by
  cases op with
  | jump kind target cleanups =>
    obtain ⟨f, hcopy, _⟩ := hfits.2.2.each cl hcl
    exact ⟨f, hcopy⟩
  | ret value cleanups =>
    obtain ⟨f, hcopy, _⟩ := hfits.2.each cl hcl
    exact ⟨f, hcopy⟩
  | tryCatch T =>
    rcases mem_append.mp hcl with hcl | hcl
    · exact ⟨_, .of_single hfits.bodyExit hcl⟩
    · obtain ⟨clause, hclause, hcl⟩ := mem_flatMap.mp hcl
      exact ⟨_, .of_single (hfits.clauses clause hclause).2.2.2 hcl⟩
  | _ => cases hcl

/-- What is held below a frame is a finally copy, or a part of the statement. -/
theorem frame_child {f : Nat} (hfits : op.Fits b s) (hs : ¬ (b.kindOf s).isFrame)
    (hc : c ∈ op.owned) (hp : b.parentOf c = some f) (hk : b.kindOf f = .tryFrame) :
    (∃ cl ∈ op.cleanups, c = cl.scope ∧ b.CopyOf f cl) ∨
      ∃ T, op = .tryCatch T ∧ T.frame = f ∧ (c ∈ T.guarded ∨ T.catchAll = some c) := by
  -- The frame itself has no operations, so the scope is no child of `s`.
  have hself : b.parentOf c ≠ some s := by
    intro hps
    rw [hp] at hps
    cases hps
    exact hs (by rw [hk]; rfl)
  cases held_of_fits hfits hc with
  | child h => exact absurd h.1 hself
  | looped hparent => exact absurd hparent hself
  | update _ hloop hparent =>
    cases hp.symm.trans hparent
    cases hk.symm.trans hloop
  | exit hcl hcopy | copy _ hcl hcopy =>
    cases hp.symm.trans hcopy.parent
    exact .inl ⟨_, hcl, rfl, hcopy⟩
  | tryFrame h | switchFrame h => exact absurd h.parent hself
  | part _ hparent _ hpart => exact .inr ⟨_, rfl, Option.some.inj (hparent.symm.trans hp), hpart⟩
  | arm h harm =>
    cases hp.symm.trans harm.1
    cases hk.symm.trans h.frame

theorem held_part {frame : Nat} (hf : op.Fits b s) (hs : ¬ (b.kindOf s).isFrame) (hc : c ∈ op.owned)
    (hp : b.parentOf c = some frame) (hk : b.kindOf frame = .tryFrame)
    (hg : (b.kindOf c).isGuarded) : ∃ statement, op = .tryCatch statement ∧ statement.frame =
      frame := by
  rcases frame_child hf hs hc hp hk with ⟨cl, _, rfl, hcopy⟩ | ⟨statement, rfl, hframe, _⟩
  · rw [hcopy.kind] at hg
    cases hg
  · exact ⟨statement, rfl, hframe⟩

end held

/-! ## Open scopes -/

namespace Open

theorem mono (h : b.Open here) (he : b.Extends b') (hd : b.Descends)
    (howned : ∀ c p, b.Within c here → b.parentOf c = some p → c ∈ b'.owned p → c ∈ b.owned p)
    (htrying : ∀ f ∈ b'.trying, f < b.scopes.size → f ∈ b.trying) : b'.Open here where
  lt := Nat.lt_of_lt_of_le h.lt he.size
  steady c hc := by
    have hc' := (he.within_iff hd h.lt).mp hc
    rw [he.kind c (hc'.lt_size h.lt hd)]
    exact h.steady c hc'
  unowned c p hc hp hown := by
    have hc' := (he.within_iff hd h.lt).mp hc
    rw [he.parent c (hc'.lt_size h.lt hd)] at hp
    exact h.unowned c p hc' hp (howned c p hc' hp hown)
  entered f hf hw hne := by
    have hw' := (he.within_iff hd h.lt).mp hw
    exact (guards_iff he hd h.lt).mpr (h.entered f (htrying f hf (hw'.lt_size h.lt hd)) hw' hne)

/-- Goes from a scope into one of its children. While a try statement is under
construction, only the parts that its handlers protect are entered. -/
theorem enter (h : b.Open p) (hcoll : b.Collects) (hc : b.parentOf c = some p)
    (hupdate : b.kindOf c ≠ .loopUpdate) (hown : c ∉ b.owned p)
    (hpart : p ∈ b.trying → (b.kindOf c).isGuarded) : b.Open c where
  lt := lt_size_of_parentOf hc
  steady d hw := by
    rcases (Within.iff_parent hc).mp hw with rfl | hw
    · exact hupdate
    · exact h.steady d hw
  unowned d q hw hq := by
    rcases (Within.iff_parent hc).mp hw with rfl | hw
    · rw [hc] at hq
      cases hq
      exact hown
    · exact h.unowned d q hw hq
  entered f hf hw hne := by
    rcases (Within.iff_parent hc).mp hw with rfl | hw
    · exact absurd rfl hne
    · by_cases hfp : f = p
      · subst hfp
        have hk := hcoll.kindOf_trying hf
        exact ⟨hk, c, .refl, hc, hpart hf⟩
      · obtain ⟨hk, d, hw', hq, hg⟩ := h.entered f hf hw hfp
        exact ⟨hk, d, .step hc hw', hq, hg⟩

theorem leave (h : b.Open c) (hd : b.Descends) (hc : b.parentOf c = some p) : b.Open p where
  lt := Nat.lt_trans (hd hc) h.lt
  steady d hw := h.steady d (.step hc hw)
  unowned d q hw := h.unowned d q (.step hc hw)
  entered f hf hw hne := by
    have hlt : f < c := Nat.lt_of_le_of_lt (hw.le hd) (hd hc)
    obtain ⟨hk, d, hw', hq, hg⟩ := h.entered f hf (.step hc hw) (Nat.ne_of_lt hlt)
    rcases (Within.iff_parent hc).mp hw' with rfl | hw'
    · rw [hc] at hq
      cases hq
      exact absurd rfl hne
    · exact ⟨hk, d, hw', hq, hg⟩

end Open

/-! ## Collected copies -/

theorem SoundUpTo.exit_target (h : SoundUpTo pending b) {s : Nat}
    (hop : op ∈ b.operations s) {d : Option Nat} {cs : List Cleanup}
    (hexit : op.exit? = some (d, cs)) (t : Nat) (ht : d = some t) : t < b.scopes.size := by
  have hf := h.fits hop
  cases op with
  | jump kind target cleanups =>
    cases hexit
    cases ht
    exact hf.1.lt_size (lt_size_of_mem_operations hop) h.descends
  | ret value cleanups =>
    cases hexit
    cases ht
  | _ => cases hexit

theorem Complete.mono {frame part : Nat} (h : b.Complete frame part)
    (hs : SoundUpTo pending b) (he : b.Extends b') (hframe : frame < b.scopes.size)
    (hnew : ∀ s op d cs, op ∈ b'.operations s → op ∉ b.operations s → b'.Within part s →
      op.exit? = some (d, cs) → b'.Leaves frame d → b.tryNumber frame ∈ cs.map owner) :
    b'.Complete frame part := by
  intro s op d cs hw hop hexit hl
  rw [he.tryNumber (Nat.le_of_lt hframe)]
  by_cases hold : op ∈ b.operations s
  · have hw' := (he.within_iff hs.descends (lt_size_of_mem_operations hold)).mp hw
    exact h s op d cs hw' hold hexit ((leaves_iff he hs.descends (hs.exit_target hold hexit)).mp hl)
  · exact hnew s op d cs hop hold hw hexit hl

/-- A part of a try statement stays complete while the body grows. -/
theorem Collects.complete_mono (h : b.Collects) (hs : SoundUpTo pending b)
    (he : b.Extends b') (hops : ∀ s, b'.operations s = b.operations s)
    (htrying : ∀ f ∈ b'.trying, f < b.scopes.size → f ∈ b.trying) {frame part : Nat}
    (hk : b'.kindOf frame = .tryFrame) (hp : b'.parentOf part = some frame)
    (hg : (b'.kindOf part).isGuarded) (hor : frame ∈ b'.trying ∨ ∃ s, part ∈ b'.owned s) :
    b'.Complete frame part := by
  by_cases hpart : part < b.scopes.size
  · rw [he.parent part hpart] at hp
    have hframe : frame < b.scopes.size := Nat.lt_trans (hs.descends hp) hpart
    rw [he.kind part hpart] at hg
    rw [he.kind frame hframe] at hk
    refine (h.complete hk hp hg ?_).mono hs he hframe fun s op d cs hop hnot => ?_
    · refine hor.imp (fun hf => htrying frame hf hframe) ?_
      rintro ⟨s, hown⟩
      exact ⟨s, by rwa [Body.owned, hops] at hown⟩
    · rw [hops] at hop
      exact absurd hop hnot
  · intro s op d cs hw hop
    rw [hops] at hop
    have hlt := lt_size_of_mem_operations hop
    have hw' := (he.within_iff hs.descends hlt).mp hw
    exact absurd (hw'.lt_size hlt hs.descends) hpart

theorem Collects.mono (h : b.Collects) (hs : SoundUpTo pending b)
    (he : b.Extends b') (hops : ∀ s, b'.operations s = b.operations s)
    (hnext : b'.nextTry = b.nextTry)
    (hnumber : b'.tryNumber b'.scopes.size = b.tryNumber b.scopes.size)
    (htries : b'.tries = b.tries)
    (htables : ∀ table ∈ b'.tables, table.accessor.type = ⟨[], some OrdinalTable.rowType⟩) :
    b'.Collects where
  next := by rw [hnext, hnumber, h.next]
  frame f hf := he.kindOf (h.frame f (htries ▸ hf)) (by decide)
  id f hf := by
    have hf : f ∈ b.tries := htries ▸ hf
    rw [he.tryNumber (Nat.le_of_lt (h.trying_lt (mem_map_of_mem hf)))]
    exact h.id f hf
  copies f hf q hq := by
    obtain ⟨hp, hk⟩ := h.copies f (htries ▸ hf) q hq
    exact ⟨he.parentOf hp, he.kindOf hk (by decide)⟩
  ordered := by rw [htries]; exact h.ordered
  complete := h.complete_mono hs he hops fun f hf _ => by rwa [trying, htries] at hf
  accessors := htables

theorem tryNumber_openScope (b : Body) (parent : Option Nat) (kind : ScopeKind) (n : Nat)
    (hn : n = (b.openScope parent kind).2.scopes.size) :
    (b.openScope parent kind).2.tryNumber n =
      b.tryNumber b.scopes.size + if kind = .tryFrame then 1 else 0 := by
  have hsame := (b.extends_openScope parent kind).tryNumber .refl
  rw [hn, size_openScope, tryNumber, range_succ, countP_append, ← hsame, tryNumber]
  simp [countP_cons, kindOf_openScope]

theorem Collects.openScope (h : b.Collects) (hs : SoundUpTo pending b)
    (parent : Option Nat) {kind : ScopeKind} (hk : kind ≠ .tryFrame) :
    (b.openScope parent kind).2.Collects := by
  refine h.mono hs (b.extends_openScope parent kind) (operations_openScope b parent kind) rfl ?_ rfl
    h.accessors
  rw [tryNumber_openScope b parent _ _ rfl, if_neg hk, Nat.add_zero]

theorem Grows.openScope (hg : b.Grows b' here) (parent : Option Nat) (kind : ScopeKind) :
    b.Grows (b'.openScope parent kind).2 here :=
  hg.trans (.of_operations (b'.extends_openScope parent kind) (operations_openScope b' parent kind)
    rfl)

theorem Open.openScope (h : b.Open here) (hd : b.Descends) (parent : Option Nat)
    (kind : ScopeKind) : (b.openScope parent kind).2.Open here :=
  h.mono (b.extends_openScope parent kind) hd
    (fun _ _ _ _ hc => by rwa [owned_openScope] at hc) fun _ hf _ => hf

theorem parentOf_new (b : Body) (parent : Option Nat) (kind : ScopeKind) :
    (b.openScope parent kind).2.parentOf b.scopes.size = parent := by
  rw [parentOf_openScope, if_pos rfl]

theorem kindOf_new (b : Body) (parent : Option Nat) (kind : ScopeKind) :
    (b.openScope parent kind).2.kindOf b.scopes.size = kind := by
  rw [kindOf_openScope, if_pos rfl]

theorem SoundUpTo.unowned_new (h : SoundUpTo pending b) (s : Nat) : b.scopes.size ∉ b.owned s :=
  fun hc => Nat.lt_irrefl _ (h.owned_lt hc)

/-! ## Entering and leaving -/

theorem Ready.into (h : b.Ready p) (hk : (b.kindOf c).isPlain)
    (hopen : b.kindOf c ≠ .loopUpdate → b.Open c) : b.Ready c := by
  have hne : b.kindOf c ≠ .loopUpdate ∧ ¬ (b.kindOf c).isFrame ∧ ¬ (b.kindOf c).isHandler := by
    cases hkind : b.kindOf c <;>
      simp_all [ScopeKind.isPlain, ScopeKind.isFrame, ScopeKind.isHandler]
  exact
    { sound := h.sound
      collects := h.collects
      isOpen := hopen hne.1
      notFrame := hne.2.1
      started := fun hh => absurd hh hne.2.2 }

theorem Ready.open_child (h : b.Ready p) (hc : b.parentOf c = some p)
    (hupdate : b.kindOf c ≠ .loopUpdate) (hown : c ∉ b.owned p) : b.Open c :=
  h.isOpen.enter h.collects hc hupdate hown fun htrying =>
    absurd (by rw [h.collects.kindOf_trying htrying]; rfl) h.notFrame

/-- A new scope can be built in once it is entered. -/
theorem Ready.enter (h : b.Ready p) (hc : b.parentOf c = some p) (hk : (b.kindOf c).isPlain)
    (hown : c ∉ b.owned p) : b.Ready c :=
  h.into hk fun hupdate => h.open_child hc hupdate hown

theorem Ready.back (h : b.Ready c) (hopen : b.Open p) (hp : b'.Ready p) (hg : b'.Extends b) :
    b.Ready p where
  sound := h.sound
  collects := h.collects
  isOpen := hopen
  notFrame := by
    rw [hg.kind p hp.isOpen.lt]
    exact hp.notFrame
  started hh := by
    rw [hg.kind p hp.isOpen.lt] at hh
    exact hg.operations_ne_nil (hp.started hh)

theorem Ready.leave (h : b.Ready c) (hc : b.parentOf c = some p) (hp : b'.Ready p)
    (hg : b'.Extends b) : b.Ready p :=
  h.back (h.isOpen.leave h.sound.descends hc) hp hg

/-! ## Adding operations -/

theorem Grows.push (hg : b.Grows b' here) (hlt : other < b'.scopes.size)
    (hinside : b'.Within here other) (hother : ¬ b.Settled here other)
    (hnew : ∀ c ∈ op.owned, b.scopes.size ≤ c) : b.Grows (b'.push other op) here where
  toExtends := hg.toExtends.trans (b'.extends_push op hlt)
  owned s c hc hlt' := by
    rcases of_mem_owned_push hc with hc | ⟨_, hc⟩
    · exact hg.owned s c hc hlt'
    · exact absurd (hnew c hc) (Nat.not_le.mpr hlt')
  trying := hg.trying
  inside s := by
    have he := b'.extends_push op hlt
    by_cases hs : s = other
    · rw [hs]
      exact .inr (he.within hinside)
    · rw [operations_push_of_ne _ _ _ hs]
      exact (hg.inside s).imp_right he.within
  settled s hs := by
    have hne : s ≠ other := fun heq => hother (heq ▸ hs)
    rw [operations_push_of_ne _ _ _ hne]
    exact hg.settled s hs
  behind s := by
    rw [operations_push _ _ _ hlt]
    split
    · exact (hg.behind s).trans (prefix_append _ _)
    · exact hg.behind s

/-- Pushing the operation leaves every try statement complete. -/
structure Closes (b : Body) (here : Nat) (op : Operation) : Prop where
  exits : ∀ d cs, op.exit? = some (d, cs) → ∀ f ∈ b.trying, b.Within f here → b.Leaves f d →
    b.tryNumber f ∈ cs.map owner
  parts : ∀ statement, op = .tryCatch statement → ∀ c ∈ op.owned,
    b.parentOf c = some statement.frame → (b.kindOf c).isGuarded → b.Complete statement.frame c

theorem Closes.of_plain (hexit : op.exit? = none)
    (htry : ∀ statement, op ≠ .tryCatch statement) : b.Closes here op where
  exits d cs h := by rw [hexit] at h; cases h
  parts statement h := absurd h (htry statement)

/-- What is collected for open try statements outlasts a new operation. -/
theorem Collects.push (h : b.Collects) (hs : SoundUpTo pending b)
    (ha : b.Accepts pending here op) (hc : b.Closes here op)
    (hopen : op.exit? ≠ none → b.Open here) : (b.push here op).Collects := by
  have he := b.extends_push op ha.lt
  refine
    { next := ?_
      frame := fun f hf => he.kindOf (h.frame f hf) (by decide)
      id := fun f hf => ?_
      copies := fun f hf q hq => ?_
      ordered := h.ordered
      complete := fun {frame part} hk hp hg hor => ?_
      accessors := h.accessors }
  · rw [size_push, he.tryNumber .refl]
    exact h.next
  · rw [he.tryNumber (Nat.le_of_lt (h.trying_lt (mem_map_of_mem hf)))]
    exact h.id f hf
  · obtain ⟨hp, hk⟩ := h.copies f hf q hq
    exact ⟨he.parentOf hp, he.kindOf hk (by decide)⟩
  rw [kindOf_push] at hk hg
  rw [parentOf_push] at hp
  have hframe : frame < b.scopes.size := lt_size_of_kindOf (by rw [hk]; decide)
  -- An exit among the new operations is the pushed one.
  have hcomplete : b.Complete frame part → (∀ d cs, op.exit? = some (d, cs) → b.Open here →
      b.Within part here → b.Leaves frame d → b.tryNumber frame ∈ cs.map owner) →
      (b.push here op).Complete frame part := by
    intro hold hnew
    refine hold.mono hs he hframe fun s x d cs hx hnot hw hexit hl => ?_
    obtain ⟨rfl, rfl⟩ := (of_mem_operations_push hx).resolve_left hnot
    have hw' := (he.within_iff hs.descends ha.lt).mp hw
    exact hnew d cs hexit (hopen (by rw [hexit]; simp)) hw' fun t htd hwt => hl t htd
      (he.within hwt)
  rcases hor with hf | ⟨s, hown⟩
  · refine hcomplete (h.complete hk hp hg (.inl hf)) fun d cs hexit _ hw hl => ?_
    exact hc.exits d cs hexit frame hf ((Within.of_parent hp).trans hw) hl
  rcases of_mem_owned_push hown with hold | ⟨_, hnew⟩
  · refine hcomplete (h.complete hk hp hg (.inr ⟨s, hold⟩)) fun d cs _ hopen' hw _ => ?_
    -- The statement that holds the part would hold its frame, which is around an open scope.
    obtain ⟨x, hx, hpart⟩ := mem_flatMap.mp hold
    have hnot : ¬ (b.kindOf s).isFrame := fun hframe => by
      rw [hs.frames hframe] at hx
      cases hx
    obtain ⟨statement, rfl, rfl⟩ := held_part (hs.fits hx) hnot hpart hp hk hg
    refine absurd ?_ (hopen'.unowned statement.frame s ((Within.of_parent hp).trans hw)
      (hs.fits hx).parent)
    exact mem_flatMap_of_mem hx (.head ..)
  · obtain ⟨statement, rfl, rfl⟩ := held_part ha.fits ha.notFrame hnew hp hk hg
    exact hcomplete (hc.parts statement rfl part hnew hp hg) fun d cs hexit => by cases hexit

theorem Open.pushElsewhere (h : b.Open here) (hd : b.Descends)
    (hlt : other < b.scopes.size) (howned : op.owned = []) : (b.push other op).Open here := by
  refine h.mono (b.extends_push op hlt) hd (fun c p _ _ hc => ?_) fun _ hf _ => hf
  refine (of_mem_owned_push hc).resolve_right fun hc => ?_
  rw [howned] at hc
  cases hc.2

theorem Open.push (h : b.Open here) (hd : b.Descends) (op : Operation) :
    (b.push here op).Open here := by
  refine h.mono (b.extends_push op h.lt) hd (fun c p hw hp hc => ?_) fun _ hf _ => hf
  -- The parent of a scope around this one is not this one.
  have hne : p ≠ here := Nat.ne_of_lt (Nat.lt_of_lt_of_le (hd hp) (hw.le hd))
  exact (of_mem_owned_push hc).resolve_right fun hc => hne hc.1

theorem Ready.pushElsewhere (h : b.Ready here)
    (ha : b.Accepts [] other op) (howned : op.owned = []) (hexit : op.exit? = none) :
    (b.push other op).Ready here where
  sound := SoundUpTo.push h.sound ha
  collects := by
    refine h.collects.push h.sound ha (.of_plain hexit ?_) fun hne => absurd hexit hne
    rintro statement rfl
    cases howned
  isOpen := h.isOpen.pushElsewhere h.sound.descends ha.lt howned
  notFrame := by rw [kindOf_push]; exact h.notFrame
  started hh := (b.extends_push op ha.lt).operations_ne_nil (h.started (by rwa [kindOf_push] at hh))

/-- A scope takes an operation that fits, and is ready for the next one. -/
theorem Ready.push (h : b.Ready here) (ha : b.Accepts [] here op)
    (hc : b.Closes here op) : (b.push here op).Ready here where
  sound := SoundUpTo.push h.sound ha
  collects := h.collects.push h.sound ha hc fun _ => h.isOpen
  isOpen := h.isOpen.push h.sound.descends op
  notFrame := by rw [kindOf_push]; exact h.notFrame
  started _ := by rw [operations_push_self b here op h.isOpen.lt]; simp

/-- A frame under construction has its number, and placeholders of its own. -/
structure FrameFits (b : Body) (f : TryFrame) : Prop where
  frame : b.kindOf f.scope = .tryFrame
  id : f.id = b.tryNumber f.scope
  copies : ∀ p ∈ f.placeholders, b.parentOf p = some f.scope ∧ b.kindOf p = .finallyCopy

theorem FrameFits.mono (he : b.Extends b') (h : b.FrameFits f) : b'.FrameFits f where
  frame := he.kindOf h.frame (by decide)
  id := by
    rw [he.tryNumber (Nat.le_of_lt (lt_size_of_kindOf (by rw [h.frame]; decide)))]
    exact h.id
  copies q hq := ⟨he.parentOf (h.copies q hq).1, he.kindOf (h.copies q hq).2 (by decide)⟩

theorem Collects.frameFits (h : b.Collects) (hf : f ∈ b.tries) :
    b.FrameFits f := ⟨h.frame f hf, h.id f hf, h.copies f hf⟩

theorem Ready.congr (h : b.Ready here) (b' : Body) (hscopes : b'.scopes = b.scopes)
    (hvalues : b'.values = b.values) (hmethod : b'.method = b.method)
    (hlabel : b'.nextLabel = b.nextLabel) (hfree : b'.firstFree = b.firstFree)
    (hreceiver : b'.hasReceiver = b.hasReceiver) (htries : b'.tries = b.tries)
    (hnext : b'.nextTry = b.nextTry)
    (htables : ∀ table ∈ b'.tables, table.accessor.type = ⟨[], some OrdinalTable.rowType⟩) :
    b'.Ready here ∧ b.Grows b' here := by
  have he : b.Extends b' := .of_scopes hscopes hvalues hmethod
  have hsound : b'.Sound :=
    SoundUpTo.congr h.sound hscopes hvalues hmethod hlabel hfree hreceiver
  cases b
  cases b'
  cases hscopes
  cases htries
  exact
    ⟨{ sound := hsound
       collects := h.collects.mono h.sound he (fun _ => rfl) hnext
        (he.tryNumber .refl) rfl htables
       isOpen := h.isOpen.mono he h.sound.descends (fun _ _ _ _ hc => hc) fun _ hf _ => hf
       notFrame := h.notFrame
       started := h.started },
      .of_operations he (fun _ => rfl) rfl⟩

/-! ## Values -/

/-- A value of the scope, or of one around it, can be read. -/
theorem Ready.visible (h : b.Ready here) {v : Nat}
    (hv : b.values[v]? = some info) (ho : ∀ owner, info.owner = some owner → b.Within owner here) :
    b.Visible here (b.defines here) v := by
  refine ⟨info, hv, ?_⟩
  cases howner : info.owner with
  | none => exact .inl rfl
  | some owner =>
    have hdef : v ∈ b.defines owner := by
      rcases h.sound.defined hv howner with hd | hd
      · exact hd
      · cases hd
    have hw := ho owner howner
    by_cases heq : owner = here
    · subst heq
      exact .inr (.inl ⟨rfl, hdef⟩)
    · obtain ⟨c, hc, hp⟩ := hw.child heq
      refine .inr (.inr ⟨c, owner, rfl, hc, hp, h.isOpen.steady c hc, hdef, ?_⟩)
      intro l1 op l2 hsplit hop
      refine absurd ?_ (h.isOpen.unowned c owner hc hp)
      rw [owned, hsplit]
      exact mem_flatMap_of_mem (mem_append_right _ (.head ..)) hop

theorem Ready.accepts_simple (h : b.Ready here) (he : b.Extends b')
    (hsize : b'.scopes.size = b.scopes.size) (hops : ∀ s, b'.operations s = b.operations s)
    {action : Action} {operands : List Operand} {result : Option Nat}
    (hfits : action.Fits b' operands result) (hoperands : ∀ o ∈ operands, o.Fits)
    (hneeds : ∀ v ∈ (Operation.simple action operands result).needs,
      b.Visible here (b.defines here) v)
    (hdefines : (Operation.simple action operands result).defines = pending)
    (hnodup : pending.Nodup)
    (howner : ∀ v ∈ pending, ∃ info, b'.values[v]? = some info ∧ info.owner = some here)
    (hnew : ∀ v ∈ pending, b.values.size ≤ v)
    (hresult : ∀ v, result = some v → b'.HasOrigin v .result) (hcaught : action ≠ .caught) :
    b'.Accepts pending here (.simple action operands result) := by
  have hkind := he.kind here h.isOpen.lt
  have hsame : b'.defines here = b.defines here := by rw [defines, hops, defines]
  refine
    { lt := by rw [hsize]; exact h.isOpen.lt
      notFrame := by rw [hkind]; exact h.notFrame
      fits := hfits
      operands := hoperands
      needs := fun v hv => by rw [hsame]; exact (hneeds v hv).mono he
      owned_nodup := nodup_nil
      owned_gt := fun c hc => by cases hc
      unowned := fun c hc => by cases hc
      defines := hdefines
      pending_nodup := hnodup
      pending_owner := howner
      pending_new := fun v hv hdef => ?_
      result := fun heq => ?_
      caught := ?_
      updates := fun _ => rfl }
  · rw [hsame] at hdef
    obtain ⟨info, hinfo, _⟩ := h.sound.defines_owner hdef
    have hlt := (Array.getElem?_eq_some_iff.mp hinfo).1
    exact absurd (hnew v hv) (Nat.not_le.mpr hlt)
  · cases heq
    exact hresult _ rfl
  · constructor
    · intro hc
      cases action <;> first | exact absurd rfl hcaught | exact Bool.noConfusion hc
    · rintro ⟨hh, hnil⟩
      rw [hkind] at hh
      rw [hops] at hnil
      exact absurd hnil (h.started hh)

/-- An operation with parts fits if its operands can be read and nothing holds its parts. -/
theorem Ready.accepts (h : b.Ready here)
    (hsimple : ∀ action operands result, op ≠ .simple action operands result)
    (hfits : op.Fits b here) (hoperands : ∀ o ∈ op.operands, o.Fits)
    (hneeds : ∀ o ∈ op.operands, b.Visible here (b.defines here) o.value)
    (hnodup : op.owned.Nodup) (hgt : ∀ c ∈ op.owned, here < c)
    (hunowned : ∀ c ∈ op.owned, ∀ s, c ∉ b.owned s) : b.Accepts [] here op := by
  have hchanges : op.changes = [] ∧ op.defines = [] ∧ op.isCaught = false := by
    cases op with
    | simple action operands result => exact absurd rfl (hsimple action operands result)
    | _ => exact ⟨rfl, rfl, rfl⟩
  refine
    { lt := h.isOpen.lt
      notFrame := h.notFrame
      fits := hfits
      operands := hoperands
      needs := fun v hv => ?_
      owned_nodup := hnodup
      owned_gt := hgt
      unowned := hunowned
      defines := hchanges.2.1
      pending_nodup := nodup_nil
      pending_owner := fun v hv => by cases hv
      pending_new := fun v hv => by cases hv
      result := fun heq => absurd heq (hsimple _ _ _)
      caught := ?_
      updates := fun hk => absurd hk (h.isOpen.steady here .refl) }
  · rw [Operation.needs, hchanges.1, List.append_nil] at hv
    obtain ⟨o, ho, rfl⟩ := mem_map.mp hv
    exact hneeds o ho
  · rw [hchanges.2.2]
    exact ⟨(fun hc => by cases hc), fun hh => absurd hh.2 (h.started hh.1)⟩

theorem Open.pushValue (h : b.Open here) (hsound : b.Sound) (hcollects : b.Collects)
    (ha : Addable info) (op : Operation)
    (hacc : (b.addValue info).2.Accepts [b.values.size] here op) (howned : op.owned = [])
    (hexit : op.exit? = none) :
    ((b.addValue info).2.push here op).Ready here ∧
      b.Grows ((b.addValue info).2.push here op) here := by
  have he := b.extends_addValue info
  have hs : SoundUpTo [b.values.size] (b.addValue info).2 :=
    SoundUpTo.addValue hsound ha fun _ _ => .head _
  have hopen : (b.addValue info).2.Open here :=
    h.mono he hsound.descends (fun _ _ _ _ hc => hc) fun _ hf _ => hf
  have hcoll : (b.addValue info).2.Collects :=
    hcollects.mono hsound he (fun _ => rfl) rfl (he.tryNumber .refl) rfl
      hcollects.accessors
  have hgrows : b.Grows (b.addValue info).2 here := .of_operations he (fun _ => rfl) rfl
  refine ⟨?_, hgrows.push hopen.lt .refl h.not_settled fun c hc => by rw [howned] at hc; cases hc⟩
  refine
    { sound := SoundUpTo.push hs hacc
      collects := hcoll.push hs hacc (.of_plain hexit ?_) fun _ => hopen
      isOpen := hopen.push hs.descends op
      notFrame := by rw [kindOf_push]; exact hacc.notFrame
      started := fun _ => by rw [operations_push_self _ here op hopen.lt]; simp }
  rintro statement rfl
  cases howned

theorem Ready.addConstant (h : b.Ready here) (ha : Addable info) (ho : info.owner = none) :
    (b.addValue info).2.Ready here ∧ b.Grows (b.addValue info).2 here := by
  have he := b.extends_addValue info
  refine ⟨?_, .of_operations he (fun _ => rfl) rfl⟩
  exact
    { sound := SoundUpTo.addValue h.sound ha fun s hs => by rw [ho] at hs; cases hs
      collects := h.collects.mono h.sound he (fun _ => rfl) rfl (he.tryNumber .refl) rfl
        h.collects.accessors
      isOpen := h.isOpen.mono he h.sound.descends (fun _ _ _ _ hc => hc) fun _ hf _ => hf
      notFrame := h.notFrame
      started := h.started }

/-! ## Exits -/

/-- A jump crosses a frame if it starts inside and leads out of it. -/
theorem crosses_iff (hd : b.Descends) :
    b.crosses here destination f = true ↔ b.Within f.scope here ∧ b.Leaves f.scope destination := by
  cases destination with
  | none => simp [crosses, encloses_iff hd, Leaves]
  | some d =>
    simp only [crosses, Bool.and_eq_true, Leaves, Option.some.injEq, forall_eq',
      Bool.not_eq_true', ← Bool.not_eq_true, encloses_iff hd]

/-- What the placeholders of an exit from `here` add to a body. -/
structure Edge (b : Body) (here : Nat) (destination : Option Nat) (frames : List TryFrame)
    (cleanups : List Cleanup) (frames' : List TryFrame) (b' : Body) : Prop where
  ext : b.Extends b'
  sound : ∀ {pending}, SoundUpTo pending b → SoundUpTo pending b'
  operations : ∀ s, b'.operations s = b.operations s
  tries : b'.tries = b.tries
  nextTry : b'.nextTry = b.nextTry
  number : b'.tryNumber b'.scopes.size = b.tryNumber b.scopes.size
  tables : b'.tables = b.tables
  values : b'.values = b.values
  owners : cleanups.map owner =
    (frames.filter (b.crosses here destination)).map TryFrame.id
  copies : ∀ cl ∈ cleanups, b.scopes.size ≤ cl.scope ∧
    ∃ f ∈ frames, b'.CopyOf f.scope cl ∧ b.crosses here destination f
  nodup : (cleanups.map scope).Nodup
  scopes : frames'.map TryFrame.scope = frames.map TryFrame.scope
  fits : ∀ f ∈ frames', b'.FrameFits f

theorem crosses_mono (he : b.Extends b') (hd : b.Descends) (hd' : b'.Descends)
    (hhere : here < b.scopes.size)
    (hdest : ∀ t, destination = some t → t < b.scopes.size) (f : TryFrame) :
    b'.crosses here destination f = b.crosses here destination f := by
  rw [Bool.eq_iff_iff, crosses_iff hd, crosses_iff hd', he.within_iff hd hhere,
    leaves_iff he hd hdest]

/-- An exit opens one copy in each frame that it crosses, innermost first. -/
theorem openCleanups_edge (here : Nat) (destination : Option Nat) (frames : List TryFrame)
    (hs : b.Sound) (hhere : here < b.scopes.size)
    (hdest : ∀ t, destination = some t → t < b.scopes.size)
    (hframes : ∀ f ∈ frames, b.FrameFits f) :
    b.Edge here destination frames (openCleanups here destination frames b).1
      (openCleanups here destination frames b).2.1 (openCleanups here
        destination frames b).2.2 := by
  induction frames generalizing b with
  | nil =>
    exact
      { ext := .refl b, sound := fun h => h,
        operations := fun _ => rfl, tries := rfl, nextTry := rfl
        number := rfl, tables := rfl, values := rfl, owners := rfl
        copies := fun _ h => by cases h
        nodup := nodup_nil, scopes := rfl
        fits := fun _ h => by cases h }
  | cons f outer ih =>
    have houter : ∀ g ∈ outer, b.FrameFits g := fun g hg => hframes g (.tail _ hg)
    have hf : b.FrameFits f := hframes f (.head ..)
    by_cases hcross : b.crosses here destination f = true
    · -- The placeholder is opened first, then those further out.
      have hlt : f.scope < b.scopes.size := lt_size_of_kindOf (by rw [hf.frame]; decide)
      have hext := b.extends_openScope (some f.scope) .finallyCopy
      have hs1 := SoundUpTo.openScope hs hlt .finallyCopy
      have hsame := crosses_mono hext hs.descends hs1.descends hhere hdest
      have edge := ih hs1 (Nat.lt_of_lt_of_le hhere hext.size)
        (fun t ht => Nat.lt_of_lt_of_le (hdest t ht) hext.size)
        fun g hg => (houter g hg).mono hext
      have hcopy : (openCleanups here destination outer
          (b.openScope (some f.scope) .finallyCopy).2).2.2.CopyOf f.scope
            ⟨f.id, b.scopes.size⟩ := by
        refine CopyOf.mono edge.ext ⟨hext.kindOf hf.frame (by decide), parentOf_new _ _ _,
          kindOf_new _ _ _, ?_⟩
        rw [hext.tryNumber (Nat.le_of_lt hlt)]
        exact hf.id
      simp only [openCleanups, hcross, if_true]
      refine
        { edge with
          ext := hext.trans edge.ext
          sound := fun h => edge.sound (SoundUpTo.openScope h hlt .finallyCopy)
          operations := fun s => (edge.operations s).trans (operations_openScope _ _ _ s)
          number := ?_
          owners := ?_
          copies := fun cl hcl => ?_
          nodup := ?_
          scopes := ?_
          fits := fun g hg => ?_ }
      · rw [edge.number, tryNumber_openScope b _ _ _ rfl]
        rfl
      · rw [map_cons, edge.owners, filter_cons_of_pos hcross, map_cons]
        congr 2
        exact filter_congr fun g _ => hsame g
      · rcases mem_cons.mp hcl with rfl | hcl
        · exact ⟨.refl, f, .head .., hcopy, hcross⟩
        · obtain ⟨hge, g, hg, hcopy', hcross'⟩ := edge.copies cl hcl
          rw [hsame] at hcross'
          exact ⟨Nat.le_trans hext.size hge, g, .tail _ hg, hcopy', hcross'⟩
      · refine nodup_cons.mpr ⟨fun hmem => ?_, edge.nodup⟩
        obtain ⟨cl, hcl, heq⟩ := mem_map.mp hmem
        have hge := (edge.copies cl hcl).1
        rw [size_openScope, heq] at hge
        exact absurd hge (Nat.not_succ_le_self _)
      · rw [map_cons, map_cons, edge.scopes]
      · rcases mem_cons.mp hg with rfl | hg
        · have hf' := (hf.mono hext).mono edge.ext
          refine ⟨hf'.frame, hf'.id, fun q hq => ?_⟩
          rcases Array.mem_push.mp hq with hq | rfl
          · exact hf'.copies q hq
          · exact ⟨hcopy.parent, hcopy.kind⟩
        · exact edge.fits g hg
    · have edge := ih hs hhere hdest houter
      simp only [openCleanups, hcross, Bool.false_eq_true, if_false]
      exact
        { edge with
          owners := by rw [edge.owners, filter_cons_of_neg hcross]
          copies := fun cl hcl => by
            obtain ⟨hge, g, hg, hrest⟩ := edge.copies cl hcl
            exact ⟨hge, g, .tail _ hg, hrest⟩
          scopes := by rw [map_cons, map_cons, edge.scopes]
          fits := fun g hg => by
            rcases mem_cons.mp hg with rfl | hg
            · exact hf.mono edge.ext
            · exact edge.fits g hg }

theorem extends_withTries (b : Body) (tries : List TryFrame) :
    b.Extends { b with tries } := .of_scopes rfl rfl rfl

theorem Ready.reframe (h : b.Ready here) (he : b.Extends b') (hs : b'.Sound)
    (hops : ∀ s, b'.operations s = b.operations s)
    (hnext : b'.nextTry = b'.tryNumber b'.scopes.size) (hfits : ∀ f ∈ b'.tries, b'.FrameFits f)
    (hordered : b'.trying.Pairwise fun x y => y < x)
    (hold : ∀ f ∈ b'.trying, f < b.scopes.size → f ∈ b.trying) (htables : b'.tables = b.tables) :
    b'.Ready here where
  sound := hs
  collects :=
    { next := hnext
      frame := fun f hf => (hfits f hf).frame
      id := fun f hf => (hfits f hf).id
      copies := fun f hf => (hfits f hf).copies
      ordered := pairwise_map.mp hordered
      complete := h.collects.complete_mono h.sound he hops hold
      accessors := by rw [htables]; exact h.collects.accessors }
  isOpen := h.isOpen.mono he h.sound.descends
    (fun c p _ _ hc => by rwa [Body.owned, hops] at hc) hold
  notFrame := by rw [he.kind here h.isOpen.lt]; exact h.notFrame
  started hh := he.operations_ne_nil (h.started (by rwa [he.kind here h.isOpen.lt] at hh))

/-- The result of an exit edge, seen from the body it started from. -/
structure Exits (b : Body) (here : Nat) (destination : Option Nat) (cleanups : List Cleanup)
    (b' : Body) : Prop where
  ready : b'.Ready here
  grows : b.Grows b' here
  complete : ∀ f ∈ b'.trying, b'.Within f here → b'.Leaves f destination →
    b'.tryNumber f ∈ cleanups.map owner
  fits : b'.ExitFits here destination cleanups
  values : b'.values = b.values
  operations : ∀ s, b'.operations s = b.operations s
  nodup : (cleanups.map scope).Nodup
  new : ∀ c ∈ cleanups.map scope, b.scopes.size ≤ c

/-- An exit to a scope around this one has the copies that it needs. -/
theorem Ready.exitEdge (h : b.Ready here) (hdest : ∀ t, destination = some t → b.Within t here) :
    b.Exits here destination (b.exitEdge here destination).1 (b.exitEdge here destination).2 := by
  have hd := h.sound.descends
  have hdest' : ∀ t, destination = some t → t < b.scopes.size :=
    fun t ht => (hdest t ht).lt_size h.isOpen.lt hd
  have edge := openCleanups_edge here destination b.tries h.sound h.isOpen.lt hdest'
    fun f hf => h.collects.frameFits hf
  rcases hr : openCleanups here destination b.tries b with ⟨cleanups, frames, b1⟩
  rw [hr] at edge
  have hedge : b.exitEdge here destination = (cleanups, { b1 with tries := frames }) := by
    rw [Body.exitEdge, hr]
  rw [hedge]
  have he : b.Extends { b1 with tries := frames } := edge.ext.trans (b1.extends_withTries frames)
  have hs : { b1 with tries := frames }.Sound :=
    (edge.sound h.sound).congr rfl rfl rfl rfl rfl rfl
  have htrying : { b1 with tries := frames }.trying = b.trying := edge.scopes
  refine
    { ready := h.reframe he hs edge.operations ?_
        (fun f hf => (edge.fits f hf).mono (b1.extends_withTries frames)) ?_
        (fun f hf _ => by rwa [htrying] at hf) edge.tables
      grows := .of_operations he edge.operations htrying
      complete := fun f hf hw hl => ?_
      fits := ?_
      values := edge.values
      operations := edge.operations
      nodup := edge.nodup
      new := fun c hc => by
        obtain ⟨cl, hcl, rfl⟩ := mem_map.mp hc
        exact (edge.copies cl hcl).1 }
  · show b1.nextTry = b1.tryNumber b1.scopes.size
    rw [edge.nextTry, edge.number, h.collects.next]
  · rw [htrying]
    exact pairwise_map.mpr h.collects.ordered
  · rw [htrying] at hf
    obtain ⟨frame, hframe, rfl⟩ := mem_map.mp hf
    rw [he.tryNumber (Nat.le_of_lt (h.collects.trying_lt hf)), ← h.collects.id frame hframe,
      edge.owners]
    refine mem_map_of_mem (mem_filter.mpr ⟨hframe, (crosses_iff hd).mpr ⟨?_, ?_⟩⟩)
    · exact (he.within_iff hd h.isOpen.lt).mp hw
    · exact (leaves_iff he hd hdest').mp hl
  · refine ⟨fun cl hcl => ?_, ?_⟩
    · obtain ⟨_, f, hf, hcopy, hcross⟩ := edge.copies cl hcl
      obtain ⟨hw, hl⟩ := (crosses_iff hd).mp hcross
      have hne : f.scope ≠ here := by
        intro heq
        have := h.collects.frame f hf
        rw [heq] at this
        exact h.notFrame (by rw [this]; rfl)
      refine ⟨f.scope, hcopy.mono (b1.extends_withTries frames), ?_, ?_⟩
      · exact (guards_iff he hd h.isOpen.lt).mpr
          (h.isOpen.entered f.scope (mem_map_of_mem hf) hw hne)
      · exact (leaves_iff he hd hdest').mpr hl
    · rw [← pairwise_map (f := owner) (R := fun x y => y < x), edge.owners,
        pairwise_map]
      refine (h.collects.ordered.filter _).imp_of_mem fun {f g} hf hg hlt => ?_
      have hf := (mem_filter.mp hf).1
      have hg := (mem_filter.mp hg).1
      rw [h.collects.id f hf, h.collects.id g hg]
      exact tryNumber_lt (h.collects.frame g hg) hlt

theorem Ready.withTries (h : b.Ready here) {frames : List TryFrame}
    (hfits : ∀ f ∈ frames, b.FrameFits f) (hsub : (frames.map TryFrame.scope).Sublist b.trying) :
    { b with tries := frames }.Ready here := by
  have he := b.extends_withTries frames
  have hordered : b.trying.Pairwise fun x y => y < x := pairwise_map.mpr h.collects.ordered
  exact h.reframe he (SoundUpTo.congr h.sound rfl rfl rfl rfl rfl rfl) (fun _ => rfl)
    h.collects.next (fun f hf => (hfits f hf).mono he) (hordered.sublist hsub)
    (fun f hf _ => hsub.subset hf) rfl

/-! ## Try statements -/

def openTry (b : Body) (here : Nat) : Body :=
  let body := (b.openScope (some here) .tryFrame).2
  { body with
    nextTry := body.nextTry + 1
    tries := { id := body.nextTry, scope := b.scopes.size, placeholders := #[] } :: body.tries }

theorem extends_openTry (b : Body) (here : Nat) : b.Extends (b.openTry here) :=
  (b.extends_openScope (some here) .tryFrame).trans (.of_scopes rfl rfl rfl)

/-- A try statement begins as the innermost one that is open. -/
theorem Ready.openTry (h : b.Ready here) :
    (b.openTry here).Ready here ∧ b.Grows (b.openTry here) here := by
  have he := b.extends_openTry here
  have hops : ∀ s, (b.openTry here).operations s = b.operations s :=
    operations_openScope b (some here) .tryFrame
  have htrying : (b.openTry here).trying = b.scopes.size :: b.trying := rfl
  have hold : ∀ f ∈ (b.openTry here).trying, f < b.scopes.size → f ∈ b.trying := by
    intro f hf hlt
    rw [htrying] at hf
    rcases mem_cons.mp hf with rfl | hf
    · exact absurd hlt (Nat.lt_irrefl _)
    · exact hf
  have hnew : (b.openTry here).kindOf b.scopes.size = .tryFrame :=
    b.kindOf_new (some here) .tryFrame
  have hfits : ∀ f ∈ (b.openTry here).tries, (b.openTry here).FrameFits f := by
    intro f hf
    rcases mem_cons.mp hf with rfl | hf
    · refine ⟨hnew, ?_, fun p hp => absurd hp (Array.not_mem_empty p)⟩
      show b.nextTry = (b.openTry here).tryNumber b.scopes.size
      rw [he.tryNumber .refl, h.collects.next]
    · exact (h.collects.frameFits hf).mono he
  refine ⟨h.reframe he (SoundUpTo.congr (SoundUpTo.openScope h.sound h.isOpen.lt .tryFrame)
    rfl rfl rfl rfl rfl rfl) hops ?_ hfits ?_ hold rfl, ?_⟩
  · have hnumber := tryNumber_openScope b (some here) .tryFrame _ rfl
    rw [if_pos rfl, ← h.collects.next] at hnumber
    exact hnumber.symm
  · exact pairwise_cons.mpr ⟨fun f hf => h.collects.trying_lt hf,
      pairwise_map.mpr h.collects.ordered⟩
  · exact
      { toExtends := he
        owned := fun s c hc _ => by rwa [Body.owned, hops] at hc
        trying := fun f hf => ⟨fun h => hold f h hf, fun h => by
          rw [htrying]
          exact .tail _ h⟩
        inside := fun s => .inl (hops s)
        settled := fun s _ => hops s
        behind := fun s => hops s ▸ prefix_rfl }

end Body
end ClassAssembler
