import ClassAssembler.Proofs.Build.Journal

/-!
# Scopes that are accounted for

What a program does that ends well: every scope that it opens is held by an operation in the end,
every try statement that it opens is closed, and every copy of the finally block of such a
statement is noted in the journal once.
-/

namespace ClassAssembler

open List

namespace Body

variable {b b' b'' : Body} {here here' p c f h s : Nat} {kind : ScopeKind} {P P' X : List Nat}

def CopyIn (b : Body) (scope copy : Nat) : Prop :=
  b.parentOf copy = some scope ∧ b.kindOf copy = .finallyCopy

def HandlerIn (b : Body) (frame handler : Nat) : Prop :=
  b.parentOf handler = some frame ∧ b.kindOf handler = .catchAll

/-- A copy of the finally block of a statement whose handler has been opened. -/
def Filled (b : Body) (frame copy : Nat) : Prop :=
  b.kindOf frame = .tryFrame ∧
    ∃ handler, b.HandlerIn frame handler ∧ (b.CopyIn frame copy ∨ b.CopyIn handler copy)

def Gathers (b : Body) (F : TryFrame) : Prop :=
  F.placeholders.toList.Nodup ∧ ∀ c, c ∈ F.placeholders.toList ↔ b.CopyIn F.scope c

/-- The try statements under construction know their copies, and have no handler for all
exceptions yet. -/
structure Tended (b : Body) : Prop where
  descends : b.Descends
  frame : ∀ f ∈ b.trying, b.kindOf f = .tryFrame
  nodup : b.trying.Nodup
  copies : ∀ F ∈ b.tries, b.Gathers F
  unhandled : ∀ f ∈ b.trying, ∀ h, ¬ b.HandlerIn f h

section

variable (he : b.Extends b')
include he

theorem Extends.copyIn (hc : b.CopyIn p c) : b'.CopyIn p c :=
  ⟨he.parentOf hc.1, he.kindOf hc.2 (by decide)⟩

theorem Extends.handlerIn (hh : b.HandlerIn f h) : b'.HandlerIn f h :=
  ⟨he.parentOf hh.1, he.kindOf hh.2 (by decide)⟩

theorem Extends.copyIn_iff (hc : c < b.scopes.size) : b'.CopyIn p c ↔ b.CopyIn p c := by
  rw [CopyIn, CopyIn, he.parent c hc, he.kind c hc]

theorem Extends.handlerIn_iff (hh : h < b.scopes.size) : b'.HandlerIn f h ↔ b.HandlerIn f h := by
  rw [HandlerIn, HandlerIn, he.parent h hh, he.kind h hh]

theorem Extends.owned (hc : c ∈ b.owned s) : c ∈ b'.owned s := by
  obtain ⟨op, hop, hc⟩ := mem_flatMap.mp hc
  obtain ⟨l1, l2, hops, _⟩ := he.operations s
  refine mem_flatMap.mpr ⟨op, ?_, hc⟩
  rw [hops]
  exact mem_append_right _ (mem_append_left _ hop)

theorem Extends.mem_operations {op : Operation} (hop : op ∈ b.operations s) :
    op ∈ b'.operations s := by
  obtain ⟨l1, l2, hops, _⟩ := he.operations s
  rw [hops]
  exact mem_append_right _ (mem_append_left _ hop)

end

theorem Filled.lt_size (hf : b.Filled f c) : f < b.scopes.size :=
  lt_size_of_kindOf (by rw [hf.1]; decide)

theorem Filled.mono (he : b.Extends b') (hf : b.Filled f c) : b'.Filled f c := by
  obtain ⟨hk, h, hh, hc⟩ := hf
  exact ⟨he.kindOf hk (by decide), h, he.handlerIn hh, hc.imp he.copyIn he.copyIn⟩

theorem Tended.trying_lt (ht : b.Tended) (hf : f ∈ b.trying) : f < b.scopes.size :=
  lt_size_of_kindOf (by rw [ht.frame f hf]; decide)

theorem Tended.withTries (ht : b.Tended) {frames : List TryFrame} (hd : b'.Descends)
    (hparent : ∀ s, b'.parentOf s = b.parentOf s) (hkind : ∀ s, b'.kindOf s = b.kindOf s)
    (hsub : (frames.map TryFrame.scope).Sublist b.trying) (htries : b'.tries = frames)
    (hcopies : ∀ F ∈ frames, b.Gathers F) : b'.Tended where
  descends := hd
  frame f hf := by
    rw [hkind]
    exact ht.frame f (hsub.subset (by rwa [trying, htries] at hf))
  nodup := by
    rw [trying, htries]
    exact ht.nodup.sublist hsub
  copies F hF := by
    rw [htries] at hF
    refine ⟨(hcopies F hF).1, fun c => ?_⟩
    rw [(hcopies F hF).2 c, CopyIn, CopyIn, hparent, hkind]
  unhandled f hf h hh := by
    rw [HandlerIn, hparent, hkind] at hh
    exact ht.unhandled f (hsub.subset (by rwa [trying, htries] at hf)) h hh

theorem Tended.level (ht : b.Tended) (hl : b.Level b') : b'.Tended :=
  ht.withTries (fun s p hp => ht.descends (by rwa [hl.parentOf_eq] at hp)) hl.parentOf_eq
    hl.kindOf_eq (.refl _) hl.tries ht.copies

theorem descends_openScope (hd : b.Descends) (hp : p < b.scopes.size) (kind : ScopeKind) :
    (b.openScope (some p) kind).2.Descends := by
  intro s q hq
  rw [parentOf_openScope] at hq
  split at hq
  · next heq =>
    cases hq
    rw [heq]
    exact hp
  · exact hd hq

theorem copyIn_openScope : (b.openScope (some p) kind).2.CopyIn s c ↔
    (c = b.scopes.size ∧ s = p ∧ kind = .finallyCopy) ∨ b.CopyIn s c := by
  rw [CopyIn, parentOf_openScope, kindOf_openScope]
  by_cases hc : c = b.scopes.size
  · rw [if_pos hc, if_pos hc, CopyIn, hc, parentOf_eq_none .refl]
    simp [eq_comm]
  · rw [if_neg hc, if_neg hc, CopyIn]
    simp [hc]

theorem handlerIn_openScope : (b.openScope (some p) kind).2.HandlerIn s h ↔
    (h = b.scopes.size ∧ s = p ∧ kind = .catchAll) ∨ b.HandlerIn s h := by
  rw [HandlerIn, parentOf_openScope, kindOf_openScope]
  by_cases hc : h = b.scopes.size
  · rw [if_pos hc, if_pos hc, HandlerIn, hc, parentOf_eq_none .refl]
    simp [eq_comm]
  · rw [if_neg hc, if_neg hc, HandlerIn]
    simp [hc]

theorem Tended.openScope (ht : b.Tended) (hp : p < b.scopes.size)
    (hk : p ∈ b.trying → kind ≠ .catchAll ∧ kind ≠ .finallyCopy) :
    (b.openScope (some p) kind).2.Tended where
  descends := descends_openScope ht.descends hp kind
  frame f hf := by
    rw [(b.extends_openScope (some p) kind).kind f (ht.trying_lt hf)]
    exact ht.frame f hf
  nodup := ht.nodup
  copies F hF := by
    refine ⟨(ht.copies F hF).1, fun c => ?_⟩
    rw [(ht.copies F hF).2 c, copyIn_openScope]
    refine ⟨.inr, ?_⟩
    rintro (⟨_, rfl, hkind⟩ | hc)
    · exact absurd hkind (hk (mem_map_of_mem hF)).2
    · exact hc
  unhandled f hf h hh := by
    rcases handlerIn_openScope.mp hh with ⟨_, rfl, hkind⟩ | hh
    · exact (hk hf).1 hkind
    · exact ht.unhandled f hf h hh

/-! ## Growth -/

/-- What a step in `here` does to the scope tree. The scopes `P` are left to be held later. -/
structure Tends (here : Nat) (b : Body) (P : List Nat) (b' : Body) : Prop extends Extends b b' where
  tended : b'.Tended
  trying : ∀ f ∈ b'.trying, f < b.scopes.size → f ∈ b.trying
  children : ∀ c p, b.scopes.size ≤ c → b'.parentOf c = some p → p < b.scopes.size →
    (p = here ∧ b'.kindOf c ≠ .catchAll ∧ b'.kindOf c ≠ .finallyCopy) ∨
      (p ∈ b.trying ∧ b'.kindOf c = .finallyCopy)
  pending : ∀ c ∈ P, b.scopes.size ≤ c ∧ c < b'.scopes.size
  held : ∀ c, b.scopes.size ≤ c → c < b'.scopes.size → c ∈ P ∨ ∃ s, c ∈ b'.owned s

namespace Tends

theorem level (hb : b'.Tended) (he : b.Extends b') (hsize : b'.scopes.size = b.scopes.size)
    (htrying : ∀ f ∈ b'.trying, f ∈ b.trying) : b.Tends here [] b' where
  toExtends := he
  tended := hb
  trying f hf _ := htrying f hf
  children c p hc hp _ := by
    have hlt := lt_size_of_parentOf hp
    omega
  pending c hc := by cases hc
  held c hge hlt := by omega

theorem refl (hb : b.Tended) : b.Tends here [] b := level hb (.refl b) rfl fun _ h => h

theorem trans (h : b.Tends here P b') (h' : b'.Tends here' P' b'')
    (hhere : here' = here ∨ b.scopes.size ≤ here') : b.Tends here (P ++ P') b'' where
  toExtends := h.toExtends.trans h'.toExtends
  tended := h'.tended
  trying f hf hlt := h.trying f (h'.trying f hf (Nat.lt_of_lt_of_le hlt h.size)) hlt
  children c p hc hp hlt := by
    rcases Nat.lt_or_ge c b'.scopes.size with hold | hnew
    · rw [h'.parent c hold] at hp
      rw [h'.kind c hold]
      exact h.children c p hc hp hlt
    · rcases h'.children c p hnew hp (Nat.lt_of_lt_of_le hlt h.size) with ⟨rfl, hk⟩ | ⟨htry, hk⟩
      · rcases hhere with rfl | hge
        · exact .inl ⟨rfl, hk⟩
        · omega
      · exact .inr ⟨h.trying p htry hlt, hk⟩
  pending c hc := by
    have hle := h.size
    have hle' := h'.size
    rcases mem_append.mp hc with hc | hc
    · have := h.pending c hc
      omega
    · have := h'.pending c hc
      omega
  held c hge hlt := by
    rcases Nat.lt_or_ge c b'.scopes.size with hold | hnew
    · rcases h.held c hge hold with hc | ⟨s, hs⟩
      · exact .inl (mem_append_left _ hc)
      · exact .inr ⟨s, h'.toExtends.owned hs⟩
    · rcases h'.held c hnew hlt with hc | hs
      · exact .inl (mem_append_right _ hc)
      · exact .inr hs

theorem congr (h : b.Tends here P b') (hP : ∀ c, c ∈ P ↔ c ∈ P') : b.Tends here P' b' :=
  { h with
    pending := fun c hc => h.pending c ((hP c).mpr hc)
    held := fun c hge hlt => (h.held c hge hlt).imp_left (hP c).mp }

theorem push (h : b.Tends here P b') {op : Operation} (hs : s < b'.scopes.size)
    (hsub : ∀ c ∈ P', c ∈ P) (hP : ∀ c ∈ P, c ∈ P' ∨ c ∈ op.owned) :
    b.Tends here P' (b'.push s op) := by
  have hl : b'.Level (b'.push s op) := .push b' op hs
  have hown : ∀ c ∈ op.owned, c ∈ (b'.push s op).owned s := by
    intro c hc
    refine mem_flatMap.mpr ⟨op, ?_, hc⟩
    rw [operations_push_self b' s op hs]
    exact mem_append_right _ (mem_singleton_self op)
  refine
    { h.trans (.level (h.tended.level hl) hl.toExtends hl.same fun _ hf => hf) (.inl rfl) with
      pending := fun c hc => ?_
      held := fun c hge hlt => ?_ }
  · rw [hl.same]
    exact h.pending c (hsub c hc)
  · rw [hl.same] at hlt
    rcases h.held c hge hlt with hc | ⟨t, ht⟩
    · exact (hP c hc).imp_right fun hc => ⟨s, hown c hc⟩
    · exact .inr ⟨t, hl.toExtends.owned ht⟩

theorem openScope (h : b.Tends here P b')
    (hp : (p = here ∧ kind ≠ .catchAll ∧ kind ≠ .finallyCopy) ∨ b.scopes.size ≤ p)
    (ht : (b'.openScope (some p) kind).2.Tended) :
    b.Tends here (b'.scopes.size :: P) (b'.openScope (some p) kind).2 where
  toExtends := h.toExtends.trans (b'.extends_openScope (some p) kind)
  tended := ht
  trying := h.trying
  children c q hc hq hlt := by
    rw [parentOf_openScope] at hq
    rw [kindOf_openScope]
    by_cases hnew : c = b'.scopes.size
    · rw [if_pos hnew] at hq ⊢
      cases hq
      rcases hp with hp | hp
      · exact .inl hp
      · omega
    · rw [if_neg hnew] at hq ⊢
      exact h.children c q hc hq hlt
  pending c hc := by
    have hle := h.size
    rw [size_openScope]
    rcases mem_cons.mp hc with rfl | hc
    · omega
    · have := h.pending c hc
      omega
  held c hge hlt := by
    rw [size_openScope] at hlt
    rcases Nat.lt_or_ge c b'.scopes.size with hold | hnew
    · refine (h.held c hge hold).imp (mem_cons_of_mem _) ?_
      rintro ⟨s, hs⟩
      exact ⟨s, by rwa [owned_openScope]⟩
    · exact .inl (mem_cons.mpr (.inl (by omega)))

theorem copyIn_iff (h : b.Tends here P b') (hlt : p < b.scopes.size) (hp : p ∉ b.trying) :
    b'.CopyIn p c ↔ b.CopyIn p c := by
  refine ⟨fun hc => ?_, h.toExtends.copyIn⟩
  rcases Nat.lt_or_ge c b.scopes.size with hold | hnew
  · exact (h.toExtends.copyIn_iff hold).mp hc
  · rcases h.children c p hnew hc.1 hlt with ⟨_, _, hk⟩ | ⟨htry, _⟩
    · exact absurd hc.2 hk
    · exact absurd htry hp

theorem handlerIn_iff (h' : b.Tends here P b') (hlt : f < b.scopes.size) :
    b'.HandlerIn f h ↔ b.HandlerIn f h := by
  refine ⟨fun hh => ?_, h'.toExtends.handlerIn⟩
  rcases Nat.lt_or_ge h b.scopes.size with hold | hnew
  · exact (h'.toExtends.handlerIn_iff hold).mp hh
  · rcases h'.children h f hnew hh.1 hlt with ⟨_, hk, _⟩ | ⟨_, hk⟩
    · exact absurd hh.2 hk
    · rw [hh.2] at hk
      cases hk

theorem copyIn_handler_iff (h' : b.Tends here P b') (hb : b.Tended) (hk : b.kindOf h = .catchAll) :
    b'.CopyIn h c ↔ b.CopyIn h c := by
  refine h'.copyIn_iff (lt_size_of_kindOf (by rw [hk]; decide)) fun htry => ?_
  rw [hb.frame h htry] at hk
  cases hk

theorem filled_iff (h : b.Tends here P b') (hb : b.Tended) (hf : f < b.scopes.size) :
    b'.Filled f c ↔ b.Filled f c := by
  refine ⟨?_, Filled.mono h.toExtends⟩
  rintro ⟨hk, g, hg, hc⟩
  rw [h.kind f hf] at hk
  rw [h.handlerIn_iff hf] at hg
  have hnot : f ∉ b.trying := fun htry => hb.unhandled f htry g hg
  rw [h.copyIn_iff hf hnot, h.copyIn_handler_iff hb hg.2] at hc
  exact ⟨hk, g, hg, hc⟩

end Tends

/-! ## Handlers and runs -/

/-- Every new handler runs one copy of the finally block, except those in `X`. -/
def Handled (b : Body) (X : List Nat) (b' : Body) : Prop :=
  ∀ h, b.scopes.size ≤ h → b'.kindOf h = .catchAll → h ∈ X ∨
    ∃ copy, .block copy ∈ b'.operations h ∧ ∀ c, b'.CopyIn h c ↔ c = copy

theorem Handled.of_none (hnew : ∀ h, b.scopes.size ≤ h → b'.kindOf h ≠ .catchAll) :
    b.Handled X b' := fun h hge hk => absurd hk (hnew h hge)

theorem Handled.trans (h : b.Handled X b') (hb : b'.Tended) (ht : b'.Tends here P b'')
    (h' : b'.Handled [] b'') : b.Handled X b'' := by
  intro g hge hk
  rcases Nat.lt_or_ge g b'.scopes.size with hold | hnew
  · rw [ht.kind g hold] at hk
    refine (h g hge hk).imp_right ?_
    rintro ⟨copy, hcopy, hall⟩
    refine ⟨copy, ht.toExtends.mem_operations hcopy, fun c => ?_⟩
    rw [ht.copyIn_handler_iff hb hk]
    exact hall c
  · exact .inr ((h' g hnew hk).resolve_left (by simp))

/-- A step noted the copies of the statements it opened, and `N` ahead of time. -/
def Runs (b : Body) (j : Build.Journal) (N : List (Nat × Nat)) (b' : Body) (j' : Build.Journal) :
    Prop :=
  ∃ l, j' = j ++ l ∧ l.Nodup ∧
    ∀ f c, (f, c) ∈ l ↔ b.scopes.size ≤ f ∧ (b'.Filled f c ∨ (f, c) ∈ N)

theorem Runs.of_none {j : Build.Journal} (hd : b'.Descends)
    (hnew : ∀ h, b.scopes.size ≤ h → b'.kindOf h ≠ .catchAll) : b.Runs j [] b' j := by
  refine ⟨[], (List.append_nil j).symm, nodup_nil, fun f c => ⟨(fun h => by cases h), ?_⟩⟩
  rintro ⟨hge, ⟨_, h, hh, _⟩ | hN⟩
  · exact absurd hh.2 (hnew h (Nat.le_trans hge (Nat.le_of_lt (hd hh.1))))
  · cases hN

theorem Runs.trans {j j' j'' : Build.Journal} {N : List (Nat × Nat)} (h : b.Runs j N b' j')
    (hN : ∀ x ∈ N, x.1 < b'.scopes.size) (hle : b.scopes.size ≤ b'.scopes.size) (hb : b'.Tended)
    (ht : b'.Tends here P b'') (h' : b'.Runs j' [] b'' j'') : b.Runs j N b'' j'' := by
  obtain ⟨l, rfl, hnodup, hmem⟩ := h
  obtain ⟨l', rfl, hnodup', hmem'⟩ := h'
  have hold : ∀ f c, (f, c) ∈ l → f < b'.scopes.size := by
    intro f c hfc
    rcases ((hmem f c).mp hfc).2 with hf | hfc
    · exact hf.lt_size
    · exact hN (f, c) hfc
  refine ⟨l ++ l', List.append_assoc .., ?_, fun f c => ?_⟩
  · refine nodup_append.mpr ⟨hnodup, hnodup', ?_⟩
    rintro ⟨f, c⟩ hx y hy rfl
    have hlt := hold f c hx
    have hge := ((hmem' f c).mp hy).1
    omega
  · rw [mem_append, hmem, hmem']
    rcases Nat.lt_or_ge f b'.scopes.size with hlt | hge
    · rw [ht.filled_iff hb hlt]
      refine ⟨?_, .inl⟩
      rintro (hf | ⟨hge, _⟩)
      · exact hf
      · omega
    · have hnot : (f, c) ∉ N := fun hfc => Nat.not_lt.mpr hge (hN (f, c) hfc)
      constructor
      · rintro (⟨_, hf | hfc⟩ | ⟨_, hf⟩)
        · exact absurd hf.lt_size (Nat.not_lt.mpr hge)
        · exact absurd hfc hnot
        · exact ⟨Nat.le_trans hle hge, .inl (hf.resolve_right (by simp))⟩
      · rintro ⟨_, hf | hfc⟩
        · exact .inr ⟨hge, .inl hf⟩
        · exact absurd hfc hnot

/-- What a step in `here` does, as far as `P` are to be held, `N` was noted ahead of time and the
handlers `X` still lack their copy. -/
structure Moved (here : Nat) (b : Body) (j : Build.Journal) (P : List Nat) (N : List (Nat × Nat))
    (X : List Nat) (b' : Body) (j' : Build.Journal) : Prop where
  tends : b.Tends here P b'
  runs : b.Runs j N b' j'
  handled : b.Handled X b'

/-- What a step does that closes every try statement it opens. -/
structure Served (here : Nat) (b : Body) (j : Build.Journal) (P : List Nat) (b' : Body)
    (j' : Build.Journal) : Prop extends Moved here b j P [] [] b' j' where
  trying : b'.trying = b.trying

variable {j j' j'' : Build.Journal} {N : List (Nat × Nat)}

theorem Moved.trans (h : b.Moved here j P N X b' j') (hN : ∀ x ∈ N, x.1 < b'.scopes.size)
    (h' : b'.Moved here' j' P' [] [] b'' j'') (hhere : here' = here ∨ b.scopes.size ≤ here') :
    b.Moved here j (P ++ P') N X b'' j'' where
  tends := h.tends.trans h'.tends hhere
  runs := h.runs.trans hN h.tends.size h.tends.tended h'.tends h'.runs
  handled := h.handled.trans h.tends.tended h'.tends h'.handled

theorem Moved.congr (h : b.Moved here j P N X b' j') (hP : ∀ c, c ∈ P ↔ c ∈ P') :
    b.Moved here j P' N X b' j' := { h with tends := h.tends.congr hP }

theorem Tends.moved (h : b.Tends here P b')
    (hnew : ∀ h, b.scopes.size ≤ h → b'.kindOf h ≠ .catchAll) : b.Moved here j P [] [] b' j :=
  ⟨h, .of_none h.tended.descends hnew, .of_none hnew⟩

theorem kindOf_ne_of_size (hge : b.scopes.size ≤ s) (hk : kind ≠ .root) : b.kindOf s ≠ kind := by
  intro heq
  exact Nat.not_lt.mpr hge (lt_size_of_kindOf (by rw [heq]; exact hk))

theorem Moved.level (hb : b.Tended) (hl : b.Level b') : b.Moved here j [] [] [] b' j := by
  refine (Tends.level (hb.level hl) hl.toExtends hl.same fun f hf => ?_).moved fun h hge => ?_
  · rwa [Body.trying, hl.tries] at hf
  · exact kindOf_ne_of_size (by rw [hl.same]; exact hge) (by decide)

theorem Served.level (hb : b.Tended) (hl : b.Level b') : b.Served here j [] b' j :=
  ⟨.level hb hl, by rw [Body.trying, hl.tries, Body.trying]⟩

theorem Served.openScope (hb : b.Tended) (hp : p < b.scopes.size) (hk : kind ≠ .catchAll)
    (hk' : kind ≠ .finallyCopy) : b.Served p j [b.scopes.size] (b.openScope (some p) kind).2 j := by
  refine ⟨((Tends.refl hb).openScope (.inl ⟨rfl, hk, hk'⟩)
    (hb.openScope hp fun _ => ⟨hk, hk'⟩)).moved fun h hge => ?_, rfl⟩
  rw [kindOf_openScope]
  split
  · exact hk
  · exact kindOf_ne_of_size hge (by decide)

theorem Moved.push (h : b.Moved here j P N X b' j') {op : Operation} (hs : s < b'.scopes.size)
    (hsub : ∀ c ∈ P', c ∈ P) (hP : ∀ c ∈ P, c ∈ P' ∨ c ∈ op.owned) :
    b.Moved here j P' N X (b'.push s op) j' := by
  have hl : b'.Level (b'.push s op) := .push b' op hs
  have hstep : b'.Moved here j' [] [] [] (b'.push s op) j' := .level h.tends.tended hl
  refine ⟨h.tends.push hs hsub hP, ?_, h.handled.trans h.tends.tended hstep.tends hstep.handled⟩
  obtain ⟨l, rfl, hnodup, hmem⟩ := h.runs
  refine ⟨l, rfl, hnodup, fun f c => ?_⟩
  rw [hmem, show (b'.push s op).Filled f c ↔ b'.Filled f c from ?_]
  simp only [Filled, HandlerIn, CopyIn, hl.parentOf_eq, hl.kindOf_eq]

theorem Moved.openTry (hb : b.Tended) (hlt : here < b.scopes.size) :
    b.Moved here j [b.scopes.size] [] [] (b.openTry here) j := by
  have hopened : (b.openScope (some here) .tryFrame).2.Tended :=
    hb.openScope hlt fun _ => ⟨by decide, by decide⟩
  have hopen : b.Tends here [b.scopes.size] (b.openScope (some here) .tryFrame).2 :=
    (Tends.refl hb).openScope (.inl ⟨rfl, by decide, by decide⟩) hopened
  have hchild : ∀ c, (b.openTry here).parentOf c ≠ some b.scopes.size := by
    intro c hc
    have hgt := hopened.descends (show (b.openScope (some here) .tryFrame).2.parentOf c = _ from hc)
    have hsize := lt_size_of_parentOf (show (b.openScope (some here) .tryFrame).2.parentOf c =
      _ from hc)
    rw [size_openScope] at hsize
    omega
  have htended : (b.openTry here).Tended :=
    { descends := hopened.descends
      frame := fun f hf => by
        rcases mem_cons.mp hf with rfl | hf
        · exact b.kindOf_new (some here) .tryFrame
        · exact hopened.frame f hf
      nodup := nodup_cons.mpr ⟨fun hmem => Nat.lt_irrefl _ (hb.trying_lt hmem), hb.nodup⟩
      copies := fun F hF => by
        rcases mem_cons.mp hF with rfl | hF
        · exact ⟨nodup_nil, fun c => ⟨fun hc => (by cases hc), fun hc => absurd hc.1 (hchild c)⟩⟩
        · exact hopened.copies F hF
      unhandled := fun f hf g hg => by
        rcases mem_cons.mp hf with rfl | hf
        · exact hchild g hg.1
        · exact hopened.unhandled f hf g hg }
  refine Tends.moved
    { hopen with
      tended := htended
      toExtends := b.extends_openTry here
      trying := fun f hf hlt' => ?_ } fun g hge hk => ?_
  · rcases mem_cons.mp hf with rfl | hf
    · exact absurd hlt' (Nat.lt_irrefl _)
    · exact hf
  · rw [show (b.openTry here).kindOf g = (b.openScope (some here) .tryFrame).2.kindOf g from rfl,
      kindOf_openScope] at hk
    split at hk
    · cases hk
    · exact kindOf_ne_of_size hge (by decide) hk

theorem Moved.popFrame (h : b.Moved here j P [] X b' j') {F : TryFrame} {outer : List TryFrame}
    (htries : b'.tries = F :: outer) : b.Moved here j P [] X { b' with tries := outer } j' := by
  have ht := h.tends.tended
  have htended : { b' with tries := outer }.Tended := by
    refine ht.withTries ht.descends (fun _ => rfl) (fun _ => rfl) ?_ rfl fun G hG =>
      ht.copies G (by rw [htries]; exact .tail _ hG)
    rw [Body.trying, htries]
    exact sublist_cons_self ..
  have hstep : b'.Moved here j' [] [] [] { b' with tries := outer } j' := by
    refine (Tends.level htended (b'.extends_withTries outer) rfl fun f hf => ?_).moved
      fun _ hge => kindOf_ne_of_size hge (by decide)
    rw [Body.trying, htries]
    exact .tail _ hf
  have hmoved := h.trans (fun _ hN => by cases hN) hstep (.inl rfl)
  rwa [List.append_nil] at hmoved

theorem Runs.note (h : b.Runs j N b' j') (hge : b.scopes.size ≤ f) (hc : (f, c) ∉ N)
    (hopen : ∀ g, ¬ b'.HandlerIn f g) : b.Runs j ((f, c) :: N) b' (j' ++ [(f, c)]) := by
  obtain ⟨l, rfl, hnodup, hmem⟩ := h
  have hnew : (f, c) ∉ l := by
    intro hfc
    rcases ((hmem f c).mp hfc).2 with ⟨_, g, hg, _⟩ | hN
    · exact hopen g hg
    · exact hc hN
  refine ⟨l ++ [(f, c)], List.append_assoc .., ?_, fun f' c' => ?_⟩
  · refine nodup_append.mpr ⟨hnodup, nodup_cons.mpr ⟨by simp, nodup_nil⟩, ?_⟩
    intro x hx y hy heq
    rw [mem_singleton.mp hy] at heq
    exact hnew (heq ▸ hx)
  · rw [mem_append, mem_singleton, mem_cons, hmem]
    constructor
    · rintro (⟨hge', hf⟩ | heq)
      · exact ⟨hge', hf.imp_right .inr⟩
      · cases heq
        exact ⟨hge, .inr (.inl rfl)⟩
    · rintro ⟨hge', hf | heq | hN⟩
      · exact .inl ⟨hge', .inl hf⟩
      · exact .inr heq
      · exact .inl ⟨hge', .inr hN⟩

theorem Moved.openHandler (h : b.Moved here j P N X b' j') (hp : f ∈ P) (hf : f ∉ b'.trying)
    (hk : b'.kindOf f = .tryFrame) (hopen : ∀ g, ¬ b'.HandlerIn f g)
    (hN : ∀ x, x ∈ N ↔ x.1 = f ∧ b'.CopyIn f x.2) :
    b.Moved here j (b'.scopes.size :: P) [] (b'.scopes.size :: X)
      (b'.openScope (some f) .catchAll).2 j' := by
  obtain ⟨hge, hlt⟩ := h.tends.pending f hp
  have hnone : ∀ {c}, ¬ b'.CopyIn b'.scopes.size c := fun hc =>
    Nat.lt_asymm (h.tends.tended.descends hc.1) (lt_size_of_parentOf hc.1)
  refine ⟨h.tends.openScope (.inr hge) (h.tends.tended.openScope hlt fun htry => absurd htry hf),
    ?_, ?_⟩
  · obtain ⟨l, rfl, hnodup, hmem⟩ := h.runs
    refine ⟨l, rfl, hnodup, fun f' c => (hmem f' c).trans (and_congr_right fun _ => ?_)⟩
    rw [hN, Filled, Filled, kindOf_openScope]
    simp only [handlerIn_openScope, copyIn_openScope, reduceCtorEq, and_false, false_or, and_true,
      not_mem_nil, or_false]
    constructor
    · rintro (⟨hk', g, hg, hc⟩ | ⟨rfl, hc⟩)
      · rw [if_neg (Nat.ne_of_lt (lt_size_of_kindOf (by rw [hk']; decide)))]
        exact ⟨hk', g, .inr hg, hc⟩
      · rw [if_neg (Nat.ne_of_lt hlt)]
        exact ⟨hk, _, .inl ⟨rfl, rfl⟩, .inl hc⟩
    · rintro ⟨hk', g, ⟨rfl, rfl⟩ | hg, hc⟩
      · exact .inr ⟨rfl, hc.resolve_right hnone⟩
      · split at hk'
        · cases hk'
        · exact .inl ⟨hk', g, hg, hc⟩
  · intro g hge hk'
    rw [kindOf_openScope] at hk'
    split at hk'
    · next heq => exact .inl (heq ▸ .head ..)
    · refine (h.handled g hge hk').imp (mem_cons_of_mem _) ?_
      rintro ⟨copy, hcopy, hall⟩
      refine ⟨copy, by rwa [operations_openScope], fun c => ?_⟩
      rw [copyIn_openScope, ← hall c]
      simp

theorem Moved.openCopy (h' : b.Moved here j P [] [h] b' j') (hp : h ∈ P) (hge : b.scopes.size ≤ f)
    (hk : b'.kindOf f = .tryFrame) (hh : b'.HandlerIn f h) :
    b.Moved here j (b'.scopes.size :: P) [] [h] (b'.openScope (some h) .finallyCopy).2
      (j' ++ [(f, b'.scopes.size)]) := by
  obtain ⟨hge', hlt⟩ := h'.tends.pending h hp
  have hf : h ∉ b'.trying := by
    intro htry
    have := h'.tends.tended.frame h htry
    rw [hh.2] at this
    cases this
  have hnew : ∀ {s}, ¬ b'.CopyIn s b'.scopes.size := fun hc =>
    Nat.lt_irrefl _ (lt_size_of_parentOf hc.1)
  refine ⟨h'.tends.openScope (.inr hge') (h'.tends.tended.openScope hlt fun htry => absurd htry hf),
    ?_, ?_⟩
  · obtain ⟨l, rfl, hnodup, hmem⟩ := h'.runs
    refine ⟨l ++ [(f, b'.scopes.size)], List.append_assoc .., ?_, fun f' c => ?_⟩
    · refine nodup_append.mpr ⟨hnodup, nodup_cons.mpr ⟨by simp, nodup_nil⟩, ?_⟩
      rintro x hx y hy rfl
      rw [mem_singleton.mp hy] at hx
      rcases ((hmem f _).mp hx).2 with ⟨_, g, _, hc | hc⟩ | hN
      · exact hnew hc
      · exact hnew hc
      · cases hN
    · rw [mem_append, mem_singleton, hmem, Filled, Filled, kindOf_openScope]
      simp only [handlerIn_openScope, copyIn_openScope, reduceCtorEq, and_false, false_or, and_true,
        not_mem_nil, or_false]
      constructor
      · rintro (⟨hge'', hk', g, hg, hc⟩ | heq)
        · rw [if_neg (Nat.ne_of_lt (lt_size_of_kindOf (by rw [hk']; decide)))]
          exact ⟨hge'', hk', g, hg, hc.imp .inr .inr⟩
        · cases heq
          rw [if_neg (Nat.ne_of_lt (lt_size_of_kindOf (by rw [hk]; decide)))]
          exact ⟨hge, hk, h, hh, .inr (.inl ⟨rfl, rfl⟩)⟩
      · rintro ⟨hge'', hk', g, hg, hc⟩
        split at hk'
        · cases hk'
        · rcases hc with (⟨rfl, rfl⟩ | hc) | (⟨rfl, rfl⟩ | hc)
          · rw [hh.2] at hk'
            cases hk'
          · exact .inl ⟨hge'', hk', g, hg, .inl hc⟩
          · have heq := hg.1.symm.trans hh.1
            cases heq
            exact .inr rfl
          · exact .inl ⟨hge'', hk', g, hg, .inr hc⟩
  · intro g hge'' hk'
    rw [kindOf_openScope] at hk'
    split at hk'
    · cases hk'
    · by_cases hg : g = h
      · exact .inl (mem_singleton.mpr hg)
      · refine (h'.handled g hge'' hk').imp_right ?_
        rintro ⟨copy, hcopy, hall⟩
        refine ⟨copy, by rwa [operations_openScope], fun c => ?_⟩
        rw [copyIn_openScope, ← hall c]
        simp [hg]

theorem Moved.closeHandler (h' : b.Moved here j P N [h] b' j') {copy : Nat} (hp : h ∈ P)
    (hsub : ∀ c ∈ P', c ∈ P) (hP : ∀ c ∈ P, c ∈ P' ∨ c = copy)
    (hcopy : ∀ c, b'.CopyIn h c ↔ c = copy) :
      b.Moved here j P' N [] (b'.push h (.block copy)) j' := by
  have hlt := (h'.tends.pending h hp).2
  have hpush : b.Moved here j P' N [h] (b'.push h (.block copy)) j' :=
    h'.push hlt hsub fun c hc => (hP c hc).imp_right fun heq => by
      rw [heq]
      exact mem_singleton_self copy
  refine { hpush with handled := fun g hge hk => .inr ?_ }
  rcases hpush.handled g hge hk with hg | hall
  · refine ⟨copy, ?_, fun c => ?_⟩
    · rw [mem_singleton.mp hg, operations_push_self b' h _ hlt]
      exact mem_append_right _ (.head _)
    · rw [mem_singleton.mp hg, CopyIn, parentOf_push, kindOf_push]
      exact hcopy c
  · exact hall

/-! ## Exits -/

/-- Placeholders are opened in some of the statements under construction. -/
inductive Opens : List TryFrame → Body → List Cleanup → List TryFrame → Body → Prop
  | nil (b : Body) : Opens [] b [] [] b
  | skip {f : TryFrame} {outer frames : List TryFrame} {cleanups : List Cleanup} {b b' : Body} :
      Opens outer b cleanups frames b' → Opens (f :: outer) b cleanups (f :: frames) b'
  | cross {f : TryFrame} {outer frames : List TryFrame} {cleanups : List Cleanup} {b b' : Body} :
      Opens outer (b.openScope (some f.scope) .finallyCopy).2 cleanups frames b' →
      Opens (f :: outer) b (⟨f.id, b.scopes.size⟩ :: cleanups)
        ({ f with placeholders := f.placeholders.push b.scopes.size } :: frames) b'

theorem opens_openCleanups (here : Nat) (destination : Option Nat) (frames : List TryFrame)
    (b : Body) : Opens frames b (openCleanups here destination frames b).1
      (openCleanups here destination frames b).2.1 (openCleanups here destination frames
        b).2.2 := by
  induction frames generalizing b with
  | nil => exact .nil b
  | cons f outer ih =>
    rw [openCleanups]
    split
    · exact .cross (ih _)
    · exact .skip (ih b)

namespace Opens

variable {frames frames' : List TryFrame} {cleanups : List Cleanup}

theorem none (frames : List TryFrame) (b : Body) : Opens frames b [] frames b := by
  induction frames with
  | nil => exact .nil b
  | cons f outer ih => exact .skip ih

theorem ext (h : Opens frames b cleanups frames' b') : b.Extends b' := by
  induction h with
  | nil b => exact .refl b
  | skip _ ih => exact ih
  | @cross f _ _ _ b _ _ ih => exact (b.extends_openScope (some f.scope) .finallyCopy).trans ih

theorem scopes (h : Opens frames b cleanups frames' b') :
    frames'.map TryFrame.scope = frames.map TryFrame.scope := by
  induction h with
  | nil b => rfl
  | skip _ ih => rw [map_cons, map_cons, ih]
  | cross _ ih => rw [map_cons, map_cons, ih]

theorem descends (h : Opens frames b cleanups frames' b')
    (hlt : ∀ f ∈ frames, f.scope < b.scopes.size) (hd : b.Descends) : b'.Descends := by
  induction h with
  | nil b => exact hd
  | skip _ ih => exact ih (fun f hf => hlt f (.tail _ hf)) hd
  | @cross f _ _ _ b _ _ ih =>
    refine ih (fun g hg => ?_) (descends_openScope hd (hlt f (.head ..)) .finallyCopy)
    exact Nat.lt_of_lt_of_le (hlt g (.tail _ hg)) (b.extends_openScope _ _).size

theorem new (h : Opens frames b cleanups frames' b') (hge : b.scopes.size ≤ c)
    (hlt : c < b'.scopes.size) :
    c ∈ cleanups.map Cleanup.scope ∧ ∃ f ∈ frames, b'.CopyIn f.scope c := by
  induction h with
  | nil b => omega
  | skip _ ih =>
    obtain ⟨hc, f, hf, hcopy⟩ := ih hge hlt
    exact ⟨hc, f, .tail _ hf, hcopy⟩
  | @cross f _ _ _ b _ hrest ih =>
    by_cases hc : c = b.scopes.size
    · refine ⟨mem_cons.mpr (.inl hc), f, .head .., hrest.ext.copyIn ?_⟩
      exact copyIn_openScope.mpr (.inl ⟨hc, rfl, rfl⟩)
    · obtain ⟨hmem, g, hg, hcopy⟩ := ih (by rw [size_openScope]; omega) hlt
      exact ⟨.tail _ hmem, g, .tail _ hg, hcopy⟩

theorem opened (h : Opens frames b cleanups frames' b') (hc : c ∈ cleanups.map Cleanup.scope) :
    b.scopes.size ≤ c ∧ c < b'.scopes.size := by
  induction h with
  | nil b => cases hc
  | skip _ ih => exact ih hc
  | @cross f _ _ _ b _ hrest ih =>
    have hsize := hrest.ext.size
    rw [size_openScope] at hsize ih
    rcases mem_cons.mp hc with rfl | hc
    · exact ⟨.refl, hsize⟩
    · have := ih hc
      omega

theorem gathers (h : Opens frames b cleanups frames' b')
    (hnodup : (frames.map TryFrame.scope).Nodup) (hb : ∀ F ∈ frames, b.Gathers F) :
    ∀ F ∈ frames', b'.Gathers F := by
  have hold : ∀ {outer : List TryFrame} {b b' : Body} {cs : List Cleanup} {fs : List TryFrame}
      {F : TryFrame}, Opens outer b cs fs b' → F.scope ∉ outer.map TryFrame.scope → b.Gathers F →
      b'.Gathers F := by
    intro outer b b' cs fs F h hnot hF
    refine ⟨hF.1, fun c => (hF.2 c).trans ⟨h.ext.copyIn, fun hc => ?_⟩⟩
    rcases Nat.lt_or_ge c b.scopes.size with hlt | hge
    · exact (h.ext.copyIn_iff hlt).mp hc
    · obtain ⟨_, f, hf, hcopy⟩ := h.new hge (lt_size_of_parentOf hc.1)
      have heq : F.scope = f.scope := Option.some.inj (hc.1.symm.trans hcopy.1)
      exact absurd (mem_map_of_mem hf) (heq ▸ hnot)
  induction h with
  | nil b => exact fun F hF => by cases hF
  | @skip f outer _ _ b _ hrest ih =>
    obtain ⟨hnot, hnodup⟩ := nodup_cons.mp hnodup
    intro F hF
    rcases mem_cons.mp hF with rfl | hF
    · exact hold hrest hnot (hb _ (.head ..))
    · exact ih hnodup (fun G hG => hb G (.tail _ hG)) F hF
  | @cross f outer _ _ b _ hrest ih =>
    obtain ⟨hnot, hnodup⟩ := nodup_cons.mp hnodup
    intro F hF
    rcases mem_cons.mp hF with rfl | hF
    · refine hold hrest hnot ?_
      obtain ⟨hps, hiff⟩ := hb f (.head ..)
      have hnew : b.scopes.size ∉ f.placeholders.toList := fun hmem =>
        Nat.lt_irrefl _ (lt_size_of_parentOf ((hiff _).mp hmem).1)
      refine ⟨?_, fun c => ?_⟩
      · rw [Array.toList_push]
        exact nodup_append.mpr ⟨hps, nodup_cons.mpr ⟨by simp, nodup_nil⟩, fun x hx y hy =>
          fun heq => hnew (mem_singleton.mp hy ▸ heq ▸ hx)⟩
      · rw [Array.toList_push, mem_append, mem_singleton, hiff c, copyIn_openScope]
        simp [or_comm]
    · refine ih hnodup (fun G hG => ?_) F hF
      obtain ⟨hps, hiff⟩ := hb G (.tail _ hG)
      refine ⟨hps, fun c => ?_⟩
      rw [hiff c, copyIn_openScope]
      refine ⟨.inr, fun hc => hc.resolve_left ?_⟩
      rintro ⟨_, heq, _⟩
      exact hnot (heq ▸ mem_map_of_mem hG)

end Opens

theorem Served.opens {frames : List TryFrame} {cleanups : List Cleanup} (hb : b.Tended)
    (h : Opens b.tries b cleanups frames b') :
    b.Served here j (cleanups.map Cleanup.scope) { b' with tries := frames } j := by
  have hlt : ∀ f ∈ b.tries, f.scope < b.scopes.size := fun f hf =>
    hb.trying_lt (mem_map_of_mem hf)
  have htrying : { b' with tries := frames }.trying = b.trying := h.scopes
  have hcopy : ∀ c, b.scopes.size ≤ c → c < b'.scopes.size → ∃ f ∈ b.trying, b'.CopyIn f c := by
    intro c hge hc
    obtain ⟨_, f, hf, hcopy⟩ := h.new hge hc
    exact ⟨f.scope, mem_map_of_mem hf, hcopy⟩
  have hkind : ∀ c, b.scopes.size ≤ c → b'.kindOf c ≠ .catchAll := by
    intro c hge heq
    obtain ⟨_, _, hcopy⟩ := hcopy c hge (lt_size_of_kindOf (by rw [heq]; decide))
    rw [hcopy.2] at heq
    cases heq
  have htended : { b' with tries := frames }.Tended :=
    { descends := h.descends hlt hb.descends
      frame := fun f hf => by
        rw [htrying] at hf
        exact h.ext.kindOf (hb.frame f hf) (by decide)
      nodup := by
        rw [htrying]
        exact hb.nodup
      copies := h.gathers hb.nodup hb.copies
      unhandled := fun f hf g hg => by
        rw [htrying] at hf
        rcases Nat.lt_or_ge g b.scopes.size with hold | hnew
        · exact hb.unhandled f hf g ((h.ext.handlerIn_iff hold).mp hg)
        · exact hkind g hnew hg.2 }
  refine ⟨Tends.moved ⟨h.ext.trans (b'.extends_withTries frames), htended,
    fun f hf _ => htrying ▸ hf,
    fun c p hge hp _ => ?_, fun c hc => h.opened hc, fun c hge hc => .inl (h.new hge hc).1⟩
      hkind, htrying⟩
  obtain ⟨f, hf, hcopy⟩ := hcopy c hge (lt_size_of_parentOf (show b'.parentOf c = some p from hp))
  have heq := hcopy.1.symm.trans hp
  cases heq
  exact .inr ⟨hf, hcopy.2⟩

/-- The copies of an exit are still to be held by an operation. -/
theorem Served.exitEdge (hb : b.Tended) (destination : Option Nat) :
    b.Served here j ((b.exitEdge here destination).1.map Cleanup.scope)
      (b.exitEdge here destination).2 j :=
  .opens hb (opens_openCleanups here destination b.tries b)

end Body
end ClassAssembler
