import ClassAssembler.Proofs.Build.Draft

/-!
# Try statements under construction

A try statement is a draft beside the body until its parts are done.
-/

namespace ClassAssembler

open List Body TryFrame

def CatchClause.parts (clause : CatchClause) : List Nat :=
  clause.scope :: clause.exit.map Cleanup.scope

def TryDraft.parts (d : TryDraft) : List Nat :=
  d.body.toList ++ (d.bodyExit.map Cleanup.scope ++ d.clauses.toList.flatMap CatchClause.parts ++
    d.catchAll.toList)

theorem Body.Grows.withTries {b b' : Body} {here : Nat} (hg : b.Grows b' here)
    {frames : List TryFrame}
    (htrying : ∀ f, f < b.scopes.size → (f ∈ frames.map scope ↔ f ∈ b'.trying)) :
    b.Grows { b' with tries := frames } here where
  toExtends := hg.toExtends.trans (b'.extends_withTries frames)
  owned := hg.owned
  trying f hf := (htrying f hf).trans (hg.trying f hf)
  inside s := (hg.inside s).imp_right (b'.extends_withTries frames).within
  settled := hg.settled
  behind := hg.behind

namespace Build

/-! ## Parts of a statement -/

variable {σ α : Type} {base b b' : Body} {here frame c : Nat} {d d' : TryDraft}

/-- The parts of a try statement in `here`, whose frame was opened since `base`. -/
structure Parts (base : Body) (here frame : Nat) (d : TryDraft) (b : Body) : Prop where
  ready : b.Ready here
  grows : base.Grows b here
  same : d.frame = frame
  id : d.id = b.tryNumber frame
  fresh : Fresh base here .tryFrame frame b
  collecting : d.collecting ↔ frame ∈ b.trying
  part : ∀ c ∈ d.parts, base.scopes.size ≤ c ∧ b.parentOf c = some frame ∧ ∀ s, c ∉ b.owned s
  nodup : d.parts.Nodup
  body : ∀ s, d.body = some s → b.kindOf s = .tryBody
  bodyExit : ∀ cl ∈ d.bodyExit, d.bodyExit = [cl] ∧ b.CopyOf frame cl
  clauses : ∀ clause ∈ d.clauses, b.kindOf clause.scope = .catchClause ∧
    b.operations clause.scope ≠ [] ∧ ∃ cl, clause.exit = [cl] ∧ b.CopyOf frame cl
  catchAll : ∀ s, d.catchAll = some s → b.kindOf s = .catchAll ∧ b.operations s ≠ []
  complete : d.collecting = false → ∀ c ∈ d.parts, (b.kindOf c).isGuarded → b.Complete frame c

namespace Parts

theorem mem_body {s : Nat} (h : d.body = some s) : s ∈ d.parts :=
  mem_append_left _ (by rw [h]; exact mem_singleton_self s)

theorem mem_clause {clause : CatchClause} (h : clause ∈ d.clauses) : clause.scope ∈ d.parts := by
  refine mem_append_right _ (mem_append_left _ (mem_append_right _ ?_))
  exact mem_flatMap.mpr ⟨clause, Array.mem_toList_iff.mpr h, .head ..⟩

theorem mem_catchAll {s : Nat} (h : d.catchAll = some s) : s ∈ d.parts :=
  mem_append_right _ (mem_append_right _ (by rw [h]; exact mem_singleton_self s))

variable (h : Parts base here frame d b)
include h

theorem frame_lt : frame < b.scopes.size :=
  lt_size_of_parentOf h.fresh.parent

theorem part_lt (hc : c ∈ d.parts) : c < b.scopes.size :=
  lt_size_of_parentOf (h.part c hc).2.1

theorem mono (hready : b'.Ready here) (hg : b.Grows b' here) (hparts : ∀ c ∈ d.parts, (b.kindOf
      c).isGuarded → ∀ s op, op ∈ b'.operations s → b'.Within c s → op ∈ b.operations s) :
    Parts base here frame d b' where
  ready := hready
  grows := h.grows.trans hg
  same := h.same
  id := by rw [hg.tryNumber (Nat.le_of_lt h.frame_lt)]; exact h.id
  fresh := stable_fresh _ _ _ (by decide) _ _ _ hg h.fresh
  collecting := h.collecting.trans (hg.trying frame h.frame_lt).symm
  part c hc := by
    obtain ⟨hnew, hparent, hown⟩ := h.part c hc
    exact ⟨hnew, hg.parentOf hparent, fun s hs => hown s (hg.owned s c hs (h.part_lt hc))⟩
  nodup := h.nodup
  body s hs := hg.kindOf (h.body s hs) (by decide)
  bodyExit cl hcl := ⟨(h.bodyExit cl hcl).1, (h.bodyExit cl hcl).2.mono hg.toExtends⟩
  clauses clause hclause := by
    obtain ⟨hk, hops, cl, hcl, hcopy⟩ := h.clauses clause hclause
    exact ⟨hg.kindOf hk (by decide), hg.operations_ne_nil hops, cl, hcl, hcopy.mono hg.toExtends⟩
  catchAll s hs := ⟨hg.kindOf (h.catchAll s hs).1 (by decide),
    hg.operations_ne_nil (h.catchAll s hs).2⟩
  complete hd c hc hguarded := by
    rw [hg.kind c (h.part_lt hc)] at hguarded
    refine (h.complete hd c hc hguarded).mono h.ready.sound hg.toExtends h.frame_lt ?_
    intro s op _ _ hop hnot hw
    exact absurd (hparts c hc hguarded s op hop hw) hnot

theorem isOpen : b.Open frame :=
  h.ready.open_child h.fresh.parent (by rw [h.fresh.isKind]; decide) (h.fresh.unowned here)

section

variable (hc : b.parentOf c = some frame)
include hc

theorem enter (hupdate : b.kindOf c ≠ .loopUpdate)
    (hpart : d.collecting → (b.kindOf c).isGuarded) : b.Open c := by
  have hown : c ∉ b.owned frame := by
    rw [owned, h.ready.sound.frames (by rw [h.fresh.isKind]; rfl)]
    exact not_mem_nil
  exact h.isOpen.enter h.ready.collects hc hupdate hown fun hf => hpart (h.collecting.mpr hf)

theorem readyPlain {kind : ScopeKind} (hkind : b.kindOf c = kind)
    (hk : kind.isPlain) (hpart : d.collecting → kind.isGuarded) : b.Ready c := by
  subst hkind
  exact h.ready.into hk fun hupdate => h.enter hc hupdate hpart

theorem leave (hnot : (b.kindOf c).isGuarded → c ∉ d.parts)
    (hready : b'.Ready c) (hg : b.Grows b' c) : Parts base here frame d b' := by
  have hframe := hg.parentOf h.fresh.parent
  have hchild := hg.parentOf hc
  have hd := hready.sound.descends
  have hopen := (hready.isOpen.leave hd hchild).leave hd hframe
  refine h.mono (hready.back hopen h.ready hg.toExtends)
    (hg.outer (.step hchild (.of_parent hframe)) hd hready.isOpen)
      fun x hx hguarded s op hop hw => ?_
  rcases hg.inside s with heq | hin
  · rwa [heq] at hop
  · -- Two parts of one statement do not overlap.
    have heq := Body.Within.child_unique hd hw (hg.parentOf (h.part x hx).2.1) hin hchild
    subst heq
    exact absurd hx (hnot hguarded)

end

/-- New parts among those that a draft has. -/
theorem insert (d' : TryDraft) (l1 new l2 : List Nat) (hsplit : d'.parts = l1 ++ (new ++ l2))
    (hsub : (l1 ++ l2).Sublist d.parts) (hnodup : new.Nodup)
    (hnew : ∀ c ∈ new, ∃ kind, Fresh base frame kind c b ∧ c ∉ d.parts) :
    (∀ c ∈ d'.parts, base.scopes.size ≤ c ∧ b.parentOf c = some frame ∧ ∀ s, c ∉ b.owned s) ∧
      d'.parts.Nodup := by
  have hperm : d'.parts.Perm (new ++ (l1 ++ l2)) := by
    rw [hsplit]
    exact perm_append_comm_assoc l1 new l2
  refine ⟨fun c hc => ?_, hperm.nodup_iff.mpr (nodup_append.mpr ⟨hnodup, h.nodup.sublist hsub, ?_⟩)⟩
  · rcases mem_append.mp (hperm.mem_iff.mp hc) with hc | hc
    · obtain ⟨_, hfresh, _⟩ := hnew c hc
      exact ⟨hfresh.new, hfresh.parent, hfresh.unowned⟩
    · exact h.part c (hsub.subset hc)
  · rintro x hx y hy rfl
    obtain ⟨_, _, hnot⟩ := hnew x hx
    exact hnot (hsub.subset hy)

theorem setBody (hc : Fresh base frame .tryBody c b) (hnot : c ∉ d.parts)
    (hcollecting : d.collecting) : Parts base here frame { d with body := some c } b := by
  obtain ⟨hpart, hnodup⟩ := h.insert { d with body := some c } [] [c] _ rfl
    (sublist_append_right _ _) (by simp) fun x hx => by
      cases mem_singleton.mp hx
      exact ⟨_, hc, hnot⟩
  exact { h with
    part := hpart, nodup := hnodup
    body := fun s hs => by cases hs; exact hc.isKind
    complete := fun hfalse => by rw [hcollecting] at hfalse; cases hfalse }

theorem setExit {cl : Cleanup} (hcopy : b.CopyOf frame cl)
    (hc : Fresh base frame .finallyCopy cl.scope b) (hnot : cl.scope ∉ d.parts)
    (hcollecting : d.collecting) (stage : TryStage) :
    Parts base here frame { d with bodyExit := [cl], stage } b := by
  obtain ⟨hpart, hnodup⟩ := h.insert { d with bodyExit := [cl], stage } d.body.toList [cl.scope]
    (d.clauses.toList.flatMap CatchClause.parts ++
      d.catchAll.toList) rfl
    (.append (.refl _) (by rw [List.append_assoc]; exact sublist_append_right _ _))
    (by simp) fun x hx => by
      cases mem_singleton.mp hx
      exact ⟨_, hc, hnot⟩
  exact { h with
    part := hpart, nodup := hnodup
    bodyExit := fun x hx => by cases mem_singleton.mp hx; exact ⟨rfl, hcopy⟩
    complete := fun hfalse => by rw [hcollecting] at hfalse; cases hfalse }

theorem addClause {clause : CatchClause} {cl : Cleanup} (hexit : clause.exit = [cl])
    (hcopy : b.CopyOf frame cl) (hclause : Fresh base frame .catchClause clause.scope b)
    (hops : b.operations clause.scope ≠ []) (hc : Fresh base frame .finallyCopy cl.scope b)
    (hne : cl.scope ≠ clause.scope) (hnot : clause.scope ∉ d.parts) (hnot' : cl.scope ∉ d.parts)
    (hcollecting : d.collecting) (stage : TryStage) :
    Parts base here frame { d with clauses := d.clauses.push clause, stage } b := by
  have hsplit : { d with clauses := d.clauses.push clause, stage : TryDraft }.parts =
      (d.body.toList ++ (d.bodyExit.map Cleanup.scope ++ d.clauses.toList.flatMap
        CatchClause.parts)) ++
        ([clause.scope, cl.scope] ++ d.catchAll.toList) := by
    simp [TryDraft.parts, CatchClause.parts, hexit]
  obtain ⟨hpart, hnodup⟩ := h.insert _ _ _ _ hsplit
    (by rw [List.append_assoc]; exact .refl _) (by simpa using hne.symm) fun x hx => by
      rcases mem_cons.mp hx with rfl | hx
      · exact ⟨_, hclause, hnot⟩
      · cases mem_singleton.mp hx
        exact ⟨_, hc, hnot'⟩
  exact { h with
    part := hpart, nodup := hnodup
    clauses := fun x hx => by
      rcases Array.mem_push.mp hx with hx | rfl
      · exact h.clauses x hx
      · exact ⟨hclause.isKind, hops, cl, hexit, hcopy⟩
    complete := fun hfalse => by rw [hcollecting] at hfalse; cases hfalse }

theorem setCatchAll (hc : Fresh base frame .catchAll c b) (hops : b.operations c ≠ [])
    (hnot : c ∉ d.parts) (stage : TryStage) :
    Parts base here frame { d with catchAll := some c, stage } b := by
  have hsplit : { d with catchAll := some c, stage : TryDraft }.parts =
      (d.body.toList ++ (d.bodyExit.map Cleanup.scope ++ d.clauses.toList.flatMap
        CatchClause.parts)) ++ ([c] ++ []) := by
    simp [TryDraft.parts]
  have hsub : ((d.body.toList ++ (d.bodyExit.map Cleanup.scope ++ d.clauses.toList.flatMap
      CatchClause.parts)) ++ []).Sublist d.parts := by
    rw [List.append_nil]
    exact .append (.refl _) (sublist_append_left _ _)
  obtain ⟨hpart, hnodup⟩ := h.insert _ _ _ _ hsplit hsub (by simp) fun x hx => by
    cases mem_singleton.mp hx
    exact ⟨_, hc, hnot⟩
  exact { h with
    part := hpart, nodup := hnodup
    catchAll := fun s hs => by cases hs; exact ⟨hc.isKind, hops⟩
    complete := fun hfalse x hx hguarded => by
      rw [hsplit] at hx
      rcases mem_append.mp hx with hx | hx
      · exact h.complete hfalse x (hsub.subset (mem_append_left _ hx)) hguarded
      · cases mem_singleton.mp hx
        rw [hc.isKind] at hguarded
        cases hguarded }

theorem completeAll (hc : c ∈ d.parts) (hguarded : (b.kindOf c).isGuarded) :
    b.Complete frame c := by
  cases hcollecting : d.collecting with
  | false => exact h.complete hcollecting c hc hguarded
  | true =>
    have hframe := h.collecting.mp hcollecting
    exact h.ready.collects.complete h.fresh.isKind (h.part c hc).2.1 hguarded (.inl hframe)

theorem pop {outer : List Nat} (htrying : b.trying = frame :: outer) :
    Parts base here frame { d with collecting := false } { b with tries := b.tries.tail } := by
  have he := b.extends_withTries b.tries.tail
  have htail : { b with tries := b.tries.tail }.trying = outer := by
    show b.tries.tail.map scope = outer
    rw [map_tail, show b.tries.map scope = frame :: outer from htrying, tail_cons]
  have hordered : b.trying.Pairwise fun x y => y < x := pairwise_map.mpr h.ready.collects.ordered
  rw [htrying] at hordered
  have hnot : frame ∉ outer := fun hmem =>
    Nat.lt_irrefl _ ((pairwise_cons.mp hordered).1 frame hmem)
  refine { h with
    ready := h.ready.withTries
      (fun f hf => h.ready.collects.frameFits (mem_of_mem_tail hf))
      ((tail_sublist _).map _)
    grows := h.grows.withTries fun f hf => ?_
    fresh := ⟨h.fresh.new, h.fresh.parent, h.fresh.isKind, h.fresh.unowned⟩
    collecting := ⟨(fun hc => by cases hc), fun hc => absurd (htail ▸ hc) hnot⟩
    part := h.part
    nodup := h.nodup
    bodyExit := fun cl hcl => ⟨(h.bodyExit cl hcl).1, (h.bodyExit cl hcl).2.mono he⟩
    clauses := fun clause hclause => ?_
    complete := fun _ c hc hguarded => ?_ }
  · have hne : f ≠ frame := Nat.ne_of_lt (Nat.lt_of_lt_of_le hf h.fresh.new)
    rw [htrying, show b.tries.tail.map scope = outer from htail]
    simp [hne]
  · obtain ⟨hk, hops, cl, hcl, hcopy⟩ := h.clauses clause hclause
    exact ⟨hk, hops, cl, hcl, hcopy.mono he⟩
  · exact (h.completeAll hc hguarded).mono h.ready.sound he h.frame_lt
      fun s op _ _ hop hold => absurd hop hold

end Parts

/-! ## Placeholders and handlers -/

def Stuck (frame : Nat) (b : Body) : Prop := ∃ f ∈ b.trying, f < b.scopes.size ∧ frame < f

theorem stable_stuck (frame : Nat) : Stable (Stuck frame) := by
  rintro b b' _ hg ⟨f, hf, hsize, hlt⟩
  exact ⟨f, (hg.trying f hsize).mpr hf, Nat.lt_of_lt_of_le hsize hg.size, hlt⟩

def Opened (base : Body) (here frame : Nat) (kind : ScopeKind) (c : Nat)
    (S : TryDraft → Body → Prop) (d : TryDraft) (b : Body) : Prop :=
  (Parts base here frame d b ∧ S d b) ∧ Fresh base frame kind c b ∧ c ∉ d.parts ∧
    b.operations c = [] ∧ ∀ x, (∀ d b, S d b → x < b.scopes.size) → c ≠ x

section steps

variable {S : TryDraft → Body → Prop} (hS : ∀ d, Stable (S d))
include hS

/-- A part that is opened is no part of the draft yet. -/
theorem triple_openPart {kind : ScopeKind} (hk : kind ≠ .tryFrame) {f : Nat}
    {E : TryDraft → Body → Prop} :
    Triple (fun d b => (Parts base here frame d b ∧ S d b) ∧ f = d.frame)
      (openScope f kind : Try σ Nat) (fun c => Opened base here frame kind c S) E := by
  refine .change ?_
  rintro d b ⟨⟨h, hs⟩, rfl⟩
  rw [h.same]
  have hg := (Body.Grows.refl b here).openScope (some frame) kind
  have hops := operations_openScope b (some frame) kind
  refine ⟨⟨h.mono (h.ready.openScope h.frame_lt hk) hg ?_, hS d _ _ _ hg hs⟩,
    ⟨h.grows.size, b.parentOf_new _ _, b.kindOf_new _ _, fun s hown => ?_⟩,
    fun hmem => Nat.lt_irrefl _ (h.part_lt hmem), ?_, ?_⟩
  · intro c _ _ s op hop _
    rwa [hops] at hop
  · rw [owned_openScope] at hown
    exact h.ready.sound.unowned_new s hown
  · rw [hops]
    exact operations_eq_nil .refl
  · rintro x hx rfl
    exact Nat.lt_irrefl _ (hx d b hs)

theorem triple_ownFrame (base : Body) (here frame : Nat) (call : TryCall)
    {f : TryFrame → α × TryFrame} (hsame : ∀ fr, (f fr).2.id = fr.id ∧ (f fr).2.scope = fr.scope)
    (hcopies : ∀ d b fr, S d b → b.FrameFits fr → fr.scope = frame →
      ∀ p ∈ (f fr).2.placeholders, b.parentOf p = some frame ∧ b.kindOf p = .finallyCopy) :
    Triple (fun d b => Parts base here frame d b ∧ S d b) (ownFrame call f : Try σ α)
      (fun a d b => (Parts base here frame d b ∧ S d b) ∧ (∃ outer, b.trying = frame :: outer) ∧
        ∃ fr, b.FrameFits fr ∧ fr.scope = frame ∧ a = (f fr).1)
      (fun d b => (Parts base here frame d b ∧ S d b) ∧ (d.collecting → Stuck frame b)) := by
  refine (Triple.draft _).bind fun id => (Triple.draft _).bind fun stage => ?_
  refine Triple.bind (J := fun result d b => (Parts base here frame d b ∧ S d b) ∧
    (∀ a, result = some a → (∃ outer, b.trying = frame :: outer) ∧
        ∃ fr, b.FrameFits fr ∧ fr.scope = frame ∧ a = (f fr).1) ∧
    (result = none → d.collecting → Stuck frame b)) (.change ?_) fun result => ?_
  · rintro d b ⟨⟨⟨h, hs⟩, rfl⟩, _⟩
    have hframe := h.fresh.isKind
    cases htries : b.tries with
    | nil =>
      refine ⟨⟨h, hs⟩, fun _ he => (by cases he), fun _ hc => ?_⟩
      have hmem := h.collecting.mp hc
      rw [trying, htries] at hmem
      cases hmem
    | cons fr outer =>
      have hfr : b.FrameFits fr := h.ready.collects.frameFits (by rw [htries]; exact .head ..)
      dsimp only
      by_cases hid : fr.id = d.id
      · rw [if_pos hid]
        have hscope : fr.scope = frame :=
          tryNumber_inj hfr.frame hframe (by rw [← hfr.id, hid, h.id])
        have hscopes : ((f fr).2 :: outer).map scope = b.trying := by
          rw [trying, htries, map_cons, map_cons, (hsame fr).2]
        have hready : { b with tries := (f fr).2 :: outer }.Ready here := by
          refine h.ready.withTries (fun g hg => ?_) (hscopes ▸ .refl _)
          rcases mem_cons.mp hg with rfl | hg
          · refine ⟨?_, ?_, ?_⟩
            · rw [(hsame fr).2]
              exact hfr.frame
            · rw [(hsame fr).1, (hsame fr).2]
              exact hfr.id
            · rw [(hsame fr).2, hscope]
              exact hcopies d b fr hs hfr hscope
          · exact h.ready.collects.frameFits (by rw [htries]; exact .tail _ hg)
        have hg : b.Grows { b with tries := (f fr).2 :: outer } here :=
          .of_operations (b.extends_withTries _) (fun _ => rfl) hscopes
        refine ⟨⟨h.mono hready hg fun _ _ _ _ _ hop _ => hop, hS d _ _ _ hg hs⟩, fun a ha => ?_,
          fun he => by cases he⟩
        cases ha
        refine ⟨⟨outer.map scope, ?_⟩, fr, hfr.mono hg.toExtends, hscope, rfl⟩
        show (f fr).2.scope :: _ = _
        rw [(hsame fr).2, hscope]
      · rw [if_neg hid]
        refine ⟨⟨h, hs⟩, fun _ he => (by cases he), fun _ hc => ?_⟩
        have hmem := h.collecting.mp hc
        have hordered := h.ready.collects.ordered
        rw [trying, htries] at hmem
        rw [htries] at hordered
        have htop : fr.scope ∈ b.trying := by
          rw [trying, htries]
          exact .head ..
        refine ⟨fr.scope, htop, h.ready.collects.trying_lt htop, ?_⟩
        rcases mem_cons.mp hmem with heq | hmem
        · exact absurd (by rw [hfr.id, ← heq, h.id]) hid
        · obtain ⟨g, hg, rfl⟩ := mem_map.mp hmem
          exact (pairwise_cons.mp hordered).1 g hg
  · cases result with
    | none => exact .fail _ fun _ _ h => ⟨h.1, h.2.2 rfl⟩
    | some a => exact fun _ h => ⟨h.1, h.2.1 a rfl⟩

/-- A placeholder is a new copy, which nothing holds. -/
theorem triple_placeholder :
    Triple (fun d b => Parts base here frame d b ∧ S d b) (placeholder : Try σ Cleanup)
      (fun cl d b => (Parts base here frame d b ∧ S d b) ∧ d.collecting ∧ b.CopyOf frame cl ∧
        Fresh base frame .finallyCopy cl.scope b ∧ cl.scope ∉ d.parts ∧
        ∀ x, (∀ d b, S d b → x < b.scopes.size) → cl.scope ≠ x)
      (fun d b => (Parts base here frame d b ∧ S d b) ∧ (d.collecting → Stuck frame b)) := by
  refine (Triple.draft _).bind fun f => (triple_openPart hS (by decide)).bind fun c => ?_
  have hS' : ∀ d, Stable fun b => S d b ∧ Fresh base frame .finallyCopy c b ∧ c ∉ d.parts ∧
      ∀ x, (∀ d b, S d b → x < b.scopes.size) → c ≠ x := fun d b b' s hg h =>
    ⟨hS d b b' s hg h.1, stable_fresh _ _ _ (by decide) b b' s hg h.2.1, h.2.2⟩
  have hown := triple_ownFrame (σ := σ) hS' base here frame .exit
    (f := fun frame => ((), { frame with placeholders := frame.placeholders.push c }))
    (fun _ => ⟨rfl, rfl⟩) fun d b fr hs hfits hscope p hp => by
      rcases Array.mem_push.mp hp with hp | rfl
      · exact hscope ▸ hfits.copies p hp
      · exact ⟨hs.2.1.parent, hs.2.1.isKind⟩
  refine (((hown.weaken ?_ fun _ _ _ h => h).weaken_error ?_).bind fun _ =>
    (Triple.draft _).bind fun id => ?_)
  · rintro d b ⟨⟨h, hs⟩, hfresh, hnot, _, hx⟩
    exact ⟨h, hs, hfresh, hnot, hx⟩
  · rintro d b ⟨⟨h, hs, _⟩, hstuck⟩
    exact ⟨⟨h, hs⟩, hstuck⟩
  · rintro w ⟨⟨⟨h, hs, hfresh, hnot, hx⟩, ⟨outer, htrying⟩, _⟩, rfl⟩
    refine ⟨⟨h, hs⟩, h.collecting.mpr (by rw [htrying]; exact .head ..), ?_, hfresh,
      hnot, hx⟩
    exact ⟨h.fresh.isKind, hfresh.parent, hfresh.isKind, h.id⟩

end steps

def InPart (base : Body) (here frame : Nat) (kind : ScopeKind) (c : Nat)
    (S : TryDraft → Body → Prop) (d : TryDraft) (b : Body) : Prop :=
  (Parts base here frame d b ∧ S d b) ∧ Fresh base frame kind c b ∧ c ∉ d.parts ∧ b.Ready c

/-- A handler begins with the exception that it has caught. -/
theorem startHandler (hopen : b.Open c) (hs : b.Sound) (hcoll : b.Collects)
    (hk : (b.kindOf c).isHandler) (hops : b.operations c = []) (name : ClassName) :
    ((b.addValue ⟨.object name, some c, .result⟩).2.push c
        (.simple .caught [] (some b.values.size))).Ready c ∧
      b.Grows ((b.addValue ⟨.object name, some c, .result⟩).2.push c
        (.simple .caught [] (some b.values.size))) c := by
  have hnew : (b.addValue ⟨.object name, some c, .result⟩).2.values[b.values.size]? =
      some ⟨.object name, some c, .result⟩ := by rw [getElem?_addValue, if_pos rfl]
  have hframe : ¬ (b.kindOf c).isFrame := by
    cases hkind : b.kindOf c <;> simp_all [ScopeKind.isFrame, ScopeKind.isHandler]
  refine hopen.pushValue hs hcoll ⟨(fun h => by cases h), fun _ _ => .inr rfl⟩ _
    { lt := hopen.lt
      notFrame := hframe
      fits := ⟨rfl, _, rfl, _, hnew, rfl⟩
      operands := fun o ho => by cases ho
      needs := fun v hv => by cases hv
      owned_nodup := nodup_nil
      owned_gt := fun x hx => by cases hx
      unowned := fun x hx => by cases hx
      defines := rfl
      pending_nodup := by simp
      pending_owner := fun v hv => ?_
      pending_new := fun v hv hdef => ?_
      result := fun heq => ?_
      caught := ⟨fun _ => ⟨hk, hops⟩, fun _ => rfl⟩
      updates := fun _ => rfl } rfl rfl
  · cases mem_singleton.mp hv
    exact ⟨_, hnew, rfl⟩
  · rw [defines, show (b.addValue _).2.operations c = [] from hops] at hdef
    cases hdef
  · cases heq
    exact ⟨_, hnew, rfl⟩

variable {E : TryDraft → Body → Prop} {block : Block σ}

theorem triple_caught {S : TryDraft → Body → Prop} (hS : ∀ d, Stable (S d)) {kind : ScopeKind}
    (hk : kind.isHandler) (hpart : ∀ d b, S d b → d.collecting → kind.isGuarded)
    (name : ClassName) :
    Triple (Opened base here frame kind c S) (yield c .caught [] (.object name) : Try σ Value)
      (fun _ => InPart base here frame kind c S) E := by
  rintro ⟨b, d, s⟩ ⟨⟨h, hs⟩, hc, hnot, hops, _⟩
  have hne : kind ≠ .loopUpdate ∧ kind ≠ .root := by
    cases kind <;> simp_all [ScopeKind.isHandler]
  have hopen : b.Open c := by
    refine h.enter hc.parent (by rw [hc.isKind]; exact hne.1) fun hd => ?_
    rw [hc.isKind]
    exact hpart d b hs hd
  obtain ⟨hready, hg⟩ := startHandler hopen h.ready.sound h.ready.collects
    (by rw [hc.isKind]; exact hk) hops name
  exact ⟨⟨h.leave hc.parent (fun _ => hnot) hready hg, hS d _ _ _ hg hs⟩,
    stable_fresh _ _ _ hne.2 _ _ _ hg hc, hnot, hready⟩

/-- Whatever is built in a part, the draft keeps its other parts. -/
theorem triple_part {S : TryDraft → Body → Prop} (hS : ∀ d, Stable (S d)) {kind : ScopeKind}
    (hroot : kind ≠ .root) {m : Try σ α} (hm : ∀ base, Keeps base c (fun _ => True) m)
    (hd : SameDraft m) (hE : ∀ d b, Parts base here frame d b → S d b → E d b) :
    Triple (InPart base here frame kind c S) m (fun _ => InPart base here frame kind c S) E := by
  refine .keeps hm hd (fun _ _ h => h.2.2.2) ?_ fun d b h => hE d b h.1.1 h.1.2
  rintro d b b' ⟨⟨h, hs⟩, hc, hnot, _⟩ hready hg
  exact ⟨⟨h.leave hc.parent (fun _ => hnot) hready hg, hS d _ _ _ hg hs⟩,
    stable_fresh _ _ _ hroot _ _ _ hg hc, hnot, hready⟩

/-! ## The guarded body -/

structure InOrder (frame : Nat) (d : TryDraft) (b : Body) : Prop where
  stuck : d.body ≠ none → d.bodyExit = [] → Stuck frame b
  settled : d.stage ≠ .fresh → d.bodyExit ≠ []
  early : d.collecting = false → d.stage ≠ .fresh

theorem stable_inOrder (frame : Nat) (d : TryDraft) : Stable (InOrder frame d) := by
  intro b b' s hg h
  exact ⟨fun hb he => stable_stuck frame b b' s hg (h.stuck hb he), h.settled, h.early⟩

abbrev Trying (base : Body) (here frame : Nat) (d : TryDraft) (b : Body) : Prop :=
  Parts base here frame d b ∧ InOrder frame d b

abbrev KeepsTry (m : Try σ α) : Prop :=
  ∀ base here frame, Triple (Trying base here frame) m (fun _ => Trying base here frame)
    (Trying base here frame)

theorem triple_inStage {I J E : TryDraft → Body → Prop} {call : TryCall} {allowed : List TryStage}
    (hE : ∀ d b, I d b → E d b) (hJ : ∀ d b, I d b → d.stage ∈ allowed → J d b) :
    Triple I (inStage call allowed : Try σ Unit) (fun _ => J) E := by
  refine (Triple.draft _).bind fun stage => ?_
  split
  · exact .fail _ fun d b h => hE d b h.1
  · next hmem =>
    rintro w ⟨hI, rfl⟩
    exact hJ _ _ hI (Decidable.not_not.mp hmem)

abbrev Unbegun (frame : Nat) (d : TryDraft) (b : Body) : Prop :=
    InOrder frame d b ∧ d.stage = .fresh

theorem stable_unbegun (frame : Nat) (d : TryDraft) : Stable (Unbegun frame d) :=
  fun b b' s hg h => ⟨stable_inOrder frame d b b' s hg h.1, h.2⟩

def openBody : Try σ Nat := do
  inStage .body [.fresh]
  openScope (← draft TryDraft.frame) .tryBody

theorem triple_openBody :
    Triple (Trying base here frame) (openBody : Try σ Nat)
      (fun c => InPart base here frame .tryBody c (Unbegun frame)) (Trying base here frame) := by
  refine Triple.bind (triple_inStage (J := fun d b => Parts base here frame d b ∧ Unbegun frame d b)
    (fun _ _ h => h) fun d b h hstage => ⟨h.1, h.2, mem_singleton.mp hstage⟩) fun _ => ?_
  refine (Triple.draft _).bind fun f =>
    (triple_openPart (stable_unbegun frame) (by decide)).weaken (fun _ _ h => h) ?_
  rintro c d b ⟨⟨h, hs⟩, hc, hnot, _⟩
  exact ⟨⟨h, hs⟩, hc, hnot, h.readyPlain hc.parent hc.isKind rfl fun _ => rfl⟩

theorem tryBody_eq (block : Block σ) : tryBody block = (do
    let scope ← openBody
    outside (block scope)
    redraft fun draft => { draft with body := some scope }
    let exit ← placeholder
    redraft fun draft => { draft with bodyExit := [exit], stage := .body }) := by
  simp only [tryBody, openBody, bind_assoc]

theorem keeps_tryBody
    (hblock : ∀ base c, Keeps base c (fun _ => True) (block c)) : KeepsTry (tryBody block) := by
  intro base here frame
  rw [tryBody_eq]
  refine triple_openBody.bind fun c => ?_
  refine (triple_part (stable_unbegun frame) (by decide) (fun base => (hblock base c).outside)
    (.outside _) fun _ _ h hs => ⟨h, hs.1⟩).bind fun _ => ?_
  -- A draft that is still fresh has not given up its frame.
  have hS' : ∀ d : TryDraft, Stable fun b => d.body = some c ∧ d.stage = .fresh ∧ d.collecting ∧
      c < b.scopes.size := fun d b b' s hg h =>
    ⟨h.1, h.2.1, h.2.2.1, Nat.lt_of_lt_of_le h.2.2.2 hg.size⟩
  refine Triple.bind (J := fun _ d b => Parts base here frame d b ∧ d.body = some c ∧
    d.stage = .fresh ∧ d.collecting ∧ c < b.scopes.size) (.redraft ?_) fun _ => ?_
  · rintro d b ⟨⟨h, ho, hstage⟩, hc, hnot, _⟩
    have hcollecting : d.collecting := by
      cases hd : d.collecting with
      | true => rfl
      | false => exact absurd hstage (ho.early hd)
    exact ⟨h.setBody hc hnot hcollecting, rfl, hstage, hcollecting, lt_size_of_parentOf hc.parent⟩
  refine ((triple_placeholder hS').weaken_error ?_).bind fun exit => .redraft ?_
  · rintro d b ⟨⟨h, hbody, hstage, hcollecting, _⟩, hstuck⟩
    refine ⟨h, fun _ _ => hstuck hcollecting, fun hne => absurd hstage hne, fun hd => ?_⟩
    rw [hcollecting] at hd
    cases hd
  · rintro d b ⟨⟨h, _, _, hcollecting, _⟩, _, hcopy, hc, hnot, _⟩
    refine ⟨h.setExit hcopy hc hnot hcollecting .body, ?_, ?_, ?_⟩
    · intro _ he
      cases he
    · intro _ he
      cases he
    · intro _ he
      cases he

/-! ## Clauses -/

def Begun (d : TryDraft) : Prop := d.stage ≠ .fresh ∧ d.bodyExit ≠ []

theorem Begun.inOrder (h : Begun d) : InOrder frame d b :=
  ⟨fun _ he => absurd he h.2, fun _ => h.2, fun _ => h.1⟩

theorem triple_begun {call : TryCall}
    (hE : ∀ d b, Trying base here frame d b → E d b) :
    Triple (Trying base here frame) (inStage call [.body, .catches] : Try σ Unit)
      (fun _ d b => Parts base here frame d b ∧ Begun d) E := by
  refine triple_inStage hE fun d b ⟨h, ho⟩ hstage => ?_
  have hne : d.stage ≠ .fresh := by
    intro heq
    rw [heq] at hstage
    exact absurd hstage (by decide)
  exact ⟨h, hne, ho.settled hne⟩

theorem stable_begun (d : TryDraft) : Stable fun _ => Begun d := fun _ _ _ _ h => h

def openClause (caught : ClassName) : Try σ (Nat × Value) := do
  inStage .catchClause [.body, .catches]
  if ← draft (·.clauses.any (·.caught == caught)) then
    fail (.duplicateCatch caught)
  let scope ← openScope (← draft TryDraft.frame) .catchClause
  let exception ← yield scope .caught [] (.object caught)
  return (scope, exception)

theorem triple_openClause (caught : ClassName) :
    Triple (Trying base here frame) (openClause caught : Try σ (Nat × Value))
      (fun clause => InPart base here frame .catchClause clause.1 fun d _ => Begun d)
      (Trying base here frame) := by
  unfold openClause
  refine (triple_begun fun _ _ h => h).bind fun _ => (Triple.draft _).bind fun known => ?_
  refine Triple.pre (I := fun d b => Parts base here frame d b ∧ Begun d) (fun _ _ h => h.1) ?_
  split
  · exact fun _ h => ⟨h.1, h.2.inOrder⟩
  refine (Triple.draft _).bind fun f => (triple_openPart stable_begun (by decide)).bind fun c => ?_
  exact (triple_caught stable_begun rfl (fun _ _ _ _ => rfl) caught).bind fun v _ h => h

theorem catchClause_eq (caught : ClassName) (block : Nat → Value → Build σ Unit) :
    catchClause caught block = (do
      let (scope, exception) ← openClause caught
      outside (block scope exception)
      let exit ← placeholder
      redraft fun draft =>
        { draft with clauses := draft.clauses.push ⟨caught,
          scope, [exit]⟩, stage := .catches }) := by
  unfold catchClause openClause
  simp only [bind_assoc]
  refine bind_congr fun _ => bind_congr fun known => ?_
  split
  · rfl
  · simp only [bind_assoc, pure_bind]

theorem keeps_catchClause (caught : ClassName) {block : Nat → Value → Build σ Unit}
    (hblock : ∀ base c v, Keeps base c (fun _ => True) (block c v)) :
    KeepsTry (catchClause caught block) := by
  intro base here frame
  rw [catchClause_eq]
  refine (triple_openClause caught).bind fun ⟨c, v⟩ => ?_
  refine (triple_part stable_begun (by decide) (fun base => (hblock base c v).outside) (.outside _)
    fun _ _ h hs => ⟨h, hs.inOrder⟩).bind fun _ => ?_
  have hS' : ∀ d : TryDraft, Stable fun b => Begun d ∧ Fresh base frame .catchClause c b ∧
      b.operations c ≠ [] ∧ c ∉ d.parts ∧ c < b.scopes.size := fun d b b' s hg h =>
    ⟨h.1, stable_fresh _ _ _ (by decide) b b' s hg h.2.1, hg.operations_ne_nil h.2.2.1, h.2.2.2.1,
      Nat.lt_of_lt_of_le h.2.2.2.2 hg.size⟩
  refine Triple.pre (I := fun d b => Parts base here frame d b ∧ Begun d ∧
    Fresh base frame .catchClause c b ∧ b.operations c ≠ [] ∧ c ∉ d.parts ∧ c < b.scopes.size) ?_ ?_
  · rintro d b ⟨⟨h, hs⟩, hc, hnot, hready⟩
    exact ⟨h, hs, hc, hready.started (by rw [hc.isKind]; rfl), hnot,
      lt_size_of_parentOf hc.parent⟩
  refine ((triple_placeholder hS').weaken_error ?_).bind fun exit => .redraft ?_
  · rintro d b ⟨⟨h, hs, _⟩, _⟩
    exact ⟨h, hs.inOrder⟩
  · rintro d b ⟨⟨h, hs, hclause, hops, hnot, _⟩, hcollecting, hcopy, hc, hnot', hne⟩
    refine ⟨h.addClause rfl hcopy hclause hops hc ?_ hnot hnot' hcollecting .catches,
      Begun.inOrder ⟨(fun he => by cases he), hs.2⟩⟩
    exact hne c fun _ _ h => h.2.2.2.2

theorem sameDraft_throwValue (c : Nat) (v : Value) : SameDraft (throwValue c v : Try σ Unit) := by
  unfold throwValue
  refine (SameDraft.of_finds (Finds.typeOf v)).bind fun found => ?_
  split
  · exact .fail _
  · exact (SameDraft.of_finds (Finds.operandAsIs v)).bind fun o => fun _ => rfl

/-! ## Finally blocks -/

/-- The finally block begins: the statement gives up its frame, and the placeholders in it
are to be filled. -/
def beginFinally : Try σ (List Nat) := do
  inStage .finallyBlock [.body, .catches]
  let placeholders ← ownFrame .finallyBlock fun frame =>
    (frame.placeholders.toList, { frame with placeholders := #[] })
  alter fun body => { body with tries := body.tries.tail }
  redraft fun draft => { draft with collecting := false }
  return placeholders

def catchRest : Try σ (Nat × Value) := do
  let handler ← openScope (← draft TryDraft.frame) .catchAll
  let exception ← yield handler .caught [] (.object .throwable)
  return (handler, exception)

def rethrow (block : Block σ) (handler : Nat) (exception : Value) : Try σ Unit := do
  let copy ← openScope handler .finallyCopy
  outside (block copy)
  push handler (.block copy)
  throwValue handler exception

theorem finallyBlock_eq (block : Block σ) : finallyBlock block = (do
    let placeholders ← beginFinally
    placeholders.forM fun scope => outside (block scope)
    let (handler, exception) ← catchRest
    rethrow block handler exception
    redraft fun draft => { draft with catchAll := some handler, stage := .finished }) := by
  simp only [finallyBlock, beginFinally, catchRest, rethrow, bind_assoc, pure_bind]

abbrev Popped (d : TryDraft) (_ : Body) : Prop := Begun d ∧ d.collecting = false

theorem stable_popped (d : TryDraft) : Stable (Popped d) := fun _ _ _ _ h => h

abbrev Filling (base : Body) (here frame : Nat) (placeholders : List Nat) (d : TryDraft)
    (b : Body) : Prop :=
  (Parts base here frame d b ∧ Popped d b) ∧
    ∀ p ∈ placeholders, b.parentOf p = some frame ∧ b.kindOf p = .finallyCopy

theorem Filling.ready {placeholders : List Nat} (h : Filling base here frame placeholders d b)
    (hc : c ∈ placeholders) : b.Ready c := by
  obtain ⟨⟨h, _, hd⟩, hcopies⟩ := h
  obtain ⟨hparent, hkind⟩ := hcopies c hc
  refine h.readyPlain hparent hkind rfl fun hc => ?_
  rw [hd] at hc
  cases hc

theorem triple_beginFinally :
    Triple (Trying base here frame) (beginFinally : Try σ (List Nat)) (Filling base here frame)
      (Trying base here frame) := by
  unfold beginFinally
  refine (triple_begun fun _ _ h => h).bind fun _ => ?_
  refine Triple.bind ((triple_ownFrame stable_begun base here frame .finallyBlock
    (fun _ => ⟨rfl, rfl⟩)
    ?_).weaken_error fun _ _ h => ⟨h.1.1, h.1.2.inOrder⟩) fun placeholders => ?_
  · intro d b fr _ _ _ p hp
    exact absurd hp (Array.not_mem_empty p)
  -- The frame is taken off the stack, and the draft says so.
  refine Triple.bind (J := fun _ d b => ∃ b0 outer, Parts base here frame d b0 ∧ Begun d ∧
    b0.trying = frame :: outer ∧ b = { b0 with tries := b0.tries.tail } ∧
    ∀ p ∈ placeholders, b0.parentOf p = some frame ∧ b0.kindOf p = .finallyCopy)
    (.alter ?_) fun _ => Triple.bind (.redraft (J := Filling base here frame placeholders) ?_)
      fun _ _ h => h
  · rintro d b ⟨⟨h, hs⟩, ⟨outer, htrying⟩, fr, hfits, hscope, rfl⟩
    refine ⟨b, outer, h, hs, htrying, rfl, fun p hp => ?_⟩
    exact hscope ▸ hfits.copies p (Array.mem_toList_iff.mp hp)
  · rintro d _ ⟨b0, outer, h, hs, htrying, rfl, hcopies⟩
    exact ⟨⟨h.pop htrying, hs, rfl⟩, hcopies⟩

/-- The finally block is built into one of the placeholders. -/
theorem triple_copy {placeholders : List Nat} (hc : c ∈ placeholders)
    (hblock : ∀ base c, Keeps base c (fun _ => True) (block c)) :
    Triple (Filling base here frame placeholders) (outside (block c))
      (fun _ => Filling base here frame placeholders) (Trying base here frame) := by
  refine .keeps (fun base => (hblock base c).outside) (.outside _) (fun d b h => h.ready hc) ?_
    fun _ _ h => ⟨h.1.1, h.1.2.1.inOrder⟩
  rintro d b b' ⟨⟨h, hs⟩, hcopies⟩ hready hg
  obtain ⟨hparent, hkind⟩ := hcopies c hc
  refine ⟨⟨h.leave hparent (fun hguarded => ?_) hready hg, hs⟩, fun p hp => ?_⟩
  · rw [hkind] at hguarded
    cases hguarded
  · obtain ⟨hparent, hkind⟩ := hcopies p hp
    exact ⟨hg.parentOf hparent, hg.kindOf hkind (by decide)⟩

theorem triple_catchRest :
    Triple (fun d b => Parts base here frame d b ∧ Popped d b) (catchRest : Try σ (Nat × Value))
      (fun handler d b => InPart base here frame .catchAll handler.1 Popped d b ∧
        OwnedBy handler.1 handler.2.index b) E := by
  refine (Triple.draft _).bind fun f => (triple_openPart stable_popped (by decide)).bind
    fun handler => ?_
  refine Triple.bind (.gives (triple_caught stable_popped rfl ?_ .throwable) (gives_yield _ _ _))
    fun v _ h => h
  intro d b hs hc
  rw [hs.2] at hc
  cases hc

theorem keeps_rethrow (v : Value) (hblock : ∀ base c, Keeps base c (fun _ => True) (block c)) :
    Keeps base c (fun _ => True) (rethrow block c v) := by
  refine .child stable_true (by decide) (fun base copy => (hblock base copy).outside)
    fun copy _ => ?_
  exact Keeps.bind (.pushOne (by simp) rfl (by simp) rfl fun b hb h =>
    ⟨h.2.child rfl (by decide), readings_nil b, h.2⟩) fun _ =>
      (leaf_throwValue (anywhere v)).keeps base

theorem keeps_finallyBlock (hblock : ∀ base c, Keeps base c (fun _ => True) (block c)) :
    KeepsTry (finallyBlock block) := by
  intro base here frame
  rw [finallyBlock_eq]
  refine triple_beginFinally.bind fun placeholders =>
    (Triple.forM fun c hc => triple_copy hc hblock).bind fun _ => ?_
  refine Triple.pre (fun _ _ h => h.1) (triple_catchRest.bind fun ⟨handler, v⟩ => ?_)
  refine Triple.pre (fun _ _ h => h.1) ?_
  refine (triple_part stable_popped (by decide) (fun base => keeps_rethrow v hblock) ?_
    fun _ _ h hs => ⟨h, hs.1.inOrder⟩).bind fun _ => .redraft ?_
  · exact (SameDraft.change _).bind fun copy => (SameDraft.outside _).bind fun _ =>
      SameDraft.bind (fun _ => rfl) fun _ => sameDraft_throwValue handler v
  · rintro d b ⟨⟨h, hs, _⟩, hc, hnot, hready⟩
    exact ⟨h.setCatchAll hc (hready.started (by rw [hc.isKind]; rfl)) hnot .finished,
      Begun.inOrder ⟨(fun he => by cases he), hs.2⟩⟩

/-! ## Whole statements -/

/-- The frame is closed if no inner statement was left open in it. -/
theorem closeFrame_run (h : Trying base here frame d b) (hbody : d.body ≠ none) (s : σ) :
    match closeFrame d ⟨b, s⟩ with
    | .ok _ w => ∃ d', (∀ body, d'.statement body = d.statement body) ∧ d'.body = d.body ∧
        d'.bodyExit ≠ [] ∧ Parts base here frame d' w.body
    | .error _ w => w.body.Ready here ∧ base.Grows w.body here := by
  obtain ⟨h, ho⟩ := h
  unfold closeFrame
  cases hc : d.collecting with
  | false => exact ⟨d, fun _ => rfl, rfl, ho.settled (ho.early hc), h⟩
  | true =>
    have hmem := h.collecting.mp hc
    have hordered : b.trying.Pairwise fun x y => y < x :=
      pairwise_map.mpr h.ready.collects.ordered
    have hrun : (change fun body : Body => (body.tries.head?.map TryFrame.id,
        { body with tries := body.tries.tail }) : Build σ (Option Nat)) ⟨b, s⟩ =
        .ok (b.tries.head?.map TryFrame.id) ⟨{ b with tries := b.tries.tail }, s⟩ := rfl
    rw [if_pos rfl, bind_of_ok hrun]
    cases htries : b.tries with
    | nil =>
      rw [trying, htries] at hmem
      cases hmem
    | cons fr outer =>
      have htrying : b.trying = fr.scope :: outer.map scope := by
        rw [trying, htries, map_cons]
      have hfr : b.FrameFits fr :=
        h.ready.collects.frameFits (by rw [htries]; exact .head ..)
      rw [htrying] at hmem hordered
      have hbelow := (pairwise_cons.mp hordered).1
      by_cases hid : fr.id = d.id
      · have hscope : fr.scope = frame :=
          tryNumber_inj hfr.frame h.fresh.isKind (by rw [← hfr.id, hid, h.id])
        rw [hscope] at htrying hbelow
        have hpop := h.pop htrying
        rw [htries] at hpop
        rw [head?_cons, Option.map_some, hid, if_neg (by simp)]
        refine ⟨{ d with collecting := false }, fun _ => rfl, rfl, fun he => ?_, hpop⟩
        obtain ⟨f, hf, _, hlt⟩ := ho.stuck hbody he
        rw [htrying] at hf
        rcases mem_cons.mp hf with rfl | hf
        · exact Nat.lt_irrefl _ hlt
        · exact Nat.lt_asymm hlt (hbelow f hf)
      · rw [head?_cons, Option.map_some, if_pos (by simpa using hid)]
        refine ⟨h.ready.withTries (fun f hf => h.ready.collects.frameFits ?_) ?_,
          h.grows.withTries fun f hf => ?_⟩
        · rw [htries]
          exact .tail _ hf
        · rw [htrying]
          exact sublist_cons_self _ _
        · have hle : frame ≤ fr.scope := by
            rcases mem_cons.mp hmem with heq | hmem
            · exact Nat.le_of_eq heq
            · exact Nat.le_of_lt (hbelow frame hmem)
          have hne : f ≠ fr.scope :=
            Nat.ne_of_lt (Nat.lt_of_lt_of_le hf (Nat.le_trans h.fresh.new hle))
          rw [htrying, tail_cons]
          simp [hne]

theorem Parts.fits (h : Parts base here frame d b) {body : Nat} (hbody : d.body = some body)
    (hexit : d.bodyExit ≠ []) : b.TryFits here (d.statement body) := by
  have hsame := h.same
  subst hsame
  obtain ⟨cl, hcl⟩ := exists_mem_of_ne_nil _ hexit
  obtain ⟨hone, hcopy⟩ := h.bodyExit cl hcl
  refine
    { parent := h.fresh.parent
      frame := h.fresh.isKind
      id := h.id
      body := ⟨(h.part _ (mem_body hbody)).2.1, h.body body hbody⟩
      bodyExit := ⟨cl, hone, hcopy⟩
      clauses := fun clause hclause => ?_
      catchAll := fun handler hh => ⟨(h.part _ (mem_catchAll hh)).2.1, h.catchAll handler hh⟩ }
  have hmem : clause ∈ d.clauses := Array.mem_toList_iff.mp hclause
  exact ⟨(h.part _ (mem_clause hmem)).2.1, h.clauses clause hmem⟩

theorem Parts.push (h : Parts base here frame d b) {body : Nat} (hbody : d.body = some body)
    (hexit : d.bodyExit ≠ []) :
    (b.push here (.tryCatch (d.statement body))).Ready here ∧
      base.Grows (b.push here (.tryCatch (d.statement body))) here := by
  have hd := h.ready.sound.descends
  have hgt := h.fresh.gt hd
  have howned : (Operation.tryCatch (d.statement body)).owned = frame :: d.parts := by
    rw [← h.same, TryDraft.parts, hbody]
    rfl
  have hall : ∀ c ∈ frame :: d.parts, base.scopes.size ≤ c ∧ here < c ∧ ∀ s, c ∉ b.owned s := by
    intro c hc
    rcases mem_cons.mp hc with rfl | hc
    · exact ⟨h.fresh.new, hgt, h.fresh.unowned⟩
    · obtain ⟨hnew, hparent, hown⟩ := h.part c hc
      exact ⟨hnew, Nat.lt_trans hgt (hd hparent), hown⟩
  have hnodup : (frame :: d.parts).Nodup :=
    nodup_cons.mpr ⟨fun hmem => Nat.lt_irrefl _ (hd (h.part frame hmem).2.1), h.nodup⟩
  rw [← howned] at hall hnodup
  refine ⟨h.ready.push (h.ready.accepts (by simp) (h.fits hbody hexit) (fun o ho => by cases ho)
    (fun o ho => by cases ho) hnodup (fun c hc => (hall c hc).2.1) fun c hc => (hall c hc).2.2)
    ⟨?_, ?_⟩, h.grows.push h.ready.isOpen.lt .refl (h.ready.isOpen.not_settled.imp
      (·.mono h.grows.toExtends)) fun c hc => (hall c hc).1⟩
  · intro _ _ he
    cases he
  · rintro _ ⟨⟩ c hc hp hguarded
    rw [howned] at hc
    rcases mem_cons.mp hc with rfl | hc
    · rw [h.fresh.isKind] at hguarded
      cases hguarded
    · rw [show (d.statement body).frame = frame from h.same]
      exact h.completeAll hc hguarded

theorem trying_openTry {base : Body} (hready : b.Ready here) (hg : base.Grows b here) :
    Trying base here b.scopes.size { id := b.nextTry, frame := b.scopes.size }
      (b.openTry here) := by
  obtain ⟨hready', hg'⟩ := hready.openTry
  have hunowned : ∀ s, b.scopes.size ∉ (b.openTry here).owned s := by
    intro s hown
    rw [owned, show (b.openTry here).operations s = _ from
      operations_openScope _ _ _ s] at hown
    exact hready.sound.unowned_new s hown
  refine ⟨?_, fun hne => absurd rfl hne, fun hne => absurd rfl hne, fun hfalse => by cases hfalse⟩
  exact
    { ready := hready'
      grows := hg.trans hg'
      same := rfl
      id := by
        show b.nextTry = (b.openTry here).tryNumber b.scopes.size
        rw [hg'.tryNumber .refl, hready.collects.next]
      fresh := ⟨hg.size, b.parentOf_new _ _, b.kindOf_new _ _, hunowned⟩
      collecting := ⟨fun _ => .head .., fun _ => rfl⟩
      part := fun c hc => by cases hc
      nodup := nodup_nil
      body := fun s hs => by cases hs
      bodyExit := fun cl hcl => by cases hcl
      clauses := fun clause hclause => absurd hclause (Array.not_mem_empty clause)
      catchAll := fun s hs => by cases hs
      complete := fun hfalse => by cases hfalse }

def finishTry (here : Nat) (draft : TryDraft) : Build σ Unit :=
  match draft.body with
  | none => fail (.tryOrder .finish (.at draft.stage))
  | some scope => do
      closeFrame draft
      push here (.tryCatch (draft.statement scope))

theorem tryCatch_run (parts : Try σ Unit) (w : Work σ) : tryCatch here parts w =
    (withDraft { id := w.body.nextTry, frame := w.body.scopes.size } parts >>= finishTry here)
      ⟨w.body.openTry here, w.carried⟩ := rfl

/-- A try statement leaves the scope ready, whether or not it fails. -/
theorem keeps_tryCatch {parts : Try σ Unit} {P : Body → Prop} (hparts : KeepsTry parts) :
    Keeps base here P (tryCatch here parts) := by
  intro w hw hg _
  have hstart := trying_openTry hw hg
  rw [after, tryCatch_run]
  refine (hparts base here w.body.scopes.size).withDraft
    (Q := fun b => b.Ready here ∧ base.Grows b here) hstart
    (fun d b h => ⟨h.1.ready, h.1.grows⟩) fun d w' h => ?_
  unfold finishTry
  cases hbody : d.body with
  | none => exact ⟨h.1.ready, h.1.grows⟩
  | some body =>
    have hrun := closeFrame_run h (by rw [hbody]; simp) w'.carried
    dsimp only
    cases hclose : closeFrame d w' with
    | ok u w'' =>
      rw [hclose] at hrun
      obtain ⟨d', hstatement, hsame, hexit, hparts⟩ := hrun
      rw [after, bind_of_ok hclose, ← hstatement]
      exact hparts.push (hsame.trans hbody) hexit
    | error e w'' =>
      rw [hclose] at hrun
      rw [after, bind_of_error hclose]
      exact hrun

end Build
end ClassAssembler
