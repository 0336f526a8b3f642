import Mathlib.Data.List.Flatten
import ClassAssembler.Proofs.Body.Homes
import ClassAssembler.Proofs.Build.Built
import ClassAssembler.Proofs.Build.ServingParts

/-!
# Copies of finally blocks

In a body that was built without a failing call, every way out of a try statement has its own copy
of the finally block, and the block was run into each copy once and once more for the handler of
all exceptions.
-/

namespace ClassAssembler

open List Build Cleanup

namespace Body

def cleanups (b : Body) : List Cleanup :=
  (List.range b.scopes.size).flatMap fun s => (b.operations s).flatMap Operation.cleanups

def copiesOf (b : Body) (T : TryStatement) : List Nat :=
  (b.cleanups.filter (·.owner = T.id)).map scope

variable {b : Body} {s t c f d : Nat} {op : Operation} {T T' : TryStatement}

theorem mem_cleanups {cl : Cleanup} :
    cl ∈ b.cleanups ↔ ∃ s op, op ∈ b.operations s ∧ cl ∈ op.cleanups := by
  simp only [cleanups, mem_flatMap, mem_range]
  constructor
  · rintro ⟨s, _, op, hop, hcl⟩
    exact ⟨s, op, hop, hcl⟩
  · rintro ⟨s, op, hop, hcl⟩
    exact ⟨s, lt_size_of_mem_operations hop, op, hop, hcl⟩

theorem cleanups_sublist (op : Operation) : (op.cleanups.map scope).Sublist op.owned := by
  cases op with
  | jump kind target cleanups => exact .refl _
  | ret value cleanups => exact .refl _
  | tryCatch T =>
    have hclauses : ∀ clauses : List CatchClause,
        ((clauses.flatMap CatchClause.exit).map scope).Sublist
          (clauses.flatMap fun clause => clause.scope :: clause.exit.map scope) := by
      intro clauses
      induction clauses with
      | nil => exact .refl _
      | cons clause clauses ih =>
        rw [flatMap_cons, flatMap_cons, List.map_append]
        exact (sublist_cons_self ..).append ih
    rw [Operation.cleanups, List.map_append]
    refine ((List.Sublist.append (.refl _) (hclauses T.clauses)).trans ?_)
    exact (sublist_append_left ..).trans
      ((sublist_cons_self ..).trans (sublist_cons_self ..))
  | _ => exact nil_sublist _

theorem cleanups_nodup (hb : b.Sound) : (b.cleanups.map scope).Nodup := by
  have hsub : ∀ s, (((b.operations s).flatMap Operation.cleanups).map scope).Sublist
      (b.owned s) := by
    intro s
    rw [map_flatMap]
    exact Sublist.flatMap_right _ fun op _ => cleanups_sublist op
  rw [cleanups, map_flatMap, nodup_iff_pairwise_ne, pairwise_flatMap]
  refine ⟨fun s _ => nodup_iff_pairwise_ne.mp ((hb.owned_nodup s).sublist (hsub s)), ?_⟩
  refine pairwise_lt_range.imp fun {s t} hlt x hx y hy heq => ?_
  subst heq
  exact absurd (hb.owned_unique ((hsub s).subset hx) ((hsub t).subset hy)) (Nat.ne_of_lt hlt)

theorem TryFits.guarded (h : b.TryFits s T) (hc : c ∈ T.guarded) :
    b.parentOf c = some T.frame ∧ (b.kindOf c).isGuarded := by
  rcases mem_cons.mp hc with rfl | hc
  · exact ⟨h.body.1, by rw [h.body.2]; rfl⟩
  · obtain ⟨clause, hclause, rfl⟩ := mem_map.mp hc
    obtain ⟨hp, hk, _⟩ := h.clauses clause hclause
    exact ⟨hp, by rw [hk]; rfl⟩

theorem mem_owned_of_guarded (hT : .tryCatch T ∈ b.operations s) (hc : c ∈ T.guarded) :
    c ∈ b.owned s := by
  refine mem_owned hT (.tail _ ?_)
  rcases mem_cons.mp hc with rfl | hc
  · exact .head ..
  · obtain ⟨clause, hclause, rfl⟩ := mem_map.mp hc
    refine .tail _ (mem_append_left _ (mem_append_right _ ?_))
    exact mem_flatMap.mpr ⟨clause, hclause, .head ..⟩

theorem try_unique (hb : b.Sound) (hT : .tryCatch T ∈ b.operations s)
    (hT' : .tryCatch T' ∈ b.operations t) (hf : T.frame = T'.frame) : T = T' := by
  have hmem : T.frame ∈ (Operation.tryCatch T).owned := .head ..
  have hmem' : T.frame ∈ (Operation.tryCatch T').owned := hf ▸ .head ..
  cases hb.owned_unique (mem_owned hT hmem) (mem_owned hT' hmem')
  obtain ⟨l1, l2, hl⟩ := append_of_mem hT
  obtain ⟨m1, m2, hm⟩ := append_of_mem hT'
  have hcount := (hb.owned_nodup s).count (a := T.frame)
  rw [if_pos (mem_owned hT hmem), owned, hl] at hcount
  obtain ⟨_, heq, _⟩ := flatMap_unique hcount (hl.symm.trans hm) hmem hmem'
  exact Operation.tryCatch.inj heq

theorem CopyOf.frame_eq {cl : Cleanup} (hcopy : b.CopyOf f cl) (hT : b.TryFits s T) :
    cl.owner = T.id ↔ f = T.frame := by
  rw [hcopy.owner, hT.id]
  exact ⟨tryNumber_inj hcopy.isTry hT.frame, fun heq => by rw [heq]⟩

theorem exit_fits (hb : b.Sound) {d : Option Nat} {cs : List Cleanup} (hop : op ∈ b.operations s)
    (hexit : op.exit? = some (d, cs)) : b.ExitFits s d cs := by
  have hfits := hb.fits hop
  cases op with
  | jump kind target cleanups =>
    cases hexit
    exact hfits.2.2
  | ret value cleanups =>
    cases hexit
    exact hfits.2
  | _ => cases hexit

theorem ExitFits.owners_nodup {d : Option Nat} {cs : List Cleanup} (h : b.ExitFits s d cs) :
    (cs.map owner).Nodup := by
  rw [nodup_iff_pairwise_ne, pairwise_map]
  exact h.ordered.imp fun hlt => Nat.ne_of_gt hlt

/-- The statement of the second copy lies around that of the first. -/
def Nested (b : Body) (x y : Cleanup) : Prop :=
  ∃ f g, b.CopyOf f x ∧ b.CopyOf g y ∧ f ≠ g ∧ b.Within g f

/-- The copies of an exit are run from the innermost statement to the outermost. -/
theorem ExitFits.nested (hd : b.Descends) {d : Option Nat} {cs : List Cleanup}
    (h : b.ExitFits s d cs) : cs.Pairwise b.Nested := by
  refine h.ordered.imp_of_mem fun {x y} hx hy hlt => ?_
  obtain ⟨f, hf, hguards, _⟩ := h.each x hx
  obtain ⟨g, hg, hguards', _⟩ := h.each y hy
  have hlt : b.tryNumber g < b.tryNumber f := by rwa [← hf.owner, ← hg.owner]
  have hne : f ≠ g := fun heq => by rw [heq] at hlt; exact Nat.lt_irrefl _ hlt
  refine ⟨f, g, hf, hg, hne, ?_⟩
  rcases hguards.within.total hguards'.within with hfg | hgf
  · have hle : f < g := Nat.lt_of_le_of_ne (hfg.le hd) hne
    exact absurd (tryNumber_lt hf.isTry hle) (Nat.lt_asymm hlt)
  · exact hgf

/-- Every scope of a body is held, and the journal has each run of a finally block. -/
structure Accounted (b : Body) (j : Build.Journal) : Prop where
  finished : b.Finished
  held : ∀ c, c ≠ 0 → c < b.scopes.size → ∃ s, c ∈ b.owned s
  nodup : j.Nodup
  runs : ∀ f c, (f, c) ∈ j ↔ b.Filled f c
  handlers : ∀ h, b.kindOf h = .catchAll →
    ∃ copy, .block copy ∈ b.operations h ∧ ∀ c, b.CopyIn h c ↔ c = copy

/-- What the finally block of a statement comes to: `exits` are the ways out by an exit, and `runs`
says where the block was run. -/
structure Replicated (b : Body) (j : Build.Journal) (T : TryStatement) : Prop where
  /-- An exit from a part of the statement that leaves the statement runs one copy. -/
  leaving : ∀ s op d cs, op ∈ b.operations s → op.exit? = some (d, cs) →
    (∃ part ∈ T.guarded, b.Within part s) → b.Leaves T.frame d →
    (cs.map owner).count T.id = 1
  staying : ∀ s op d cs, op ∈ b.operations s → op.exit? = some (d, cs) →
    ¬ ((∃ part ∈ T.guarded, b.Within part s) ∧ b.Leaves T.frame d) →
    (cs.map owner).count T.id = 0
  bodyEnd : ∃ c, T.bodyExit = [c] ∧ c.owner = T.id
  clauseEnd : ∀ clause ∈ T.clauses, ∃ c, clause.exit = [c] ∧ c.owner = T.id
  /-- The block was run into each copy, and into one more in the handler. -/
  runs : ∀ handler, T.catchAll = some handler → ∃ copy, .block copy ∈ b.operations handler ∧
    b.parentOf copy = some handler ∧ copy ∉ b.copiesOf T ∧
      ∀ c, j.count (T.frame, c) = if c ∈ copy :: b.copiesOf T then 1 else 0
  none : T.catchAll = none → ∀ c, (T.frame, c) ∉ j

namespace Accounted

variable {j : Build.Journal}

variable (h : b.Accounted j)
include h

section

variable (hT : .tryCatch T ∈ b.operations s)
include hT

theorem statement (hp : b.parentOf c = some T.frame) :
    (∃ t, ∃ op ∈ b.operations t, ∃ cl ∈ op.cleanups, c = cl.scope ∧ b.CopyOf T.frame cl) ∨
      c ∈ T.guarded ∨ T.catchAll = some c := by
  have hb := h.finished.sound
  have hne : c ≠ 0 := fun heq => Nat.not_lt_zero _ (heq ▸ hb.descends hp)
  obtain ⟨t, ht⟩ := h.held c hne (lt_size_of_parentOf hp)
  obtain ⟨op, hop, hc⟩ := mem_flatMap.mp ht
  rcases frame_child (hb.fits hop) (by simp [not_isFrame hb hop]) hc hp (hb.fits hT).frame with
    hcopy | ⟨T', rfl, hframe, hpart⟩
  · exact .inl ⟨t, op, hop, hcopy⟩
  · cases try_unique hb hT hop hframe.symm
    exact .inr hpart

theorem copyIn_frame_iff :
    b.CopyIn T.frame c ↔ c ∈ b.copiesOf T := by
  have hb := h.finished.sound
  have hfits := hb.fits hT
  simp only [copiesOf, mem_map, mem_filter, mem_cleanups, decide_eq_true_eq]
  constructor
  · intro hc
    rcases h.statement hT hc.1 with ⟨t, op, hop, cl, hcl, rfl, hcopy⟩ | hguarded | hall
    · exact ⟨cl, ⟨⟨t, op, hop, hcl⟩, (hcopy.frame_eq hfits).mpr rfl⟩, rfl⟩
    · have hg := (hfits.guarded hguarded).2
      rw [hc.2] at hg
      cases hg
    · have hk := hc.2
      rw [(hfits.catchAll c hall).2.1] at hk
      cases hk
  · rintro ⟨cl, ⟨⟨t, op, hop, hcl⟩, howner⟩, rfl⟩
    obtain ⟨f, hf⟩ := copyOf_cleanup (hb.fits hop) hcl
    cases (hf.frame_eq hfits).mp howner
    exact ⟨hf.parent, hf.kind⟩

theorem handlerIn_frame_iff :
    b.HandlerIn T.frame c ↔ T.catchAll = some c := by
  have hfits := h.finished.sound.fits hT
  refine ⟨fun hc => ?_, fun hall => ⟨(hfits.catchAll c hall).1, (hfits.catchAll c hall).2.1⟩⟩
  have hk := hc.2
  rcases h.statement hT hc.1 with ⟨_, _, _, cl, _, rfl, hcopy⟩ | hguarded | hall
  · rw [hcopy.kind] at hk
    cases hk
  · have hg := (hfits.guarded hguarded).2
    rw [hk] at hg
    cases hg
  · exact hall

end

theorem count_leaving (hT : .tryCatch T ∈ b.operations t) {d : Option Nat} {cs : List Cleanup}
    (hop : op ∈ b.operations s) (hexit : op.exit? = some (d, cs)) {part : Nat}
    (hpart : part ∈ T.guarded) (hw : b.Within part s) (hl : b.Leaves T.frame d) :
    (cs.map owner).count T.id = 1 := by
  have hb := h.finished.sound
  have hfits := hb.fits hT
  obtain ⟨hp, hg⟩ := hfits.guarded hpart
  have hmem := h.finished.complete hfits.frame hp hg (mem_owned_of_guarded hT hpart) s op d
    cs hw hop hexit hl
  rw [(exit_fits hb hop hexit).owners_nodup.count, hfits.id, if_pos hmem]

theorem count_staying (hT : .tryCatch T ∈ b.operations t) {d : Option Nat} {cs : List Cleanup}
    (hop : op ∈ b.operations s) (hexit : op.exit? = some (d, cs))
    (hstay : ¬ ((∃ part ∈ T.guarded, b.Within part s) ∧ b.Leaves T.frame d)) :
    (cs.map owner).count T.id = 0 := by
  have hb := h.finished.sound
  have hfits := hb.fits hT
  refine count_eq_zero.mpr fun hmem => hstay ?_
  obtain ⟨cl, hcl, howner⟩ := mem_map.mp hmem
  obtain ⟨f, hcopy, ⟨_, part, hw, hp, hg⟩, hl⟩ := (exit_fits hb hop hexit).each cl hcl
  cases (hcopy.frame_eq hfits).mp howner
  refine ⟨⟨part, ?_, hw⟩, hl⟩
  -- A part that was begun is a part of the statement, since nothing failed.
  rcases h.statement hT hp with ⟨_, _, _, cl', _, rfl, hcopy'⟩ | hpart | hall
  · rw [hcopy'.kind] at hg
    cases hg
  · exact hpart
  · rw [(hfits.catchAll part hall).2.1] at hg
    cases hg

theorem count_runs (hT : .tryCatch T ∈ b.operations s) {handler : Nat}
    (hall : T.catchAll = some handler) : ∃ copy, .block copy ∈ b.operations handler ∧
      b.parentOf copy = some handler ∧ copy ∉ b.copiesOf T ∧
        ∀ c, j.count (T.frame, c) = if c ∈ copy :: b.copiesOf T then 1 else 0 := by
  have hfits := h.finished.sound.fits hT
  have hk := (hfits.catchAll handler hall).2.1
  obtain ⟨copy, hblock, hcopy⟩ := h.handlers handler hk
  have hin := (hcopy copy).mpr rfl
  refine ⟨copy, hblock, hin.1, fun hmem => ?_, fun c => ?_⟩
  · have heq := hin.1.symm.trans ((h.copyIn_frame_iff hT).mpr hmem).1
    cases heq
    rw [hfits.frame] at hk
    cases hk
  · rw [h.nodup.count]
    refine ite_congr (propext ?_) (fun _ => rfl) fun _ => rfl
    rw [h.runs, Filled, mem_cons, ← h.copyIn_frame_iff hT]
    constructor
    · rintro ⟨_, g, hg, hc | hc⟩
      · exact .inr hc
      · rw [h.handlerIn_frame_iff hT, hall] at hg
        cases hg
        exact .inl ((hcopy c).mp hc)
    · rintro (rfl | hc)
      · exact ⟨hfits.frame, handler, (h.handlerIn_frame_iff hT).mpr hall, .inr hin⟩
      · exact ⟨hfits.frame, handler, (h.handlerIn_frame_iff hT).mpr hall, .inl hc⟩

theorem replicated (hT : .tryCatch T ∈ b.operations s) : b.Replicated j T := by
  have hfits := h.finished.sound.fits hT
  refine
    { leaving := fun t op d cs hop hexit ⟨part, hpart, hw⟩ hl =>
        h.count_leaving hT hop hexit hpart hw hl
      staying := fun t op d cs hop hexit hstay => h.count_staying hT hop hexit hstay
      bodyEnd := ?_
      clauseEnd := fun clause hclause => ?_
      runs := fun handler hall => h.count_runs hT hall
      none := fun hnone c hmem => ?_ }
  · obtain ⟨c, hc, hcopy⟩ := hfits.bodyExit
    exact ⟨c, hc, (hcopy.frame_eq hfits).mpr rfl⟩
  · obtain ⟨_, _, _, c, hc, hcopy⟩ := hfits.clauses clause hclause
    exact ⟨c, hc, (hcopy.frame_eq hfits).mpr rfl⟩
  · obtain ⟨_, g, hg, _⟩ := (h.runs T.frame c).mp hmem
    rw [h.handlerIn_frame_iff hT, hnone] at hg
    cases hg

end Accounted

/-- A body of a class as it begins: the first one has no tables, and a later one has those of a
body before it. -/
def Opening (b : Body) : Prop := Begins #[] b ∨ ∃ b', Built b' ∧ Begins b'.tables b

theorem Opening.ready (h : b.Opening) : b.Ready 0 := by
  rcases h with h | ⟨b', hb', h⟩
  · exact h.ready fun table ht => absurd ht (Array.not_mem_empty table)
  · exact h.ready hb'.ready.collects.accessors

theorem Opening.root (h : b.Opening) : b.scopes.size = 1 ∧ b.tries = [] := by
  rcases h with h | ⟨_, _, h⟩ <;> exact ⟨h.bare.1, h.bare.2.1⟩

theorem Opening.tended (h : b.Opening) : b.Tended := by
  have htries := h.root.2
  have htrying : b.trying = [] := by rw [trying, htries]; rfl
  exact
    { descends := h.ready.sound.descends
      frame := fun f hf => by rw [htrying] at hf; cases hf
      nodup := by rw [htrying]; exact nodup_nil
      copies := fun F hF => by rw [htries] at hF; cases hF
      unhandled := fun f hf => by rw [htrying] at hf; cases hf }

theorem Opening.accounted (h : b.Opening) {σ α : Type} {m : Build (Build.Journal × σ) α}
    (hm : Build.Records σ 0 α m) {state : σ} {a : α} {w : Work (Build.Journal × σ)}
    (hr : m ⟨b, [], state⟩ = .ok a w) : w.body.Accounted w.carried.1 := by
  obtain ⟨hsize, _⟩ := h.root
  have hready := (hm.keeps b ⟨b, [], state⟩ h.ready (.refl _ _) trivial).1
  rw [after_of_ok hr] at hready
  have hserved : b.Served 0 [] [] w.body w.carried.1 :=
    hm.serves ⟨b, [], state⟩ a w h.tended (by show 0 < b.scopes.size; omega) hr
  have hroot : ∀ {c}, w.body.kindOf c ≠ .root → b.scopes.size ≤ c := by
    intro c hc
    rw [hsize]
    refine Nat.pos_of_ne_zero fun heq => hc ?_
    rw [heq]
    exact hready.sound.root
  obtain ⟨l, hl, hnodup, hmem⟩ := hserved.runs
  rw [List.nil_append] at hl
  subst hl
  refine
    { finished := ⟨hready.sound, fun hk hp hg hown =>
        hready.collects.complete hk hp hg (.inr ⟨_, hown⟩)⟩
      held := fun c hne hlt => ?_
      nodup := hnodup
      runs := fun f c => ?_
      handlers := fun g hg => ?_ }
  · rcases hserved.tends.held c (by omega) hlt with hc | hc
    · cases hc
    · exact hc
  · rw [hmem]
    refine ⟨fun hf => hf.2.resolve_right (by simp), fun hf => ⟨hroot ?_, .inl hf⟩⟩
    rw [hf.1]
    decide
  · refine (hserved.handled g (hroot ?_) hg).resolve_left (by simp)
    rw [hg]
    decide

end Body

/-- In a body that was built without a failing call, all finally copies are different, those of an
exit go from the innermost statement to the outermost, and every statement has its finally block
on each way out once. -/
theorem finally_replicated {start : Body} (hstart : start.Opening) {σ α : Type}
    {m : Build (Build.Journal × σ) α} (hm : Build.Records σ 0 α m) {state : σ} {a : α}
    {w : Work (Build.Journal × σ)} (hr : m ⟨start, [], state⟩ = .ok a w) :
    (w.body.cleanups.map scope).Nodup ∧
      (∀ s op d cs, op ∈ w.body.operations s → op.exit? = some (d, cs) →
        cs.Pairwise w.body.Nested) ∧
      ∀ s T, .tryCatch T ∈ w.body.operations s → w.body.Replicated w.carried.1 T := by
  have h := hstart.accounted hm hr
  have hb := h.finished.sound
  exact ⟨Body.cleanups_nodup hb,
    fun _ _ _ _ hop hexit => (Body.exit_fits hb hop hexit).nested hb.descends,
    fun _ _ hT => h.replicated hT⟩

namespace Build

/-- A finally block that ends well leaves its statement a handler of all exceptions. -/
theorem catchAll_of_finallyBlock {σ : Type} {block : Block σ} {w w' : Work (TryDraft × σ)}
    (h : finallyBlock block w = .ok () w') : w'.carried.1.catchAll.isSome := by
  have htrue : ∀ {α : Type} (m : Try σ α),
      Triple (fun _ _ => True) m (fun _ _ _ => True) fun _ _ => True := by
    intro α m w _
    cases m w <;> trivial
  have hblock : Triple (fun _ _ => True) (finallyBlock block)
      (fun _ d _ => d.catchAll.isSome) fun _ _ => True := by
    rw [finallyBlock_eq]
    exact (htrue _).bind fun _ => (htrue _).bind fun _ => (htrue _).bind fun _ =>
      (htrue _).bind fun _ => .redraft fun _ _ _ => rfl
  have hleft := hblock w trivial
  rwa [h] at hleft

def returnTwice : Build (Journal × Unit) Unit := do
  let first ← param 0
  let negate (copy : Nat) : Build (Journal × Unit) Unit := do
    let _ ← neg copy first
    pure ()
  tryCatch 0 do
    tryBody fun body => do
      tryCatch body do
        tryBody fun inner => returnVoid inner
        finallyNoted negate
    catchClause .throwable fun clause _ => returnVoid clause
    finallyNoted negate

theorem records_returnTwice : Records Unit 0 Unit returnTwice :=
  .bind (.call (.param 0)) fun first =>
    .tryCatch (.bind (.body fun _ => .tryCatch (.bind (.body fun _ => .call .returnVoid) fun _ =>
        .finallyNoted fun _ => .bind (.call (.neg first)) fun _ => .pure ())) fun _ =>
      .bind (.catchClause _ fun _ _ => .call .returnVoid) fun _ =>
        .finallyNoted fun _ => .bind (.call (.neg first)) fun _ => .pure ())

end Build

theorem Body.opening_sampleStart (returns : Option FieldType) : (sampleStart returns).Opening :=
  .inl (begins_sampleStart returns)

theorem finally_replicated_returnTwice :
    ∃ a w, returnTwice ⟨Body.sampleStart none, [], ()⟩ = .ok a w ∧
      w.carried.1 = [(3, 5), (3, 7), (3, 9), (1, 6), (1, 10), (1, 12), (1, 13), (1, 15)] ∧
      (w.body.cleanups.map scope).Nodup ∧
      (∀ s op d cs, op ∈ w.body.operations s → op.exit? = some (d, cs) →
        cs.Pairwise w.body.Nested) ∧
      ∀ s T, .tryCatch T ∈ w.body.operations s → w.body.Replicated w.carried.1 T := by
  obtain ⟨a, hr⟩ := exists_ok_of_endsWell
    (show endsWell returnTwice ⟨Body.sampleStart none, [], ()⟩ = true by decide +kernel)
  have hruns : (after returnTwice ⟨Body.sampleStart none, [], ()⟩).carried.1 =
      [(3, 5), (3, 7), (3, 9), (1, 6), (1, 10), (1, 12), (1, 13), (1, 15)] := by decide +kernel
  exact ⟨a, _, hr, hruns,
    finally_replicated (Body.opening_sampleStart none) records_returnTwice hr⟩

end ClassAssembler
