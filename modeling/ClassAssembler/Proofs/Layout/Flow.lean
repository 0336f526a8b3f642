import ClassAssembler.Proofs.Layout.SimpleFlow

/-!
# Views along a body

Every scope begins with an empty stack, or with the exception if it is a handler, and ends with an
empty stack.
-/

namespace ClassAssembler

open List Lay Body Operation Instruction

namespace Plot

/-- The labels that an exit from a scope may go to expect an empty stack, and only values that
are kept all through the scope. -/
def Outer (ψ : Label → Option Status) (b : Body) (s : Nat) (kept : List Nat) : Prop :=
  ∀ l, b.Around s l → ∃ fewer, ψ l = some ⟨[], fewer⟩ ∧ fewer ⊆ kept

def Ends (ψ : Label → Option Status) (b : Body) (kept : List Nat) (x : Nat) : Prop :=
  ψ (exitOf b x) = some ⟨[], kept⟩ ∧
    (b.kindOf x = .loop → ψ (againOf b x) = some ⟨[], kept⟩)

variable {b : Body} {homes : Array Home} {ψ : Label → Option Status} {voids : Prop}
  {before : Label → Prop} {kept : List Nat} {σ τ : View} {s c slot : Nat} {op : Operation}
  {inner : Inner} {status : Status}

theorem entering_plain (h : (b.kindOf c).isHandler = false) : entering b c kept = ⟨[], kept⟩ := by
  rw [entering, if_neg (by rw [h]; exact Bool.false_ne_true)]

theorem entering_handler (h : (b.kindOf c).isHandler) : entering b c kept = thrown kept := by
  rw [entering, if_pos h]
  rfl

theorem isHandler_of_child (h : b.Child s c) : (b.kindOf c).isHandler = false := by
  have hplain := h.2.1
  simp only [ScopeKind.isPlain, Bool.not_eq_true', Bool.or_eq_false_iff] at hplain
  exact hplain.1.2

theorem ends_of_frame {x : Nat} (hx : (b.kindOf x).isFrame)
    (h : ψ (exitOf b x) = some ⟨[], kept⟩) : Ends ψ b kept x :=
  ⟨h, fun hk => by rw [hk] at hx; cases hx⟩

/-! ## Jumps -/

variable {site : Site} {w : Nat} {statement : SwitchStatement}

theorem flows_goto {l : Label} {fewer : List Nat} (hl : ψ l = some ⟨[], fewer⟩)
    (hfewer : fewer ⊆ kept) :
    Flows b homes ψ voids before kept ⟨[], none, kept⟩ (goto site l) ⟨[], none, kept⟩ := by
  refine .branch (fun _ => ⟨.refl, fun h => by cases h⟩) (fun t ht => ?_)
    (fun h => by cases h) fun _ hv => hv
  cases mem_singleton.mp ht
  exact ⟨_, hl, .plain (fun _ => rfl) hfewer⟩

theorem flows_jumpIf {l : Label} {test : OrdTest} {fewer : List Nat}
    (hl : ψ l = some ⟨[], fewer⟩) (hfewer : fewer ⊆ kept) :
    Flows b homes ψ voids before kept ⟨[w], none, kept⟩
      (branch site (.jumpIf (.zero test) l)) ⟨[], none, kept⟩ := by
  refine .branch (fun _ => ⟨.refl, fun h => by cases h⟩) (fun t ht => ?_)
    (fun _ => rfl) fun _ hv => hv
  cases mem_singleton.mp ht
  exact ⟨_, hl, .plain (fun _ => rfl) hfewer⟩

theorem flows_hole {owners : List Nat} {part : Plot} (hσ : kept ⊆ σ.kept) (hτ : kept ⊆ τ.kept)
    (h : Flows b homes ψ voids before kept σ part τ) :
    Flows b homes ψ voids before kept σ (hole owners part) τ :=
  .fresh fun _ => .fresh fun _ =>
    (((Flows.border hσ).append h).append (.border hτ)).append (.mark _)

theorem flows_cond (h : Meets b homes slot status op) (hcaught : ¬ op.isCaught) {o : Operand}
    (htop : op.top? = some o.value) (hfits : o.Fits) :
    ∃ w, Flows b homes ψ voids before status.kept status.view (load b homes site o)
      ⟨[w], none, status.kept⟩ := by
  have hoffers : Offers b homes voids status.view [] o.value := h.offers hcaught htop
  exact exists_flows_load hoffers hfits fun _ hv => hv

/-! ## Scopes and exits -/

section scopes

variable (hb : b.Sound) (hop : op ∈ b.operations s) (houter : Outer ψ b s kept)
  (hinner : ∀ c ∈ op.nested, Outer ψ b c kept → Flows b homes ψ voids (fun _ => False) kept
    (entering b c kept).view (inner c (entering b c kept)) ⟨[], none, kept⟩)

include hb hop houter in
theorem outer_nested (hc : c ∈ op.nested) (hends : b.kindOf c ≠ .loopUpdate → ∀ x ∈ op.owned,
    x = c ∨ b.parentOf c = some x → Ends ψ b kept x) : Outer ψ b c kept := by
  rintro l ⟨hupdate, x, hx, hl⟩
  have hown := mem_owned_of_nested hc
  have hs : b.kindOf s ≠ .loopUpdate := not_update hb hop fun hsimple => by
    cases op with
    | simple act os result => cases hc
    | _ => cases hsimple
  have hnests := nests hb hop hown
  rcases hnests.within hown hx with hxown | hxs
  · have hx' := hends hupdate x hxown (hnests.outer hb (mem_owned hop hxown) hx)
    refine ⟨kept, ?_, fun _ hv => hv⟩
    rcases hl with rfl | ⟨hk, rfl⟩
    · exact hx'.1
    · exact hx'.2 hk
  · exact houter l ⟨hs, x, hxs, hl⟩

include hb hop houter hinner

theorem flows_enclosed (hc : c ∈ op.nested) (hloop : b.kindOf c ≠ .loop)
    (hends : b.kindOf c ≠ .loopUpdate → ∀ x ∈ op.owned, b.parentOf c = some x → Ends ψ b kept x)
    (hσ : σ.Suits voids (entering b c kept).view) :
    Flows b homes ψ voids before kept σ (enclosed b inner c (entering b c kept))
      ⟨[], none, kept⟩ := by
  refine .of_puts (Puts.place (exitOf b c) ⟨[], kept⟩).right fun hexit => ?_
  have houter' : Outer ψ b c kept := by
    refine outer_nested hb hop houter hc fun hupdate x hx h => ?_
    rcases h with rfl | h
    · exact ⟨hexit, fun hk => absurd hk hloop⟩
    · exact hends hupdate x hx h
  have hscope := hinner c hc houter'
  exact ((Flows.place hσ hσ.kept).append (hscope.anywhere fun _ hv => hv)).append
    (.place (.refl _) fun _ hv => hv)

theorem flows_child (hc : c ∈ op.nested) (hchild : b.Child s c)
    (hσ : σ.Suits voids ⟨[], none, kept⟩) :
    Flows b homes ψ voids before kept σ (enclosed b inner c ⟨[], kept⟩) ⟨[], none, kept⟩ := by
  have hplain : entering b c kept = ⟨[], kept⟩ := entering_plain (isHandler_of_child hchild)
  rw [← hplain]
  refine flows_enclosed hb hop houter hinner hc hchild.2.2 (fun _ x hx hp => ?_) (by rwa [hplain])
  rw [hchild.1] at hp
  cases hp
  exact absurd (hb.owned_gt (mem_owned hop hx)) (Nat.lt_irrefl _)

variable {cleanups : List Cleanup}

section cleanups

variable (hmem : ∀ c ∈ cleanups, c.scope ∈ op.nested ∧ b.kindOf c.scope = .finallyCopy)
  (hends : ∀ c ∈ cleanups, ∀ x ∈ op.owned, b.parentOf c.scope = some x → Ends ψ b kept x)

include hmem hends

theorem flows_cleanupsFrom (owners : List Nat) :
    Flows b homes ψ voids before kept ⟨[], none, kept⟩
      (cleanupsFrom b inner ⟨[], kept⟩ owners cleanups) ⟨[], none, kept⟩ := by
  induction cleanups generalizing owners with
  | nil => exact .nil (.refl _)
  | cons cleanup rest ih =>
    obtain ⟨hc, hkind⟩ := hmem cleanup (.head ..)
    have hplain : entering b cleanup.scope kept = ⟨[], kept⟩ :=
      entering_plain (by rw [hkind]; rfl)
    refine Flows.append (flows_hole (fun _ hv => hv) (fun _ hv => hv) ?_)
      (ih (fun c hc => hmem c (.tail _ hc))
        (fun c hc => hends c (.tail _ hc)) _)
    rw [← hplain]
    refine flows_enclosed hb hop houter hinner hc (by rw [hkind]; decide)
      (fun _ => hends cleanup (.head ..)) ?_
    rw [hplain]
    exact .refl _

theorem flows_exit {final : Plot} (hkept : status.kept = kept)
    (hempty : cleanups ≠ [] → status.stack = []) (hτ : kept ⊆ τ.kept)
    (hfinal : Flows b homes ψ voids before kept status.view final τ) :
    Flows b homes ψ voids before kept status.view (exit b inner status cleanups final) τ := by
  have hσ : kept ⊆ status.view.kept := by rw [Status.view, hkept]; exact fun _ hv => hv
  refine Flows.append ?_ (flows_hole hσ hτ hfinal)
  by_cases hnil : cleanups = []
  · rw [hnil]
    exact .nil (.refl _)
  · have hstatus : status = ⟨[], kept⟩ := by
      rw [← hempty hnil, ← hkept]
    rw [hstatus]
    exact flows_cleanupsFrom hb hop houter hinner hmem hends []

end cleanups

theorem flows_guarded {frame part : Nat} (hpart : part ∈ op.nested)
    (hloop : b.kindOf part ≠ .loop) (hparent : b.parentOf part = some frame)
    (hcopies : ∀ c ∈ cleanups, c.scope ∈ op.nested ∧ b.CopyOf frame c)
    (hframe : b.kindOf frame = .tryFrame) (hexit : ψ (exitOf b frame) = some ⟨[], kept⟩)
    (hσ : σ.Suits voids (entering b part kept).view) (hτ : kept ⊆ τ.kept) :
    Flows b homes ψ voids before kept σ
      (guarded b inner s frame part (entering b part kept) kept cleanups) τ := by
  have hends : ∀ {c x}, b.parentOf c = some frame → b.parentOf c = some x → Ends ψ b kept x := by
    intro c x hc hx
    rw [hc] at hx
    cases hx
    exact ends_of_frame (by rw [hframe]; rfl) hexit
  refine (flows_enclosed hb hop houter hinner hpart hloop (fun _ x _ hx => hends hparent hx)
    hσ).append ?_
  have hgoto : Flows b homes ψ voids before kept (Status.mk [] kept).view
      (goto ⟨part, some (some s)⟩ (exitOf b frame)) τ := by
    refine .branch (fun _ => ⟨.refl, fun h => by cases h⟩) (fun t ht => ?_)
      (fun h => by cases h) fun _ hv => hv
    cases mem_singleton.mp ht
    exact ⟨_, hexit, .refl _⟩
  exact flows_exit hb hop houter hinner (fun c hc => ⟨(hcopies c hc).1, (hcopies c hc).2.kind⟩)
    (fun c hc x _ hx => hends (hcopies c hc).2.parent hx) rfl (fun _ => rfl) hτ hgoto

end scopes

theorem flows_protects {start stop : Label} {holes : List (Label × Label)}
    {clauses : List CatchClause} (hstart : before start) (hσ : kept ⊆ σ.kept)
    (h : ∀ clause ∈ clauses, ψ (entryOf b clause.scope) = some (thrown kept)) :
    Flows b homes ψ voids before kept σ (protects b start stop holes clauses) σ :=
  .concat fun clause hclause => .protect hstart (h clause hclause) (fun _ hv => hv) hσ

theorem puts_entry (c : Nat) (status : Status) :
    Puts (enclosed b inner c status) (entryOf b c) status := (Puts.place _ _).left.left

theorem flows_tryCatch {statement : TryStatement} (hb : b.Sound)
    (hop : .tryCatch statement ∈ b.operations s) (houter : Outer ψ b s kept)
    (hinner : ∀ c ∈ (Operation.tryCatch statement).nested, Outer ψ b c kept →
      Flows b homes ψ voids (fun _ => False) kept
        (entering b c kept).view (inner c (entering b c kept)) ⟨[], none, kept⟩) :
    Flows b homes ψ voids before kept ⟨[], none, kept⟩
      (tryCatch b inner s ⟨[], kept⟩ statement) ⟨[], none, kept⟩ := by
  have hfits : b.TryFits s statement := hb.fits hop
  have hmem := fun {c} hc => (mem_nested_tryCatch (T := statement) (c := c)).mpr (.inr hc)
  have hbody : entering b statement.body kept = ⟨[], kept⟩ :=
    entering_plain (by rw [hfits.body.2]; rfl)
  have hclause : ∀ clause ∈ statement.clauses, entering b clause.scope kept = thrown kept :=
    fun clause hclause => entering_handler (by rw [(hfits.clauses clause hclause).2.1]; rfl)
  have hsub : kept ⊆ kept := fun _ hv => hv
  -- Behind a part control has gone elsewhere, so what follows may expect what it likes.
  let last : View := if statement.catchAll.isSome then (thrown kept).view else ⟨[], none, kept⟩
  have hlast : last.kept = kept := by dsimp only [last]; split <;> rfl
  let first : View := if statement.clauses = [] then last else (thrown kept).view
  have hfirst : first.kept = kept := by
    dsimp only [first]
    split
    · exact hlast
    · rfl
  refine Flows.append (.place (.refl _) hsub) (.fresh fun start => .start ?_ hsub)
  refine .withHoles fun bodyHoles => ?_
  refine .of_puts (.right (.fresh fun _ => .right (.withHoles fun _ => .right (.fresh fun _ =>
    .right (.place (exitOf b statement.frame) ⟨[], kept⟩))))) fun hexit => ?_
  have hpart : Flows b homes ψ voids (fun l => before l ∨ l = start) kept ⟨[], none, kept⟩
      (guarded b inner s statement.frame statement.body ⟨[], kept⟩ kept statement.bodyExit)
      first := by
    rw [← hbody]
    refine flows_guarded hb hop houter hinner (.head ..)
      (by rw [hfits.body.2]; decide) hfits.body.1
      (fun c hc => ⟨hmem (.inl (mem_map_of_mem hc)), .of_single hfits.bodyExit hc⟩) hfits.frame
      hexit ?_
      (by rw [hfirst]; exact hsub)
    rw [hbody]
    exact .refl _
  refine hpart.append (.fresh fun bodyEnd => ?_)
  have hentries : ∀ clause ∈ statement.clauses, ∀ rest, Puts
      (withHoles statement.id (concat (statement.clauses.map fun clause =>
        guarded b inner s statement.frame clause.scope (thrown kept) kept clause.exit)) rest)
      (entryOf b clause.scope) (thrown kept) := fun clause hmem rest =>
    .withHoles fun _ => .left (.concat hmem (puts_entry _ _).left)
  refine .of_all_puts (fun clause hmem => (hentries clause hmem _).right) fun hψ => ?_
  have hfirst' : kept ⊆ first.kept := by rw [hfirst]; exact hsub
  have hlast' : kept ⊆ last.kept := by rw [hlast]; exact hsub
  refine Flows.append (.append (.border hfirst') (flows_protects (.inr rfl) hfirst' hψ))
    (.withHoles fun clauseHoles => .append (.concat_dead (fun clause hclause' τ hτ => ?_)
      hsub hlast') (.fresh fun clausesEnd => ?_))
  · obtain ⟨hparent, hkind, _, hexits⟩ := hfits.clauses clause hclause'
    rw [← hclause clause hclause']
    exact flows_guarded hb hop houter hinner (hmem (.inr (.inl ⟨clause, hclause', .head ..⟩)))
      (by rw [hkind]; decide) hparent (fun c hc => ⟨hmem (.inr (.inl ⟨clause, hclause',
        .tail _ (mem_map_of_mem hc)⟩)), .of_single hexits hc⟩) hfits.frame hexit
      (.refl _) hτ
  · refine .append (.append (.border hlast') ?_) (.place (.refl _) hsub)
    dsimp only [last]
    cases hall : statement.catchAll with
    | none => exact .nil (.refl _)
    | some handler =>
      obtain ⟨hparent, hkind, _⟩ := hfits.catchAll handler hall
      have hentering : entering b handler kept = thrown kept :=
        entering_handler (by rw [hkind]; rfl)
      refine .of_puts (puts_entry handler (thrown kept)).right fun hhandler => ?_
      refine .append (.protect (.inr rfl) hhandler hsub hsub) ?_
      rw [← hentering]
      refine flows_enclosed hb hop houter hinner (hmem (.inr (.inr hall)))
        (by rw [hkind]; decide) (fun _ x _ hx => ?_) (.refl _)
      rw [hparent] at hx
      cases hx
      exact ends_of_frame (by rw [hfits.frame]; rfl) hexit

/-! ## Switches -/

theorem flows_switchBranch {br : Branch} (huses : br.uses = 1)
    (hfalls : br.fallsThrough = false) (htargets : ∀ l ∈ br.targets, ψ l = some ⟨[], kept⟩)
    (hne : br.targets ≠ []) :
    Flows b homes ψ voids before kept ⟨[w], none, kept⟩ (branch site br) ⟨[], none, kept⟩ := by
  refine .branch (fun _ => ⟨Nat.le_of_eq huses, fun h => absurd h hne⟩) (fun t ht => ?_)
    (fun h => by rw [hfalls] at h; cases h) fun _ hv => hv
  refine ⟨_, htargets t ht, .plain (fun _ => ?_) fun _ hv => hv⟩
  rw [huses]
  rfl

theorem intSwitch_cases (targets : List (Int32 × Label)) (fallback : Label) (asTable : Bool) :
    let br := intSwitch targets fallback asTable
    br.uses = 1 ∧ br.fallsThrough = false ∧ br.targets ≠ [] := by
  dsimp only
  unfold intSwitch
  split
  · dsimp only
    split
    · exact ⟨rfl, rfl, cons_ne_nil _ _⟩
    · exact ⟨rfl, rfl, cons_ne_nil _ _⟩
  · exact ⟨rfl, rfl, cons_ne_nil _ _⟩

theorem flows_intSwitch
    (htargets : ∀ l, SwitchTarget b statement l → ψ l = some ⟨[], kept⟩)
    (key? : CaseKey → Option Int32) (asTable : Bool) :
    Flows b homes ψ voids before kept ⟨[w], none, kept⟩
      (branch site (intSwitch (intTargets b key? statement.arms)
        (fallback b statement) asTable)) ⟨[], none, kept⟩ := by
  obtain ⟨huses, hfalls, hne⟩ := intSwitch_cases (intTargets b key? statement.arms)
    (fallback b statement) asTable
  exact flows_switchBranch huses hfalls (fun l hl => htargets l (switchTarget_intSwitch hl)) hne

theorem flows_toInt {i : Instruction} {ws : List Nat} (hi : i.isPlain)
    (huses : i.uses = 1) (hgives : i.gives = some 1) :
    Flows b homes ψ voids before kept ⟨w :: ws, none, kept⟩ (insn site i) ⟨1 :: ws, none, kept⟩ :=
  .insn (quiet_of_isPlain hi i (.head _)) (fun _ =>
    reshape_one (shuffles_of_isPlain hi) huses hgives w ws) fun _ hv => hv

theorem flows_textTests {selector : Operand} {texts : List (String × Label)}
    (hselector : ∀ ws, Offers b homes voids ⟨ws, none, kept⟩ ws selector.value)
    (hfits : selector.Fits) (htargets : ∀ x ∈ texts, ψ x.2 = some ⟨[], kept⟩) :
    Flows b homes ψ voids before kept ⟨[], none, kept⟩ (textTests b homes site selector texts)
      ⟨[], none, kept⟩ := by
  refine .concat fun x hx => ?_
  have hsub : kept ⊆ kept := fun _ hv => hv
  obtain ⟨w, hload⟩ : ∃ w, Flows b homes ψ voids before kept ⟨[], none, kept⟩
      (load b homes site selector) ⟨[w], none, kept⟩ := exists_flows_load (hselector []) hfits hsub
  have htext : Flows b homes ψ voids before kept ⟨[w], none, kept⟩
      (insns site (Push.string x.1)) ⟨[1, w], none, kept⟩ := by
    obtain ⟨hquiet, hpush⟩ := pushes_literal (.string x.1)
    exact .insns hquiet (fun _ => hpush _) hsub
  have hequals : Flows b homes ψ voids before kept ⟨[1, w], none, kept⟩
      (insn site (.invoke .virtual .stringEquals)) ⟨[1], none, kept⟩ :=
    .insn rfl (fun _ => rfl) hsub
  exact ((hload.append htext).append hequals).append (flows_jumpIf (htargets x hx) hsub)

theorem flows_stringSwitch
    (hselector : ∀ ws, Offers b homes voids ⟨ws, none, kept⟩ ws statement.selector.value)
    (hfits : statement.selector.Fits)
    (htargets : ∀ l, SwitchTarget b statement l → ψ l = some ⟨[], kept⟩) :
    Flows b homes ψ voids before kept ⟨[], none, kept⟩
      (stringSwitch b homes site kept statement.selector statement.arms
        (fallback b statement)) ⟨[], none, kept⟩ := by
  refine .freshFor fun ls hls => ?_
  have hsub : kept ⊆ kept := fun _ hv => hv
  have hputs : ∀ x ∈ ls, Puts (concat (ls.map fun x : Label × Int32 × List (String × Label) =>
      place x.1 ⟨[], kept⟩ ++ textTests b homes site statement.selector x.2.2 ++
        goto site (fallback b statement))) x.1 ⟨[], kept⟩ := fun x hx =>
    .concat hx (Puts.place _ _).left.left
  refine .of_all_puts (fun x hx => (hputs x hx).right) fun hlabels => ?_
  obtain ⟨w, hload⟩ : ∃ w, Flows b homes ψ voids before kept ⟨[], none, kept⟩
      (load b homes site statement.selector) ⟨[w], none, kept⟩ :=
    exists_flows_load (hselector []) hfits hsub
  refine .append (.append (hload.append (flows_toInt rfl rfl rfl))
    (flows_switchBranch rfl rfl (fun l hl => ?_) (cons_ne_nil _ _))) (.concat fun x hx => ?_)
  · rcases mem_cons.mp hl with rfl | hl
    · exact htargets _ switchTarget_fallback
    · simp only [map_map] at hl
      obtain ⟨x, hx, rfl⟩ := mem_map.mp hl
      exact hlabels x hx
  · have hbucket : x.2 ∈ buckets b statement.arms := by
      rw [← hls]
      exact mem_map.mpr ⟨x, hx, rfl⟩
    have hplace : Flows b homes ψ voids before kept ⟨[], none, kept⟩ (place x.1 ⟨[], kept⟩)
        ⟨[], none, kept⟩ := .place (.refl _) hsub
    exact (hplace.append (flows_textTests hselector hfits fun y hy =>
      htargets _ (switchTarget_buckets hbucket hy))).append
      (flows_goto (htargets _ switchTarget_fallback) hsub)

theorem flows_dispatch (hop : .switch statement = op)
    (h : Meets b homes slot status op) (hfits : statement.selector.Fits)
    (haccessor : ∀ type accessor, statement.kind = .enum type accessor →
      accessor.type = ⟨[], some OrdinalTable.rowType⟩)
    (htargets : ∀ l, SwitchTarget b statement l → ψ l = some ⟨[], status.kept⟩) :
    Flows b homes ψ voids before status.kept status.view
      (dispatch b homes site status.kept statement) ⟨[], none, status.kept⟩ := by
  subst hop
  have hsub : status.kept ⊆ status.kept := fun _ hv => hv
  have hmem : statement.selector.value ∈
      (Operation.switch statement).operands.map Operand.value := .head _
  -- Only a switch on an `int` begins with its selector.
  have hselector : (Operation.switch statement).top? = none →
      status.view = ⟨[], none, status.kept⟩ ∧
        ∀ ws, Offers b homes voids ⟨ws, none, status.kept⟩ ws statement.selector.value := by
    intro htop
    have hnil := h.stack_eq_nil Bool.false_ne_true fun v hv => by rw [htop] at hv; cases hv
    have hnot := h.not_stack hmem fun hv => by rw [htop] at hv; cases hv
    refine ⟨by rw [Status.view, hnil]; rfl, fun ws => ?_⟩
    exact ⟨h.available hmem, fun hhome => absurd hhome hnot, fun _ _ => rfl⟩
  obtain ⟨kind, selector, frame, arms, fallthrough⟩ := statement
  unfold dispatch
  cases kind with
  | int =>
    obtain ⟨w, hload⟩ : ∃ w, Flows b homes ψ voids before status.kept status.view
        (load b homes site selector) ⟨[w], none, status.kept⟩ :=
      flows_cond h Bool.false_ne_true rfl hfits
    exact hload.append (flows_intSwitch htargets _ _)
  | enum type accessor =>
    obtain ⟨hview, hoffers⟩ := hselector rfl
    have htype := haccessor type accessor rfl
    have hrow : Flows b homes ψ voids before status.kept ⟨[], none, status.kept⟩
        (insn site (.invoke .static accessor)) ⟨[1], none, status.kept⟩ := by
      refine .insn rfl (fun _ => reshape_push rfl ?_ ?_ []) hsub
      · show 0 + accessor.type.params.length = 0
        rw [htype]
        rfl
      · show accessor.type.returns.map FieldType.width = some 1
        rw [htype]
        rfl
    obtain ⟨w, hload⟩ : ∃ w, Flows b homes ψ voids before status.kept ⟨[1], none, status.kept⟩
        (load b homes site selector) ⟨[w, 1], none, status.kept⟩ :=
      exists_flows_load (hoffers [1]) hfits hsub
    have helement : Flows b homes ψ voids before status.kept ⟨[1, 1], none, status.kept⟩
        (insn site (.arrayLoad (.of (.num .int)))) ⟨[1], none, status.kept⟩ :=
      .insn rfl (fun _ => rfl) hsub
    rw [hview]
    exact (((hrow.append hload).append (flows_toInt rfl rfl rfl)).append helement).append
      (flows_intSwitch htargets _ _)
  | string =>
    obtain ⟨hview, hoffers⟩ := hselector rfl
    rw [hview]
    exact flows_stringSwitch hoffers hfits htargets

/-! ## Operations -/

section operations

variable (hb : b.Sound) (hop : op ∈ b.operations s) (houter : Outer ψ b s status.kept)
  (hinner : ∀ c ∈ op.nested, Outer ψ b c status.kept →
    Flows b homes ψ voids (fun _ => False) status.kept
      (entering b c status.kept).view (inner c (entering b c status.kept)) ⟨[], none, status.kept⟩)

include hb hop houter hinner

theorem flows_switch {statement : SwitchStatement} (hswitch : op = .switch statement)
    (h : Meets b homes slot status op) :
    Flows b homes ψ voids before status.kept status.view
      (switch b homes inner s status statement) ⟨[], none, status.kept⟩ := by
  subst hswitch
  have hfits : b.SwitchFits s statement := hb.fits hop
  have hsub : status.kept ⊆ status.kept := fun _ hv => hv
  have harm : ∀ arm ∈ statement.arms, entering b arm.scope status.kept = ⟨[], status.kept⟩ :=
    fun arm harm => entering_plain (isHandler_of_child (hfits.arms arm harm))
  unfold switch
  dsimp only
  refine .of_puts (Puts.place (exitOf b statement.frame) ⟨[], status.kept⟩).right
    fun hexit => ?_
  refine .of_all_puts (fun arm harm => .left (.right (.concat harm
    (puts_entry arm.scope ⟨[], status.kept⟩).left))) fun hentries => ?_
  have htargets : ∀ l, SwitchTarget b statement l → ψ l = some ⟨[], status.kept⟩ := by
    rintro l (rfl | ⟨arm, harm, rfl⟩)
    · exact hexit
    · exact hentries arm harm
  refine .append (.append (.append (.place (.refl _) hsub) (flows_dispatch rfl h
    (hb.operands hop _ (.head _)) hfits.accessor htargets))
    (.concat fun arm hmem => ?_)) (.place (.refl _) hsub)
  have hscope : Flows b homes ψ voids before status.kept ⟨[], none, status.kept⟩
      (enclosed b inner arm.scope ⟨[], status.kept⟩) ⟨[], none, status.kept⟩ := by
    rw [← harm arm hmem]
    refine flows_enclosed hb hop houter hinner (mem_map_of_mem hmem) (hfits.arms arm hmem).2.2
      (fun _ x _ hx => ?_) (by rw [harm arm hmem]; exact .refl _)
    rw [(hfits.arms arm hmem).1] at hx
    cases hx
    exact ends_of_frame (by rw [hfits.frame]; rfl) hexit
  refine hscope.append ?_
  split
  · exact .nil (.refl _)
  · exact flows_goto hexit hsub

theorem flows_loop {nested : Nat} {update : Option Nat} (hloop : op = .loop nested update)
    (hstatus : status.stack = []) :
    Flows b homes ψ voids before status.kept status.view
      (operation b homes inner s status (.loop nested update)) ⟨[], none, status.kept⟩ := by
  subst hloop
  obtain ⟨hparent, hkind, hupdate⟩ := hb.fits hop
  have hsub : status.kept ⊆ status.kept := fun _ hv => hv
  have hentering : ∀ {c}, (b.kindOf c).isHandler = false → entering b c status.kept = status := by
    intro c hc
    rw [entering_plain hc, ← hstatus]
  have hnested : nested ∈ (loop nested update).nested := .head ..
  refine .of_puts (Puts.place (exitOf b nested) ⟨[], status.kept⟩).right fun hexit => ?_
  refine .of_puts (Puts.place (againOf b nested) ⟨[], status.kept⟩).right.left.left.left
    fun hagain => ?_
  refine .of_puts (Puts.place (entryOf b nested) status).left.left.left.left.left
    fun hentry => ?_
  have hscope : Flows b homes ψ voids before status.kept status.view (inner nested status)
      ⟨[], none, status.kept⟩ := by
    have houter' : Outer ψ b nested status.kept := by
      refine outer_nested hb hop houter hnested fun _ x hx h => ?_
      rcases h with rfl | h
      · exact ⟨hexit, fun _ => hagain⟩
      · rw [hparent] at h
        cases h
        exact absurd (hb.owned_gt (mem_owned hop hx)) (Nat.lt_irrefl _)
    have hflows := hinner nested hnested houter'
    rw [hentering (by rw [hkind]; rfl)] at hflows
    exact hflows.anywhere hsub
  have hupdates : Flows b homes ψ voids before status.kept ⟨[], none, status.kept⟩
      (concat (update.toList.map fun scope => enclosed b inner scope ⟨[], status.kept⟩))
      ⟨[], none, status.kept⟩ := by
    refine .concat fun c hc => ?_
    obtain ⟨_, hkind⟩ := hupdate c (Option.mem_toList.mp hc)
    have hplain : entering b c status.kept = ⟨[], status.kept⟩ :=
      entering_plain (by rw [hkind]; rfl)
    rw [← hplain]
    refine flows_enclosed hb hop houter hinner (.tail _ hc)
      (by rw [hkind]; decide) (fun h => absurd hkind h) (by rw [hplain]; exact .refl _)
  have hback : Flows b homes ψ voids before status.kept ⟨[], none, status.kept⟩
      (goto ⟨s, none⟩ (entryOf b nested)) ⟨[], none, status.kept⟩ := by
    have hback : ψ (entryOf b nested) = some ⟨[], status.kept⟩ := by rw [hentry, ← hstatus]
    exact flows_goto hback hsub
  have hpass : Flows b homes ψ voids before status.kept ⟨[], none, status.kept⟩
      (place (againOf b nested) ⟨[], status.kept⟩) ⟨[], none, status.kept⟩ :=
    .place (.refl _) hsub
  exact (((((Flows.place (.refl _) hsub).append hscope).append hpass).append hupdates).append
    hback).append (.place (.refl _) hsub)

theorem flows_leave {destination : Option Nat} {cleanups : List Cleanup} {final : Plot}
    (hexit : b.ExitFits s destination cleanups) (hnested : op.nested = cleanups.map Cleanup.scope)
    (hempty : cleanups ≠ [] → status.stack = [])
    (hfinal : Flows b homes ψ voids before status.kept status.view final ⟨[], none, status.kept⟩) :
    Flows b homes ψ voids before status.kept status.view (exit b inner status cleanups final)
      ⟨[], none, status.kept⟩ := by
  refine flows_exit hb hop houter hinner (fun c hc => ?_) (fun c hc x hx hp => ?_) rfl hempty
    (fun _ hv => hv) hfinal
  · obtain ⟨f, hcopy, _⟩ := hexit.each c hc
    refine ⟨?_, hcopy.kind⟩
    rw [hnested]
    exact mem_map_of_mem hc
  · obtain ⟨f, hcopy, hguards, _⟩ := hexit.each c hc
    rw [hcopy.parent] at hp
    cases hp
    exact absurd (hb.owned_gt (mem_owned hop hx))
      (Nat.not_lt.mpr (hguards.within.le hb.descends))

theorem flows_ret {value : Option Operand} {cleanups : List Cleanup}
    (hret : op = .ret value cleanups) (h : Meets b homes slot status op) :
    Flows b homes ψ voids before status.kept status.view
      (operation b homes inner s status (.ret value cleanups)) ⟨[], none, status.kept⟩ := by
  subst hret
  obtain ⟨hvalue, hexit⟩ := hb.fits hop
  have hsub : status.kept ⊆ status.kept := fun _ hv => hv
  have hoperands : (ret value cleanups).operands = value.toList := by
    cases value <;> rfl
  have hfits : ∀ o ∈ value.toList, o.Fits := fun o ho =>
    hb.operands hop o (by rw [hoperands]; exact ho)
  have hempty : cleanups ≠ [] → status.stack = [] ∧ (ret value cleanups).top? = none := by
    intro hne
    have htop : (ret value cleanups).top? = none := by
      cases cleanups with
      | nil => exact absurd rfl hne
      | cons c cs => cases value <;> rfl
    exact ⟨h.stack_eq_nil Bool.false_ne_true fun v hv => (by rw [htop] at hv; cases hv), htop⟩
  have hloads : ∃ ws : List Nat, ws.length = value.toList.length ∧
      Flows b homes ψ voids before status.kept status.view
        (loads b homes ⟨s, some none⟩ value.toList) ⟨ws, none, status.kept⟩ := by
    by_cases hnil : cleanups = []
    · refine flows_operands h Bool.false_ne_true hoperands ?_ hfits hsub
      subst hnil
      cases value <;> rfl
    · obtain ⟨hstack, htop⟩ := hempty hnil
      have hplain : ∀ o ∈ value.toList, Available b homes status.view.kept o.value ∧
          homeOf homes o.value ≠ .stack ∧ o.Fits := by
        intro o ho
        have hmem : o.value ∈ (ret value cleanups).operands.map Operand.value := by
          rw [hoperands]
          exact mem_map_of_mem ho
        exact ⟨h.available hmem, h.not_stack hmem fun hv => (by rw [htop] at hv; cases hv),
          hfits o ho⟩
      have hstack : voids → status.view.stack = [] := fun _ => by rw [Status.view, hstack]; rfl
      obtain ⟨ws, hlen, hflows⟩ := flows_loads hplain hstack hsub
      rw [List.append_nil] at hflows
      exact ⟨ws, hlen, hflows⟩
  obtain ⟨ws, hlen, hflows⟩ := hloads
  refine flows_leave hb hop houter hinner hexit rfl (fun hne => (hempty hne).1)
    (hflows.append (.branch (fun _ => ?_) (fun _ h => by cases h) (fun h => by cases h) hsub))
  have huses : (Branch.returning b.method.type.returns).uses = ws.length := by
    rw [hlen]
    cases hr : b.method.type.returns <;> cases value <;> rw [hr] at hvalue <;>
      first | rfl | cases hvalue
  exact ⟨Nat.le_of_eq huses, fun _ => huses.symm⟩

theorem flows_branch {cond : Operand} {whenTrue : Nat} {whenFalse : Option Nat}
    (hbranch : op = .branch cond whenTrue whenFalse) (h : Meets b homes slot status op) :
    Flows b homes ψ voids before status.kept status.view
      (operation b homes inner s status (.branch cond whenTrue whenFalse))
      ⟨[], none, status.kept⟩ := by
  subst hbranch
  obtain ⟨htrue, hfalse⟩ := hb.fits hop
  have hsub : status.kept ⊆ status.kept := fun _ hv => hv
  have hmem : whenTrue ∈ (Operation.branch cond whenTrue whenFalse).nested :=
    mem_append_right _ (.head _)
  obtain ⟨w, hload⟩ : ∃ w, Flows b homes ψ voids before status.kept status.view
      (load b homes ⟨s, none⟩ cond) ⟨[w], none, status.kept⟩ :=
    flows_cond h Bool.false_ne_true rfl (hb.operands hop _ (.head _))
  have hscope : Flows b homes ψ voids before status.kept ⟨[], none, status.kept⟩
      (enclosed b inner whenTrue ⟨[], status.kept⟩) ⟨[], none, status.kept⟩ :=
    flows_child hb hop houter hinner hmem htrue (.refl _)
  have hputs : Puts (enclosed b inner whenTrue ⟨[], status.kept⟩) (exitOf b whenTrue)
      ⟨[], status.kept⟩ := (Puts.place _ _).right
  cases whenFalse with
  | none =>
    refine .of_puts hputs.right fun hexit => ?_
    exact (hload.append (flows_jumpIf hexit hsub)).append hscope
  | some whenFalse =>
    refine .of_puts hputs.right fun hexit => ?_
    refine .of_puts (puts_entry whenTrue ⟨[], status.kept⟩).right fun hentry => ?_
    have hother : Flows b homes ψ voids before status.kept ⟨[], none, status.kept⟩
        (enclosed b inner whenFalse ⟨[], status.kept⟩) ⟨[], none, status.kept⟩ :=
      flows_child hb hop houter hinner (mem_append_left _ (.head _))
        (hfalse whenFalse rfl) (.refl _)
    exact (((hload.append (flows_jumpIf hentry hsub)).append hother).append
      (flows_goto hexit hsub)).append hscope

theorem flows_compound (h : Meets b homes slot status op) (hsimple : ¬ op.isSimple) :
    Flows b homes ψ voids before status.kept status.view (operation b homes inner s status op)
      ⟨[], none, status.kept⟩ := by
  have hfits := hb.fits hop
  have hsub : status.kept ⊆ status.kept := fun _ hv => hv
  have hupdate : b.kindOf s ≠ .loopUpdate := not_update hb hop hsimple
  -- What an operation finds that does not begin with an operand.
  have hempty : ¬ op.isCaught → op.top? = none → status.stack = [] := fun hcaught htop =>
    h.stack_eq_nil hcaught fun v hv => by rw [htop] at hv; cases hv
  have hstatus : status.stack = [] → status = ⟨[], status.kept⟩ := fun hnil => by rw [← hnil]
  have hview : status.stack = [] → status.view = ⟨[], none, status.kept⟩ := fun hnil => by
    rw [Status.view, hnil]
    rfl
  cases op with
  | simple act os result => exact absurd rfl hsimple
  | block nested =>
    have hnil := hempty Bool.false_ne_true rfl
    rw [hview hnil, operation, hstatus hnil]
    exact flows_child hb hop houter hinner (.head ..) hfits (.refl _)
  | branch cond whenTrue whenFalse => exact flows_branch hb hop houter hinner rfl h
  | loop nested update => exact flows_loop hb hop houter hinner rfl (hempty Bool.false_ne_true rfl)
  | exitUnless cond target =>
    obtain ⟨rfl, _⟩ := hfits
    obtain ⟨w, hload⟩ : ∃ w, Flows b homes ψ voids before status.kept status.view
        (load b homes ⟨target, none⟩ cond) ⟨[w], none, status.kept⟩ :=
      flows_cond h Bool.false_ne_true rfl (hb.operands hop _ (.head _))
    obtain ⟨fewer, hψ, hfewer⟩ := houter _ ⟨hupdate, target, .refl, .inl rfl⟩
    exact hload.append (flows_jumpIf hψ hfewer)
  | jump kind target cleanups =>
    have hnil := hempty Bool.false_ne_true rfl
    have hgoto : ∀ l, b.Around s l → Flows b homes ψ voids before status.kept status.view
        (goto ⟨s, some (some target)⟩ l) ⟨[], none, status.kept⟩ := by
      intro l hl
      obtain ⟨fewer, hψ, hfewer⟩ := houter l hl
      rw [hview hnil]
      exact flows_goto hψ hfewer
    refine flows_leave hb hop houter hinner hfits.2.2 rfl (fun _ => hnil) (hgoto _
      ⟨hupdate, target, hfits.1, ?_⟩)
    cases kind with
    | leave => exact .inl rfl
    | again => exact .inr ⟨hfits.2.1 rfl, rfl⟩
  | ret value cleanups => exact flows_ret hb hop houter hinner rfl h
  | throw value =>
    obtain ⟨w, hload⟩ : ∃ w, Flows b homes ψ voids before status.kept status.view
        (load b homes ⟨s, none⟩ value) ⟨[w], none, status.kept⟩ :=
      flows_cond h Bool.false_ne_true rfl (hb.operands hop _ (.head _))
    exact hload.append (.branch (fun _ => ⟨.refl, fun _ => rfl⟩)
      (fun _ h => by cases h) (fun h => by cases h) hsub)
  | tryCatch statement =>
    have hnil := hempty Bool.false_ne_true rfl
    rw [hview hnil, operation, hstatus hnil]
    exact flows_tryCatch hb hop houter hinner
  | switch statement => exact flows_switch hb hop houter hinner rfl h

/-- An operation leads from what it finds to what the next one finds. -/
theorem flows_operation (h : Meets b homes slot status op) (hvoids : voids → op.InitsVoid)
    (hsize : ∀ o ∈ op.operands, o.value < b.values.size) :
    Flows b homes ψ voids before status.kept status.view (operation b homes inner s status op)
      (after b homes status op).view := by
  by_cases hsimple : op.isSimple
  · cases op with
    | simple act os result =>
      exact flows_simple h (hb.fits hop) (fun o ho => hb.operands hop o ho) hsize hvoids
        fun _ hv => hv
    | _ => cases hsimple
  · have hafter : (after b homes status op).view = ⟨[], none, status.kept⟩ := by
      cases op with
      | simple act os result => exact absurd rfl hsimple
      | _ => exact congrArg (View.mk [] none) (List.append_nil _)
    rw [hafter]
    exact flows_compound hb hop houter hinner h hsimple

end operations

/-! ## Bodies -/

section body

open Allocation

theorem operations_of_handler (hb : b.Sound) (hop : op ∈ b.operations s) (hc : c ∈ op.nested)
    (hkind : (b.kindOf c).isHandler) : b.operations c ≠ [] := by
  have hplain : ∀ {kind}, b.kindOf c = kind → kind.isHandler = false → b.operations c ≠ [] := by
    intro kind hk hplain
    rw [hk, hplain] at hkind
    cases hkind
  cases held_of_fits (hb.fits hop) (mem_owned_of_nested hc) with
  | child h | arm _ h => exact hplain rfl (isHandler_of_child h)
  | looped _ hk | update _ _ _ hk => exact hplain hk rfl
  | exit _ h | copy _ _ h => exact hplain h.kind rfl
  | tryFrame h | switchFrame h => exact hplain h.frame rfl
  | part _ _ hpart =>
    rcases hpart with hk | ⟨_, hne⟩
    · exact hplain hk rfl
    · exact hne

/-- What the operations of a scope that are still to come find on the stack. -/
def awaits (b : Body) (homes : Array Home) : List Operation → List (Cell (Option Nat))
  | [] => []
  | op :: _ => finds b homes op

theorem flows_inOrder (hb : b.Sound) {depth : Nat} {l1 ops : List Operation}
    (hops : b.operations s = l1 ++ ops) (halong : Along b s l1 slot status.kept)
    (hhoused : HousedFrom b (reads b) b.allocate.homes (Housed b (reads b) b.allocate.homes depth)
      ops slot)
    (hstack : status.stack = awaits b b.allocate.homes ops) (houter : Outer ψ b s status.kept)
    (hinner : ∀ op ∈ ops, ∀ c ∈ op.nested, ∀ slot kept, Along b c [] slot kept →
      Housed b (reads b) b.allocate.homes depth c slot → Outer ψ b c kept →
      Flows b b.allocate.homes ψ voids (fun _ => False) kept (entering b c kept).view
        (inner c (entering b c kept)) ⟨[], none, kept⟩)
    (hvoids : voids → ∀ op ∈ ops, op.InitsVoid) :
    Flows b b.allocate.homes ψ voids (fun _ => False) status.kept status.view
      (inOrder b b.allocate.homes inner s ops status) ⟨[], none, status.kept⟩ := by
  induction ops generalizing l1 slot status with
  | nil =>
    refine .nil ?_
    rw [Status.view, hstack]
    exact .refl _
  | cons op rest ih =>
    have hop : op ∈ b.operations s := by rw [hops]; simp
    have hmeets : Meets b b.allocate.homes slot status op :=
      halong.meets hb hops hhoused rfl hstack
    have hsize : ∀ o ∈ op.operands, o.value < b.values.size := by
      intro o ho
      obtain ⟨info, hinfo, _⟩ := hb.visible hops o.value
        (mem_append_left _ (mem_map_of_mem ho))
      exact (Array.getElem?_eq_some_iff.mp hinfo).1
    have hscopes : ∀ c ∈ op.nested, Outer ψ b c status.kept →
        Flows b b.allocate.homes ψ voids (fun _ => False) status.kept
          (entering b c status.kept).view (inner c (entering b c status.kept))
          ⟨[], none, status.kept⟩ := by
      intro c hc hout
      have htaken : taken b b.allocate.homes op = 0 := by
        have hdefines : op.defines = [] := by
          cases op with
          | simple act os result => cases hc
          | _ => rfl
        rw [taken, hdefines, wordsOf]
      have hhoused' := hhoused.2.1 c hc
      rw [htaken, Nat.add_zero] at hhoused'
      exact hinner op (.head ..) c hc slot status.kept (halong.enter hb hops hc)
        hhoused' hout
    have hfirst : Flows b b.allocate.homes ψ voids (fun _ => False) status.kept status.view
        (operation b b.allocate.homes inner s status op)
          (after b b.allocate.homes status op).view :=
      flows_operation hb hop houter hscopes hmeets
        (fun hv => hvoids hv op (.head ..)) hsize
    have hkept : status.kept ⊆ (after b b.allocate.homes status op).kept :=
      fun v hv => mem_append_left _ hv
    have hops' : b.operations s = (l1 ++ [op]) ++ rest := by rw [hops]; simp
    have hnext : (after b b.allocate.homes status op).stack = awaits b b.allocate.homes rest := by
      cases rest with
      | nil => exact leaves_last hb halong.region hops
      | cons next rest => exact (finds_next hb halong.region hops).symm
    have hrest := ih hops' (halong.next hb hops hmeets) hhoused.2.2 hnext
      (fun l hl => by
        obtain ⟨fewer, hψ, hfewer⟩ := houter l hl
        exact ⟨fewer, hψ, fun v hv => hkept (hfewer hv)⟩)
      (fun o ho => hinner o (.tail _ ho))
      fun hv o ho => hvoids hv o (.tail _ ho)
    refine hfirst.append ((hrest.anywhere hkept).weaken (.plain (fun _ => rfl) hkept))

/-- By induction on the depth, all that a scope reads is known where it is read. -/
theorem flows_operations (hb : b.Sound) (depth : Nat) (hdepth : b.scopes.size ≤ s + depth)
    (hs : s < b.scopes.size) (hhandler : (b.kindOf s).isHandler → b.operations s ≠ [])
    (halong : Along b s [] slot kept) (hhoused : Housed b (reads b) b.allocate.homes depth s slot)
    (houter : Outer ψ b s kept)
    (hvoids : voids → ∀ t, b.Region 0 t → ∀ op ∈ b.operations t, op.InitsVoid) :
    Flows b b.allocate.homes ψ voids (fun _ => False) kept (entering b s kept).view
      (operations b b.allocate.homes depth s (entering b s kept)) ⟨[], none, kept⟩ := by
  induction depth generalizing s slot kept with
  | zero => omega
  | succ depth ih =>
    refine flows_inOrder hb (List.nil_append _).symm halong hhoused ?_ houter
      (fun op hop c hc slot kept halong' hhoused' houter' => ?_)
      fun hv => hvoids hv s halong.region
    · cases hops : b.operations s with
      | nil =>
        cases hk : (b.kindOf s).isHandler with
        | true => exact absurd hops (hhandler hk)
        | false => rw [entering_plain hk]; rfl
      | cons op rest => exact (finds_first hb halong.region hops).symm
    · have hown := mem_owned hop (mem_owned_of_nested hc)
      have hlt := hb.owned_gt hown
      exact ih (by omega) (hb.owned_lt hown) (operations_of_handler hb hop hc) halong' hhoused'
        houter'

theorem flows_plot (hb : b.Sound)
    (hvoids : voids → ∀ t, b.Region 0 t → ∀ op ∈ b.operations t, op.InitsVoid) :
    Flows b b.allocate.homes ψ voids (fun _ => False) b.params ⟨[], none, b.params⟩
      (b.plot b.allocate.homes) ⟨[], none, b.params⟩ := by
  have hsub : b.params ⊆ b.params := fun _ hv => hv
  refine .of_puts (Puts.place (exitOf b 0) ⟨[], b.params⟩).right fun hexit => ?_
  have houter : Outer ψ b 0 b.params := by
    rintro l ⟨_, x, hx, hl⟩
    cases Nat.le_zero.mp (hx.le hb.descends)
    rcases hl with rfl | ⟨hk, _⟩
    · exact ⟨_, hexit, hsub⟩
    · rw [hb.root] at hk
      cases hk
  have hentering : entering b 0 b.params = ⟨[], b.params⟩ := entering_plain (by rw [hb.root]; rfl)
  have hscope : Flows b b.allocate.homes ψ voids (fun _ => False) b.params
      (entering b 0 b.params).view
      (operations b b.allocate.homes b.scopes.size 0 (entering b 0 b.params))
      ⟨[], none, b.params⟩ :=
    flows_operations hb b.scopes.size (by omega) hb.rooted
      (fun hk => by rw [hb.root] at hk; cases hk) (.root hb) (housed hb) houter hvoids
  rw [hentering] at hscope
  exact ((Flows.place (.refl _) hsub).append hscope).append (.place (.refl _) hsub)

end body
end Plot
end ClassAssembler
