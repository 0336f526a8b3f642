import ClassAssembler.Proofs.Layout.Shape

/-!
# Where the jumps of a plot go

An operation jumps to labels of its own parts, which it places itself, or out of its scope.
-/

namespace ClassAssembler

variable {l : Label} {kept : List Nat} {c n s x : Nat} {op : Operation} {site : Site}

open List Lay Body

namespace Body

/-- The labels that an exit from a scope may go to. Nothing leaves the update of a loop. -/
def Around (b : Body) (s : Nat) (l : Label) : Prop :=
  b.kindOf s ≠ .loopUpdate ∧
    ∃ x, b.Within x s ∧ (l = exitOf b x ∨ b.kindOf x = .loop ∧ l = againOf b x)

variable {b : Body} {s c : Nat} {l : Label}

theorem entry_mem_labelsOf (b : Body) (s : Nat) : entryOf b s ∈ b.labelsOf s := by
  unfold labelsOf
  split <;> exact .head ..

theorem exit_mem_labelsOf (b : Body) (s : Nat) : exitOf b s ∈ b.labelsOf s := by
  unfold labelsOf
  split <;> simp

theorem again_mem_labelsOf (hs : b.kindOf s = .loop) : againOf b s ∈ b.labelsOf s := by
  rw [labelsOf, if_pos hs]
  simp

theorem Around.mem_labelsOf (h : b.Around s l) : ∃ x, b.Within x s ∧ l ∈ b.labelsOf x := by
  obtain ⟨_, x, hx, rfl | ⟨hk, rfl⟩⟩ := h
  · exact ⟨x, hx, exit_mem_labelsOf b x⟩
  · exact ⟨x, hx, again_mem_labelsOf hk⟩

theorem not_update (hb : b.Sound) (hop : op ∈ b.operations s) (hsimple : ¬ op.isSimple) :
    b.kindOf s ≠ .loopUpdate :=
  fun hk => hsimple (hb.updates hop hk)

theorem Nests.outer (hb : b.Sound) (h : b.Nests s op c) (hx : x ∈ b.owned s) (hxc : b.Within x c) :
    x = c ∨ b.parentOf c = some x := by
  have hnot : ¬ b.Within x s := fun hxs =>
    absurd (hxs.le hb.descends) (Nat.not_le.mpr (hb.owned_gt hx))
  cases h with
  | child hp =>
    exact .inl (((Within.iff_parent hp).mp hxc).resolve_right hnot)
  | part _ hp hps _ =>
    rcases (Within.iff_parent hp).mp hxc with heq | hxp
    · exact .inl heq
    rcases (Within.iff_parent hps).mp hxp with rfl | hxs
    · exact .inr hp
    · exact absurd hxs hnot
  | copy hp _ hg =>
    rcases (Within.iff_parent hp).mp hxc with heq | hxf
    · exact .inl heq
    · exact absurd (hxf.trans hg.within) hnot

end Body

namespace Plot

/-! ## Rules -/

open Point

/-- Points of operations of a scope go to labels among them or leave the scope, and jump
back only in loops, if nothing but labels of `rim` is named outside. -/
structure Shaped (b : Body) (s : Nat) (rim : Label → Prop) (ps : List Point) : Prop where
  aims : ∀ l ∈ aimed ps, l ∈ placed ps ∨ b.Around s l
  orderly : ∀ R : Label → Prop, (∀ l ∈ placed ps, R l → rim l) → Orderly R ps

theorem Shaped.before {b : Body} {rim : Label → Prop} {ps qs : List Point}
    (haims : ∀ l ∈ aimed ps, l ∈ placed ps ∨ (l ∈ placed qs ∧ rim l) ∨ b.Around s l)
    (horderly : ∀ R : Label → Prop, (∀ l ∈ placed ps, R l → rim l) → Orderly R ps)
    (hq : Shaped b s rim qs) (hnodup : (placed ps ++ placed qs).Nodup)
    (hlow : ∀ l ∈ placed ps ++ placed qs, ¬ b.Around s l) : Shaped b s rim (ps ++ qs) := by
  have hdisjoint := (nodup_append.mp hnodup).2.2
  refine ⟨fun l hl => ?_, fun R hR => ?_⟩
  · rw [placed_append, mem_append]
    rw [aimed_append, mem_append] at hl
    rcases hl with hl | hl
    · rcases haims l hl with h | ⟨h, _⟩ | h
      · exact .inl (.inl h)
      · exact .inl (.inr h)
      · exact .inr h
    · exact (hq.aims l hl).imp_left .inr
  · rw [placed_append] at hR
    refine .append (horderly R fun l hl => hR l (mem_append_left _ hl))
      (hq.orderly _ fun l hl h => ?_) fun l hl hmem => ?_
    · rcases h with h | h
      · exact hR l (mem_append_right _ hl) h
      rcases haims l h with h | ⟨_, h⟩ | h
      · exact absurd rfl (hdisjoint l h l hl)
      · exact h
      · exact absurd h (hlow l (mem_append_right _ hl))
    · rcases hq.aims l hl with h | h
      · exact absurd rfl (hdisjoint l hmem l h)
      · exact absurd h (hlow l (mem_append_left _ hmem))

/-- A plot has the right shape, provided that it places each label once and none that belongs
to a scope around. -/
def Charts (b : Body) (s : Nat) (rim : Label → Prop) (p : Plot) : Prop :=
  ∀ n, b.nextLabel ≤ n → (placed (p n).points).Nodup →
    (∀ l ∈ placed (p n).points, ¬ b.Around s l) → Shaped b s rim (p n).points

def Sets (p : Plot) (l : Label) : Prop := ∀ n, l ∈ placed (p n).points

section rules

variable {b : Body} {s : Nat} {rim : Label → Prop} {p q : Plot} {l : Label}

theorem Idle.aimed (hp : Idle p) (n : Nat) : Point.aimed (p n).points = [] := by
  refine flatMap_eq_nil_iff.mpr fun pt hpt => ?_
  have hplain := (hp n).2.2 pt hpt
  cases pt with
  | branch br site => cases hplain
  | protect start stop holes handler caught => cases hplain
  | _ => rfl

variable {n : Nat}

theorem mem_concat {α : Type} {as : List α} {p : α → Plot} {pt : Point}
    (h : pt ∈ (concat (as.map p) n).points) : ∃ a ∈ as, ∃ m, pt ∈ (p a m).points := by
  induction as generalizing n with
  | nil => cases h
  | cons a as ih =>
    rcases mem_append.mp h with h | h
    · exact ⟨a, .head .., n, h⟩
    · obtain ⟨a', ha', m, hm⟩ := ih h
      exact ⟨a', .tail _ ha', m, hm⟩

theorem aimed_concat {α : Type} {as : List α} {p : α → Plot}
    (h : l ∈ aimed (concat (as.map p) n).points) : ∃ a ∈ as, ∃ m, l ∈ aimed (p a m).points := by
  obtain ⟨pt, hpt, hl⟩ := mem_flatMap.mp h
  obtain ⟨a, ha, m, hm⟩ := mem_concat hpt
  exact ⟨a, ha, m, mem_flatMap.mpr ⟨pt, hm, hl⟩⟩

theorem placed_concat {α : Type} {as : List α} {p : α → Plot}
    (h : l ∈ placed (concat (as.map p) n).points) : ∃ a ∈ as, ∃ m, l ∈ placed (p a m).points := by
  obtain ⟨status, hpt⟩ := mem_placed.mp h
  obtain ⟨a, ha, m, hm⟩ := mem_concat hpt
  exact ⟨a, ha, m, mem_placed.mpr ⟨status, hm⟩⟩

theorem Sets.left (h : Sets p l) : Sets (p ++ q) l := fun n => by
  rw [append_apply, placed_append]
  exact mem_append_left _ (h n)

theorem Sets.right (h : Sets q l) : Sets (p ++ q) l := fun n => by
  rw [append_apply, placed_append]
  exact mem_append_right _ (h _)

theorem sets_label (l : Label) (status : Option Status) : Sets (point (.label l status)) l :=
  fun _ => .head _

theorem Sets.fresh {p : Label → Plot} (h : ∀ x, Sets (p x) l) : Sets (fresh p) l :=
  fun n => h ⟨n⟩ (n + 1)

theorem Sets.withHoles {id : Nat} {rest : List (Label × Label) → Plot}
    (h : ∀ hs, Sets (p ++ rest hs) l) : Sets (withHoles id p rest) l :=
  fun n => h ((p n).holesOf id) n

theorem Sets.concat {α : Type} {as : List α} {p : α → Plot} {a : α} (ha : a ∈ as)
    (h : Sets (p a) l) : Sets (concat (as.map p)) l :=
  concat_of_mem (P := (Sets · l)) .left .right ha h

namespace Charts

theorem append (hle : ∀ n, n ≤ (p n).next)
    (haims : ∀ n, b.nextLabel ≤ n → ∀ l ∈ aimed (p n).points, l ∈ placed (p n).points ∨
      (Sets q l ∧ rim l) ∨ b.Around s l)
    (horderly : ∀ n, b.nextLabel ≤ n → ∀ R : Label → Prop,
      (∀ l ∈ placed (p n).points, R l → rim l) → Orderly R (p n).points)
    (hq : Charts b s rim q) : Charts b s rim (p ++ q) := by
  intro n hn hnodup hlow
  simp only [append_apply, placed_append] at hnodup hlow ⊢
  refine Shaped.before (fun l hl => ?_) (horderly n hn) (hq _ (Nat.le_trans hn (hle n))
    (nodup_append.mp hnodup).2.1 fun l hl => hlow l (mem_append_right _ hl)) hnodup hlow
  exact (haims n hn l hl).imp_right (.imp_left fun h => ⟨h.1 _, h.2⟩)

theorem nil : Charts b s rim nil := fun _ _ _ _ =>
  ⟨fun _ h => (by cases h), fun _ _ => .of_no_aims rfl⟩

theorem idle (hp : Idle p) (hq : Charts b s rim q) : Charts b s rim (p ++ q) := by
  refine .append (fun n => (hp.places n).1) (fun n _ l hl => ?_)
    (fun n _ R _ => .of_no_aims (hp.aimed n)) hq
  rw [hp.aimed n] at hl
  cases hl

theorem label {status : Option Status} (hq : Charts b s rim q) :
    Charts b s rim (point (.label l status) ++ q) :=
  .append (fun _ => Nat.le_refl _) (fun _ _ l hl => by cases hl)
    (fun _ _ _ _ => .of_no_aims rfl) hq

theorem place (l : Label) (status : Status) : Charts b s rim (place l status) := by
  rw [← append_nil (Plot.place l status)]
  exact .label .nil

theorem branch {br : Branch} (haims : ∀ l ∈ br.targets, (Sets q l ∧ rim l) ∨ b.Around s l)
    (hq : Charts b s rim q) :
    Charts b s rim (Plot.branch site br ++ q) := by
  refine .append (fun _ => Nat.le_refl _) (fun n _ l hl => .inr (haims l ?_))
    (fun _ _ _ _ => .of_no_labels rfl) hq
  rwa [← List.append_nil br.targets]

theorem protect {start stop handler : Label} {holes : List (Label × Label)}
    {caught : Option ClassName} (hsets : Sets q handler) (hrim : rim handler)
    (hq : Charts b s rim q) :
    Charts b s rim (point (.protect start stop holes handler caught) ++ q) := by
  refine .append (fun _ => Nat.le_refl _) (fun n _ l hl => ?_)
    (fun _ _ _ _ => .of_no_labels rfl) hq
  cases mem_singleton.mp hl
  exact .inr (.inl ⟨hsets, hrim⟩)

theorem concat {α : Type} {as : List α} {p : α → Plot} {H : Plot → Prop}
    (hH : ∀ {p q}, H q → H (p ++ q)) (hp : ∀ a ∈ as, ∀ {q}, H q → Charts b s rim q →
      Charts b s rim (p a ++ q)) (hbehind : H q) (hq : Charts b s rim q) :
    Charts b s rim (concat (as.map p) ++ q) := by
  induction as with
  | nil => exact hq
  | cons a as ih =>
    rw [map_cons, concat_cons, append_assoc]
    exact hp a (.head ..) (hH hbehind) (ih fun a ha => hp a (.tail _ ha))

theorem mark {hole : Hole} (hq : Charts b s rim q) : Charts b s rim (mark hole ++ q) := hq

theorem fresh {p : Label → Plot} (h : ∀ l, Charts b s rim (p l)) : Charts b s rim (fresh p) :=
  fun n hn => h ⟨n⟩ (n + 1) (Nat.le_succ_of_le hn)

theorem hole {owners : List Nat} {part : Plot}
    (h : ∀ l m, Charts b s rim (part ++ (border l ++ (Plot.mark m ++ q)))) :
    Charts b s rim (hole owners part ++ q) := by
  show Charts b s rim (Plot.fresh fun start => Plot.fresh fun stop =>
    border start ++ part ++ border stop ++ Plot.mark ⟨owners, start, stop⟩ ++ q)
  refine fresh fun start => fresh fun stop => ?_
  have hlabel : Charts b s rim (border start ++
      (part ++ (border stop ++ (Plot.mark ⟨owners, start, stop⟩ ++ q)))) := label (h _ _)
  rw [← append_assoc, ← append_assoc, ← append_assoc] at hlabel
  exact hlabel

theorem withHoles {id : Nat} {rest : List (Label × Label) → Plot}
    (h : ∀ hs, Charts b s rim (p ++ rest hs)) : Charts b s rim (withHoles id p rest) :=
  fun n => h ((p n).holesOf id) n

end Charts
end rules

/-! ## Scopes -/

section scopes

variable {b : Body} {inner : Inner} {depth s : Nat} {op : Operation}

def Rim (b : Body) (op : Operation) (l : Label) : Prop := ∃ c ∈ op.owned, l ∈ b.labelsOf c

theorem rim_entry (hc : c ∈ op.owned) : Rim b op (entryOf b c) :=
  ⟨c, hc, entry_mem_labelsOf b c⟩

theorem rim_exit (hc : c ∈ op.owned) : Rim b op (exitOf b c) :=
  ⟨c, hc, exit_mem_labelsOf b c⟩

structure Hosts (b : Body) (x : Nat) (q : Plot) : Prop where
  exit : Sets q (exitOf b x)
  again : b.kindOf x = .loop → Sets q (againOf b x)

theorem Hosts.right {p q : Plot} (h : Hosts b x q) : Hosts b x (p ++ q) :=
  ⟨h.exit.right, fun hk => (h.again hk).right⟩

theorem hosts_of_frame {q : Plot} (hx : (b.kindOf x).isFrame) (h : Sets q (exitOf b x)) :
    Hosts b x q :=
  ⟨h, fun hk => by rw [hk] at hx; cases hx⟩

variable (hb : b.Sound) (hop : op ∈ b.operations s)
  (hplaces : ∀ c status, Places (inner c status) ((b.scopesIn depth c).flatMap b.labelsOf))
  (hinner : ∀ c status n, c < b.scopes.size → b.nextLabel ≤ n →
    Shaped b c (fun _ => False) (inner c status n).points)

include hb hop hplaces in
theorem not_rim {status : Status} (hc : c ∈ op.owned) (hn : b.nextLabel ≤ n)
    (hl : l ∈ placed (inner c status n).points) : ¬ Rim b op l := by
  rintro ⟨d, hd, hld⟩
  have hc' : c ∈ b.owned s := mem_owned hop hc
  have hd' : d ∈ b.owned s := mem_owned hop hd
  rcases (hplaces c status).mem_placed_iff.mp hl with hl | ⟨hge, _⟩
  · obtain ⟨e, he, hle⟩ := mem_flatMap.mp hl
    have hin := inside_of_mem_scopesIn he
    cases labelsOf_unique hb (hin.region.lt_size hb (hb.owned_lt hc')) (hb.owned_lt hd') hle hld
    exact hin.not_owned hb hc' hd'
  · have hlt := labelsOf_lt hb (hb.owned_lt hd') hld
    omega

variable {q : Plot} {c : Nat} {status : Status}

include hb hop hplaces hinner

/-- An inner scope can stand in front of a plot that has the right shape. -/
theorem charts_inner (hc : c ∈ op.owned)
    (hhosts : b.kindOf c ≠ .loopUpdate → ∀ x ∈ op.owned, x = c ∨ b.parentOf c = some x →
      Hosts b x q)
    (hq : Charts b s (Rim b op) q) : Charts b s (Rim b op) (inner c status ++ q) := by
  have hshaped := fun n => hinner c status n (hb.owned_lt (mem_owned hop hc))
  have hs : b.kindOf s ≠ .loopUpdate := not_update hb hop fun hsimple => by
    cases op with
    | simple act os result => cases hc
    | _ => cases hsimple
  refine .append (fun n => (hplaces c status n).1) (fun n hn l hl => ?_)
    (fun n hn R hR => (hshaped n hn).orderly R fun l hl hRl => ?_) hq
  · rcases (hshaped n hn).aims l hl with h | ⟨hupdate, x, hx, hl⟩
    · exact .inl h
    · rcases (nests hb hop hc).within hc hx with hown | hx
      · have hxs := hhosts hupdate x hown
          ((nests hb hop hc).outer hb (mem_owned hop hown) hx)
        refine .inr (.inl ?_)
        rcases hl with rfl | ⟨hk, rfl⟩
        · exact ⟨hxs.exit, rim_exit hown⟩
        · exact ⟨hxs.again hk, x, hown, again_mem_labelsOf hk⟩
      · exact .inr (.inr ⟨hs, x, hx, hl⟩)
  · exact not_rim hb hop hplaces hc hn hl (hR l hl hRl)

theorem charts_enclosed (hc : c ∈ op.owned) (hloop : b.kindOf c ≠ .loop)
    (hparent : b.kindOf c ≠ .loopUpdate → ∀ x ∈ op.owned, b.parentOf c = some x → Hosts b x q)
    (hq : Charts b s (Rim b op) q) : Charts b s (Rim b op) (enclosed b inner c status ++ q) := by
  unfold enclosed
  rw [append_assoc, append_assoc]
  refine .label (charts_inner hb hop hplaces hinner hc (fun hc x hx h => ?_) (.label hq))
  rcases h with rfl | h
  · exact ⟨(sets_label _ _).left, fun hk => absurd hk hloop⟩
  · exact (hparent hc x hx h).right

variable {cleanups : List Cleanup}

section

variable (hmem : ∀ c ∈ cleanups, c.scope ∈ op.owned ∧ b.kindOf c.scope = .finallyCopy)
include hmem

theorem charts_cleanupsFrom
    (hparent : ∀ c ∈ cleanups, ∀ x ∈ op.owned, b.parentOf c.scope = some x → Hosts b x q)
    (hq : Charts b s (Rim b op) q) (before : List Nat) :
    Charts b s (Rim b op) (cleanupsFrom b inner status before cleanups ++ q) := by
  induction cleanups generalizing before with
  | nil => exact hq
  | cons cleanup rest ih =>
    have hrest := ih (fun c hc => hmem c (.tail _ hc))
      (fun c hc => hparent c (.tail _ hc)) (before ++ [cleanup.owner])
    obtain ⟨hown, hkind⟩ := hmem cleanup (.head ..)
    unfold cleanupsFrom
    rw [append_assoc]
    refine .hole fun l m => charts_enclosed hb hop hplaces hinner hown
      (by rw [hkind]; decide) (fun _ x hx hp => ?_) (.label (.mark hrest))
    exact (hparent cleanup (.head ..) x hx hp).right.right.right

/-- The copies of an exit, and then the jump itself. -/
theorem charts_exit {p : Plot} {br : Branch}
    (hparent : ∀ c ∈ cleanups, ∀ x ∈ op.owned, b.parentOf c.scope = some x → Hosts b x q)
    (hp : Idle p) (haims : ∀ l ∈ br.targets, (Sets q l ∧ Rim b op l) ∨ b.Around s l)
    (hq : Charts b s (Rim b op) q) :
    Charts b s (Rim b op) (exit b inner status cleanups (p ++ branch site br) ++ q) := by
  unfold exit
  rw [append_assoc]
  refine charts_cleanupsFrom hb hop hplaces hinner hmem
    (fun c hc x hx h => (hparent c hc x hx h).right) (.hole fun l m => ?_) []
  rw [append_assoc]
  refine .idle hp (.branch (fun l hl => ?_) (.label (.mark hq)))
  exact (haims l hl).imp_left fun h => ⟨h.1.right.right, h.2⟩

end

theorem charts_guarded {frame part : Nat} (hpart : part ∈ op.owned) (hloop : b.kindOf part ≠ .loop)
    (hparent : b.parentOf part = some frame) (hframe : frame ∈ op.owned)
    (hcopies : ∀ c ∈ cleanups, c.scope ∈ op.owned ∧ b.CopyOf frame c) (hhosts : Hosts b frame q)
    (hq : Charts b s (Rim b op) q) :
    Charts b s (Rim b op) (guarded b inner s frame part status kept cleanups ++ q) := by
  have hcopy : ∀ {c x}, b.parentOf c = some frame → b.parentOf c = some x → Hosts b x q := by
    intro c x hc hx
    rw [hc] at hx
    cases hx
    exact hhosts
  unfold guarded
  rw [append_assoc]
  refine charts_enclosed hb hop hplaces hinner hpart hloop
    (fun _ x _ hx => (hcopy hparent hx).right) ?_
  rw [← nil_append (goto _ _)]
  refine charts_exit hb hop hplaces hinner (fun c hc => ⟨(hcopies c hc).1, (hcopies c hc).2.kind⟩)
    (fun c hc x _ hx => hcopy (hcopies c hc).2.parent hx) .nil (fun l hl => ?_) hq
  cases mem_singleton.mp hl
  exact .inl ⟨hhosts.exit, rim_exit hframe⟩

end scopes

/-! ## Operations -/

section operations

variable {b : Body} {inner : Inner} {depth s : Nat}
  (hb : b.Sound)
  (hplaces : ∀ c status, Places (inner c status) ((b.scopesIn depth c).flatMap b.labelsOf))
  (hinner : ∀ c status n, c < b.scopes.size → b.nextLabel ≤ n →
    Shaped b c (fun _ => False) (inner c status n).points)

variable {rim : Label → Prop} {q : Plot} {l : Label} {n : Nat}

theorem charts_decision (site : Site) (kept : List Nat) (test : Test) (hq : Charts b s rim q) :
    Charts b s rim (decision site kept test ++ q) := by
  refine .append (fun n => (places_decision site kept test n).1) (fun n _ l hl => .inl hl)
    (fun n _ R _ => ?_) hq
  -- Both jumps stand above both labels.
  show Orderly R ([_, _, _] ++ [_, _, _])
  exact .append (.of_no_labels rfl) (.of_no_aims rfl) fun l hl => by cases hl

theorem charts_simple (homes : Array Home) (site : Site)
    (kept : List Nat) (act : Action) (os : List Operand) (result : Option Nat)
    (hq : Charts b s rim q) : Charts b s rim (simple b homes site kept act os result ++ q) := by
  unfold simple
  rw [append_assoc]
  have hsettle : Charts b s rim (settle b homes site result ++ q) :=
    .idle (idle_settle site result) hq
  by_cases hact : ∀ lead test, act ≠ .compare lead test
  · exact .idle (idle_action site kept os hact) hsettle
  · cases act with
    | compare lead test =>
      rw [action, append_assoc, append_assoc]
      exact .idle (idle_loads site os) (.idle (idle_insns site _)
        (charts_decision site kept test hsettle))
    | _ => exact absurd (fun _ _ h => by cases h) hact

theorem charts_protects {clauses : List CatchClause}
    (h : ∀ clause ∈ clauses, Sets q (entryOf b clause.scope) ∧
      rim (entryOf b clause.scope)) (start stop : Label) (holes : List (Label × Label))
    (hq : Charts b s rim q) : Charts b s rim (protects b start stop holes clauses ++ q) := by
  unfold protects
  exact .concat (H := fun q => ∀ clause ∈ clauses, Sets q (entryOf b clause.scope))
    (fun hsets clause hclause => (hsets clause hclause).right)
    (fun clause hclause _ hsets => .protect (hsets clause hclause) (h clause hclause).2)
    (fun clause hclause => (h clause hclause).1) hq

theorem sets_entry (c : Nat) (status : Status) :
    Sets (enclosed b inner c status) (entryOf b c) := (sets_label _ _).left.left

include hb hplaces hinner in
/-- A try statement goes to labels of its own, or leaves the scope. -/
theorem charts_tryCatch {statement : TryStatement} (hop : .tryCatch statement ∈ b.operations s)
    (status : Status) :
    Charts b s (Rim b (.tryCatch statement)) (tryCatch b inner s status statement) := by
  have hfits : b.TryFits s statement := hb.fits hop
  have hframe : statement.frame ∈ (Operation.tryCatch statement).owned := .head ..
  have hmem := fun {c} hc => mem_owned_of_nested
    ((Operation.mem_nested_tryCatch (T := statement) (c := c)).mpr hc)
  have hhosts : ∀ {q}, Sets q (exitOf b statement.frame) → Hosts b statement.frame q :=
    fun h => hosts_of_frame (by rw [hfits.frame]; rfl) h
  -- The handler of all exceptions, and the end of the statement.
  have hlast : ∀ start stop holes, Charts b s (Rim b (.tryCatch statement))
      (catchAll b inner status.kept start stop holes statement.catchAll ++
        place (exitOf b statement.frame) ⟨[], status.kept⟩) := by
    intro start stop holes
    cases hall : statement.catchAll with
    | none => exact .place _ _
    | some handler =>
      obtain ⟨hp, hkind, _⟩ := hfits.catchAll handler hall
      have hown := hmem (.inr (.inr (.inr hall)))
      unfold catchAll
      rw [append_assoc]
      refine .protect (sets_entry handler _).left (rim_entry hown)
        (charts_enclosed hb hop hplaces hinner hown (by rw [hkind]; decide)
          (fun _ x _ hx => ?_) (.place _ _))
      rw [hp] at hx
      cases hx
      exact hhosts (sets_label _ _)
  have hclauses : ∀ q : Plot, Hosts b statement.frame q →
      Charts b s (Rim b (.tryCatch statement)) q →
      Charts b s (Rim b (.tryCatch statement)) (concat (statement.clauses.map fun clause =>
        guarded b inner s statement.frame clause.scope (thrown status.kept) status.kept
          clause.exit) ++ q) := by
    refine fun _ => .concat (H := Hosts b statement.frame) .right fun clause hclause _ hhosts => ?_
    obtain ⟨hp, hkind, _, hexit⟩ := hfits.clauses clause hclause
    exact charts_guarded hb hop hplaces hinner
      (hmem (.inr (.inr (.inl ⟨clause, hclause, .head ..⟩))))
      (by rw [hkind]; decide) hp hframe
      (fun c hc => ⟨hmem (.inr (.inr (.inl ⟨clause, hclause, mem_cons_of_mem _
        (mem_map_of_mem hc)⟩))), .of_single hexit hc⟩) hhosts
  refine .label (.fresh fun start => .label (.withHoles fun bodyHoles => ?_))
  refine charts_guarded hb hop hplaces hinner (hmem (.inl rfl))
    (by rw [hfits.body.2]; decide) hfits.body.1 hframe
    (fun c hc => ⟨hmem (.inr (.inl (mem_map_of_mem hc))), .of_single hfits.bodyExit hc⟩) ?_ ?_
  · exact hhosts (.fresh fun _ => .right (.withHoles fun _ => .right (.fresh fun _ =>
      (sets_label _ _).right)))
  · refine .fresh fun bodyEnd => ?_
    rw [append_assoc]
    refine .label (charts_protects (fun clause hclause => ⟨?_, rim_entry (hmem
      (.inr (.inr (.inl ⟨clause, hclause, .head ..⟩))))⟩) _ _ _
      (.withHoles fun clauseHoles => hclauses _ ?_ ?_))
    · exact .withHoles fun _ => (Sets.concat hclause (sets_entry _ _).left).left
    · exact hhosts (.fresh fun _ => (sets_label _ _).right)
    · refine .fresh fun clausesEnd => ?_
      rw [append_assoc]
      exact .label (hlast _ _ _)

/-! ## Switches -/

def SwitchTarget (b : Body) (statement : SwitchStatement) (l : Label) : Prop :=
  l = exitOf b statement.frame ∨ ∃ arm ∈ statement.arms, l = entryOf b arm.scope

variable {statement : SwitchStatement}

theorem switchTarget_fallback : SwitchTarget b statement (fallback b statement) := by
  unfold fallback
  split
  · rename_i arm harm
    exact .inr ⟨arm, mem_of_find?_eq_some harm, rfl⟩
  · exact .inl rfl

theorem switchTarget_intTargets {key? : CaseKey → Option Int32}
    (hl : l ∈ (intTargets b key? statement.arms).map Prod.snd) : SwitchTarget b statement l := by
  obtain ⟨x, hx, rfl⟩ := mem_map.mp hl
  obtain ⟨arm, harm, hx⟩ := mem_flatMap.mp (mem_mergeSort.mp hx)
  obtain ⟨key, _, rfl⟩ := mem_map.mp hx
  exact .inr ⟨arm, harm, rfl⟩

theorem switchTarget_intSwitch {key? : CaseKey → Option Int32} {asTable : Bool}
    (hl : l ∈ (intSwitch (intTargets b key? statement.arms)
      (fallback b statement) asTable).targets) : SwitchTarget b statement l := by
  unfold intSwitch at hl
  split at hl
  · dsimp only at hl
    split at hl
    · rcases mem_cons.mp hl with rfl | hl
      · exact switchTarget_fallback
      obtain ⟨i, _, rfl⟩ := mem_map.mp hl
      cases hlook : (intTargets b key? statement.arms).lookup _ with
      | none => exact switchTarget_fallback
      | some l =>
        obtain ⟨l1, l2, heq, _⟩ := lookup_eq_some_iff.mp hlook
        have hmem : l ∈ (intTargets b key? statement.arms).map Prod.snd := by
          rw [heq]
          simp
        exact switchTarget_intTargets hmem
    · rcases mem_cons.mp hl with rfl | hl
      · exact switchTarget_fallback
      · exact switchTarget_intTargets hl
  · rcases mem_cons.mp hl with rfl | hl
    · exact switchTarget_fallback
    · cases hl

theorem mem_groups {α β : Type} [DecidableEq α] {pairs : List (α × β)} {g : α × List β} {x : β}
    (hg : g ∈ groups pairs) (hx : x ∈ g.2) : (g.1, x) ∈ pairs := by
  induction pairs generalizing g with
  | nil => cases hg
  | cons pair pairs ih =>
    have hstep : ∀ {g : α × List β}, g = (pair.1, [pair.2]) → x ∈ g.2 → (g.1, x) ∈ pair ::
      pairs := by
      rintro g rfl hx
      rw [mem_singleton.mp hx]
      exact .head ..
    unfold groups at hg ih
    rw [foldr_cons] at hg
    dsimp only at hg
    split at hg
    · rename_i key bs rest hrest
      rw [hrest] at ih
      split at hg
      · rename_i hkey
        rcases mem_cons.mp hg with rfl | hg
        · rcases mem_cons.mp hx with rfl | hx
          · rw [← hkey]
            exact .head ..
          · have hin := ih (g := (key, bs)) (.head ..) hx
            exact .tail _ hin
        · exact .tail _ (ih (.tail _ hg) hx)
      · rw [hrest] at hg
        rcases mem_cons.mp hg with hg | hg
        · exact hstep hg hx
        · exact .tail _ (ih hg hx)
    · exact hstep (mem_singleton.mp hg) hx

theorem switchTarget_buckets {bucket : Int32 × List (String × Label)} {x : String × Label}
    (hbucket : bucket ∈ buckets b statement.arms) (hx : x ∈ bucket.2) :
    SwitchTarget b statement x.2 := by
  have hmem := mem_mergeSort.mp (mem_groups hbucket hx)
  obtain ⟨y, hy, heq⟩ := mem_map.mp hmem
  obtain rfl : y = x := congrArg Prod.snd heq
  obtain ⟨arm, harm, hx⟩ := mem_flatMap.mp hy
  obtain ⟨key, _, hkey⟩ := mem_filterMap.mp hx
  refine .inr ⟨arm, harm, ?_⟩
  split at hkey
  · cases hkey
    rfl
  · cases hkey

theorem freshFor_apply {α : Type} (as : List α) (p : List (Label × α) → Plot) (n : Nat) :
    ∃ ls m, ls.map Prod.snd = as ∧ (∀ x ∈ ls, n ≤ x.1.index) ∧ freshFor as p n = p ls m := by
  induction as generalizing p n with
  | nil => exact ⟨[], n, rfl, fun x hx => (by cases hx), rfl⟩
  | cons a as ih =>
    obtain ⟨ls, m, hsnd, hge, heq⟩ := ih (fun rest => p ((⟨n⟩, a) :: rest)) (n + 1)
    refine ⟨(⟨n⟩, a) :: ls, m, by rw [map_cons, hsnd], fun x hx => ?_, heq⟩
    rcases mem_cons.mp hx with rfl | hx
    · exact Nat.le_refl _
    · exact Nat.le_of_succ_le (hge x hx)

theorem aimed_bucket {homes : Array Home} {bucket : Label × Int32 × List (String × Label)}
    (hbucket : bucket.2 ∈ buckets b statement.arms) (hl : l ∈ aimed ((place bucket.1 ⟨[], kept⟩ ++
      textTests b homes site statement.selector bucket.2.2 ++
      goto site (fallback b statement)) n).points) : SwitchTarget b statement l := by
  simp only [append_apply, aimed_append, mem_append] at hl
  rcases hl with (hl | hl) | hl
  · cases hl
  · obtain ⟨x, hx, m, hl⟩ := aimed_concat hl
    simp only [append_apply, aimed_append, (idle_load site _).aimed, (idle_insns site _).aimed,
      (idle_insn site _).aimed, List.nil_append] at hl
    cases mem_singleton.mp hl
    exact switchTarget_buckets hbucket hx
  · cases mem_singleton.mp hl
    exact switchTarget_fallback

theorem placed_bucket {homes : Array Home} {selector : Operand} {label fallback : Label}
    {texts : List (String × Label)}
    (hl : l ∈ placed ((place label ⟨[], kept⟩ ++ textTests b homes site selector texts ++
      goto site fallback) n).points) : l = label := by
  simp only [append_apply, placed_append, mem_append] at hl
  rcases hl with (hl | hl) | hl
  · exact mem_singleton.mp hl
  · obtain ⟨x, _, m, hl⟩ := placed_concat hl
    simp only [append_apply, placed_append, (idle_load site _).placed, (idle_insns site _).placed,
      (idle_insn site _).placed, List.nil_append] at hl
    cases hl
  · cases hl

section

variable (homes : Array Home) (site : Site) (kept : List Nat)
include homes

theorem stringSwitch_points (selector : Operand) (arms : List Arm) (fallback : Label) (n : Nat) :
    ∃ (ls : List (Label × Int32 × List (String × Label))) (m : Nat) (head : List Point),
      ls.map Prod.snd = buckets b arms ∧ (∀ x ∈ ls, n ≤ x.1.index) ∧
      placed head = [] ∧ aimed head = fallback :: ls.map Prod.fst ∧
      (stringSwitch b homes site kept selector arms fallback n).points =
        head ++ (concat (ls.map fun x => place x.1 ⟨[], kept⟩ ++
          textTests b homes site selector x.2.2 ++ goto site fallback) m).points := by
  obtain ⟨ls, m, hls, hge, heq⟩ := freshFor_apply (buckets b arms) _ n
  refine ⟨ls, _, _, hls, hge, ?_, ?_, congrArg Stretch.points heq⟩
  · simp only [append_apply, placed_append, (idle_load site _).placed, (idle_insn site _).placed]
    rfl
  · simp only [append_apply, aimed_append, (idle_load site _).aimed, (idle_insn site _).aimed]
    simp [branch, point, aimed, aims, Branch.targets, Function.comp_def]

/-- A string switch jumps to its arms, its fallback or labels of its own. -/
theorem charts_stringSwitch (htargets : ∀ l, SwitchTarget b statement l →
      (Sets q l ∧ rim l) ∧ l.index < b.nextLabel)
    (hq : Charts b s rim q) :
    Charts b s rim (stringSwitch b homes site kept statement.selector statement.arms
      (fallback b statement) ++ q) := by
  refine .append (fun n => (places_stringSwitch site kept _ _ _ n).1) (fun n hn l hl => ?_)
    (fun n hn R _ => ?_) hq
  all_goals
    obtain ⟨ls, m, head, hls, hge, hplaced, haimed, heq⟩ := stringSwitch_points (b := b) homes site
      kept statement.selector statement.arms (fallback b statement) n
    have hbuckets : ∀ x ∈ ls, x.2 ∈ buckets b statement.arms := fun x hx => by
      rw [← hls]
      exact mem_map.mpr ⟨x, hx, rfl⟩
  · rw [heq, aimed_append, mem_append, haimed] at hl
    rcases hl with hl | hl
    · rcases mem_cons.mp hl with rfl | hl
      · exact .inr (.inl (htargets _ switchTarget_fallback).1)
      · obtain ⟨x, hx, rfl⟩ := mem_map.mp hl
        rw [heq, placed_append]
        exact .inl (mem_append_right _ (Sets.concat hx (sets_label _ _).left.left m))
    · obtain ⟨x, hx, k, hl⟩ := aimed_concat hl
      exact .inr (.inl (htargets l (aimed_bucket (hbuckets x hx) hl)).1)
  · -- The labels of the arms are older than those of the buckets.
    rw [heq]
    refine .append (.of_no_labels hplaced) (.of_apart fun l hl hmem => ?_)
      fun l _ hl => by rw [hplaced] at hl; cases hl
    obtain ⟨x, hx, k, hl⟩ := aimed_concat hl
    obtain ⟨y, hy, k', hmem⟩ := placed_concat hmem
    have hlt := (htargets l (aimed_bucket (hbuckets x hx) hl)).2
    rw [placed_bucket hmem] at hlt
    have hle := hge y hy
    omega

theorem charts_dispatch (htargets : ∀ l, SwitchTarget b statement l →
      (Sets q l ∧ rim l) ∧ l.index < b.nextLabel)
    (hq : Charts b s rim q) :
    Charts b s rim (dispatch b homes site kept statement ++ q) := by
  unfold dispatch
  dsimp only
  split
  · rw [append_assoc]
    exact .idle (idle_load site _) (.branch (fun l hl =>
      .inl (htargets l (switchTarget_intSwitch hl)).1) hq)
  · simp only [append_assoc]
    exact .idle (idle_insn site _) (.idle (idle_load site _) (.idle (idle_insn site _)
      (.idle (idle_insn site _) (.branch (fun l hl =>
        .inl (htargets l (switchTarget_intSwitch hl)).1) hq))))
  · exact charts_stringSwitch homes site kept htargets hq

end

include hb hplaces hinner in
theorem charts_switch (homes : Array Home) (hop : .switch statement ∈ b.operations s)
    (status : Status) :
    Charts b s (Rim b (.switch statement)) (switch b homes inner s status statement) := by
  have hfits : b.SwitchFits s statement := hb.fits hop
  have hframe : statement.frame ∈ (Operation.switch statement).owned := .head ..
  have harm : ∀ {arm}, arm ∈ statement.arms → arm.scope ∈ (Operation.switch statement).owned :=
    fun h => .tail _ (mem_map.mpr ⟨_, h, rfl⟩)
  have hleave : ∀ {q}, Sets q (exitOf b statement.frame) →
      Charts b s (Rim b (.switch statement)) q → Charts b s (Rim b (.switch statement))
        ((if statement.fallthrough then nil else goto ⟨s, none⟩ (exitOf b statement.frame)) ++
          q) := by
    intro q hsets hq
    split
    · exact hq
    · refine .branch (fun l hl => ?_) hq
      cases mem_singleton.mp hl
      exact .inl ⟨hsets, rim_exit hframe⟩
  have harms : Charts b s (Rim b (.switch statement)) (concat (statement.arms.map fun arm =>
      enclosed b inner arm.scope ⟨[], status.kept⟩ ++
        if statement.fallthrough then nil else goto ⟨s, none⟩ (exitOf b statement.frame)) ++
      place (exitOf b statement.frame) ⟨[], status.kept⟩) := by
    refine .concat (H := (Sets · (exitOf b statement.frame))) .right
      (fun arm hmem _ hsets hq => ?_) (sets_label _ _) (.place _ _)
    rw [append_assoc]
    refine charts_enclosed hb hop hplaces hinner (harm hmem) (hfits.arms arm hmem).2.2
      (fun _ x _ hx => ?_) (hleave hsets hq)
    rw [(hfits.arms arm hmem).1] at hx
    cases hx
    exact (hosts_of_frame (by rw [hfits.frame]; rfl) hsets).right
  unfold switch
  dsimp only
  rw [append_assoc, append_assoc]
  refine .label (charts_dispatch homes _ _ (fun l hl => ?_) harms)
  rcases hl with rfl | ⟨arm, hmem, rfl⟩
  · exact ⟨⟨(sets_label _ _).right, rim_exit hframe⟩, labelsOf_lt hb
      (hb.owned_lt (mem_owned hop hframe)) (exit_mem_labelsOf b _)⟩
  · exact ⟨⟨(Sets.concat hmem (sets_entry _ _).left).left, rim_entry (harm hmem)⟩,
      labelsOf_lt hb (hb.owned_lt (mem_owned hop (harm hmem)))
        (entry_mem_labelsOf b _)⟩

/-! ## Loops and bodies -/

variable (hdocked : ∀ c status n, Docked (fun _ => False) (inner c status n)) (homes : Array Home)
  (status : Status)
include hb hplaces hinner hdocked

/-- The jump back at the end of a loop goes to its start. Nothing outside goes to a label of
the loop. -/
theorem charts_loop {nested : Nat} {update : Option Nat}
    (hop : .loop nested update ∈ b.operations s) :
    Charts b s (fun _ => False) (operation b homes inner s status (.loop nested update)) := by
  intro n hn hnodup hlow
  obtain ⟨hparent, hkind, hupdate⟩ := hb.fits hop
  have hown : nested ∈ (Operation.loop nested update).owned := .head ..
  have hupdates : Charts b s (Rim b (.loop nested update))
      (concat (update.toList.map fun c => enclosed b inner c ⟨[], status.kept⟩) ++
        place (exitOf b nested) ⟨[], status.kept⟩) := by
    refine .concat (H := fun _ => True) id (fun c hc _ _ hq => ?_) trivial (.place _ _)
    have hc := Option.mem_toList.mp hc
    have hkind := (hupdate c hc).2
    refine charts_enclosed hb hop hplaces hinner ?_ (by rw [hkind]; decide)
      (fun h => absurd hkind h) hq
    rw [hc]
    exact .tail _ (.head ..)
  -- One pass: what lies between the start and the jump back.
  let pass : Plot := inner nested status ++ place (againOf b nested) ⟨[], status.kept⟩ ++
    concat (update.toList.map fun c => enclosed b inner c ⟨[], status.kept⟩)
  have hpass : Charts b s (Rim b (.loop nested update))
      (pass ++ place (exitOf b nested) ⟨[], status.kept⟩) := by
    dsimp only [pass]
    rw [append_assoc, append_assoc]
    refine charts_inner hb hop hplaces hinner hown (fun _ x hx h => ?_)
      (.label hupdates)
    rcases h with rfl | h
    · exact ⟨(sets_label _ _).right.right, fun _ => (sets_label _ _).left⟩
    · rw [hparent] at h
      cases h
      exact absurd (hb.owned_gt (mem_owned hop hx)) (Nat.lt_irrefl _)
  have hdocked : Docked (fun _ => False) (pass n) :=
    .append (.append (hdocked _ _ _) .label)
      (.concat (fun c _ n => docked_enclosed hdocked _ _ n) _)
  have hpoints : (operation b homes inner s status (.loop nested update) n).points =
      .label (entryOf b nested) (some status) :: (pass n).points ++
        [.branch (.goto (entryOf b nested)) (some ⟨s, none⟩)] ++
        [.label (exitOf b nested) (some ⟨[], status.kept⟩)] := by
    simp [operation, pass, place, point, goto, branch]
  have hplaced : placed (operation b homes inner s status (.loop nested update) n).points =
      entryOf b nested :: (placed (pass n).points ++ [exitOf b nested]) := by
    rw [hpoints, placed_append, placed_append, List.append_assoc]
    rfl
  rw [hplaced] at hnodup hlow
  obtain ⟨hentry, hnodup⟩ := nodup_cons.mp hnodup
  have hends : placed ((pass ++ place (exitOf b nested) ⟨[], status.kept⟩) n).points =
      placed (pass n).points ++ [exitOf b nested] := by
    rw [append_apply, placed_append]
    rfl
  have hshaped := hpass n hn (hends ▸ hnodup) fun l hl => hlow l (.tail _ (hends ▸ hl))
  have hin : ∀ l ∈ aimed (pass n).points,
      l ∈ placed (pass n).points ++ [exitOf b nested] ∨ b.Around s l := fun l hl =>
    hends ▸ hshaped.aims l (by rw [append_apply, aimed_append]; exact mem_append_left _ hl)
  refine ⟨fun l hl => ?_, fun R hR => ?_⟩
  · rw [hplaced]
    rw [hpoints, aimed_append, aimed_append, List.append_assoc, mem_append] at hl
    rcases hl with hl | hl
    · exact (hin l hl).imp_left (mem_cons_of_mem _)
    · cases mem_singleton.mp hl
      exact .inl (.head ..)
  · rw [hplaced] at hR
    have hout : ∀ l ∈ placed (pass n).points, ¬ R l := fun l hl =>
      hR l (.tail _ (mem_append_left _ hl))
    have horderly : Orderly R (pass n).points :=
      (hshaped.orderly R fun l hl hRl =>
        (hR l (.tail _ (hends ▸ hl)) hRl).elim).left
    have hback : entryOf b nested ∉ aimed (pass n).points := by
      intro hl
      rcases hin _ hl with h | h
      · exact hentry h
      · exact hlow _ (.head ..) h
    rw [hpoints]
    exact (horderly.loop ⟨hout, hdocked.anchored⟩ hback).append (.of_no_aims rfl)
      fun l hl => by cases hl

/-- An operation goes to its own labels or out of its scope, and nothing outside goes to a
label of it. -/
theorem charts_operation (hop : op ∈ b.operations s) :
    Charts b s (fun _ => False) (operation b homes inner s status op) := by
  by_cases hloop : ∃ nested update, op = .loop nested update
  · obtain ⟨nested, update, rfl⟩ := hloop
    exact charts_loop hb hplaces hinner hdocked homes status hop
  have hfits := hb.fits hop
  -- A child of the scope has no parent among the parts of the operation.
  have hchild : ∀ {c q}, b.parentOf c = some s → b.kindOf c ≠ .loopUpdate →
      ∀ x ∈ op.owned, b.parentOf c = some x → Hosts b x q := by
    intro c q hc _ x hx hp
    rw [hc] at hp
    cases hp
    exact absurd (hb.owned_gt (mem_owned hop hx)) (Nat.lt_irrefl _)
  -- Nor has a copy of a finally block that an exit runs.
  have hcopies : ∀ {cleanups destination q}, b.ExitFits s destination cleanups →
      ∀ c ∈ cleanups, ∀ x ∈ op.owned, b.parentOf c.scope = some x → Hosts b x q := by
    intro cleanups destination q hexit c hc x hx hp
    obtain ⟨f, hcopy, hguards, _⟩ := hexit.each c hc
    rw [hcopy.parent] at hp
    cases hp
    exact absurd (hb.owned_gt (mem_owned hop hx))
      (Nat.not_lt.mpr (hguards.within.le hb.descends))
  have hkinds : ∀ {cleanups destination}, b.ExitFits s destination cleanups →
      op.nested = cleanups.map Cleanup.scope →
      ∀ c ∈ cleanups, c.scope ∈ op.owned ∧ b.kindOf c.scope = .finallyCopy := by
    intro cleanups destination hexit hnested c hc
    obtain ⟨f, hcopy, _⟩ := hexit.each c hc
    refine ⟨mem_owned_of_nested ?_, hcopy.kind⟩
    rw [hnested]
    exact mem_map.mpr ⟨c, hc, rfl⟩
  have hchart : Charts b s (Rim b op) (operation b homes inner s status op ++ nil) := by
    cases op with
    | simple act os result => exact charts_simple homes _ _ act os result .nil
    | block nested =>
      exact charts_enclosed hb hop hplaces hinner (.head ..) hfits.2.2
        (hchild hfits.1) .nil
    | branch cond whenTrue whenFalse =>
      have hmem : whenTrue ∈ (Operation.branch cond whenTrue whenFalse).owned := by
        simp [Operation.owned, Operation.nested]
      have htrue : ∀ {q}, Charts b s (Rim b (.branch cond whenTrue whenFalse)) q →
          Charts b s (Rim b (.branch cond whenTrue whenFalse))
            (enclosed b inner whenTrue ⟨[], status.kept⟩ ++ q) := fun hq =>
        charts_enclosed hb hop hplaces hinner hmem hfits.1.2.2 (hchild hfits.1.1) hq
      cases whenFalse with
      | none =>
        rw [operation, append_assoc, append_assoc]
        refine .idle (idle_load _ _) (.branch (fun l hl => ?_) (htrue .nil))
        cases mem_singleton.mp hl
        exact .inl ⟨(sets_label _ _).right.left, rim_exit hmem⟩
      | some whenFalse =>
        rw [operation, append_assoc, append_assoc, append_assoc, append_assoc]
        refine .idle (idle_load _ _) (.branch (fun l hl => ?_) (charts_enclosed hb hop hplaces
          hinner (.head ..) (hfits.2 whenFalse rfl).2.2
          (hchild (hfits.2 whenFalse rfl).1) (.branch (fun l hl => ?_) (htrue .nil))))
        · cases mem_singleton.mp hl
          exact .inl ⟨(sets_entry _ _).left.right.right, rim_entry hmem⟩
        · cases mem_singleton.mp hl
          exact .inl ⟨(sets_label _ _).right.left, rim_exit hmem⟩
    | loop nested update => exact absurd ⟨nested, update, rfl⟩ hloop
    | exitUnless cond target =>
      obtain ⟨rfl, _⟩ := hfits
      rw [operation, append_assoc]
      refine .idle (idle_load _ _) (.branch (fun l hl => ?_) .nil)
      cases mem_singleton.mp hl
      exact .inr ⟨not_update hb hop fun h => (by cases h), target, .refl, .inl rfl⟩
    | jump kind target cleanups =>
      show Charts b s _ (exit b inner status cleanups (goto ⟨s, some (some target)⟩ _) ++ nil)
      rw [← nil_append (goto _ _)]
      refine charts_exit hb hop hplaces hinner (hkinds hfits.2.2 rfl) (hcopies hfits.2.2) .nil
        (fun l hl => ?_) .nil
      cases mem_singleton.mp hl
      refine .inr ⟨not_update hb hop fun h => (by cases h), target, hfits.1, ?_⟩
      cases kind with
      | leave => exact .inl rfl
      | again => exact .inr ⟨hfits.2.1 rfl, rfl⟩
    | ret value cleanups =>
      exact charts_exit hb hop hplaces hinner (hkinds hfits.2 rfl) (hcopies hfits.2)
        (idle_loads _ _) (fun l hl => by cases hl) .nil
    | throw value =>
      rw [operation, append_assoc]
      exact .idle (idle_load _ _) (.branch (fun l hl => by cases hl) .nil)
    | tryCatch statement =>
      rw [append_nil]
      exact charts_tryCatch hb hplaces hinner hop status
    | switch statement =>
      rw [append_nil]
      exact charts_switch hb hplaces hinner homes hop status
  rw [append_nil] at hchart
  intro n hn hnodup hlow
  have hshaped := hchart n hn hnodup hlow
  exact ⟨hshaped.aims, fun R hR => hshaped.orderly R fun l hl h => (hR l hl h).elim⟩

/-- Operations in a row go nowhere else, if nothing outside names their labels. -/
theorem charts_inOrder {ops : List Operation} (hops : ∀ op ∈ ops, op ∈ b.operations s) :
    Charts b s (fun _ => False) (inOrder b homes inner s ops status) := by
  induction ops generalizing status with
  | nil => exact .nil
  | cons op ops ih =>
    intro n hn hnodup hlow
    have hop := hops op (.head ..)
    have hle := (places_operation hplaces homes (hb.fits hop) hb.frames status n).1
    simp only [inOrder, append_apply, placed_append] at hnodup hlow
    obtain ⟨hfirst, hrest, _⟩ := nodup_append.mp hnodup
    have hshaped := charts_operation hb hplaces hinner hdocked homes status hop n hn hfirst
      fun l hl => hlow l (mem_append_left _ hl)
    -- Operations of a scope do not go to each other.
    exact .before (fun l hl => (hshaped.aims l hl).imp_right .inr) hshaped.orderly
      (ih _ (fun o ho => hops o (.tail _ ho)) _ (Nat.le_trans hn hle) hrest
        fun l hl => hlow l (mem_append_right _ hl)) hnodup hlow

end operations

section body

variable {b : Body} (hb : b.Sound) (homes : Array Home)
include hb

theorem not_around {depth : Nat} {status : Status} (hs : s < b.scopes.size) (hn : b.nextLabel ≤ n)
    (hl : l ∈ placed (operations b homes depth s status n).points) :
    ¬ b.Around s l := by
  intro haround
  obtain ⟨x, hx, hlx⟩ := haround.mem_labelsOf
  have hxs := hx.le hb.descends
  rcases (places_operations hb depth s status).mem_placed_iff.mp hl with hl | ⟨hge, _⟩
  · obtain ⟨d, hd, hld⟩ := mem_flatMap.mp hl
    have hin := inside_of_mem_scopesIn hd
    have heq := labelsOf_unique hb (Nat.lt_of_le_of_lt hxs hs)
      (hin.region.lt_size hb hs) hlx hld
    have hlt := hin.lt hb
    omega
  · have hlt := labelsOf_lt hb (Nat.lt_of_le_of_lt hxs hs) hlx
    omega

/-- By induction on the depth, every scope is laid out as the rules say. -/
theorem shaped_operations (depth : Nat) (status : Status) (hs : s < b.scopes.size)
    (hn : b.nextLabel ≤ n) :
    Shaped b s (fun _ => False) (operations b homes depth s status n).points := by
  induction depth generalizing s status n with
  | zero => exact ⟨fun _ h => (by cases h), fun _ _ => .of_no_aims rfl⟩
  | succ depth ih =>
    refine charts_inOrder hb (places_operations hb depth) (fun c status n hc hn => ih status hc hn)
      (docked_operations b homes depth) homes status (fun _ h => h) n hn ?_
      fun l hl => not_around hb homes hs hn
        (show l ∈ placed (operations b homes (depth + 1) s status n).points from hl)
    exact Places.nodup hb (apart_owned hb (List.Sublist.refl _))
      (places_operations hb (depth + 1) s status) hn

end body
end Plot

namespace Body

open Point

variable {b : Body} (hb : b.Sound) (homes : Array Home)

def points (b : Body) (homes : Array Home) : List Point := (b.plot homes b.nextLabel).points

include hb

theorem places_plot : Plot.Places (b.plot homes) (b.labelsIn b.scopes.size [0]) :=
  Plot.places_enclosed (Plot.places_operations hb _) (by rw [hb.root]; decide) _

/-- No label is placed twice. -/
theorem placed_nodup : (placed (b.points homes)).Nodup :=
  Plot.Places.nodup hb ⟨fun c hc => by rw [mem_singleton.mp hc]; exact hb.rooted,
    pairwise_singleton _ _⟩ (places_plot hb homes) .refl

/-- Every label that something goes to is placed. -/
theorem mem_placed_of_aimed (hl : l ∈ aimed (b.points homes)) :
    l ∈ placed (b.points homes) := by
  have hshaped := Plot.shaped_operations hb homes b.scopes.size ⟨[], b.params⟩ hb.rooted
    .refl
  have hl : l ∈ aimed (Plot.operations b homes b.scopes.size 0 ⟨[], b.params⟩
      b.nextLabel).points := by
    simpa [points, plot, Plot.enclosed, Plot.place, Plot.point, aimed, aims] using hl
  show l ∈ placed (_ ++ _ ++ _)
  rw [placed_append, placed_append, mem_append, mem_append]
  rcases hshaped.aims l hl with h | ⟨_, x, hx, h⟩
  · exact .inl (.inr h)
  · cases Nat.le_zero.mp (hx.le hb.descends)
    rcases h with rfl | ⟨hk, _⟩
    · exact .inr (.head _)
    · rw [hb.root] at hk
      cases hk

theorem orderly : Orderly (fun _ => False) (b.points homes) := by
  have hshaped := Plot.shaped_operations hb homes b.scopes.size ⟨[], b.params⟩ hb.rooted
    .refl
  have hnodup := placed_nodup hb homes
  show Orderly _ (_ ++ _ ++ _)
  refine .append (.append (.of_no_aims rfl) (hshaped.orderly _ fun l hl h => ?_)
    fun l hl hmem => ?_) (.of_no_aims rfl) fun l hl => by cases hl
  · rcases h with h | h
    · exact h
    · cases h
  · -- Nothing inside the root goes to its start.
    cases mem_singleton.mp hmem
    have hnodup : (placed (_ ++ _ ++ _)).Nodup := hnodup
    rw [placed_append, placed_append, List.append_assoc] at hnodup
    obtain ⟨hentry, _⟩ := nodup_cons.mp hnodup
    refine hentry (mem_append_right _ (mem_append.mpr ?_))
    rcases hshaped.aims _ hl with h | ⟨_, x, hx, h⟩
    · exact .inl h
    · cases Nat.le_zero.mp (hx.le hb.descends)
      rcases h with h | ⟨hk, _⟩
      · exact .inr (mem_singleton.mpr h)
      · rw [hb.root] at hk
        cases hk

omit hb in
theorem anchored : Anchored (fun _ => False) (b.points homes) :=
  (Plot.docked_enclosed (Plot.docked_operations b homes b.scopes.size) 0 _ _).anchored

theorem regular : Regular (b.points homes) :=
  ⟨placed_nodup hb homes, fun _ => mem_placed_of_aimed hb homes, orderly hb homes, anchored homes⟩

end Body
end ClassAssembler
