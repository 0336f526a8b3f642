import ClassAssembler.Proofs.Build.Built
import ClassAssembler.Proofs.Layout.Dispatch

/-!
# The handlers of a whole layout

Each operation lays out holes and protections so that its instructions have their lexical
handlers.
-/

namespace ClassAssembler

open Body Operation Cleanup

variable {i : Nat} {site : Site}

open List

namespace Plot

open Point

def RoutesScope (b : Body) (pos : Label → Nat) (c : Nat) (p : Plot) : Prop :=
  Routes b pos (b.Guards · c) c (fun site => b.Region c site.scope) p

variable {b : Body} {pos : Label → Nat} {inner : Inner} {s c k n : Nat} {Q : Site → Prop}

theorem plain_scope (hb : b.Sound) (s : Nat) : Plain b (b.Guards · s) s ⟨s, none⟩ where
  guards frame hframe h := h.elim (fun h => h hframe) fun h => by cases h
  handlers := handlersBelow_eq_nil hb fun _ hq _ _ => hq

theorem routes_enclosed {status : Status} (h : RoutesScope b pos c (inner c status)) :
    RoutesScope b pos c (enclosed b inner c status) :=
  (Routes.label.append h).append .label

/-! ## Exits -/

section exits

variable {destination : Option Nat} {cleanups : List Cleanup} {status : Status}
  (hb : b.Sound) (h : b.Exiting s c destination cleanups)
  (hinner : ∀ cleanup ∈ cleanups, RoutesScope b pos cleanup.scope (inner cleanup.scope status))
  (hsite : Q ⟨s, some destination⟩)
  (hcopies : ∀ cleanup ∈ cleanups, ∀ site, b.Region cleanup.scope site.scope → Q site)

include hb h hinner hsite hcopies

theorem routes_cleanupsFrom (l1 : List Cleanup) {l2 : List Cleanup}
    (hcleanups : cleanups = l1 ++ l2) : Routes b pos (b.Guards · s) c Q
      (cleanupsFrom b inner status (l1.map owner) l2) := by
  induction l2 generalizing l1 with
  | nil => exact .nil
  | cons cleanup l2 ih =>
    have hmem : cleanup ∈ cleanups := by rw [hcleanups]; simp
    have hrest := ih (l1 ++ [cleanup]) (by rw [hcleanups]; simp)
    rw [List.map_append, map_singleton] at hrest
    refine Routes.append (.hole (b.Guards · cleanup.scope)
      (fun site => b.Region cleanup.scope site.scope) ?_ (hcopies cleanup hmem) (fun id hid => ?_)
      (fun n k hholed hole hhole id hid hid' => ?_) fun frame hframe => ?_) hrest
    · exact (routes_enclosed (hinner cleanup hmem)).mono (fun _ h => h) (fun _ h => h)
        fun site hsite => h.handlersBelow_eq hb hmem hsite
    · have hid' : id ∈ cleanups.map owner := by
        rw [hcleanups, List.map_append, map_cons, append_cons]
        exact mem_append_left _ hid
      obtain ⟨frame, hguards, _, heq⟩ := h.frame_of_mem hid'
      exact ⟨frame, _, hsite, hguards, heq⟩
    · -- The statements that have holes inside the copy are not among those left before.
      obtain ⟨frame, site, hregion, hguards, heq⟩ := hholed.owners hole hhole id hid'
      have hid'' : id ∈ cleanups.map owner := by
        rw [hcleanups, List.map_append, map_cons, append_cons]
        exact mem_append_left _ hid
      obtain ⟨left, hleft, _, heq'⟩ := h.frame_of_mem hid''
      cases tryNumber_inj hguards.1 hleft.1 (heq.trans heq'.symm)
      rw [← heq] at hid
      exact h.not_guards hb hcleanups hleft hid hregion hguards
    · by_cases hid : b.tryNumber frame ∈ l1.map owner ++ [cleanup.owner]
      · exact .inl ⟨hid, fun site hregion => .inl (h.not_guards hb hcleanups hframe hid hregion)⟩
      · exact .inr ⟨hid, h.guards_copy hb hcleanups hframe hid⟩

theorem routes_exit {final : Plot} (hfinal : AtSite ⟨s, some destination⟩ final) :
    Routes b pos (b.Guards · s) c Q (exit b inner status cleanups final) := by
  refine (routes_cleanupsFrom hb h hinner hsite hcopies [] rfl).append
    (.hole (fun x => b.Guards x s ∧ b.tryNumber x ∉ cleanups.map owner)
      (· = ⟨s, some destination⟩) (.atSite hfinal rfl ⟨fun x hx => ?_, ?_⟩)
      (fun site hsite' => by rw [hsite']; exact hsite) (fun id hid => ?_)
      (fun n k _ hole hhole => ?_) fun x hx => ?_)
  · rintro (hguards | hleaves)
    · exact hguards hx.1
    · exact hx.2 (h.all x hx.1 ((site_leaves_iff hb.descends).mp hleaves))
  · exact handlersBelow_eq_nil hb fun q hq _ hk => h.inside q hk hq
  · obtain ⟨frame, hguards, _, heq⟩ := h.frame_of_mem hid
    exact ⟨frame, _, hsite, hguards, heq⟩
  · exact ((hfinal n).2 hole hhole).elim
  · by_cases hid : b.tryNumber x ∈ cleanups.map owner
    · refine .inl ⟨hid, fun site hsite' => ?_⟩
      rw [hsite']
      exact .inr ((site_leaves_iff hb.descends).mpr ((h.leaves_iff_mem hx).mpr hid))
    · exact .inr ⟨hid, hx, hid⟩

end exits

/-! ## Guarded parts -/

section parts

variable {frame part : Nat} {copy : Cleanup}

theorem exiting_part (hb : b.Sound) (hframe : b.parentOf frame = some s)
    (hpart : b.parentOf part = some frame) (hguarded : (b.kindOf part).isGuarded)
    (hcopy : b.CopyOf frame copy) : b.Exiting part frame (some s) [copy] := by
  have hkind : b.kindOf part ≠ .tryFrame := fun hk => by rw [hk] at hguarded; cases hguarded
  have hguards : b.Guards frame part := ⟨hcopy.isTry, part, .refl, hpart, hguarded⟩
  have hinside : ∀ q, b.kindOf q = .tryFrame → b.Within q part → b.Within q frame := by
    intro q hk hq
    refine ((Body.Within.iff_parent hpart).mp hq).resolve_left ?_
    rintro rfl
    exact hkind hk
  refine ⟨⟨fun cleanup hmem => ?_, pairwise_singleton _ _⟩, fun x hx hleaves => ?_, hinside,
    fun cleanup hmem q _ hq => ?_⟩
  · cases mem_singleton.mp hmem
    refine ⟨frame, hcopy, hguards, fun d hd hw => ?_⟩
    cases hd
    exact absurd (hw.le hb.descends) (Nat.not_le.mpr (hb.descends hframe))
  · rcases (Body.Within.iff_parent hframe).mp (hinside x hx.1 hx.within) with rfl | hw
    · exact mem_singleton.mpr hcopy.owner.symm
    · exact absurd hw (hleaves s rfl)
  · cases mem_singleton.mp hmem
    exact Nat.lt_of_le_of_lt (hq.le hb.descends) (hb.descends hcopy.parent)

/-- The sites of a part of a try statement and of the copy that it ends with. -/
def InPart (b : Body) (part : Nat) (copy : Cleanup) (site : Site) : Prop :=
  b.Region part site.scope ∨ b.Region copy.scope site.scope

theorem InPart.eq (hb : b.Sound) {x : Nat} (h : InPart b part copy site)
    (hpart : b.parentOf part = some frame) (hcopy : b.CopyOf frame copy)
    (hx : b.parentOf x = some frame) (hw : b.Within x site.scope) (hg : (b.kindOf x).isGuarded) :
    x = part := by
  rcases h with h | h
  · exact h.guarded_part hb hpart hx hw hg
  · exact absurd ⟨hcopy.isTry, x, hw, hx, hg⟩
      (h.not_guards hb hcopy.parent (by rw [hcopy.kind]; rfl))

theorem routes_guarded (hb : b.Sound) (hframe : b.parentOf frame = some s)
    (hpart : b.parentOf part = some frame) (hguarded : (b.kindOf part).isGuarded)
    (hcopy : b.CopyOf frame copy) {status : Status} (kept : List Nat)
    (hinner : RoutesScope b pos part (inner part status))
    (hinner' : RoutesScope b pos copy.scope (inner copy.scope ⟨[], kept⟩)) :
    Routes b pos (b.Guards · part) frame (InPart b part copy)
      (guarded b inner s frame part status kept [copy]) := by
  have hexiting := exiting_part hb hframe hpart hguarded hcopy
  refine ((routes_enclosed hinner).mono (fun _ h => h) (fun _ => .inl) fun site hsite => ?_).append
    (routes_exit hb hexiting (fun cleanup hmem => ?_) (.inl .refl) (fun cleanup hmem site => ?_)
      (.branch _))
  · exact hsite.handlersBelow_eq hb hexiting.inside fun q _ hq =>
      Nat.lt_of_le_of_lt (hq.le hb.descends) (hb.descends hpart)
  · cases mem_singleton.mp hmem
    exact hinner'
  · cases mem_singleton.mp hmem
    exact .inr

end parts

theorem protects_apply (start stop : Label) (holes : List (Label × Label))
    (clauses : List CatchClause) (n : Nat) : protects b start stop holes clauses n =
      ⟨clauses.map fun clause => .protect start stop holes (Lay.entryOf b clause.scope)
        (some clause.caught), [], n⟩ := by
  induction clauses generalizing n with
  | nil => rfl
  | cons clause clauses ih =>
    have hcons : protects b start stop holes (clause :: clauses) =
      point (.protect start stop holes (Lay.entryOf b clause.scope) (some clause.caught)) ++
        protects b start stop holes clauses := rfl
    rw [hcons, append_apply, ih]
    rfl

section tryCatch

variable (b inner s) (status : Status) (statement : TryStatement) (n : Nat)

def bodyPart : Stretch :=
  guarded b inner s statement.frame statement.body status status.kept statement.bodyExit (n + 1)

def clauseParts : Stretch :=
  concat (statement.clauses.map fun clause => guarded b inner s statement.frame clause.scope
    (thrown status.kept) status.kept clause.exit) ((bodyPart b inner s status statement n).next + 1)

def lastPart : Stretch :=
  concat (statement.catchAll.toList.map fun handler =>
    enclosed b inner handler (thrown status.kept))
      ((clauseParts b inner s status statement n).next + 1)

end tryCatch

section assemble

variable (b) (statement : TryStatement) (status : Status) (n : Nat) (body clauses last : Stretch)

def clauseGuards : List Point :=
  statement.clauses.map fun clause =>
    .protect ⟨n⟩ ⟨body.next⟩ (body.holesOf statement.id) (Lay.entryOf b clause.scope)
      (some clause.caught)

def lastGuard : List Point :=
  statement.catchAll.toList.map fun handler =>
    .protect ⟨n⟩ ⟨clauses.next⟩ (body.holesOf statement.id ++ clauses.holesOf statement.id)
      (Lay.entryOf b handler) none

def assemble : Stretch where
  points := [.label (Lay.entryOf b statement.frame) (some status), .label ⟨n⟩ none] ++
    (body.points ++ ((.label ⟨body.next⟩ none :: clauseGuards b statement n body) ++
    (clauses.points ++ ((.label ⟨clauses.next⟩ none :: lastGuard b statement n body clauses) ++
    (last.points ++ [.label (Lay.exitOf b statement.frame) (some ⟨[], status.kept⟩)])))))
  holes := body.holes ++ (clauses.holes ++ last.holes)
  next := last.next

theorem tryCatch_apply : tryCatch b inner s status statement n =
    assemble b statement status n (bodyPart b inner s status statement n)
      (clauseParts b inner s status statement n) (lastPart b inner s status statement n) := by
  unfold lastPart assemble clauseGuards lastGuard
  simp only [tryCatch, append_apply, fresh, withHoles, place, border, point, protects_apply]
  cases statement.catchAll with
  | none => simp [catchAll, bodyPart, clauseParts, nil]
  | some handler => simp [catchAll, bodyPart, clauseParts, nil, point]

end assemble

theorem filterMap_catches {α : Type} {as : List α} {start stop : Label}
    {holes : List (Label × Label)} {handler : α → Label} {caught : α → Option ClassName} :
    (as.map fun a => Point.protect start stop holes (handler a) (caught a)).filterMap
        (catches pos i) =
      if pos start < i ∧ i < pos stop ∧ ∀ hole ∈ holes, ¬ (pos hole.1 < i ∧ i < pos hole.2) then
        as.map fun a => (handler a, caught a)
      else [] := by
  rw [filterMap_map]
  split
  · rename_i h
    have hall : (catches pos i ∘ fun a => Point.protect start stop holes (handler a) (caught a)) =
        some ∘ fun a => (handler a, caught a) := funext fun a => if_pos h
    rw [hall, filterMap_eq_map]
  · rename_i h
    exact filterMap_eq_nil_iff.mpr fun a _ => if_neg h

theorem pairwise_bracket {first last : Nat} {xs : List Nat} (h : xs.Pairwise (· < ·))
    (hfirst : first < last) (hxs : ∀ x ∈ xs, first < x ∧ x < last) :
    (first :: (xs ++ [last])).Pairwise (· < ·) := by
  refine pairwise_cons.mpr ⟨fun x hx => ?_, pairwise_append.mpr
    ⟨h, pairwise_singleton _ _, fun x hx y hy => ?_⟩⟩
  · rcases mem_append.mp hx with hx | hx
    · exact (hxs x hx).1
    · rw [mem_singleton.mp hx]
      exact hfirst
  · rw [mem_singleton.mp hy]
    exact (hxs x hx).2

theorem Holed.not_open_iff {G : Nat → Prop} {st : Stretch} (h : Holed b pos G Q k st) {j : Nat}
    {pt : Point} (hj : st.points[j]? = some pt) (hsite : pt.site? = some site) {frame : Nat}
    (hframe : G frame) :
    (∀ hole ∈ st.holesOf (b.tryNumber frame), ¬ (pos hole.1 < k + j ∧ k + j < pos hole.2)) ↔
      ¬ b.Escapes frame site := by
  rw [← h.cut j pt site hj hsite frame hframe]
  constructor
  · rintro hall ⟨hole, hhole, hid, hopen⟩
    exact hall _ (mem_holesOf.mpr ⟨hole, hhole, hid, rfl⟩) hopen
  · rintro hnone part hpart hopen
    obtain ⟨hole, hhole, hid, rfl⟩ := mem_holesOf.mp hpart
    exact hnone ⟨hole, hhole, hid, hopen⟩

theorem Holed.not_open {G : Nat → Prop} {st : Stretch} (h : Holed b pos G Q k st) {id : Nat}
    (hi : i < k ∨ k + st.points.length ≤ i) :
    ∀ hole ∈ st.holesOf id, ¬ (pos hole.1 < i ∧ i < pos hole.2) := by
  rintro part hpart hopen
  obtain ⟨hole, hhole, _, rfl⟩ := mem_holesOf.mp hpart
  have hinside := h.inside hole hhole
  have hopen : pos hole.start < i ∧ i < pos hole.stop := hopen
  omega

/-! ## Handlers -/

section statement

variable {statement : TryStatement} (hb : b.Sound) (hop : .tryCatch statement ∈ b.operations s)
include hb hop

theorem handlersBelow_statement (added : List Handler)
    (hescapes : b.Escapes statement.frame site → added = [])
    (hadded : ∀ x, ¬ b.Escapes statement.frame site → b.parentOf x = some statement.frame →
      b.Within x site.scope → (b.kindOf x).isGuarded →
      statement.handlersIn b (b.kindOf x) = added) :
    b.handlersBelow site s site.scope =
      b.handlersBelow site statement.frame site.scope ++ added := by
  have hfits : b.TryFits s statement := hb.fits hop
  refine handlersBelow_frame hb hfits.parent hfits.frame hescapes
    fun x hesc hx hw hg => ?_
  have hleaves : site.leaves b statement.frame = false := by
    rw [← Bool.not_eq_true]
    exact fun h => hesc (.inr h)
  rw [← hadded x hesc hx hw hg, handlersOf, hx]
  show (if _ then _ else _) = _
  rw [hleaves, statementOf?_eq hb hop]
  simp

def InClause (b : Body) (statement : TryStatement) (site : Site) : Prop :=
  ∃ clause ∈ statement.clauses, ∃ copy, clause.exit = [copy] ∧ b.CopyOf statement.frame copy ∧
    InPart b clause.scope copy site

variable (hinner : ∀ c ∈ (Operation.tryCatch statement).nested, ∀ status,
  RoutesScope b pos c (inner c status))
include hinner

omit hop in
theorem routes_clauses (hfits : b.TryFits s statement) (status : Status) :
    Routes b pos (fun x => x = statement.frame ∨ b.Guards x s) statement.frame
      (InClause b statement) (concat (statement.clauses.map fun clause => guarded b inner s
        statement.frame clause.scope (thrown status.kept) status.kept clause.exit)) := by
  refine .concat fun clause hclause => ?_
  obtain ⟨hparent, hkind, _, copy, hexit, hcopy⟩ := hfits.clauses clause hclause
  have hmem : ∀ c ∈ clause.scope :: clause.exit.map scope,
      c ∈ (Operation.tryCatch statement).nested := fun c hc =>
    Operation.mem_nested_tryCatch.mpr (.inr (.inr (.inl ⟨clause, hclause, hc⟩)))
  have hguarded : (b.kindOf clause.scope).isGuarded := by rw [hkind]; rfl
  have hpart := routes_guarded hb hfits.parent hparent hguarded hcopy status.kept
    (hinner clause.scope (hmem _ (.head ..)) (thrown status.kept))
    (hinner copy.scope (hmem _ (by rw [hexit]; simp)) _)
  rw [← hexit] at hpart
  refine hpart.mono (fun x hx => ?_) (fun site hsite => ⟨clause, hclause, copy, hexit,
    hcopy, hsite⟩) fun _ _ => rfl
  rcases hx with rfl | hx
  · exact ⟨hfits.frame, clause.scope, .refl, hparent, hguarded⟩
  · exact (hx.mono (.of_parent hfits.parent)).mono (.of_parent hparent)

omit hop in
theorem routes_last (hfits : b.TryFits s statement) (status : Status) :
    Routes b pos (b.Guards · s) statement.frame
      (fun site => ∃ handler, statement.catchAll = some handler ∧ b.Region handler site.scope)
      (concat (statement.catchAll.toList.map fun handler =>
        enclosed b inner handler (thrown status.kept))) := by
  refine .concat fun handler hhandler => ?_
  have hhandler : statement.catchAll = some handler := Option.mem_toList.mp hhandler
  obtain ⟨hparent, hkind, _⟩ := hfits.catchAll handler hhandler
  have hmem : handler ∈ (Operation.tryCatch statement).nested :=
    Operation.mem_nested_tryCatch.mpr (.inr (.inr (.inr hhandler)))
  refine (routes_enclosed (hinner handler hmem _)).mono (fun x hx => ?_)
    (fun site hsite => ⟨handler, hhandler, hsite⟩) fun site hsite => ?_
  · exact (hx.mono (.of_parent hfits.parent)).mono (.of_parent hparent)
  · refine hsite.handlersBelow_eq hb (fun q hk hq => ?_) fun q _ hq =>
      Nat.lt_of_le_of_lt (hq.le hb.descends) (hb.descends hparent)
    refine ((Body.Within.iff_parent hparent).mp hq).resolve_left ?_
    rintro rfl
    rw [hkind] at hk
    cases hk

end statement

section assembled

variable {statement : TryStatement} {status : Status} {copy : Cleanup} {body clauses last : Stretch}

/-- The positions of the parts of a try statement, and what is known of each. -/
structure Parts (b : Body) (pos : Label → Nat) (s : Nat) (statement : TryStatement) (copy : Cleanup)
    (n k : Nat) (body clauses last : Stretch) : Prop where
  exit : statement.bodyExit = [copy]
  start : pos ⟨n⟩ = k + 1
  bodyEnd : pos ⟨body.next⟩ = k + 2 + body.points.length
  clausesEnd : pos ⟨clauses.next⟩ = k + 2 + body.points.length +
    ((clauseGuards b statement n body).length + 1) + clauses.points.length
  inBody : Routed b pos (b.Guards · statement.body) statement.frame
    (InPart b statement.body copy) (k + 2) body
  inClauses : Routed b pos (fun x => x = statement.frame ∨ b.Guards x s) statement.frame
    (InClause b statement)
    (k + 2 + body.points.length + ((clauseGuards b statement n body).length + 1)) clauses
  inLast : Routed b pos (b.Guards · s) statement.frame
    (fun site => ∃ handler, statement.catchAll = some handler ∧ b.Region handler site.scope)
    (k + 2 + body.points.length + ((clauseGuards b statement n body).length + 1) +
      clauses.points.length + ((lastGuard b statement n body clauses).length + 1)) last

variable (hb : b.Sound) (hop : .tryCatch statement ∈ b.operations s)
  (h : Parts b pos s statement copy n k body clauses last)

theorem filterMap_clauseGuards (hi : pos ⟨n⟩ < i ∧ i < pos ⟨body.next⟩ ∧
      ∀ hole ∈ body.holesOf statement.id, ¬ (pos hole.1 < i ∧ i < pos hole.2)) :
    (clauseGuards b statement n body).filterMap (catches pos i) = statement.clauseHandlers b := by
  rw [clauseGuards, filterMap_catches, if_pos hi]
  rfl

theorem filterMap_lastGuard (hi : pos ⟨n⟩ < i ∧ i < pos ⟨clauses.next⟩ ∧
      ∀ hole ∈ body.holesOf statement.id ++ clauses.holesOf statement.id,
        ¬ (pos hole.1 < i ∧ i < pos hole.2)) :
    (lastGuard b statement n body clauses).filterMap (catches pos i) = statement.lastHandler b := by
  rw [lastGuard, filterMap_catches, if_pos hi]
  rfl

theorem filterMap_clauseGuards_nil (hi : pos ⟨n⟩ < i → i < pos ⟨body.next⟩ →
      ¬ ∀ hole ∈ body.holesOf statement.id, ¬ (pos hole.1 < i ∧ i < pos hole.2)) :
    (clauseGuards b statement n body).filterMap (catches pos i) = [] := by
  rw [clauseGuards, filterMap_catches, if_neg fun h => hi h.1 h.2.1 h.2.2]

theorem filterMap_lastGuard_nil (hi : pos ⟨n⟩ < i → i < pos ⟨clauses.next⟩ →
      ¬ ∀ hole ∈ body.holesOf statement.id ++ clauses.holesOf statement.id,
        ¬ (pos hole.1 < i ∧ i < pos hole.2)) :
    (lastGuard b statement n body clauses).filterMap (catches pos i) = [] := by
  rw [lastGuard, filterMap_catches, if_neg fun h => hi h.1 h.2.1 h.2.2]

theorem Parts.aligned_clauses (h : Parts b pos s statement copy n k body clauses last) :
    (pos ⟨n⟩ :: (ends pos (body.holesOf statement.id) ++ [pos ⟨body.next⟩])).Pairwise (· < ·) := by
  refine pairwise_bracket (h.inBody.spaced _) ?_ fun x hx => ?_
  · rw [h.start, h.bodyEnd]
    omega
  · have := h.inBody.ends_mem hx
    rw [h.start, h.bodyEnd]
    omega

theorem Parts.aligned_last (h : Parts b pos s statement copy n k body clauses last) :
    (pos ⟨n⟩ :: (ends pos (body.holesOf statement.id ++ clauses.holesOf statement.id) ++
      [pos ⟨clauses.next⟩])).Pairwise (· < ·) := by
  rw [ends_append]
  refine pairwise_bracket (pairwise_append.mpr ⟨h.inBody.spaced _, h.inClauses.spaced _,
    fun x hx y hy => ?_⟩) ?_ fun x hx => ?_
  · have hx := h.inBody.ends_mem hx
    have hy := h.inClauses.ends_mem hy
    omega
  · rw [h.start, h.clausesEnd]
    omega
  · rw [h.start, h.clausesEnd]
    rcases mem_append.mp hx with hx | hx
    · have := h.inBody.ends_mem hx
      omega
    · have := h.inClauses.ends_mem hx
      omega

include hb hop h

theorem Parts.holed : Holed b pos (b.Guards · s) (fun site => b.Region s site.scope) k
    (assemble b statement status n body clauses last) := by
  have hfits : b.TryFits s statement := hb.fits hop
  have hregion : ∀ {c t}, c ∈ (Operation.tryCatch statement).nested → b.Region c t →
      b.Region s t := fun hc hr =>
    (Body.Region.of_owned (mem_owned hop (mem_owned_of_nested hc))).trans hr
  have hbody : Holed b pos (b.Guards · s) (fun site => b.Region s site.scope) (k + 2) body := by
    refine h.inBody.toHoled.mono (fun x hx => ?_) fun site hsite => ?_
    · exact (hx.mono (.of_parent hfits.parent)).mono (.of_parent hfits.body.1)
    · rcases hsite with hr | hr
      · exact hregion (mem_nested_tryCatch.mpr (.inl rfl)) hr
      · exact hregion (mem_nested_tryCatch.mpr (.inr (.inl (by rw [h.exit]; simp)))) hr
  have hin : ∀ site, InClause b statement site → b.Region s site.scope := by
    rintro site ⟨clause, hclause, copy, hexit, _, hr⟩
    rcases hr with hr | hr
    · exact hregion (mem_nested_tryCatch.mpr (.inr (.inr (.inl ⟨clause, hclause, by simp⟩)))) hr
    · exact hregion (mem_nested_tryCatch.mpr
        (.inr (.inr (.inl ⟨clause, hclause, by simp [hexit]⟩)))) hr
  have hclauses := h.inClauses.toHoled.mono (fun x (hx : b.Guards x s) => .inr hx) hin
  have hlast : Holed b pos (b.Guards · s) (fun site => b.Region s site.scope) _ last :=
    h.inLast.toHoled.mono (fun _ h => h) fun site ⟨handler, hhandler, hr⟩ =>
      hregion (mem_nested_tryCatch.mpr (.inr (.inr (.inr hhandler)))) hr
  -- Between the parts lie labels and protections.
  have hall := Holed.append
    (.gap 0 [.label (Lay.entryOf b statement.frame) (some status), .label ⟨n⟩ none]
      (by simp [site?, isInsn]) (by simp))
    (hbody.append (.append
      (.gap 0 (.label ⟨body.next⟩ none :: clauseGuards b statement n body)
        (by simp [site?, isInsn, clauseGuards]) fun start stop holes handler caught hmem => ?_)
      (hclauses.append (.append
        (.gap 0 (.label ⟨clauses.next⟩ none :: lastGuard b statement n body clauses)
          (by simp [site?, isInsn, lastGuard]) fun start stop holes handler caught hmem => ?_)
        (hlast.append (.gap last.next
          [.label (Lay.exitOf b statement.frame) (some ⟨[], status.kept⟩)]
          (by simp [site?, isInsn]) (by simp)))))))
  · simpa [assemble] using hall
  · obtain ⟨clause, _, heq⟩ := mem_map.mp ((mem_cons.mp hmem).resolve_left fun h => by cases h)
    cases heq
    exact h.aligned_clauses
  · obtain ⟨handler, _, heq⟩ := mem_map.mp ((mem_cons.mp hmem).resolve_left fun h => by cases h)
    cases heq
    exact h.aligned_last

omit hb hop h in
theorem mem_assemble (k : Nat) {j : Nat} {pt : Point}
    (hj : (assemble b statement status n body clauses last).points[j]? = some pt)
    (hsite : pt.site? = some site) :
    (∃ i, body.points[i]? = some pt ∧ k + j = k + 2 + i) ∨
    (∃ i, clauses.points[i]? = some pt ∧
      k + j = k + 2 + body.points.length + ((clauseGuards b statement n body).length + 1) + i) ∨
    ∃ i, last.points[i]? = some pt ∧
      k + j = k + 2 + body.points.length + ((clauseGuards b statement n body).length + 1) +
        clauses.points.length + ((lastGuard b statement n body clauses).length + 1) + i := by
  have hcases : ∀ {ps qs : List Point} {j : Nat}, (ps ++ qs)[j]? = some pt →
      ps[j]? = some pt ∨ ∃ i, qs[i]? = some pt ∧ j = ps.length + i := by
    intro ps qs j h
    rcases Nat.lt_or_ge j ps.length with hlt | hge
    · rw [getElem?_append_left hlt] at h
      exact .inl h
    · rw [getElem?_append_right hge] at h
      exact .inr ⟨_, h, by omega⟩
  -- What lies between the parts has no site.
  have hgap : ∀ {ps : List Point} {j : Nat}, (∀ pt ∈ ps, pt.site? = none) → ps[j]? ≠ some pt := by
    intro ps j h hj
    rw [h pt (mem_of_getElem? hj)] at hsite
    cases hsite
  rcases hcases hj with h1 | ⟨i1, h1, rfl⟩
  · exact absurd h1 (hgap (by simp [site?]))
  rcases hcases h1 with h2 | ⟨i2, h2, rfl⟩
  · exact .inl ⟨i1, h2, (Nat.add_assoc k 2 i1).symm⟩
  rcases hcases h2 with h3 | ⟨i3, h3, rfl⟩
  · exact absurd h3 (hgap (by simp [site?, clauseGuards]))
  rcases hcases h3 with h4 | ⟨i4, h4, rfl⟩
  · exact .inr (.inl ⟨i3, h4, by simp only [length_cons, length_nil]; omega⟩)
  rcases hcases h4 with h5 | ⟨i5, h5, rfl⟩
  · exact absurd h5 (hgap (by simp [site?, lastGuard]))
  rcases hcases h5 with h6 | ⟨i6, h6, rfl⟩
  · exact .inr (.inr ⟨i5, h6, by simp only [length_cons, length_nil]; omega⟩)
  · exact absurd h6 (hgap (by simp [site?]))

/-- What is thrown in a part goes to the handlers inside the part, then to the clauses, and then
to the catch-all handler. -/
theorem Parts.out (hloc : Located pos k (assemble b statement status n body clauses last).points)
    {j : Nat} {pt : Point}
    (hj : (assemble b statement status n body clauses last).points[j]? = some pt)
    (hsite : pt.site? = some site) :
    (assemble b statement status n body clauses last).points.filterMap (catches pos (k + j)) =
      b.handlersBelow site s site.scope := by
  have hfits : b.TryFits s statement := hb.fits hop
  have hlocB : Located pos (k + 2) body.points := hloc.right.left
  have hlocC : Located pos (k + 2 + body.points.length +
      ((clauseGuards b statement n body).length + 1)) clauses.points := hloc.right.right.right.left
  have hlocL : Located pos (k + 2 + body.points.length +
      ((clauseGuards b statement n body).length + 1) + clauses.points.length +
      ((lastGuard b statement n body clauses).length + 1)) last.points :=
    hloc.right.right.right.right.right.left
  have hwhole : (assemble b statement status n body clauses last).points.filterMap
      (catches pos (k + j)) = body.points.filterMap (catches pos (k + j)) ++
        ((clauseGuards b statement n body).filterMap (catches pos (k + j)) ++
        (clauses.points.filterMap (catches pos (k + j)) ++
        ((lastGuard b statement n body clauses).filterMap (catches pos (k + j)) ++
        last.points.filterMap (catches pos (k + j))))) := by
    simp [assemble, catches, filterMap_cons]
  have hstart := h.start
  have hbodyEnd := h.bodyEnd
  have hclausesEnd := h.clausesEnd
  rcases mem_assemble k hj hsite with ⟨i, hi, hpos⟩ | ⟨i, hi, hpos⟩ | ⟨i, hi, hpos⟩ <;>
    rw [hwhole, hpos]
  · have hlt := (List.getElem?_eq_some_iff.mp hi).1
    have hguards : b.Guards statement.frame statement.body :=
      ⟨hfits.frame, statement.body, .refl, hfits.body.1, by rw [hfits.body.2]; rfl⟩
    have hopen := h.inBody.toHoled.not_open_iff hi hsite hguards
    rw [← hfits.id] at hopen
    rw [h.inBody.out i pt site hi hsite, h.inClauses.docked.catches_outside hlocC (.inl (by omega)),
      h.inLast.docked.catches_outside hlocL (.inl (by omega))]
    by_cases hesc : b.Escapes statement.frame site
    · rw [handlersBelow_statement hb hop [] (fun _ => rfl) fun _ h => absurd hesc h,
        filterMap_clauseGuards_nil fun _ _ hc => hopen.mp hc hesc,
        filterMap_lastGuard_nil fun _ _ hc => hopen.mp
          (fun hole hhole => hc hole (mem_append_left _ hhole)) hesc]
      simp
    · have hholes := hopen.mpr hesc
      rw [handlersBelow_statement hb hop (statement.clauseHandlers b ++ statement.lastHandler b)
          (fun h => absurd h hesc) fun x _ hx hw hg => ?_,
        filterMap_clauseGuards ⟨by omega, by omega, hholes⟩,
        filterMap_lastGuard ⟨by omega, by omega, fun hole hhole => ?_⟩]
      · simp
      · rcases mem_append.mp hhole with hhole | hhole
        · exact hholes hole hhole
        · exact h.inClauses.toHoled.not_open (.inl (by omega)) hole hhole
      · obtain ⟨copy', hexit, hcopy⟩ := hfits.bodyExit
        rw [h.exit] at hexit
        cases hexit
        have hpart := h.inBody.sites pt (mem_of_getElem? hi) site hsite
        rw [hpart.eq hb hfits.body.1 hcopy hx hw hg, hfits.body.2]
        rfl
  · have hlt := (List.getElem?_eq_some_iff.mp hi).1
    have hopen := h.inClauses.toHoled.not_open_iff hi hsite (.inl rfl)
    rw [← hfits.id] at hopen
    rw [h.inClauses.out i pt site hi hsite, h.inBody.docked.catches_outside hlocB (.inr (by omega)),
      h.inLast.docked.catches_outside hlocL (.inl (by omega)),
      filterMap_clauseGuards_nil fun _ hc => by omega]
    by_cases hesc : b.Escapes statement.frame site
    · rw [handlersBelow_statement hb hop [] (fun _ => rfl) fun _ h => absurd hesc h,
        filterMap_lastGuard_nil fun _ _ hc => hopen.mp
          (fun hole hhole => hc hole (mem_append_right _ hhole)) hesc]
      simp
    · have hholes := hopen.mpr hesc
      rw [handlersBelow_statement hb hop (statement.lastHandler b)
          (fun h => absurd h hesc) fun x _ hx hw hg => ?_,
        filterMap_lastGuard ⟨by omega, by omega, fun hole hhole => ?_⟩]
      · simp
      · rcases mem_append.mp hhole with hhole | hhole
        · exact h.inBody.toHoled.not_open (.inr (by omega)) hole hhole
        · exact hholes hole hhole
      · obtain ⟨clause, hclause, copy, _, hcopy, hpart⟩ :=
          h.inClauses.sites pt (mem_of_getElem? hi) site hsite
        obtain ⟨hparent, hkind, _⟩ := hfits.clauses clause hclause
        rw [hpart.eq hb hparent hcopy hx hw hg, hkind]
        rfl
  · obtain ⟨handler, hhandler, hr⟩ := h.inLast.sites pt (mem_of_getElem? hi) site hsite
    obtain ⟨hparent, hkind, _⟩ := hfits.catchAll handler hhandler
    have hesc : b.Escapes statement.frame site :=
      .inl (hr.not_guards hb hparent (by rw [hkind]; rfl))
    rw [h.inLast.out i pt site hi hsite, h.inBody.docked.catches_outside hlocB (.inr (by omega)),
      h.inClauses.docked.catches_outside hlocC (.inr (by omega)),
      filterMap_clauseGuards_nil fun _ hc => by omega, filterMap_lastGuard_nil fun _ hc => by omega,
      handlersBelow_statement hb hop [] (fun _ => rfl) fun _ h => absurd hesc h]
    simp

end assembled

/-- A part goes to the clauses of the statement first, and then to what is around it. -/
theorem routes_tryCatch {statement : TryStatement} (hb : b.Sound)
    (hop : .tryCatch statement ∈ b.operations s)
    (hinner : ∀ c ∈ (Operation.tryCatch statement).nested, ∀ status,
      RoutesScope b pos c (inner c status))
    (hdocked : ∀ c status n, Docked (fun _ => False) (inner c status n)) (status : Status) :
    RoutesScope b pos s (tryCatch b inner s status statement) := by
  intro n k hloc
  have hfits : b.TryFits s statement := hb.fits hop
  obtain ⟨copy, hexit, hcopy⟩ := hfits.bodyExit
  have hdocked : Docked (fun _ => False) (tryCatch b inner s status statement n) :=
    docked_tryCatch hdocked s status statement n
  rw [tryCatch_apply] at hloc hdocked ⊢
  have hbody : Routes b pos (b.Guards · statement.body) statement.frame
      (InPart b statement.body copy) (guarded b inner s statement.frame statement.body status
        status.kept statement.bodyExit) := by
    rw [hexit]
    refine routes_guarded hb hfits.parent hfits.body.1 (by rw [hfits.body.2]; rfl) hcopy _
      (hinner _ (mem_nested_tryCatch.mpr (.inl rfl)) _)
        (hinner _ (mem_nested_tryCatch.mpr (.inr (.inl ?_))) _)
    rw [hexit]
    exact .head _
  have hparts : Parts b pos s statement copy n k (bodyPart b inner s status statement n)
      (clauseParts b inner s status statement n) (lastPart b inner s status statement n) :=
    { exit := hexit
      start := hloc 1 ⟨n⟩ none rfl
      bodyEnd := hloc.right.right 0 _ none rfl
      clausesEnd := hloc.right.right.right.right 0 _ none rfl
      inBody := hbody _ _ hloc.right.left
      inClauses := routes_clauses hb hinner hfits status _ _ hloc.right.right.right.left
      inLast := routes_last hb hinner hfits status _ _ hloc.right.right.right.right.right.left }
  exact ⟨hparts.holed hb hop, hdocked, fun j pt site hj hsite => hparts.out hb hop hloc hj hsite⟩

/-! ## Operations -/

section operations

variable {op : Operation}

theorem routes_nested (hb : b.Sound) (hop : op ∈ b.operations s) (hc : c ∈ op.owned)
    (hkind : ∀ x ∈ op.owned, b.kindOf x ≠ .tryFrame) (hw : b.Within s c) {p : Plot}
    (h : RoutesScope b pos c p) : RoutesScope b pos s p := by
  have hmem := mem_owned hop hc
  refine h.mono (fun x hx => hx.mono hw) (fun site hr => (Body.Region.of_owned hmem).trans hr)
    fun site hr => hr.handlersBelow_eq hb (fun q hk hq => ?_) fun q _ hq => ?_
  · exact ((nests hb hop hc).within hc hq).resolve_left fun hown => hkind q hown hk
  · exact Nat.lt_of_le_of_lt (hq.le hb.descends) (hb.owned_gt hmem)

theorem exiting_operation (hb : b.Finished) (hs : b.Region 0 s) (hop : op ∈ b.operations s)
    {destination : Option Nat} {cleanups : List Cleanup}
    (hexit : op.exit? = some (destination, cleanups))
    (hfits : b.ExitFits s destination cleanups) (hown : ∀ c ∈ cleanups, c.scope ∈ op.owned) :
    b.Exiting s s destination cleanups where
  fits := hfits
  all x hx hleaves := by
    obtain ⟨hk, y, hy, hyx, hg⟩ := hx
    rcases (hs.of_within hb.sound hy).eq_or_inside with rfl | ⟨t, _, ht⟩
    · exact absurd (hb.sound.descends hyx) (Nat.not_lt_zero _)
    · exact hb.complete hk hyx hg ht s op destination cleanups hy hop hexit hleaves
  inside _ _ hq := hq
  later cleanup hmem q _ hq := Nat.lt_of_le_of_lt (hq.le hb.sound.descends)
    (hb.sound.owned_gt (mem_owned hop (hown cleanup hmem)))

variable (hb : b.Finished) (hs : b.Region 0 s) (hop : op ∈ b.operations s)
  (hinner : ∀ c ∈ op.nested, ∀ status, RoutesScope b pos c (inner c status))

include hb

theorem routes_atSite {p : Plot} (hsite : AtSite ⟨s, none⟩ p) : RoutesScope b pos s p :=
  .atSite hsite (.refl) (plain_scope hb.sound s)

theorem routes_goto (l : Label) : RoutesScope b pos s (goto ⟨s, none⟩ l) :=
  routes_atSite hb (.branch _)

include hop hinner

theorem routes_child (hc : c ∈ op.nested) (hkind : ∀ x ∈ op.owned, b.kindOf x ≠ .tryFrame)
    (hw : b.Within s c) (status : Status) : RoutesScope b pos s (enclosed b inner c status) :=
  routes_nested hb.sound hop (mem_owned_of_nested hc) hkind hw
    (routes_enclosed (hinner c hc status))

theorem routes_switch (homes : Array Home) {statement : SwitchStatement}
    (heq : op = .switch statement) (status : Status) :
    RoutesScope b pos s (switch b homes inner s status statement) := by
  subst heq
  have hfits : b.SwitchFits s statement := hb.sound.fits hop
  have hkind : ∀ x ∈ (Operation.switch statement).owned, b.kindOf x ≠ .tryFrame := by
    intro x hx hk
    rcases mem_append.mp hx with hx | hx
    · cases mem_singleton.mp hx
      rw [hfits.frame] at hk
      cases hk
    · obtain ⟨arm, harm, rfl⟩ := mem_map.mp hx
      have hplain := (hfits.arms arm harm).2.1
      rw [hk] at hplain
      cases hplain
  refine (((Routes.label.append (routes_atSite hb (.dispatch _ _))).append
    (.concat fun arm harm => .append ?_ ?_)).append .label)
  · refine routes_child hb hop hinner (mem_map.mpr ⟨arm, harm, rfl⟩) hkind ?_ _
    exact (Body.Within.of_parent hfits.parent).trans (.of_parent (hfits.arms arm harm).1)
  · split
    · exact .nil
    · exact routes_goto hb _

include hs

theorem routes_operation (hdocked : ∀ c status n, Docked (fun _ => False) (inner c status n))
    (homes : Array Home) (status : Status) :
    RoutesScope b pos s (operation b homes inner s status op) := by
  have hfits := hb.sound.fits hop
  have hcond : ∀ (o : Operand) (br : Branch), RoutesScope b pos s
      (load b homes ⟨s, none⟩ o ++ branch ⟨s, none⟩ br) := fun o br =>
    routes_atSite hb ((AtSite.load o).append (.branch br))
  have hplain : ∀ {c}, b.Child s c → b.kindOf c ≠ .tryFrame := fun hchild hk => by
    have h := hchild.2.1
    rw [hk] at h
    cases h
  cases op with
  | simple act os result => exact routes_atSite hb (.simple _ _ _ _)
  | block nested =>
    refine routes_child hb hop hinner (.head _) (fun x hx => ?_)
      (.of_parent hfits.1) status
    cases mem_singleton.mp hx
    exact hplain hfits
  | branch cond whenTrue whenFalse =>
    have hkind : ∀ x ∈ (Operation.branch cond whenTrue whenFalse).owned,
      b.kindOf x ≠ .tryFrame := by
      intro x hx
      rcases mem_append.mp (show x ∈ whenFalse.toList ++ [whenTrue] from hx) with hx | hx
      · exact hplain (hfits.2 x (Option.mem_toList.mp hx))
      · cases mem_singleton.mp hx
        exact hplain hfits.1
    have htrue := routes_child hb hop hinner (mem_append_right _ (.head _))
      hkind (.of_parent hfits.1.1) ⟨[], status.kept⟩
    cases whenFalse with
    | none => exact (hcond _ _).append htrue
    | some whenFalse =>
      have hfalse := routes_child hb hop hinner
        (mem_append_left _ (.head _)) hkind
        (.of_parent (hfits.2 whenFalse rfl).1) ⟨[], status.kept⟩
      exact (((hcond _ _).append hfalse).append (routes_goto hb _)).append htrue
  | loop looped update =>
    have hkind : ∀ x ∈ (loop looped update).owned, b.kindOf x ≠ .tryFrame := by
      intro x hx
      rcases mem_cons.mp hx with rfl | hx
      · rw [hfits.2.1]
        decide
      · rw [(hfits.2.2 x (Option.mem_toList.mp hx)).2]
        decide
    have hbody : RoutesScope b pos s (inner looped status) :=
      routes_nested hb.sound hop (.head ..) hkind (.of_parent hfits.1)
        (hinner looped (.head ..) status)
    refine ((((Routes.label.append hbody).append .label).append (.concat fun c hc => ?_)).append
      (routes_goto hb _)).append .label
    have hupdate := (hfits.2.2 c (Option.mem_toList.mp hc)).1
    exact routes_child hb hop hinner (.tail _ hc) hkind
      ((Body.Within.of_parent hfits.1).trans (.of_parent hupdate)) _
  | exitUnless cond target => exact hcond _ _
  | jump kind target cleanups =>
    refine routes_exit hb.sound (exiting_operation hb hs hop rfl hfits.2.2 fun c hc =>
      mem_map.mpr ⟨c, hc, rfl⟩) (fun c hc => hinner _ (mem_map.mpr ⟨c, hc, rfl⟩) _) .refl
      (fun c hc site hr => ?_) (.branch _)
    exact (Body.Region.of_owned (mem_owned hop (mem_map.mpr ⟨c, hc, rfl⟩))).trans hr
  | ret value cleanups =>
    refine routes_exit hb.sound (exiting_operation hb hs hop rfl hfits.2 fun c hc =>
      mem_map.mpr ⟨c, hc, rfl⟩) (fun c hc => hinner _ (mem_map.mpr ⟨c, hc, rfl⟩) _) .refl
      (fun c hc site hr => ?_) ((AtSite.loads _).append (.branch _))
    exact (Body.Region.of_owned (mem_owned hop (mem_map.mpr ⟨c, hc, rfl⟩))).trans hr
  | throw value => exact hcond _ _
  | tryCatch statement => exact routes_tryCatch hb.sound hop hinner hdocked status
  | switch statement => exact routes_switch hb hop hinner homes rfl status

end operations

theorem routes_operations (hb : b.Finished) (homes : Array Home) (depth : Nat) (hs : b.Region 0 s)
    (status : Status) : RoutesScope b pos s (operations b homes depth s status) := by
  induction depth generalizing s status with
  | zero => exact .nil
  | succ depth ih =>
    have hall : ∀ ops, (∀ op ∈ ops, op ∈ b.operations s) → ∀ status,
        RoutesScope b pos s (inOrder b homes (operations b homes depth) s ops status) := by
      intro ops
      induction ops with
      | nil => exact fun _ _ => .nil
      | cons op ops ih' =>
        intro hops status
        have hop := hops op (.head ..)
        refine (routes_operation hb hs hop (fun c hc status => ih ?_ status)
          (docked_operations b homes depth) homes status).append
          (ih' (fun o ho => hops o (.tail _ ho)) _)
        exact .step hs (mem_owned hop (mem_owned_of_nested hc))
    exact hall _ (fun _ h => h) status

end Plot

variable {b : Body}

theorem Body.routed (hb : b.Finished) (homes : Array Home) {pos : Label → Nat}
    (hloc : Located pos 0 (b.plot homes b.nextLabel).points) :
    Plot.Routed b pos (b.Guards · 0) 0 (fun site => b.Region 0 site.scope) 0
      (b.plot homes b.nextLabel) :=
  Plot.routes_enclosed (Plot.routes_operations hb homes b.scopes.size .refl _) _ _ hloc

end ClassAssembler
