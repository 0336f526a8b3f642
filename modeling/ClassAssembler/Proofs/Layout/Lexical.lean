import ClassAssembler.Proofs.Body.Homes
import ClassAssembler.Proofs.Layout.Plot

/-!
# Lexical handlers

The handlers in force at an instruction are those of the try statements around the scope that it
works for, the innermost statement first.
-/

namespace ClassAssembler

open List

/-- Where a handler begins, and the class it catches, or none if it catches everything. -/
abbrev Handler := Label × Option ClassName

namespace TryStatement

variable (b : Body) (statement : TryStatement)

def clauseHandlers : List Handler :=
  statement.clauses.map fun clause => (Lay.entryOf b clause.scope, some clause.caught)

def lastHandler : List Handler :=
  statement.catchAll.toList.map fun handler => (Lay.entryOf b handler, none)

/-- The handlers in force in a part of a statement, by the kind of the part. -/
def handlersIn : ScopeKind → List Handler
  | .tryBody => statement.clauseHandlers b ++ statement.lastHandler b
  | .catchClause => statement.lastHandler b
  | _ => []

end TryStatement

def Operation.statement? (frame : Nat) : Operation → Option TryStatement
  | tryCatch statement => if statement.frame = frame then some statement else none
  | _ => none

def Site.leaves (b : Body) (site : Site) (frame : Nat) : Bool :=
  match site.exit with
  | none => false
  | some none => true
  | some (some destination) => !b.encloses frame destination

namespace Body

variable (b : Body)

def around (scope : Nat) : List Nat := outward b.scopes (scope + 1) scope

def statementOf? (frame : Nat) : Option TryStatement :=
  (b.parentOf frame).bind fun scope =>
    (b.operations scope).findSome? (Operation.statement? frame)

def handlersOf (site : Site) (part : Nat) : List Handler :=
  match b.parentOf part with
  | none => []
  | some frame =>
      if site.leaves b frame then []
      else (b.statementOf? frame).toList.flatMap fun statement =>
        statement.handlersIn b (b.kindOf part)

/-- The handlers in force at an instruction, by the scopes around it. -/
def lexicalHandlers (site : Site) : List Handler :=
  (b.around site.scope).flatMap (b.handlersOf site)

/-- Those of the lexical handlers that belong to statements inside a scope `c`. -/
def handlersBelow (site : Site) (c t : Nat) : List Handler :=
  ((b.around t).takeWhile fun x => !(b.parentOf x).any (b.encloses · c)).flatMap
    (b.handlersOf site)

/-- A statement does not handle what is thrown at a site: its handlers are not in force in the
scope, or the exit leaves it. -/
def Escapes (frame : Nat) (site : Site) : Prop :=
  ¬ b.Guards frame site.scope ∨ site.leaves b frame = true

variable {b} {s t c p x frame : Nat} {site : Site}

theorem site_leaves_iff (hd : b.Descends) {destination : Option Nat} :
    (Site.mk s (some destination)).leaves b frame = true ↔ b.Leaves frame destination := by
  cases destination with
  | none => exact ⟨fun _ _ h => (by cases h), fun _ => rfl⟩
  | some d =>
    have hleaves : (Site.mk s (some (some d))).leaves b frame = !b.encloses frame d := rfl
    rw [hleaves, Bool.not_eq_true', ← Bool.not_eq_true, encloses_iff hd]
    exact ⟨fun h _ heq => by cases heq; exact h, fun h => h d rfl⟩

theorem outward_eq (hd : b.Descends) {m n : Nat} (hm : t < m) (hn : t < n) :
    outward b.scopes m t = outward b.scopes n t := by
  induction m generalizing t n with
  | zero => omega
  | succ m ih =>
    cases n with
    | zero => omega
    | succ n =>
      rw [outward, outward]
      congr 1
      cases hp : b.parentOf t with
      | none =>
        have hp' : b.scopes[t]?.bind Scope.parent = none := hp
        rw [hp']
      | some p =>
        have hp' : b.scopes[t]?.bind Scope.parent = some p := hp
        rw [hp']
        have hlt := hd hp
        exact ih (by omega) (by omega)

theorem around_of_parent (hd : b.Descends) (hp : b.parentOf t = some p) :
    b.around t = t :: b.around p := by
  have hp' : b.scopes[t]?.bind Scope.parent = some p := hp
  rw [around, outward, hp', around]
  exact congrArg _ (outward_eq hd (hd hp) (Nat.lt_succ_self p))

theorem around_of_none (hp : b.parentOf t = none) : b.around t = [t] := by
  have hp' : b.scopes[t]?.bind Scope.parent = none := hp
  rw [around, outward, hp']

theorem handlersOf_of_none (hp : b.parentOf t = none) : b.handlersOf site t = [] := by
  rw [handlersOf, hp]

theorem handlersOf_of_leaves (hp : b.parentOf t = some frame) (h : site.leaves b frame = true) :
    b.handlersOf site t = [] := by
  rw [handlersOf, hp]
  exact if_pos h

theorem handlersOf_of_kind (hb : b.Sound) (hp : b.parentOf t = some frame)
    (hk : b.kindOf frame ≠ .tryFrame) : b.handlersOf site t = [] := by
  have hnone : b.statementOf? frame = none := by
    rw [statementOf?, Option.bind_eq_none_iff]
    refine fun s _ => findSome?_eq_none_iff.mpr fun op hop => ?_
    cases op with
    | tryCatch statement =>
      refine if_neg ?_
      rintro rfl
      exact hk (hb.fits hop).frame
    | _ => rfl
  rw [handlersOf, hp]
  show (if _ then _ else _) = _
  rw [hnone]
  exact ite_self _

theorem handlersOf_of_unguarded (hk : (b.kindOf t).isGuarded = false) :
    b.handlersOf site t = [] := by
  have hnil : ∀ statement : TryStatement, statement.handlersIn b (b.kindOf t) = [] := by
    intro statement
    cases h : b.kindOf t with
    | tryBody => rw [h] at hk; cases hk
    | catchClause => rw [h] at hk; cases hk
    | _ => rfl
  unfold handlersOf
  cases b.parentOf t with
  | none => rfl
  | some frame =>
    show (if _ then _ else _) = _
    simp [hnil]

theorem handlersBelow_of_none (hp : b.parentOf t = none) : b.handlersBelow site c t = [] := by
  rw [handlersBelow, around_of_none hp, takeWhile_cons, hp]
  simp [handlersOf_of_none hp]

section below

variable (hb : b.Sound)
include hb

theorem handlersBelow_of_within (hp : b.parentOf t = some p) (h : b.Within p c) :
    b.handlersBelow site c t = [] := by
  rw [handlersBelow, around_of_parent hb.descends hp, takeWhile_cons, hp]
  simp [(encloses_iff hb.descends).mpr h]

theorem handlersBelow_of_not_within (hp : b.parentOf t = some p) (h : ¬ b.Within p c) :
    b.handlersBelow site c t = b.handlersOf site t ++ b.handlersBelow site c p := by
  have h' : b.encloses p c = false := by
    rw [← Bool.not_eq_true, encloses_iff hb.descends]
    exact h
  rw [handlersBelow, around_of_parent hb.descends hp, takeWhile_cons, hp]
  simp [h', handlersBelow]

theorem handlersBelow_eq_nil
    (h : ∀ q, b.Within q t → q ≠ t → b.kindOf q = .tryFrame → b.Within q c) :
    b.handlersBelow site c t = [] := by
  induction t using Nat.strongRecOn with
  | ind t ih =>
    cases hp : b.parentOf t with
    | none => exact handlersBelow_of_none hp
    | some p =>
      have hpt : b.Within p t := .of_parent hp
      have hlt := hb.descends hp
      have hrest : ∀ q, b.Within q p → b.kindOf q = .tryFrame → b.Within q c := fun q hq =>
        h q (hq.trans hpt) (Nat.ne_of_lt (Nat.lt_of_le_of_lt (hq.le hb.descends) hlt))
      by_cases hw : b.Within p c
      · exact handlersBelow_of_within hb hp hw
      · rw [handlersBelow_of_not_within hb hp hw, ih p hlt fun q hq _ => hrest q hq,
          handlersOf_of_kind hb hp fun hk => hw (hrest p .refl hk)]
        rfl

theorem handlersBelow_congr (h : ∀ q, b.Within q t → q ≠ t → b.kindOf q = .tryFrame →
      (b.Within q c ↔ b.Within q s)) :
    b.handlersBelow site c t = b.handlersBelow site s t := by
  induction t using Nat.strongRecOn with
  | ind t ih =>
    cases hp : b.parentOf t with
    | none => rw [handlersBelow_of_none hp, handlersBelow_of_none hp]
    | some p =>
      have hlt := hb.descends hp
      have hrest : ∀ q, b.Within q p → b.kindOf q = .tryFrame → (b.Within q c ↔ b.Within q s) :=
        fun q hq => h q (hq.trans (.of_parent hp))
          (Nat.ne_of_lt (Nat.lt_of_le_of_lt (hq.le hb.descends) hlt))
      have hstrict : ∀ {q}, b.Within q t → q ≠ t → b.Within q p := fun hq hne =>
        ((Within.iff_parent hp).mp hq).resolve_left hne
      -- Where one of the walks ends, no more statements come on the other.
      by_cases hc : b.Within p c
      · rw [handlersBelow_of_within hb hp hc, handlersBelow_eq_nil hb fun q hq hne hk =>
          (hrest q (hstrict hq hne) hk).mp ((hstrict hq hne).trans hc)]
      · by_cases hs : b.Within p s
        · rw [handlersBelow_of_within hb hp hs, handlersBelow_eq_nil hb fun q hq hne hk =>
            (hrest q (hstrict hq hne) hk).mpr ((hstrict hq hne).trans hs)]
        · rw [handlersBelow_of_not_within hb hp hc, handlersBelow_of_not_within hb hp hs,
            ih p hlt fun q hq _ => hrest q hq]

theorem lexicalHandlers_eq : b.lexicalHandlers site = b.handlersBelow site 0 site.scope := by
  have key : ∀ t, (b.around t).flatMap (b.handlersOf site) = b.handlersBelow site 0 t := by
    intro t
    induction t using Nat.strongRecOn with
    | ind t ih =>
      cases hp : b.parentOf t with
      | none => rw [handlersBelow_of_none hp, around_of_none hp, flatMap_singleton,
          handlersOf_of_none hp]
      | some p =>
        rw [around_of_parent hb.descends hp, flatMap_cons, ih p (hb.descends hp)]
        by_cases hw : b.Within p 0
        · cases Nat.le_zero.mp (hw.le hb.descends)
          have hroot : b.parentOf 0 = none := by
            cases h : b.parentOf 0 with
            | none => rfl
            | some q => exact absurd (hb.descends h) (Nat.not_lt_zero _)
          rw [handlersBelow_of_within hb hp hw, handlersBelow_of_none hroot,
            handlersOf_of_kind hb hp (by rw [hb.root]; decide)]
          rfl
        · rw [handlersBelow_of_not_within hb hp hw]
  exact key site.scope

theorem handlersBelow_part (hframe : b.parentOf frame = some s) (hx : b.parentOf x = some frame)
    (hw : b.Within x t) :
    b.handlersBelow site s t = b.handlersBelow site frame t ++ b.handlersOf site x := by
  have hs : ∀ {p}, b.Within frame p → ¬ b.Within p s := fun hf hps =>
    absurd ((hf.trans hps).le hb.descends) (Nat.not_le.mpr (hb.descends hframe))
  induction hw with
  | refl =>
    rw [handlersBelow_of_within hb hx .refl, handlersBelow_of_not_within hb hx (hs .refl),
      handlersBelow_of_within hb hframe .refl, List.append_nil]
    rfl
  | @step t p hp hw ih =>
    have hfx : b.Within frame x := .of_parent hx
    have hframe' : ¬ b.Within p frame := fun h =>
      absurd ((hw.trans h).le hb.descends) (Nat.not_le.mpr (hb.descends hx))
    rw [handlersBelow_of_not_within hb hp (hs (hfx.trans hw)),
      handlersBelow_of_not_within hb hp hframe', ih, List.append_assoc]

theorem handlersBelow_frame (hframe : b.parentOf frame = some s) (hk : b.kindOf frame = .tryFrame)
    {added : List Handler} (hescapes : b.Escapes frame site → added = [])
    (hguards : ∀ x, ¬ b.Escapes frame site → b.parentOf x = some frame →
      b.Within x site.scope → (b.kindOf x).isGuarded → b.handlersOf site x = added) :
    b.handlersBelow site s site.scope = b.handlersBelow site frame site.scope ++ added := by
  by_cases hw : b.Within frame site.scope ∧ frame ≠ site.scope
  · obtain ⟨x, hxt, hx⟩ := hw.1.child hw.2
    rw [handlersBelow_part hb hframe hx hxt]
    congr 1
    by_cases hesc : b.Escapes frame site
    · rw [hescapes hesc]
      rcases hesc with hguards | hleaves
      · refine handlersOf_of_unguarded ?_
        rw [← Bool.not_eq_true]
        exact fun hg => hguards ⟨hk, x, hxt, hx, hg⟩
      · exact handlersOf_of_leaves hx hleaves
    · obtain ⟨y, hyt, hy, hg⟩ := (Classical.not_not.mp fun h => hesc (.inl h)).2
      cases Within.child_unique hb.descends hxt hx hyt hy
      exact hguards x hesc hx hxt hg
  · have hesc : b.Escapes frame site := by
      refine .inl fun hg => ?_
      obtain ⟨_, y, hyt, hy, _⟩ := hg
      have hne : frame ≠ site.scope := fun heq =>
        absurd (hyt.le hb.descends) (Nat.not_le.mpr (heq ▸ hb.descends hy))
      exact hw ⟨(Within.of_parent hy).trans hyt, hne⟩
    rw [hescapes hesc, List.append_nil]
    refine handlersBelow_congr hb fun q hq hne _ => ?_
    rw [Within.iff_parent hframe]
    refine ⟨.inr, fun h => h.resolve_left ?_⟩
    rintro rfl
    exact hw ⟨hq, hne⟩

theorem Region.within (h : b.Region c t) (hw : b.Within x t) : b.Region c x ∨ b.Within x c := by
  induction h generalizing x with
  | refl => exact .inr hw
  | step h hc ih =>
    obtain ⟨op, hop, hc⟩ := mem_flatMap.mp hc
    rcases (nests hb hop hc).within hc hw with hmem | hw
    · exact .inl (.step h (mem_owned hop hmem))
    · exact ih hw

theorem Region.handlersBelow_eq (h : b.Region c t)
    (hout : ∀ q, b.kindOf q = .tryFrame → b.Within q c → b.Within q s)
    (hlt : ∀ q, b.kindOf q = .tryFrame → b.Within q s → q < c) :
    b.handlersBelow site c t = b.handlersBelow site s t := by
  refine handlersBelow_congr hb fun q hq _ hk => ⟨hout q hk, fun hs => ?_⟩
  rcases h.within hb hq with hr | hw
  · exact absurd (hr.le hb) (Nat.not_le.mpr (hlt q hk hs))
  · exact hw

theorem Region.eq_of_parent (h : b.Region c x) (hp : b.parentOf x = some frame) (hlt : frame < c)
    (hk : b.kindOf x ≠ .finallyCopy) : x = c := by
  cases h with
  | refl => rfl
  | step h hc =>
    obtain ⟨op, hop, hc⟩ := mem_flatMap.mp hc
    have hle := h.le hb
    cases nests hb hop hc with
    | child hp' =>
      rw [hp] at hp'
      cases hp'
      omega
    | part hmem hp' _ _ =>
      rw [hp] at hp'
      cases hp'
      have hgt := hb.owned_gt (mem_owned hop hmem)
      omega
    | copy _ hk' _ => exact absurd hk' hk

theorem Region.guarded_part (h : b.Region c t) (hp : b.parentOf c = some frame)
    (hx : b.parentOf x = some frame) (hw : b.Within x t) (hg : (b.kindOf x).isGuarded) : x = c := by
  rcases h.within hb hw with hr | hw
  · refine hr.eq_of_parent hb hx (hb.descends hp) fun hk => ?_
    rw [hk] at hg
    cases hg
  · exact Within.child_unique hb.descends hw hx .refl hp

theorem Region.not_guards (h : b.Region c t) (hp : b.parentOf c = some frame)
    (hc : (b.kindOf c).isGuarded = false) : ¬ b.Guards frame t := by
  rintro ⟨_, x, hw, hx, hg⟩
  cases h.guarded_part hb hp hx hw hg
  rw [hc] at hg
  cases hg

theorem statementOf?_eq {statement : TryStatement} (hop : .tryCatch statement ∈ b.operations s) :
    b.statementOf? statement.frame = some statement := by
  rw [statementOf?, (hb.fits hop).parent]
  show (b.operations s).findSome? _ = _
  -- A frame is owned once, so no other statement has it.
  obtain ⟨l1, l2, hops⟩ := append_of_mem hop
  have hnodup := hb.owned_nodup s
  rw [owned, hops, flatMap_append, flatMap_cons] at hnodup
  have hdisj := (nodup_append.mp hnodup).2.2
  have hbefore : l1.findSome? (Operation.statement? statement.frame) = none := by
    refine findSome?_eq_none_iff.mpr fun op hop => ?_
    cases op with
    | tryCatch other =>
      refine if_neg fun heq => ?_
      exact hdisj statement.frame (mem_flatMap.mpr ⟨_, hop, by
        rw [← heq]; exact .head ..⟩) _ (mem_append_left _ (.head ..)) rfl
    | _ => rfl
  have hself : Operation.statement? statement.frame (.tryCatch statement) = some statement :=
    if_pos rfl
  rw [hops, findSome?_append, hbefore, Option.none_or, findSome?_cons, hself]

omit hb in
theorem Guards.mono (hg : b.Guards x s) (hw : b.Within s t) : b.Guards x t := by
  obtain ⟨htry, y, hy, hyx, hguarded⟩ := hg
  exact ⟨htry, y, hy.trans hw, hyx, hguarded⟩

theorem Guards.of_lt (hg : b.Guards x s) (hw : b.Within frame s) (hk : b.kindOf frame = .tryFrame)
    (hlt : x < frame) : b.Guards x frame := by
  obtain ⟨htry, y, hy, hyx, hguarded⟩ := hg
  refine ⟨htry, y, ?_, hyx, hguarded⟩
  rcases hy.total hw with h | h
  · exact h
  · rcases (Within.iff_parent hyx).mp h with rfl | h
    · rw [hk] at hguarded
      cases hguarded
    · exact absurd (h.le hb.descends) (Nat.not_le.mpr hlt)

end below

/-- An exit from `s`, which is inside the same statements as `c`, runs the copies of all
statements that it leaves. -/
structure Exiting (b : Body) (s c : Nat) (destination : Option Nat) (cleanups : List Cleanup) :
    Prop where
  fits : b.ExitFits s destination cleanups
  all : ∀ x, b.Guards x s → b.Leaves x destination → b.tryNumber x ∈ cleanups.map Cleanup.owner
  inside : ∀ q, b.kindOf q = .tryFrame → b.Within q s → b.Within q c
  later : ∀ cleanup ∈ cleanups, ∀ q, b.kindOf q = .tryFrame → b.Within q c → q < cleanup.scope

theorem tryNumber_le (hs : b.kindOf s = .tryFrame) (h : b.tryNumber t ≤ b.tryNumber s) : t ≤ s := by
  rcases Nat.lt_or_ge s t with hlt | hge
  · exact absurd (tryNumber_lt hs hlt) (Nat.not_lt.mpr h)
  · exact hge

namespace Exiting

variable {destination : Option Nat} {cleanups l1 l2 : List Cleanup} {cleanup : Cleanup}
  (hb : b.Sound) (h : b.Exiting s c destination cleanups)

theorem frame_of_mem {id : Nat} (h : b.Exiting s c destination cleanups)
    (hid : id ∈ cleanups.map Cleanup.owner) :
    ∃ frame, b.Guards frame s ∧ b.Leaves frame destination ∧ b.tryNumber frame = id := by
  obtain ⟨cleanup, hmem, rfl⟩ := mem_map.mp hid
  obtain ⟨frame, hcopy, hguards, hleaves⟩ := h.fits.each cleanup hmem
  exact ⟨frame, hguards, hleaves, hcopy.owner.symm⟩

theorem leaves_iff_mem (h : b.Exiting s c destination cleanups) (hg : b.Guards x s) :
    b.Leaves x destination ↔ b.tryNumber x ∈ cleanups.map Cleanup.owner := by
  refine ⟨h.all x hg, fun hid => ?_⟩
  obtain ⟨frame, hguards, hleaves, heq⟩ := h.frame_of_mem hid
  cases tryNumber_inj hguards.1 hg.1 heq
  exact hleaves

include hb h

theorem not_guards (hcleanups : cleanups = l1 ++ cleanup :: l2) (hg : b.Guards x s)
    (hid : b.tryNumber x ∈ l1.map Cleanup.owner ++ [cleanup.owner])
    (ht : b.Region cleanup.scope t) : ¬ b.Guards x t := by
  have hmem : cleanup ∈ cleanups := by rw [hcleanups]; simp
  obtain ⟨frame, hcopy, hguards, _⟩ := h.fits.each cleanup hmem
  have hle : b.tryNumber frame ≤ b.tryNumber x := by
    rw [← hcopy.owner]
    rcases mem_append.mp hid with hid | hid
    · obtain ⟨other, hother, heq⟩ := mem_map.mp hid
      have hordered := h.fits.ordered
      rw [hcleanups] at hordered
      have hlt := (pairwise_append.mp hordered).2.2 other hother cleanup (.head ..)
      omega
    · exact Nat.le_of_eq (mem_singleton.mp hid).symm
  have hle := tryNumber_le hg.1 hle
  have hlt : x < cleanup.scope := h.later cleanup hmem x hg.1 (h.inside x hg.1 hg.within)
  intro hgt
  obtain ⟨_, y, hy, hyx, hguarded⟩ := ht.guards hb (Nat.le_of_lt hlt) hgt
  rcases (Within.iff_parent hcopy.parent).mp hy with rfl | hy
  · rw [hcopy.kind] at hguarded
    cases hguarded
  · have hyle := hy.le hb.descends
    have hxy := hb.descends hyx
    omega

theorem guards_copy (hcleanups : cleanups = l1 ++ cleanup :: l2) (hg : b.Guards x s)
    (hid : b.tryNumber x ∉ l1.map Cleanup.owner ++ [cleanup.owner]) : b.Guards x cleanup.scope := by
  have hmem : cleanup ∈ cleanups := by rw [hcleanups]; simp
  obtain ⟨frame, hcopy, hguards, hleaves⟩ := h.fits.each cleanup hmem
  have hlt : x < frame := by
    by_cases hx : b.Leaves x destination
    · -- The exit leaves the statement later.
      have howner := h.all x hg hx
      rw [hcleanups, List.map_append, map_cons, append_cons, mem_append] at howner
      obtain ⟨other, hother, heq⟩ := mem_map.mp (howner.resolve_left hid)
      have hordered := h.fits.ordered
      rw [hcleanups] at hordered
      have hnumber := rel_of_pairwise_cons (pairwise_append.mp hordered).2.1 hother
      rw [heq, hcopy.owner] at hnumber
      rcases Nat.lt_or_ge x frame with hlt | hge
      · exact hlt
      · rcases Nat.lt_or_eq_of_le hge with hlt | rfl
        · have := tryNumber_lt hcopy.isTry hlt
          omega
        · omega
    · have hne : x ≠ frame := fun heq => hx (heq ▸ hleaves)
      have hwithin : ∃ d, destination = some d ∧ b.Within x d := by
        simpa [Leaves] using hx
      obtain ⟨d, hd, hxd⟩ := hwithin
      rcases hg.within.total hguards.within with hw | hw
      · exact Nat.lt_of_le_of_ne (hw.le hb.descends) hne
      · exact absurd (hw.trans hxd) (hleaves d hd)
  exact (hg.of_lt hb hguards.within hcopy.isTry hlt).mono (.of_parent hcopy.parent)

theorem handlersBelow_eq (hmem : cleanup ∈ cleanups) (ht : b.Region cleanup.scope t) :
    b.handlersBelow site cleanup.scope t = b.handlersBelow site c t := by
  obtain ⟨frame, hcopy, hguards, _⟩ := h.fits.each cleanup hmem
  refine ht.handlersBelow_eq hb (fun q hk hq => ?_) (h.later cleanup hmem)
  rcases (Within.iff_parent hcopy.parent).mp hq with rfl | hq
  · rw [hcopy.kind] at hk
    cases hk
  · exact h.inside q hk (hq.trans hguards.within)

end Exiting
end Body
end ClassAssembler
