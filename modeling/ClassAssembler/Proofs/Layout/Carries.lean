import ClassAssembler.Proofs.Layout.Computer

/-!
# Values on runs

At every point of a body it is known which values are in their slots, and which one is on top of
the stack. So what a value is changes only where a point brings it about, whatever else a run comes
to. `Charted.Carries` says what a plot does to values when its code is run.
-/

namespace ClassAssembler

open List Recorder Machine

/-- A body with its code, and what is known at the points that the code is recorded from. -/
structure Charted (b : Body) (code : Code) where
  ψ : Label → Option Status
  views : Nat → View
  pos : Label → Nat
  layout : Layout
  surveyed : Surveyed b b.allocate.homes ψ False views pos
  laid : b.layOut b.allocate.homes = .ok layout
  entries : code.entries = (List.range ((b.points b.allocate.homes).length + 1)).filterMap
    (kept? layout.nextLabel b.firstFree (b.points b.allocate.homes))
  ranges : code.ranges = (upTo false layout.nextLabel b.firstFree (b.points b.allocate.homes)
    (b.points b.allocate.homes).length).ranges.toList

theorem Body.exists_charted {b b' : Body} {code : Code} {notice : Notice} (hb : b.Finished)
    (hinit : b.completeInit = .ok b') (hcode : b.toCode = .ok (code, notice)) :
    Nonempty (Charted b' code) := by
  have hfinished := hb.completeInit hinit
  obtain ⟨layout, hlay, hentries, hranges⟩ := Body.toCode_kept hfinished.sound hinit hcode
  obtain ⟨ψ, views, pos, h⟩ := Body.exists_surveyed hfinished hlay False.elim
  exact ⟨⟨ψ, views, pos, layout, h, hlay, hentries, hranges⟩⟩

/-- The value that passing a point brings about or changes. -/
def Point.alters? : Point → Option Nat
  | yields v => some v
  | insn _ (.store v) _ => some v
  | _ => none

theorem Point.Tells.writes {may : Grant} {p : Point} {v : Nat} (h : p.Tells may)
    (hv : p.alters? = some v) : may.writes v := by
  unfold alters? at hv
  split at hv
  · cases hv
    exact h
  · cases hv
    exact h.2 _ rfl
  · cases hv

def renew {V : Type} (data : Nat → Option V) (v : Nat) (d : Option V) : Nat → Option V :=
  fun u => if u = v then d else data u

theorem renew_self {V : Type} (data : Nat → Option V) (v : Nat) (d : Option V) :
    renew data v d v = d := if_pos rfl

theorem renew_of_ne {V : Type} {u v : Nat} (h : u ≠ v) (data : Nat → Option V) (d : Option V) :
    renew data v d u = data u := if_neg h

theorem renew_renew {V : Type} (data : Nat → Option V) (v : Nat) (d d' : Option V) :
    renew (renew data v d) v d' = renew data v d' := by
  funext u
  unfold renew
  split <;> rfl

namespace Computer

variable {V W : Type} (K : Computer V W)

def found (homes : Array Home) (w : W) (v : Nat) : Option V :=
  match Lay.homeOf homes v with
  | .slot k => K.locals w (UInt16.ofNat k)
  | _ => none

/-- What the values are behind a point, given the state there. -/
def told (homes : Array Home) (w : W) (data : Nat → Option V) : Point → Nat → Option V
  | .yields v => renew data v (K.stack w).head?
  | .insn _ (.store v) _ => renew data v (K.found homes w v)
  | _ => data

/-- What is known is so: the values that are kept are in their slots, and the one that was yielded
is on the stack. -/
structure Tells (homes : Array Home) (σ : View) (data : Nat → Option V) (w : W) : Prop where
  kept : ∀ v ∈ σ.kept, ∀ k, Lay.homeOf homes v = .slot k → k < UInt16.size →
    K.locals w (UInt16.ofNat k) = data v
  top : ∀ v, σ.top = some v → (K.stack w).head? = data v

variable {K} {b : Body} {homes : Array Home} {ψ : Label → Option Status} {voids : Prop} {σ τ : View}
  {p : Point} {e : Entry} {data : Nat → Option V} {w w' : W}

theorem told_of_ne {v : Nat} (h : p.alters? ≠ some v) : K.told homes w data p v = data v := by
  unfold told
  split
  · exact renew_of_ne (fun hv => h (congrArg some hv.symm)) _ _
  · exact renew_of_ne (fun hv => h (congrArg some hv.symm)) _ _
  · rfl

namespace Tells

section

variable (h : K.Tells homes σ data w)
include h

theorem suits (hσ : σ.Suits voids τ) : K.Tells homes τ data w :=
  ⟨fun v hv => h.kept v (hσ.kept hv), fun v hv => h.top v (hσ.top v hv)⟩

/-- Where nothing is known of the stack, it is enough that the kept values stay. -/
theorem of_locals (hkept : τ.kept ⊆ σ.kept) (htop : τ.top = none)
    (hlocals : K.locals w' = K.locals w) : K.Tells homes τ data w' :=
  ⟨fun v hv k hk hlt => hlocals ▸ h.kept v (hkept hv) k hk hlt,
    fun v hv => by rw [htop] at hv; cases hv⟩

theorem pass (hmove : Plot.Move b homes ψ voids σ p τ)
    (hp : p.code? = none) : K.Tells homes τ (K.told homes w data p) w := by
  cases hmove with
  | reads => exact h
  | protect => exact h
  | @yields v hv _ =>
    refine ⟨fun u hu k hk hlt => ?_, fun u hu => ?_⟩
    · rw [told, renew_of_ne (fun heq : u = v => hv (heq ▸ hu))]
      exact h.kept u hu k hk hlt
    · cases hu
      rw [told, renew_self]
  | _ => cases hp

theorem next (hmove : Plot.Move b homes ψ voids σ p τ)
    (hnamed : Lay.Named homes [p]) (hp : p.code? = some e) (hact : K.act e w = .next w') :
    K.Tells homes τ (K.told homes w' data p) w' := by
  have hframe : (∀ i, e = .insn i → i.writes? = none) → K.locals w' = K.locals w := fun hwrites =>
    funext fun slot => K.frame (by rw [hact]; rfl) fun i hi => by
      rw [Instruction.writesTo, hwrites i hi]
  -- A write changes the words of one value.
  have hwrite : ∀ {i v k site}, p = .insn i (.store v) site → Lay.homeOf homes v = .slot k →
      b.Alone homes σ.kept v → (∀ u ∈ τ.kept, u ∈ σ.kept ∨ u = v) → τ.top = none →
      K.Tells homes τ (K.told homes w' data p) w' := by
    rintro i v k site rfl hk halone hkept htop
    cases hp
    refine ⟨fun u hu k' hk' hlt => ?_, fun _ hv => by rw [htop] at hv; cases hv⟩
    by_cases heq : u = v
    · subst heq
      rw [told, renew_self, found, hk']
    · have hmem := (hkept u hu).resolve_right heq
      rw [told, renew_of_ne heq, ← h.kept u hmem k' hk' hlt]
      refine K.frame (by rw [hact]; rfl) fun j hj => ?_
      cases hj
      rw [UInt16.toNat_ofNat_of_lt' hlt, ← Bool.not_eq_true, Memory.writesTo_iff hmove hnamed]
      exact fun hw => halone u hmem heq k' hw ⟨k', hk', .refl, by
        have := b.widthOf_pos u
        omega⟩
  cases hmove with
  | label hσ =>
    cases hp
    rw [K.label] at hact
    cases hact
    exact h.suits hσ
  | border =>
    cases hp
    rw [K.label] at hact
    cases hact
    exact h
  | plain hi =>
    cases hp
    exact h.of_locals (fun _ hv => hv) rfl (hframe fun j hj => by
      cases hj
      exact Memory.writes?_of_localAccess? hi)
  | load =>
    cases hp
    exact h.of_locals (fun _ hv => hv) rfl (hframe fun j hj => by cases hj; rfl)
  | store hk _ halone => exact hwrite rfl hk halone (by simp) rfl
  | inc hk _ _ _ halone => exact hwrite rfl hk halone (fun _ => .inl) rfl
  | branch _ _ hτ =>
    cases hp
    rw [hτ (K.sensible.next hact)]
    exact h.of_locals (fun _ hv => hv) rfl (hframe fun j hj => by cases hj)
  | _ => cases hp

end

end Tells
end Computer

namespace Charted

variable {b : Body} {code : Code} (chart : Charted b code)

abbrev points (_ : Charted b code) : List Point := b.points b.allocate.homes

abbrev free : Nat := chart.layout.nextLabel

def spot (i : Nat) : Nat := Recorder.spot chart.free b.firstFree chart.points i

def Stands (i : Nat) (e : Entry) : Prop :=
  ClassAssembler.Stands (kept? chart.free b.firstFree chart.points)
    (List.range (chart.points.length + 1)) i e

variable {chart} {i j k : Nat} {p : Point} {e : Entry} {l : Label}

variable (chart) in
theorem spot_le (h : i ≤ j) : chart.spot i ≤ chart.spot j := rank_le _ _ h

theorem Stands.entry (h : chart.Stands i e) : code.entries[chart.spot i]? = some e := by
  rw [chart.entries]
  exact stands_some_iff.mp (ClassAssembler.Stands.filterMap h)

theorem Stands.spot_succ (h : chart.Stands i e) : chart.spot (i + 1) = chart.spot i + 1 :=
  ClassAssembler.Stands.rank_succ h

theorem Stands.spot_lt (h : chart.Stands i e) (hij : i < j) : chart.spot i < chart.spot j :=
  ClassAssembler.Stands.rank_lt h hij

theorem stands_label (h : ClassAssembler.Stands Point.code? chart.points i (.label l)) :
    chart.Stands i (.label l) := kept_label h

theorem find?_label (h : ClassAssembler.Stands Point.code? chart.points i (.label l)) :
    find? some code.entries l = some (chart.spot i) := by
  rw [chart.entries]
  refine find?_filterMap (find?_eq_some_iff.mpr ⟨kept_label h, fun j hj hl => ?_⟩)
  exact Nat.ne_of_lt hj (Point.stands_unique chart.surveyed.regular.nodup (stands_kept_label hl) h)

theorem stands_of_kept? (hi : i < chart.points.length + 1)
    (h : kept? chart.free b.firstFree chart.points i = some e) : chart.Stands i e :=
  ⟨i, by rw [getElem?_eq_getElem (by rwa [length_range]), getElem_range], h⟩

theorem spot_of_none (hp : chart.points[i]? = some p) (he : p.code? = none) :
    chart.spot (i + 1) = chart.spot i := by
  have hlt := (List.getElem?_eq_some_iff.mp hp).1
  refine rank_succ_of_none (p := i) ?_ ?_
  · rw [getElem?_eq_getElem (by rw [length_range]; omega), getElem_range]
  · rw [kept?, hp]
    dsimp only
    rw [he]
    rfl

variable {V W : Type} {K : Computer V W} {handler? : Nat → ClassName → Option Label}
  {data data' : Nat → Option V} {w w' : W}

variable (chart K) in
/-- Control can be at a point, and what is known there is so. -/
structure At (i : Nat) (data : Nat → Option V) (w : W) : Prop where
  live : LiveAt chart.free b.firstFree chart.points i
  tells : K.Tells b.allocate.homes (Plot.knownAt chart.points chart.views i) data w

theorem stands_of_live (hlive : LiveAt chart.free b.firstFree chart.points i)
    (hp : chart.points[i]? = some p) (he : p.code? = some e) : chart.Stands i e :=
  stands_of_kept? (Nat.lt_succ_of_lt (List.getElem?_eq_some_iff.mp hp).1)
    (kept_of_liveAt hp he hlive)

/-- Behind an instruction that has nothing to do with values, they are what they are found to be. -/
theorem at_found {j : Instruction} {site : Site}
    (hlive : LiveAt chart.free b.firstFree chart.points i)
    (hp : chart.points[i]? = some (.insn j .plain site)) (w : W) :
    chart.At K (i + 1) (K.found b.allocate.homes w) w := by
  obtain ⟨σ, hmove, hσ⟩ := chart.surveyed.viewed.move_knownAt hp
  cases hmove with
  | plain =>
    refine ⟨.inl (hlive.next ⟨_, hp, rfl⟩ rfl), fun v hv k hk hlt => ?_, fun v hv => ?_⟩
    · rw [Computer.found, hk]
    · cases hσ.top v hv

namespace At

variable (h : chart.At K i data w)
include h

section

variable (hp : chart.points[i]? = some p)
include hp

theorem stands (he : p.code? = some e) : chart.Stands i e :=
  stands_of_live h.live hp he

theorem pass (he : p.code? = none) :
    chart.At K (i + 1) (K.told b.allocate.homes w data p) w := by
  obtain ⟨σ, hmove, hσ⟩ := chart.surveyed.viewed.move_knownAt hp
  exact ⟨.inl (h.live.skip hp he), (h.tells.pass hmove he).suits hσ⟩

theorem next (he : p.code? = some e) (hact : K.act e w = .next w') :
    chart.At K (i + 1) (K.told b.allocate.homes w' data p) w' := by
  obtain ⟨σ, hmove, hσ⟩ := chart.surveyed.viewed.move_knownAt hp
  exact ⟨.inl (h.live.next ⟨p, hp, he⟩ (K.sensible.next hact)),
    (h.tells.next hmove (chart.surveyed.named_at hp) he hact).suits hσ⟩

theorem jump (he : p.code? = some e) (hact : K.act e w = .jump l w')
    (hj : ClassAssembler.Stands Point.code? chart.points j (.label l)) : chart.At K j data w' := by
  have htarget := K.sensible.jump hact
  have hedge : Edge (kept? chart.free b.firstFree chart.points)
      (List.range (chart.points.length + 1)) [] i j :=
    .jump (h.stands hp he) htarget (kept_label hj)
  obtain ⟨hlive, _⟩ := chart.surveyed.way h.live hedge
  obtain ⟨σ, hmove, _⟩ := chart.surveyed.viewed.move_knownAt hp
  cases hmove with
  | branch _ htargets _ =>
    cases he
    obtain ⟨status, hψ, hsuits⟩ := htargets _ htarget
    rw [← chart.surveyed.viewed.knownAt_target chart.surveyed.regular.nodup hψ hj] at hsuits
    refine ⟨hlive, Computer.Tells.suits ?_ hsuits⟩
    exact h.tells.of_locals (fun _ hv => hv) rfl (funext fun slot =>
      K.frame (by rw [hact]; rfl) fun _ hi => by cases hi)
  | label | border | plain | load | store | inc => cases he; cases htarget
  | _ => cases he

theorem raise {cause : ClassName} {caught : Option ClassName}
    (he : p.code? = some e) (hact : K.act e w = .raise cause w')
    (hl : (l, caught) ∈ code.handlersAt (chart.spot i))
    (hj : ClassAssembler.Stands Point.code? chart.points j (.label l)) : chart.At K j data w' := by
  obtain ⟨range, hrange, heq⟩ := mem_map.mp hl
  obtain ⟨hmem, hcovers⟩ := mem_filter.mp hrange
  cases heq
  have hi := h.stands hp he
  have hlabel : ¬ e.isLabel := by
    intro hlabel
    cases e with
    | label l =>
      rw [K.label] at hact
      cases hact
    | _ => cases hlabel
  rw [Code.covers_iff, chart.entries] at hcovers
  obtain ⟨hlive, _, kept, _, _, hknown, hkept⟩ := chart.surveyed.thrown chart.ranges
    ⟨e, range, hi, hlabel, hmem, (covers_rank_iff hi).mp hcovers, kept_label hj⟩
  refine ⟨hlive, ?_⟩
  rw [hknown]
  exact h.tells.of_locals hkept rfl (K.raised hact)

end

end At

theorem At.advance {P : Nat → Prop} (h : chart.At K i data w) (hij : i ≤ j) (hj : chart.Stands j e)
    (hspot : chart.spot i = chart.spot j) (hquiet : ∀ m p v, i ≤ m → m < j →
      chart.points[m]? = some p → P v → p.alters? ≠ some v) :
    ∃ data', chart.At K j data' w ∧ ∀ v, P v → data' v = data v := by
  obtain ⟨d, rfl⟩ := Nat.exists_eq_add_of_le hij
  induction d generalizing i data with
  | zero => exact ⟨data, h, fun _ _ => rfl⟩
  | succ d ih =>
    have hbound := ClassAssembler.Stands.lt_length hj
    rw [length_range] at hbound
    have hnone : kept? chart.free b.firstFree chart.points i = none :=
      Option.eq_none_iff_forall_ne_some.mpr fun e' he => absurd hspot
        (Nat.ne_of_lt ((stands_of_kept? (by omega) he).spot_lt (by omega)))
    obtain ⟨p, hp, he⟩ := exists_mark (by omega) hnone h.live
    have heq : i + 1 + d = i + (d + 1) := by omega
    obtain ⟨data', hat, hsame⟩ := ih (h.pass hp he) (by omega) (heq ▸ hj)
      (by rw [spot_of_none hp he, heq, hspot])
      fun m p v hm hmj => hquiet m p v (by omega) (by omega)
    exact ⟨data', heq ▸ hat, fun v hv => (hsame v hv).trans
      (Computer.told_of_ne (hquiet i p v (Nat.le_refl i) (by omega) hp hv))⟩

/-- Values stay what they are on a run that only comes to points which do not alter them. -/
theorem At.along {P : Nat → Prop} {r z : Nat} {c : Config W} {way : List (Nat × W)}
    (hhandler : ∀ x cause l, handler? x cause = some l → ∃ caught, (l, caught) ∈ code.handlersAt x)
    (hz : chart.Stands z e) (hquiet : ∀ m p v, r < m → m < z → chart.points[m]? = some p → P v →
      p.alters? ≠ some v) (hpath : (onEntries K.act handler?).Path code.entries c way
      (.running (chart.spot z) w')) (hway : ∀ s ∈ way, chart.spot r < s.1 ∧ s.1 < chart.spot z)
    (hc : c = .running (chart.spot i) w) (h : chart.At K i data w)
      (hri : chart.spot r < chart.spot i) :
    ∃ data', chart.At K z data' w' ∧ ∀ v, P v → data' v = data v := by
  have hbehind : ∀ {m}, chart.spot r < chart.spot m → r < m := fun hlt =>
    Nat.lt_of_not_le fun hle => absurd (chart.spot_le hle) (Nat.not_le.mpr hlt)
  generalize hc' : Config.running (chart.spot z) w' = c' at hpath
  induction hpath generalizing i data w with
  | nil =>
    rw [hc] at hc'
    obtain ⟨hspot, rfl⟩ := Config.running.inj hc'
    have hir := hbehind hri
    exact h.advance (ClassAssembler.Stands.le_of_rank hz (Nat.le_of_eq hspot.symm)) hz hspot.symm
      fun m p v him hmz => hquiet m p v (by omega) hmz
  | @cons _ _ c1 _ way hstep hrest ih =>
    obtain ⟨rfl, rfl⟩ := Config.running.inj hc
    have hinside := hway _ (.head ..)
    -- The entry that comes next is the one of a point.
    obtain ⟨e0, he0⟩ : ∃ e0, code.entries[chart.spot i]? = some e0 :=
      ⟨_, getElem?_eq_getElem (Nat.lt_trans hinside.2 (List.getElem?_eq_some_iff.mp hz.entry).1)⟩
    rw [chart.entries] at he0
    obtain ⟨k, hk, hspot⟩ := exists_stands (stands_some_iff.mpr he0)
    have hk : chart.Stands k e0 := hk
    have hspot : chart.spot k = chart.spot i := hspot
    have hkz : k < z := Nat.lt_of_not_le fun hle =>
      absurd (chart.spot_le hle) (by rw [hspot]; exact Nat.not_le.mpr hinside.2)
    have hrk : r < k := hbehind (by rw [hspot]; exact hri)
    obtain ⟨data1, hat, hsame⟩ := h.advance
      (ClassAssembler.Stands.le_of_rank hk (Nat.le_of_eq hspot.symm)) hk hspot.symm
      fun m p v him hmk => hquiet m p v (Nat.lt_of_lt_of_le (hbehind hri) him)
        (Nat.lt_trans hmk hkz)
    rw [← hspot] at hstep
    -- The run behind it.
    have hgoes : ∀ j w1, c1 = .running (chart.spot j) w1 → ∀ data2, chart.At K j data2 w1 →
        (∀ v, P v → data2 v = data1 v) → ∃ data', chart.At K z data' w' ∧ ∀ v, P v → data' v =
          data v := by
      intro j w1 hc1 data2 hat2 hsame2
      have hrj : chart.spot r < chart.spot j := by
        cases hrest with
        | nil =>
          rw [hc1] at hc'
          rw [← (Config.running.inj hc').1]
          exact Nat.lt_trans hri hinside.2
        | cons =>
          rw [← (Config.running.inj hc1).1]
          exact (hway _ (.tail _ (.head ..))).1
      obtain ⟨data', hat', hsame'⟩ := ih (fun s hs => hway s (.tail _ hs)) hc1 hat2 hrj hc'
      exact ⟨data', hat', fun v hv => ((hsame' v hv).trans (hsame2 v hv)).trans (hsame v hv)⟩
    have hlabel : ∀ {l x}, find? some code.entries l = some x → ∃ j, chart.spot j = x ∧
        ClassAssembler.Stands Point.code? chart.points j (.label l) := by
      intro l x hl
      have hx := (find?_eq_some_iff.mp hl).1
      rw [chart.entries] at hx
      obtain ⟨j, hj, rfl⟩ := exists_stands hx
      exact ⟨j, rfl, stands_kept_label hj⟩
    have hstuck : c1 ≠ .stuck := by
      rintro rfl
      cases hrest
      cases hc'
    have hentry := stands_some_iff.mpr hk.entry
    rcases stands_kept hk with ⟨p, hp, he, _⟩ | ⟨rfl, _, _⟩
    · cases step_cases hstep hstuck with
      | pass _ hnone => cases hnone
      | next hi hact =>
        cases hi.unique hentry
        exact hgoes (k + 1) _ (by rw [hk.spot_succ]) _ (hat.next hp he hact) fun v hv =>
          Computer.told_of_ne (hquiet k p v hrk hkz hp hv)
      | jump hi hact hj =>
        cases hi.unique hentry
        obtain ⟨j, rfl, hstands⟩ := hlabel hj
        exact hgoes j _ rfl _ (hat.jump hp he hact hstands) fun _ _ => rfl
      | raise hi hact hl hj =>
        cases hi.unique hentry
        obtain ⟨j, rfl, hstands⟩ := hlabel hj
        obtain ⟨caught, hcaught⟩ := hhandler _ _ _ hl
        exact hgoes j _ rfl _ (hat.raise hp he hact hcaught hstands) fun _ _ => rfl
      | halt =>
        cases hrest
        cases hc'
    · have hlt := ClassAssembler.Stands.lt_length hz
      rw [length_range] at hlt
      omega

variable (chart K handler?) in
/-- The code comes from one point to another, on its way only to points from `lo` to `hi`. -/
structure Goes (lo hi i : Nat) (w : W) (j : Nat) (data : Nat → Option V) (w' : W) : Prop where
  arrives : chart.At K j data w'
  path : ∃ way, (onEntries K.act handler?).Path code.entries (.running (chart.spot i) w) way
    (.running (chart.spot j) w') ∧ ∀ s ∈ way, chart.spot lo ≤ s.1 ∧ s.1 < chart.spot hi

theorem step_jump (hstands : chart.Stands i e) (hact : K.act e w = .jump l w')
    (hj : ClassAssembler.Stands Point.code? chart.points j (.label l)) :
    (onEntries K.act handler?).step code.entries (.running (chart.spot i) w) =
      .running (chart.spot j) w' := by
  rw [step_act (stands_some_iff.mpr hstands.entry)]
  show (onEntries K.act handler?).follow code.entries _ (K.act _ w) = _
  rw [hact]
  exact goTo_of_find? (find?_label hj)

namespace Goes

variable {lo hi lo' hi' : Nat} {data'' : Nat → Option V} {w'' : W}

theorem refl (h : chart.At K i data w) : chart.Goes K handler? lo hi i w i data w :=
  ⟨h, [], .nil, fun _ hs => by cases hs⟩

theorem trans (h : chart.Goes K handler? lo hi i w j data' w')
    (h' : chart.Goes K handler? lo hi j w' k data'' w'') :
    chart.Goes K handler? lo hi i w k data'' w'' := by
  obtain ⟨_, way, hpath, hway⟩ := h
  obtain ⟨harrives, way', hpath', hway'⟩ := h'
  exact ⟨harrives, way ++ way', hpath.append hpath', fun s hs =>
    (mem_append.mp hs).elim (hway s) (hway' s)⟩

theorem mono (h : chart.Goes K handler? lo hi i w j data' w') (hlo : lo' ≤ lo) (hhi : hi ≤ hi') :
    chart.Goes K handler? lo' hi' i w j data' w' := by
  obtain ⟨harrives, way, hpath, hway⟩ := h
  exact ⟨harrives, way, hpath, fun s hs => ⟨Nat.le_trans (chart.spot_le hlo) (hway s hs).1,
    Nat.lt_of_lt_of_le (hway s hs).2 (chart.spot_le hhi)⟩⟩

theorem of_step (hlo : lo ≤ i) (hhi : i < hi) (hstands : chart.Stands i e)
    (h : (onEntries K.act handler?).step code.entries (.running (chart.spot i) w) =
      .running (chart.spot j) w') (hj : chart.At K j data' w') :
    chart.Goes K handler? lo hi i w j data' w' :=
  ⟨hj, [(chart.spot i, w)], .cons h .nil, fun s hs => by
    cases mem_singleton.mp hs
    exact ⟨chart.spot_le hlo, hstands.spot_lt hhi⟩⟩

theorem pass (hat : chart.At K i data w) (hp : chart.points[i]? = some p) (he : p.code? = none) :
    chart.Goes K handler? lo hi i w (i + 1) (K.told b.allocate.homes w data p) w := by
  refine ⟨hat.pass hp he, [], ?_, fun _ hs => by cases hs⟩
  rw [spot_of_none hp he]
  exact .nil

theorem next (hat : chart.At K i data w) (hlo : lo ≤ i) (hhi : i < hi)
    (hp : chart.points[i]? = some p) (he : p.code? = some e) (hact : K.act e w = .next w') :
    chart.Goes K handler? lo hi i w (i + 1) (K.told b.allocate.homes w' data p) w' := by
  have hstands := hat.stands hp he
  refine of_step hlo hhi hstands ?_ (hat.next hp he hact)
  rw [Machine.step_next (stands_some_iff.mpr hstands.entry) hact, hstands.spot_succ]

theorem jump (hat : chart.At K i data w) (hlo : lo ≤ i) (hhi : i < hi)
    (hp : chart.points[i]? = some p) (he : p.code? = some e) (hact : K.act e w = .jump l w')
    (hj : ClassAssembler.Stands Point.code? chart.points j (.label l)) :
    chart.Goes K handler? lo hi i w j data w' := by
  have hstands := hat.stands hp he
  exact of_step hlo hhi hstands (step_jump hstands hact hj) (hat.jump hp he hact hj)

end Goes

variable (chart K handler?) in
/-- With values `ds` on the stack, the code of a plot comes to its end and leaves `ds'` there. -/
def Carries (data : Nat → Option V) (ds : List V) (p : Plot) (data' : Nat → Option V)
    (ds' : List V) : Prop :=
  ∀ n k w, Lies chart.points k (p n).points → chart.At K k data w → ds <+: K.stack w →
    ∃ w', ds' <+: K.stack w' ∧ chart.Goes K handler? k (k + (p n).points.length) k w
      (k + (p n).points.length) data' w'

namespace Carries

variable {ds ds' ds'' : List V} {data'' : Nat → Option V} {q : Plot}

theorem nil : chart.Carries K handler? data ds .nil data ds :=
  fun _ _ _ _ hat hds => ⟨_, hds, .refl hat⟩

theorem append {p : Plot} (hp : chart.Carries K handler? data ds p data' ds')
    (hq : chart.Carries K handler? data' ds' q data'' ds'') :
    chart.Carries K handler? data ds (p ++ q) data'' ds'' := by
  intro n k w hlies hat hds
  obtain ⟨w1, hds', hgoes⟩ := hp n k w hlies.left hat hds
  obtain ⟨w2, hds'', hgoes'⟩ := hq _ _ _ hlies.right hgoes.arrives hds'
  rw [Plot.append_apply, length_append, ← Nat.add_assoc]
  exact ⟨w2, hds'', (hgoes.mono .refl (Nat.le_add_right ..)).trans
    (hgoes'.mono (Nat.le_add_right ..) .refl)⟩

theorem pass (he : p.code? = none) (h : ∀ i w, chart.points[i]? = some p → chart.At K i data w →
      ds <+: K.stack w → ds' <+: K.stack w ∧ K.told b.allocate.homes w data p = data') :
    chart.Carries K handler? data ds (.point p) data' ds' := by
  intro _ k w hlies hat hds
  obtain ⟨hds', rfl⟩ := h k w hlies.head hat hds
  exact ⟨w, hds', .pass hat hlies.head he⟩

theorem next (he : p.code? = some e) (h : ∀ i w rest, chart.points[i]? = some p →
      chart.At K i data w → K.stack w = ds ++ rest → ∃ w', K.act e w = .next w' ∧
        ds' <+: K.stack w' ∧ K.told b.allocate.homes w' data p = data') :
    chart.Carries K handler? data ds (.point p) data' ds' := by
  rintro _ k w hlies hat ⟨rest, hrest⟩
  obtain ⟨w', hact, hds', rfl⟩ := h k w rest hlies.head hat hrest.symm
  exact ⟨w', hds', .next hat .refl (Nat.lt_succ_self _) hlies.head he hact⟩

end Carries

section operations

variable {ds ds' : List V} {d : V} {v : Nat} {site : Site}

theorem carries_insn {i : Instruction} (hact : ∀ w rest, K.stack w = ds ++ rest →
      ∃ w', K.act (.insn i) w = .next w' ∧ K.stack w' = ds' ++ rest) :
    chart.Carries K handler? data ds (.insn site i) data ds' :=
  .next rfl fun _ w rest _ _ hw => by
    obtain ⟨w', hnext, hstack⟩ := hact w rest hw
    exact ⟨w', hnext, ⟨rest, hstack.symm⟩, rfl⟩

theorem carries_place (l : Label) (status : Status) :
    chart.Carries K handler? data ds (.place l status) data ds :=
  .next rfl fun _ w rest _ _ hw => ⟨w, K.label l w, ⟨rest, hw.symm⟩, rfl⟩

variable (b K) in
/-- Reading a value pushes something of the right kind. -/
structure Gives (data : Nat → Option V) (v : Nat) (d : V) : Prop where
  home : Lay.homeOf b.allocate.homes v ≠ .constant
  datum : data v = some d
  kind : K.kind d = (Lay.typeOf b v).kind

/-- Where a value is read, it is pushed, or it is on the stack already. -/
theorem carries_load (hgives : Gives b K data v d)
    (hstack : Lay.homeOf b.allocate.homes v = .stack → ds = []) :
    chart.Carries K handler? data ds (.load b b.allocate.homes site ⟨v, []⟩) data (d :: ds) := by
  obtain ⟨hconstant, hd, hkind⟩ := hgives
  refine .append ?_ .nil
  unfold Plot.fetch
  cases hhome : Lay.homeOf b.allocate.homes v with
  | slot k =>
    refine .append (.pass rfl fun _ _ _ _ hw => ⟨hw, rfl⟩) (.next rfl fun i w rest hp hat hw => ?_)
    obtain ⟨σ, hmove, _⟩ := chart.surveyed.viewed.move_knownAt hp
    have hk := chart.surveyed.named_at hp _ _ _ (.head _) v k rfl hhome
    obtain ⟨w', hnext, hpushed⟩ :=
      K.load ((hat.tells.kept v (hmove.kept_of_takes rfl) k hhome hk).trans hd)
    rw [hkind] at hnext
    rw [hw] at hpushed
    exact ⟨w', hnext, ⟨rest, hpushed.symm⟩, rfl⟩
  | constant => exact absurd hhome hconstant
  | stack =>
    refine .append (.pass rfl fun i w hp hat _ => ?_) .nil
    obtain ⟨σ, hmove, _⟩ := chart.surveyed.viewed.move_knownAt hp
    cases hmove with
    | reads _ _ htop =>
      obtain ⟨rest, hrest⟩ := head?_eq_some_iff.mp ((hat.tells.top v (htop hhome)).trans hd)
      rw [hstack hhome]
      exact ⟨⟨rest, hrest.symm⟩, rfl⟩
  | nowhere =>
    refine .append (.pass rfl fun i w hp _ _ => ?_) .nil
    obtain ⟨σ, hmove, _⟩ := chart.surveyed.viewed.move_knownAt hp
    cases hmove with
    | reads hread => exact absurd hhome hread

variable (hkind : K.kind d = (Lay.typeOf b v).kind)
include hkind

theorem carries_storeInto {k : Nat} (hk : Lay.homeOf b.allocate.homes v = .slot k) :
    chart.Carries K handler? data [d] (.storeInto b b.allocate.homes site v)
      (renew data v (some d)) [] := by
  unfold Plot.storeInto
  rw [hk]
  refine .next rfl fun _ w rest _ _ hw => ?_
  obtain ⟨w', hnext, _, hlocal⟩ := K.store (UInt16.ofNat k) hw
  rw [hkind] at hnext
  refine ⟨w', hnext, nil_prefix, ?_⟩
  show renew data v (K.found _ w' v) = _
  rw [Computer.found, hk]
  exact congrArg _ hlocal

theorem carries_settle : chart.Carries K handler? data [d] (.settle b b.allocate.homes site
    (some v)) (renew data v (some d)) [] := by
  have hyield : chart.Carries K handler? data [d] (.point (.yields v))
    (renew data v (some d)) [d] :=
    .pass rfl fun _ w _ _ hw => by
      obtain ⟨rest, hrest⟩ := hw
      refine ⟨⟨rest, hrest⟩, ?_⟩
      rw [Computer.told, ← hrest]
      rfl
  have hforget : chart.Carries K handler? (renew data v (some d)) [d] .nil
    (renew data v (some d)) [] :=
    fun _ _ w _ hat _ => ⟨w, nil_prefix, .refl hat⟩
  refine .append hyield ?_
  split
  · exact hforget
  · exact hforget
  · exact carries_insn fun w rest hw => K.drop hw hkind
  · next k hk =>
    have hstore : chart.Carries K handler? (renew data v (some d)) [d]
        (.storeInto b b.allocate.homes site v) _ [] := carries_storeInto hkind hk
    rwa [renew_renew] at hstore

omit hkind in
theorem carries_decision {kept : List Nat} {test : Test} {holds : Bool}
    (hact : ∀ l w rest, K.stack w = ds ++ rest → ∃ w', K.act (.branch (.jumpIf test l)) w =
      (if holds then .jump l w' else .next w') ∧ K.stack w' = rest) :
    chart.Carries K handler? data ds (.decision site kept test) data
      [K.int (if holds then 1 else 0)] := by
  rintro n k w hlies hat ⟨rest, hrest⟩
  obtain ⟨w1, hjump, _⟩ := hact ⟨n⟩ w rest hrest.symm
  have hjumps : chart.points[k]? = some _ := hlies.head
  have hzero := hlies.tail.head
  have hgoto : chart.points[k + 2]? = some _ := hlies.tail.tail.head
  have hholds := hlies.tail.tail.tail.head
  have hone := hlies.tail.tail.tail.tail.head
  have hdone := hlies.tail.tail.tail.tail.tail.head
  have hend : ∀ {w2}, chart.Goes K handler? k (k + 6) k w (k + 5) data w2 →
      [K.int (if holds then 1 else 0)] <+: K.stack w2 →
      ∃ w', [K.int (if holds then 1 else 0)] <+: K.stack w' ∧
        chart.Goes K handler? k (k + 6) k w (k + 6) data w' := fun hgoes hds =>
    ⟨_, hds, hgoes.trans (.next hgoes.arrives (by omega) (by omega) hdone rfl (K.label _ _))⟩
  cases holds with
  | true =>
    have hgo : chart.Goes K handler? k (k + 6) k w (k + 3) data w1 :=
      .jump hat (by omega) (by omega) hjumps rfl hjump ⟨_, hholds, rfl⟩
    have hlabel := hgo.trans (.next hgo.arrives (by omega) (by omega) hholds rfl (K.label _ _))
    obtain ⟨w2, hnext, hstack⟩ := K.push 2 w1
    exact hend (hlabel.trans (.next hlabel.arrives (by omega) (by omega) hone rfl hnext))
      ⟨_, hstack.symm⟩
  | false =>
    have hgo : chart.Goes K handler? k (k + 6) k w (k + 1) data w1 :=
      .next hat (by omega) (by omega) hjumps rfl hjump
    obtain ⟨w2, hnext, hstack⟩ := K.push 1 w1
    have hpushed := hgo.trans (.next hgo.arrives (by omega) (by omega) hzero rfl hnext)
    exact hend (hpushed.trans (.jump hpushed.arrives (by omega) (by omega) hgoto rfl (K.goto _ _)
      ⟨_, hdone, rfl⟩)) ⟨_, hstack.symm⟩

omit hkind in
theorem carries_one (hd : Gives b K data v d) :
    chart.Carries K handler? data [] (.loads b b.allocate.homes site [⟨v, []⟩]) data [d] :=
  .append (carries_load hd fun _ => rfl) .nil

omit hkind in
theorem carries_two {u : Nat} {d' : V} (hd : Gives b K data u d) (hd' : Gives b K data v d')
    (hstack : Lay.homeOf b.allocate.homes v ≠ .stack) :
    chart.Carries K handler? data [] (.loads b b.allocate.homes site [⟨u, []⟩, ⟨v, []⟩]) data
      [d', d] :=
  .append (carries_load hd fun _ => rfl)
    (.append (carries_load hd' fun hhome => absurd hhome hstack) .nil)

end operations

end Charted
end ClassAssembler
