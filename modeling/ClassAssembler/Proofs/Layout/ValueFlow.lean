import ClassAssembler.Proofs.Layout.Versions
import ClassAssembler.Proofs.Layout.StackDepth

/-!
# Operands find their values

Along every walk through the code of a body, what is known at a position is so in the memory after
the walk.
-/

namespace ClassAssembler

open List Point Recorder Body

namespace Plot

/-- What is known at a position, however control has come there: a label may be jumped to. -/
def knownAt (ps : List Point) (views : Nat → View) (i : Nat) : View :=
  match ps[i]? with
  | some (.label _ (some status)) => status.view
  | _ => views i

theorem knownAt_eq {ps : List Point} {views : Nat → View} {i : Nat} {p : Point}
    (hp : ps[i]? = some p) (hlabel : p.label? = none) : knownAt ps views i = views i := by
  rw [knownAt, hp]
  cases p with
  | label l status => cases hlabel
  | _ => rfl

namespace Viewed

variable {b : Body} {homes : Array Home} {ψ : Label → Option Status} {voids : Prop}
  {views : Nat → View} {i j : Nat} {p : Point} {l : Label} {status : Status}

section

variable (h : Viewed b homes ψ voids views)
include h

theorem suits_knownAt (i : Nat) :
    (views i).Suits voids (knownAt (b.points homes) views i) := by
  cases hp : (b.points homes)[i]? with
  | none =>
    rw [knownAt, hp]
    exact .refl _
  | some p =>
    cases p with
    | label l status =>
      cases status with
      | none =>
        rw [knownAt, hp]
        exact .refl _
      | some status =>
        obtain ⟨σ, hmove, _⟩ := h.move hp
        rw [knownAt, hp]
        cases hmove with
        | label hσ => exact hσ
    | _ =>
      rw [knownAt_eq hp rfl]
      exact .refl _

theorem move_knownAt (hp : (b.points homes)[i]? = some p) :
    ∃ σ, Move b homes ψ voids (knownAt (b.points homes) views i) p σ ∧
      σ.Suits voids (knownAt (b.points homes) views (i + 1)) := by
  obtain ⟨σ, hmove, hσ⟩ := h.move hp
  refine ⟨σ, ?_, hσ.trans (h.suits_knownAt (i + 1))⟩
  cases hlabel : p.label? with
  | none => rwa [knownAt_eq hp hlabel]
  | some l =>
    rw [knownAt, hp]
    cases hmove with
    | label => exact .label (.refl _)
    | border => exact .border
    | _ => cases hlabel

theorem knownAt_target (hnodup : (placed (b.points homes)).Nodup)
    (hl : ψ l = some status) (hj : Stands code? (b.points homes) j (.label l)) :
    knownAt (b.points homes) views j = status.view := by
  obtain ⟨i, hi⟩ := mem_iff_getElem?.mp (h.known hl)
  cases stands_unique hnodup hj ⟨_, hi, rfl⟩
  rw [knownAt, hi]

end

end Viewed
end Plot

theorem le_of_mem_between {pos : Label → Nat} {start stop : Label} {holes : List (Label × Label)}
    {part : Label × Label}
    (hsorted : (pos start :: (ends pos holes ++ [pos stop])).Pairwise (· < ·))
    (hpart : part ∈ Recorder.between start stop holes) : pos start ≤ pos part.1 := by
  induction holes generalizing start with
  | nil =>
    cases mem_singleton.mp hpart
    exact Nat.le_refl _
  | cons hole holes ih =>
    obtain ⟨hstart, hrest⟩ := pairwise_cons.mp hsorted
    rcases mem_cons.mp hpart with rfl | hpart
    · exact Nat.le_refl _
    · have hle := ih (pairwise_cons.mp hrest).2 hpart
      have hlt : pos start < pos hole.2 := hstart _ (by simp [ends])
      omega

/-- All that is known about a body that is laid out. -/
structure Surveyed (b : Body) (homes : Array Home) (ψ : Label → Option Status) (voids : Prop)
    (views : Nat → View) (pos : Label → Nat) : Prop where
  viewed : Plot.Viewed b homes ψ voids views
  regular : Regular (b.points homes)
  named : Lay.Named homes (b.points homes)
  located : Located pos 0 (b.points homes)
  aligned : ∀ start stop holes handler caught,
    .protect start stop holes handler caught ∈ b.points homes →
      (pos start :: (ends pos holes ++ [pos stop])).Pairwise (· < ·)

/-- The ways that control takes from a position of a body that it can be at, and what they need
to find. -/
inductive Way (b : Body) (homes : Array Home) (ψ : Label → Option Status) (voids : Prop)
    (ps : List Point) (views : Nat → View) : Nat → Nat → Prop
  | next {i : Nat} {p : Point} {σ : View} : ps[i]? = some p →
      (∀ br site, p = .branch br site → br.fallsThrough) →
      Plot.Move b homes ψ voids (Plot.knownAt ps views i) p σ →
      σ.Suits voids (Plot.knownAt ps views (i + 1)) → Way b homes ψ voids ps views i (i + 1)
  | jump {i j : Nat} {br : Branch} {site : Option Site} : ps[i]? = some (.branch br site) →
      ((Plot.knownAt ps views i).pop br.uses).Suits voids (Plot.knownAt ps views j) →
      Way b homes ψ voids ps views i j

namespace Surveyed

variable {b : Body} {homes : Array Home} {ψ : Label → Option Status} {voids : Prop}
  {views : Nat → View} {pos : Label → Nat} {free params i j : Nat} {ranges : List ExceptionRange}

variable (h : Surveyed b homes ψ voids views pos)
include h

theorem named_at {p : Point} (hp : (b.points homes)[i]? = some p) :
    Lay.Named homes [p] := fun _ _ _ hmem =>
  h.named _ _ _ (mem_singleton.mp hmem ▸ mem_of_getElem? hp)

theorem way (hlive : LiveAt free params (b.points homes) i) (hedge : Edge (kept? free params
      (b.points homes)) (List.range ((b.points homes).length + 1)) [] i j) :
    LiveAt free params (b.points homes) j ∧ Way b homes ψ voids (b.points homes) views i j := by
  cases edge_points hlive hedge with
  | skip hp he =>
    obtain ⟨σ, hmove, hσ⟩ := h.viewed.move_knownAt hp
    refine ⟨.inl (hlive.skip hp he), .next hp (fun br site heq => ?_) hmove hσ⟩
    rw [heq] at he
    cases he
  | next hi hfalls =>
    obtain ⟨p, hp, he⟩ := hi
    obtain ⟨σ, hmove, hσ⟩ := h.viewed.move_knownAt hp
    refine ⟨.inl (hlive.next ⟨p, hp, he⟩ hfalls), .next hp (fun br site heq => ?_) hmove hσ⟩
    rw [heq] at he
    cases he
    exact hfalls
  | jump hi ht hj =>
    have hreachable := hlive.live fun l hl => by
      cases hl.unique hi
      cases ht
    obtain ⟨p, hp, he⟩ := hi
    obtain ⟨br, site, rfl, rfl⟩ := exists_branch he ht
    obtain ⟨σ, hmove, _⟩ := h.viewed.move_knownAt hp
    cases hmove with
    | branch _ htargets _ =>
      obtain ⟨status, hψ, hsuits⟩ := htargets _ ht
      refine ⟨liveAt_target h.regular hp hreachable ht hj, .jump hp ?_⟩
      rwa [h.viewed.knownAt_target h.regular.nodup hψ hj]
  | throw _ _ hr => cases hr

theorem thrown (hranges : ranges = (upTo false free params (b.points homes) (b.points
      homes).length).ranges.toList) (hthrows : Throws (kept? free params (b.points homes))
      (List.range ((b.points homes).length + 1)) ranges i j) :
    LiveAt free params (b.points homes) j ∧ ∃ p kept, (b.points homes)[i]? = some p ∧ p.isInsn ∧
      Plot.knownAt (b.points homes) views j = (Plot.thrown kept).view ∧
      kept ⊆ (Plot.knownAt (b.points homes) views i).kept := by
  obtain ⟨e, range, hi, hlabel, hr, ⟨x, y, hx, hy, hxi, hiy⟩, hj⟩ := hthrows
  have hj := stands_kept_label hj
  rw [hranges] at hr
  refine ⟨liveAt_handler h.regular hr hj, ?_⟩
  obtain ⟨k, _, start, stop, holes, hp, hpart, x', y', hxk, hyk, hx', hy', _⟩ :=
    (mem_ranges_iff h.regular.nodup).mp hr
  cases stands_unique h.regular.nodup (stands_kept_label hx) hx'
  cases stands_unique h.regular.nodup (stands_kept_label hy) hy'
  obtain ⟨kept, s, hψ, hs, hsk, hkept⟩ := h.viewed.guarded hp
  have hle := le_of_mem_between (h.aligned _ _ _ _ _ (mem_of_getElem? hp)) hpart
  rw [h.located.stands hs, h.located.stands hx'] at hle
  rcases stands_kept hi with ⟨p, hpi, he, _⟩ | ⟨rfl, _, _⟩
  · have hinsn : p.isInsn := isInsn_iff.mpr ⟨e, he, hlabel⟩
    refine ⟨p, kept, hpi, hinsn, h.viewed.knownAt_target h.regular.nodup hψ hj, ?_⟩
    rw [Plot.knownAt_eq hpi (by cases p <;> first | rfl | cases hinsn)]
    exact hkept i (by omega) (by omega)
  · exact absurd hy'.lt_length (by omega)

open Memory in
theorem keeps_way {m : Memory} (hway : Way b homes ψ voids (b.points homes) views i j)
    (hm : Keeps b homes voids m (Plot.knownAt (b.points homes) views i)) :
    Keeps b homes voids (m.leave b (b.points homes) i .passed)
      (Plot.knownAt (b.points homes) views j) := by
  cases hway with
  | next hp hfalls hmove hσ =>
    have hpass := keeps_pass hmove (h.named_at hp) hm hfalls
    rw [leave, hp]
    exact hpass.suits hσ
  | @jump _ br site hp hsuits =>
    rw [leave, hp]
    exact (hm.branch br site).suits hsuits

open Memory in
theorem keeps_walk (hb : b.Sound) (hhomes : homes = b.allocate.homes) (hranges : ranges = (upTo
      false free params (b.points homes) (b.points homes).length).ranges.toList)
    {past : List (Nat × Passage)} (hwalk : Walk (kept? free params (b.points homes)) (List.range
      ((b.points homes).length + 1)) ranges past i) :
    LiveAt free params (b.points homes) i ∧
      Keeps b homes voids (after b (b.points homes) past)
        (Plot.knownAt (b.points homes) views i) := by
  induction hwalk with
  | start =>
    subst hhomes
    refine ⟨.inl rfl, ?_⟩
    exact (keeps_start hb).suits (h.viewed.start.trans (h.viewed.suits_knownAt 0))
  | step _ hedge ih =>
    obtain ⟨hlive, hway⟩ := h.way ih.1 hedge
    exact ⟨hlive, h.keeps_way hway ih.2⟩
  | throw done _ hthrows ih =>
    obtain ⟨hlive, p, kept, hp, hinsn, hj, hkept⟩ := h.thrown hranges hthrows
    obtain ⟨σ, hmove, _⟩ := h.viewed.move_knownAt hp
    refine ⟨hlive, ?_⟩
    rw [hj, Memory.after]
    cases done with
    | true =>
      rw [leave, hp]
      exact .raise fun v hv => holds_pass hmove (h.named_at hp) ih.2 hinsn (hkept hv)
    | false => exact .raise fun v hv => ih.2.kept v (hkept hv)

end Surveyed

namespace Point

def takes? : Point → Option Nat
  | insn (.load _ _) role _ | insn (.inc _ _) role _ => role.value?
  | _ => none

theorem takes?_plain (i : Instruction) (site : Site) : (insn i .plain site).takes? = none := by
  cases i <;> rfl

def writes? : Point → Option Nat
  | insn _ (.store v) _ => some v
  | _ => none

/-- A point finds what it reads. An operand is in its words, or it was left on the stack by the
operation that has ended last; only a constant needs to be nowhere. An instruction that touches
local variables touches just the words of one value. If it takes the value it finds it there,
and a load leaves it on top of the stack. -/
structure Finds (b : Body) (homes : Array Home) (voids : Prop) (m : Memory) (p : Point) : Prop where
  home : ∀ v, p = .reads v → Lay.homeOf homes v ≠ .nowhere
  slot : ∀ v k, p = .reads v → Lay.homeOf homes v = .slot k → m.Holds b homes v
  stack : ∀ v, p = .reads v → Lay.homeOf homes v = .stack → m.Leaves v ∧ (voids → m.Shows v)
  touches : ∀ i role site first words, p = .insn i role site →
    i.localAccess? = some (first, words) → ∃ v, role.value? = some v ∧
      ∀ w, b.Occupies homes v w ↔ first.toNat ≤ w ∧ w < first.toNat + words
  takes : ∀ v, p.takes? = some v → m.Holds b homes v
  loads : ∀ kind first role site v, p = .insn (.load kind first) role site →
    role.value? = some v → (m.pass b p).Shows v

end Point

/-- A value may be read from its words before they are written again. -/
inductive StillRead (ps : List Point) (at? : Nat → Option Entry) (ranges : List ExceptionRange)
    (v : Nat) : Nat → Prop
  | here {i : Nat} {p : Point} : ps[i]? = some p → p.takes? = some v →
      StillRead ps at? ranges v i
  | later {i j : Nat} : Edge at? (List.range (ps.length + 1)) [] i j →
      (∀ p, ps[i]? = some p → p.writes? ≠ some v) → StillRead ps at? ranges v j →
      StillRead ps at? ranges v i
  | thrown {i j : Nat} : Throws at? (List.range (ps.length + 1)) ranges i j →
      StillRead ps at? ranges v j → StillRead ps at? ranges v i

namespace Plot.Move

variable {b : Body} {homes : Array Home} {ψ : Label → Option Status} {voids : Prop}
  {σ τ : View} {p : Point} {v : Nat}

theorem kept_of_takes (h : Plot.Move b homes ψ voids σ p τ) (hv : p.takes? = some v) :
    v ∈ σ.kept := by
  cases h with
  | load hmem =>
    cases hv
    exact hmem
  | inc _ hmem =>
    cases hv
    exact hmem
  | plain =>
    rw [Point.takes?_plain] at hv
    cases hv
  | _ => cases hv

theorem kept_of_next (h : Plot.Move b homes ψ voids σ p τ)
    (hfalls : ∀ br site, p = .branch br site → br.fallsThrough) (hv : v ∈ τ.kept)
    (hwrites : p.writes? ≠ some v) : v ∈ σ.kept := by
  cases h with
  | label hσ => exact hσ.kept hv
  | store =>
    rcases mem_append.mp hv with hv | hv
    · exact hv
    · cases mem_singleton.mp hv
      exact absurd rfl hwrites
  | branch _ _ hτ =>
    rw [hτ (hfalls _ _ rfl)] at hv
    exact hv
  | _ => exact hv

end Plot.Move

namespace Memory

variable {b : Body} {homes : Array Home} {ψ : Label → Option Status} {voids : Prop} {m : Memory}
  {σ τ : View} {p : Point} {v : Nat}

theorem loaded_load {k t : Nat} (hk : Lay.homeOf homes v = .slot k) (hlt : k < UInt16.size)
    (hwords : ∀ w, b.Occupies homes v w → m.words w = some ⟨v, t⟩) :
    m.loaded ((Lay.typeOf b v).load (UInt16.ofNat k)) = some ⟨v, t⟩ := by
  have hslot : (UInt16.ofNat k).toNat = k := UInt16.toNat_ofNat_of_lt' hlt
  have hpos := widthOf_pos b v
  have hfirst := hwords k ⟨k, hk, Nat.le_refl k, by omega⟩
  have hlast := hwords (k + b.widthOf v - 1) ⟨k, hk, by omega, by omega⟩
  show (m.words _).filter _ = _
  rw [FieldType.words_kind, width_typeOf, hslot, hfirst]
  simp [Option.filter, hlast]

theorem shows_load {k : Nat} {site : Site} (hk : Lay.homeOf homes v = .slot k)
    (hlt : k < UInt16.size) (h : m.Holds b homes v) :
    (m.pass b (.insn ((Lay.typeOf b v).load (UInt16.ofNat k)) (.load v) site)).Shows v := by
  obtain ⟨t, ht, hwords⟩ := h
  refine ⟨t, ht, ?_⟩
  show (((Instruction.load _ _).act _ m.stack).getD []).head?.bind Cell.tag = _
  rw [Instruction.act_push rfl rfl rfl]
  exact loaded_load hk hlt hwords

theorem Keeps.finds (h : Keeps b homes voids m σ) (hmove : Plot.Move b homes ψ voids σ p τ)
    (hnamed : Lay.Named homes [p]) : p.Finds b homes voids m := by
  refine ⟨fun v hp => ?_, fun v k hp hk => ?_, fun v hp hstack => ?_,
    fun i role site first words hp haccess => ?_, fun v hp => h.kept v (hmove.kept_of_takes hp),
    fun kind first role site v hp hv => ?_⟩
  · subst hp
    cases hmove with
    | reads hhome => exact hhome
  · subst hp
    cases hmove with
    | reads _ hslot => exact h.kept v (hslot k hk)
  · subst hp
    cases hmove with
    | reads _ _ htop => exact ⟨h.left v (htop hstack), fun hvoids => h.top hvoids v (htop hstack)⟩
  · subst hp
    exact hmove.touches hnamed haccess
  · have hslot := fun k => hnamed _ _ _ (mem_singleton.mpr hp.symm) v k hv
    have hheld := h.kept v (hmove.kept_of_takes (by rw [hp]; exact hv))
    subst hp
    generalize hi : Instruction.load kind first = i at hmove ⊢
    cases hmove with
    | load _ hk =>
      cases hv
      exact shows_load hk (hslot _ hk) hheld
    | store => cases hi
    | inc => cases hi
    | plain => cases hv

end Memory

namespace Surveyed

variable {b : Body} {homes : Array Home} {ψ : Label → Option Status} {voids : Prop}
  {views : Nat → View} {pos : Label → Nat} {free params i v : Nat} {ranges : List ExceptionRange}

theorem kept_of_stillRead (h : Surveyed b homes ψ voids views pos)
    (hranges : ranges =
      (upTo false free params (b.points homes) (b.points homes).length).ranges.toList)
    (hread : StillRead (b.points homes) (kept? free params (b.points homes)) ranges v i)
    (hlive : LiveAt free params (b.points homes) i) :
    v ∈ (Plot.knownAt (b.points homes) views i).kept := by
  induction hread with
  | here hp hv =>
    obtain ⟨σ, hmove, _⟩ := h.viewed.move_knownAt hp
    exact hmove.kept_of_takes hv
  | later hedge hwrites _ ih =>
    obtain ⟨hnext, hway⟩ := h.way hlive hedge
    cases hway with
    | next hp hfalls hmove hσ => exact hmove.kept_of_next hfalls (hσ.kept (ih hnext)) (hwrites _ hp)
    | jump hp hsuits => exact hsuits.kept (ih hnext)
  | thrown hthrows _ ih =>
    obtain ⟨hnext, p, kept, _, _, hj, hkept⟩ := h.thrown hranges hthrows
    have hv := ih hnext
    rw [hj] at hv
    exact hkept hv

end Surveyed

theorem Body.exists_surveyed {b : Body} {voids : Prop} {layout : Layout} (hb : b.Finished)
    (hlay : b.layOut b.allocate.homes = .ok layout)
    (hvoids : voids → ∀ s, b.Region 0 s → ∀ op ∈ b.operations s, op.InitsVoid) :
    ∃ ψ views pos, Surveyed b b.allocate.homes ψ voids views pos := by
  have hregular := regular hb.sound b.allocate.homes
  obtain ⟨ψ, views, hv⟩ := Plot.exists_viewed hb.sound hvoids
  obtain ⟨pos, hloc⟩ := exists_located hregular.nodup
  refine ⟨ψ, views, pos, hv, hregular, ?_, hloc, (routed hb b.allocate.homes hloc).aligned⟩
  rcases b.layOut_eq b.allocate.homes with ⟨_, _, _, _, hnamed⟩ | ⟨_, herror, _⟩
  · exact hnamed
  · rw [hlay] at herror
    cases herror

/-- Values flow through some code as through the points of a body. The code is recorded from
the points, and its walks are those through the points. After every walk, the point it has come
to finds the newest versions of the values it reads, those on the operand stack as far as `voids`
is true. Two values that may still be read have no word of the local variables in common. -/
structure Code.Flows (code : Code) (b : Body) (voids : Prop) (ps : List Point)
    (at? : Nat → Option Entry) : Prop where
  recorded : code.RecordedFrom ps at?
  walks : ∀ xs x e, Walk some code.entries code.ranges xs x → code.entries[x]? = some e →
    ∃ past i, Walk at? (List.range (ps.length + 1)) code.ranges past i ∧ at? i = some e ∧
      rank at? (List.range (ps.length + 1)) i = x ∧
      entriesOn at? (List.range (ps.length + 1)) past = xs
  finds : ∀ past i p, Walk at? (List.range (ps.length + 1)) code.ranges past i →
    ps[i]? = some p → p.Finds b b.allocate.homes voids (Memory.after b ps past)
  apart : ∀ past i u v, Walk at? (List.range (ps.length + 1)) code.ranges past i →
    StillRead ps at? code.ranges u i → StillRead ps at? code.ranges v i → u ≠ v →
    ∀ w, b.Occupies b.allocate.homes u w → ¬ b.Occupies b.allocate.homes v w

/-- Operands find their values: the values of a body that was built flow through its code. What
is on the operand stack is known if no constructor that is called returns anything. -/
theorem values_flow {b : Body} (hb : b.Built) {code : Code} {notice : Notice}
    (hcode : b.toCode = .ok (code, notice)) :
    ∃ b' at?, b.completeInit = .ok b' ∧ code.Flows b'
      (∀ s, ∀ op ∈ b.operations s, op.InitsVoid) (b'.points b'.allocate.homes) at? := by
  obtain ⟨b', hinit⟩ := exists_completeInit hcode
  have hfinished := hb.finished.completeInit hinit
  obtain ⟨layout, hlay, hentries, hranges⟩ := toCode_kept hfinished.sound hinit hcode
  obtain ⟨ψ, views, pos, hsurveyed⟩ := exists_surveyed hfinished hlay
    fun hvoids s _ => initsVoid_completeInit hb.finished.sound hinit hvoids s
  refine ⟨b', _, hinit, Code.recordedFrom hsurveyed.regular hentries hranges,
    fun xs x e hwalk hx => ?_, fun past i p hwalk hp => ?_, fun past i u v hwalk hu hv hne w => ?_⟩
  · rw [hentries] at hwalk hx
    obtain ⟨past, i, hwalk', hi, hrank, hon⟩ := hwalk.liftTo (stands_some_iff.mpr hx)
    refine ⟨past, i, hwalk', ?_, hrank, hon⟩
    obtain ⟨j, hj, he⟩ := hi
    obtain ⟨_, rfl⟩ := List.getElem?_eq_some_iff.mp hj
    rwa [getElem_range] at he
  · obtain ⟨_, hkeeps⟩ := hsurveyed.keeps_walk hfinished.sound rfl hranges hwalk
    obtain ⟨σ, hmove, _⟩ := hsurveyed.viewed.move_knownAt hp
    exact hkeeps.finds hmove (hsurveyed.named_at hp)
  · obtain ⟨hlive, hkeeps⟩ := hsurveyed.keeps_walk hfinished.sound rfl hranges hwalk
    exact hkeeps.apart (hsurveyed.kept_of_stillRead hranges hu hlive)
      (hsurveyed.kept_of_stillRead hranges hv hlive) hne

/-- A loop takes its counter from its words twice: to compare it, and to count down. -/
theorem values_flow_countdown :
    countdown.Built ∧
      (countdown.points countdown.allocate.homes).filterMap Point.takes? = [0, 1, 1] ∧
      ∃ code notice, countdown.toCode = .ok (code, notice) ∧
        ∃ b' at?, countdown.completeInit = .ok b' ∧ code.Flows b'
          (∀ s, ∀ op ∈ countdown.operations s, op.InitsVoid)
          (b'.points b'.allocate.homes) at? := by
  obtain ⟨code, notice, hcode⟩ := exists_code_countdown
  exact ⟨built_countdown, by decide +kernel, code, notice, hcode,
    values_flow built_countdown hcode⟩

end ClassAssembler
