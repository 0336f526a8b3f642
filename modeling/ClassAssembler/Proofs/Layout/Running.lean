import ClassAssembler.Proofs.Code.Execution
import ClassAssembler.Proofs.Layout.ValueFlow

/-!
# Running the code of a body

A machine runs the points of a body just as it runs the code recorded from them.
-/

namespace ClassAssembler

open List

namespace Recorder

open Point

variable {free params : Nat} {ps : List Point} {i j : Nat}

def spot (free params : Nat) (ps : List Point) (i : Nat) : Nat :=
  rank (kept? free params ps) (List.range (ps.length + 1)) i

section machine

variable {W : Type} {M : Machine Point W} {w : W} {c : Config W} (h : Regular ps)
  (hcode : M.code? = Point.code?) (hpass : ∀ p w, M.pass p w = w) (hact : Machine.Sensible M.act)
include h hcode hpass hact

variable (hnone : ∀ i cause, M.handler? i cause = none)
include hnone

/-- A machine that runs the points also runs what is kept of them. -/
theorem agrees :
    M.Agrees ps ⟨kept? free params ps, fun _ w => w, M.act, M.handler?⟩ (List.range (ps.length + 1))
      (Reached free params ps) where
  act := rfl
  handler _ _ _ hl := hl
  labels j l := by
    rw [hcode]
    exact ⟨stands_kept_label, kept_label⟩
  lines i p hi hp := by
    have hlt := (List.getElem?_eq_some_iff.mp hp).1
    refine ⟨i, ?_, ?_, fun _ => funext fun w => (hpass p w).symm⟩
    · rw [getElem?_eq_getElem (by rw [length_range]; omega), getElem_range]
    · rw [hcode]
      cases he : p.code? with
      | none =>
        change kept? free params ps i = none
        rw [kept?, hp]
        dsimp only
        rw [he]
        rfl
      | some e => exact kept_of_liveAt hp he (liveAt_of_reach h hi)
  closed i w j w' hi hstep := by
    have hstep := Machine.edge_of_step hact hstep
    rw [hcode] at hstep
    rcases hstep with hedge | ⟨_, _, _, _, _, _, hl, _⟩
    · exact hi.edge hedge
    · rw [hnone] at hl
      cases hl

theorem leads_kept (handler? : Nat → ClassName → Option Label) (hi : Reached free params ps i)
    (hleads : M.Leads ps (.running i w) c) (hstuck : c ≠ .stuck) :
    (M.bare handler?).Leads ((List.range (ps.length + 1)).filterMap (kept? free params ps))
      (.running (spot free params ps i) w)
      (Machine.place (kept? free params ps) (List.range (ps.length + 1)) c) := by
  refine Machine.Leads.bare (M := ⟨kept? free params ps, fun _ w => w, M.act, M.handler?⟩)
    (fun _ _ _ => rfl) (fun i _ cause l _ hl => ?_)
    ((agrees h hcode hpass hact hnone).leads hi hleads hstuck) hstuck
  rw [hnone] at hl
  cases hl

end machine

variable (free params) in
theorem stands_spot {l : Label} (h : Stands code? ps j (.label l)) :
    Stands some ((List.range (ps.length + 1)).filterMap (kept? free params ps))
      (spot free params ps j) (.label l) := (kept_label h).filterMap

theorem exists_reached (h : Regular ps) {l : Label} {x : Nat}
    (hx : ((List.range (ps.length + 1)).filterMap (kept? free params ps))[x]? = some (.label l))
    (hreach : Reach some ((List.range (ps.length + 1)).filterMap (kept? free params ps))
      (upTo false free params ps ps.length).ranges.toList x) :
    ∃ i, Stands code? ps i (.label l) ∧ Reached free params ps i ∧ spot free params ps i = x := by
  have hstands : Stands some ((List.range (ps.length + 1)).filterMap (kept? free params ps)) x
      (.label l) := ⟨_, hx, rfl⟩
  obtain ⟨i, hi, rfl⟩ := exists_stands hstands
  exact ⟨i, stands_kept_label hi, reached_of_reach h
    (reach_of_rank (.inr ⟨_, hi⟩) (Nat.le_of_lt hi.lt_length) hreach), rfl⟩

theorem Reached.through {qs : List Point} {k : Nat} (h : Reached free params ps k)
    (hlies : Machine.Lies ps k qs) (hplain : ∀ p ∈ qs, p.isPlain) :
    Reached free params ps (k + qs.length) := by
  induction qs generalizing k with
  | nil => exact h
  | cons q qs ih =>
    have hq := hplain q mem_cons_self
    have hnext : Reached free params ps (k + 1) := by
      cases q with
      | insn i role site => exact h.edge (.next ⟨_, hlies.head, rfl⟩ rfl)
      | reads v => exact h.edge (.skip hlies.head rfl)
      | yields v => exact h.edge (.skip hlies.head rfl)
      | _ => cases hq
    have hrest := ih hnext hlies.tail fun p hp => hplain p (mem_cons_of_mem _ hp)
    rwa [Nat.add_assoc, Nat.add_comm 1] at hrest

def FirstBranch (es : List Entry) (x : Nat) (br : Branch) : Prop :=
  ∃ z, x < z ∧ es[z]? = some (.branch br) ∧ ∀ t, x < t → t < z → ∃ i, es[t]? = some (.insn i)

theorem firstBranch_spot (h : Regular ps) {k : Nat} {l : Label} {status : Option Status}
    {qs : List Point} {br : Branch} {site : Option Site} (hk : Reached free params ps k)
    (hlies : Machine.Lies ps k (.label l status :: (qs ++ [.branch br site])))
    (hplain : ∀ p ∈ qs, p.isPlain) :
    FirstBranch ((List.range (ps.length + 1)).filterMap (kept? free params ps))
      (spot free params ps k) br := by
  have hlabel : Stands code? ps k (.label l) := hlies.stands rfl
  have hnext : Reached free params ps (k + 1) := hk.edge (.next hlabel rfl)
  have hreached := hnext.through hlies.tail.left hplain
  have hbranch := hlies.tail.right.head
  have hlt := (List.getElem?_eq_some_iff.mp hbranch).1
  have hz : Stands (kept? free params ps) (List.range (ps.length + 1)) (k + 1 + qs.length)
      (.branch br) := by
    refine ⟨_, ?_, kept_of_liveAt hbranch rfl (liveAt_of_reach h hreached)⟩
    rw [getElem?_eq_getElem (by rw [length_range]; omega), getElem_range]
  refine ⟨spot free params ps (k + 1 + qs.length), (kept_label hlabel).rank_lt (by omega), ?_,
    fun t hkt htz => ?_⟩
  · obtain ⟨e, he, heq⟩ := hz.filterMap
    cases heq
    exact he
  · have hlength : t < ((List.range (ps.length + 1)).filterMap (kept? free params ps)).length :=
      Nat.lt_trans htz hz.filterMap.lt_length
    obtain ⟨e, hget⟩ : ∃ e, ((List.range (ps.length + 1)).filterMap (kept? free params ps))[t]? =
        some e := ⟨_, getElem?_eq_getElem hlength⟩
    have ht : Stands some ((List.range (ps.length + 1)).filterMap (kept? free params ps)) t e :=
      ⟨_, hget, rfl⟩
    obtain ⟨i, hi, hrank⟩ := exists_stands ht
    have hki : k < i := by
      rcases Nat.lt_or_ge k i with hlt | hge
      · exact hlt
      · exact absurd (rank_le (kept? free params ps) _ hge)
          (by rw [hrank]; exact Nat.not_le.mpr hkt)
    have hiz : i < k + 1 + qs.length := by
      rcases Nat.lt_or_ge i (k + 1 + qs.length) with hlt | hge
      · exact hlt
      · exact absurd (rank_le (kept? free params ps) _ hge)
          (by rw [hrank]; exact Nat.not_le.mpr htz)
    obtain ⟨q, hq, hpq⟩ := hlies.tail.left.exists_mem hki hiz
    rcases stands_kept hi with ⟨p, hp, he, _⟩ | ⟨rfl, _, _⟩
    · rw [hpq] at hp
      cases hp
      have hinsn := hplain q hq
      cases q with
      | insn i role site =>
        cases he
        exact ⟨i, hget⟩
      | reads v => cases he
      | yields v => cases he
      | _ => cases hinsn
    · omega

end Recorder

theorem Point.distinct {ps : List Point} (h : (placed ps).Nodup) : Machine.Distinct code? ps :=
  fun _ _ _ hi hj => stands_unique h hi hj

def Literal.datum? : Literal → Option Datum
  | .int n => some (.int n)
  | .string text => some (.text (Text.units text))
  | .null => some .null
  | _ => none

/-- What a value is that is in its slot or a constant, and of the kind it is known to be. -/
def Body.datum? (b : Body) (homes : Array Home) (f : Frame) (v : Nat) : Option Datum :=
  let found := match Lay.homeOf homes v with
    | .slot k => f.locals (UInt16.ofNat k)
    | .constant =>
        match b.values[v]? with
        | some ⟨_, _, .constant l⟩ => l.datum?
        | _ => none
    | _ => none
  found.filter (·.kind = (Lay.typeOf b v).kind)

namespace Plot

section runs

variable {α W : Type}

/-- A machine runs points that stand as lines of its list. -/
structure Embeds (M : Machine α W) (ι : Point → α) : Prop where
  code : ∀ p, M.code? (ι p) = p.code?
  pass : ∀ p w, p.code? = none → M.pass (ι p) w = w

def Runs (M : Machine α W) (ι : Point → α) (p : Plot) (w w' : W) : Prop :=
  ∀ n, M.Runs ((p n).points.map ι) w w'

/-- A run from the start of a plot comes to its end, or to a label. -/
def Goes (M : Machine α W) (ι : Point → α) (ps : List α) (p : Plot) (w : W) (dest : Option Label)
    (w' : W) : Prop :=
  ∀ n k, Machine.Lies ps k ((p n).points.map ι) → match dest with
    | none => M.Leads ps (.running k w) (.running (k + (p n).points.length) w')
    | some l => ∀ j, Machine.find? M.code? ps l = some j →
        M.Leads ps (.running k w) (.running j w')

variable {M : Machine α W} {ι : Point → α} {ps : List α} {p q : Plot} {w w' w'' : W}

theorem map_append (ι : Point → α) (p q : Plot) (n : Nat) :
    ((p ++ q) n).points.map ι = (p n).points.map ι ++ (q (p n).next).points.map ι :=
  List.map_append

namespace Runs

theorem nil : Runs M ι nil w w := fun _ => .nil

theorem append (h : Runs M ι p w w') (h' : Runs M ι q w' w'') : Runs M ι (p ++ q) w w'' := by
  intro n
  rw [map_append]
  exact (h n).append (h' _)

theorem pass (hM : Embeds M ι) {p : Point} (h : p.code? = none) : Runs M ι (point p) w w := by
  intro n
  refine .pass (by rw [hM.code, h]) ?_
  rw [hM.pass p w h]
  exact .nil

theorem act (hM : Embeds M ι) {p : Point} {e : Entry} (h : p.code? = some e)
    (hact : M.act e w = .next w') : Runs M ι (point p) w w' := fun _ =>
  .act ((hM.code p).trans h) hact .nil

theorem goes (h : Runs M ι p w w') : Goes M ι ps p w none w' := by
  intro n k hlies
  have hleads := (h n).leads hlies
  rwa [length_map] at hleads

end Runs

namespace Goes

variable {dest : Option Label} {l : Label}

theorem append (h : Goes M ι ps p w none w') (h' : Goes M ι ps q w' dest w'') :
    Goes M ι ps (p ++ q) w dest w'' := by
  intro n k hlies
  rw [map_append] at hlies
  have hp := h n k hlies.left
  have hright := hlies.right
  rw [length_map] at hright
  have hq := h' _ _ hright
  cases dest with
  | none =>
    rw [append_apply, length_append, ← Nat.add_assoc]
    exact hp.trans hq
  | some l => exact fun j hj => hp.trans (hq j hj)

theorem left (h : Goes M ι ps p w (some l) w') : Goes M ι ps (p ++ q) w (some l) w' := by
  intro n k hlies
  rw [map_append] at hlies
  exact h n k hlies.left

theorem branch {br : Branch} {site : Site} (hM : Embeds M ι)
    (h : M.act (.branch br) w = .jump l w') : Goes M ι ps (branch site br) w (some l) w' :=
  fun _ _ hlies _ hj => .jump (hlies.stands (hM.code _)) h hj

theorem branch_next {br : Branch} {site : Site} (hM : Embeds M ι)
    (h : M.act (.branch br) w = .next w') : Goes M ι ps (Plot.branch site br) w none w' :=
  fun _ _ hlies => .next (hlies.stands (hM.code _)) h

end Goes

theorem lies_concat {β : Type} {as : List β} {p : β → Plot} {a : β} (ha : a ∈ as) {n k : Nat}
    (h : Machine.Lies ps k ((concat (as.map p) n).points.map ι)) :
    ∃ n' k', Machine.Lies ps k' ((p a n').points.map ι) := by
  induction as generalizing n k with
  | nil => cases ha
  | cons first as ih =>
    rw [map_cons, concat, map_append] at h
    rcases mem_cons.mp ha with rfl | ha
    · exact ⟨n, k, h.left⟩
    · exact ih ha h.right

end runs

variable {b : Body} {homes : Array Home} {site : Site} {world : World} {f f' : Frame} {v : Nat}
  {d : Datum} {handler? : Nat → ClassName → Option Label}

theorem embeds_world : Embeds (world.machine Point.code? handler?) id :=
  ⟨fun _ => rfl, fun _ _ _ => rfl⟩

theorem Runs.insn {i : Instruction} {role : Role} (h : World.insn? i f = some f') :
    Runs (world.machine Point.code? handler?) id (Plot.point (.insn i role site)) f f' :=
  .act embeds_world rfl (World.execute_of_some h)

theorem runs_literal {l : Literal} (h : l.datum? = some d) :
    Runs (world.machine Point.code? handler?) id (insns site (Lay.literal l)) f (f.push d) := by
  cases l with
  | int n =>
    cases h
    obtain ⟨i, hpush, hi⟩ := World.pushInt n f
    rw [Lay.literal, hpush]
    exact (Runs.insn hi).append .nil
  | string text =>
    cases h
    exact (Runs.insn rfl).append .nil
  | null =>
    cases h
    exact (Runs.insn rfl).append .nil
  | _ => cases h

theorem runs_fetch (h : b.datum? homes f v = some d) :
    Runs (world.machine Point.code? handler?) id (fetch b homes site v) f (f.push d) := by
  obtain ⟨hfound, hkind⟩ := Option.filter_eq_some_iff.mp h
  unfold fetch
  cases hhome : Lay.homeOf homes v with
  | slot k =>
    rw [hhome] at hfound
    refine Runs.insn ?_
    show World.load? _ _ f = _
    dsimp only at hfound
    rw [World.load?, hfound]
    simp only [Option.filter, hkind, if_true, Option.map_some]
  | constant =>
    rw [hhome] at hfound
    dsimp only at hfound ⊢
    split at hfound
    · next hvalue =>
      simpa only [hvalue] using runs_literal hfound
    · cases hfound
  | _ =>
    rw [hhome] at hfound
    cases hfound

end Plot

theorem Kind.words_pos (kind : Kind) : 0 < kind.words := by
  cases kind with
  | num kind => cases kind <;> decide
  | ref => decide

theorem Instruction.localAccess_pos {i : Instruction} {first : UInt16} {words : Nat}
    (h : i.localAccess? = some (first, words)) : 0 < words := by
  cases i with
  | load kind slot =>
    cases h
    exact kind.words_pos
  | store kind slot =>
    cases h
    exact kind.words_pos
  | inc slot delta =>
    cases h
    exact Nat.one_pos
  | _ => cases h

theorem Body.slots_le_of_fits {b : Body} {n : Nat} (hb : b.Sound)
    (hnamed : Lay.Named b.allocate.homes (b.points b.allocate.homes))
    (hfits : ∀ v k, Lay.homeOf b.allocate.homes v = .slot k → k + b.widthOf v ≤ n)
    {p : Point} (hp : p ∈ b.points b.allocate.homes) : p.slots ≤ n := by
  cases p with
  | insn i role site =>
    simp only [Point.slots]
    split
    · next first words haccess =>
      have hwords := Instruction.localAccess_pos haccess
      obtain ⟨j, hj⟩ := getElem?_of_mem hp
      have hviews : ∃ ψ views, Plot.Viewed b b.allocate.homes ψ False views :=
        Plot.exists_viewed hb False.elim
      obtain ⟨ψ, views, hviewed⟩ := hviews
      obtain ⟨σ, hmove, _⟩ := hviewed.move_knownAt hj
      obtain ⟨v, _, hoccupies⟩ := hmove.touches
        (fun i role site hmem => hnamed i role site (mem_singleton.mp hmem ▸ hp)) haccess
      -- The last word that is touched is one of the value's words.
      obtain ⟨k, hk, _, hlast⟩ := (hoccupies (first.toNat + words - 1)).mpr ⟨by omega, by omega⟩
      have hle := hfits v k hk
      omega
    · exact Nat.zero_le _
  | _ => exact Nat.zero_le _

/-- A body without a result has code if its slots fit into the local variables. -/
theorem Body.exists_code_of_fits {b : Body} (hb : b.Built) (hinit : b.init.all (·.called))
    (hvoid : b.method.type.returns = none ∧ b.settings.voidReturn) (hfree : b.firstFree ≤ 65535)
    (hfits : ∀ v k, Lay.homeOf b.allocate.homes v = .slot k → k + b.widthOf v ≤ 65535) :
    ∃ code notice, b.toCode = .ok (code, notice) := by
  have hsound := (hb.finished.completeInit (completeInit_of_called hinit)).sound
  rcases b.layOut_eq b.allocate.homes with
    ⟨layout, hlay, _, _, hnamed⟩ | ⟨fault, _, ⟨n, _, hn, v, hv⟩ | ⟨v, hv, hhome⟩⟩
  · exact exists_code hb ⟨hinit, by rw [hlay]; rfl, hvoid, hfree, fun p hp =>
      slots_le_of_fits hsound hnamed hfits hp⟩
  · have hle := hfits v n hv
    exact absurd hn (Nat.not_le_of_lt (Nat.lt_succ_of_le (Nat.le_of_add_right_le hle)))
  · exact absurd hhome (reads_home hsound hv)

end ClassAssembler
