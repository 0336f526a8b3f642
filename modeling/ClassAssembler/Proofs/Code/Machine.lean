import ClassAssembler.Proofs.Code.Paths

/-!
# Running code

A machine says what each entry does to a state: go on, jump, throw, or end.
-/

namespace ClassAssembler

open List

def OrdTest.holds (n : Int32) : OrdTest → Bool
  | eq => n = 0
  | ne => n ≠ 0
  | lt => n < 0
  | le => n ≤ 0
  | gt => 0 < n
  | ge => 0 ≤ n

def EqTest.holds (same : Bool) : EqTest → Bool
  | eq => same
  | ne => !same

def Branch.select (v : Int32) : Branch → Option Label
  | tableSwitch fallback low targets =>
      some (if low ≤ v then targets[(v.toInt - low.toInt).toNat]?.getD fallback else fallback)
  | lookupSwitch fallback targets => some ((targets.lookup v).getD fallback)
  | _ => none

theorem Branch.select_mem {v : Int32} {br : Branch} {l : Label} (h : br.select v = some l) :
    l ∈ br.targets := by
  cases br with
  | tableSwitch fallback low targets =>
    cases h
    split
    · cases ht : targets[(v.toInt - low.toInt).toNat]? with
      | none => exact mem_cons_self
      | some l => exact .tail _ (mem_of_getElem? ht)
    · exact mem_cons_self
  | lookupSwitch fallback targets =>
    cases h
    cases ht : targets.lookup v with
    | none => exact mem_cons_self
    | some l =>
      obtain ⟨p, q, rfl, _⟩ := lookup_eq_some_iff.mp ht
      exact .tail _ (mem_map.mpr ⟨(v, l), by simp, rfl⟩)
  | _ => cases h

/-- What running an entry leads to. -/
inductive Effect (W : Type) where
  | next (w : W)
  | jump (target : Label) (w : W)
  | raise (cause : ClassName) (w : W)
  | halt (w : W)
  | stuck

/-- Where a run is. -/
inductive Config (W : Type) where
  | running (position : Nat) (w : W)
  | halted (w : W)
  | stuck

def Effect.state? {W : Type} : Effect W → Option W
  | next w | jump _ w | raise _ w | halt w => some w
  | stuck => none

def Config.state? {W : Type} : Config W → Option W
  | running _ w | halted w => some w
  | stuck => none

structure Machine (α W : Type) where
  code? : α → Option Entry
  pass : α → W → W
  act : Entry → W → Effect W
  /-- Where an exception goes that is thrown at a position. -/
  handler? : Nat → ClassName → Option Label

namespace Machine

variable {α β W : Type}

def find? (code? : α → Option Entry) (ps : List α) (l : Label) : Option Nat :=
  ps.findIdx? fun p => code? p = some (.label l)

section run

variable (M : Machine α W) (ps : List α)

def goTo (l : Label) (w : W) : Config W :=
  match find? M.code? ps l with
  | some i => .running i w
  | none => .stuck

def follow (i : Nat) : Effect W → Config W
  | .next w => .running (i + 1) w
  | .jump l w => M.goTo ps l w
  | .raise cause w =>
      match M.handler? i cause with
      | some l => M.goTo ps l w
      | none => .stuck
  | .halt w => .halted w
  | .stuck => .stuck

def step : Config W → Config W
  | .running i w =>
      match ps[i]? with
      | none => .stuck
      | some p =>
          match M.code? p with
          | none => .running (i + 1) (M.pass p w)
          | some e => M.follow ps i (M.act e w)
  | c => c

def run : Nat → Config W → Config W
  | 0, c => c
  | n + 1, c => run n (M.step ps c)

def Leads (c c' : Config W) : Prop := ∃ n, M.run ps n c = c'

end run

variable {M : Machine α W} {ps qs : List α} {c c' c'' : Config W} {w w' : W} {i j k n : Nat}
  {l : Label} {p : α} {e : Entry}

theorem step_pass (hp : ps[i]? = some p) (he : M.code? p = none) :
    M.step ps (.running i w) = .running (i + 1) (M.pass p w) := by
  simp only [step, hp, he]

theorem step_act (h : Stands M.code? ps i e) :
    M.step ps (.running i w) = M.follow ps i (M.act e w) := by
  obtain ⟨p, hp, he⟩ := h
  simp only [step, hp, he]

theorem step_next (h : Stands M.code? ps i e) (hact : M.act e w = .next w') :
    M.step ps (.running i w) = .running (i + 1) w' := by
  rw [step_act h, hact, follow]

theorem find?_eq_some_iff {code? : α → Option Entry} : find? code? ps l = some j ↔
    Stands code? ps j (.label l) ∧ ∀ i < j, ¬ Stands code? ps i (.label l) := by
  rw [find?, findIdx?_eq_some_iff_getElem]
  constructor
  · rintro ⟨hlt, hj, hbefore⟩
    refine ⟨⟨_, getElem?_eq_getElem hlt, of_decide_eq_true hj⟩, fun i hi ⟨p, hp, hl⟩ => ?_⟩
    obtain ⟨_, rfl⟩ := List.getElem?_eq_some_iff.mp hp
    exact hbefore i hi (decide_eq_true hl)
  · rintro ⟨⟨p, hp, hl⟩, hbefore⟩
    obtain ⟨hlt, rfl⟩ := List.getElem?_eq_some_iff.mp hp
    refine ⟨hlt, decide_eq_true hl, fun i hi h => hbefore i hi ?_⟩
    exact ⟨_, getElem?_eq_getElem (Nat.lt_trans hi hlt), of_decide_eq_true h⟩

theorem goTo_of_find? (h : find? M.code? ps l = some j) : M.goTo ps l w = .running j w := by
  rw [goTo, h]

inductive Step (M : Machine α W) (ps : List α) (i : Nat) (w : W) : Config W → Prop
  | pass {p : α} : ps[i]? = some p → M.code? p = none → Step M ps i w
    (.running (i + 1) (M.pass p w))
  | next {e : Entry} {w' : W} : Stands M.code? ps i e → M.act e w = .next w' →
      Step M ps i w (.running (i + 1) w')
  | jump {e : Entry} {l : Label} {w' : W} {j : Nat} : Stands M.code? ps i e →
      M.act e w = .jump l w' → find? M.code? ps l = some j → Step M ps i w (.running j w')
  | raise {e : Entry} {cause : ClassName} {l : Label} {w' : W} {j : Nat} :
      Stands M.code? ps i e → M.act e w = .raise cause w' → M.handler? i cause = some l →
      find? M.code? ps l = some j → Step M ps i w (.running j w')
  | halt {e : Entry} {w' : W} : Stands M.code? ps i e → M.act e w = .halt w' →
      Step M ps i w (.halted w')

theorem step_cases (hc : M.step ps (.running i w) = c) (hstuck : c ≠ .stuck) : M.Step ps i w c := by
  subst hc
  have hgo : ∀ {l w'}, M.goTo ps l w' ≠ .stuck →
      ∃ j, find? M.code? ps l = some j ∧ M.goTo ps l w' = .running j w' := by
    intro l w' hgo
    unfold goTo at hgo ⊢
    cases hl : find? M.code? ps l with
    | none =>
      rw [hl] at hgo
      exact absurd rfl hgo
    | some j => exact ⟨j, rfl, rfl⟩
  cases hp : ps[i]? with
  | none =>
    rw [step, hp] at hstuck
    exact absurd rfl hstuck
  | some p =>
    cases he : M.code? p with
    | none =>
      rw [step_pass hp he]
      exact .pass hp he
    | some e =>
      have hstands : Stands M.code? ps i e := ⟨p, hp, he⟩
      rw [step_act hstands] at hstuck ⊢
      cases hact : M.act e w with
      | next w' => exact .next hstands hact
      | halt w' => exact .halt hstands hact
      | jump l w' =>
        rw [hact] at hstuck
        obtain ⟨j, hj, heq⟩ := hgo hstuck
        rw [follow, heq]
        exact .jump hstands hact hj
      | raise cause w' =>
        rw [hact, follow] at hstuck
        rw [follow]
        cases hl : M.handler? i cause with
        | none =>
          rw [hl] at hstuck
          exact absurd rfl hstuck
        | some l =>
          rw [hl] at hstuck
          obtain ⟨j, hj, heq⟩ := hgo hstuck
          show M.Step ps i w (M.goTo ps l w')
          rw [heq]
          exact .raise hstands hact hl hj
      | stuck =>
        rw [hact] at hstuck
        exact absurd rfl hstuck

def Distinct (code? : α → Option Entry) (ps : List α) : Prop :=
  ∀ i j l, Stands code? ps i (.label l) → Stands code? ps j (.label l) → i = j

theorem Distinct.find? {code? : α → Option Entry} (h : Distinct code? ps)
    (hj : Stands code? ps j (.label l)) : Machine.find? code? ps l = some j :=
  find?_eq_some_iff.mpr ⟨hj, fun i hi hl => Nat.ne_of_lt hi (h i j l hl hj)⟩

/-- Branches
  go by a number: in a state `w` none is on the stack, and in `holding n` there is one. -/
structure Branches (M : Machine α W) (w : W) (holding : Int32 → W) : Prop where
  label : ∀ l, M.act (.label l) w = .next w
  goto : ∀ l, M.act (.branch (.goto l)) w = .jump l w
  jumpIf : ∀ ord l n, M.act (.branch (.jumpIf (.zero ord) l)) (holding n) =
    if ord.holds n then .jump l w else .next w
  choose : ∀ br n l, br.select n = some l → M.act (.branch br) (holding n) = .jump l w

/-- Control goes where entries may lead it. -/
structure Sensible (act : Entry → W → Effect W) : Prop where
  next : ∀ {e w w'}, act e w = .next w' → e.fallsThrough
  jump : ∀ {e w l w'}, act e w = .jump l w' → l ∈ e.targets

theorem edge_of_step (hact : Sensible M.act) (h : M.step ps (.running i w) = .running j w') :
    Edge M.code? ps [] i j ∨ ∃ e cause w0 l, Stands M.code? ps i e ∧ M.act e w = .raise cause w0 ∧
      M.handler? i cause = some l ∧ Stands M.code? ps j (.label l) := by
  cases step_cases h (by simp) with
  | pass hp he => exact .inl (.skip hp he)
  | next hi heff => exact .inl (.next hi (hact.next heff))
  | jump hi heff hj => exact .inl (.jump hi (hact.jump heff) (find?_eq_some_iff.mp hj).1)
  | raise hi heff hl hj =>
    exact .inr ⟨_, _, _, _, hi, heff, hl, (find?_eq_some_iff.mp hj).1⟩

theorem run_succ (n : Nat) (c : Config W) : M.run ps (n + 1) c = M.run ps n (M.step ps c) := rfl

theorem run_add (m n : Nat) (c : Config W) : M.run ps (m + n) c = M.run ps n (M.run ps m c) := by
  induction m generalizing c with
  | zero => rw [Nat.zero_add, run]
  | succ m ih => rw [Nat.succ_add, run_succ, run_succ, ih]

theorem run_stuck (n : Nat) : M.run ps n .stuck = .stuck := by
  induction n with
  | zero => rfl
  | succ n ih => exact ih

theorem run_halted (n : Nat) (w : W) : M.run ps n (.halted w) = .halted w := by
  induction n with
  | zero => rfl
  | succ n ih => exact ih

namespace Leads

theorem refl (c : Config W) : M.Leads ps c c := ⟨0, rfl⟩

theorem of_step (h : M.step ps c = c') : M.Leads ps c c' := ⟨1, h⟩

theorem trans (h : M.Leads ps c c') (h' : M.Leads ps c' c'') : M.Leads ps c c'' := by
  obtain ⟨m, rfl⟩ := h
  obtain ⟨n, rfl⟩ := h'
  exact ⟨m + n, run_add m n c⟩

variable (h : Stands M.code? ps i e)
include h

theorem jump (hact : M.act e w = .jump l w') (hl : find? M.code? ps l = some j) :
    M.Leads ps (.running i w) (.running j w') := by
  refine of_step ?_
  rw [step_act h, hact, follow, goTo_of_find? hl]

theorem goTo (hact : M.act e w = .jump l w') : M.Leads ps (.running i w) (M.goTo ps l w') := by
  refine of_step ?_
  rw [step_act h, hact, follow]

theorem halt (hact : M.act e w = .halt w') : M.Leads ps (.running i w) (.halted w') := by
  refine of_step ?_
  rw [step_act h, hact, follow]

theorem next (hact : M.act e w = .next w') :
    M.Leads ps (.running i w) (.running (i + 1) w') := of_step (step_next h hact)

end Leads

theorem exists_of_step (h : (M.step ps (.running i w)).state? = some w') :
    (∃ p, M.code? p = none ∧ M.pass p w = w') ∨ ∃ e, (M.act e w).state? = some w' := by
  generalize hc : M.step ps (.running i w) = c at h
  have hstuck : c ≠ .stuck := by
    rintro rfl
    cases h
  cases step_cases hc hstuck with
  | pass _ he => exact .inl ⟨_, he, Option.some.inj h⟩
  | next _ heff | jump _ heff _ | raise _ heff _ _ | halt _ heff =>
    exact .inr ⟨_, by rw [heff]; exact h⟩

theorem run_rel {R : W → W → Prop} (hrefl : ∀ w, R w w)
    (htrans : ∀ w w' w'', R w w' → R w' w'' → R w w'')
    (hpass : ∀ p w, M.code? p = none → R w (M.pass p w))
    (hact : ∀ e w w', (M.act e w).state? = some w' → R w w') (hw : c.state? = some w)
    (hw' : (M.run ps n c).state? = some w') : R w w' := by
  induction n generalizing c w with
  | zero =>
    rw [run, hw] at hw'
    cases hw'
    exact hrefl _
  | succ n ih =>
    rw [run_succ] at hw'
    cases c with
    | running i w =>
      cases hw
      cases hstep : (M.step ps (.running i w)).state? with
      | none =>
        cases hc : M.step ps (.running i w) with
        | stuck =>
          rw [hc, run_stuck] at hw'
          cases hw'
        | _ =>
          rw [hc] at hstep
          cases hstep
      | some w1 =>
        refine htrans w w1 w' ?_ (ih hstep hw')
        rcases exists_of_step hstep with ⟨p, he, rfl⟩ | ⟨e, he⟩
        · exact hpass p w he
        · exact hact e w w1 he
    | halted w0 => exact ih hw hw'
    | stuck => cases hw

def Lies (ps : List α) (k : Nat) (qs : List α) : Prop := qs <+: ps.drop k

namespace Lies

theorem of_infix (h : qs <:+: ps) : ∃ k, Lies ps k qs := by
  obtain ⟨pre, post, rfl⟩ := h
  refine ⟨pre.length, post, ?_⟩
  rw [List.append_assoc, drop_left]

theorem head (h : Lies ps k (p :: qs)) : ps[k]? = some p := by
  obtain ⟨post, hpost⟩ := h
  rw [← head?_drop, ← hpost]
  rfl

theorem tail (h : Lies ps k (p :: qs)) : Lies ps (k + 1) qs := by
  obtain ⟨post, hpost⟩ := h
  refine ⟨post, ?_⟩
  rw [← tail_drop, ← hpost]
  rfl

theorem left {rs : List α} (h : Lies ps k (qs ++ rs)) : Lies ps k qs :=
  (prefix_append qs rs).trans h

theorem right {rs : List α} (h : Lies ps k (qs ++ rs)) : Lies ps (k + qs.length) rs := by
  obtain ⟨post, hpost⟩ := h
  refine ⟨post, ?_⟩
  rw [← drop_drop, ← hpost, List.append_assoc, drop_left]

theorem among {rs : List α} (h : Lies ps k qs) (hin : rs <:+: qs) :
    ∃ i, k ≤ i ∧ i + rs.length ≤ k + qs.length ∧ Lies ps i rs := by
  obtain ⟨pre, post, rfl⟩ := hin
  refine ⟨k + pre.length, Nat.le_add_right .., ?_, h.left.right⟩
  simp only [length_append]
  omega

theorem map_id (h : Lies ps k qs) : Lies ps k (qs.map id) := by
  rwa [List.map_id]

theorem stands {code? : α → Option Entry} (h : Lies ps k (p :: qs)) (he : code? p = some e) :
    Stands code? ps k e := ⟨p, h.head, he⟩

theorem exists_mem (h : Lies ps k qs) (hki : k ≤ i) (hik : i < k + qs.length) :
    ∃ p ∈ qs, ps[i]? = some p := by
  obtain ⟨post, hpost⟩ := h
  obtain ⟨m, rfl⟩ := Nat.exists_eq_add_of_le hki
  have hlt : m < qs.length := by omega
  refine ⟨qs[m], getElem_mem hlt, ?_⟩
  rw [← getElem?_drop, ← hpost, getElem?_append_left hlt, getElem?_eq_getElem hlt]

end Lies

inductive Runs (M : Machine α W) : List α → W → W → Prop
  | nil {w : W} : Runs M [] w w
  | pass {p : α} {qs : List α} {w w' : W} : M.code? p = none → Runs M qs (M.pass p w) w' →
      Runs M (p :: qs) w w'
  | act {p : α} {qs : List α} {e : Entry} {w w' w'' : W} : M.code? p = some e →
      M.act e w = .next w' → Runs M qs w' w'' → Runs M (p :: qs) w w''

namespace Runs

theorem append {rs : List α} {w'' : W} (h : M.Runs qs w w') (h' : M.Runs rs w' w'') :
    M.Runs (qs ++ rs) w w'' := by
  induction h with
  | nil => exact h'
  | pass he _ ih => exact .pass he (ih h')
  | act he hact _ ih => exact .act he hact (ih h')

theorem leads (h : M.Runs qs w w') (hlies : Lies ps k qs) :
    M.Leads ps (.running k w) (.running (k + qs.length) w') := by
  induction h generalizing k with
  | nil => exact .refl _
  | pass he _ ih =>
    have hrest := ih hlies.tail
    rw [Nat.add_assoc, Nat.add_comm 1] at hrest
    exact (Leads.of_step (step_pass hlies.head he)).trans hrest
  | act he hact _ ih =>
    have hrest := ih hlies.tail
    rw [Nat.add_assoc, Nat.add_comm 1] at hrest
    exact (Leads.next (hlies.stands he) hact).trans hrest

end Runs

/-- Two machines do the same on two lists, as far as positions in `live` go. -/
structure Agrees (M : Machine α W) (ps : List α) (N : Machine β W) (qs : List β)
    (live : Nat → Prop) : Prop where
  act : N.act = M.act
  handler : ∀ i cause l, M.handler? i cause = some l → N.handler? i cause = some l
  labels : ∀ j l, Stands N.code? qs j (.label l) ↔ Stands M.code? ps j (.label l)
  lines : ∀ i p, live i → ps[i]? = some p → ∃ q, qs[i]? = some q ∧ N.code? q = M.code? p ∧
    (M.code? p = none → N.pass q = M.pass p)
  closed : ∀ i w j w', live i → M.step ps (.running i w) = .running j w' → live j

namespace Agrees

variable {N : Machine β W} {qs : List β} {live : Nat → Prop}

variable (h : M.Agrees ps N qs live)
include h

theorem find? (l : Label) : Machine.find? N.code? qs l = Machine.find? M.code? ps l := by
  refine Option.ext fun j => ?_
  rw [find?_eq_some_iff, find?_eq_some_iff]
  simp only [h.labels]

theorem stands (hi : live i) (hp : Stands M.code? ps i e) : Stands N.code? qs i e := by
  obtain ⟨p, hp, he⟩ := hp
  obtain ⟨q, hq, hcode, _⟩ := h.lines i p hi hp
  exact ⟨q, hq, hcode.trans he⟩

theorem step (hi : live i) (hc : M.step ps (.running i w) = c) (hstuck : c ≠ .stuck) :
    N.step qs (.running i w) = c := by
  cases step_cases hc hstuck with
  | pass hp he =>
    obtain ⟨q, hq, hcode, hpass⟩ := h.lines i _ hi hp
    rw [step_pass hq (hcode.trans he), hpass he]
  | next hp hact => rw [step_act (h.stands hi hp), h.act, hact, follow]
  | jump hp hact hj =>
    rw [step_act (h.stands hi hp), h.act, hact]
    exact goTo_of_find? ((h.find? _).trans hj)
  | raise hp hact hl hj =>
    rw [step_act (h.stands hi hp), h.act, hact, follow, h.handler i _ _ hl]
    exact goTo_of_find? ((h.find? _).trans hj)
  | halt hp hact => rw [step_act (h.stands hi hp), h.act, hact, follow]

theorem run (hi : live i) (n : Nat) (hstuck : M.run ps n (.running i w) ≠ .stuck) :
    N.run qs n (.running i w) = M.run ps n (.running i w) := by
  induction n generalizing i w with
  | zero => rfl
  | succ n ih =>
    rw [run_succ] at hstuck ⊢
    rw [run_succ]
    cases hc : M.step ps (.running i w) with
    | running j w' =>
      rw [hc] at hstuck
      rw [h.step hi hc (by simp)]
      exact ih (h.closed i w j w' hi hc) hstuck
    | halted w' => rw [h.step hi hc (by simp), run_halted, run_halted]
    | stuck =>
      rw [hc, run_stuck] at hstuck
      exact absurd rfl hstuck

theorem live_of_run (hi : live i) (hrun : M.run ps n (.running i w) = .running j w') : live j := by
  induction n generalizing i w with
  | zero =>
    cases hrun
    exact hi
  | succ n ih =>
    rw [run_succ] at hrun
    cases hc : M.step ps (.running i w) with
    | running k w1 =>
      rw [hc] at hrun
      exact ih (h.closed i w k w1 hi hc) hrun
    | halted w1 =>
      rw [hc, run_halted] at hrun
      cases hrun
    | stuck =>
      rw [hc, run_stuck] at hrun
      cases hrun

theorem leads (hi : live i) (hleads : M.Leads ps (.running i w) c) (hstuck : c ≠ .stuck) :
    N.Leads qs (.running i w) c := by
  obtain ⟨n, rfl⟩ := hleads
  exact ⟨n, h.run hi n hstuck⟩

end Agrees

def bare (M : Machine α W) (handler? : Nat → ClassName → Option Label) : Machine Entry W where
  code? := some
  pass _ w := w
  act := M.act
  handler? := handler?

def place (code? : α → Option Entry) (ps : List α) : Config W → Config W
  | .running i w => .running (rank code? ps i) w
  | c => c

theorem find?_filterMap {code? : α → Option Entry} (h : find? code? ps l = some j) :
    find? some (ps.filterMap code?) l = some (rank code? ps j) := by
  obtain ⟨hj, hbefore⟩ := find?_eq_some_iff.mp h
  refine find?_eq_some_iff.mpr ⟨hj.filterMap, fun x hx hl => ?_⟩
  obtain ⟨i, hi, rfl⟩ := exists_stands hl
  refine hbefore i ?_ hi
  rcases Nat.lt_or_ge i j with hlt | hge
  · exact hlt
  · exact absurd (rank_le code? ps hge) (Nat.not_le.mpr hx)

section bare

variable {handler? : Nat → ClassName → Option Label}
  (hpass : ∀ p w, M.code? p = none → M.pass p w = w)
  (hhandler : ∀ i e cause l, Stands M.code? ps i e → M.handler? i cause = some l →
    handler? (rank M.code? ps i) cause = some l)
include hpass hhandler

theorem leads_bare_step (hstuck : M.step ps c ≠ .stuck) :
    (M.bare handler?).Leads (ps.filterMap M.code?) (place M.code? ps c)
      (place M.code? ps (M.step ps c)) := by
  cases c with
  | running i w =>
    have hbare : ∀ {e}, Stands M.code? ps i e →
        (M.bare handler?).step (ps.filterMap M.code?) (place M.code? ps (.running i w)) =
          (M.bare handler?).follow (ps.filterMap M.code?) (rank M.code? ps i) (M.act e w) :=
      fun hi => step_act (M := M.bare handler?) hi.filterMap
    generalize hc : M.step ps (.running i w) = c at hstuck ⊢
    cases step_cases hc hstuck with
    | pass hp he =>
      rw [hpass _ w he, place, place, rank_succ_of_none hp he]
      exact .refl _
    | next hi hact =>
      refine Leads.of_step ?_
      rw [hbare hi, hact, follow, place, hi.rank_succ]
    | jump hi hact hj =>
      refine Leads.of_step ?_
      rw [hbare hi, hact]
      exact goTo_of_find? (find?_filterMap hj)
    | raise hi hact hl hj =>
      refine Leads.of_step ?_
      rw [hbare hi, hact, follow]
      change (match handler? (rank M.code? ps i) _ with
        | some l => _
        | none => _) = _
      rw [hhandler i _ _ _ hi hl]
      exact goTo_of_find? (find?_filterMap hj)
    | halt hi hact =>
      refine Leads.of_step ?_
      rw [hbare hi, hact]
      rfl
  | halted w => exact .refl _
  | stuck => exact absurd rfl hstuck

theorem Leads.bare (h : M.Leads ps c c') (hstuck : c' ≠ .stuck) :
    (M.bare handler?).Leads (ps.filterMap M.code?) (place M.code? ps c) (place M.code? ps c') := by
  obtain ⟨n, rfl⟩ := h
  induction n generalizing c with
  | zero => exact .refl _
  | succ n ih =>
    rw [run_succ] at hstuck ⊢
    have hstep : M.step ps c ≠ .stuck := by
      intro hc
      rw [hc, run_stuck] at hstuck
      exact hstuck rfl
    exact (leads_bare_step hpass hhandler hstep).trans (ih hstuck)

end bare

end Machine
end ClassAssembler
