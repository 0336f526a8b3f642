import ClassAssembler.Proofs.Layout.Recording

/-!
# What a recorder keeps

A recorder looks at the points of a plot once and keeps what it finds reachable.
-/

namespace ClassAssembler

open List

namespace Point

variable {ps : List Point} {i j k : Nat} {p q : Point} {l t : Label}

theorem split_at (hp : ps[i]? = some p) : ps = ps.take i ++ p :: ps.drop (i + 1) := by
  obtain ⟨hlt, rfl⟩ := List.getElem?_eq_some_iff.mp hp
  rw [getElem_cons_drop, take_append_drop]

theorem mem_placed_iff : l ∈ placed ps ↔ ∃ i, Stands code? ps i (.label l) := by
  rw [placed, mem_filterMap]
  constructor
  · rintro ⟨p, hp, hl⟩
    obtain ⟨i, hi⟩ := mem_iff_getElem?.mp hp
    exact ⟨i, p, hi, label?_eq_some_iff.mp hl⟩
  · rintro ⟨i, p, hi, hl⟩
    exact ⟨p, mem_of_getElem? hi, label?_eq_some_iff.mpr hl⟩

theorem mem_placed_take_iff : l ∈ placed (ps.take i) ↔ ∃ j < i, Stands code? ps j (.label l) := by
  rw [mem_placed_iff]
  constructor
  · rintro ⟨j, p, hp, hl⟩
    rw [getElem?_take] at hp
    split at hp
    · exact ⟨j, ‹_›, p, hp, hl⟩
    · cases hp
  · rintro ⟨j, hj, p, hp, hl⟩
    exact ⟨j, p, by rw [getElem?_take, if_pos hj]; exact hp, hl⟩

theorem stands_unique (h : (placed ps).Nodup) (hi : Stands code? ps i (.label l))
    (hj : Stands code? ps j (.label l)) : i = j := by
  obtain ⟨p, hp, hl⟩ := hi
  obtain ⟨q, hq, hl'⟩ := hj
  exact label_unique h hp (label?_eq_some_iff.mpr hl) hq (label?_eq_some_iff.mpr hl')

theorem Anchored.at (h : Anchored (fun _ => False) ps) (hp : ps[i]? = some p) (hl : l ∈ p.bounds) :
    ∃ j < i, Stands code? ps j (.label l) :=
  mem_placed_take_iff.mp ((h _ p _ (split_at hp) l hl).resolve_left id)

theorem Orderly.at (h : Orderly (fun _ => False) ps) (hnodup : (placed ps).Nodup)
    (hp : ps[i]? = some p) (ht : t ∈ p.aims) (hj : Stands code? ps j (.label t)) (hji : j < i) :
    (∃ br site, p = .branch br site) ∧
      (∀ k l, j < k → k < i → Stands code? ps k (.label l) →
        ∀ m q, m < j → ps[m]? = some q → l ∉ q.aims) ∧
      ∀ k q l, j < k → k < i → ps[k]? = some q → l ∈ q.bounds →
        ∃ x, j < x ∧ x < k ∧ Stands code? ps x (.label l) := by
  obtain ⟨hbranch, above, status, within, hpre, hshelter⟩ :=
    h _ p _ (split_at hp) t ht (mem_placed_take_iff.mpr ⟨j, hji, hj⟩)
  have hlt : i < ps.length := (List.getElem?_eq_some_iff.mp hp).1
  have hlength : above.length + 1 + within.length = i := by
    have hlen := congrArg List.length hpre
    simp only [length_take, length_append, length_cons] at hlen
    omega
  have hget : ∀ m < i, ps[m]? = (above ++ .label t status :: within)[m]? := by
    intro m hm
    rw [← hpre, getElem?_take, if_pos hm]
  have habove : above.length = j :=
    stands_unique hnodup ⟨.label t status, (hget _ (by omega)).trans (by simp), rfl⟩ hj
  have hwithin : ∀ k, j < k → k < i → ps[k]? = within[k - j - 1]? := by
    intro k hjk hki
    rw [hget k hki, getElem?_append_right (by omega),
      show k - above.length = k - j - 1 + 1 by omega, getElem?_cons_succ]
  refine ⟨hbranch, fun k l hjk hki ⟨q, hq, hl⟩ m q' hm hq' haims => ?_,
    fun k q l hjk hki hq hl => ?_⟩
  · rw [hwithin k hjk hki] at hq
    refine hshelter.1 l (mem_placed_iff.mpr ⟨_, q, hq, hl⟩) (.inr (mem_flatMap.mpr ⟨q', ?_, haims⟩))
    rw [hget m (by omega), getElem?_append_left (by omega)] at hq'
    exact mem_of_getElem? hq'
  · rw [hwithin k hjk hki] at hq
    obtain ⟨x, hx, q', hq', hl'⟩ := hshelter.2.at hq hl
    refine ⟨j + 1 + x, by omega, by omega, q', ?_, hl'⟩
    rw [hwithin _ (by omega) (by omega), show j + 1 + x - j - 1 = x by omega]
    exact hq'

end Point

namespace Recorder

open Point

section live

variable {free params : Nat} {ps : List Point} {i j k : Nat} {p : Point}

def fullRanges (free params : Nat) (ps : List Point) : List ExceptionRange :=
  (upTo true free params ps ps.length).ranges.toList

theorem live_succ (hp : ps[i]? = some p) : Live false free params ps (i + 1) ↔ match p with
    | .label l _ => Live false free params ps i ∨
      (upTo false free params ps i).referenced.contains l
    | .branch b _ => Live false free params ps i ∧ b.fallsThrough
    | _ => Live false free params ps i := by
  show (upTo false free params ps (i + 1)).reachable = true ↔ _
  rw [upTo_succ hp, reachable_point]
  cases p with
  | label l status => simp [Live, wake]
  | branch b site => simp [Live, wake]
  | _ => rfl

theorem mem_fullRanges (hnodup : (Point.placed ps).Nodup) {start stop handler : Label}
    {holes : List (Label × Label)} {caught : Option ClassName} {part : Label × Label} {x y m : Nat}
    (hk : ps[k]? = some (.protect start stop holes handler caught))
    (hpart : part ∈ between start stop holes) (hx : Stands code? ps x (.label part.1))
    (hy : Stands code? ps y (.label part.2)) (hyk : y < k) (hxm : x < m) (hmy : m < y)
    (hp : ps[m]? = some p) (hinsn : p.isInsn) :
    { start := part.1, stop := part.2, handler, caught } ∈ fullRanges free params ps :=
  (mem_ranges_iff hnodup).mpr ⟨k, (List.getElem?_eq_some_iff.mp hk).1, start, stop, holes,
    hk, hpart, x, y, Nat.lt_trans (Nat.lt_trans hxm hmy) hyk, hyk, hx, hy, m, hxm, hmy,
    p, hp, hinsn, rfl⟩

theorem reach_of_live (hnodup : (Point.placed ps).Nodup) (hi : i ≤ ps.length)
    (h : Live false free params ps i) : Reach code? ps (fullRanges free params ps) i := by
  induction i using Nat.strongRecOn with
  | ind i ih =>
    cases i with
    | zero => exact .start
    | succ i =>
      have hlt : i < ps.length := hi
      have hp : ps[i]? = some ps[i] := getElem?_eq_getElem hlt
      generalize ps[i] = p at hp
      have hlive := (live_succ hp).mp h
      have hreach : Live false free params ps i → Reach code? ps (fullRanges free params ps) i :=
        ih i (Nat.lt_succ_self i) (Nat.le_of_lt hlt)
      cases p with
      | label l status =>
        have hstands : Stands code? ps i (.label l) := ⟨_, hp, rfl⟩
        refine .step ?_ (.next hstands rfl)
        rcases hlive with hlive | hnamed
        · exact hreach hlive
        obtain ⟨k, hk, q, hq, hnames⟩ := referenced_iff.mp hnamed
        cases q with
        | branch b site =>
          have hklive : Reach code? ps (fullRanges free params ps) k :=
            ih k (Nat.lt_succ_of_lt hk) (Nat.le_of_lt (Nat.lt_trans hk hlt)) hnames.1
          exact .step hklive (.jump ⟨_, hq, rfl⟩ hnames.2 hstands)
        | protect start stop holes handler caught =>
          obtain ⟨rfl, part, hpart, hcovers⟩ := hnames
          obtain ⟨x, y, hxk, hyk, hx, hy, m, hxm, hmy, q', hq', hinsn, hm⟩ :=
            (covers_iff hnodup).mp hcovers
          have hmlive : Reach code? ps (fullRanges free params ps) m :=
            ih m (by omega) (by omega) hm
          obtain ⟨e, he, hlabel⟩ := isInsn_iff.mp hinsn
          exact .step hmlive (.throw ⟨_, hq', he⟩ hlabel
            (mem_fullRanges hnodup hq hpart hx hy hyk hxm hmy hq' hinsn)
            ⟨x, y, hx, hy, hxm, hmy⟩ hstands)
        | _ => cases hnames
      | insn j role site => exact .step (hreach hlive) (.next ⟨_, hp, rfl⟩ rfl)
      | branch b site => exact .step (hreach hlive.1) (.next ⟨_, hp, rfl⟩ hlive.2)
      | reads v => exact .step (hreach hlive) (.skip hp rfl)
      | yields v => exact .step (hreach hlive) (.skip hp rfl)
      | protect start stop holes handler caught => exact .step (hreach hlive) (.skip hp rfl)

/-- Control can be at a position: behind a label, if there is one. -/
def LiveAt (free params : Nat) (ps : List Point) (i : Nat) : Prop :=
  Live false free params ps i ∨
    ∃ l, Stands code? ps i (.label l) ∧ Live false free params ps (i + 1)

theorem liveAt_of_named {l : Label} (hi : Stands code? ps i (.label l)) (hk : k < i)
    (hp : ps[k]? = some p) (hnames : (upTo false free params ps k).Names l p) :
    LiveAt free params ps i := by
  refine .inr ⟨l, hi, ?_⟩
  obtain ⟨q, hq, hl⟩ := hi
  cases q with
  | label l' status =>
    cases hl
    exact (live_succ hq).mpr (.inr (referenced_iff.mpr ⟨k, hk, p, hp, hnames⟩))
  | _ => cases hl

theorem mem_bounds_of_between {start stop handler : Label} {holes : List (Label × Label)}
    {caught : Option ClassName} {part : Label × Label} (h : part ∈ between start stop holes) :
    part.1 ∈ (Point.protect start stop holes handler caught).bounds ∧
      part.2 ∈ (Point.protect start stop holes handler caught).bounds := by
  induction holes generalizing start with
  | nil =>
    cases mem_singleton.mp h
    exact ⟨.head .., .tail _ (.head ..)⟩
  | cons hole holes ih =>
    rcases mem_cons.mp h with rfl | h
    · simp [Point.bounds]
    · have h' := ih h
      simp only [Point.bounds, mem_cons, flatMap_cons, mem_append, not_mem_nil,
        or_false] at h' ⊢
      exact ⟨by grind, by grind⟩

theorem mem_aims_of_names {r : Recorder} {l : Label} (h : r.Names l p) : l ∈ p.aims := by
  cases p with
  | branch b site => exact h.2
  | protect start stop holes handler caught => exact mem_singleton.mpr h.1
  | _ => cases h

theorem dead_loop (h : Regular ps) {t : Label} (hp : ps[i]? = some p) (ht : t ∈ p.aims)
    (hj : Stands code? ps j (.label t)) (hji : j < i)
    (hdead : ¬ Live false free params ps (j + 1)) : ¬ Live false free params ps i := by
  obtain ⟨_, hsheltered, hanchored⟩ := h.orderly.at h.nodup hp ht hj hji
  suffices hall : ∀ k, j < k → k ≤ i → ¬ Live false free params ps k from hall i hji (Nat.le_refl i)
  intro k
  induction k using Nat.strongRecOn with
  | ind k ih =>
    intro hjk hki hlive
    obtain ⟨k, rfl⟩ : ∃ k', k = k' + 1 := ⟨k - 1, by omega⟩
    rcases Nat.lt_or_eq_of_le (Nat.le_of_lt_succ hjk) with hjk | rfl
    · have hbefore : ∀ m, j < m → m ≤ k → ¬ Live false free params ps m := fun m hjm hmk =>
        ih m (by omega) hjm (by omega)
      have hlt : k < ps.length := by
        have := (List.getElem?_eq_some_iff.mp hp).1
        omega
      have hq : ps[k]? = some ps[k] := getElem?_eq_getElem hlt
      generalize ps[k] = q at hq
      have hk := (live_succ hq).mp hlive
      cases q with
      | label l status =>
        rcases hk with hk | hnamed
        · exact hbefore k hjk (Nat.le_refl k) hk
        obtain ⟨m, hm, q, hmq, hnames⟩ := referenced_iff.mp hnamed
        rcases Nat.lt_trichotomy m j with hmj | rfl | hjm
        · exact hsheltered k l hjk (by omega) ⟨_, hq, rfl⟩ m q hmj hmq (mem_aims_of_names hnames)
        · obtain ⟨q', hq', hl⟩ := hj
          rw [hmq] at hq'
          cases hq'
          cases q with
          | label l' status => cases hnames
          | _ => cases hl
        · cases q with
          | branch b site => exact hbefore m hjm (by omega) hnames.1
          | protect start stop holes handler caught =>
            obtain ⟨_, part, hpart, hcovers⟩ := hnames
            obtain ⟨x, y, _, hym, hx, _, m', hxm', hm'y, _, _, _, hm'⟩ :=
              (covers_iff h.nodup).mp hcovers
            obtain ⟨x', hjx', _, hx'⟩ := hanchored m _ part.1 hjm (by omega) hmq
              (mem_bounds_of_between hpart).1
            cases stands_unique h.nodup hx hx'
            exact hbefore m' (by omega) (by omega) hm'
          | _ => cases hnames
      | branch b site => exact hbefore k hjk (Nat.le_refl k) hk.1
      | insn i' role site => exact hbefore k hjk (Nat.le_refl k) hk
      | reads v => exact hbefore k hjk (Nat.le_refl k) hk
      | yields v => exact hbefore k hjk (Nat.le_refl k) hk
      | protect start stop holes handler caught => exact hbefore k hjk (Nat.le_refl k) hk
    · exact hdead hlive

theorem LiveAt.live (h : LiveAt free params ps i) (hlabel : ∀ l, ¬ Stands code? ps i (.label l)) :
    Live false free params ps i :=
  h.resolve_right fun ⟨l, hl, _⟩ => hlabel l hl

theorem LiveAt.next {e : Entry} (h : LiveAt free params ps i) (hi : Stands code? ps i e)
    (hfalls : e.fallsThrough) : Live false free params ps (i + 1) := by
  rcases h with hlive | ⟨_, _, hlive⟩
  · obtain ⟨p, hp, he⟩ := hi
    cases p with
    | label l status => exact (live_succ hp).mpr (.inl hlive)
    | insn i role site => exact (live_succ hp).mpr hlive
    | branch b site =>
      cases he
      exact (live_succ hp).mpr ⟨hlive, hfalls⟩
    | _ => cases he
  · exact hlive

/-- A handler is placed behind the protection that names it. -/
theorem handler_below (h : Regular ps) {start stop handler : Label} {holes : List (Label × Label)}
    {caught : Option ClassName} (hp : ps[k]? = some (.protect start stop holes handler caught))
    (hj : Stands code? ps j (.label handler)) : k < j := by
  rcases Nat.lt_trichotomy k j with hkj | rfl | hjk
  · exact hkj
  · obtain ⟨q, hq, hl⟩ := hj
    rw [hp] at hq
    cases hq
    cases hl
  · obtain ⟨⟨br, site, hbr⟩, _⟩ := h.orderly.at h.nodup hp (.head _) hj hjk
    cases hbr

theorem liveAt_of_reach (h : Regular ps) (hreach : Reach code? ps (fullRanges free params ps) i) :
    LiveAt free params ps i := by
  induction hreach with
  | start => exact .inl rfl
  | @step i j _ hedge ih =>
    cases hedge with
    | skip hp he =>
      have hlive := ih.live fun l ⟨q, hq, hl⟩ => by
        rw [hp] at hq
        cases hq
        rw [he] at hl
        cases hl
      refine .inl ((live_succ hp).mpr ?_)
      split
      · cases he
      · cases he
      · exact hlive
    | next hi hfalls => exact .inl (ih.next hi hfalls)
    | @jump _ e t hi ht hj =>
      obtain ⟨p, hp, he⟩ := hi
      obtain ⟨b, site, rfl, rfl⟩ := exists_branch he ht
      have hlive := ih.live fun l hl => by cases hl.unique ⟨_, hp, rfl⟩
      rcases Nat.lt_trichotomy i j with hij | rfl | hji
      · exact liveAt_of_named hj hij hp ⟨hlive, ht⟩
      · exact .inl hlive
      · -- The start of a loop is live if its end is.
        by_cases hstart : Live false free params ps (j + 1)
        · exact .inr ⟨t, hj, hstart⟩
        · exact absurd hlive (dead_loop h hp ht hj hji hstart)
    | @throw _ e range hi hlabel hr hcovers hj =>
      have hlive := ih.live fun l hl => by
        cases hl.unique hi
        exact hlabel rfl
      obtain ⟨k, hk, start, stop, holes, hprotect, hpart, x, y, hxk, hyk, hx, hy, _⟩ :=
        (mem_ranges_iff h.nodup).mp hr
      obtain ⟨x', y', hx', hy', hxi, hiy⟩ := hcovers
      cases stands_unique h.nodup hx hx'
      cases stands_unique h.nodup hy hy'
      obtain ⟨p, hp, he⟩ := hi
      have hrecorded : Recorded false free params ps i :=
        ⟨p, hp, isInsn_iff.mpr ⟨e, he, hlabel⟩, hlive⟩
      refine liveAt_of_named hj (handler_below h hprotect hj) hprotect ⟨rfl, _, hpart, ?_⟩
      exact (covers_iff h.nodup).mpr ⟨x, y, hxk, hyk, hx, hy, i, hxi, hiy, hrecorded⟩

theorem live_iff_reach (h : Regular ps) (hi : i ≤ ps.length)
    (hlabel : ∀ l, ¬ Stands code? ps i (.label l)) :
    Live false free params ps i ↔ Reach code? ps (fullRanges free params ps) i :=
  ⟨reach_of_live h.nodup hi, fun hreach => (liveAt_of_reach h hreach).live hlabel⟩

end live
end Recorder
end ClassAssembler
