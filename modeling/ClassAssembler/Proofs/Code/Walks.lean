import ClassAssembler.Proofs.Code.Paths

/-!
# Walks through code

A walk is a way through code from its start, with all positions on it. An instruction that throws
may have taken effect or not.
-/

namespace ClassAssembler

section walks

variable {α : Type} (code? : α → Option Entry)

/-- An instruction throws to the handler of a range that covers it. -/
def Throws (ps : List α) (ranges : List ExceptionRange) (i j : Nat) : Prop :=
  ∃ e range, Stands code? ps i e ∧ ¬ e.isLabel ∧ range ∈ ranges ∧ Covers code? ps range i ∧
    Stands code? ps j (.label range.handler)

/-- How a position is left. -/
inductive Passage where
  | passed
  /-- By an exception, and whether the instruction took effect before. -/
  | thrown (done : Bool)

/-- A walk from the start, with the positions on it and how they are left, the last one first. -/
inductive Walk (ps : List α) (ranges : List ExceptionRange) : List (Nat × Passage) → Nat → Prop
  | start : Walk ps ranges [] 0
  | step {past : List (Nat × Passage)} {i j : Nat} : Walk ps ranges past i →
      Edge code? ps [] i j → Walk ps ranges ((i, .passed) :: past) j
  | throw {past : List (Nat × Passage)} {i j : Nat} (done : Bool) : Walk ps ranges past i →
      Throws code? ps ranges i j → Walk ps ranges ((i, .thrown done) :: past) j

def entriesOn (ps : List α) (past : List (Nat × Passage)) : List (Nat × Passage) :=
  past.filterMap fun x => (ps[x.1]?.bind code?).map fun _ => (rank code? ps x.1, x.2)

variable {code?} {ps : List α} {ranges : List ExceptionRange} {past : List (Nat × Passage)}
  {i j k : Nat} {e : Entry}

theorem entriesOn_cons (h : Stands code? ps i e) (how : Passage) :
    entriesOn code? ps ((i, how) :: past) = (rank code? ps i, how) :: entriesOn code? ps past := by
  obtain ⟨p, hp, he⟩ := h
  simp [entriesOn, hp, he]

section

variable (h : Walk code? ps ranges past i)
include h

theorem Walk.reach : Reach code? ps ranges i := by
  induction h with
  | start => exact .start
  | step _ hedge ih => exact .step ih hedge.with_ranges
  | throw _ _ hthrows ih =>
    obtain ⟨e, range, hi, hlabel, hr, hcovers, hj⟩ := hthrows
    exact .step ih (.throw hi hlabel hr hcovers hj)

theorem Walk.advance (hij : i ≤ j) (hj : j ≤ ps.length)
    (hrank : rank code? ps i = rank code? ps j) :
    ∃ past', Walk code? ps ranges past' j ∧ entriesOn code? ps past' = entriesOn code? ps past := by
  refine along_rank (P := fun k => ∃ past', Walk code? ps ranges past' k ∧
    entriesOn code? ps past' = _) hij hj hrank ?_ ⟨past, h, rfl⟩
  rintro k p hp he ⟨past', hwalk, hentries⟩
  refine ⟨_, .step hwalk (.skip hp he), ?_⟩
  rw [← hentries]
  simp [entriesOn, hp, he]

theorem Walk.toEntry (hk : Stands code? ps k e)
    (hrank : rank code? ps i = rank code? ps k) :
    ∃ past', Walk code? ps ranges past' k ∧ entriesOn code? ps past' = entriesOn code? ps past :=
  h.advance (hk.le_of_rank (Nat.le_of_eq hrank)) (Nat.le_of_lt hk.lt_length) hrank

end

theorem Walk.lift {xs : List (Nat × Passage)} {x : Nat}
    (h : Walk some (ps.filterMap code?) ranges xs x) :
    ∃ past i, Walk code? ps ranges past i ∧ rank code? ps i = x ∧
      entriesOn code? ps past = xs := by
  induction h with
  | start => exact ⟨[], 0, .start, rfl, rfl⟩
  | step _ hedge ih =>
    obtain ⟨past, i, hwalk, rfl, rfl⟩ := ih
    cases hedge with
    | skip _ he => cases he
    | next h hfalls =>
      obtain ⟨k, hk, hrank⟩ := exists_stands h
      obtain ⟨past', hwalk', hentries⟩ := hwalk.toEntry hk hrank.symm
      refine ⟨_, _, .step hwalk' (.next hk hfalls), ?_, ?_⟩
      · rw [hk.rank_succ, hrank]
      · rw [entriesOn_cons hk, hrank, hentries]
    | jump h ht h' =>
      obtain ⟨k, hk, hrank⟩ := exists_stands h
      obtain ⟨j, hj, rfl⟩ := exists_stands h'
      obtain ⟨past', hwalk', hentries⟩ := hwalk.toEntry hk hrank.symm
      refine ⟨_, j, .step hwalk' (.jump hk ht hj), rfl, ?_⟩
      rw [entriesOn_cons hk, hrank, hentries]
    | throw _ _ hr => cases hr
  | throw done _ hthrows ih =>
    obtain ⟨past, i, hwalk, rfl, rfl⟩ := ih
    obtain ⟨e, range, h, hlabel, hr, hcovers, h'⟩ := hthrows
    obtain ⟨k, hk, hrank⟩ := exists_stands h
    obtain ⟨j, hj, rfl⟩ := exists_stands h'
    obtain ⟨past', hwalk', hentries⟩ := hwalk.toEntry hk hrank.symm
    rw [← hrank, covers_rank_iff hk] at hcovers
    refine ⟨_, j, .throw done hwalk' ⟨e, range, hk, hlabel, hr, hcovers, hj⟩, rfl, ?_⟩
    rw [entriesOn_cons hk, hrank, hentries]

theorem Walk.liftTo {xs : List (Nat × Passage)} {x : Nat}
    (h : Walk some (ps.filterMap code?) ranges xs x)
    (hx : Stands some (ps.filterMap code?) x e) :
    ∃ past i, Walk code? ps ranges past i ∧ Stands code? ps i e ∧ rank code? ps i = x ∧
      entriesOn code? ps past = xs := by
  obtain ⟨past, i, hwalk, rfl, rfl⟩ := h.lift
  obtain ⟨k, hk, hrank⟩ := exists_stands hx
  obtain ⟨past', hwalk', hentries⟩ := hwalk.toEntry hk hrank.symm
  exact ⟨past', k, hwalk', hk, hrank, hentries⟩

end walks
end ClassAssembler
