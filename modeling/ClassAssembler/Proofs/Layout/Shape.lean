import ClassAssembler.Proofs.Layout.Labels
import ClassAssembler.Proofs.Layout.Works

/-!
# The shape of a plot

Whatever control may go to is placed, and almost always further down.
-/

namespace ClassAssembler

open List

namespace Point

/-- Where control may go from a point, or from what it protects. -/
def aims : Point → List Label
  | branch b _ => b.targets
  | protect _ _ _ handler _ => [handler]
  | _ => []

def bounds : Point → List Label
  | protect start stop holes _ _ => start :: stop :: holes.flatMap fun hole => [hole.1, hole.2]
  | _ => []

def aimed (ps : List Point) : List Label := ps.flatMap aims

@[simp] theorem aimed_nil : aimed [] = [] := rfl

@[simp] theorem aimed_append (ps qs : List Point) : aimed (ps ++ qs) = aimed ps ++ aimed qs :=
  flatMap_append

/-- The labels between which something is protected are placed above, or before. -/
def Anchored (before : Label → Prop) (ps : List Point) : Prop :=
  ∀ pre p post, ps = pre ++ p :: post → ∀ l ∈ p.bounds, before l ∨ l ∈ placed pre

/-- Nothing that goes to labels of `aimed` leads into these points, and their protections lie
among them. -/
def Sheltered (aimed : Label → Prop) (ps : List Point) : Prop :=
  (∀ l ∈ placed ps, ¬ aimed l) ∧ Anchored (fun _ => False) ps

/-- All jumps go down, except for branches to a label behind which everything is sheltered
from what goes to labels of `R` and from the points above the label. -/
def Orderly (R : Label → Prop) (ps : List Point) : Prop :=
  ∀ pre p post, ps = pre ++ p :: post → ∀ t ∈ p.aims, t ∈ placed pre →
    (∃ br site, p = .branch br site) ∧ ∃ above status within,
      pre = above ++ .label t status :: within ∧
        Sheltered (fun l => R l ∨ l ∈ aimed above) within

namespace Anchored

variable {before before' : Label → Prop} {ps qs : List Point}

theorem append (hp : Anchored before ps) (hq : Anchored before' qs)
    (h : ∀ l, before' l → before l ∨ l ∈ placed ps) : Anchored before (ps ++ qs) := by
  intro pre p post heq l hl
  rcases split_append heq with ⟨post', rfl, _⟩ | ⟨pre', rfl, rfl⟩
  · exact hp pre p post' rfl l hl
  · rw [placed_append, mem_append]
    rcases hq pre' p post rfl l hl with hl | hl
    · rcases h l hl with hl | hl
      · exact .inl hl
      · exact .inr (.inl hl)
    · exact .inr (.inr hl)

theorem of_bounds (h : ∀ p ∈ ps, ∀ l ∈ p.bounds, before l) : Anchored before ps := by
  rintro pre p post rfl l hl
  exact .inl (h p (mem_append_right _ (.head ..)) l hl)

end Anchored

namespace Orderly

variable {R : Label → Prop} {ps qs : List Point}

theorem append (hp : Orderly R ps) (hq : Orderly (fun l => R l ∨ l ∈ aimed ps) qs)
    (h : ∀ l ∈ aimed qs, l ∉ placed ps) : Orderly R (ps ++ qs) := by
  intro pre p post heq t ht hpre
  rcases split_append heq with ⟨post', rfl, _⟩ | ⟨pre', rfl, rfl⟩
  · exact hp pre p post' rfl t ht hpre
  · have hnot : t ∉ placed ps := h t (mem_flatMap.mpr ⟨p, by simp, ht⟩)
    rw [placed_append, mem_append] at hpre
    obtain ⟨hbranch, above, status, within, rfl, hshelter⟩ :=
      hq pre' p post rfl t ht (hpre.resolve_left hnot)
    refine ⟨hbranch, ps ++ above, status, within, by rw [List.append_assoc], ?_, hshelter.2⟩
    intro l hl haimed
    rw [aimed_append, mem_append] at haimed
    refine hshelter.1 l hl ?_
    rcases haimed with h | h | h
    · exact .inl (.inl h)
    · exact .inl (.inr h)
    · exact .inr h

theorem left (h : Orderly R (ps ++ qs)) : Orderly R ps := by
  rintro pre p post rfl
  exact h pre p (post ++ qs) (by rw [List.append_assoc, cons_append])

theorem of_forward
    (h : ∀ pre p post, ps = pre ++ p :: post → ∀ t ∈ p.aims, t ∉ placed pre) : Orderly R ps :=
  fun pre p post heq t ht hpre => absurd hpre (h pre p post heq t ht)

theorem of_no_labels (h : placed ps = []) : Orderly R ps := by
  refine of_forward fun pre p post heq t _ hpre => ?_
  rw [heq, placed_append] at h
  rw [(append_eq_nil_iff.mp h).1] at hpre
  cases hpre

theorem of_no_aims (h : aimed ps = []) : Orderly R ps := by
  rintro pre p post rfl t ht
  have hmem : t ∈ aimed (pre ++ p :: post) := mem_flatMap.mpr ⟨p, by simp, ht⟩
  rw [h] at hmem
  cases hmem

theorem of_apart (h : ∀ l ∈ aimed ps, l ∉ placed ps) : Orderly R ps := by
  refine of_forward fun pre p post heq t ht hpre => ?_
  subst heq
  refine h t (mem_flatMap.mpr ⟨p, by simp, ht⟩) ?_
  rw [placed_append]
  exact mem_append_left _ hpre

theorem loop {t : Label} {status : Option Status} {site : Option Site}
    (hin : Orderly R ps) (hshelter : Sheltered R ps) (haims : t ∉ aimed ps) :
    Orderly R (.label t status :: ps ++ [.branch (.goto t) site]) := by
  have hlabel : Orderly R (.label t status :: ps) := by
    rw [← singleton_append]
    refine append (of_no_aims rfl) ?_ fun l hl hmem => ?_
    · intro pre p post heq u hu hpre
      obtain ⟨hbranch, above, status', within, hsplit, hshelter'⟩ := hin pre p post heq u hu hpre
      refine ⟨hbranch, above, status', within, hsplit, ⟨fun l hl haimed => ?_, hshelter'.2⟩⟩
      refine hshelter'.1 l hl ?_
      rcases haimed with (h | h) | h
      · exact .inl h
      · cases h
      · exact .inr h
    · cases mem_singleton.mp hmem
      exact haims hl
  intro pre p post heq u hu hpre
  rcases split_append heq with ⟨post', hsplit, _⟩ | ⟨pre', rfl, hlast⟩
  · exact hlabel pre p post' hsplit u hu hpre
  · cases pre' with
    | nil =>
      rw [List.nil_append, List.cons.injEq] at hlast
      obtain ⟨rfl, _⟩ := hlast
      cases mem_singleton.mp hu
      refine ⟨⟨_, _, rfl⟩, [], status, ps, by simp, fun l hl haimed => ?_, hshelter.2⟩
      rcases haimed with h | h
      · exact hshelter.1 l hl h
      · cases h
    | cons x pre' =>
      rw [cons_append, List.cons.injEq] at hlast
      exact absurd hlast.2 (by simp)

end Orderly

/-- Points that a recorder can look at once, from top to bottom. -/
structure Regular (ps : List Point) : Prop where
  nodup : (placed ps).Nodup
  placed : ∀ l ∈ aimed ps, l ∈ placed ps
  orderly : Orderly (fun _ => False) ps
  anchored : Anchored (fun _ => False) ps

end Point

namespace Plot

open Point

/-- What is protected in a part of a layout lies between labels of it, or of `before`, and so
do the holes. -/
structure Docked (before : Label → Prop) (s : Stretch) : Prop where
  anchored : Anchored before s.points
  holes : ∀ hole ∈ s.holes, hole.start ∈ placed s.points ∧ hole.stop ∈ placed s.points

def Flat (p : Plot) : Prop := Every (·.bounds = []) (fun _ => False) p

section docked

variable {p q : Plot} {n : Nat} {before before' : Label → Prop}

theorem Flat.docked (hp : Flat p) : Docked before (p n) := by
  refine ⟨.of_bounds fun pt hpt l hl => ?_, fun hole hhole => ((hp n).2 hole hhole).elim⟩
  rw [(hp n).1 pt hpt] at hl
  cases hl

theorem AtSite.flat {site : Site} (hp : AtSite site p) : Flat p :=
  hp.mono (fun _ h => by cases h <;> rfl) fun _ h => h

namespace Docked

theorem mono (hp : Docked before (p n)) (h : ∀ l, before l → before' l) : Docked before' (p n) :=
  ⟨fun pre pt post heq l hl => (hp.anchored pre pt post heq l hl).imp_left (h l), hp.holes⟩

theorem seq (hp : Docked before (p n))
    (hq : Docked (fun l => before l ∨ l ∈ placed (p n).points) (q (p n).next)) :
    Docked before ((p ++ q) n) := by
  refine ⟨hp.anchored.append hq.anchored fun _ h => h, fun hole hhole => ?_⟩
  simp only [append_apply, placed_append, mem_append]
  rcases mem_append.mp hhole with h | h
  · exact ⟨.inl (hp.holes hole h).1, .inl (hp.holes hole h).2⟩
  · exact ⟨.inr (hq.holes hole h).1, .inr (hq.holes hole h).2⟩

theorem append (hp : Docked before (p n)) (hq : Docked before (q (p n).next)) :
    Docked before ((p ++ q) n) := hp.seq (hq.mono fun _ => .inl)

theorem concat {α : Type} {as : List α} {p : α → Plot} (h : ∀ a ∈ as, ∀ n, Docked before (p a n))
    (n : Nat) : Docked before (concat (as.map p) n) :=
  concat_of_append (P := fun p => ∀ n, Docked before (p n))
    (fun _ => ⟨.of_bounds fun _ h => (by cases h), fun _ h => by cases h⟩)
    (fun hp hq n => (hp n).append (hq _)) h n

theorem label {l : Label} {status : Option Status} : Docked before (point (.label l status) n) :=
  Flat.docked (.point rfl)

theorem protect {start stop handler : Label} {holes : List (Label × Label)}
    {caught : Option ClassName} (hstart : before start) (hstop : before stop)
    (hholes : ∀ hole ∈ holes, before hole.1 ∧ before hole.2) :
    Docked before (point (.protect start stop holes handler caught) n) := by
  refine ⟨.of_bounds fun pt hpt l hl => ?_, fun hole hhole => by cases hhole⟩
  cases mem_singleton.mp hpt
  rcases mem_cons.mp hl with rfl | hl
  · exact hstart
  rcases mem_cons.mp hl with rfl | hl
  · exact hstop
  obtain ⟨hole, hhole, hl⟩ := mem_flatMap.mp hl
  rcases mem_cons.mp hl with rfl | hl
  · exact (hholes hole hhole).1
  · rw [mem_singleton.mp hl]
    exact (hholes hole hhole).2

theorem hole {owners : List Nat} {part : Plot} (h : Docked before (part (n + 2))) :
    Docked before (hole owners part n) := by
  have hpart : Docked before ((border ⟨n⟩ ++ part ++ border ⟨n + 1⟩) (n + 2)) :=
    .append (.append label h) label
  refine ⟨?_, fun hole hhole => ?_⟩
  · show Anchored _ (_ ++ [])
    rw [List.append_nil]
    exact hpart.anchored
  · show _ ∈ placed (_ ++ []) ∧ _ ∈ placed (_ ++ [])
    rw [List.append_nil]
    rcases mem_append.mp hhole with hhole | hhole
    · exact hpart.holes hole hhole
    · cases mem_singleton.mp hhole
      simp only [append_apply, placed_append, mem_append]
      exact ⟨.inl (.inl (.head _)), .inr (.head _)⟩

theorem holesOf {s : Stretch} (h : Docked before s) {id : Nat} {hole : Label × Label}
    (hmem : hole ∈ s.holesOf id) : hole.1 ∈ placed s.points ∧ hole.2 ∈ placed s.points := by
  obtain ⟨hole', hhole, rfl⟩ := mem_map.mp hmem
  exact h.holes hole' (mem_filter.mp hhole).1

end Docked
end docked

section scopes

variable {b : Body} {inner : Inner} {before : Label → Prop}
  (hinner : ∀ c status n, Docked (fun _ => False) (inner c status n))
include hinner

theorem docked_enclosed (c : Nat) (status : Status) (n : Nat) :
    Docked before (enclosed b inner c status n) :=
  .append (.append .label ((hinner c status n).mono fun _ => False.elim)) .label

theorem docked_cleanupsFrom (status : Status) (owners : List Nat) (cleanups : List Cleanup)
    (n : Nat) : Docked before (cleanupsFrom b inner status owners cleanups n) := by
  induction cleanups generalizing owners n with
  | nil => exact ⟨.of_bounds fun _ h => (by cases h), fun _ h => by cases h⟩
  | cons cleanup rest ih =>
    exact (Docked.hole (docked_enclosed hinner cleanup.scope status _)).append (ih _ _)

theorem docked_exit {final : Plot} (hfinal : Flat final) (status : Status)
    (cleanups : List Cleanup) (n : Nat) : Docked before (exit b inner status cleanups final n) :=
  (docked_cleanupsFrom hinner status [] cleanups n).append (.hole hfinal.docked)

theorem docked_guarded (scope frame part : Nat) (status : Status) (kept : List Nat)
    (cleanups : List Cleanup) (n : Nat) :
    Docked before (guarded b inner scope frame part status kept cleanups n) :=
  (docked_enclosed hinner part status n).append (docked_exit hinner (AtSite.branch _).flat _ _ _)

theorem docked_tryCatch (scope : Nat) (status : Status) (statement : TryStatement) (n : Nat) :
    Docked before (tryCatch b inner scope status statement n) := by
  have hbody : ∀ n, Docked (fun _ => False) (guarded b inner scope statement.frame statement.body
      status status.kept statement.bodyExit n) := docked_guarded hinner _ _ _ _ _ _
  have hclauses : ∀ n, Docked (fun _ => False) (concat (statement.clauses.map fun clause =>
      guarded b inner scope statement.frame clause.scope (thrown status.kept) status.kept
        clause.exit) n) :=
    Docked.concat fun clause _ => docked_guarded hinner _ _ _ _ _ _
  -- Each protection lies between labels of the parts that stand before it.
  refine .append .label (.seq (p := border _) .label ?_)
  refine .seq ((hbody _).mono fun _ => False.elim) ?_
  refine .seq (p := border _ ++ protects _ _ _ _ _) (.seq .label (.concat ?_ _)) ?_
  · refine fun clause _ n => .protect ?_ ?_ fun hole hhole => ?_
    · exact .inl (.inl (.inr (.head _)))
    · exact .inr (.head _)
    · have h := (hbody _).holesOf hhole
      exact ⟨.inl (.inr h.1), .inl (.inr h.2)⟩
  refine .seq ((hclauses _).mono fun _ => False.elim) ?_
  refine .append (p := border _ ++ catchAll _ _ _ _ _ _ _) (.seq .label ?_) .label
  cases statement.catchAll with
  | none => exact Flat.docked .nil
  | some handler =>
    refine .append (.protect ?_ ?_ fun hole hhole => ?_) (docked_enclosed hinner handler _ _)
    · exact .inl (.inl (.inl (.inl (.inr (.head _)))))
    · exact .inr (.head _)
    · rcases mem_append.mp hhole with hhole | hhole
      · have h := (hbody _).holesOf hhole
        exact ⟨.inl (.inl (.inl (.inr h.1))), .inl (.inl (.inl (.inr h.2)))⟩
      · have h := (hclauses _).holesOf hhole
        exact ⟨.inl (.inr h.1), .inl (.inr h.2)⟩

section

variable (homes : Array Home) (scope : Nat)
include homes

theorem docked_switch (status : Status) (statement : SwitchStatement) (n : Nat) :
    Docked before (switch b homes inner scope status statement n) := by
  refine .append (.append (.append .label (AtSite.dispatch _ _).flat.docked)
    (.concat (fun arm _ n => .append (docked_enclosed hinner arm.scope _ n) ?_) _)) .label
  split
  · exact Flat.docked .nil
  · exact (AtSite.branch _).flat.docked

theorem docked_operation (status : Status) (op : Operation)
    (n : Nat) : Docked before (operation b homes inner scope status op n) := by
  have hjump : ∀ {n l test}, Docked before ((load b homes ⟨scope, none⟩ test ++
      branch ⟨scope, none⟩ l) n) := fun {n l test} =>
    ((AtSite.load _).append (.branch _)).flat.docked
  cases op with
  | simple act os result => exact (AtSite.simple _ _ _ _).flat.docked
  | block nested => exact docked_enclosed hinner _ _ _
  | branch cond whenTrue whenFalse =>
    cases whenFalse with
    | none => exact hjump.append (docked_enclosed hinner _ _ _)
    | some whenFalse =>
      exact ((hjump.append (docked_enclosed hinner _ _ _)).append
        (AtSite.branch _).flat.docked).append (docked_enclosed hinner _ _ _)
  | loop nested update =>
    exact ((((Docked.label.append ((hinner _ _ _).mono fun _ => False.elim)).append .label).append
      (.concat (fun c _ n => docked_enclosed hinner _ _ n) _)).append
      (AtSite.branch _).flat.docked).append .label
  | exitUnless cond target => exact hjump
  | jump kind target cleanups => exact docked_exit hinner (AtSite.branch _).flat _ _ _
  | ret value cleanups =>
    exact docked_exit hinner ((AtSite.loads _).append (.branch _)).flat _ _ _
  | throw value => exact hjump
  | tryCatch statement => exact docked_tryCatch hinner _ _ _ _
  | switch statement => exact docked_switch hinner _ _ _ _ _

theorem docked_inOrder (ops : List Operation) (status : Status)
    (n : Nat) : Docked before (inOrder b homes inner scope ops status n) := by
  induction ops generalizing status n with
  | nil => exact Flat.docked .nil
  | cons op ops ih => exact (docked_operation hinner homes scope status op n).append (ih _ _)

end

end scopes

theorem docked_operations (b : Body) (homes : Array Home) (depth scope : Nat) (status : Status)
    (n : Nat) : Docked (fun _ => False) (operations b homes depth scope status n) := by
  induction depth generalizing scope status n with
  | zero => exact Flat.docked .nil
  | succ depth ih => exact docked_inOrder ih homes scope _ status n

end Plot
end ClassAssembler
