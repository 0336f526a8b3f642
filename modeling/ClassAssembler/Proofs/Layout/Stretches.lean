import Mathlib.Data.List.Flatten
import ClassAssembler.Proofs.Layout.Views

/-!
# Stretches of a plot

The plot of an operation has those of the scopes that it names, in that order. So the points of
some operations have those of every operation that they lead to.
-/

namespace ClassAssembler

open List

namespace Plot

def Has (p q : Plot) : Prop := ∀ n, ∃ m, (q m).points <:+: (p n).points

namespace Has

variable {p q r : Plot}

theorem refl (p : Plot) : Has p p := fun n => ⟨n, infix_rfl⟩

theorem left (h : Has p r) : Has (p ++ q) r := by
  intro n
  obtain ⟨m, hm⟩ := h n
  exact ⟨m, hm.trans (prefix_append _ _).isInfix⟩

theorem right (h : Has q r) : Has (p ++ q) r := by
  intro n
  obtain ⟨m, hm⟩ := h (p n).next
  exact ⟨m, hm.trans (suffix_append _ _).isInfix⟩

end Has

/-- Among some points stand those of some scopes, one behind the other. -/
inductive Holds (W : Nat → List Point → Prop) : List Point → List Nat → Prop
  | nil {ps : List Point} : Holds W ps []
  | cons {gap own rest : List Point} {c : Nat} {cs : List Nat} :
      W c own → Holds W rest cs → Holds W (gap ++ (own ++ rest)) (c :: cs)

namespace Holds

variable {W : Nat → List Point → Prop} {ps qs : List Point} {cs ds : List Nat}

theorem append (h : Holds W ps cs) (h' : Holds W qs ds) : Holds W (ps ++ qs) (cs ++ ds) := by
  induction h with
  | nil =>
    cases h' with
    | nil => exact .nil
    | cons hown hrest =>
      rw [← List.append_assoc]
      exact .cons hown hrest
  | cons hown _ ih =>
    simp only [List.append_assoc]
    exact .cons hown ih

theorem exists_own (h : Holds W ps cs) {c : Nat} (hc : c ∈ cs) : ∃ own, W c own ∧ own <:+: ps := by
  induction h with
  | nil => cases hc
  | @cons gap own rest c' cs hown _ ih =>
    rcases mem_cons.mp hc with rfl | hc
    · exact ⟨own, hown, gap, rest, by simp⟩
    · obtain ⟨own', hown', hin⟩ := ih hc
      refine ⟨own', hown', hin.trans ?_⟩
      rw [← List.append_assoc]
      exact (suffix_append _ _).isInfix

theorem sublist_placed (h : Holds W ps cs) {f : Nat → List Label}
    (hW : ∀ c own, W c own → (f c).Sublist (Point.placed own)) :
    (cs.flatMap f).Sublist (Point.placed ps) := by
  induction h with
  | nil => exact nil_sublist _
  | cons hown _ ih =>
    rw [flatMap_cons, Point.placed_append, Point.placed_append]
    exact ((hW _ _ hown).append ih).trans (sublist_append_right _ _)

end Holds

def Opens (b : Body) (inner : Inner) (c : Nat) (ps : List Point) : Prop :=
  ∃ status n, ((place (Lay.entryOf b c) status ++ inner c status) n).points = ps

def HasScopes (b : Body) (inner : Inner) (p : Plot) (cs : List Nat) : Prop :=
  ∀ n, Holds (Opens b inner) (p n).points cs

namespace HasScopes

variable {b : Body} {inner : Inner} {p q : Plot} {cs ds : List Nat}

theorem none : HasScopes b inner p [] := fun _ => .nil

theorem append (hp : HasScopes b inner p cs) (hq : HasScopes b inner q ds) :
    HasScopes b inner (p ++ q) (cs ++ ds) := fun n => (hp n).append (hq _)

theorem left (hp : HasScopes b inner p cs) : HasScopes b inner (p ++ q) cs := by
  simpa using hp.append (q := q) none

theorem right (hq : HasScopes b inner q cs) : HasScopes b inner (p ++ q) cs := none.append hq

theorem fresh {p : Label → Plot} (h : ∀ l, HasScopes b inner (p l) cs) :
    HasScopes b inner (fresh p) cs := fun n => h ⟨n⟩ (n + 1)

theorem withHoles {id : Nat} {q : List (Label × Label) → Plot} (hp : HasScopes b inner p cs)
    (hq : ∀ hs, HasScopes b inner (q hs) ds) :
    HasScopes b inner (withHoles id p q) (cs ++ ds) := fun n => hp.append (hq _) n

theorem concat {α : Type} {as : List α} {p : α → Plot} {f : α → List Nat}
    (h : ∀ a, HasScopes b inner (p a) (f a)) :
    HasScopes b inner (concat (as.map p)) (as.flatMap f) := by
  induction as with
  | nil => exact none
  | cons a as ih => exact (h a).append ih

end HasScopes

section scopes

variable (b : Body) (homes : Array Home) (inner : Inner) (s : Nat) (status : Status)

theorem has_opened (c : Nat) :
    HasScopes b inner (place (Lay.entryOf b c) status ++ inner c status) [c] := by
  intro n
  have h : Holds (Opens b inner) ([] ++ (_ ++ [])) [c] := .cons ⟨status, n, rfl⟩ .nil
  simpa using h

theorem has_enclosed (c : Nat) : HasScopes b inner (enclosed b inner c status) [c] :=
  (has_opened b inner status c).left

theorem has_exit (cleanups : List Cleanup) (final : Plot) :
    HasScopes b inner (exit b inner status cleanups final) (cleanups.map Cleanup.scope) := by
  have h : ∀ before, HasScopes b inner (cleanupsFrom b inner status before cleanups)
      (cleanups.map Cleanup.scope) := by
    induction cleanups with
    | nil => exact fun _ => .none
    | cons c rest ih =>
      exact fun before => .append (.fresh fun _ => .fresh fun _ =>
        (has_enclosed b inner status c.scope).right.left.left) (ih _)
  exact (h []).left

theorem has_guarded (frame part : Nat) (kept : List Nat) (cleanups : List Cleanup) :
    HasScopes b inner (guarded b inner s frame part status kept cleanups)
      (part :: cleanups.map Cleanup.scope) :=
  (has_enclosed b inner status part).append (has_exit b inner _ cleanups _)

theorem has_tryCatch (T : TryStatement) :
    HasScopes b inner (tryCatch b inner s status T) (Operation.tryCatch T).nested := by
  have hall : ∀ kept start stop holes, HasScopes b inner
      (catchAll b inner kept start stop holes T.catchAll) T.catchAll.toList := by
    intro kept start stop holes
    cases T.catchAll with
    | none => exact .none
    | some handler => exact (has_enclosed b inner _ handler).right
  have h : HasScopes b inner (tryCatch b inner s status T) _ := .right <| .fresh fun _ => .right <|
    .withHoles (has_guarded b inner s status T.frame T.body status.kept T.bodyExit) fun _ =>
      .fresh fun _ => .right <| .withHoles (.concat fun clause =>
        has_guarded b inner s (thrown status.kept) T.frame clause.scope status.kept clause.exit)
        fun _ => .fresh fun _ => (hall _ _ _ _).right.left
  simpa [Operation.nested] using h

theorem has_operation (op : Operation) :
    HasScopes b inner (operation b homes inner s status op) op.nested := by
  cases op with
  | block c => exact has_enclosed b inner status c
  | branch cond whenTrue whenFalse =>
    cases whenFalse with
    | none => exact (has_enclosed b inner _ whenTrue).right
    | some whenFalse =>
      exact (has_enclosed b inner _ whenFalse).right.left.append (has_enclosed b inner _ whenTrue)
  | loop c update =>
    have hupdate : HasScopes b inner _ (update.toList.flatMap fun c => [c]) :=
      .concat (has_enclosed b inner ⟨[], status.kept⟩)
    rw [← map_eq_flatMap, map_id'] at hupdate
    exact ((has_opened b inner status c).left.append hupdate).left.left
  | jump kind target cleanups => exact has_exit b inner status cleanups _
  | ret value cleanups => exact has_exit b inner status cleanups _
  | tryCatch T => exact has_tryCatch b inner s status T
  | switch S =>
    have harms : ∀ p, HasScopes b inner (concat (S.arms.map fun arm =>
        enclosed b inner arm.scope ⟨[], status.kept⟩ ++ p))
          (S.arms.flatMap fun arm => [arm.scope]) :=
      fun _ => .concat fun arm => (has_enclosed b inner _ arm.scope).left
    rw [Operation.nested, map_eq_flatMap]
    exact (harms _).right.left
  | _ => exact .none

theorem has_inOrder (ops : List Operation) :
    HasScopes b inner (inOrder b homes inner s ops status) (ops.flatMap Operation.nested) := by
  induction ops generalizing status with
  | nil => exact .none
  | cons op ops ih => exact (has_operation b homes inner s status op).append (ih _)

theorem inOrder_has {ops : List Operation} {op : Operation} (h : op ∈ ops) :
    ∃ status', Has (inOrder b homes inner s ops status) (operation b homes inner s status' op) := by
  induction ops generalizing status with
  | nil => cases h
  | cons first rest ih =>
    rcases mem_cons.mp h with rfl | h
    · exact ⟨status, .left (.refl _)⟩
    · obtain ⟨status', h⟩ := ih (after b homes status first) h
      exact ⟨status', .right h⟩

end scopes
end Plot

namespace Body

variable (b : Body)

/-- The scopes that operations of a scope name as their parts, in order. -/
def nested (scope : Nat) : List Nat := (b.operations scope).flatMap Operation.nested

/-- The root, and the scopes that operations lead to from there. -/
inductive Attached : Nat → Prop
  | root : Attached 0
  | step {s c : Nat} : Attached s → c ∈ b.nested s → Attached c

variable {b} {s c : Nat} {op : Operation}

theorem nested_sublist (s : Nat) : (b.nested s).Sublist (b.owned s) :=
  .flatMap_right _ fun _ _ => sublist_append_right _ _

theorem SoundUpTo.nested_gt (hb : b.Sound) (hc : c ∈ b.nested s) : s < c ∧ c < b.scopes.size :=
  ⟨hb.owned_gt ((nested_sublist s).subset hc), hb.owned_lt ((nested_sublist s).subset hc)⟩

theorem attached_or_frame (hb : b.Sound) (h : b.Region 0 s) :
    b.Attached s ∨ (b.kindOf s).isFrame = true := by
  induction h with
  | refl => exact .inl .root
  | @step t c _ hc ih =>
    obtain ⟨op, hop, hc⟩ := mem_flatMap.mp hc
    rcases ih with ht | hframe
    · rcases mem_frames_or_nested hc with hf | hn
      · exact .inr (isFrame_of_mem_frames hb hop hf)
      · exact .inl (ht.step (mem_flatMap_of_mem hop hn))
    · rw [not_isFrame hb hop] at hframe
      cases hframe

/-- Some operations of a scope, and those of the scopes that operations lead to from there. -/
inductive Leads (b : Body) (r : Nat) (ops : List Operation) : Nat → Operation → Prop
  | own {op : Operation} : op ∈ ops → Leads b r ops r op
  | nested {s c : Nat} {op op' : Operation} :
      Leads b r ops s op → c ∈ op.nested → op' ∈ b.operations c → Leads b r ops c op'

variable {r : Nat} {ops : List Operation}

theorem leads_of_region (hb : b.Sound) (h : b.Region r s) (hop : op ∈ b.operations s) :
    b.Leads r (b.operations r) s op := by
  induction h generalizing op with
  | refl => exact .own hop
  | @step t c _ hc ih =>
    obtain ⟨op', hop', hc⟩ := mem_flatMap.mp hc
    rcases mem_frames_or_nested hc with hf | hn
    · have hframe := isFrame_of_mem_frames hb hop' hf
      rw [not_isFrame hb hop] at hframe
      cases hframe
    · exact .nested (ih hop') hn hop

/-- Operations without parts lead nowhere. -/
theorem Leads.behind {front : List Operation} (h : b.Leads r (front ++ ops) s op)
    (hfront : ∀ op ∈ front, op.nested = []) : op ∈ front ∨ b.Leads r ops s op := by
  induction h with
  | own hop => exact (mem_append.mp hop).imp_right .own
  | nested _ hc hop' ih =>
    rcases ih with hop | h
    · rw [hfront _ hop] at hc
      cases hc
    · exact .inr (.nested h hc hop')

/-- The points of operations have those of all operations that they lead to, with room for the
scopes inside. -/
theorem Leads.has (h : b.Leads r ops s op) (hb : b.Sound) (hops : ops ⊆ b.operations r)
    (homes : Array Home) {depth : Nat} (hdepth : b.scopes.size ≤ r + depth + 1) (status : Status)
    (n : Nat) : op ∈ b.operations s ∧ ∃ depth' status' m, b.scopes.size ≤ s + depth' + 1 ∧
      (Plot.operation b homes (Plot.operations b homes depth') s status' op m).points <:+:
        (Plot.inOrder b homes (Plot.operations b homes depth) r ops status n).points := by
  induction h with
  | own hop =>
    obtain ⟨status', hhas⟩ := Plot.inOrder_has b homes (Plot.operations b homes depth) r status hop
    obtain ⟨m, hm⟩ := hhas n
    exact ⟨hops hop, depth, status', m, hdepth, hm⟩
  | @nested s c op op' _ hc hop' ih =>
    obtain ⟨hop, depth', status', m, hdepth', hin⟩ := ih
    obtain ⟨hgt, hsize⟩ := hb.nested_gt (mem_flatMap_of_mem hop hc)
    obtain ⟨d, rfl⟩ : ∃ d, depth' = d + 1 := ⟨depth' - 1, by omega⟩
    obtain ⟨_, ⟨status2, m2, rfl⟩, hown⟩ := (Plot.has_operation b homes
      (Plot.operations b homes (d + 1)) s status' op m).exists_own hc
    obtain ⟨status3, hhas⟩ := Plot.inOrder_has b homes (Plot.operations b homes d) c status2 hop'
    obtain ⟨m3, hm3⟩ := hhas (Plot.place (Lay.entryOf b c) status2 m2).next
    exact ⟨hop', d, status3, m3, by omega,
      hm3.trans ((suffix_append _ _).isInfix.trans (hown.trans hin))⟩

/-- The points of a body have those of every attached operation in a row. -/
theorem has_operation (hb : b.Sound) (homes : Array Home) (hs : b.Region 0 s)
    (hop : op ∈ b.operations s) : ∃ depth status n, b.scopes.size ≤ s + depth + 1 ∧
      (Plot.operation b homes (Plot.operations b homes depth) s status op n).points <:+:
        b.points homes := by
  have hlt := lt_size_of_mem_operations hop
  obtain ⟨d, hd⟩ : ∃ d, b.scopes.size = d + 1 := ⟨b.scopes.size - 1, by omega⟩
  have hroot : (Plot.operations b homes b.scopes.size 0 ⟨[], b.params⟩ b.nextLabel).points <:+:
      b.points homes := ⟨[_], [_], rfl⟩
  rw [hd] at hroot
  obtain ⟨_, depth, status, n, hdepth, hin⟩ :=
    (leads_of_region hb hs hop).has hb (fun _ h => h) homes
      (Nat.le_of_eq (by rw [hd, Nat.zero_add])) ⟨[], b.params⟩ b.nextLabel
  exact ⟨depth, status, n, hdepth, hin.trans hroot⟩

end Body
end ClassAssembler
