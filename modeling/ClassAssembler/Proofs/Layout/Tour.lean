import ClassAssembler.Proofs.Layout.Sealing
import ClassAssembler.Proofs.Layout.Stretches

/-!
# One tour of the scope tree

Giving values their homes and laying a body out are walks over the scope tree, and both go the
same way.
-/

namespace ClassAssembler

open List Body Lay Allocation

/-- What a walk over the scope tree does next. -/
inductive Visit where
  | enter (scope : Nat)
  | operation (op : Operation) (next : Option Operation)
  | leave

namespace Visit

def operations (scope : Nat → List Visit) : List Operation → List Visit
  | [] => []
  | op :: rest => operation op rest.head? :: (op.nested.flatMap scope ++ operations scope rest)

def entered? : Visit → Option Nat
  | enter scope => some scope
  | _ => none

def entered (visits : List Visit) : List Nat := visits.filterMap entered?

end Visit

namespace Body

variable (b : Body)

def tour : (depth : Nat) → (scope : Nat) → List Visit
  | 0, _ => []
  | depth + 1, scope =>
      .enter scope :: (Visit.operations (tour depth) (b.operations scope) ++ [.leave])

def order : List Nat := Visit.entered (b.tour b.scopes.size 0)

variable {b} {s c depth : Nat}

theorem entered_operations (scope : Nat → List Visit) (ops : List Operation) :
    Visit.entered (Visit.operations scope ops) =
      (ops.flatMap Operation.nested).flatMap fun c => Visit.entered (scope c) := by
  induction ops with
  | nil => rfl
  | cons op rest ih =>
    rw [Visit.operations, Visit.entered, filterMap_cons_none rfl, filterMap_append,
      filterMap_flatMap, flatMap_cons, flatMap_append, ← ih]
    rfl

theorem entered_tour (depth s : Nat) : Visit.entered (b.tour (depth + 1) s) =
    s :: (b.nested s).flatMap fun c => Visit.entered (b.tour depth c) := by
  rw [nested, ← entered_operations, tour, Visit.entered, filterMap_cons, filterMap_append]
  exact congrArg _ (List.append_nil _)

theorem walk_deep (hb : b.Sound) {α : Type} (walk : Nat → Nat → α)
    (hwalk : ∀ d d' s, (∀ c ∈ b.nested s, walk d c = walk d' c) → walk (d + 1) s = walk (d' + 1) s)
    (hs : s < b.scopes.size) {d d' : Nat} (hd : b.scopes.size ≤ d + s)
    (hd' : b.scopes.size ≤ d' + s) : walk d s = walk d' s := by
  induction d generalizing s d' with
  | zero => omega
  | succ d ih =>
    cases d' with
    | zero => omega
    | succ d' =>
      refine hwalk d d' s fun c hc => ?_
      obtain ⟨hlt, hsize⟩ := hb.nested_gt hc
      exact ih hsize (by omega) (by omega)

theorem tour_congr {d d' : Nat} (h : ∀ c ∈ b.nested s, b.tour d c = b.tour d' c) :
    b.tour (d + 1) s = b.tour (d' + 1) s := by
  have hops : ∀ ops, ops.flatMap Operation.nested ⊆ b.nested s →
      Visit.operations (b.tour d) ops = Visit.operations (b.tour d') ops := by
    intro ops
    induction ops with
    | nil => exact fun _ => rfl
    | cons op rest ih =>
      intro hsub
      rw [flatMap_cons, append_subset] at hsub
      rw [Visit.operations, Visit.operations, ih hsub.2, flatMap_def, flatMap_def,
        map_congr_left fun c hc => h c (hsub.1 hc)]
  rw [tour, hops _ (List.Subset.refl _), tour]

theorem entered_tour_size (hb : b.Sound) (hs : s < b.scopes.size) :
    Visit.entered (b.tour b.scopes.size s) =
      s :: (b.nested s).flatMap fun c => Visit.entered (b.tour b.scopes.size c) := by
  have hdeep : b.tour b.scopes.size s = b.tour (b.scopes.size + 1) s :=
    walk_deep hb b.tour (fun _ _ _ => tour_congr) hs (Nat.le_add_right ..) (by omega)
  rw [hdeep, entered_tour]

theorem Attached.of_entered (hs : b.Attached s) (hc : c ∈ Visit.entered (b.tour depth s)) :
    b.Attached c := by
  induction depth generalizing s with
  | zero => cases hc
  | succ depth ih =>
    rw [entered_tour, mem_cons, mem_flatMap] at hc
    rcases hc with rfl | ⟨d, hd, hc⟩
    · exact hs
    · exact ih (hs.step hd) hc

theorem mem_order_iff (hb : b.Sound) : c ∈ b.order ↔ b.Attached c := by
  refine ⟨Attached.root.of_entered, fun h => ?_⟩
  have hall : c < b.scopes.size ∧ Visit.entered (b.tour b.scopes.size c) ⊆ b.order := by
    induction h with
    | root => exact ⟨hb.rooted, List.Subset.refl _⟩
    | @step s c _ hc ih =>
      refine ⟨(hb.nested_gt hc).2, fun x hx => ih.2 ?_⟩
      rw [entered_tour_size hb ih.1]
      exact .tail _ (mem_flatMap.mpr ⟨c, hc, hx⟩)
  refine hall.2 ?_
  rw [entered_tour_size hb hall.1]
  exact .head ..

theorem nested_nodup (hb : b.Sound) : ((List.range b.scopes.size).flatMap b.nested).Nodup := by
  refine pairwise_flatMap.mpr ⟨fun s _ => (hb.owned_nodup s).sublist (nested_sublist s), ?_⟩
  refine nodup_range.imp fun hne c hc d hd heq => hne ?_
  subst heq
  exact hb.owned_unique ((nested_sublist _).subset hc) ((nested_sublist _).subset hd)

end Body

namespace Allocation

def visit (b : Body) (counts : Array Nat) : Allocation × List Nat → Visit → Allocation × List Nat
  | (a, saved), .enter _ => (a, a.nextSlot :: saved)
  | (a, saved), .operation op next => (a.operation b counts op next, saved)
  | (a, saved), .leave => ({ a with nextSlot := saved.headD 0 }, saved.tail)

variable {b : Body} {counts : Array Nat}

theorem foldl_operations {walk : Nat → Allocation → Allocation} {tour : Nat → List Visit}
    (h : ∀ c a saved, (tour c).foldl (visit b counts) (a, saved) = (walk c a, saved))
    (ops : List Operation) (a : Allocation) (saved : List Nat) :
    (Visit.operations tour ops).foldl (visit b counts) (a, saved) =
      (operations b counts walk ops a, saved) := by
  have hnested : ∀ (cs : List Nat) (a : Allocation), (cs.flatMap tour).foldl (visit b counts)
      (a, saved) = (cs.foldl (fun a c => walk c a) a, saved) := by
    intro cs
    induction cs with
    | nil => exact fun _ => rfl
    | cons c cs ih =>
      intro a
      rw [flatMap_cons, foldl_append, h, ih, foldl_cons]
  induction ops generalizing a with
  | nil => rfl
  | cons op rest ih =>
    rw [Visit.operations, foldl_cons, foldl_append, visit, hnested, ih]
    rfl

theorem foldl_tour (depth s : Nat) (a : Allocation) (saved : List Nat) :
    (b.tour depth s).foldl (visit b counts) (a, saved) = (scope b counts depth s a, saved) := by
  induction depth generalizing s a saved with
  | zero => rfl
  | succ depth ih =>
    rw [tour, foldl_cons, foldl_append, visit, foldl_operations ih]
    rfl

end Allocation

namespace Lay

variable {b : Body} {homes : Array Home} {f g : Nat → Lay Unit}

theorem forM_congr {α : Type} {as : List α} {p q : α → Lay Unit} (h : ∀ a ∈ as, p a = q a) :
    as.forM p = as.forM q := by
  induction as with
  | nil => rfl
  | cons a as ih =>
    show (p a >>= fun _ => as.forM p) = (q a >>= fun _ => as.forM q)
    rw [h a (.head ..), ih fun x hx => h x (.tail _ hx)]

theorem enclosed_congr {c : Nat} (h : f c = g c) : enclosed b f c = enclosed b g c := by
  rw [enclosed, h, enclosed]

theorem exit_congr {cleanups : List Cleanup} {final : Lay Unit}
    (h : ∀ c ∈ cleanups.map Cleanup.scope, f c = g c) :
    exit b f cleanups final = exit b g cleanups final := by
  have hfrom : ∀ before, cleanupsFrom b f before cleanups = cleanupsFrom b g before cleanups := by
    induction cleanups with
    | nil => exact fun _ => rfl
    | cons c rest ih =>
      intro before
      rw [cleanupsFrom, enclosed_congr (h _ (.head ..)),
        ih fun c hc => h c (.tail _ hc), cleanupsFrom]
  rw [exit, hfrom, exit]

theorem operation_congr {op : Operation} (h : ∀ c ∈ op.nested, f c = g c) :
    operation b homes f op = operation b homes g op := by
  cases op with
  | block c => exact enclosed_congr (h c (.head _))
  | branch cond whenTrue whenFalse =>
    have htrue := h whenTrue (mem_append_right _ (.head _))
    cases whenFalse with
    | none => rw [operation, enclosed_congr htrue, operation]
    | some other =>
      rw [operation, enclosed_congr htrue, enclosed_congr (h other (.head ..)), operation]
  | loop c update =>
    rw [operation, h c (.head ..), operation]
    cases update with
    | none => rfl
    | some u =>
      have hupdate : enclosed b f u = enclosed b g u :=
        enclosed_congr (h u (.tail _ (.head ..)))
      simp only [Option.forM, hupdate]
  | jump kind target cleanups => exact exit_congr h
  | ret value cleanups => exact exit_congr h
  | tryCatch T =>
    have hmem := fun {c} hc => h c (Operation.mem_nested_tryCatch.mpr (.inr hc))
    have hclause : ∀ clause ∈ T.clauses,
        (enclosed b f clause.scope >>= fun _ => exit b f clause.exit (goto (exitOf b T.frame))) =
          (enclosed b g clause.scope >>= fun _ => exit b g clause.exit
            (goto (exitOf b T.frame))) := by
      intro clause hclause
      have hparts := fun c hc => hmem (c := c) (.inr (.inl ⟨clause, hclause, hc⟩))
      rw [enclosed_congr (hparts _ (.head ..)),
        exit_congr fun c hc => hparts c (.tail _ hc)]
    rw [operation, tryCatch, enclosed_congr (h _ (.head ..)),
      exit_congr fun c hc => hmem (.inl hc), forM_congr hclause, operation, tryCatch]
    cases hall : T.catchAll with
    | none => rfl
    | some handler =>
      have hhandler : enclosed b f handler = enclosed b g handler :=
        enclosed_congr (hmem (.inr (.inr hall)))
      simp only [hhandler]
  | switch S =>
    rw [operation, switch, forM_congr fun arm harm => ?_, operation, switch]
    rw [enclosed_congr (h _ (mem_map_of_mem harm))]
  | _ => rfl

end Lay

def Item.label? : Item → Option Label
  | entry e => e.label?
  | protect _ _ _ _ _ => none

def Layout.labels (layout : Layout) : List Label := layout.items.toList.filterMap Item.label?

theorem Body.entries_sublist (b : Body) (homes : Array Home) (depth s n : Nat) (status : Status) :
    ((Visit.entered (b.tour depth s)).map (entryOf b)).Sublist (Point.placed
      ((Plot.place (entryOf b s) status ++ Plot.operations b homes depth s status) n).points) := by
  induction depth generalizing s n status with
  | zero => exact nil_sublist _
  | succ depth ih =>
    rw [entered_tour, map_cons, map_flatMap]
    refine List.Sublist.cons_cons _ ((Plot.has_inOrder b homes _ s status _ _).sublist_placed ?_)
    rintro c _ ⟨status', m, rfl⟩
    exact ih c m status'

namespace Body

variable {b : Body}

theorem entries_points (b : Body) (homes : Array Home) :
    (b.order.map (entryOf b)).Sublist (Point.placed (b.points homes)) :=
  (entries_sublist b homes _ 0 _ _).trans ((sublist_append_left _ _).filterMap _)

theorem order_nodup (hb : b.Sound) : b.order.Nodup :=
  (pairwise_map.mp ((placed_nodup hb #[]).sublist (entries_points b #[]))).imp
    fun h heq => h (congrArg _ heq)

theorem scope_deep (hb : b.Sound) {s depth : Nat} (hs : s < b.scopes.size)
    (hdepth : b.scopes.size ≤ depth) (counts : Array Nat) (a : Allocation) :
    scope b counts depth s a = scope b counts b.scopes.size s a := by
  have hdeep : b.tour depth s = b.tour b.scopes.size s :=
    walk_deep hb b.tour (fun _ _ _ => tour_congr) hs (by omega) (Nat.le_add_right ..)
  have hfold : _ = (scope b counts depth s a, []) := foldl_tour depth s a []
  rw [hdeep, foldl_tour] at hfold
  exact (congrArg Prod.fst hfold).symm

theorem operations_deep (hb : b.Sound) {s depth : Nat} (hs : s < b.scopes.size)
    (hdepth : b.scopes.size ≤ depth) (homes : Array Home) :
    Lay.operations b homes depth s = Lay.operations b homes b.scopes.size s :=
  walk_deep hb (Lay.operations b homes) (fun _ _ _ h => Lay.forM_congr fun _ hop =>
    Lay.operation_congr fun c hc => h c (mem_flatMap_of_mem hop hc)) hs (by omega)
    (Nat.le_add_right ..)

/-- Entries are laid out in the order of the tour, each one once. -/
theorem labels_points (hb : b.Sound) (homes : Array Home) {layout : Layout}
    (hitems : layout.items.toList = (b.points homes).filterMap Point.item?) :
    layout.labels.Nodup ∧
      (b.order.map (entryOf b)).Sublist layout.labels ∧
      ∀ s < b.scopes.size, entryOf b s ∈ layout.labels →
        b.Attached s ∨ (b.kindOf s).isFrame = true := by
  have hlabel : (fun p : Point => p.item?.bind Item.label?) = Point.label? :=
    funext fun p => by cases p <;> rfl
  have hplaced : layout.labels = Point.placed (b.points homes) := by
    rw [Layout.labels, hitems, filterMap_filterMap, hlabel]
    rfl
  rw [hplaced]
  refine ⟨placed_nodup hb homes, ?_, fun s hs hl => attached_or_frame hb ?_⟩
  · exact entries_points b homes
  · have hown : entryOf b s ∈ b.labelsOf s := by
      unfold labelsOf
      split <;> exact .head ..
    have hlt := labelsOf_lt hb hs hown
    rcases (places_plot hb homes).mem_placed_iff.mp hl with hl | hl
    · obtain ⟨c, hc, d, hd, hl⟩ := mem_labelsIn hl
      cases mem_singleton.mp hc
      rwa [labelsOf_unique hb hs (hd.lt_size hb hb.rooted) hown hl]
    · omega

end Body

/-- Giving values homes and laying out walk the same scopes in the same order, whatever was built
and however far, and also behind the call that a constructor begins with. -/
theorem walks_agree {b b' : Body} (hb : b.Built) (hb' : b' = b ∨ b.completeInit = .ok b') :
    -- No scope is named twice, and an operation names scopes behind its own only.
    ((List.range b'.scopes.size).flatMap b'.nested).Nodup ∧
    (∀ s, ∀ c ∈ b'.nested s, s < c ∧ c < b'.scopes.size) ∧
    (∀ s p, b'.parentOf s = some p → p < s) ∧
    -- So a search outward ends within as many rounds as the index says,
    (∀ outer inner rounds, inner < rounds →
      (outer ∈ outward b'.scopes rounds inner ↔ b'.Within outer inner)) ∧
    -- and a walk inward goes no deeper than there are scopes.
    (∀ s depth, s < b'.scopes.size → b'.scopes.size ≤ depth →
      (∀ counts a, scope b' counts depth s a =
        scope b' counts b'.scopes.size s a) ∧
      ∀ homes, operations b' homes depth s = operations b' homes b'.scopes.size s) ∧
    -- Both go along one tour, which comes to each attached scope once.
    b'.order.Nodup ∧ (∀ s, s ∈ b'.order ↔ b'.Attached s) ∧
    (b'.tour b'.scopes.size 0).foldl (visit b' (reads b')) (.start b', []) =
      (b'.allocate, []) ∧
    ((∃ layout, b'.layOut b'.allocate.homes = .ok layout ∧ layout.labels.Nodup ∧
        (b'.order.map (entryOf b')).Sublist layout.labels ∧
        ∀ s < b'.scopes.size, entryOf b' s ∈ layout.labels →
          b'.Attached s ∨ (b'.kindOf s).isFrame = true) ∨
      ∃ v slot, homeOf b'.allocate.homes v = .slot slot ∧ UInt16.size ≤ slot ∧
        b'.layOut b'.allocate.homes = .error (.code (.localsOverflow slot))) := by
  have hs : b'.Sound := by
    rcases hb' with rfl | hinit
    · exact hb.finished.sound
    · exact (hb.finished.completeInit hinit).sound
  refine ⟨nested_nodup hs, fun _ _ => hs.nested_gt, fun _ _ hp => hs.descends hp,
    fun _ _ _ => mem_outward_iff hs.descends,
    fun s depth hlt hdepth => ⟨scope_deep hs hlt hdepth, operations_deep hs hlt hdepth⟩,
    order_nodup hs, fun _ => mem_order_iff hs, foldl_tour _ 0 _ [], ?_⟩
  rcases b'.layOut_eq b'.allocate.homes with ⟨layout, hlay, hitems, _⟩ | ⟨fault, hlay, hfails⟩
  · exact .inl ⟨layout, hlay, labels_points hs _ hitems⟩
  · rcases hfails with ⟨slot, rfl, hslot, v, hv⟩ | ⟨v, hv, hhome⟩
    · exact .inr ⟨v, slot, hv, hslot, hlay⟩
    · exact absurd hhome (reads_home hs hv)

/-- A return out of a try statement names a copy of its last block, which lies in the frame of the
statement, far outside the scope of the return. -/
theorem walks_agree_earlyReturn : earlyReturn.Built ∧
    earlyReturn.nested 3 = [4] ∧ earlyReturn.parentOf 3 = some 2 ∧ earlyReturn.parentOf 4 = some 1 ∧
    earlyReturn.order = [0, 2, 3, 4, 5, 6, 7] ∧
    ∀ s, s ∈ earlyReturn.order ↔ earlyReturn.Attached s :=
  ⟨built_earlyReturn, by decide +kernel, by decide +kernel, by decide +kernel,
    by decide +kernel, (walks_agree built_earlyReturn (.inl rfl)).2.2.2.2.2.2.1⟩

end ClassAssembler
