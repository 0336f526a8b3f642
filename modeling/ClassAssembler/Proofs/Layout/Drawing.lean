import ClassAssembler.Proofs.Layout.Plot

/-!
# Laying out draws the plot

Laying a body out writes exactly its plot, behind whatever is there already, and the holes of the
plot into the try statements that are open.
-/

namespace ClassAssembler

open List Plot Layout

def Role.value? : Role → Option Nat
  | plain => none
  | load value | store value => some value

namespace Plot

@[simp] theorem append_apply (p q : Plot) (n : Nat) : (p ++ q) n =
    ⟨(p n).points ++ (q (p n).next).points, (p n).holes ++ (q (p n).next).holes,
      (q (p n).next).next⟩ := rfl

theorem append_assoc (p q r : Plot) : p ++ q ++ r = p ++ (q ++ r) := by
  funext n
  simp

theorem append_nil (p : Plot) : p ++ nil = p := by
  funext n
  simp [nil]

theorem nil_append (p : Plot) : nil ++ p = p := by
  funext n
  simp [nil]

@[simp] theorem concat_nil : concat [] = nil := rfl

@[simp] theorem concat_cons (p : Plot) (ps : List Plot) : concat (p :: ps) = p ++ concat ps := rfl

theorem concat_of_append {P : Plot → Prop} (hnil : P nil)
    (happend : ∀ {p q}, P p → P q → P (p ++ q)) {α : Type} {as : List α} {p : α → Plot}
    (h : ∀ a ∈ as, P (p a)) : P (concat (as.map p)) := by
  induction as with
  | nil => exact hnil
  | cons a as ih =>
    exact happend (h a (.head ..)) (ih fun x hx => h x (.tail _ hx))

theorem concat_of_mem {P : Plot → Prop} (hleft : ∀ {p q}, P p → P (p ++ q))
    (hright : ∀ {p q}, P q → P (p ++ q)) {α : Type} {as : List α} {p : α → Plot} {a : α}
    (ha : a ∈ as) (h : P (p a)) : P (concat (as.map p)) := by
  induction as with
  | nil => cases ha
  | cons a' as ih =>
    rcases mem_cons.mp ha with rfl | ha
    · exact hleft h
    · exact hright (ih ha)

end Plot

namespace Layout

def add (layout : Layout) (s : Stretch) : Layout where
  items := layout.items ++ (s.points.filterMap Point.item?).toArray
  nextLabel := s.next
  tries := layout.tries.map fun t => { t with holes := t.holes ++ (s.holesOf t.id).toArray }

theorem add_nil (layout : Layout) : layout.add (Plot.nil layout.nextLabel) = layout := by
  simp [add, Plot.nil, Stretch.holesOf]

theorem add_append (layout : Layout) (p q : Plot) :
    layout.add ((p ++ q) layout.nextLabel) =
      (layout.add (p layout.nextLabel)).add (q (p layout.nextLabel).next) := by
  simp [add, Stretch.holesOf]

end Layout

namespace Lay

variable (homes : Array Home)

def Named (ps : List Point) : Prop :=
  ∀ i role site, .insn i role site ∈ ps → ∀ v k, role.value? = some v →
    homeOf homes v = .slot k → k < UInt16.size

def Fails (ps : List Point) (fault : Fault) : Prop :=
  (∃ n, fault = .code (.localsOverflow n) ∧ UInt16.size ≤ n ∧ ∃ v, homeOf homes v = .slot n) ∨
    ∃ v, .reads v ∈ ps ∧ homeOf homes v = .nowhere

def Outcome (layout : Layout) (s : Stretch) : EStateM.Result Fault Layout Unit → Prop
  | .ok () layout' => layout' = layout.add s ∧ Named homes s.points
  | .error fault _ => Fails homes s.points fault

def Draws (m : Lay Unit) (p : Plot) : Prop :=
  ∀ layout, Outcome homes layout (p layout.nextLabel) (m layout)

variable {homes}

theorem Named.append {ps qs : List Point} (hp : Named homes ps) (hq : Named homes qs) :
    Named homes (ps ++ qs) := by
  intro i role site hmem
  rcases mem_append.mp hmem with h | h
  · exact hp i role site h
  · exact hq i role site h

theorem Fails.mono {ps qs : List Point} {fault : Fault} (h : Fails homes ps fault)
    (hsub : ps ⊆ qs) : Fails homes qs fault := by
  rcases h with h | ⟨v, hv, hhome⟩
  · exact .inl h
  · exact .inr ⟨v, hsub hv, hhome⟩

theorem Outcome.bind {m m' : Lay Unit} {layout base : Layout} {s t u : Stretch}
    (hm : Outcome homes layout s (m layout)) (hm' : Outcome homes (base.add s) t
      (m' (layout.add s)))
    (hpoints : u.points = s.points ++ t.points) (hadd : (base.add s).add t = base.add u) :
    Outcome homes base u ((m >>= fun _ => m') layout) := by
  show Outcome homes base u (EStateM.bind m (fun _ => m') layout)
  unfold EStateM.bind
  cases hr : m layout with
  | error fault layout' =>
    rw [hr] at hm
    exact Fails.mono hm (hpoints ▸ subset_append_left ..)
  | ok _ layout' =>
    rw [hr] at hm
    obtain ⟨rfl, hnamed⟩ := hm
    show Outcome homes base u (m' (layout.add s))
    cases hr' : m' (layout.add s) with
    | error fault layout'' =>
      rw [hr'] at hm'
      exact Fails.mono hm' (hpoints ▸ subset_append_right ..)
    | ok _ layout'' =>
      rw [hr'] at hm'
      obtain ⟨rfl, hnamed'⟩ := hm'
      exact ⟨hadd, hpoints ▸ hnamed.append hnamed'⟩

namespace Draws

variable {m m' : Lay Unit} {p q : Plot}

theorem append (h : Draws homes m p) (h' : Draws homes m' q) :
    Draws homes (m >>= fun _ => m') (p ++ q) :=
  fun layout => .bind (h layout) (h' (layout.add (p layout.nextLabel))) rfl
    (layout.add_append p q).symm

theorem nil : Draws homes (pure ()) nil :=
  fun layout => ⟨layout.add_nil.symm, fun _ _ _ h => by cases h⟩

theorem congr (h : Draws homes m p) (heq : m' = m) : Draws homes m' p := heq ▸ h

theorem fresh {f : Label → Lay Unit} {p : Label → Plot} (h : ∀ l, Draws homes (f l) (p l)) :
    Draws homes (freshLabel >>= f) (fresh p) :=
  fun layout => h ⟨layout.nextLabel⟩ { layout with nextLabel := layout.nextLabel + 1 }

theorem forM_map {α β : Type} {f : β → Lay Unit} {g : α → Plot} (k : α → β) (l : List α)
    (h : ∀ a ∈ l, Draws homes (f (k a)) (g a)) :
    Draws homes ((l.map k).forM f) (concat (l.map g)) := by
  induction l with
  | nil => exact nil
  | cons a l ih =>
    exact (h a (.head ..)).append
      (ih fun a' ha' => h a' (.tail _ ha'))

theorem forM {α : Type} {f : α → Lay Unit} {g : α → Plot} (l : List α)
    (h : ∀ a ∈ l, Draws homes (f a) (g a)) : Draws homes (l.forM f) (concat (l.map g)) := by
  have hmap := forM_map id l h
  rwa [List.map_id] at hmap

theorem optionForM {α : Type} {f : α → Lay Unit} {g : α → Plot} (o : Option α)
    (h : ∀ a ∈ o, Draws homes (f a) (g a)) :
    Draws homes (o.forM f) (Plot.concat (o.toList.map g)) := by
  cases o with
  | none => exact nil
  | some a =>
    show Draws homes (f a) (g a ++ Plot.nil)
    rw [Plot.append_nil]
    exact h a rfl

theorem point {e : Entry} {pt : Point} (he : pt.code? = some e)
    (hnamed : Named homes [pt]) : Draws homes (entry e) (.point pt) := by
  intro layout
  refine ⟨?_, hnamed⟩
  have hitem : pt.item? = some (.entry e) := by
    cases pt <;> cases he <;> rfl
  show { layout with items := layout.items.push (.entry e) } = _
  simp [add, Plot.point, hitem, Stretch.holesOf]

theorem remark {pt : Point} (he : pt.item? = none) (h : Draws homes m p) :
    Draws homes m (.point pt ++ p) := by
  have hpt : Draws homes (pure ()) (.point pt) := by
    intro layout
    refine ⟨?_, fun i role site h => ?_⟩
    · show layout = _
      simp [add, Plot.point, he, Stretch.holesOf]
    · cases mem_singleton.mp h
      cases he
  exact hpt.append h

theorem slot {v : Nat} {f : Option UInt16 → Lay Unit}
    (hslot : ∀ k, homeOf homes v = .slot k → k < UInt16.size →
      Draws homes (f (some (UInt16.ofNat k))) p)
    (hnone : (∀ k, homeOf homes v ≠ .slot k) → Draws homes (f none) p) :
    Draws homes (slot? homes v >>= f) p := by
  unfold slot?
  cases hv : homeOf homes v with
  | slot k =>
    by_cases hk : k < UInt16.size
    · exact (hslot k hv hk).congr (by simp only [if_pos hk]; rfl)
    · simp only [if_neg hk]
      exact fun _ => .inl ⟨k, rfl, Nat.le_of_not_lt hk, v, hv⟩
  | constant => exact hnone fun k => by rw [hv]; exact fun h => by cases h
  | stack => exact hnone fun k => by rw [hv]; exact fun h => by cases h
  | nowhere => exact hnone fun k => by rw [hv]; exact fun h => by cases h

end Draws

/-- An action that begins with a try statement open, and ends without it, writes a plot. -/
def Closes (homes : Array Home) (id : Nat) (holes : Array (Label × Label)) (m : Lay Unit)
    (p : Plot) : Prop :=
  ∀ layout rest, layout.tries = ⟨id, holes⟩ :: rest →
    Outcome homes { layout with tries := rest } (p layout.nextLabel) (m layout)

namespace Closes

variable {id : Nat} {hs : Array (Label × Label)} {m m' : Lay Unit} {p q : Plot}

theorem withHoles {q : List (Label × Label) → Plot} (h : Draws homes m p)
    (h' : ∀ n, Closes homes id (hs ++ ((p n).holesOf id).toArray) m' (q ((p n).holesOf id))) :
    Closes homes id hs (m >>= fun _ => m') (withHoles id p q) := by
  intro layout rest htries
  exact .bind (h layout) (h' layout.nextLabel (layout.add (p layout.nextLabel)) _
      (by rw [add, htries]; rfl)) rfl
    (add_append { layout with tries := rest } p (q ((p layout.nextLabel).holesOf id))).symm

theorem append (h : Draws homes m p) (hnone : ∀ n, (p n).holes = [])
    (h' : Closes homes id hs m' q) : Closes homes id hs (m >>= fun _ => m') (p ++ q) := by
  refine withHoles (q := fun _ => q) h fun n => ?_
  have hholes : (p n).holesOf id = [] := by
    rw [Stretch.holesOf, hnone n]
    rfl
  rw [hholes, Array.append_empty]
  exact h'

theorem fresh {f : Label → Lay Unit} {p : Label → Plot} (h : ∀ l, Closes homes id hs (f l) (p l)) :
    Closes homes id hs (freshLabel >>= f) (fresh p) :=
  fun layout rest htries =>
    h ⟨layout.nextLabel⟩ { layout with nextLabel := layout.nextLabel + 1 } rest htries

theorem holes {f : List (Label × Label) → Lay Unit} (h : Closes homes id hs (f hs.toList) p) :
    Closes homes id hs (Lay.holes >>= f) p := by
  intro layout rest htries
  have hrun : (Lay.holes >>= f) layout = f hs.toList layout := by
    show EStateM.bind Lay.holes f layout = _
    have hget : Lay.holes layout = .ok hs.toList layout := by
      cases layout
      cases htries
      rfl
    rw [EStateM.bind, hget]
  rw [hrun]
  exact h layout rest htries

theorem pop (h : Draws homes m p) :
    Closes homes id hs
      ((modify fun layout => { layout with tries := layout.tries.tail }) >>= fun _ => m) p := by
  intro layout rest htries
  show Outcome homes _ _ (m { layout with tries := layout.tries.tail })
  rw [htries]
  exact h { layout with tries := rest }

theorem draws (h : Closes homes id #[] m p) :
    Draws homes
      ((modify fun layout => { layout with tries := ⟨id, #[]⟩ :: layout.tries }) >>=
        fun _ => m) p :=
  fun layout => h { layout with tries := ⟨id, #[]⟩ :: layout.tries } layout.tries rfl

end Closes

variable {body : Body}

theorem draws_insn (site : Site) (i : Instruction) : Draws homes (insn i) (Plot.insn site i) :=
  .point rfl fun i role site h v k hv => by
    cases mem_singleton.mp h
    cases hv

theorem draws_insns (site : Site) (is : List Instruction) :
    Draws homes (insns is) (Plot.insns site is) :=
  .forM is fun i _ => draws_insn site i

theorem draws_branch (site : Site) (b : Branch) : Draws homes (branch b) (Plot.branch site b) :=
  .point rfl fun i role site h => by cases mem_singleton.mp h

theorem draws_place (l : Label) (status : Status) : Draws homes (place l) (Plot.place l status) :=
  .point rfl fun i role site h => by cases mem_singleton.mp h

theorem draws_border (l : Label) : Draws homes (place l) (border l) :=
  .point rfl fun i role site h => by cases mem_singleton.mp h

theorem draws_protect (start stop : Label) (holes : List (Label × Label)) (handler : Label)
    (caught : Option ClassName) :
    Draws homes (protect start stop holes handler caught)
      (.point (.protect start stop holes handler caught)) := by
  intro layout
  refine ⟨?_, fun i role site h => by cases mem_singleton.mp h⟩
  show { layout with items := layout.items.push _ } = _
  simp [add, point, Point.item?, Stretch.holesOf]

theorem draws_access {v k : Nat} (hv : homeOf homes v = .slot k) (hk : k < UInt16.size)
    (i : Instruction) {role : Role} (hrole : role.value? = some v) (site : Site) :
    Draws homes (insn i) (.point (.insn i role site)) :=
  .point rfl fun i role' site h u k' hu hk' => by
    cases mem_singleton.mp h
    rw [hrole] at hu
    cases hu
    rw [hv] at hk'
    cases hk'
    exact hk

section

variable (site : Site)

theorem draws_load (o : Operand) :
    Draws homes (load body homes o) (Plot.load body homes site o) := by
  have hcoercion : Draws homes (insns o.coercion) (Plot.insns site o.coercion) :=
    draws_insns site o.coercion
  unfold load Plot.load Plot.fetch
  rw [Plot.append_assoc]
  cases hv : homeOf homes o.value with
  | constant =>
    refine .remark rfl (Draws.append ?_ hcoercion)
    unfold pushConstant
    cases body.values[o.value]? with
    | none => exact .nil
    | some info =>
      obtain ⟨type, owner, origin⟩ := info
      cases origin with
      | constant l => exact draws_insns site _
      | _ => exact .nil
  | stack => exact .remark rfl (by rw [Plot.nil_append]; exact hcoercion)
  | slot k =>
    refine .remark rfl (.slot (fun k' hk' hlt => ?_) fun hnone => absurd hv (hnone k))
    rw [hv] at hk'
    cases hk'
    exact (draws_access hv hlt _ rfl site).append hcoercion
  | nowhere => exact fun _ => .inr ⟨o.value, .head .., hv⟩

theorem draws_loads (os : List Operand) :
    Draws homes (os.forM (load body homes)) (loads body homes site os) :=
  .forM os fun o _ => draws_load site o

theorem draws_storeInto (v : Nat) :
    Draws homes (storeInto body homes v) (Plot.storeInto body homes site v) := by
  unfold storeInto Plot.storeInto
  refine .slot (fun k hk hlt => ?_) fun hnone => ?_
  · rw [hk]
    exact draws_access hk hlt _ rfl site
  · cases hv : homeOf homes v with
    | slot k => exact absurd hv (hnone k)
    | _ => exact .nil

theorem draws_settle (result : Option Nat) :
    Draws homes (settle body homes result) (Plot.settle body homes site result) := by
  cases result with
  | none => exact .nil
  | some v =>
    refine .remark rfl ?_
    dsimp only [settle]
    cases homeOf homes v with
    | stack => exact .nil
    | constant => exact .nil
    | nowhere => exact draws_insn site _
    | slot k => exact draws_storeInto site v

theorem draws_decision (kept : List Nat) (test : Test) :
    Draws homes (freshLabel >>= fun holds => freshLabel >>= fun done =>
      entries (test.entries holds done)) (Plot.decision site kept test) := by
  refine .fresh fun holds => .fresh fun done => ?_
  simp only [Plot.append_assoc]
  refine (draws_branch site _).append <| (draws_insn site _).append <|
    (draws_branch site _).append <| (draws_place _ _).append <| (draws_insn site _).append ?_
  rw [← Plot.append_nil (Plot.place _ _)]
  exact (draws_place _ _).append .nil

theorem draws_action (kept : List Nat) (os : List Operand) (act : Action) :
    Draws homes (action body homes (os.forM (load body homes)) act)
      (Plot.action body homes site kept os act) := by
  have hloads : Draws homes (os.forM (load body homes)) (Plot.loads body homes site os) :=
    draws_loads site os
  cases act with
  | insns is => exact hloads.append (draws_insns site is)
  | new constructor =>
    simp only [Plot.action, Plot.append_assoc]
    exact (draws_insn site _).append <| (draws_insn site _).append <|
      hloads.append (draws_insn site _)
  | compare lead test =>
    simp only [Plot.action, Plot.append_assoc]
    exact hloads.append <| (draws_insns site _).append (draws_decision site kept test)
  | store var declares => exact hloads.append (draws_storeInto site var)
  | inc var delta =>
    refine .slot (fun k hk hlt => ?_) fun hnone => ?_
    · simp only [Plot.action, hk]
      exact draws_access hk hlt _ rfl site
    · simp only [Plot.action]
      cases hv : homeOf homes var with
      | slot k => exact absurd hv (hnone k)
      | _ => exact .nil
  | copy => exact hloads
  | caught => exact .nil

theorem draws_simple (kept : List Nat) (act : Action) (os : List Operand) (result : Option Nat) :
    Draws homes (simple body homes act os result)
      (Plot.simple body homes site kept act os result) :=
  (draws_action site kept os act).append (draws_settle site result)

end

section scopes

variable {inner : Nat → Lay Unit} {plot : Plot.Inner}
  (hinner : ∀ scope status, Draws homes (inner scope) (plot scope status))
include hinner

theorem draws_enclosed (scope : Nat) (status : Status) :
    Draws homes (enclosed body inner scope) (Plot.enclosed body plot scope status) := by
  unfold Plot.enclosed
  rw [Plot.append_assoc]
  exact (draws_place _ _).append <| (hinner scope status).append (draws_place _ _)

omit hinner in
theorem draws_addHole (crossed : List Cleanup) (start stop : Label) :
    Draws homes (addHole crossed (start, stop))
      (mark ⟨crossed.map Cleanup.owner, start, stop⟩) := by
  intro layout
  refine ⟨?_, fun _ _ _ h => by cases h⟩
  have hany : ∀ t : OpenTry, crossed.any (·.owner == t.id) =
      (crossed.map Cleanup.owner).contains t.id := by
    intro t
    rw [contains_eq_any_beq, any_map]
    congr 1
    funext c
    exact Bool.beq_comm
  show { layout with tries := layout.tries.map _ } = _
  simp only [add, mark, Stretch.holesOf, filterMap_nil, mk.injEq,
    Array.append_empty, true_and]
  refine map_congr_left fun t _ => ?_
  rw [hany t, filter_cons]
  generalize (crossed.map Cleanup.owner).contains t.id = crosses
  cases crosses with
  | true => simp
  | false => simp

omit hinner in
theorem draws_hole (crossed : List Cleanup) {part : Lay Unit} {p : Plot} (h : Draws homes part p) :
    Draws homes (hole crossed part) (Plot.hole (crossed.map Cleanup.owner) p) := by
  refine .fresh fun start => .fresh fun stop => ?_
  simp only [Plot.append_assoc]
  exact (draws_border start).append <| h.append <| (draws_border stop).append <|
    draws_addHole crossed start stop

theorem draws_cleanupsFrom (status : Status) (before cleanups : List Cleanup) :
    Draws homes (cleanupsFrom body inner before cleanups)
      (Plot.cleanupsFrom body plot status (before.map Cleanup.owner) cleanups) := by
  induction cleanups generalizing before with
  | nil => exact .nil
  | cons cleanup rest ih =>
    have hscope : Draws homes (enclosed body inner cleanup.scope)
        (Plot.enclosed body plot cleanup.scope status) := draws_enclosed hinner cleanup.scope status
    have hhole := draws_hole (before ++ [cleanup]) hscope
    have hrest := ih (before ++ [cleanup])
    rw [List.map_append] at hhole hrest
    exact hhole.append hrest

theorem draws_exit (status : Status) (cleanups : List Cleanup) {final : Lay Unit} {p : Plot}
    (h : Draws homes final p) :
    Draws homes (exit body inner cleanups final) (Plot.exit body plot status cleanups p) :=
  (draws_cleanupsFrom hinner status [] cleanups).append (draws_hole cleanups h)

theorem draws_guarded (scope frame part : Nat) (status : Status) (kept : List Nat)
    (cleanups : List Cleanup) :
    Draws homes (do
        enclosed body inner part
        exit body inner cleanups (goto (exitOf body frame)))
      (guarded body plot scope frame part status kept cleanups) :=
  (draws_enclosed hinner part status).append
    (draws_exit hinner _ cleanups (draws_branch _ _))

omit hinner in
theorem draws_protects (start stop : Label) (holes : List (Label × Label))
    (clauses : List CatchClause) :
    Draws homes (clauses.forM fun clause =>
        protect start stop holes (entryOf body clause.scope) (some clause.caught))
      (protects body start stop holes clauses) :=
  .forM clauses fun _ _ => draws_protect start stop holes _ _

omit hinner in
theorem holes_protects (start stop : Label) (holes : List (Label × Label))
    (clauses : List CatchClause) (n : Nat) :
    (protects body start stop holes clauses n).holes = [] := by
  unfold protects
  induction clauses generalizing n with
  | nil => rfl
  | cons clause clauses ih => exact ih n

theorem draws_tryCatch (scope : Nat) (status : Status) (statement : TryStatement) :
    Draws homes (tryCatch body inner statement)
      (Plot.tryCatch body plot scope status statement) := by
  unfold tryCatch Plot.tryCatch
  refine (draws_place _ _).append <| .fresh fun start => (draws_border start).append ?_
  refine Closes.draws ?_
  rw [← bind_assoc]
  refine .withHoles (draws_guarded hinner scope _ _ status status.kept _) fun n => .fresh
    fun bodyEnd => ?_
  simp only [Plot.append_assoc]
  refine .append (draws_border bodyEnd) (fun _ => rfl) <| .holes ?_
  simp only [Array.empty_append]
  refine .append (draws_protects _ _ _ _) (holes_protects _ _ _ _) ?_
  refine .withHoles (.forM _ fun clause _ => draws_guarded hinner scope _ clause.scope _ _ _)
    fun n' => .fresh fun clausesEnd => ?_
  refine .append (draws_border clausesEnd) (fun _ => rfl) <| .holes <| .pop ?_
  simp only [Array.toList_append]
  cases statement.catchAll with
  | none =>
    show Draws homes _ (Plot.nil ++ _)
    rw [Plot.nil_append]
    exact draws_place _ _
  | some handler =>
    show Draws homes _ (_ ++ _ ++ _)
    rw [Plot.append_assoc]
    exact (draws_protect _ _ _ _ _).append <| (draws_enclosed hinner handler _).append
      (draws_place _ _)

end scopes

theorem Draws.freshFor {xs : List (Int32 × List (String × Label))}
    {f : List (Int32 × Label × List (String × Label)) → Lay Unit}
    {p : List (Label × Int32 × List (String × Label)) → Plot}
    (h : ∀ ls, Draws homes (f (ls.map fun x => (x.2.1, x.1, x.2.2))) (p ls)) :
    Draws homes
      ((xs.mapM fun (hash, texts) => do return (hash, ← freshLabel, texts)) >>= f)
      (freshFor xs p) := by
  induction xs generalizing f p with
  | nil => exact h []
  | cons x xs ih =>
    obtain ⟨hash, texts⟩ := x
    simp only [mapM_cons, bind_assoc, pure_bind] at ih ⊢
    refine .fresh fun l => ?_
    exact ih fun ls => h ((l, hash, texts) :: ls)

theorem draws_textTests (site : Site) (selector : Operand) (texts : List (String × Label)) :
    Draws homes (texts.forM fun (text, target) => do
        load body homes selector
        insns (Push.string text)
        insn (.invoke .virtual .stringEquals)
        jumpIf .ne target)
      (textTests body homes site selector texts) := by
  refine .forM texts fun x _ => ?_
  simp only [Plot.append_assoc]
  exact (draws_load site selector).append <| (draws_insns site _).append <|
    (draws_insn site _).append (draws_branch site _)

theorem draws_stringSwitch (site : Site) (kept : List Nat) (selector : Operand) (arms : List Arm)
    (fallback : Label) :
    Draws homes (stringSwitch body homes selector arms fallback)
      (Plot.stringSwitch body homes site kept selector arms fallback) := by
  refine .freshFor fun ls => ?_
  simp only [Plot.append_assoc, map_map]
  refine (draws_load site selector).append <| (draws_insn site _).append <|
    (draws_branch site _).append ?_
  refine .forM_map _ ls fun x _ => ?_
  exact (draws_place _ _).append <| (draws_textTests site selector _).append (draws_branch site _)

theorem draws_dispatch (site : Site) (kept : List Nat) (statement : SwitchStatement) :
    Draws homes (dispatch body homes statement)
      (Plot.dispatch body homes site kept statement) := by
  unfold dispatch Plot.dispatch
  cases statement.kind with
  | int => exact (draws_load site _).append (draws_branch site _)
  | enum type accessor =>
    simp only [Plot.append_assoc]
    exact (draws_insn site _).append <| (draws_load site _).append <| (draws_insn site _).append <|
      (draws_insn site _).append (draws_branch site _)
  | string => exact draws_stringSwitch site kept _ _ _

section operations

variable {inner : Nat → Lay Unit} {plot : Plot.Inner}
  (hinner : ∀ scope status, Draws homes (inner scope) (plot scope status))
include hinner

theorem draws_switch (scope : Nat) (status : Status) (statement : SwitchStatement) :
    Draws homes (switch body homes inner statement)
      (Plot.switch body homes plot scope status statement) := by
  unfold switch Plot.switch
  simp only [Plot.append_assoc]
  refine (draws_place _ _).append <| (draws_dispatch _ _ _).append <|
    Draws.append (.forM _ fun arm _ => ?_) (draws_place _ _)
  refine (draws_enclosed hinner arm.scope _).append ?_
  cases statement.fallthrough with
  | true => exact .nil
  | false => exact draws_branch _ _

theorem draws_operation (scope : Nat) (status : Status) (op : Operation) :
    Draws homes (operation body homes inner op)
      (Plot.operation body homes plot scope status op) := by
  cases op with
  | simple act os result => exact draws_simple _ _ act os result
  | block nested => exact draws_enclosed hinner nested status
  | branch cond whenTrue whenFalse =>
    cases whenFalse with
    | none =>
      simp only [Plot.operation, Plot.append_assoc]
      exact (draws_load _ cond).append <| (draws_branch _ _).append (draws_enclosed hinner _ _)
    | some whenFalse =>
      simp only [Plot.operation, Plot.append_assoc]
      exact (draws_load _ cond).append <| (draws_branch _ _).append <|
        (draws_enclosed hinner _ _).append <| (draws_branch _ _).append (draws_enclosed hinner _ _)
  | loop nested update =>
    simp only [Plot.operation, Plot.append_assoc]
    exact (draws_place _ _).append <| (hinner nested status).append <| (draws_place _ _).append <|
      Draws.append (.optionForM update fun s _ => draws_enclosed hinner s _) <|
      (draws_branch _ _).append (draws_place _ _)
  | exitUnless cond target => exact (draws_load _ cond).append (draws_branch _ _)
  | jump kind target cleanups => exact draws_exit hinner status cleanups (draws_branch _ _)
  | ret value cleanups =>
    exact draws_exit hinner status cleanups
      (Draws.append (.optionForM value fun o _ => draws_load _ o) (draws_branch _ _))
  | throw value => exact (draws_load _ value).append (draws_branch _ _)
  | tryCatch statement => exact draws_tryCatch hinner scope status statement
  | switch statement => exact draws_switch hinner scope status statement

theorem draws_inOrder (scope : Nat) (ops : List Operation) (status : Status) :
    Draws homes (ops.forM (operation body homes inner))
      (inOrder body homes plot scope ops status) := by
  induction ops generalizing status with
  | nil => exact .nil
  | cons op ops ih => exact (draws_operation hinner scope status op).append (ih _)

end operations

theorem draws_operations (depth scope : Nat) (status : Status) :
    Draws homes (operations body homes depth scope)
      (Plot.operations body homes depth scope status) := by
  induction depth generalizing scope status with
  | zero => exact .nil
  | succ depth ih => exact draws_inOrder ih scope _ status

end Lay

/-- Laying a body out gives its plot, or fails for lack of a slot or of a home. -/
theorem Body.layOut_eq (body : Body) (homes : Array Home) :
    let stretch := body.plot homes body.nextLabel
    (∃ layout, body.layOut homes = .ok layout ∧
      layout.items.toList = stretch.points.filterMap Point.item? ∧
      layout.nextLabel = stretch.next ∧ Lay.Named homes stretch.points) ∨
    ∃ fault, body.layOut homes = .error fault ∧ Lay.Fails homes stretch.points fault := by
  intro stretch
  have hdraws : Lay.Draws homes (Lay.enclosed body (Lay.operations body homes body.scopes.size) 0)
      (body.plot homes) :=
    Lay.draws_enclosed (Lay.draws_operations body.scopes.size) 0 ⟨[], body.params⟩
  have h := hdraws { items := #[], nextLabel := body.nextLabel, tries := [] }
  unfold layOut
  dsimp only
  revert h
  generalize Lay.enclosed body _ 0 _ = result
  intro h
  cases result with
  | ok u layout =>
    obtain ⟨rfl, hnamed⟩ := h
    exact .inl ⟨_, rfl, by simp [add, stretch], rfl, hnamed⟩
  | error fault layout => exact .inr ⟨fault, rfl, h⟩

end ClassAssembler
