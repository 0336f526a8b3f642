import ClassAssembler.Proofs.Body.Region
import ClassAssembler.Proofs.Layout.Drawing

/-!
# Labels of a plot

Every scope that is laid out has its labels placed once, and so has every label that is handed out
on the way.
-/

namespace ClassAssembler

open List Lay Body Point Cleanup

variable (site : Site) (kept : List Nat) (os : List Operand)

namespace Point

def label? : Point → Option Label
  | label l _ => some l
  | _ => none

def isPlain : Point → Bool
  | insn _ _ _ | reads _ | yields _ => true
  | _ => false

def placed (ps : List Point) : List Label := ps.filterMap label?

@[simp] theorem placed_nil : placed [] = [] := rfl

@[simp] theorem placed_append (ps qs : List Point) : placed (ps ++ qs) = placed ps ++ placed qs :=
  filterMap_append

theorem mem_placed {ps : List Point} {l : Label} :
    l ∈ placed ps ↔ ∃ status, .label l status ∈ ps := by
  refine mem_filterMap.trans ⟨fun ⟨p, hp, hl⟩ => ?_, fun ⟨status, h⟩ => ⟨_, h, rfl⟩⟩
  cases p with
  | label l' status =>
    cases hl
    exact ⟨status, hp⟩
  | _ => cases hl

end Point

namespace Body

variable (b : Body)

def labelsOf (scope : Nat) : List Label :=
  if b.kindOf scope = .loop then
    [entryOf b scope, againOf b scope, exitOf b scope]
  else [entryOf b scope, exitOf b scope]

def scopesIn : (depth : Nat) → (scope : Nat) → List Nat
  | 0, _ => []
  | depth + 1, scope => (b.owned scope).flatMap fun c => c :: scopesIn depth c

def labelsIn (depth : Nat) (scopes : List Nat) : List Label :=
  (scopes.flatMap fun c => c :: b.scopesIn depth c).flatMap b.labelsOf

@[simp] theorem labelsIn_nil (depth : Nat) : b.labelsIn depth [] = [] := rfl

@[simp] theorem labelsIn_append (depth : Nat) (cs ds : List Nat) :
    b.labelsIn depth (cs ++ ds) = b.labelsIn depth cs ++ b.labelsIn depth ds := by
  simp [labelsIn]

theorem labelsIn_cons (depth : Nat) (c : Nat) (cs : List Nat) :
    b.labelsIn depth (c :: cs) =
      b.labelsOf c ++ ((b.scopesIn depth c).flatMap b.labelsOf ++ b.labelsIn depth cs) := by
  simp [labelsIn]

theorem labelsIn_flatMap {α : Type} (depth : Nat) (as : List α) (f : α → List Nat) :
    as.flatMap (fun a => b.labelsIn depth (f a)) = b.labelsIn depth (as.flatMap f) := by
  induction as with
  | nil => rfl
  | cons a as ih => rw [flatMap_cons, flatMap_cons, ih, labelsIn_append]

end Body

def between (n m : Nat) (l : Label) : Nat := if n ≤ l.index ∧ l.index < m then 1 else 0

theorem between_self (n : Nat) (l : Label) : between n n l = 0 := if_neg (by omega)

theorem between_add {n m k : Nat} (hnm : n ≤ m) (hmk : m ≤ k) (l : Label) :
    between n m l + between m k l = between n k l := by
  unfold between
  split <;> split <;> split <;> omega

theorem between_succ (n : Nat) (l : Label) : between n (n + 1) l = if l = ⟨n⟩ then 1 else 0 := by
  unfold between
  have hiff : l = ⟨n⟩ ↔ l.index = n := ⟨fun h => by rw [h], fun h => by cases l; cases h; rfl⟩
  by_cases h : l = ⟨n⟩
  · rw [if_pos h, if_pos (by have := hiff.mp h; omega)]
  · rw [if_neg h, if_neg fun hb => h (hiff.mpr (by omega))]

namespace Plot

/-- A plot places the labels of a list, and those it hands out. -/
def Places (p : Plot) (own : List Label) : Prop :=
  ∀ n, n ≤ (p n).next ∧
    ∀ l, (placed (p n).points).count l = own.count l + between n (p n).next l

namespace Places

variable {p q : Plot} {own own' : List Label}

theorem append (hp : Places p own) (hq : Places q own') : Places (p ++ q) (own ++ own') := by
  intro n
  obtain ⟨hle, hcount⟩ := hp n
  obtain ⟨hle', hcount'⟩ := hq (p n).next
  refine ⟨Nat.le_trans hle hle', fun l => ?_⟩
  have hsum := between_add hle hle' l
  simp only [append_apply, placed_append, count_append, hcount l, hcount' l]
  omega

theorem perm (hp : Places p own) (h : own.Perm own') : Places p own' := by
  intro n
  obtain ⟨hle, hcount⟩ := hp n
  exact ⟨hle, fun l => by rw [hcount l, h.count_eq]⟩

theorem nil : Places nil [] := fun n => ⟨Nat.le_refl n, fun l => by
  simp [Plot.nil, between_self]⟩

theorem place (l : Label) (status : Status) : Places (place l status) [l] := fun n =>
  ⟨Nat.le_refl n, fun l' => by simp [Plot.place, Plot.point, placed, label?, between_self]⟩

theorem border (l : Label) : Places (border l) [l] := fun n =>
  ⟨Nat.le_refl n, fun l' => by simp [Plot.border, Plot.point, placed, label?, between_self]⟩

theorem mark (hole : Hole) : Places (mark hole) [] := fun n =>
  ⟨Nat.le_refl n, fun l => by simp [Plot.mark, between_self]⟩

theorem point {pt : Point} (h : pt.label? = none) : Places (point pt) [] := fun n =>
  ⟨Nat.le_refl n, fun l => by simp [Plot.point, placed, h, between_self]⟩

theorem fresh {p : Label → Plot} (h : ∀ l, Places (p l) (l :: own)) : Places (fresh p) own := by
  intro n
  obtain ⟨hle, hcount⟩ := h ⟨n⟩ (n + 1)
  refine ⟨Nat.le_trans (Nat.le_succ n) hle, fun l => ?_⟩
  have hsum : (if l = ⟨n⟩ then 1 else 0) + between (n + 1) (p ⟨n⟩ (n + 1)).next l =
      between n (p ⟨n⟩ (n + 1)).next l := by
    rw [← between_succ, between_add (Nat.le_succ n) hle]
  show count l (placed (p ⟨n⟩ (n + 1)).points) =
    count l own + between n (p ⟨n⟩ (n + 1)).next l
  rw [hcount l, ← hsum]
  by_cases h : l = ⟨n⟩
  · rw [if_pos h, h, count_cons_self]
    omega
  · rw [if_neg h, count_cons_of_ne (Ne.symm h)]
    omega

theorem freshFor {α : Type} {as : List α} {p : List (Label × α) → Plot}
    (h : ∀ ls : List (Label × α), ls.map Prod.snd = as → Places (p ls) (ls.map Prod.fst ++ own)) :
    Places (freshFor as p) own := by
  induction as generalizing p own with
  | nil => exact h [] rfl
  | cons a as ih =>
    refine fresh fun l => ih fun ls hls => (h ((l, a) :: ls) (by rw [map_cons, hls])).perm ?_
    rw [map_cons, cons_append]
    exact perm_middle.symm

theorem concat {α : Type} {as : List α} {p : α → Plot} {own : α → List Label}
    (h : ∀ a ∈ as, Places (p a) (own a)) : Places (concat (as.map p)) (as.flatMap own) := by
  induction as with
  | nil => exact nil
  | cons a as ih =>
    exact (h a (.head ..)).append (ih fun x hx => h x (.tail _ hx))

theorem concat_nil {α : Type} {as : List α} {p : α → Plot} (h : ∀ a ∈ as, Places (p a) []) :
    Places (Plot.concat (as.map p)) [] := by
  have hall : Places (Plot.concat (as.map p)) (as.flatMap fun _ => []) := concat h
  rwa [flatMap_eq_nil_iff.mpr fun _ _ => rfl] at hall

theorem withHoles {id : Nat} {q : List (Label × Label) → Plot} (hp : Places p own)
    (hq : ∀ hs, Places (q hs) own') : Places (withHoles id p q) (own ++ own') :=
  fun n => hp.append (hq _) n

theorem of_count (hp : Places p own) (h : ∀ l, own.count l = own'.count l) : Places p own' :=
  hp.perm (perm_iff_count.mpr h)

end Places

/-! ## Points without labels -/

/-- A plot of instructions that control runs through, and remarks. -/
def Idle (p : Plot) : Prop :=
  ∀ n, (p n).next = n ∧ (p n).holes = [] ∧ ∀ pt ∈ (p n).points, pt.isPlain

namespace Idle

variable {p q : Plot}

theorem append (hp : Idle p) (hq : Idle q) : Idle (p ++ q) := by
  intro n
  obtain ⟨hnext, hholes, hpoints⟩ := hp n
  obtain ⟨hnext', hholes', hpoints'⟩ := hq (p n).next
  refine ⟨hnext'.trans hnext, ?_, forall_mem_append.mpr ⟨hpoints, hpoints'⟩⟩
  rw [append_apply, hholes, hholes']
  rfl

theorem nil : Idle nil := fun _ => ⟨rfl, rfl, fun _ h => by cases h⟩

theorem point {pt : Point} (h : pt.isPlain) : Idle (point pt) :=
  fun _ => ⟨rfl, rfl, fun pt' hpt => by rw [mem_singleton.mp hpt]; exact h⟩

theorem concat {α : Type} {as : List α} {p : α → Plot} (h : ∀ a ∈ as, Idle (p a)) :
    Idle (concat (as.map p)) := concat_of_append nil append h

theorem placed (hp : Idle p) (n : Nat) : placed (p n).points = [] := by
  refine filterMap_eq_nil_iff.mpr fun pt hpt => ?_
  have hplain := (hp n).2.2 pt hpt
  cases pt with
  | label l status => cases hplain
  | _ => rfl

theorem places (hp : Idle p) : Places p [] := fun n =>
  ⟨Nat.le_of_eq (hp n).1.symm, fun l => by
    rw [hp.placed n, (hp n).1, between_self, Nat.add_zero]⟩

end Idle

section plain

variable {body : Body} {homes : Array Home}

theorem idle_insn (i : Instruction) : Idle (insn site i) := .point rfl

theorem idle_insns (is : List Instruction) : Idle (insns site is) :=
  .concat fun i _ => idle_insn site i

theorem idle_fetch (v : Nat) : Idle (fetch body homes site v) := by
  unfold fetch
  split
  · split
    · exact idle_insns site _
    · exact .nil
  · exact .point rfl
  · exact .nil
  · exact .nil

theorem idle_load (o : Operand) : Idle (load body homes site o) :=
  (Idle.append (.point rfl) (idle_fetch site _)).append (idle_insns site _)

theorem idle_loads : Idle (loads body homes site os) :=
  .concat fun o _ => idle_load site o

theorem idle_storeInto (v : Nat) : Idle (storeInto body homes site v) := by
  unfold storeInto
  split
  · exact .point rfl
  · exact .nil

theorem idle_settle (result : Option Nat) : Idle (settle body homes site result) := by
  cases result with
  | none => exact .nil
  | some v =>
    refine Idle.append (.point rfl) ?_
    split
    · exact .nil
    · exact .nil
    · exact idle_insn site _
    · exact idle_storeInto site v

theorem idle_action {act : Action} (hact : ∀ lead test, act ≠ .compare lead test) :
    Idle (action body homes site kept os act) := by
  have hloads : Idle (loads body homes site os) := idle_loads site os
  cases act with
  | insns is => exact hloads.append (idle_insns site is)
  | new constructor =>
    exact (((idle_insn site _).append (idle_insn site _)).append hloads).append (idle_insn site _)
  | compare lead test => exact absurd rfl (hact lead test)
  | store var declares => exact hloads.append (idle_storeInto site var)
  | inc var delta =>
    simp only [action]
    split
    · exact .point rfl
    · exact .nil
  | copy => exact hloads
  | caught => exact .nil

end plain

section plain

variable {body : Body} {homes : Array Home}

theorem places_branch (br : Branch) : Places (branch site br) [] := .point rfl

theorem places_decision (test : Test) :
    Places (decision site kept test) [] := by
  refine .fresh fun holds => .fresh fun done => ?_
  refine Places.perm ?_ (List.Perm.swap done holds [])
  exact ((((((places_branch site _).append (idle_insn site _).places).append
    (places_branch site _)).append (.place holds _)).append (idle_insn site _).places).append
      (.place done _))

theorem places_action (act : Action) :
    Places (action body homes site kept os act) [] := by
  by_cases hact : ∀ lead test, act ≠ .compare lead test
  · exact (idle_action site kept os hact).places
  · cases act with
    | compare lead test =>
      exact ((idle_loads site os).places.append (idle_insns site _).places).append
        (places_decision site kept test)
    | _ => exact absurd (fun _ _ h => by cases h) hact

theorem places_simple (act : Action) (os : List Operand) (result : Option Nat) :
    Places (simple body homes site kept act os result) [] :=
  (places_action site kept os act).append (idle_settle site result).places

theorem places_textTests (selector : Operand) (texts : List (String × Label)) :
    Places (textTests body homes site selector texts) [] :=
  .concat_nil fun _ _ =>
    (((idle_load site selector).places.append (idle_insns site _).places).append
    (idle_insn site _).places).append (places_branch site _)

theorem places_stringSwitch (selector : Operand) (arms : List Arm) (fallback : Label) :
    Places (stringSwitch body homes site kept selector arms fallback) [] := by
  refine .freshFor fun ls _ => ?_
  have hbuckets : Places (concat (ls.map fun x =>
      place x.1 ⟨[], kept⟩ ++ textTests body homes site selector x.2.2 ++ goto site fallback))
      (ls.flatMap fun x => [x.1]) :=
    .concat fun x _ => ((Places.place x.1 _).append (places_textTests site selector _)).append
      (places_branch site _)
  rw [← map_eq_flatMap] at hbuckets
  rw [List.append_nil]
  exact (((idle_load site selector).places.append (idle_insn site _).places).append
    (places_branch site _)).append hbuckets

theorem places_dispatch (statement : SwitchStatement) :
    Places (dispatch body homes site kept statement) [] := by
  unfold dispatch
  dsimp only
  split
  · exact (idle_load site _).places.append (places_branch site _)
  · exact ((((idle_insn site _).places.append (idle_load site _).places).append
      (idle_insn site _).places).append (idle_insn site _).places).append (places_branch site _)
  · exact places_stringSwitch site kept _ _ _

theorem places_protects (start stop : Label) (holes : List (Label × Label))
    (clauses : List CatchClause) : Places (protects body start stop holes clauses) [] :=
  .concat_nil fun _ _ => .point rfl

end plain

/-! ## Scopes -/

section scopes

variable {b : Body} {inner : Inner} {depth s : Nat}

theorem labelsOf_of_ne {c : Nat} (hc : b.kindOf c ≠ .loop) :
    b.labelsOf c = [entryOf b c, exitOf b c] := if_neg hc

variable (hinner : ∀ c status, Places (inner c status) ((b.scopesIn depth c).flatMap b.labelsOf))
include hinner

theorem places_enclosed {c : Nat} (hc : b.kindOf c ≠ .loop) (status : Status) :
    Places (enclosed b inner c status) (b.labelsIn depth [c]) := by
  refine (((Places.place _ _).append (hinner c status)).append (.place _ _)).of_count fun l => ?_
  rw [labelsIn_cons, labelsOf_of_ne hc, cons_append]
  simp only [labelsIn_nil, count_append, count_cons, count_nil]
  omega

omit hinner in
theorem places_hole (owners : List Nat) {part : Plot} {own : List Label} (h : Places part own) :
    Places (hole owners part) own := by
  refine .fresh fun start => .fresh fun stop => ?_
  refine ((((Places.border start).append h).append (.border stop)).append (.mark _)).of_count
    fun l => ?_
  simp only [count_append, count_cons, count_nil]
  omega

variable {cleanups : List Cleanup}

theorem places_cleanupsFrom
    (hkinds : ∀ c ∈ cleanups, b.kindOf c.scope ≠ .loop) (status : Status) (before : List Nat) :
    Places (cleanupsFrom b inner status before cleanups)
      (b.labelsIn depth (cleanups.map scope)) := by
  induction cleanups generalizing before with
  | nil => exact .nil
  | cons cleanup rest ih =>
    have hfirst := places_hole (before ++ [cleanup.owner])
      (places_enclosed hinner (hkinds cleanup (.head ..)) status)
    have hrest := ih (fun c hc => hkinds c (.tail _ hc)) (before ++ [cleanup.owner])
    have h := hfirst.append hrest
    rwa [← labelsIn_append] at h

theorem places_exit {final : Plot}
    (hkinds : ∀ c ∈ cleanups, b.kindOf c.scope ≠ .loop) (status : Status)
    (hfinal : Places final []) :
    Places (exit b inner status cleanups final)
      (b.labelsIn depth (cleanups.map scope)) := by
  have h := (places_cleanupsFrom hinner hkinds status []).append
    (places_hole (cleanups.map owner) hfinal)
  rwa [List.append_nil] at h

theorem places_guarded {part : Nat} (hpart : b.kindOf part ≠ .loop)
    (hkinds : ∀ c ∈ cleanups, b.kindOf c.scope ≠ .loop) (frame : Nat) (status : Status)
    (kept : List Nat) :
    Places (guarded b inner s frame part status kept cleanups)
      (b.labelsIn depth (part :: cleanups.map scope)) := by
  have h := (places_enclosed hinner hpart status).append
    (places_exit hinner hkinds ⟨[], kept⟩
      (places_branch ⟨part, some (some s)⟩ (.goto (exitOf b frame))))
  rwa [← labelsIn_append] at h

theorem places_catchAll {handler : Option Nat} (hkind : ∀ h, handler = some h → b.kindOf h ≠ .loop)
    (kept : List Nat) (start stop : Label) (holes : List (Label × Label)) :
    Places (catchAll b inner kept start stop holes handler) (b.labelsIn depth handler.toList) := by
  cases handler with
  | none => exact .nil
  | some h => exact (Places.point rfl).append (places_enclosed hinner (hkind h rfl) _)

theorem places_tryCatch {statement : TryStatement} (hfits : b.TryFits s statement)
    (status : Status) :
    Places (tryCatch b inner s status statement)
      (b.labelsOf statement.frame ++ b.labelsIn depth (Operation.tryCatch statement).nested) := by
  have hcopies : ∀ cs : List Cleanup, (∃ c', cs = [c'] ∧ b.CopyOf statement.frame c') →
      ∀ c ∈ cs, b.kindOf c.scope ≠ .loop := fun _ h _ hc => by
    rw [(Body.CopyOf.of_single h hc).kind]
    decide
  have hbody := places_guarded (s := s) hinner
    (show b.kindOf statement.body ≠ .loop by rw [hfits.body.2]; decide)
    (hcopies _ hfits.bodyExit) statement.frame status status.kept
  have hclauses : Places (concat (statement.clauses.map fun clause =>
      guarded b inner s statement.frame clause.scope (thrown status.kept) status.kept clause.exit))
      (b.labelsIn depth (statement.clauses.flatMap fun clause =>
        clause.scope :: clause.exit.map scope)) := by
    rw [← labelsIn_flatMap]
    refine .concat fun clause hclause => ?_
    obtain ⟨_, hkind, _, hexit⟩ := hfits.clauses clause hclause
    exact places_guarded hinner (by rw [hkind]; decide) (hcopies _ hexit) _ _ _
  have hall : ∀ start stop holes, Places
      (catchAll b inner status.kept start stop holes statement.catchAll)
      (b.labelsIn depth statement.catchAll.toList) :=
    fun start stop holes => places_catchAll hinner (fun h hh => by
      rw [(hfits.catchAll h hh).2.1]
      decide) _ _ _ _
  have hframe : b.labelsOf statement.frame =
      [entryOf b statement.frame, exitOf b statement.frame] :=
    labelsOf_of_ne (by rw [hfits.frame]; decide)
  have h : Places (tryCatch b inner s status statement) ([entryOf b statement.frame] ++
      (b.labelsIn depth (statement.body :: statement.bodyExit.map scope) ++
        (b.labelsIn depth (statement.clauses.flatMap fun clause =>
          clause.scope :: clause.exit.map scope) ++
          (b.labelsIn depth statement.catchAll.toList ++ [exitOf b statement.frame])))) :=
    (Places.place _ _).append <| .fresh fun start =>
      (Places.border start).append <| .withHoles hbody fun bodyHoles => .fresh fun bodyEnd =>
        ((Places.border bodyEnd).append (places_protects start bodyEnd bodyHoles _)).append <|
          .withHoles hclauses fun clauseHoles => .fresh fun clausesEnd =>
            ((Places.border clausesEnd).append
              (hall start clausesEnd (bodyHoles ++ clauseHoles))).append (.place _ _)
  refine h.of_count fun l => ?_
  have hnested : b.labelsIn depth (Operation.tryCatch statement).nested =
      b.labelsIn depth (statement.body :: statement.bodyExit.map scope) ++
        b.labelsIn depth (statement.clauses.flatMap fun clause =>
          clause.scope :: clause.exit.map scope) ++
        b.labelsIn depth statement.catchAll.toList := by
    rw [← labelsIn_append, ← labelsIn_append]
    rfl
  rw [hframe, hnested]
  simp only [count_append, count_cons, count_nil]
  omega

section

variable (homes : Array Home)
include homes

theorem places_switch {statement : SwitchStatement} (hfits : b.SwitchFits s statement)
    (status : Status) :
    Places (switch b homes inner s status statement)
      (b.labelsOf statement.frame ++ b.labelsIn depth (Operation.switch statement).nested) := by
  have harms : Places (concat (statement.arms.map fun arm =>
      enclosed b inner arm.scope ⟨[], status.kept⟩ ++
        if statement.fallthrough then nil else goto ⟨s, none⟩ (exitOf b statement.frame)))
      (statement.arms.flatMap fun arm => b.labelsIn depth [arm.scope]) := by
    refine .concat fun arm harm => ?_
    rw [← List.append_nil (b.labelsIn depth [arm.scope])]
    refine (places_enclosed hinner (hfits.arms arm harm).2.2 _).append ?_
    split
    · exact .nil
    · exact places_branch _ _
  rw [labelsIn_flatMap, ← map_eq_flatMap] at harms
  rw [labelsOf_of_ne (by rw [hfits.frame]; decide)]
  refine (((Places.place _ _).append (places_dispatch _ _ _)).append harms |>.append
    (.place _ _)).of_count fun l => ?_
  simp only [Operation.nested, count_append, count_cons, count_nil]
  omega

theorem places_loop {nested : Nat} {update : Option Nat} (hkind : b.kindOf nested = .loop)
    (hupdate : ∀ c, update = some c → b.kindOf c ≠ .loop) (status : Status) :
    Places (operation b homes inner s status (.loop nested update))
      (b.labelsIn depth (nested :: update.toList)) := by
  have hupdates : Places (concat (update.toList.map fun c =>
      enclosed b inner c ⟨[], status.kept⟩)) (b.labelsIn depth update.toList) := by
    have h : Places (concat (update.toList.map fun c => enclosed b inner c ⟨[], status.kept⟩))
        (update.toList.flatMap fun c => b.labelsIn depth [c]) :=
      .concat fun c hc => places_enclosed hinner (hupdate c (Option.mem_toList.mp hc)) _
    rwa [labelsIn_flatMap, ← map_eq_flatMap, map_id'] at h
  refine ((((((Places.place _ _).append (hinner nested status)).append (.place _ _)).append
    hupdates).append (places_branch _ _)).append (.place _ _)).of_count fun l => ?_
  rw [labelsIn_cons, labelsOf, if_pos hkind]
  simp only [count_append, count_cons, count_nil]
  omega

theorem places_operation {op : Operation} (hfits : op.Fits b s)
    (hframes : ∀ {c}, (b.kindOf c).isFrame → b.operations c = []) (status : Status) :
    Places (operation b homes inner s status op) (b.labelsIn depth op.owned) := by
  -- A frame has no operations, so there is nothing between its labels but the parts.
  have hframe : ∀ {frame} {nested : List Nat}, (b.kindOf frame).isFrame →
      b.labelsIn depth (frame :: nested) = b.labelsOf frame ++ b.labelsIn depth nested := by
    intro frame nested hf
    rw [labelsIn_cons]
    cases depth with
    | zero => rfl
    | succ depth =>
      rw [scopesIn, owned, hframes hf]
      rfl
  cases op with
  | simple act os result => exact places_simple _ _ act os result
  | block nested => exact places_enclosed hinner hfits.2.2 status
  | branch cond whenTrue whenFalse =>
    have htrue := places_enclosed hinner hfits.1.2.2 ⟨[], status.kept⟩
    cases whenFalse with
    | none => exact ((idle_load _ cond).places.append (places_branch _ _)).append htrue
    | some whenFalse =>
      have hfalse := places_enclosed hinner (hfits.2 whenFalse rfl).2.2 ⟨[], status.kept⟩
      refine (((((idle_load _ cond).places.append (places_branch _ _)).append hfalse).append
        (places_branch _ _)).append htrue).of_count fun l => ?_
      have howned : b.labelsIn depth (Operation.branch cond whenTrue (some whenFalse)).owned =
          b.labelsIn depth [whenFalse] ++ b.labelsIn depth [whenTrue] :=
        b.labelsIn_append depth [whenFalse] [whenTrue]
      rw [howned]
      simp only [count_append, count_nil]
      omega
  | loop nested update =>
    refine places_loop hinner homes hfits.2.1 (fun c hc => ?_) status
    rw [(hfits.2.2 c hc).2]
    decide
  | exitUnless cond target => exact (idle_load _ cond).places.append (places_branch _ _)
  | jump kind target cleanups =>
    refine places_exit hinner (fun c hc => ?_) status (places_branch _ _)
    obtain ⟨f, hcopy, _⟩ := hfits.2.2.each c hc
    rw [hcopy.kind]
    decide
  | ret value cleanups =>
    refine places_exit hinner (fun c hc => ?_) status
      ((idle_loads _ _).places.append (places_branch _ _))
    obtain ⟨f, hcopy, _⟩ := hfits.2.each c hc
    rw [hcopy.kind]
    decide
  | throw value => exact (idle_load _ value).places.append (places_branch _ _)
  | tryCatch statement =>
    have h := places_tryCatch hinner hfits status
    rwa [← hframe (by rw [hfits.frame]; rfl)] at h
  | switch statement =>
    have h := places_switch hinner homes hfits status
    rwa [← hframe (by rw [hfits.frame]; rfl)] at h

theorem places_inOrder {ops : List Operation} (hfits : ∀ op ∈ ops, op.Fits b s)
    (hframes : ∀ {c}, (b.kindOf c).isFrame → b.operations c = []) (status : Status) :
    Places (inOrder b homes inner s ops status)
      (b.labelsIn depth (ops.flatMap Operation.owned)) := by
  induction ops generalizing status with
  | nil => exact .nil
  | cons op ops ih =>
    have h := (places_operation hinner homes (hfits op (.head ..)) hframes status).append
      (ih (fun o ho => hfits o (.tail _ ho)) (after b homes status op))
    rwa [← labelsIn_append] at h

end

end scopes

/-- By induction on the depth, a scope places its labels and those of the scopes in it. -/
theorem places_operations {b : Body} {homes : Array Home} (hb : b.Sound) (depth s : Nat)
    (status : Status) :
    Places (operations b homes depth s status) ((b.scopesIn depth s).flatMap b.labelsOf) := by
  induction depth generalizing s status with
  | zero => exact .nil
  | succ depth ih =>
    exact places_inOrder ih homes (fun op hop => hb.fits hop) hb.frames status

end Plot

/-! ## Labels of bodies -/

namespace Body

variable {b : Body} {s t : Nat} {l : Label}

theorem labelsOf_bounds (hb : b.Sound) {sc : Scope} (hs : b.scopes[s]? = some sc)
    (hl : l ∈ b.labelsOf s) : sc.entry.index ≤ l.index ∧
      l.index < sc.entry.index + (if sc.kind = .loop then 3 else 2) := by
  have hkind : b.kindOf s = sc.kind := by rw [kindOf, hs]
  have hentry : entryOf b s = sc.entry := by rw [entryOf, hs]
  have hexit : exitOf b s = sc.exit := by rw [exitOf, hs]
  have hagain : againOf b s = sc.again := by rw [againOf, hs]
  have hexit' := hb.labels.exit hs
  have hagain' := hb.labels.again hs
  rw [labelsOf, hkind, hentry, hexit, hagain] at hl
  by_cases hloop : sc.kind = .loop
  · rw [if_pos hloop] at hl hagain' ⊢
    rcases mem_cons.mp hl with rfl | hl
    · omega
    rcases mem_cons.mp hl with rfl | hl
    · omega
    · rw [mem_singleton.mp hl]
      omega
  · rw [if_neg hloop] at hl ⊢
    rcases mem_cons.mp hl with rfl | hl
    · omega
    · rw [mem_singleton.mp hl]
      omega

section

variable (hb : b.Sound) (hs : s < b.scopes.size)
include hb hs

theorem labelsOf_lt (hl : l ∈ b.labelsOf s) :
    l.index < b.nextLabel := by
  have hsc := Array.getElem?_eq_getElem hs
  have hbounds := labelsOf_bounds hb hsc hl
  have hbound := hb.labels.bound hsc
  omega

theorem labelsOf_unique (ht : t < b.scopes.size)
    (hl : l ∈ b.labelsOf s) (hl' : l ∈ b.labelsOf t) : s = t := by
  have hsc := Array.getElem?_eq_getElem hs
  have htc := Array.getElem?_eq_getElem ht
  have hbounds := labelsOf_bounds hb hsc hl
  have hbounds' := labelsOf_bounds hb htc hl'
  rcases Nat.lt_trichotomy s t with hlt | heq | hgt
  · have happart := hb.labels.apart hsc htc hlt
    omega
  · exact heq
  · have happart := hb.labels.apart htc hsc hgt
    omega

theorem labelsOf_nodup : (b.labelsOf s).Nodup := by
  have hsc := Array.getElem?_eq_getElem hs
  have hentry : entryOf b s = b.scopes[s].entry := by rw [entryOf, hsc]
  have hexit : exitOf b s = b.scopes[s].exit := by rw [exitOf, hsc]
  have hagain : againOf b s = b.scopes[s].again := by rw [againOf, hsc]
  have hkind : b.kindOf s = b.scopes[s].kind := by rw [kindOf, hsc]
  have hexit' := hb.labels.exit hsc
  have hagain' := hb.labels.again hsc
  have hne : ∀ {l l' : Label}, l.index ≠ l'.index → l ≠ l' := fun h heq => h (by rw [heq])
  rw [labelsOf, hentry, hexit, hagain, hkind]
  by_cases hloop : b.scopes[s].kind = .loop
  · rw [if_pos hloop] at hagain' ⊢
    simp only [nodup_cons, mem_cons, not_mem_nil, or_false, not_or,
      nodup_nil, not_false_eq_true, and_true]
    exact ⟨⟨hne (by omega), hne (by omega)⟩, hne (by omega)⟩
  · rw [if_neg hloop]
    simp only [nodup_cons, mem_cons, not_mem_nil, or_false,
      nodup_nil, not_false_eq_true, and_true]
    exact hne (by omega)

end

theorem inside_of_mem_scopesIn {depth c : Nat} (h : c ∈ b.scopesIn depth s) : b.Inside s c := by
  induction depth generalizing s with
  | zero => cases h
  | succ depth ih =>
    obtain ⟨d, hd, hc⟩ := mem_flatMap.mp h
    rcases mem_cons.mp hc with rfl | hc
    · exact ⟨s, .refl, hd⟩
    · exact .of_owned hd (ih hc).region

def Apart (b : Body) (scopes : List Nat) : Prop :=
  (∀ c ∈ scopes, c < b.scopes.size) ∧
    scopes.Pairwise fun c d => ∀ x, b.Region c x → ¬ b.Region d x

variable {scopes : List Nat}

theorem apart_owned (hb : b.Sound) (h : scopes.Sublist (b.owned s)) : b.Apart scopes := by
  refine ⟨fun c hc => hb.owned_lt (h.subset hc), ?_⟩
  have hnodup : scopes.Nodup := (hb.owned_nodup s).sublist h
  refine hnodup.imp_of_mem fun hc hd hne x hcx hdx => ?_
  exact hne (region_unique hb (h.subset hc) (h.subset hd) hcx hdx)

theorem scopesIn_nodup (hb : b.Sound) (depth : Nat) (h : b.Apart scopes) :
    (scopes.flatMap fun c => c :: b.scopesIn depth c).Nodup := by
  have hregion : ∀ {depth c x}, x ∈ c :: b.scopesIn depth c → b.Region c x := by
    intro depth c x hx
    rcases mem_cons.mp hx with rfl | hx
    · exact .refl
    · exact (inside_of_mem_scopesIn hx).region
  have hself : ∀ {depth c}, c ∉ b.scopesIn depth c := fun hc =>
    absurd ((inside_of_mem_scopesIn hc).lt hb) (Nat.lt_irrefl _)
  induction depth generalizing scopes with
  | zero =>
    refine pairwise_flatMap.mpr ⟨fun c _ => pairwise_singleton _ _, ?_⟩
    refine h.2.imp fun {c d} hcd x hx y hy => ?_
    rintro rfl
    exact hcd x (hregion hx) (hregion hy)
  | succ depth ih =>
    refine pairwise_flatMap.mpr ⟨fun c _ => ?_, ?_⟩
    · exact nodup_cons.mpr ⟨hself, ih (apart_owned hb (List.Sublist.refl _))⟩
    · refine h.2.imp fun {c d} hcd x hx y hy => ?_
      rintro rfl
      exact hcd x (hregion hx) (hregion hy)

theorem mem_labelsIn {depth : Nat} (hl : l ∈ b.labelsIn depth scopes) :
    ∃ c ∈ scopes, ∃ d, b.Region c d ∧ l ∈ b.labelsOf d := by
  obtain ⟨d, hd, hl⟩ := mem_flatMap.mp hl
  obtain ⟨c, hc, hd⟩ := mem_flatMap.mp hd
  rcases mem_cons.mp hd with rfl | hd
  · exact ⟨d, hc, d, .refl, hl⟩
  · exact ⟨c, hc, d, (inside_of_mem_scopesIn hd).region, hl⟩

/-- All scopes whose regions have nothing in common have labels of their own. -/
theorem labelsIn_nodup (hb : b.Sound) (depth : Nat) (h : b.Apart scopes) :
    (b.labelsIn depth scopes).Nodup := by
  have hlt : ∀ d ∈ scopes.flatMap (fun c => c :: b.scopesIn depth c), d < b.scopes.size := by
    intro d hd
    obtain ⟨c, hc, hd⟩ := mem_flatMap.mp hd
    rcases mem_cons.mp hd with rfl | hd
    · exact h.1 d hc
    · exact (inside_of_mem_scopesIn hd).region.lt_size hb (h.1 c hc)
  refine pairwise_flatMap.mpr ⟨fun d hd => labelsOf_nodup hb (hlt d hd), ?_⟩
  refine (scopesIn_nodup hb depth h).imp_of_mem fun hd he hne l hl l' hl' heq => ?_
  subst heq
  exact hne (labelsOf_unique hb (hlt _ hd) (hlt _ he) hl hl')

theorem labelsIn_lt (hb : b.Sound) {depth : Nat} (h : b.Apart scopes)
    (hl : l ∈ b.labelsIn depth scopes) : l.index < b.nextLabel := by
  obtain ⟨c, hc, d, hd, hl⟩ := mem_labelsIn hl
  exact labelsOf_lt hb (hd.lt_size hb (h.1 c hc)) hl

end Body

namespace Plot.Places

variable {b : Body} {p : Plot} {depth n : Nat} {scopes : List Nat} {l : Label}

theorem mem_placed_iff {own : List Label} (hp : Places p own) :
    l ∈ placed (p n).points ↔ l ∈ own ∨ (n ≤ l.index ∧ l.index < (p n).next) := by
  rw [← count_pos_iff, ← count_pos_iff, (hp n).2 l, between]
  split
  · rename_i h
    exact ⟨fun _ => .inr h, fun _ => Nat.lt_of_lt_of_le Nat.zero_lt_one (Nat.le_add_left ..)⟩
  · rename_i h
    rw [Nat.add_zero]
    exact ⟨.inl, fun h' => h'.resolve_right h⟩

theorem nodup (hb : b.Sound) (h : b.Apart scopes) (hp : Places p (b.labelsIn depth scopes))
    (hn : b.nextLabel ≤ n) : (placed (p n).points).Nodup := by
  refine nodup_iff_count.mpr fun l => ?_
  rw [(hp n).2 l, between]
  have hone := nodup_iff_count.mp (labelsIn_nodup hb depth h) l
  split
  · rename_i hbetween
    have hzero : (b.labelsIn depth scopes).count l = 0 := count_eq_zero.mpr fun hl => by
      have hlt := labelsIn_lt hb h hl
      omega
    omega
  · exact hone

end Plot.Places
end ClassAssembler
