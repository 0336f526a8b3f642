import ClassAssembler.Proofs.Layout.Jumps
import ClassAssembler.Proofs.Layout.Lexical

/-!
# Scripts

A script is the plot of a part of a body with marks in it.
-/

namespace ClassAssembler

open List Plot Lay

inductive Mark where
  | begins (scope index : Nat)
  | decides
  | ends (scope index : Nat)

inductive Line (α : Type) where
  | mark (mark : Mark)
  | item (item : α)

def Line.item? {α : Type} : Line α → Option α
  | mark _ => none
  | item a => some a

/-- A part of a layout with marks. -/
structure Strip where
  lines : List (Line Point)
  next : Nat

def Script := Nat → Strip

namespace Script

def nil : Script := fun n => ⟨[], n⟩

def append (s s' : Script) : Script := fun n =>
  ⟨(s n).lines ++ (s' (s n).next).lines, (s' (s n).next).next⟩

instance : Append Script := ⟨append⟩

theorem append_apply (s s' : Script) (n : Nat) : (s ++ s') n =
    ⟨(s n).lines ++ (s' (s n).next).lines, (s' (s n).next).next⟩ := rfl

def concat : List Script → Script
  | [] => nil
  | s :: ss => s ++ concat ss

def mark (m : Mark) : Script := fun n => ⟨[.mark m], n⟩

def lift (p : Plot) : Script := fun n => ⟨(p n).points.map .item, (p n).next⟩

def fresh (s : Label → Script) : Script := fun n => s ⟨n⟩ (n + 1)

def freshFor {α : Type} : List α → (List (Label × α) → Script) → Script
  | [], s => s []
  | a :: as, s => fresh fun l => freshFor as fun rest => s ((l, a) :: rest)

theorem freshFor_apply {α : Type} (as : List α) (s : List (Label × α) → Script) (n : Nat) :
    ∃ ls m, ls.map Prod.snd = as ∧ freshFor as s n = s ls m := by
  induction as generalizing s n with
  | nil => exact ⟨[], n, rfl, rfl⟩
  | cons a as ih =>
    obtain ⟨ls, m, hsnd, heq⟩ := ih (fun rest => s ((⟨n⟩, a) :: rest)) (n + 1)
    exact ⟨(⟨n⟩, a) :: ls, m, by rw [map_cons, hsnd], heq⟩

def deciding (lead rest : Plot) : Script := lift lead ++ mark .decides ++ lift rest

section operations

variable (b : Body) (homes : Array Home)

abbrev Inner := Nat → Status → Script

def enclosed (inner : Inner) (scope : Nat) (status : Status) : Script :=
  lift (place (entryOf b scope) status) ++ inner scope status ++
    lift (place (exitOf b scope) ⟨[], status.kept⟩)

def exit (final : Script) : Script :=
  fresh fun start => fresh fun stop =>
    lift (border start) ++ final ++ lift (border stop)

def dispatch (site : Site) (kept : List Nat) (S : SwitchStatement) : Script :=
  let fallback := fallback b S
  match S.kind with
  | .int =>
      let targets := intTargets b (fun | .int n => some n | _ => none) S.arms
      deciding (Plot.load b homes site S.selector)
        (Plot.branch site (intSwitch targets fallback false))
  | .enum type accessor =>
      let targets := intTargets b (fun | .index n => some n | _ => none) S.arms
      deciding
        (Plot.insn site (.invoke .static accessor) ++ Plot.load b homes site S.selector ++
          Plot.insn site (.invoke .virtual (.enumOrdinal type)) ++
          Plot.insn site (.arrayLoad (.of (.num .int))))
        (Plot.branch site (intSwitch targets fallback true))
  | .string =>
      freshFor (buckets b S.arms) fun buckets =>
        deciding (Plot.load b homes site S.selector)
          (Plot.insn site (.invoke .virtual .stringHashCode) ++
            Plot.branch site (.lookupSwitch fallback
              (buckets.map fun (label, hash, _) => (hash, label))) ++
            Plot.concat (buckets.map fun (label, _, texts) =>
              Plot.place label ⟨[], kept⟩ ++ Plot.textTests b homes site S.selector texts ++
                Plot.goto site fallback))

def arm (inner : Inner) (scope : Nat) (kept : List Nat) (S : SwitchStatement) (arm : Arm) :
    Script :=
  enclosed b inner arm.scope ⟨[], kept⟩ ++
    lift (if S.fallthrough then Plot.nil else Plot.goto ⟨scope, none⟩ (exitOf b S.frame))

def switch (inner : Inner) (scope : Nat) (status : Status) (S : SwitchStatement) : Script :=
  lift (place (entryOf b S.frame) status) ++ dispatch b homes ⟨scope, none⟩ status.kept S ++
    concat (S.arms.map (arm b inner scope status.kept S)) ++
    lift (place (exitOf b S.frame) ⟨[], status.kept⟩)

def operation (inner : Inner) (scope index : Nat) (status : Status) : Operation → Script
  | .simple act operands result =>
      mark (.begins scope index) ++
        lift (simple b homes ⟨scope, none⟩ status.kept act operands result)
  | .block nested => enclosed b inner nested status
  | .branch cond whenTrue none =>
      deciding (load b homes ⟨scope, none⟩ cond)
          (branch ⟨scope, none⟩ (.jumpIf (.zero .eq) (exitOf b whenTrue))) ++
        enclosed b inner whenTrue ⟨[], status.kept⟩
  | .branch cond whenTrue (some whenFalse) =>
      deciding (load b homes ⟨scope, none⟩ cond)
          (branch ⟨scope, none⟩ (.jumpIf (.zero .ne) (entryOf b whenTrue))) ++
        enclosed b inner whenFalse ⟨[], status.kept⟩ ++
        lift (goto ⟨scope, none⟩ (exitOf b whenTrue)) ++
        enclosed b inner whenTrue ⟨[], status.kept⟩
  | .loop nested update =>
      lift (place (entryOf b nested) status) ++ inner nested status ++
        lift (place (againOf b nested) ⟨[], status.kept⟩) ++
        concat (update.toList.map fun scope => enclosed b inner scope ⟨[], status.kept⟩) ++
        lift (goto ⟨scope, none⟩ (entryOf b nested)) ++
        lift (place (exitOf b nested) ⟨[], status.kept⟩)
  | .exitUnless cond target =>
      deciding (load b homes ⟨scope, none⟩ cond)
        (branch ⟨scope, none⟩ (.jumpIf (.zero .eq) (exitOf b target)))
  | .jump kind target _ =>
      exit <| lift <| goto ⟨scope, some (some target)⟩ <| match kind with
        | .leave => exitOf b target
        | .again => againOf b target
  | .ret value _ =>
      exit <| mark (.ends scope index) ++
        lift (loads b homes ⟨scope, some none⟩ value.toList ++
          branch ⟨scope, some none⟩ (.returning b.method.type.returns))
  | .throw value =>
      mark (.ends scope index) ++
        lift (load b homes ⟨scope, none⟩ value ++ branch ⟨scope, none⟩ .throw)
  | .tryCatch _ => nil
  | .switch S => switch b homes inner scope status S

def inOrder (inner : Inner) (scope : Nat) : Nat → List Operation → Status → Script
  | _, [], _ => nil
  | index, op :: rest, status =>
      operation b homes inner scope index status op ++
        inOrder inner scope (index + 1) rest (after b homes status op)

def operations : (depth : Nat) → Inner
  | 0, _, _ => nil
  | depth + 1, scope, status =>
      inOrder b homes (operations depth) scope 0 (b.operations scope) status

end operations

/-- Without its marks a script is a plot. -/
def Shows (s : Script) (p : Plot) : Prop :=
  ∀ n, (s n).lines.filterMap Line.item? = (p n).points ∧ (s n).next = (p n).next

namespace Shows

variable {s s' : Script} {p q : Plot}

theorem nil : Shows nil Plot.nil := fun _ => ⟨rfl, rfl⟩

theorem lift (p : Plot) : Shows (lift p) p := by
  intro n
  refine ⟨?_, rfl⟩
  show ((p n).points.map Line.item).filterMap Line.item? = _
  rw [filterMap_map]
  exact filterMap_some

theorem append (h : Shows s p) (h' : Shows s' q) : Shows (s ++ s') (p ++ q) := by
  intro n
  obtain ⟨hlines, hnext⟩ := h n
  obtain ⟨hlines', hnext'⟩ := h' (p n).next
  rw [append_apply, Plot.append_apply, filterMap_append, hlines, hnext]
  exact ⟨by rw [hlines'], hnext'⟩

theorem mark_append (h : Shows s p) (m : Mark) : Shows (mark m ++ s) p := fun n => h n

theorem append_mark (h : Shows s p) (m : Mark) : Shows (s ++ mark m) p := by
  intro n
  obtain ⟨hlines, hnext⟩ := h n
  rw [append_apply, filterMap_append, hlines]
  exact ⟨List.append_nil _, hnext⟩

theorem deciding (lead rest : Plot) : Shows (deciding lead rest) (lead ++ rest) :=
  ((lift lead).append_mark .decides).append (lift rest)

theorem fresh {s : Label → Script} {p : Label → Plot} (h : ∀ l, Shows (s l) (p l)) :
    Shows (fresh s) (Plot.fresh p) := fun n => h ⟨n⟩ (n + 1)

theorem freshFor {α : Type} {as : List α} {s : List (Label × α) → Script}
    {p : List (Label × α) → Plot} (h : ∀ ls, Shows (s ls) (p ls)) :
    Shows (freshFor as s) (Plot.freshFor as p) := by
  induction as generalizing s p with
  | nil => exact h []
  | cons a as ih => exact fresh fun l => ih fun rest => h ((l, a) :: rest)

theorem concat {α : Type} {as : List α} {s : α → Script} {p : α → Plot}
    (h : ∀ a ∈ as, Shows (s a) (p a)) : Shows (concat (as.map s)) (Plot.concat (as.map p)) := by
  induction as with
  | nil => exact nil
  | cons a as ih =>
    exact (h a mem_cons_self).append (ih fun a' ha' => h a' (.tail _ ha'))

end Shows
end Script

def Operation.Untried : Operation → Prop
  | .jump _ _ cleanups | .ret _ cleanups => cleanups = []
  | .tryCatch _ => False
  | _ => True

namespace Script

variable {b : Body} {homes : Array Home} {inner : Inner} {inner' : Plot.Inner}

theorem shows_enclosed {c : Nat} (h : ∀ status, Shows (inner c status) (inner' c status))
    (status : Status) : Shows (enclosed b inner c status) (Plot.enclosed b inner' c status) :=
  ((Shows.lift _).append (h status)).append (.lift _)

theorem shows_exit {final : Script} {p : Plot} (h : Shows final p) (status : Status) :
    Shows (exit final) (Plot.exit b inner' status [] p) := by
  intro n
  obtain ⟨hlines, hnext⟩ := Shows.fresh (fun start => Shows.fresh fun stop =>
    ((Shows.lift (border start)).append h).append (.lift (border stop))) n
  refine ⟨hlines.trans ?_, hnext⟩
  show _ = [] ++ (_ ++ [])
  rw [List.nil_append, List.append_nil]
  rfl

theorem shows_dispatch (site : Site) (kept : List Nat) (S : SwitchStatement) :
    Shows (dispatch b homes site kept S) (Plot.dispatch b homes site kept S) := by
  unfold dispatch Plot.dispatch
  cases S.kind with
  | int => exact .deciding _ _
  | enum type accessor => exact .deciding _ _
  | string =>
    refine .freshFor fun ls => ?_
    have hassoc : ∀ p q r t : Plot, p ++ q ++ r ++ t = p ++ (q ++ r ++ t) := fun p q r t => by
      rw [Plot.append_assoc p q r, Plot.append_assoc p]
    rw [hassoc]
    exact .deciding _ _

theorem shows_switch {S : SwitchStatement}
    (h : ∀ arm ∈ S.arms, ∀ status, Shows (inner arm.scope status) (inner' arm.scope status))
    (scope : Nat) (status : Status) :
    Shows (switch b homes inner scope status S) (Plot.switch b homes inner' scope status S) := by
  refine ((((Shows.lift _).append (shows_dispatch _ _ S)).append
    (.concat fun arm harm => ?_)).append (.lift _))
  exact (shows_enclosed (h arm harm) _).append (.lift _)

theorem shows_operation {op : Operation} (hop : op.Untried)
    (h : ∀ c ∈ op.nested, ∀ status, Shows (inner c status) (inner' c status))
    (scope index : Nat) (status : Status) :
    Shows (operation b homes inner scope index status op)
      (Plot.operation b homes inner' scope status op) := by
  have henclosed : ∀ c ∈ op.nested, ∀ status,
      Shows (enclosed b inner c status) (Plot.enclosed b inner' c status) :=
    fun c hc => shows_enclosed (h c hc)
  cases op with
  | simple act operands result => exact (Shows.lift _).mark_append _
  | block nested => exact henclosed nested (.head _) _
  | branch cond whenTrue whenFalse =>
    cases whenFalse with
    | none => exact (Shows.deciding _ _).append (henclosed whenTrue (.head _) _)
    | some whenFalse =>
      have hfalse := henclosed whenFalse mem_cons_self
      have htrue := henclosed whenTrue (.tail _ (.head _))
      exact ((((Shows.deciding _ _).append (hfalse _)).append (.lift _)).append (htrue _))
  | loop nested update =>
    refine ((((((Shows.lift _).append (h nested mem_cons_self _)).append (.lift _)).append
      (.concat fun c hc => ?_)).append (.lift _)).append (.lift _))
    exact henclosed c (.tail _ hc) _
  | exitUnless cond target => exact .deciding _ _
  | jump kind target cleanups =>
    cases hop
    exact shows_exit (.lift _) status
  | ret value cleanups =>
    cases hop
    exact shows_exit ((Shows.lift _).mark_append _) status
  | throw value => exact (Shows.lift _).mark_append _
  | tryCatch T => cases hop
  | switch S =>
    exact shows_switch (fun arm harm => h arm.scope (mem_map_of_mem harm)) scope status

theorem shows_inOrder {ops : List Operation} (hops : ∀ op ∈ ops, op.Untried)
    (h : ∀ op ∈ ops, ∀ c ∈ op.nested, ∀ status, Shows (inner c status) (inner' c status))
    (scope index : Nat) (status : Status) :
    Shows (inOrder b homes inner scope index ops status)
      (Plot.inOrder b homes inner' scope ops status) := by
  induction ops generalizing index status with
  | nil => exact .nil
  | cons op ops ih =>
    exact (shows_operation (hops op mem_cons_self) (h op mem_cons_self) scope index
      status).append (ih (fun op' hop' => hops op' (.tail _ hop'))
        (fun op' hop' => h op' (.tail _ hop')) _ _)

end Script

namespace Body

variable {b : Body} {homes : Array Home}

def Untried (b : Body) : Prop := ∀ s, b.Region 0 s → ∀ op ∈ b.operations s, op.Untried

theorem exists_tryCatch (hb : b.Sound) {s c : Nat} {op : Operation} (hop : op ∈ b.operations s)
    (hc : c ∈ op.owned) (hkind : b.kindOf c = .tryFrame) : ∃ T, op = .tryCatch T := by
  have hchild : ∀ {p}, ¬ b.Child p c := fun h => by
    have hplain := h.2.1
    rw [hkind] at hplain
    cases hplain
  cases held_of_fits (hb.fits hop) hc with
  | tryFrame | part | copy => exact ⟨_, rfl⟩
  | child h | arm _ h => exact absurd h hchild
  | looped _ hk | update _ _ _ hk => cases hkind.symm.trans hk
  | exit _ h => cases hkind.symm.trans h.kind
  | switchFrame h => cases hkind.symm.trans h.frame

theorem untried (hb : b.Sound) (h : ∀ s, b.Region 0 s → ∀ T, .tryCatch T ∉ b.operations s) :
    b.Untried := by
  intro s hs op hop
  have hguards : ∀ f, ¬ b.Guards f s := by
    intro f hg
    have hkind := hg.1
    rcases Region.within hb hs hg.within with hf | hf
    · cases hf with
      | refl =>
        rw [hb.root] at hkind
        cases hkind
      | step ht hf =>
        obtain ⟨op, hop, hf⟩ := mem_flatMap.mp hf
        obtain ⟨T, rfl⟩ := exists_tryCatch hb hop hf hkind
        exact h _ ht T hop
    · rw [Nat.eq_zero_of_le_zero (hf.le hb.descends), hb.root] at hkind
      cases hkind
  have hnil : ∀ {destination cleanups}, b.ExitFits s destination cleanups → cleanups = [] := by
    intro destination cleanups hfits
    refine eq_nil_iff_forall_not_mem.mpr fun cleanup hcleanup => ?_
    obtain ⟨f, _, hg, _⟩ := hfits.each cleanup hcleanup
    exact hguards f hg
  have hfits := hb.fits hop
  cases op with
  | jump kind target cleanups => exact hnil hfits.2.2
  | ret value cleanups => exact hnil hfits.2
  | tryCatch T => exact h s hs T hop
  | _ => exact trivial

def script (b : Body) (homes : Array Home) : List (Line Point) :=
  (Script.enclosed b (Script.operations b homes b.scopes.size) 0 ⟨[], b.params⟩ b.nextLabel).lines

theorem shows_operations (hb : b.Untried) (depth : Nat) {s : Nat} (hs : b.Region 0 s)
    (status : Status) :
    Script.Shows (Script.operations b homes depth s status)
      (Plot.operations b homes depth s status) := by
  induction depth generalizing s status with
  | zero => exact .nil
  | succ depth ih =>
    exact Script.shows_inOrder (hb s hs) (fun op hop c hc status =>
      ih (.step hs (mem_owned hop (mem_owned_of_nested hc))) status) s 0 status

theorem items_script (hb : b.Untried) : (b.script homes).filterMap Line.item? = b.points homes :=
  (Script.shows_enclosed (shows_operations hb b.scopes.size .refl) _ b.nextLabel).1

end Body
end ClassAssembler
