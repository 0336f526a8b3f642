import ClassAssembler.Proofs.Layout.Finds
import ClassAssembler.Proofs.Layout.Jumps

/-!
# Views

A view says what is known at a point of a plot: the widths of the values on the stack, the result
that was yielded if nothing was executed since, and the values that are in their slots.
-/

namespace ClassAssembler

open List

/-- What is known at a point. -/
structure View where
  stack : List Nat
  /-- The value that was yielded last, if nothing was executed since. -/
  top : Option Nat
  kept : List Nat

def Status.view (status : Status) : View :=
  ⟨status.stack.map Cell.words, status.stack.head?.bind Cell.tag, status.kept⟩

namespace View

def pop (σ : View) (n : Nat) : View := ⟨σ.stack.drop n, none, σ.kept⟩

/-- One view is as good as another. -/
structure Suits (voids : Prop) (σ τ : View) : Prop where
  stack : voids → σ.stack = τ.stack
  top : ∀ v, τ.top = some v → σ.top = some v
  kept : τ.kept ⊆ σ.kept

variable {voids : Prop} {σ τ ρ : View}

theorem Suits.refl (σ : View) : Suits voids σ σ := ⟨fun _ => rfl, fun _ h => h, fun _ h => h⟩

theorem Suits.trans (h : Suits voids σ τ) (h' : Suits voids τ ρ) : Suits voids σ ρ :=
  ⟨fun hv => (h.stack hv).trans (h'.stack hv), fun v hv => h.top v (h'.top v hv),
    fun _ hv => h.kept (h'.kept hv)⟩

theorem Suits.plain {ws kept : List Nat} (hstack : voids → σ.stack = ws) (hkept : kept ⊆ σ.kept) :
    Suits voids σ ⟨ws, none, kept⟩ :=
  ⟨hstack, fun _ h => (by cases h), hkept⟩

end View

namespace Plot

inductive Move (b : Body) (homes : Array Home) (ψ : Label → Option Status) (voids : Prop) :
    View → Point → View → Prop
  | label {σ : View} {l : Label} {status : Status} : σ.Suits voids status.view →
      Move b homes ψ voids σ (.label l (some status)) status.view
  | border {σ : View} {l : Label} : Move b homes ψ voids σ (.label l none) σ
  | plain {σ : View} {i : Instruction} {site : Site} {ws : List Nat} : i.localAccess? = none →
      (voids → i.reshape σ.stack = some ws) →
      Move b homes ψ voids σ (.insn i .plain site) ⟨ws, none, σ.kept⟩
  | load {σ : View} {v k : Nat} {site : Site} : v ∈ σ.kept → Lay.homeOf homes v = .slot k →
      Move b homes ψ voids σ
        (.insn ((Lay.typeOf b v).load (UInt16.ofNat k)) (.load v) site)
        ⟨b.widthOf v :: σ.stack, none, σ.kept⟩
  | store {σ : View} {v k w : Nat} {ws : List Nat} {site : Site} : Lay.homeOf homes v = .slot k →
      (voids → σ.stack = w :: ws) → b.Alone homes σ.kept v →
      (b.HasOrigin v .result → σ.top = some v) →
      Move b homes ψ voids σ
        (.insn ((Lay.typeOf b v).store (UInt16.ofNat k)) (.store v) site)
        ⟨ws, none, σ.kept ++ [v]⟩
  | inc {σ : View} {v k : Nat} {delta : Int16} {site : Site} : Lay.homeOf homes v = .slot k →
      v ∈ σ.kept → b.HasOrigin v .variable → b.HasWidth v 1 → b.Alone homes σ.kept v →
      Move b homes ψ voids σ (.insn (.inc (UInt16.ofNat k) delta) (.store v) site)
        ⟨σ.stack, none, σ.kept⟩
  | branch {σ τ : View} {br : Branch} {site : Option Site} :
      (voids → br.uses ≤ σ.stack.length ∧ (br.targets = [] → σ.stack.length = br.uses)) →
      (∀ t ∈ br.targets, ∃ status, ψ t = some status ∧
        (σ.pop br.uses).Suits voids status.view) →
      (br.fallsThrough → τ = σ.pop br.uses) →
      Move b homes ψ voids σ (.branch br site) τ
  | reads {σ : View} {v : Nat} : Lay.homeOf homes v ≠ .nowhere →
      (∀ k, Lay.homeOf homes v = .slot k → v ∈ σ.kept) →
      (Lay.homeOf homes v = .stack → σ.top = some v) →
      Move b homes ψ voids σ (.reads v) σ
  | yields {σ : View} {v : Nat} : v ∉ σ.kept → (voids → σ.stack ≠ []) →
      Move b homes ψ voids σ (.yields v) ⟨σ.stack, some v, σ.kept⟩
  | protect {σ : View} {start stop handler : Label} {holes : List (Label × Label)}
      {caught : Option ClassName} {kept : List Nat} : ψ handler = some (thrown kept) →
      Move b homes ψ voids σ (.protect start stop holes handler caught) σ

/-- Points one after another, each with what is known before it. -/
inductive Steps (b : Body) (homes : Array Home) (ψ : Label → Option Status) (voids : Prop) :
    View → List (View × Point) → View → Prop
  | nil {σ τ : View} : σ.Suits voids τ → Steps b homes ψ voids σ [] τ
  | cons {σ σ1 σ2 τ : View} {p : Point} {vps : List (View × Point)} : σ.Suits voids σ1 →
      Move b homes ψ voids σ1 p σ2 → Steps b homes ψ voids σ2 vps τ →
      Steps b homes ψ voids σ ((σ1, p) :: vps) τ

/-- From where protection starts, all values stay in their slots that its handler expects there. -/
def Guarded (ψ : Label → Option Status) (before : Label → Prop) (base : List Nat)
    (vps : List (View × Point)) : Prop :=
  ∀ pre σ start stop holes handler caught post,
    vps = pre ++ (σ, .protect start stop holes handler caught) :: post →
    ∃ kept, ψ handler = some (thrown kept) ∧
      ((before start ∧ kept ⊆ base) ∨ ∃ above τ status within,
        pre = above ++ (τ, .label start status) :: within ∧ ∀ x ∈ within, kept ⊆ x.1.kept)

def Agrees (ψ : Label → Option Status) (ps : List Point) : Prop :=
  ∀ l status, .label l (some status) ∈ ps → ψ l = some status

/-- A plot leads from one view to another. All along, `base` is kept. -/
def Flows (b : Body) (homes : Array Home) (ψ : Label → Option Status) (voids : Prop)
    (before : Label → Prop) (base : List Nat) (σ : View) (p : Plot) (τ : View) : Prop :=
  ∀ n, Agrees ψ (p n).points → ∃ vps : List (View × Point), vps.map Prod.snd = (p n).points ∧
    Steps b homes ψ voids σ vps τ ∧ (∀ x ∈ vps, base ⊆ x.1.kept) ∧ Guarded ψ before base vps

section rules

variable {b : Body} {homes : Array Home} {ψ : Label → Option Status} {voids : Prop}
  {before : Label → Prop} {base : List Nat} {σ τ ρ : View} {p q : Plot}

namespace Steps

theorem suits {vps : List (View × Point)} (h : σ.Suits voids τ)
    (h' : Steps b homes ψ voids τ vps ρ) : Steps b homes ψ voids σ vps ρ := by
  cases h' with
  | nil h' => exact .nil (h.trans h')
  | cons h' hmove hrest => exact .cons (h.trans h') hmove hrest

theorem append {vps vqs : List (View × Point)} (h : Steps b homes ψ voids σ vps τ)
    (h' : Steps b homes ψ voids τ vqs ρ) : Steps b homes ψ voids σ (vps ++ vqs) ρ := by
  induction h with
  | nil h => exact h'.suits h
  | cons h hmove _ ih => exact .cons h hmove (ih h')

theorem weaken {vps : List (View × Point)} (h : Steps b homes ψ voids σ vps τ)
    (h' : τ.Suits voids ρ) : Steps b homes ψ voids σ vps ρ := by
  have happend := h.append (.nil h')
  rwa [List.append_nil] at happend

end Steps

namespace Guarded

theorem append {vps vqs : List (View × Point)} (h : Guarded ψ before base vps)
    (h' : Guarded ψ before base vqs) : Guarded ψ before base (vps ++ vqs) := by
  intro pre σ start stop holes handler caught post heq
  rcases split_append heq with ⟨mid, rfl, _⟩ | ⟨mid, rfl, hmid⟩
  · exact h _ _ _ _ _ _ _ _ rfl
  · obtain ⟨kept, hψ, hbefore | ⟨above, τ, status, within, rfl, hkept⟩⟩ :=
      h' _ _ _ _ _ _ _ _ hmid
    · exact ⟨kept, hψ, .inl hbefore⟩
    · exact ⟨kept, hψ, .inr ⟨vps ++ above, τ, status, within, by simp, hkept⟩⟩

variable {vps : List (View × Point)}

theorem of_forall
    (h : ∀ x ∈ vps, ∀ start stop holes handler caught,
      x.2 ≠ .protect start stop holes handler caught) : Guarded ψ before base vps := by
  rintro pre σ start stop holes handler caught post rfl
  exact absurd rfl (h (σ, .protect start stop holes handler caught) (by simp) _ _ _ _ _)

theorem start {l : Label}
    (h : Guarded ψ (fun l' => before l' ∨ l' = l) base vps) (hkept : ∀ x ∈ vps, base ⊆ x.1.kept)
    {status : Option Status} : Guarded ψ before base ((σ, .label l status) :: vps) := by
  intro pre σ' start stop holes handler caught post heq
  cases pre with
  | nil => cases heq
  | cons x pre =>
    obtain ⟨rfl, rfl⟩ := List.cons.inj heq
    obtain ⟨kept, hψ, ⟨hbefore, hbase⟩ | ⟨above, τ, status', within, rfl, hwithin⟩⟩ :=
      h _ _ _ _ _ _ _ _ rfl
    · refine ⟨kept, hψ, ?_⟩
      rcases hbefore with hbefore | rfl
      · exact .inl ⟨hbefore, hbase⟩
      · refine .inr ⟨[], σ, status, pre, rfl, fun x hx => ?_⟩
        exact fun v hv => hkept x (mem_append_left _ hx) (hbase hv)
    · exact ⟨kept, hψ, .inr ⟨(σ, .label l status) :: above, τ, status', within, rfl, hwithin⟩⟩

theorem mono {before' : Label → Prop} {base' : List Nat}
    (h : Guarded ψ before base vps) (hbefore : ∀ l, before l → before' l ∧ base ⊆ base') :
    Guarded ψ before' base' vps := by
  intro pre σ start stop holes handler caught post heq
  obtain ⟨kept, hψ, ⟨hstart, hbase⟩ | hin⟩ := h _ _ _ _ _ _ _ _ heq
  · obtain ⟨hstart, hsub⟩ := hbefore start hstart
    exact ⟨kept, hψ, .inl ⟨hstart, fun v hv => hsub (hbase hv)⟩⟩
  · exact ⟨kept, hψ, .inr hin⟩

end Guarded

namespace Flows

theorem append (hp : Flows b homes ψ voids before base σ p τ)
    (hq : Flows b homes ψ voids before base τ q ρ) :
    Flows b homes ψ voids before base σ (p ++ q) ρ := by
  intro n hn
  obtain ⟨vps, hvps, hsteps, hkept, hguarded⟩ := hp n fun l status hl =>
    hn l status (mem_append_left _ hl)
  obtain ⟨vqs, hvqs, hsteps', hkept', hguarded'⟩ := hq (p n).next fun l status hl =>
    hn l status (mem_append_right _ hl)
  refine ⟨vps ++ vqs, ?_, hsteps.append hsteps', forall_mem_append.mpr ⟨hkept, hkept'⟩,
    hguarded.append hguarded'⟩
  rw [List.map_append, hvps, hvqs]
  rfl

theorem nil (h : σ.Suits voids τ) : Flows b homes ψ voids before base σ nil τ :=
  fun _ _ => ⟨[], rfl, .nil h, fun _ hx => (by cases hx), .of_forall fun _ hx => by cases hx⟩

theorem weaken (hp : Flows b homes ψ voids before base σ p τ) (h : τ.Suits voids ρ) :
    Flows b homes ψ voids before base σ p ρ := by
  intro n hn
  obtain ⟨vps, hvps, hsteps, hkept, hguarded⟩ := hp n hn
  exact ⟨vps, hvps, hsteps.weaken h, hkept, hguarded⟩

theorem anywhere {base' : List Nat} (hp : Flows b homes ψ voids (fun _ => False) base' σ p τ)
    (hsub : base ⊆ base') : Flows b homes ψ voids before base σ p τ := by
  intro n hn
  obtain ⟨vps, hvps, hsteps, hkept, hguarded⟩ := hp n hn
  exact ⟨vps, hvps, hsteps, fun x hx v hv => hkept x hx (hsub hv),
    hguarded.mono fun _ h => h.elim⟩

theorem point {pt : Point} (hmove : Move b homes ψ voids σ pt τ) (hbase : base ⊆ σ.kept)
    (hpt : ∀ start stop holes handler caught, pt ≠ .protect start stop holes handler caught) :
    Flows b homes ψ voids before base σ (point pt) τ := by
  intro n _
  refine ⟨[(σ, pt)], rfl, .cons (.refl σ) hmove (.nil (.refl τ)), fun x hx => ?_,
    .of_forall fun x hx => ?_⟩
  · rw [mem_singleton.mp hx]
    exact hbase
  · rw [mem_singleton.mp hx]
    exact hpt

theorem protect {start stop handler : Label} {holes : List (Label × Label)}
    {caught : Option ClassName} {kept : List Nat} (hstart : before start)
    (hψ : ψ handler = some (thrown kept)) (hkept : kept ⊆ base) (hbase : base ⊆ σ.kept) :
    Flows b homes ψ voids before base σ
      (Plot.point (.protect start stop holes handler caught)) σ := by
  intro n _
  refine ⟨[(σ, _)], rfl, .cons (.refl σ) (.protect hψ) (.nil (.refl σ)), fun x hx => ?_, ?_⟩
  · rw [mem_singleton.mp hx]
    exact hbase
  · intro pre σ' start' stop' holes' handler' caught' post heq
    cases pre with
    | nil =>
      cases heq
      exact ⟨kept, hψ, .inl ⟨hstart, hkept⟩⟩
    | cons x pre => simp at heq

variable {l : Label} {site : Site}

theorem start (hq : Flows b homes ψ voids (fun l' => before l' ∨ l' = l) base σ q τ)
    (hbase : base ⊆ σ.kept) : Flows b homes ψ voids before base σ (border l ++ q) τ := by
  intro n hn
  obtain ⟨vqs, hvqs, hsteps, hkept, hguarded⟩ := hq n fun l status hl =>
    hn l status (mem_append_right _ hl)
  refine ⟨(σ, .label l none) :: vqs, ?_, .cons (.refl σ) .border hsteps,
    forall_mem_cons.mpr ⟨hbase, hkept⟩, hguarded.start hkept⟩
  rw [map_cons, hvqs]
  rfl

theorem mark (hole : Hole) : Flows b homes ψ voids before base σ (mark hole) σ :=
  fun _ _ => ⟨[], rfl, .nil (.refl σ), fun _ hx => (by cases hx), .of_forall
    fun _ hx => by cases hx⟩

theorem fresh {p : Label → Plot} (h : ∀ l, Flows b homes ψ voids before base σ (p l) τ) :
    Flows b homes ψ voids before base σ (fresh p) τ :=
  fun n => h ⟨n⟩ (n + 1)

theorem freshFor {α : Type} {as : List α} {p : List (Label × α) → Plot}
    (h : ∀ ls, ls.map Prod.snd = as → Flows b homes ψ voids before base σ (p ls) τ) :
    Flows b homes ψ voids before base σ (freshFor as p) τ := by
  intro n
  obtain ⟨ls, m, hls, _, heq⟩ := freshFor_apply as p n
  rw [heq]
  exact h ls hls m

theorem withHoles {id : Nat} {rest : List (Label × Label) → Plot}
    (h : ∀ hs, Flows b homes ψ voids before base σ (p ++ rest hs) τ) :
    Flows b homes ψ voids before base σ (withHoles id p rest) τ :=
  fun n => h ((p n).holesOf id) n

theorem concat {α : Type} {as : List α} {p : α → Plot}
    (h : ∀ a ∈ as, Flows b homes ψ voids before base σ (p a) σ) :
    Flows b homes ψ voids before base σ (concat (as.map p)) σ :=
  concat_of_append (P := (Flows b homes ψ voids before base σ · σ)) (nil (.refl σ)) append h

theorem concat_dead {α : Type} {as : List α} {p : α → Plot}
    (h : ∀ a ∈ as, ∀ ρ : View, base ⊆ ρ.kept → Flows b homes ψ voids before base σ (p a) ρ)
    (hσ : base ⊆ σ.kept) (hτ : base ⊆ τ.kept) :
    Flows b homes ψ voids before base (if as = [] then τ else σ) (Plot.concat (as.map p)) τ := by
  induction as with
  | nil => exact nil (.refl τ)
  | cons a as ih =>
    rw [if_neg (cons_ne_nil a as)]
    refine (h a (.head ..) _ ?_).append (ih fun x hx => h x (.tail _ hx))
    split
    · exact hτ
    · exact hσ

theorem place {status : Status} (h : σ.Suits voids status.view) (hbase : base ⊆ σ.kept) :
    Flows b homes ψ voids before base σ (place l status) status.view :=
  point (.label h) hbase fun _ _ _ _ _ h => by cases h

theorem border (hbase : base ⊆ σ.kept) : Flows b homes ψ voids before base σ (border l) σ :=
  point .border hbase fun _ _ _ _ _ h => by cases h

theorem insn {i : Instruction} {ws : List Nat} (hi : i.localAccess? = none)
    (hact : voids → i.reshape σ.stack = some ws) (hbase : base ⊆ σ.kept) :
    Flows b homes ψ voids before base σ (insn site i) ⟨ws, none, σ.kept⟩ :=
  point (.plain hi hact) hbase fun _ _ _ _ _ h => by cases h

theorem insns {is : List Instruction} {ws : List Nat} (hquiet : Instruction.Quiet is)
    (hact : voids → Instruction.reshapeAll is σ.stack = some ws) (hbase : base ⊆ σ.kept) :
    Flows b homes ψ voids before base σ (insns site is) ⟨ws, none, σ.kept⟩ := by
  induction is generalizing σ with
  | nil => exact nil ⟨fun hv => Option.some.inj (hact hv), fun _ h => (by cases h), fun _ h => h⟩
  | cons i is ih =>
    by_cases hv : voids
    · cases hi : i.reshape σ.stack with
      | none =>
        have h := hact hv
        rw [Instruction.reshapeAll, hi] at h
        cases h
      | some ws' =>
        refine (insn (hquiet i (.head ..)) (fun _ => hi) hbase).append ?_
        refine ih (fun j hj => hquiet j (.tail _ hj)) (fun hv => ?_) hbase
        have h := hact hv
        rwa [Instruction.reshapeAll, hi] at h
    · have hfirst : Flows b homes ψ voids before base σ (Plot.insn site i) ⟨ws, none, σ.kept⟩ :=
        insn (hquiet i (.head ..)) (fun h => absurd h hv) hbase
      refine hfirst.append ?_
      exact ih (fun j hj => hquiet j (.tail _ hj)) (fun h => absurd h hv) hbase

theorem branch {br : Branch}
    (huses : voids → br.uses ≤ σ.stack.length ∧ (br.targets = [] → σ.stack.length = br.uses))
    (htargets : ∀ t ∈ br.targets, ∃ status, ψ t = some status ∧
      (σ.pop br.uses).Suits voids status.view)
    (hfalls : br.fallsThrough → τ = σ.pop br.uses) (hbase : base ⊆ σ.kept) :
    Flows b homes ψ voids before base σ (branch site br) τ :=
  point (.branch huses htargets hfalls) hbase fun _ _ _ _ _ h => by cases h

end Flows

def Puts (p : Plot) (l : Label) (status : Status) : Prop :=
  ∀ n, .label l (some status) ∈ (p n).points

namespace Puts

variable {l : Label} {status : Status}

theorem place (l : Label) (status : Status) : Puts (place l status) l status :=
  fun _ => .head _

theorem left (h : Puts p l status) : Puts (p ++ q) l status :=
  fun n => mem_append_left _ (h n)

theorem right (h : Puts q l status) : Puts (p ++ q) l status :=
  fun _ => mem_append_right _ (h _)

theorem fresh {p : Label → Plot} (h : ∀ x, Puts (p x) l status) : Puts (fresh p) l status :=
  fun n => h ⟨n⟩ (n + 1)

theorem withHoles {id : Nat} {rest : List (Label × Label) → Plot}
    (h : ∀ hs, Puts (p ++ rest hs) l status) : Puts (withHoles id p rest) l status :=
  fun n => h ((p n).holesOf id) n

theorem concat {α : Type} {as : List α} {p : α → Plot} {a : α} (ha : a ∈ as)
    (h : Puts (p a) l status) : Puts (concat (as.map p)) l status :=
  concat_of_mem (P := (Puts · l status)) left right ha h

end Puts

theorem Flows.of_puts {l : Label} {status : Status} (hputs : Puts p l status)
    (h : ψ l = some status → Flows b homes ψ voids before base σ p τ) :
    Flows b homes ψ voids before base σ p τ :=
  fun n hn => h (hn l status (hputs n)) n hn

theorem Flows.of_all_puts {α : Type} {as : List α} {l : α → Label} {status : Status}
    (hputs : ∀ a ∈ as, Puts p (l a) status)
    (h : (∀ a ∈ as, ψ (l a) = some status) → Flows b homes ψ voids before base σ p τ) :
    Flows b homes ψ voids before base σ p τ :=
  fun n hn => h (fun a ha => hn (l a) status (hputs a ha n)) n hn

end rules
end Plot
end ClassAssembler
