import ClassAssembler.Proofs.Build.Constructs
import ClassAssembler.Proofs.Build.Tending

/-!
# Programs that end well

A program of builder calls that ends well leaves every scope it opened with an operation, closes
every try statement it opened, and has noted each run of a finally block.
-/

namespace ClassAssembler
namespace Build

variable {σ τ α β : Type}

def Succeeds (I : Work τ → Prop) (m : Build τ α) (J : α → Work τ → Prop) : Prop :=
  ∀ w a w', I w → m w = .ok a w' → J a w'

namespace Succeeds

variable {I : Work τ → Prop}

variable {m : Build τ α} {J : α → Work τ → Prop}

theorem bind {f : α → Build τ β} {K : β → Work τ → Prop}
    (hm : Succeeds I m J) (hf : ∀ a, Succeeds (J a) (f a) K) : Succeeds I (m >>= f) K := by
  intro w x w'' hI hrun
  obtain ⟨a, w', hr, hrun⟩ := bind_eq_ok hrun
  exact hf a w' x w'' (hm w a w' hI hr) hrun

theorem pure (a : α) (h : ∀ w, I w → J a w) : Succeeds I (pure a : Build τ α) J := by
  intro w x w' hI hrun
  cases hrun
  exact h w hI

theorem fail (e : Fault) : Succeeds I (fail e : Build τ α) J := by
  intro w x w' _ hrun
  cases hrun

theorem fail_bind {J : β → Work τ → Prop} (e : Fault) (f : α → Build τ β) :
    Succeeds I (Build.fail e >>= f) J := by
  intro w x w' _ hrun
  cases hrun

theorem weaken {I' : Work τ → Prop} {J J' : α → Work τ → Prop}
    (hm : Succeeds I m J) (hI : ∀ w, I' w → I w) (hJ : ∀ a w, J a w → J' a w) :
    Succeeds I' m J' := fun w a w' hw hr => hJ a w' (hm w a w' (hI w hw) hr)

theorem frame {q : Prop} (hm : Succeeds I m J) :
    Succeeds (fun w => q ∧ I w) m fun a w => q ∧ J a w :=
  fun w a w' h hr => ⟨h.1, hm w a w' h.2 hr⟩

theorem assume {q : Prop} (hq : ∀ w, I w → q)
    (h : q → Succeeds I m J) : Succeeds I m J := fun w a w' hI hr => h (hq w hI) w a w' hI hr

theorem mapM {f : α → Build τ β} (hf : ∀ a, Succeeds I (f a) fun _ => I) (as : List α) :
    Succeeds I (as.mapM f) fun _ => I := by
  induction as with
  | nil =>
    rw [List.mapM_nil]
    exact .pure _ fun _ h => h
  | cons a as ih =>
    rw [List.mapM_cons]
    exact (hf a).bind fun y => ih.bind fun ys => .pure _ fun _ h => h

theorem change {f : Body → α × Body} (h : ∀ w, I w → J (f w.body).1 ⟨(f w.body).2, w.carried⟩) :
    Succeeds I (change f : Build τ α) J := by
  intro w x w' hI hrun
  cases hrun
  exact h w hI

theorem withDraft {δ : Type} {I : Work (δ × σ) → Prop} {m : Build (δ × σ) Unit}
    {J : Work (δ × σ) → Prop} (hm : Succeeds I m fun _ => J) (d : δ) :
    Succeeds (fun w => I ⟨w.body, d, w.carried⟩) (withDraft d m)
      fun d' w => J ⟨w.body, d', w.carried⟩ := by
  intro w d' w' hI hrun
  cases hr : m ⟨w.body, d, w.carried⟩ with
  | ok u v =>
    simp only [Build.withDraft, hr] at hrun
    cases hrun
    exact hm _ u v hI hr
  | error e v =>
    simp only [Build.withDraft, hr] at hrun
    cases hrun

end Succeeds

/-- A step in a scope that ends well has opened some scopes, and nothing else is left to do. The
journal is somewhere in the state. -/
def Serving (journal : τ → Journal) (x : Nat) (m : Build τ α) (opened : α → List Nat) : Prop :=
  ∀ w a w', w.body.Tended → x < w.body.scopes.size → m w = .ok a w' →
    w.body.Served x (journal w.carried) (opened a) w'.body (journal w'.carried)

abbrev Serves (x : Nat) (m : Build (Journal × σ) α) : Prop := Serving Prod.fst x m fun _ => []

section steps

variable {journal : τ → Journal} {x : Nat} {kind : ScopeKind}

theorem Calm.serving {m : Build τ α} (hm : Calm x m) : Serving journal x m fun _ => [] := by
  intro w a w' hw hx hr
  obtain ⟨halike, hsame⟩ := hm w hx
  rw [after_of_ok hr] at halike hsame
  rw [hsame]
  exact .level hw halike.toLevel

theorem Serving.of_same {m : Build τ α} (h : ∀ w a w', m w = .ok a w' →
    w'.body = w.body ∧ journal w'.carried = journal w.carried) :
    Serving journal x m fun _ => [] := by
  intro w a w' hw _ hr
  obtain ⟨hbody, hjournal⟩ := h w a w' hr
  rw [hbody, hjournal]
  exact .level hw (Body.Alike.refl _).toLevel

theorem serving_openScope (hk : kind ≠ .catchAll) (hk' : kind ≠ .finallyCopy) :
    Serving journal x (openScope x kind : Build τ Nat) fun c => [c] := by
  intro w a w' hw hx hr
  cases hr
  exact .openScope hw hx hk hk'

theorem serving_exitEdge (destination : Option Nat) :
    Serving journal x (change (Body.exitEdge x destination) : Build τ (List Cleanup))
      fun cleanups => cleanups.map Cleanup.scope := by
  intro w a w' hw _ hr
  cases hr
  exact .exitEdge hw destination

theorem serving_change {f : Body → α × Body} (h : ∀ b : Body, b.Level (f b).2) :
    Serving journal x (change f : Build τ α) fun _ => [] := by
  intro w a w' hw _ hr
  cases hr
  exact .level hw (h w.body)

theorem Serves.outside {δ : Type} {m : Build (Journal × σ) α} (hm : Serves x m) :
    Serving (fun state => state.2.1) x (outside m : Build (δ × Journal × σ) α) fun _ => [] := by
  rintro ⟨b, d, s⟩ a w' hw hx hr
  obtain ⟨_, _, hrun, rfl⟩ := outside_eq_ok hr
  exact hm _ _ _ hw hx hrun

end steps

end Build

namespace Body

variable {b b' b'' : Body} {here here' : Nat} {P P' : List Nat} {j j' j'' : Build.Journal}

theorem Served.refl (hb : b.Tended) : b.Served here j [] b j :=
  ⟨(Tends.refl hb).moved fun _ hge => kindOf_ne_of_size hge (by decide), rfl⟩

theorem Served.trans (h : b.Served here j P b' j') (h' : b'.Served here' j' P' b'' j'')
    (hhere : here' = here ∨ b.scopes.size ≤ here') : b.Served here j (P ++ P') b'' j'' :=
  ⟨h.toMoved.trans (fun x hx => by cases hx) h'.toMoved hhere, h'.trying.trans h.trying⟩

end Body

namespace Build

/-- How far a construct in `here` has come that began with `b` and `j`: the scopes `P` are still to
be held. -/
def Sofar (journal : τ → Journal) (b : Body) (j : Journal) (here : Nat) (P : List Nat)
    (w : Work τ) : Prop :=
  here < b.scopes.size ∧ b.Served here j P w.body (journal w.carried)

namespace Sofar

variable {journal : τ → Journal} {b : Body} {j : Journal} {here x : Nat} {P P' : List Nat}

theorem served {w : Work τ} (h : Sofar journal b j here P w) :
    b.Served here j P w.body (journal w.carried) := h.2

theorem inRange {w : Work τ} (h : Sofar journal b j here P w) (hx : x = here ∨ x ∈ P) :
    x < w.body.scopes.size ∧ (x = here ∨ b.scopes.size ≤ x) := by
  rcases hx with rfl | hx
  · exact ⟨Nat.lt_of_lt_of_le h.1 h.served.tends.size, .inl rfl⟩
  · obtain ⟨hge, hlt⟩ := h.served.tends.pending x hx
    exact ⟨hlt, .inr hge⟩

variable {m : Build τ α}

section

variable (hx : x = here ∨ x ∈ P)
include hx

theorem serve {opened : α → List Nat} (hm : Serving journal x m opened) :
    Succeeds (Sofar journal b j here P) m fun a => Sofar journal b j here (P ++ opened a) := by
  intro w a w' h hr
  obtain ⟨hlt, hside⟩ := h.inRange hx
  exact ⟨h.1, h.served.trans (hm w a w' h.served.tends.tended hlt hr) hside⟩

theorem visit (hm : Serving journal x m fun _ => []) :
    Succeeds (Sofar journal b j here P) m fun _ => Sofar journal b j here P :=
  (serve hx hm).weaken (fun _ h => h) fun _ w h => by rwa [List.append_nil] at h

theorem calm (hm : Calm x m) :
    Succeeds (Sofar journal b j here P) m fun _ => Sofar journal b j here P := visit hx hm.serving

theorem openScope {kind : ScopeKind} (hk : kind ≠ .catchAll)
    (hk' : kind ≠ .finallyCopy) :
    Succeeds (Sofar journal b j here P) (openScope x kind)
      fun c => Sofar journal b j here (P ++ [c]) := serve hx (serving_openScope hk hk')

end

theorem push (P' : List Nat) (hx : x = here ∨ x ∈ P) {op : Operation} (hsub : ∀ c ∈ P', c ∈ P)
    (hP : ∀ c ∈ P, c ∈ P' ∨ c ∈ op.owned) :
    Succeeds (Sofar journal b j here P) (push x op) fun _ => Sofar journal b j here P' := by
  intro w a w' h hr
  cases hr
  exact ⟨h.1, h.served.toMoved.push (h.inRange hx).1 hsub hP, h.served.trying⟩

end Sofar

section scopes

variable {here : Nat}

variable {m : Build (Journal × σ) α}

theorem Serves.of_sofar
    (h : ∀ b j, Succeeds (Sofar Prod.fst b j here []) m fun _ => Sofar Prod.fst b j here []) :
    Serves here m := fun w a w' hw hlt hr => (h w.body w.carried.1 w a w' ⟨hlt, .refl hw⟩ hr).served

theorem Serves.bind {f : α → Build (Journal × σ) β}
    (hm : Serves here m) (hf : ∀ a, Serves here (f a)) : Serves here (m >>= f) :=
  .of_sofar fun _ _ => (Sofar.visit (.inl rfl) hm).bind fun a => Sofar.visit (.inl rfl) (hf a)

theorem Sofar.follows : Follows (σ := Journal × σ) fun here P m Q => ∀ b j,
    Succeeds (Sofar Prod.fst b j here P) m fun a => Sofar Prod.fst b j here (Q a) where
  bind hm hf b j := (hm b j).bind fun a => hf a b j
  quiet hx hm _ _ _ := calm hx hm
  visit hx hm _ _ := visit hx (Serves.of_sofar hm)
  openScope hx hk hk' _ _ := openScope hx hk hk'
  hold _ h _ _ := push [] (.inl rfl) (fun _ h => by cases h) fun _ hc => .inr (h hc)

theorem Serves.sofar (hm : Serves here m) (b : Body) (j : Journal) :
    Succeeds (Sofar Prod.fst b j here []) m fun _ => Sofar Prod.fst b j here [] :=
  Sofar.visit (.inl rfl) hm

theorem sofar_exitEdge (destination : Option Nat) (b : Body) (j : Journal) :
    Succeeds (Sofar Prod.fst b j here []) (change (Body.exitEdge here destination) :
      Build (Journal × σ) (List Cleanup))
      fun cleanups => Sofar Prod.fst b j here (cleanups.map Cleanup.scope) :=
  Sofar.serve (.inl rfl) (serving_exitEdge destination)

theorem Call.serves {handles : List Handle}
    (h : Call (Journal × σ) here m handles) : Serves here m := by
  rcases h.sorts with hexit | hinit | hleaf
  · cases hexit with
    | jump kind target => exact .of_sofar (Sofar.follows.jump sofar_exitEdge kind target)
    | returnVoid => exact .of_sofar (Sofar.follows.returnVoid sofar_exitEdge)
    | returnValue value => exact .of_sofar (Sofar.follows.returnValue sofar_exitEdge value)
  · cases hinit with
    | call constructor args => exact (calm_invokeConstructor constructor args).serving
  · exact hleaf.calm.serving

end scopes

section drafts

variable {δ : Type}

namespace Succeeds

variable {I : Work (δ × τ) → Prop}

theorem fixing {m : Build (δ × τ) α} {J : α → Work (δ × τ) → Prop}
    (h : ∀ d, Succeeds (fun w => w.carried.1 = d ∧ I w) m J) : Succeeds I m J :=
  fun w a w' hI hr => h w.carried.1 w a w' ⟨rfl, hI⟩ hr

theorem sameDraft {m : Build (δ × τ) α} {J : α → Work (δ × τ) → Prop} {d : δ} (hm : Succeeds I m J)
    (hd : SameDraft m) :
    Succeeds (fun w => w.carried.1 = d ∧ I w) m fun a w => w.carried.1 = d ∧ J a w := by
  rintro w a w' ⟨rfl, hI⟩ hr
  refine ⟨?_, hm w a w' hI hr⟩
  have hsame := hd w
  rwa [after_of_ok hr] at hsame

theorem draft (f : δ → α) : Succeeds I (draft f : Build (δ × τ) α) fun _ => I := by
  intro w a w' hI hr
  cases hr
  exact hI

theorem draft_bind {f : δ → α} {g : α → Build (δ × τ) β} {d : δ} {J : β → Work (δ × τ) → Prop}
    (h : Succeeds (fun w => w.carried.1 = d ∧ I w) (g (f d)) J) :
    Succeeds (fun w => w.carried.1 = d ∧ I w) (Build.draft f >>= g) J := by
  rintro w a w' ⟨rfl, hI⟩ hr
  exact h w a w' ⟨rfl, hI⟩ hr

theorem redraft {f : δ → δ} {J : Work (δ × τ) → Prop}
    (h : ∀ w, I w → J ⟨w.body, f w.carried.1, w.carried.2⟩) :
    Succeeds I (redraft f : Build (δ × τ) Unit) fun _ => J := by
  intro w a w' hI hr
  cases hr
  exact h w hI

end Succeeds

end drafts

end Build
end ClassAssembler
