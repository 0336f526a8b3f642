import ClassAssembler.Proofs.Build.Nesting

/-!
# Steps with a draft

A statement that is built in parts is a draft in front of the state while its parts are added.
-/

namespace ClassAssembler
namespace Build

variable {δ σ α β : Type} {I : δ → Body → Prop} {E : δ → Body → Prop}

/-- From a draft and a body with `I`, a step leads to `J` if it succeeds, and to `E` if it
fails. -/
def Triple (I : δ → Body → Prop) (m : Build (δ × σ) α) (J : α → δ → Body → Prop)
    (E : δ → Body → Prop) : Prop :=
  ∀ w, I w.carried.1 w.body → match m w with
    | .ok a w' => J a w'.carried.1 w'.body
    | .error _ w' => E w'.carried.1 w'.body

namespace Triple

variable {m : Build (δ × σ) α} {J : α → δ → Body → Prop}

theorem bind {f : α → Build (δ × σ) β}
    {K : β → δ → Body → Prop} (hm : Triple I m J E) (hf : ∀ a, Triple (J a) (f a) K E) :
    Triple I (m >>= f) K E := by
  intro w hI
  have h := hm w hI
  cases hr : m w with
  | ok a w' =>
    rw [hr] at h
    rw [bind_of_ok hr]
    exact hf a w' h
  | error e w' =>
    rw [hr] at h
    rw [bind_of_error hr]
    exact h

theorem weaken {I' : δ → Body → Prop} {J J' : α → δ → Body → Prop}
    (hm : Triple I m J E) (hI : ∀ d b, I' d b → I d b) (hJ : ∀ a d b, J a d b → J' a d b) :
    Triple I' m J' E := by
  intro w hw
  have h := hm w (hI _ _ hw)
  cases hr : m w with
  | ok a w' =>
    rw [hr] at h
    exact hJ _ _ _ h
  | error e w' =>
    rw [hr] at h
    exact h

theorem pre {I' : δ → Body → Prop}
    (hI : ∀ d b, I' d b → I d b) (hm : Triple I m J E) : Triple I' m J E :=
  hm.weaken hI fun _ _ _ h => h

theorem weaken_error {E' : δ → Body → Prop}
    (hm : Triple I m J E) (hE : ∀ d b, E d b → E' d b) : Triple I m J E' := by
  intro w hw
  have h := hm w hw
  cases hr : m w with
  | ok a w' =>
    rw [hr] at h
    exact h
  | error e w' =>
    rw [hr] at h
    exact hE _ _ h

theorem of_after {J : δ → Body → Prop}
    (h : ∀ w, I w.carried.1 w.body → J (after m w).carried.1 (after m w).body) :
    Triple I m (fun _ => J) J := by
  intro w hI
  have h := h w hI
  rw [after] at h
  cases hr : m w <;> rwa [hr] at h

theorem ends {J : δ → Body → Prop} (hm : Triple I m (fun _ => J) J) {w : Work (δ × σ)}
    (hI : I w.carried.1 w.body) : J (after m w).carried.1 (after m w).body := by
  have h := hm w hI
  rw [after]
  cases hr : m w <;> rwa [hr] at h

theorem gives {R : Body → α → Prop}
    (hm : Triple I m J E) (hR : Gives m R) : Triple I m (fun a d b => J a d b ∧ R b a) E := by
  intro w hw
  have h := hm w hw
  cases hr : m w with
  | ok a w' =>
    rw [hr] at h
    exact ⟨h, hR w a w' hr⟩
  | error e w' =>
    rw [hr] at h
    exact h

theorem pure (a : α) : Triple I (pure a : Build (δ × σ) α) (fun _ => I) E := fun _ hI => hI

theorem fail (e : Fault) (h : ∀ d b, I d b → E d b) :
    Triple I (fail e : Build (δ × σ) α) J E := fun _ hI => h _ _ hI

theorem draft (f : δ → α) : Triple I (draft f : Build (δ × σ) α) (fun a d b => I d b ∧ a = f d) E :=
  fun _ hI => ⟨hI, rfl⟩

theorem redraft {f : δ → δ} {J : δ → Body → Prop} (h : ∀ d b, I d b → J (f d) b) :
    Triple I (redraft f : Build (δ × σ) Unit) (fun _ => J) E := fun _ hI => h _ _ hI

theorem change {f : Body → α × Body}
    (h : ∀ d b, I d b → J (f b).1 d (f b).2) :
    Triple I (change f : Build (δ × σ) α) J E := fun _ hI => h _ _ hI

theorem alter {f : Body → Body} {J : δ → Body → Prop} (h : ∀ d b, I d b → J d (f b)) :
    Triple I (alter f : Build (δ × σ) Unit) (fun _ => J) E := fun _ hI => h _ _ hI

theorem mapM {f : α → Build (δ × σ) β} (hf : ∀ a, Triple I (f a) (fun _ => I) E) (as : List α) :
    Triple I (as.mapM f) (fun _ => I) E := by
  induction as with
  | nil =>
    rw [List.mapM_nil]
    exact .pure _
  | cons a as ih =>
    rw [List.mapM_cons]
    exact (hf a).bind fun y => ih.bind fun ys => .pure _

theorem forM {f : α → Build (δ × σ) Unit} {as : List α}
    (hf : ∀ a ∈ as, Triple I (f a) (fun _ => I) E) : Triple I (as.forM f) (fun _ => I) E := by
  induction as with
  | nil => exact .pure ()
  | cons a as ih =>
    refine (hf a (.head ..)).bind fun _ => ?_
    exact ih fun x hx => hf x (.tail _ hx)

theorem withDraft {m : Build (δ × σ) Unit} {J : δ → Body → Prop} {f : δ → Build σ β}
    {Q : Body → Prop} (hm : Triple I m (fun _ => J) E) {d : δ} {w : Work σ} (hI : I d w.body)
    (hE : ∀ d b, E d b → Q b) (hf : ∀ d w, J d w.body → Q (after (f d) w).body) :
    Q (after (withDraft d m >>= f) w).body := by
  have h := hm ⟨w.body, d, w.carried⟩ hI
  cases hr : m ⟨w.body, d, w.carried⟩ with
  | ok u w' =>
    have hrun : Build.withDraft d m w = .ok w'.carried.1 ⟨w'.body, w'.carried.2⟩ := by
      simp only [Build.withDraft, hr]
    rw [hr] at h
    rw [after, bind_of_ok hrun]
    exact hf _ _ h
  | error e w' =>
    have hrun : Build.withDraft d m w = .error e ⟨w'.body, w'.carried.2⟩ := by
      simp only [Build.withDraft, hr]
    rw [hr] at h
    rw [after, bind_of_error hrun]
    exact hE _ _ h

end Triple

def SameDraft (m : Build (δ × σ) α) : Prop := ∀ w, (after m w).carried.1 = w.carried.1

namespace SameDraft

theorem bind {m : Build (δ × σ) α} {f : α → Build (δ × σ) β} (hm : SameDraft m)
    (hf : ∀ a, SameDraft (f a)) : SameDraft (m >>= f) := by
  intro w
  rcases after_bind m f w with h | ⟨a, _, h⟩ <;> rw [h]
  · exact hm w
  · exact (hf a _).trans (hm w)

theorem fail (e : Fault) : SameDraft (fail e : Build (δ × σ) α) := fun _ => rfl

theorem change (f : Body → α × Body) : SameDraft (change f : Build (δ × σ) α) := fun _ => rfl

theorem outside (m : Build σ α) : SameDraft (outside m : Build (δ × σ) α) := by
  rintro ⟨b, d, s⟩
  rw [after_outside]

theorem of_finds {m : Build (δ × σ) α} {R : Body → α → Prop} (hm : Finds m R) : SameDraft m := by
  intro w
  rw [hm.unchanged]

end SameDraft

theorem Keeps.outside {base : Body} {here : Nat} {P : Body → Prop} {m : Build σ α}
    (hm : Keeps base here P m) : Keeps base here P (outside m : Build (δ × σ) α) := by
  rintro ⟨b, d, s⟩ hw hg hP
  rw [after_outside]
  exact hm ⟨b, s⟩ hw hg hP

theorem Triple.keeps {c : Nat} {m : Build (δ × σ) α} {J : δ → Body → Prop}
    (hm : ∀ base, Keeps base c (fun _ => True) m) (hd : SameDraft m)
    (henter : ∀ d b, I d b → b.Ready c)
    (hleave : ∀ d b b', I d b → b'.Ready c → b.Grows b' c → J d b')
    (hE : ∀ d b, J d b → E d b) : Triple I m (fun _ => J) E := by
  refine (Triple.of_after fun w hI => ?_).weaken_error hE
  obtain ⟨hw', hg⟩ := hm w.body w (henter _ _ hI) (.refl _ _) trivial
  rw [hd w]
  exact hleave _ _ _ hI hw' hg

end Build
end ClassAssembler
