import ClassAssembler.Proofs.Build.Member

/-!
# Calls with nested scopes

A construct opens scopes, lets blocks build into them, and adds one operation that holds them all.
-/

namespace ClassAssembler

open List Operation

namespace Build

variable {σ α β : Type} {base : Body} {here p c : Nat} {P Q : Body → Prop} {kind : ScopeKind}

def Stable (P : Body → Prop) : Prop :=
  ∀ (b b' : Body) (here : Nat), b.Grows b' here → P b → P b'

theorem stable_true : Stable fun _ => True := fun _ _ _ _ _ => trivial

theorem Stable.and (hP : Stable P) (hQ : Stable Q) : Stable fun b => P b ∧ Q b :=
  fun b b' here hg h => ⟨hP b b' here hg h.1, hQ b b' here hg h.2⟩

theorem stable_reading (here : Nat) (expected : FieldType) (o : Operand) (q : Prop) :
    Stable fun b => Reading here expected b o ∧ q :=
  fun _ _ _ hg h => ⟨h.1.mono hg.toExtends, h.2⟩

/-- A scope opened since `base` that no operation holds. -/
structure Fresh (base : Body) (p : Nat) (kind : ScopeKind) (c : Nat) (b : Body) : Prop where
  new : base.scopes.size ≤ c
  parent : b.parentOf c = some p
  isKind : b.kindOf c = kind
  unowned : ∀ s, c ∉ b.owned s

theorem stable_fresh (base : Body) (p : Nat) {kind : ScopeKind} (c : Nat) (hk : kind ≠ .root) :
    Stable (Fresh base p kind c) := by
  intro b b' _ hg h
  refine ⟨h.new, hg.parentOf h.parent, hg.kindOf h.isKind hk, fun s hown => ?_⟩
  exact h.unowned s (hg.owned s c hown (Body.lt_size_of_parentOf h.parent))

theorem Fresh.gt {b : Body} (h : Fresh base p kind c b) (hd : b.Descends) : p < c := hd h.parent

end Build

theorem Body.Ready.openScope {b : Body} {here p : Nat} {kind : ScopeKind} (h : b.Ready here)
    (hp : p < b.scopes.size) (hk : kind ≠ .tryFrame) :
    (b.openScope (some p) kind).2.Ready here := by
  have he := b.extends_openScope (some p) kind
  have hkind := he.kind here h.isOpen.lt
  exact
    { sound := SoundUpTo.openScope h.sound hp kind
      collects := h.collects.openScope h.sound (some p) hk
      isOpen := h.isOpen.openScope h.sound.descends (some p) kind
      notFrame := by rw [hkind]; exact h.notFrame
      started := fun hh => he.operations_ne_nil (h.started (by rwa [hkind] at hh)) }

namespace Build

namespace Keeps

theorem openScope {f : Nat → Build σ β} (hP : Stable P)
    (hp : ∀ b, b.Ready here → P b → p < b.scopes.size)
    (hk : kind ≠ .tryFrame) (hf : ∀ c, Keeps base here (fun b => P b ∧ Fresh base p kind c
      b) (f c)) :
    Keeps base here P (Build.openScope p kind >>= f) := by
  intro w hw hg hPw
  have hlt := hp _ hw hPw
  refine hf w.body.scopes.size ⟨(w.body.openScope (some p) kind).2, w.carried⟩
    (hw.openScope hlt hk) (hg.openScope _ _) ⟨hP _ _ _ ((Body.Grows.refl _ here).openScope _ _) hPw,
      ?_⟩
  refine ⟨hg.size, w.body.parentOf_new _ _, w.body.kindOf_new _ _, fun s hown => ?_⟩
  rw [Body.owned_openScope] at hown
  exact hw.sound.unowned_new s hown

theorem visitWith {m : Build σ α} {f : α → Build σ β} (hP : Stable P)
    (hm : ∀ base, Keeps base c Q m) (hQ : ∀ b, P b → Q b)
    (hc : ∀ b, P b → b.parentOf c = some here ∧ (b.kindOf c).isPlain ∧ ∀ s, c ∉ b.owned s)
    (hf : ∀ a, Keeps base here P (f a)) : Keeps base here P (m >>= f) := by
  intro w hw hg hPw
  obtain ⟨hparent, hplain, hown⟩ := hc _ hPw
  obtain ⟨hw', hin⟩ := hm w.body w (hw.enter hparent hplain (hown here)) (.refl _ _) (hQ _ hPw)
  have hg' := hin.outer (.of_parent (hin.parentOf hparent)) hw'.sound.descends hw'.isOpen
  have hback : (after m w).body.Ready here := hw'.leave (hg'.parentOf hparent) hw hg'.toExtends
  rcases after_bind m f w with h | ⟨a, _, h⟩ <;> rw [h]
  · exact ⟨hback, hg.trans hg'⟩
  · exact hf a _ hback (hg.trans hg') (hP _ _ _ hg' hPw)

theorem visit {m : Build σ α} {f : α → Build σ β} (hP : Stable P)
    (hm : ∀ base, Keeps base c (fun _ => True) m)
    (hc : ∀ b, P b → b.parentOf c = some here ∧ (b.kindOf c).isPlain ∧ ∀ s, c ∉ b.owned s)
    (hf : ∀ a, Keeps base here P (f a)) : Keeps base here P (m >>= f) :=
  .visitWith hP hm (fun _ _ => trivial) hc hf

theorem child {block : Nat → Build σ α} {f : Nat → α → Build σ β} (hP : Stable P)
    (hk : kind.isPlain ∧ kind ≠ .root) (hblock : ∀ base c, Keeps base c (fun _ => True) (block c))
    (hf : ∀ c a, Keeps base here (fun b => P b ∧ Fresh base here kind c b) (f c a)) :
    Keeps base here P (Build.openScope here kind >>= fun c => block c >>= f c) := by
  have hne : kind ≠ .tryFrame := by
    rintro rfl
    cases hk.1
  refine .openScope hP (fun b hb _ => hb.isOpen.lt) hne fun c => ?_
  exact .visit (hP.and (stable_fresh _ _ _ hk.2)) (fun base => hblock base c)
    (fun b h => ⟨h.2.parent, by rw [h.2.isKind]; exact hk.1, h.2.unowned⟩) (hf c)

theorem push {op : Operation}
    (hsimple : ∀ action operands result, op ≠ .simple action operands result)
    (hexit : op.exit? = none) (htry : ∀ statement, op ≠ .tryCatch statement)
    (h : ∀ b, b.Ready here → P b → op.Fits b here ∧ Readings here b op.operands ∧ op.owned.Nodup ∧
      ∀ c ∈ op.owned, base.scopes.size ≤ c ∧ here < c ∧ ∀ s, c ∉ b.owned s) :
    Keeps base here P (Build.push here op : Build σ Unit) := by
  intro w hw hg hP
  obtain ⟨hfits, hreads, hnodup, howned⟩ := h w.body hw hP
  refine ⟨hw.push ?_ (.of_plain hexit htry), hg.push hw.isOpen.lt .refl
    (mt (·.mono hg.toExtends) hw.isOpen.not_settled) fun c hc => (howned c hc).1⟩
  refine hw.accepts hsimple hfits hreads.fits (fun o ho => ?_) hnodup
    (fun c hc => (howned c hc).2.1) fun c hc => (howned c hc).2.2
  obtain ⟨_, hr⟩ := hreads o ho
  exact hr.visible hw

theorem pushOne {op : Operation}
    (hsimple : ∀ action operands result, op ≠ .simple action operands result)
    (hexit : op.exit? = none) (htry : ∀ statement, op ≠ .tryCatch statement)
      (howned : op.owned = [c])
    (h : ∀ b, b.Ready here → P b → op.Fits b here ∧ Readings here b op.operands ∧
      Fresh base here kind c b) :
    Keeps base here P (Build.push here op : Build σ Unit) := by
  refine .push hsimple hexit htry fun b hb hP => ?_
  obtain ⟨hfits, hreads, hfresh⟩ := h b hb hP
  rw [howned]
  refine ⟨hfits, hreads, by simp, fun d hd => ?_⟩
  cases mem_singleton.mp hd
  exact ⟨hfresh.new, hfresh.gt hb.sound.descends, hfresh.unowned⟩

end Keeps

namespace Fresh

variable {b : Body}

variable (h : Fresh base p kind c b)
include h

theorem child (hk : kind.isPlain) (hne : kind ≠ .loop) : b.Child p c :=
  ⟨h.parent, by rw [h.isKind]; exact hk, by rw [h.isKind]; exact hne⟩

theorem visitable (hk : kind.isPlain) :
    b.parentOf c = some p ∧ (b.kindOf c).isPlain ∧ ∀ s, c ∉ b.owned s :=
  ⟨h.parent, by rw [h.isKind]; exact hk, h.unowned⟩

theorem ready (hk : kind.isPlain) (hw : b.Ready p) : b.Ready c :=
  hw.enter h.parent (by rw [h.isKind]; exact hk) (h.unowned p)

theorem ownable (hb : b.Ready p) : base.scopes.size ≤ c ∧ p < c ∧ ∀ s, c ∉ b.owned s :=
  ⟨h.new, h.gt hb.sound.descends, h.unowned⟩

end Fresh

theorem keeps_ifThen (cond : Value) {whenTrue : Block σ}
    (hblock : ∀ base c, Keeps base c (fun _ => True) (whenTrue c)) :
    Keeps base here P (ifThen here cond whenTrue) := by
  refine Keeps.weaken (Q := fun _ => True) ?_ fun _ _ => trivial
  refine (Finds.operand cond .boolean).bind fun o => ?_
  refine .child (stable_true.and (stable_reading _ _ _ _)) (by decide) hblock fun c _ => ?_
  exact .pushOne (by simp) rfl (by simp) rfl fun b hb h =>
    ⟨⟨h.2.child rfl (by decide), fun s hs => by cases hs⟩, h.1.2.1.readings, h.2⟩

theorem keeps_ifElse (cond : Value) {whenTrue whenFalse : Block σ}
    (htrue : ∀ base c, Keeps base c (fun _ => True) (whenTrue c))
    (hfalse : ∀ base c, Keeps base c (fun _ => True) (whenFalse c)) :
    Keeps base here P (ifElse here cond whenTrue whenFalse) := by
  refine Keeps.weaken (Q := fun _ => True) ?_ fun _ _ => trivial
  refine (Finds.operand cond .boolean).bind fun o => ?_
  have hs := stable_true.and (stable_reading here .boolean o (o.value = cond.index))
  refine .child hs (by decide) htrue fun c _ => ?_
  refine .child (hs.and (stable_fresh _ _ _ (by decide))) (by decide) hfalse fun d _ => ?_
  refine .push (by simp) rfl (by simp) fun b hb h => ⟨⟨h.1.2.child rfl (by decide), fun s hs => ?_⟩,
    ?_, ?_, ?_⟩
  · cases hs
    exact h.2.child rfl (by decide)
  · exact h.1.1.2.1.readings
  · have hne : d ≠ c := by
      intro heq
      have := h.1.2.isKind
      rw [← heq, h.2.isKind] at this
      cases this
    simpa [owned, frames, nested] using hne
  · intro s hs
    rcases mem_cons.mp hs with rfl | hs
    · exact h.2.ownable hb
    · cases mem_singleton.mp hs
      exact h.1.2.ownable hb

theorem keeps_block {inner : Block σ} (hblock : ∀ base c, Keeps base c (fun _ => True) (inner c)) :
    Keeps base here P (block here inner) := by
  refine Keeps.weaken (Q := fun _ => True) ?_ fun _ _ => trivial
  refine .child stable_true (by decide) hblock fun c _ => ?_
  exact .pushOne (by simp) rfl (by simp) rfl fun b hb h => ⟨h.2.child rfl (by decide),
    readings_nil b, h.2⟩

theorem leaf_exitUnless {given : Value → Prop} {cond : Value} (hcond : given cond) :
    Leaf here given (fun b => b.kindOf here = .loop) (exitUnless here cond : Build σ Unit) :=
  (Looks.operand hcond .boolean).bind fun o => {
    keeps := fun _ => .push (by simp) rfl (by simp) fun b _ h =>
      ⟨⟨rfl, h.1⟩, h.2.1.readings, nodup_nil, fun c hc => by cases hc⟩
    calm := .push _
    stepwise := fun _ => .push (by simp)
    blames := fun _ => .push _ _ }

theorem keeps_pushLoop : Keeps base here (Fresh base here .loop c)
    (Build.push here (.loop c none) : Build σ Unit) :=
  .pushOne (by simp) rfl (by simp) rfl fun b hb h =>
    ⟨⟨h.parent, h.isKind, fun s hs => by cases hs⟩, readings_nil b, h⟩

theorem keeps_whileLoop {test : Nat → Build σ Value} {body : Block σ}
    (htest : ∀ base c, Keeps base c (fun _ => True) (test c))
    (hbody : ∀ base c, Keeps base c (fun _ => True) (body c)) :
    Keeps base here P (whileLoop here test body) := by
  refine Keeps.weaken (Q := fun _ => True) ?_ fun _ _ => trivial
  refine .child stable_true (by decide) htest fun c v => ?_
  have hs := stable_true.and (stable_fresh base here c (show ScopeKind.loop ≠ .root by decide))
  refine .visitWith hs (leaf_exitUnless (anywhere _)).keeps (fun b h => h.2.isKind)
    (fun b h => h.2.visitable rfl) fun _ => ?_
  refine .visit hs (fun base => hbody base c) (fun b h => h.2.visitable rfl) fun _ => ?_
  exact keeps_pushLoop.weaken fun b h => h.2

theorem keeps_loop {body : Block σ} (hbody : ∀ base c, Keeps base c (fun _ => True) (body c)) :
    Keeps base here P (loop here body) := by
  refine Keeps.weaken (Q := fun _ => True) ?_ fun _ _ => trivial
  exact .child stable_true (by decide) hbody fun c _ => keeps_pushLoop.weaken fun b h => h.2

theorem stable_ownedBy (owner v : Nat) : Stable (OwnedBy owner v) := by
  rintro b b' _ hg ⟨i, hi, ho⟩
  exact ⟨i, hg.value _ _ hi, ho⟩

theorem gives_declareOf (type : FieldType) (initial : Value) :
    Gives (declareOf here type initial : Build σ Variable) fun b var =>
      OwnedBy here var.value.index b := by
  refine .bind fun o w var w' h => ?_
  cases h
  refine ⟨⟨type, some here, .variable⟩, ?_, rfl⟩
  show (w.body.addValue _).2.values[w.body.values.size]? = _
  rw [Body.getElem?_addValue, if_pos rfl]

theorem gives_declare (initial : Value) :
    Gives (declare here initial : Build σ Variable) fun b var =>
      OwnedBy here var.value.index b :=
  .bind fun type => gives_declareOf type initial

theorem keeps_incUpdate {b0 : Body} {looped update : Nat} (var : Variable) (delta : Int16) :
    Keeps b0 here (fun b => (Fresh base here .loop looped b ∧
      Fresh base looped .loopUpdate update b) ∧ OwnedBy here var.value.index b)
      (inc update var delta : Build σ Unit) := by
  unfold inc
  refine (Finds.variableType var).bind fun type => ?_
  by_cases htype : type ≠ .int
  · rw [if_pos htype]
    exact .fail_bind _ _
  · rw [if_neg htype]
    refine .of_step fun w hw hP => ?_
    obtain ⟨⟨⟨hloop, hupdate⟩, i, hi, howner⟩, i', hi', horigin, rfl, _⟩ := hP
    rw [hi] at hi'
    cases hi'
    have hwidth : i.type.width = 1 := by
      rw [Decidable.not_not.mp htype]
      rfl
    have hlt := Body.lt_size_of_parentOf hupdate.parent
    have hdef : var.value.index ∈ w.body.defines here := by
      rcases hw.sound.defined hi howner with hd | hd
      · exact hd
      · cases hd
    have hsettled : ¬ w.body.Settled here update := by
      rintro (⟨p, _, hown⟩ | ⟨_, hp | ⟨p, hown⟩⟩)
      · exact hupdate.unowned p hown
      · cases hupdate.parent.symm.trans hp
        exact Nat.lt_irrefl _ (hloop.gt hw.sound.descends)
      · exact hupdate.unowned p hown
    have hacc : w.body.Accepts [] update (.simple (.inc var.value.index delta) [] none) :=
      { lt := hlt
        notFrame := by rw [hupdate.isKind]; decide
        fits := ⟨rfl, rfl, ⟨i, hi, horigin⟩, i, hi, hwidth⟩
        operands := fun o ho => by cases ho
        needs := fun v hv => by
          cases mem_singleton.mp (show v ∈ [var.value.index] from hv)
          refine ⟨i, hi, .inr (.inr ⟨looped, here, howner, .of_parent hupdate.parent, hloop.parent,
            by rw [hloop.isKind]; decide, hdef, fun l1 op l2 hsplit hop => ?_⟩)⟩
          refine absurd ?_ (hloop.unowned here)
          rw [Body.owned, hsplit]
          exact mem_flatMap_of_mem (mem_append_right _ (mem_cons_self ..)) hop
        owned_nodup := nodup_nil
        owned_gt := fun c hc => by cases hc
        unowned := fun c hc => by cases hc
        defines := rfl
        pending_nodup := nodup_nil
        pending_owner := fun v hv => by cases hv
        pending_new := fun v hv => by cases hv
        result := fun heq => by cases heq
        caught := by
          rw [hupdate.isKind]
          exact ⟨(fun h => by cases h), fun h => by cases h.1⟩
        updates := fun _ => rfl }
    exact ⟨hw.pushElsewhere hacc rfl rfl, (Body.Grows.refl _ _).push hlt
      ((Body.Within.of_parent hloop.parent).trans (.of_parent hupdate.parent)) hsettled
      fun c hc => by cases hc⟩

def arrayLoop (outer : Nat) (array : Value) (body : Nat → Value → Build σ Unit) :
    Build σ Unit := do
  let looped ← openScope outer .loop
  let update ← openScope looped .loopUpdate
  let index ← declare outer (← constInt 0)
  let length ← arrayLength looped array
  let position ← get looped index
  exitUnless looped (← compare looped .lt position length)
  let position ← get looped index
  body looped (← arrayLoad looped array position)
  inc update index 1
  push outer (.loop looped (some update))

theorem forEachArray_eq (array : Value) (body : Nat → Value → Build σ Unit) :
    forEachArray here array body = (do
      discard <| elementType array
      discard <| operandAsIs here array
      block here fun outer => arrayLoop outer array body) := by
  simp only [forEachArray, arrayLoop, block, bind_assoc]

variable {body : Nat → Value → Build σ Unit}

theorem keeps_arrayLoop (array : Value)
    (hbody : ∀ base c v, Keeps base c (fun _ => True) (body c v)) :
    Keeps base here (fun _ => True) (arrayLoop here array body) := by
  refine .openScope stable_true (fun b hb _ => hb.isOpen.lt) (by decide) fun looped => ?_
  have hloop := stable_fresh base here looped (show ScopeKind.loop ≠ .root by decide)
  refine .openScope (stable_true.and hloop)
    (fun b _ h => Body.lt_size_of_parentOf h.2.parent) (by decide) fun update => ?_
  have hs :=
    hloop.and (stable_fresh base looped update (show ScopeKind.loopUpdate ≠ .root by decide))
  refine Keeps.weaken (Q := fun b => Fresh base here .loop looped b ∧
    Fresh base looped .loopUpdate update b) ?_ fun b h => ⟨h.1.2, h.2⟩
  refine Keeps.bindWith (fun _ => .constant rfl) hs (gives_true _) fun zero => ?_
  refine Keeps.bindWith (leaf_declare (anywhere zero)).keeps (fun b b' s hg h => hs b b' s hg h.1)
    (gives_declare zero) fun index => ?_
  have hs := hs.and (stable_ownedBy here index.value.index)
  have hvisit := fun (b : Body) (h : (Fresh base here .loop looped b ∧
    Fresh base looped .loopUpdate update b) ∧ OwnedBy here index.value.index b) =>
      h.1.1.visitable rfl
  refine .visit hs (leaf_arrayLength (anywhere _)).keeps hvisit fun length => ?_
  refine .visit hs (leaf_get (anywhere _)).keeps hvisit fun position => ?_
  refine .visit hs (leaf_compare (anywhere _) (anywhere _) .lt).keeps hvisit fun test => ?_
  refine .visitWith hs (leaf_exitUnless (anywhere _)).keeps (fun b h => h.1.1.isKind) hvisit
    fun _ => ?_
  refine .visit hs (leaf_get (anywhere _)).keeps hvisit fun position => ?_
  refine .visit hs (leaf_arrayLoad (anywhere _) (anywhere _)).keeps hvisit fun element => ?_
  refine .visit hs (fun base => hbody base looped element) hvisit fun _ => ?_
  refine Keeps.bindWith (fun _ => keeps_incUpdate index 1) hs (gives_true _) fun _ => ?_
  refine .push (by simp) rfl (by simp) ?_
  rintro b hb ⟨⟨⟨hloop, hupdate⟩, _⟩, _⟩
  have hlt := hupdate.gt hb.sound.descends
  refine ⟨⟨hloop.parent, hloop.isKind, fun s hs => ?_⟩, readings_nil b, ?_, fun s hs => ?_⟩
  · cases hs
    exact ⟨hupdate.parent, hupdate.isKind⟩
  · simpa [owned, frames, nested] using Nat.ne_of_lt hlt
  · rcases mem_cons.mp hs with rfl | hs
    · exact hloop.ownable hb
    · cases mem_singleton.mp hs
      exact ⟨hupdate.new, Nat.lt_trans (hloop.gt hb.sound.descends) hlt, hupdate.unowned⟩

theorem keeps_forEachArray (array : Value)
    (hbody : ∀ base c v, Keeps base c (fun _ => True) (body c v)) :
    Keeps base here P (forEachArray here array body) := by
  rw [forEachArray_eq]
  refine ((Finds.elementType array).andThen (S := fun _ _ => True) fun _ =>
    .pure _ fun _ _ => trivial).bind fun _ => ?_
  refine ((Finds.operandAsIs array).andThen (S := fun _ _ => True) fun _ =>
    .pure _ fun _ _ => trivial).bind fun _ => ?_
  exact keeps_block fun base c => keeps_arrayLoop array hbody

theorem leaf_ask {given : Value → Prop} {method : MethodRef} {type : FieldType} {object : Value}
    (hparams : method.type.params = []) (hreturns : method.type.returns = some type)
    (hobject : given object) : Leaf here given P (ask here method type object : Build σ Value) := by
  refine (Looks.operand hobject _).bind fun o => ?_
  refine .yieldInsn rfl ?_ ?_ fun b h => h.2.1.readings
  · show 1 = 1 + method.type.params.length
    rw [hparams]
    rfl
  · show method.type.returns.map FieldType.width = _
    rw [hreturns]
    rfl

def iterableLoop (outer : Nat) (iterable : Value) (body : Nat → Value → Build σ Unit) :
    Build σ Unit := do
  let looped ← openScope outer .loop
  let iterator ← ask outer .iterableIterator (.object .iterator) iterable
  let iterator ← declare outer iterator
  let current ← get looped iterator
  exitUnless looped (← ask looped .iteratorHasNext .boolean current)
  let current ← get looped iterator
  body looped (← ask looped .iteratorNext (.object .object) current)
  push outer (.loop looped none)

theorem forEachIterable_eq (iterable : Value) (body : Nat → Value → Build σ Unit) :
    forEachIterable here iterable body = block here fun outer => iterableLoop outer iterable
      body := by
  simp only [forEachIterable, iterableLoop, block, bind_assoc]

theorem keeps_iterableLoop (iterable : Value)
    (hbody : ∀ base c v, Keeps base c (fun _ => True) (body c v)) :
    Keeps base here (fun _ => True) (iterableLoop here iterable body) := by
  refine .openScope stable_true (fun b hb _ => hb.isOpen.lt) (by decide) fun looped => ?_
  have hs := stable_fresh base here looped (show ScopeKind.loop ≠ .root by decide)
  refine Keeps.weaken (Q := Fresh base here .loop looped) ?_ fun b h => h.2
  refine Keeps.bindWith (Q := Fresh base here .loop looped)
    (leaf_ask rfl rfl (anywhere _)).keeps hs (gives_true _) fun iterator => ?_
  refine Keeps.weaken (Q := Fresh base here .loop looped) ?_ fun b h => h.1
  refine Keeps.bindWith (Q := Fresh base here .loop looped)
    (leaf_declare (anywhere iterator)).keeps hs (gives_true _) fun iterator => ?_
  refine Keeps.weaken (Q := Fresh base here .loop looped) ?_ fun b h => h.1
  have hvisit := fun (b : Body) (h : Fresh base here .loop looped b) => h.visitable rfl
  refine .visit hs (leaf_get (anywhere _)).keeps hvisit fun current => ?_
  refine .visit hs (leaf_ask rfl rfl (anywhere _)).keeps hvisit fun test => ?_
  refine .visitWith hs (leaf_exitUnless (anywhere _)).keeps (fun b h => h.isKind) hvisit fun _ => ?_
  refine .visit hs (leaf_get (anywhere _)).keeps hvisit fun current => ?_
  refine .visit hs (leaf_ask rfl rfl (anywhere _)).keeps hvisit fun element => ?_
  exact .visit hs (fun base => hbody base looped element) hvisit fun _ => keeps_pushLoop

theorem keeps_forEachIterable (iterable : Value)
    (hbody : ∀ base c v, Keeps base c (fun _ => True) (body c v)) :
    Keeps base here P (forEachIterable here iterable body) := by
  rw [forEachIterable_eq]
  exact keeps_block fun base c => keeps_iterableLoop iterable hbody

end Build
end ClassAssembler
