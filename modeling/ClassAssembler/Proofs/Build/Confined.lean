import ClassAssembler.Proofs.Build.Scoping

/-!
# Calls with blocks and scopes

A call with blocks reads a few values itself, most of them made on the way, and leaves the rest to
its blocks.
-/

namespace ClassAssembler

open Build Body

variable {b : Body} {kind : ScopeKind}

open List

namespace Body

theorem Readable.mono {b' : Body} {here here' v : Nat} (h : b.Readable here v) (he : b.Extends b')
    (hin : b'.Within here here') : b'.Readable here' v := by
  obtain ⟨info, hinfo, hown⟩ := h
  exact ⟨info, he.value _ _ hinfo, fun owner ho => (he.within (hown owner ho)).trans hin⟩

theorem InScope.enter {b' : Body} {here here' : Nat} {v : Value} (h : b.InScope here (.value v))
    (he : b.Extends b') (hid : b'.id = b.id) (hvalues : b'.values = b.values)
    (hin : b'.Within here here') : b'.InScope here' (.value v) := by
  intro info owner hinfo howner
  rw [value?, hid, hvalues] at hinfo
  exact (he.within (h info owner hinfo howner)).trans hin

end Body

namespace Build

variable {σ δ α β : Type} {here c : Nat} {w : Work σ} {F : Fault → Work σ → Prop}

theorem Reading.readable {o : Operand} {expected : FieldType} (h : Reading here expected b o)
    (hd : b.Descends) : b.Readable here o.value := by
  obtain ⟨info, hinfo, _, hown⟩ := h.value
  exact ⟨info, hinfo, fun owner ho => hown owner ho hd⟩

namespace Blames

variable (hw : w.body.Ready here)
include hw

theorem openChild {f : Nat → Build σ β} (hne : kind ≠ .tryFrame)
    (hf : ∀ c w', w'.body.Ready here → Fresh w.body here kind c w'.body → w.body.Extends w'.body →
      w'.body.id = w.body.id → w'.body.values = w.body.values → Blames w' F (f c)) :
    Blames w F (Build.openScope here kind >>= f) := by
  refine hf w.body.scopes.size ⟨(w.body.openScope (some here) kind).2, w.carried⟩
    (hw.openScope hw.isOpen.lt hne) ⟨.refl, w.body.parentOf_new _ _,
      w.body.kindOf_new _ _, fun s hown => ?_⟩ (w.body.extends_openScope _ _) rfl rfl
  rw [owned_openScope] at hown
  exact hw.sound.unowned_new s hown

variable {m : Build σ α} {f : α → Build σ β}

theorem visit {base : Body} (hc : Fresh base here kind c w.body) (hk : kind.isPlain)
    (hroot : kind ≠ .root) (hkeeps : ∀ base, Keeps base c (fun _ => True) m)
    (hm : w.body.Ready c → Blames w F m)
    (hf : ∀ a w', m w = .ok a w' → w'.body.Ready here → w'.body.Ready c →
      Fresh base here kind c w'.body → w.body.Grows w'.body here → Blames w' F (f a)) :
    Blames w F (m >>= f) := by
  have hready := hc.ready hk hw
  refine .bind (hm hready) fun a w' hr => ?_
  obtain ⟨hready', hg⟩ := Keeps.ready_ok hkeeps hready hr
  have hg' := hg.outer (.of_parent (hg.parentOf hc.parent)) hready'.sound.descends hready'.isOpen
  exact hf a w' hr (hready'.leave (hg'.parentOf hc.parent) hw hg'.toExtends) hready'
    (stable_fresh _ _ _ hroot _ _ _ hg' hc) hg'

theorem child {m : Nat → Build σ α} {f : Nat → α → Build σ β} (hk : kind.isPlain)
    (hm : ∀ c w', w'.body.Ready c → w'.body.parentOf c = some here → w.body.Extends w'.body →
      w'.body.id = w.body.id → w'.body.values = w.body.values → Blames w' F (m c))
    (hf : ∀ c a w', Blames w' F (f c a)) :
    Blames w F (Build.openScope here kind >>= fun c => m c >>= f c) := by
  refine .openChild hw (fun he => by cases he; cases hk) fun c w1 hw1 hc he hid hvalues => ?_
  exact .bind (hm c w1 (hc.ready hk hw1) hc.parent he hid hvalues) fun a w2 _ => hf c a w2

omit hw in
def Rest (here : Nat) (w : Work σ) (F : Fault → Work σ → Prop) (m : Build σ α)
    (f : α → Build σ β) : Prop :=
  ∀ a w', m w = .ok a w' → w'.body.Ready here → w.body.Grows w'.body here → Blames w' F (f a)

theorem stepWith {P : Body → Prop} (hkeeps : ∀ base, Keeps base here P m) (hP : P w.body)
    (hm : Blames w F m) (hf : Rest here w F m f) : Blames w F (m >>= f) := by
  refine hm.bind fun a w' hr => ?_
  have h := hkeeps w.body w hw (.refl _ _) hP
  rw [after_of_ok hr] at h
  exact hf a w' hr h.1 h.2

theorem step (hkeeps : ∀ base, Keeps base here (fun _ => True) m) (hm : Blames w F m)
    (hf : Rest here w F m f) : Blames w F (m >>= f) := .stepWith hw hkeeps trivial hm hf

theorem leaf {given : Value → Prop} (hin : Admits here given w.body)
    (hm : Leaf here given (fun _ => True) m) (hf : Rest here w F m f) : Blames w F (m >>= f) :=
  .step hw hm.keeps (hm.blames hin) hf

theorem leafOn {v : Value} (hv : w.body.Readable here v.index)
    (hm : Leaf here (Eq v) (fun _ => True) m) (hf : Rest here w F m f) : Blames w F (m >>= f) :=
  .leaf hw (.one hw (inScope_of_readable hv)) hm hf

theorem exitUnless {cond : Value} {f : Build σ α} (hcond : w.body.InScope here (.value cond))
    (hloop : w.body.kindOf here = .loop)
    (hf : ∀ w', w'.body.Ready here → w.body.Grows w'.body here → Blames w' F f) :
    Blames w F (exitUnless here cond >>= fun _ => f) :=
  .stepWith hw (leaf_exitUnless rfl).keeps hloop ((leaf_exitUnless rfl).blames (.one hw hcond))
    fun _ w' _ => hf w'

end Blames

abbrev GivesOwn (here : Nat) (m : Build σ Value) : Prop :=
  Gives m fun b v => OwnedBy here v.index b

theorem gives_get (var : Variable) : GivesOwn here (get here var : Build σ Value) :=
  .bind fun _ => .bind fun _ => gives_yield _ _ _

theorem gives_arrayLength (array : Value) :
    GivesOwn here (arrayLength here array : Build σ Value) :=
  .bind fun _ => .bind fun _ => gives_yield _ _ _

theorem gives_ask (method : MethodRef) (type : FieldType) (object : Value) :
    GivesOwn here (ask here method type object : Build σ Value) :=
  .bind fun _ => gives_yield _ _ _

theorem gives_compare (ord : OrdTest) (left right : Value) :
    GivesOwn here (compare here ord left right : Build σ Value) := by
  refine .bind fun leftType => .bind fun rightType => ?_
  split
  · split
    · exact .fail _
    · exact .bind fun _ => .bind fun _ => gives_yield _ _ _
  · exact .bind fun _ => .bind fun _ => .bind fun _ => gives_yield _ _ _

theorem OwnedBy.inScope {b' : Body} {v : Value} (h : OwnedBy here v.index b) (he : b.Extends b')
    (hin : b'.Within here c) : b'.InScope c (.value v) :=
  inScope_of_readable (h.readable.mono he hin)

/-! ## Blocks -/

/-- The calls that build a part of a try statement, each with its block. -/
inductive TryBlock : Try σ Unit → Nat → Build σ Unit → Prop
  | body (block : Block σ) (c : Nat) : TryBlock (tryBody block) c (block c)
  | catchClause (caught : ClassName) (block : Nat → Value → Build σ Unit) (c : Nat) (v : Value) :
      TryBlock (catchClause caught block) c (block c v)
  | finallyBlock (block : Block σ) (c : Nat) : TryBlock (finallyBlock block) c (block c)

/-- The calls that build an arm of a switch, each with its block. -/
inductive SwitchBlock : Switch σ Unit → Nat → Build σ Unit → Prop
  | case (labels : List CaseLabel) (block : Block σ) (c : Nat) :
      SwitchBlock (case labels block) c (block c)
  | defaultCase (block : Block σ) (c : Nat) : SwitchBlock (defaultCase block) c (block c)

inductive PartEnds (B : Build (δ × σ) Unit → Nat → Build σ Unit → Prop) :
    {α : Type} → Build (δ × σ) α → Fault → Work (δ × σ) → Prop
  | fail {α : Type} (e : Fault) (w : Work (δ × σ)) : PartEnds B (fail e : Build (δ × σ) α) e w
  | first {α β : Type} {m : Build (δ × σ) α} (f : α → Build (δ × σ) β) {e : Fault}
      {w : Work (δ × σ)} : PartEnds B m e w → PartEnds B (m >>= f) e w
  | second {α β : Type} (m : Build (δ × σ) α) {f : α → Build (δ × σ) β} {a : α} {e : Fault}
      {w : Work (δ × σ)} : PartEnds B (f a) e w → PartEnds B (m >>= f) e w
  | block {m : Build (δ × σ) Unit} {c : Nat} {step : Build σ Unit} {e : Fault}
      {w : Work (δ × σ)} : B m c step → Ends c step e ⟨w.body, w.carried.2⟩ → PartEnds B m e w

namespace Blames

variable {B : Build (δ × σ) Unit → Nat → Build σ Unit → Prop} {w : Work (δ × σ)}
  {F : Fault → Work (δ × σ) → Prop}

theorem draft (f : δ → α) : Blames w F (draft f : Build (δ × σ) α) :=
  fun _ _ _ h => by cases h

theorem redraft (f : δ → δ) : Blames w F (redraft f : Build (δ × σ) Unit) :=
  fun _ _ _ h => by cases h

theorem attempt (m : Build (δ × σ) α) : Blames w F (attempt m) := by
  intro outer inner w' hr
  unfold Build.attempt at hr
  cases h : m w <;> rw [h] at hr <;> cases hr

theorem mono {G : Fault → Work (δ × σ) → Prop} {m : Build (δ × σ) α} (hm : Blames w F m)
    (h : ∀ e w', F e w' → G e w') : Blames w G m := fun outer inner w' hr => h _ _
      (hm outer inner w' hr)

theorem outside {c : Nat} {m : Build (δ × σ) Unit} {step : Build σ Unit} (hB : B m c step)
    (hready : w.body.Ready c) : Blames w (PartEnds B m) (outside step : Build (δ × σ) Unit) := by
  obtain ⟨b, d, s⟩ := w
  intro outer inner w' hr
  cases hstep : step ⟨b, s⟩ with
  | ok a w1 =>
    simp only [outside, hstep] at hr
    cases hr
  | error e w1 =>
    simp only [outside, hstep] at hr
    cases hr
    exact .block hB ⟨_, hready, hstep⟩

theorem triple {I E : δ → Body → Prop} {J : α → δ → Body → Prop} {m : Build (δ × σ) α}
    {f : α → Build (δ × σ) β} (ht : Triple I m J E) (hI : I w.carried.1 w.body)
    (hm : Blames w F m) (hf : ∀ a w', J a w'.carried.1 w'.body → Blames w' F (f a)) :
    Blames w F (m >>= f) := by
  refine hm.bind fun a w' hr => hf a w' ?_
  have h := ht w hI
  rwa [hr] at h

end Blames

/-! ## Constructs -/

/-- The calls that take blocks, with the handles they use and the ways in which their blocks end
them. -/
inductive Construct (σ : Type) (here : Nat) :
    Build σ Unit → List Handle → (Fault → Work σ → Prop) → Prop
  | ifThen (cond : Value) {whenTrue : Block σ} : (∀ c, Writes σ c Unit (whenTrue c)) →
      Construct σ here (ifThen here cond whenTrue) [.value cond]
        fun e w => ∃ c, Ends c (whenTrue c) e w
  | ifElse (cond : Value) {whenTrue whenFalse : Block σ} :
      (∀ c, Writes σ c Unit (whenTrue c)) → (∀ c, Writes σ c Unit (whenFalse c)) →
      Construct σ here (ifElse here cond whenTrue whenFalse) [.value cond]
        fun e w => ∃ c, Ends c (whenTrue c) e w ∨ Ends c (whenFalse c) e w
  | block {inner : Block σ} : (∀ c, Writes σ c Unit (inner c)) →
      Construct σ here (block here inner) [] fun e w => ∃ c, Ends c (inner c) e w
  | whileLoop {test : Nat → Build σ Value} {body : Block σ} :
      (∀ c, Writes σ c Value (test c)) → (∀ c, Writes σ c Unit (body c)) →
      Construct σ here (whileLoop here test body) []
        fun e w => ∃ c, Ends c (test c) e w ∨ Ends c (body c) e w ∨
          ∃ w0 v, test c w0 = .ok v w ∧ ¬ w.body.InScope c (.value v)
  | loop {body : Block σ} : (∀ c, Writes σ c Unit (body c)) →
      Construct σ here (loop here body) [] fun e w => ∃ c, Ends c (body c) e w
  | forEachArray (array : Value) {body : Nat → Value → Build σ Unit} :
      (∀ c v, Writes σ c Unit (body c v)) →
      Construct σ here (forEachArray here array body) [.value array]
        fun e w => ∃ c v, Ends c (body c v) e w
  | forEachIterable (iterable : Value) {body : Nat → Value → Build σ Unit} :
      (∀ c v, Writes σ c Unit (body c v)) →
      Construct σ here (forEachIterable here iterable body) [.value iterable]
        fun e w => ∃ c v, Ends c (body c v) e w
  | tryCatch {parts : Try σ Unit} : WritesTry σ Unit parts →
      Construct σ here (tryCatch here parts) []
        fun e w => ∃ d, PartEnds TryBlock parts e ⟨w.body, d, w.carried⟩
  | switchInt (selector : Value) {arms : Switch σ Unit} : WritesSwitch σ Unit arms →
      Construct σ here (switchInt here selector arms) [.value selector]
        fun e w => ∃ d, PartEnds SwitchBlock arms e ⟨w.body, d, w.carried⟩
  | switchString (selector : Value) {arms : Switch σ Unit} : WritesSwitch σ Unit arms →
      Construct σ here (switchString here selector arms) [.value selector]
        fun e w => ∃ d, PartEnds SwitchBlock arms e ⟨w.body, d, w.carried⟩
  | switchEnum (selector : Value) {arms : Switch σ Unit} : WritesSwitch σ Unit arms →
      Construct σ here (switchEnum here selector arms) [.value selector]
        fun e w => ∃ d, PartEnds SwitchBlock arms e ⟨w.body, d, w.carried⟩

section constructs

variable (hw : w.body.Ready here)
include hw

variable {cond : Value} {array : Value} {body : Nat → Value → Build σ Unit}

theorem blames_ifThen (hcond : w.body.InScope here (.value cond)) {whenTrue : Block σ} :
    Blames w (fun e w => ∃ c, Ends c (whenTrue c) e w) (ifThen here cond whenTrue) := by
  refine .find (.operand cond _) (blames_operand hw.sound.descends hcond _) fun _ _ => ?_
  exact .child hw rfl (fun c _ hc _ _ _ _ => .block hc fun e w' h => ⟨c, h⟩) fun _ _ _ => .push _ _

theorem blames_ifElse (hcond : w.body.InScope here (.value cond))
    {whenTrue whenFalse : Block σ} (htrue : ∀ c, Writes σ c Unit (whenTrue c)) :
    Blames w (fun e w => ∃ c, Ends c (whenTrue c) e w ∨ Ends c (whenFalse c) e w)
      (ifElse here cond whenTrue whenFalse) := by
  refine .find (.operand cond _) (blames_operand hw.sound.descends hcond _) fun _ _ => ?_
  refine .openChild hw (by decide) fun c w1 hw1 hc _ _ _ => ?_
  refine .visit hw1 hc rfl (by decide) (fun base => (htrue c).keeps base)
    (fun hready => .block hready fun e w' h => ⟨c, .inl h⟩) fun _ w2 _ hw2 _ _ _ => ?_
  exact .child hw2 rfl (fun d _ hd _ _ _ _ => .block hd fun e w' h => ⟨d, .inr h⟩)
    fun _ _ _ => .push _ _

theorem blames_loop {body : Block σ} :
    Blames w (fun e w => ∃ c, Ends c (body c) e w) (loop here body) := by
  exact .child hw rfl (fun c _ hc _ _ _ _ => .block hc fun e w' h => ⟨c, h⟩) fun _ _ _ => .push _ _

omit hw in
theorem exitUnless_error {e : Fault} {w' : Work σ}
    (hr : exitUnless here cond w = .error e w') : w' = w := by
  have hfinds : Finds (operand here cond .boolean : Build σ Operand) _ := .operand cond .boolean
  unfold exitUnless at hr
  rcases hfinds w with ⟨o, hok, _⟩ | ⟨e, herr⟩
  · rw [bind_of_ok hok] at hr
    cases hr
  · rw [bind_of_error herr] at hr
    cases hr
    rfl

theorem blames_whileLoop {test : Nat → Build σ Value} {body : Block σ}
    (htest : ∀ c, Writes σ c Value (test c)) :
    Blames w (fun e w => ∃ c, Ends c (test c) e w ∨ Ends c (body c) e w ∨
      ∃ w0 v, test c w0 = .ok v w ∧ ¬ w.body.InScope c (.value v)) (whileLoop here test body) := by
  refine .openChild hw (by decide) fun c w1 hw1 hc _ _ _ => ?_
  refine .visit hw1 hc rfl (by decide) (fun base => (htest c).keeps base)
    (fun hready => .block hready fun e w' h => ⟨c, .inl h⟩) fun v w2 hv hw2 hready hc2 _ => ?_
  have hkeeps : ∀ base, Keeps base c (fun b => b.kindOf c = .loop)
    (exitUnless c v : Build σ Unit) :=
    (leaf_exitUnless (anywhere v)).keeps
  refine .bind (fun outer inner w' hr => ?_) fun _ w3 hr => ?_
  · cases exitUnless_error hr
    refine ⟨c, .inr (.inr ⟨w1, v, hv, fun hin => ?_⟩)⟩
    exact (leaf_exitUnless rfl).blames (F := fun _ _ => False) (.one hready hin) _ _ _ hr
  · have h := hkeeps w2.body w2 hready (.refl _ _) hc2.isKind
    rw [after_of_ok hr] at h
    exact .bind (.block h.1 fun e w' h => ⟨c, .inr (.inl h)⟩) fun _ _ _ => .push _ _

theorem blames_arrayPass (hloop : w.body.kindOf here = .loop) {index : Variable}
    (harray : w.body.Readable here array.index)
    (hindex : w.body.Readable here index.value.index)
    (hbody : ∀ c v, Writes σ c Unit (body c v))
    {f : Unit → Build σ β}
    (hf : ∀ w', w'.body.Ready here → w.body.Grows w'.body here →
      Blames w' (fun e w => ∃ c v, Ends c (body c v) e w) (f ())) :
    Blames w (fun e w => ∃ c v, Ends c (body c v) e w) (do
      let length ← arrayLength here array
      let position ← get here index
      exitUnless here (← compare here .lt position length)
      let position ← get here index
      f (← body here (← arrayLoad here array position))) := by
  have hfix : ∀ {b : Body} {v : Nat}, w.body.Readable here v → w.body.Extends b →
    b.Readable here v :=
    fun h he => h.mono he .refl
  refine .leafOn hw harray (leaf_arrayLength rfl) fun length w1 hlength hw1 hg1 => ?_
  have hown1 := gives_arrayLength array _ _ _ hlength
  refine .leafOn hw1 (hfix hindex hg1.toExtends) (leaf_get rfl)
    fun position w2 hposition hw2 hg2 => ?_
  have hown2 := gives_get index _ _ _ hposition
  have he2 := hg1.toExtends.trans hg2.toExtends
  refine .leaf hw2 (.two hw2 (inScope_of_readable hown2.readable)
    (hown1.inScope hg2.toExtends .refl))
    (leaf_compare (.inl rfl) (.inr rfl) .lt) fun test w3 htest hw3 hg3 => ?_
  have hown3 := gives_compare .lt position length _ _ _ htest
  have he3 := he2.trans hg3.toExtends
  refine .exitUnless hw3 (inScope_of_readable hown3.readable) (he3.kindOf hloop (by decide))
    fun w4 hw4 hg4 => ?_
  have he4 := he3.trans hg4.toExtends
  refine .leafOn hw4 (hfix hindex he4) (leaf_get rfl) fun position w5 hposition hw5 hg5 => ?_
  have hown5 := gives_get index _ _ _ hposition
  have he5 := he4.trans hg5.toExtends
  refine .leaf hw5 (.two hw5 (inScope_of_readable (hfix harray he5))
    (inScope_of_readable hown5.readable)) (leaf_arrayLoad (.inl rfl) (.inr rfl))
    fun element w6 _ hw6 hg6 => ?_
  refine .step hw6 (fun base => (hbody here element).keeps base)
    (.block hw6 fun e w' h => ⟨here, element, h⟩) fun _ w7 _ hw7 hg7 => ?_
  exact hf w7 hw7 (hg1.trans (hg2.trans (hg3.trans (hg4.trans (hg5.trans (hg6.trans hg7))))))

theorem blames_arrayLoop (harray : w.body.Readable here array.index)
    (hbody : ∀ c v, Writes σ c Unit (body c v)) :
    Blames w (fun e w => ∃ c v, Ends c (body c v) e w) (arrayLoop here array body) := by
  refine .openChild hw (by decide) fun looped w1 hw1 hloop he1 _ _ => ?_
  -- The update is opened in the loop, and stays there.
  have hlt := lt_size_of_parentOf hloop.parent
  have hg2 := (Body.Grows.refl w1.body here).openScope (some looped) .loopUpdate
  refine .bind (.openScope _ _) fun update w2 hr => ?_
  have hupdate : w2.body = (w1.body.openScope (some looped) .loopUpdate).2 ∧
      update = w1.body.scopes.size := by
    cases hr
    exact ⟨rfl, rfl⟩
  obtain ⟨hsame, rfl⟩ := hupdate
  have hparent : w2.body.parentOf w1.body.scopes.size = some looped := by
    rw [hsame]
    exact w1.body.parentOf_new _ _
  have hw2 : w2.body.Ready here := hsame ▸ hw1.openScope hlt (by decide)
  have hloop2 : Fresh w.body here .loop looped w2.body :=
    hsame ▸ stable_fresh _ _ _ (by decide) _ _ _ hg2 hloop
  have he2 : w.body.Extends w2.body := hsame ▸ he1.trans hg2.toExtends
  refine .leaf hw2 (.none hw2) (.constant rfl) fun zero w3 hzero hw3 hg3 => ?_
  have hconst : w3.body.InScope here (.value zero) := inScope_constant hzero
  refine .leaf hw3 (.one hw3 hconst) (leaf_declare rfl) fun index w4 hindex hw4 hg4 => ?_
  have hown := gives_declare zero _ _ _ hindex
  have hg4 := hg3.trans hg4
  have hloop4 := stable_fresh _ _ _ (by decide) _ _ _ hg4 hloop2
  have hin : w4.body.Within here looped := .of_parent hloop4.parent
  refine blames_arrayPass (hloop4.ready rfl hw4) hloop4.isKind
    (harray.mono (he2.trans hg4.toExtends) hin) (hown.readable.mono (.refl _) hin) hbody
    (f := fun _ => do
      inc w1.body.scopes.size index 1
      push here (.loop looped (some w1.body.scopes.size))) fun w5 hw5 hg5 => ?_
  have hparent5 := hg5.parentOf (hg4.parentOf hparent)
  have hinc : Leaf w1.body.scopes.size (Eq index.value) (fun _ => True)
    (inc _ index 1 : Build σ Unit) :=
    leaf_inc rfl 1
  refine .bind (hinc.blames ⟨lt_size_of_parentOf hparent5, hw5.sound.descends, ?_⟩)
    fun _ _ _ => .push _ _
  rintro _ rfl
  exact hown.inScope hg5.toExtends ((hg5.toExtends.within hin).trans (.of_parent hparent5))

theorem blames_forEachArray (harray : w.body.InScope here (.value array))
    (hbody : ∀ c v, Writes σ c Unit (body c v)) :
    Blames w (fun e w => ∃ c v, Ends c (body c v) e w) (forEachArray here array body) := by
  rw [forEachArray_eq]
  have helement : Finds (discard (elementType array) : Build σ Unit) fun _ _ => True :=
    (Finds.elementType array).andThen fun _ => .pure _ fun _ _ => trivial
  have hread : Finds (discard (operandAsIs here array) : Build σ Unit) fun b _ =>
      b.Descends → b.Readable here array.index := by
    refine (Finds.operandAsIs array).andThen fun o => .pure _ fun b h hd => ?_
    obtain ⟨_, _, hread, hsame⟩ := h
    exact hsame ▸ hread.readable hd
  refine .find helement (.bind ((Looks.elementType array).blames (.none hw)) fun _ _ _ => .pure _)
    fun _ _ => ?_
  refine .find hread (.bind (blames_operandAsIs hw.sound.descends harray) fun _ _ _ => .pure _)
    fun _ harray => ?_
  exact .child hw rfl (fun outer w1 hw1 hparent he _ _ =>
    blames_arrayLoop hw1 ((harray hw.sound.descends).mono he (.of_parent hparent)) hbody)
    fun _ _ _ => .push _ _

theorem blames_iterablePass (hloop : w.body.kindOf here = .loop) {iterator : Variable}
    (hiterator : w.body.Readable here iterator.value.index)
    {f : Unit → Build σ β}
    (hf : ∀ w', Blames w' (fun e w => ∃ c v, Ends c (body c v) e w) (f ())) :
    Blames w (fun e w => ∃ c v, Ends c (body c v) e w) (do
      let current ← get here iterator
      exitUnless here (← ask here .iteratorHasNext .boolean current)
      let current ← get here iterator
      f (← body here (← ask here .iteratorNext (.object .object) current))) := by
  refine .leafOn hw hiterator (leaf_get rfl) fun current w1 hr hw1 hg1 => ?_
  have hown := gives_get iterator _ _ _ hr
  refine .leafOn hw1 hown.readable (leaf_ask rfl rfl rfl) fun test w2 hr hw2 hg2 => ?_
  have hown := gives_ask _ _ current _ _ _ hr
  have he2 := hg1.toExtends.trans hg2.toExtends
  refine .exitUnless hw2 (inScope_of_readable hown.readable) (he2.kindOf hloop (by decide))
    fun w3 hw3 hg3 => ?_
  refine .leafOn hw3 (hiterator.mono (he2.trans hg3.toExtends) .refl) (leaf_get rfl)
    fun current w4 hr hw4 hg4 => ?_
  have hown := gives_get iterator _ _ _ hr
  refine .leafOn hw4 hown.readable (leaf_ask rfl rfl rfl) fun element w5 _ hw5 _ => ?_
  exact .bind (.block hw5 fun e w' h => ⟨here, element, h⟩) fun _ w6 _ => hf w6

theorem blames_iterableLoop {iterable : Value} (hiterable : w.body.InScope here (.value iterable)) :
    Blames w (fun e w => ∃ c v, Ends c (body c v) e w) (iterableLoop here iterable body) := by
  refine .openChild hw (by decide) fun looped w1 hw1 hloop he1 hid hvalues => ?_
  refine .leaf hw1 (.one hw1 (hiterable.enter he1 hid hvalues .refl)) (leaf_ask rfl rfl rfl)
    fun iterator w2 hr hw2 hg2 => ?_
  have hown := gives_ask _ _ iterable _ _ _ hr
  refine .leafOn hw2 hown.readable (leaf_declare rfl) fun iterator w3 hr hw3 hg3 => ?_
  have hown := gives_declare _ _ _ _ hr
  have hloop3 := stable_fresh _ _ _ (by decide) _ _ _ (hg2.trans hg3) hloop
  exact blames_iterablePass (hloop3.ready rfl hw3) hloop3.isKind
    (hown.readable.mono (.refl _) (.of_parent hloop3.parent)) (f := fun _ => push here
      (.loop looped none))
    fun _ => .push _ _

theorem blames_forEachIterable {iterable : Value}
    (hiterable : w.body.InScope here (.value iterable)) :
    Blames w (fun e w => ∃ c v, Ends c (body c v) e w) (forEachIterable here iterable body) := by
  rw [forEachIterable_eq]
  exact .child hw rfl (fun outer w1 hw1 hparent he hid hvalues =>
    blames_iterableLoop hw1 (hiterable.enter he hid hvalues (.of_parent hparent)))
    fun _ _ _ => .push _ _

end constructs

/-! ## Parts of try statements -/

section parts

variable {base : Body} {frame : Nat} {w : Work (TryDraft × σ)}
  {F : Fault → Work (TryDraft × σ) → Prop}

theorem blames_inStage (call : TryCall) (allowed : List TryStage) :
    Blames w F (inStage call allowed : Try σ Unit) := by
  refine .bind (.draft _) fun stage _ _ => ?_
  split
  · exact .fail fun _ _ h => by cases h
  · exact .pure _

theorem blames_ownFrame (call : TryCall) (f : TryFrame → α × TryFrame) :
    Blames w F (ownFrame call f : Try σ α) :=
  .bind (.draft _) fun _ _ _ => .bind (.draft _) fun _ _ _ => .bind (.change _) fun _ _ _ =>
    .ofOption (fun _ _ h => by cases h) _

theorem blames_placeholder : Blames w F (placeholder : Try σ Cleanup) :=
  .bind (.draft _) fun _ _ _ => .bind (.openScope _ _) fun _ _ _ =>
    .bind (blames_ownFrame _ _) fun _ _ _ => .bind (.draft _) fun _ _ _ => .pure _

theorem blames_openClause (caught : ClassName) :
    Blames w F (openClause caught : Try σ (Nat × Value)) := by
  refine .bind (blames_inStage _ _) fun _ _ _ => .bind (.draft _) fun known _ _ => ?_
  split
  · exact .fail_bind _ fun _ _ h => by cases h
  · exact .bind (.draft _) fun _ _ _ => .bind (.openScope _ _) fun _ _ _ =>
      .bind (.yield _ _ _) fun _ _ _ => .pure _

theorem blames_beginFinally : Blames w F (beginFinally : Try σ (List Nat)) :=
  .bind (blames_inStage _ _) fun _ _ _ => .bind (blames_ownFrame _ _) fun _ _ _ =>
    .bind (.alter _) fun _ _ _ => .bind (.redraft _) fun _ _ _ => .pure _

theorem blames_catchRest : Blames w F (catchRest : Try σ (Nat × Value)) :=
  .bind (.draft _) fun _ _ _ => .bind (.openScope _ _) fun _ _ _ =>
    .bind (.yield _ _ _) fun _ _ _ => .pure _

variable (hw : Trying base here frame w.carried.1 w.body)
include hw

variable {m : Try σ Unit} {block : Block σ}

theorem blames_tryBody (hm : ∀ c, TryBlock m c (block c)) :
    Blames w (PartEnds TryBlock m) (tryBody block) := by
  rw [tryBody_eq]
  refine .triple triple_openBody hw
    (.bind (blames_inStage _ _) fun _ _ _ => .bind (.draft _) fun _ _ _ => .openScope _ _)
    fun c w1 hc => ?_
  exact .bind (.outside (hm c) hc.2.2.2) fun _ _ _ => .bind (.redraft _) fun _ _ _ =>
    .bind blames_placeholder fun _ _ _ => .redraft _

theorem blames_catchClause (caught : ClassName)
    {block : Nat → Value → Build σ Unit} (hm : ∀ c v, TryBlock m c (block c v)) :
    Blames w (PartEnds TryBlock m) (catchClause caught block) := by
  rw [catchClause_eq]
  refine .triple (triple_openClause caught) hw (blames_openClause caught) fun ⟨c, v⟩ w1 hc => ?_
  exact .bind (.outside (hm c v) hc.2.2.2) fun _ _ _ =>
    .bind blames_placeholder fun _ _ _ => .redraft _

omit hw in
theorem blames_copies (hm : ∀ c, TryBlock m c (block c))
    (hblock : ∀ base c, Keeps base c (fun _ => True) (block c)) {all : List Nat}
    (hw : Filling base here frame all w.carried.1 w.body) (placeholders : List Nat)
    (hsub : ∀ c ∈ placeholders, c ∈ all) :
    Blames w (PartEnds TryBlock m)
      (placeholders.forM fun scope => outside (block scope)) := by
  induction placeholders generalizing w with
  | nil => exact .pure ()
  | cons c rest ih =>
    have hc := hsub c (.head ..)
    refine .triple (triple_copy hc hblock) hw (.outside (hm c) (hw.ready hc))
      fun _ w' hw' => ?_
    exact ih hw' fun x hx => hsub x (.tail _ hx)

theorem blames_finallyBlock (hm : ∀ c, TryBlock m c (block c))
    (hblock : ∀ base c, Keeps base c (fun _ => True) (block c)) :
    Blames w (PartEnds TryBlock m) (finallyBlock block) := by
  rw [finallyBlock_eq]
  refine .triple triple_beginFinally hw blames_beginFinally fun placeholders w1 hw1 => ?_
  refine .triple (.forM fun c hc => triple_copy hc hblock) hw1
    (blames_copies hm hblock hw1 placeholders fun _ h => h) fun _ w2 hw2 => ?_
  refine .triple (triple_catchRest (E := fun _ _ => True)) hw2.1 blames_catchRest
    fun ⟨handler, v⟩ w3 ⟨hpart, hown⟩ => ?_
  refine .bind (.openChild hpart.2.2.2 (by decide) fun copy w4 hw4 hcopy he _ _ => ?_)
    fun _ _ _ => .redraft _
  refine .visit hw4 hcopy rfl (by decide) (fun base => (hblock base copy).outside)
    (.outside (hm copy)) fun _ w5 _ hw5 _ hcopy hg => ?_
  have hvalue : w5.body.InScope handler (.value v) := hown.inScope (he.trans hg.toExtends) .refl
  refine .bind (.push _ _) fun _ w6 hr => ?_
  refine (leaf_throwValue (P := fun _ => True) rfl).blames
    ((Admits.one hw5 hvalue).after_calm (.push _) hr ?_)
  rintro _ rfl
  cases hr
  exact hvalue.enter (w5.body.extends_push _ hw5.isOpen.lt) rfl rfl .refl

end parts

theorem WritesTry.blames {α : Type} {m : Try σ α} : WritesTry σ α m →
    ∀ {base : Body} {here frame : Nat} {w : Work (TryDraft × σ)},
      Trying base here frame w.carried.1 w.body → Blames w (PartEnds TryBlock m) m
  | .pure a, _, _, _, _, _ => .pure a
  | .fail e, _, _, _, _, _ => fun _ _ _ hr => by cases hr; exact .fail _ _
  | .carry _, _, _, _, _, _ => fun _ _ _ hr => by cases hr
  | .bind (m := m) (f := f) hm hf, base, here, frame, _, hw =>
      .triple (hm.keeps base here frame) hw ((hm.blames hw).mono fun _ _ h => .first f h)
        fun a _ hw' => ((hf a).blames hw').mono fun _ _ h => .second m h
  | .attempt _, _, _, _, _, _ => .attempt _
  | .body _, _, _, _, _, hw => blames_tryBody hw (.body _)
  | .catchClause caught _, _, _, _, _, hw => blames_catchClause hw caught (.catchClause caught _)
  | .finallyBlock hblock, _, _, _, _, hw =>
      blames_finallyBlock hw (.finallyBlock _) fun base c => (hblock c).keeps base

/-! ## Arms of switches -/

section arms

variable {w : Work (SwitchDraft × σ)} {F : Fault → Work (SwitchDraft × σ) → Prop}

theorem blames_caseKey (label : CaseLabel) : Blames w F (caseKey label : Switch σ CaseKey) := by
  refine .bind (.draft _) fun kind _ _ => .bind (.draft _) fun table _ _ => ?_
  split
  · exact .pure _
  · exact .pure _
  · split
    · exact .fail fun _ _ h => by cases h
    · exact .bind (.change _) fun _ _ _ => .pure _
  · exact .fail fun _ _ h => by cases h

theorem blames_takeLabel (label : CaseLabel) : Blames w F (takeLabel label : Switch σ CaseKey) := by
  refine .bind (blames_caseKey label) fun key _ _ =>
    .bind (fun _ _ _ h => by cases h) fun known _ _ => ?_
  split
  · exact .fail_bind _ fun _ _ h => by cases h
  · exact .pure _

theorem blames_labels (labels : List CaseLabel) :
    Blames w F (labels.mapM takeLabel : Switch σ (List CaseKey)) := by
  induction labels generalizing w with
  | nil =>
    rw [mapM_nil]
    exact .pure _
  | cons label labels ih =>
    rw [mapM_cons]
    exact .bind (blames_takeLabel label) fun _ _ _ => .bind ih fun _ _ _ => .pure _

variable {base start : Body} {here frame : Nat} {m : Switch σ Unit} {block : Block σ}
  (hm : ∀ c, SwitchBlock m c (block c))
include hm

theorem blames_arm (hk : kind.isPlain ∧ kind ≠ .loop) (hne : kind ≠ .tryFrame) (keys : List CaseKey)
    (isDefault : Bool) (hw : Switching base start here frame w.carried.1 w.body) :
    Blames w (PartEnds SwitchBlock m) (arm kind keys isDefault block) := by
  refine .triple (E := fun _ _ => True) (.draft _) hw (.draft _) fun parent w1 h1 => ?_
  refine .triple (E := fun _ _ => True) (triple_openArm hk hne) h1 (.openScope _ _)
    fun c w2 ⟨h2, hc, _⟩ => ?_
  exact .bind (.outside (hm c) (h2.enter hc)) fun _ _ _ => .redraft _

variable (hw : Switching base start here frame w.carried.1 w.body)
include hw

theorem blames_case (labels : List CaseLabel) :
    Blames w (PartEnds SwitchBlock m) (case labels block) :=
  .triple (.mapM (fun label => keeps_takeLabel label base start here frame) labels) hw
    (blames_labels labels) fun keys _ hw' => blames_arm hm (by decide) (by decide) keys false hw'

theorem blames_defaultCase : Blames w (PartEnds SwitchBlock m) (defaultCase block) := by
  refine .triple (E := fun _ _ => True) (.draft _) hw (.draft _) fun known w1 h1 => ?_
  split
  · exact .fail_bind _ fun _ _ h => by cases h
  · refine .bind (.redraft _) fun _ w2 hr => ?_
    cases hr
    exact blames_arm hm (by decide) (by decide) [] true (h1.1.mono h1.1.ready (.refl _ _) rfl rfl)

end arms

theorem WritesSwitch.blames {α : Type} {m : Switch σ α} : WritesSwitch σ α m →
    ∀ {base start : Body} {here frame : Nat} {w : Work (SwitchDraft × σ)},
      Switching base start here frame w.carried.1 w.body → Blames w (PartEnds SwitchBlock m) m
  | .pure a, _, _, _, _, _, _ => .pure a
  | .fail e, _, _, _, _, _, _ => fun _ _ _ hr => by cases hr; exact .fail _ _
  | .carry _, _, _, _, _, _, _ => fun _ _ _ hr => by cases hr
  | .bind (m := m) (f := f) hm hf, base, start, here, frame, _, hw =>
      .triple (hm.keeps base start here frame) hw ((hm.blames hw).mono fun _ _ h => .first f h)
        fun a _ hw' => ((hf a).blames hw').mono fun _ _ h => .second m h
  | .attempt _, _, _, _, _, _, _ => .attempt _
  | .case labels _, _, _, _, _, _, hw => blames_case (.case labels _) hw labels
  | .defaultCase _, _, _, _, _, _, hw => blames_defaultCase (.defaultCase _) hw
  | .setFallthrough _, _, _, _, _, _, _ => .redraft _
  | .target, _, _, _, _, _, _ => .bind (.draft _) fun _ _ _ => .see _

theorem blames_withDraft {B : Build (δ × σ) Unit → Nat → Build σ Unit → Prop} {d : δ}
    {m : Build (δ × σ) Unit} (hm : Blames ⟨w.body, d, w.carried⟩ (PartEnds B m) m) :
    Blames w (fun e w' => ∃ d, PartEnds B m e ⟨w'.body, d, w'.carried⟩) (withDraft d m) := by
  intro outer inner w' hr
  cases hrun : m ⟨w.body, d, w.carried⟩ with
  | ok u w1 =>
    simp only [withDraft, hrun] at hr
    cases hr
  | error e w1 =>
    simp only [withDraft, hrun] at hr
    cases hr
    exact ⟨w1.carried.1, hm outer inner w1 hrun⟩

theorem blames_closeFrame (draft : TryDraft) : Blames w F (closeFrame draft : Build σ Unit) := by
  unfold closeFrame
  split
  · refine .bind (.change _) fun closed _ _ => ?_
    split
    · exact .fail fun _ _ h => by cases h
    · exact .pure _
  · exact .pure _

/-! ## Statements -/

section statements

variable (hw : w.body.Ready here)
include hw

theorem blames_tryCatch {parts : Try σ Unit} (hparts : WritesTry σ Unit parts) :
    Blames w (fun e w => ∃ d, PartEnds TryBlock parts e ⟨w.body, d, w.carried⟩)
      (tryCatch here parts) := by
  intro outer inner w' hr
  rw [tryCatch_run] at hr
  refine Blames.bind (blames_withDraft (hparts.blames (trying_openTry hw (.refl _ _))))
    (fun draft w1 _ => ?_) outer inner w' hr
  unfold finishTry
  split
  · exact .fail fun _ _ h => by cases h
  · exact .bind (blames_closeFrame draft) fun _ _ _ => .push _ _

variable {arms : Switch σ Unit} {selector : Value}

theorem blames_switchOn (kind : SwitchKind) (table : Option Nat) (selector : Operand)
    (harms : WritesSwitch σ Unit arms) :
    Blames w (fun e w => ∃ d, PartEnds SwitchBlock arms e ⟨w.body, d, w.carried⟩)
      (switchOn here kind table selector arms) := by
  refine .openChild hw (by decide) fun frame w1 hw1 hframe _ _ _ => ?_
  exact .bind (blames_withDraft (harms.blames (switching_start kind table hw1 hframe)))
    fun _ _ _ => .push _ _

theorem blames_switchPlain (kind : SwitchKind) (type : FieldType)
    (hselector : w.body.InScope here (.value selector)) (harms : WritesSwitch σ Unit arms) :
    Blames w (fun e w => ∃ d, PartEnds SwitchBlock arms e ⟨w.body, d, w.carried⟩)
      (operand here selector type >>= fun o => switchOn here kind none o arms) :=
  .find (.operand selector _) (blames_operand hw.sound.descends hselector _)
    fun o _ => blames_switchOn hw kind none o harms

omit hw in
theorem blames_tableFor (enumType : ClassName) :
    Blames w F (tableFor enumType : Build σ (Nat × MethodRef)) := by
  refine .bind (.see _) fun settings _ _ => .bind (.see _) fun found _ _ => ?_
  split
  · exact .pure _
  · refine .bind (.see _) fun owner _ _ => .bind (.see _) fun siblings _ _ =>
      .bind ?_ fun _ _ _ => .change _
    intro outer inner w' hr
    cases hcreate : OrdinalTable.create settings owner enumType siblings with
    | ok table =>
      rw [hcreate] at hr
      cases hr
    | error e =>
      obtain ⟨flaw, rfl⟩ := OrdinalTable.fault_of_create hcreate
      rw [hcreate] at hr
      cases hr

theorem blames_switchEnum (hselector : w.body.InScope here (.value selector))
    (harms : WritesSwitch σ Unit arms) :
    Blames w (fun e w => ∃ d, PartEnds SwitchBlock arms e ⟨w.body, d, w.carried⟩)
      (switchEnum here selector arms) := by
  refine .find (.typeOf selector) (blames_typeOf selector) fun type _ => ?_
  split
  · next enumType _ =>
    refine .find (.operandAsIs selector) (blames_operandAsIs hw.sound.descends hselector)
      fun o _ => ?_
    have hkeeps : ∀ base, Keeps base here (fun _ => True)
        (tableFor enumType : Build σ (Nat × MethodRef)) := by
      intro base
      rw [← bind_pure (tableFor enumType)]
      exact keeps_tableFor stable_true fun a _ => .pure a
    exact .step hw hkeeps (blames_tableFor enumType) fun ⟨table, accessor⟩ w1 _ hw1 _ =>
      blames_switchOn hw1 _ _ o harms
  · exact .mismatch _ _

/-- A call with blocks is refused for the sake of scopes only if one of its blocks is, as
long as what it was handed itself is in scope. -/
theorem Construct.blames {m : Build σ Unit} {handles : List Handle}
    (h : Construct σ here m handles F)
    (hin : ∀ handle ∈ handles, w.body.InScope here handle) : Blames w F m := by
  have hone : ∀ {v : Value}, handles = [.value v] → w.body.InScope here (.value v) :=
    fun heq => hin _ (heq ▸ .head _)
  cases h with
  | ifThen cond _ => exact blames_ifThen hw (hone rfl)
  | ifElse cond htrue _ => exact blames_ifElse hw (hone rfl) htrue
  | block _ =>
    exact .child hw rfl (fun c _ hc _ _ _ _ => .block hc fun e w' h => ⟨c, h⟩) fun _ _ _ =>
      .push _ _
  | whileLoop htest _ => exact blames_whileLoop hw htest
  | loop _ => exact blames_loop hw
  | forEachArray array hbody => exact blames_forEachArray hw (hone rfl) hbody
  | forEachIterable iterable _ => exact blames_forEachIterable hw (hone rfl)
  | tryCatch hparts => exact blames_tryCatch hw hparts
  | switchInt selector harms => exact blames_switchPlain hw _ _ (hone rfl) harms
  | switchString selector harms => exact blames_switchPlain hw _ _ (hone rfl) harms
  | switchEnum selector harms => exact blames_switchEnum hw (hone rfl) harms

end statements

end Build

/-- An operation of the scope `s` reads and writes values that can be read there, and leaves
or repeats scopes around it, of which only loops can be repeated. -/
structure Body.Confined (b : Body) (s : Nat) (op : Operation) : Prop where
  reads : ∀ o ∈ op.operands, b.Readable s o.value
  writes : ∀ v, op.writes = some v → b.Readable s v
  jump : ∀ kind target cleanups, op = .jump kind target cleanups →
    b.Within target s ∧ (kind = .again → b.kindOf target = .loop)
  exitUnless : ∀ cond target, op = .exitUnless cond target →
    b.Within target s ∧ b.kindOf target = .loop

theorem Body.SoundUpTo.confined (h : b.Sound) {s : Nat} {op : Operation}
    (hop : op ∈ b.operations s) : b.Confined s op where
  reads o ho := by
    obtain ⟨l1, l2, hsplit⟩ := append_of_mem hop
    exact (h.visible hsplit o.value
      (mem_append_left _ (mem_map_of_mem ho))).readable
  writes v hv := h.writes_readable hop hv
  jump kind target cleanups heq := by
    subst heq
    obtain ⟨hin, hloop, _⟩ := h.fits hop
    exact ⟨hin, hloop⟩
  exitUnless cond target heq := by
    subst heq
    obtain ⟨rfl, hloop⟩ := h.fits hop
    exact ⟨.refl, hloop⟩

/-- Operations keep to the scopes of what they use, in every body that calls lead to, and with the
call of a constructor that is added to it. Calls
are made when the body is ready for their scope, at first and ever after; those that are
handed nothing from elsewhere are not refused for the sake of scopes, unless a block of
theirs is. -/
theorem handles_confined :
    (∀ b : Body, b.Built → b.Ready 0 ∧ (∀ s, ∀ op ∈ b.operations s, b.Confined s op) ∧
      ∀ b', b.completeInit = .ok b' → ∀ s, ∀ op ∈ b'.operations s, b'.Confined s op) ∧
    (∀ (σ α : Type) (here : Nat) (m : Build σ α) (w : Work σ), Build.Writes σ here α m →
      w.body.Ready here → (after m w).body.Ready here) ∧
    (∀ (σ α : Type) (here : Nat) (m : Build σ α) (handles : List Build.Handle) (w : Work σ),
      Build.Call σ here m handles → w.body.Ready here →
      (∀ handle ∈ handles, w.body.InScope here handle) →
      ∀ outer inner w', m w ≠ .error (.scopeViolation outer inner) w') ∧
    (∀ (σ : Type) (here : Nat) (m : Build σ Unit) (handles : List Build.Handle)
      (blocks : Fault → Work σ → Prop) (w : Work σ),
      Build.Construct σ here m handles blocks → w.body.Ready here →
      (∀ handle ∈ handles, w.body.InScope here handle) →
      ∀ outer inner w', m w = .error (.scopeViolation outer inner) w' →
        blocks (.scopeViolation outer inner) w') := by
  refine ⟨fun b hb => ⟨hb.ready, fun s op hop => hb.ready.sound.confined hop,
    fun b' hinit s op hop =>
      (hb.finished.completeInit hinit).sound.confined hop⟩,
    fun σ α here m w hm hw => (hm.keeps w.body w hw (.refl _ _) trivial).1,
    fun σ α here m handles w hm hw hin outer inner w' hr => ?_,
    fun σ here m handles blocks w hm hw hin => hm.blames hw hin⟩
  exact hm.blames (F := fun _ _ => False) hw hin outer inner w' hr

/-- The loop that counts down changes a variable of the method around it, which the method
can go on to change. -/
theorem handles_confined_countdown :
    countdown.Built ∧
      Operation.simple (.inc 1 (-1)) [] none ∈ countdown.operations 1 ∧
      countdown.Confined 1 (.simple (.inc 1 (-1)) [] none) ∧
      countdown.InScope 0 (.value ⟨⟨0, 0⟩, 1⟩) ∧
      ∀ outer inner w', inc 0 ⟨⟨⟨0, 0⟩, 1⟩⟩ (-1) (⟨countdown, ()⟩ : Work Unit) ≠
        .error (.scopeViolation outer inner) w' := by
  obtain ⟨hready, hops, _⟩ := handles_confined.1 _ built_countdown
  have hmem : Operation.simple (.inc 1 (-1)) [] none ∈ countdown.operations 1 :=
    mem_of_getElem? (show (countdown.operations 1)[3]? = _ from rfl)
  have hin : countdown.InScope 0 (.value ⟨⟨0, 0⟩, 1⟩) := by
    intro info owner hinfo howner
    cases hinfo
    cases howner
    exact .refl
  refine ⟨built_countdown, hmem, hops 1 _ hmem, hin, ?_⟩
  refine handles_confined.2.2.1 Unit Unit 0 _ _ ⟨countdown, ()⟩
    (.inc ⟨⟨⟨0, 0⟩, 1⟩⟩ (-1)) hready fun handle hh => ?_
  cases mem_singleton.mp hh
  exact hin

end ClassAssembler
