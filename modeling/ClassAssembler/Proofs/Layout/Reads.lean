import ClassAssembler.Proofs.Body.Homes
import ClassAssembler.Proofs.Layout.Works

/-!
# Reads, writes and calls of a plot

Whatever is read where a body is laid out is an operand of an operation that is laid out.
-/

namespace ClassAssembler

open List

def Point.Tells (may : Grant) : Point → Prop
  | .reads v => may.reads v
  | .yields v => may.writes v
  | .insn i role _ => (∀ m, i = .invoke .static m → may.calls m) ∧ ∀ v, role = .store v →
    may.writes v
  | _ => True

namespace Plot

def Tells (may : Grant) (p : Plot) : Prop := Every (Point.Tells may) (fun _ => True) p

section operations

variable {may : Grant} {body : Body} {homes : Array Home} {inner : Inner}

theorem Works.tells {site : Site} {p : Plot} (h : Works site may p) : Tells may p := by
  refine h.mono (fun pt hpt => ?_) fun _ _ => trivial
  cases hpt with
  | insn h => exact ⟨h, fun _ h => by cases h⟩
  | touch h hwrites => exact ⟨fun m hm => absurd hm (h m), hwrites⟩
  | reads h | yields h => exact h
  | _ => trivial

theorem tells_label (l : Label) (status : Option Status) :
    Tells may (point (.label l status)) := .point trivial

theorem tells_branch (site : Site) (br : Branch) : Tells may (branch site br) := .point trivial

variable {scope : Nat} {status : Status}

theorem tells_enclosed (h : Tells may (inner scope status)) :
    Tells may (enclosed body inner scope status) :=
  ((tells_label _ _).append h).append (tells_label _ _)

theorem tells_hole (owners : List Nat) {p : Plot} (h : Tells may p) : Tells may (hole owners p) :=
  .fresh fun start => .fresh fun stop =>
    (((tells_label start _).append h).append (tells_label stop _)).append (.mark trivial)

theorem tells_exit {cleanups : List Cleanup} {final : Plot}
    (h : ∀ c ∈ cleanups.map Cleanup.scope, ∀ status, Tells may (inner c status))
    (hfinal : Tells may final) : Tells may (exit body inner status cleanups final) := by
  refine .append ?_ (tells_hole _ hfinal)
  suffices hall : ∀ before, Tells may (cleanupsFrom body inner status before cleanups) from hall []
  clear hfinal
  induction cleanups with
  | nil => exact fun _ => .nil
  | cons cleanup rest ih =>
    intro before
    refine .append (tells_hole _ (tells_enclosed (h _ (.head ..) _))) ?_
    exact ih (fun c hc => h c (.tail _ hc)) _

theorem tells_guarded {scope frame part : Nat} {kept : List Nat}
    {cleanups : List Cleanup} (hpart : ∀ status, Tells may (inner part status))
    (h : ∀ c ∈ cleanups.map Cleanup.scope, ∀ status, Tells may (inner c status)) :
    Tells may (guarded body inner scope frame part status kept cleanups) :=
  (tells_enclosed (hpart status)).append (tells_exit h (tells_branch _ _))

theorem tells_tryCatch {statement : TryStatement}
    (h : ∀ c ∈ (Operation.tryCatch statement).nested, ∀ status, Tells may (inner c status)) :
    Tells may (tryCatch body inner scope status statement) := by
  have hmem := fun {c} hc => h c (Operation.mem_nested_tryCatch.mpr (.inr hc))
  refine .append (tells_label _ _) (.fresh fun start => .append (tells_label start _) ?_)
  refine .withHoles (tells_guarded (h _ (.head ..)) fun c hc => hmem (.inl hc))
    fun bodyHoles => .fresh fun bodyEnd => ?_
  refine .append (.append (tells_label bodyEnd _) (.concat fun _ _ => .point trivial)) ?_
  refine .withHoles (.concat fun clause hclause => tells_guarded
    (hmem (.inr (.inl ⟨clause, hclause, .head ..⟩)))
    fun c hc => hmem (.inr (.inl ⟨clause, hclause, .tail _ hc⟩)))
    fun clauseHoles => .fresh fun clausesEnd => ?_
  refine .append (.append (tells_label clausesEnd _) ?_) (tells_label _ _)
  cases hhandler : statement.catchAll with
  | none => exact .nil
  | some handler =>
    exact .append (.point trivial)
      (tells_enclosed (hmem (.inr (.inr hhandler)) _))

theorem tells_operation {op : Operation}
    (hoperands : ∀ v ∈ op.operands.map Operand.value, may.reads v)
    (hwrites : ∀ v ∈ op.defines ++ op.changes, may.writes v)
      (hcalls : ∀ m, op.Calls m → may.calls m)
    (hinner : ∀ c ∈ op.nested, ∀ status, Tells may (inner c status)) :
    Tells may (operation body homes inner scope status op) := by
  have hone : ∀ o ∈ op.operands, may.reads o.value := fun o ho => hoperands _ (mem_map_of_mem ho)
  have hload : ∀ o ∈ op.operands, ∀ site, Tells may (load body homes site o) := fun o ho _ =>
    (works_load (hone o ho) fun m h => hcalls m (.inl ⟨o, ho, h⟩)).tells
  cases op with
  | simple act operands result =>
    exact (works_simple _ hone hwrites hcalls).tells
  | block nested => exact tells_enclosed (hinner _ (.head _) _)
  | branch cond whenTrue whenFalse =>
    have hcond := hload cond (.head _) ⟨scope, none⟩
    have htrue := hinner whenTrue (mem_append_right _ (.head _))
    cases whenFalse with
    | none => exact (hcond.append (tells_branch _ _)).append (tells_enclosed (htrue _))
    | some other =>
      have hfalse := hinner other (mem_append_left _ (.head _))
      exact (((hcond.append (tells_branch _ _)).append (tells_enclosed (hfalse _))).append
        (tells_branch _ _)).append (tells_enclosed (htrue _))
  | loop nested update =>
    refine .append (.append (.append (.append (.append (tells_label _ _)
      (hinner _ (.head ..) _)) (tells_label _ _)) (.concat fun c hc => ?_))
      (tells_branch _ _)) (tells_label _ _)
    exact tells_enclosed (hinner c (.tail _ hc) _)
  | exitUnless cond target =>
    exact (hload _ (.head _) _).append (tells_branch _ _)
  | jump kind target cleanups => exact tells_exit hinner (tells_branch _ _)
  | ret value cleanups =>
    refine tells_exit hinner (.append (.concat fun o ho => hload o ?_ _) (tells_branch _ _))
    cases value with
    | none => cases ho
    | some operand => exact ho
  | throw value =>
    exact (hload _ (.head _) _).append (tells_branch _ _)
  | tryCatch statement => exact tells_tryCatch hinner
  | switch statement =>
    refine .append (.append (.append (tells_label _ _)
      (works_dispatch _ (hone _ (.head _)) hcalls).tells) (.concat fun arm harm => ?_))
      (tells_label _ _)
    refine .append (tells_enclosed (hinner _ (mem_map_of_mem harm) _)) ?_
    split
    · exact .nil
    · exact tells_branch _ _

theorem tells_inOrder {ops : List Operation}
    (hoperands : ∀ op ∈ ops, ∀ v ∈ op.operands.map Operand.value, may.reads v)
    (hwrites : ∀ op ∈ ops, ∀ v ∈ op.defines ++ op.changes, may.writes v)
    (hcalls : ∀ op ∈ ops, ∀ m, op.Calls m → may.calls m)
    (hinner : ∀ op ∈ ops, ∀ c ∈ op.nested, ∀ status, Tells may (inner c status)) :
    Tells may (inOrder body homes inner scope ops status) := by
  induction ops generalizing status with
  | nil => exact .nil
  | cons op rest ih =>
    refine .append (tells_operation (hoperands op (.head ..))
      (hwrites op (.head ..)) (hcalls op (.head ..))
      (hinner op (.head ..))) ?_
    exact ih (fun o ho => hoperands o (.tail _ ho))
      (fun o ho => hwrites o (.tail _ ho))
      (fun o ho => hcalls o (.tail _ ho))
      fun o ho => hinner o (.tail _ ho)

/-- A scope reads, writes and calls what its operations do, and those in its region. -/
theorem tells_operations (depth : Nat)
    (h : ∀ t op, body.Region scope t → op ∈ body.operations t →
      (∀ v ∈ op.operands.map Operand.value, may.reads v) ∧
      (∀ v ∈ op.defines ++ op.changes, may.writes v) ∧ ∀ m, op.Calls m → may.calls m) :
    Tells may (operations body homes depth scope status) := by
  induction depth generalizing scope status with
  | zero => exact .nil
  | succ depth ih =>
    refine tells_inOrder (fun op hop => (h scope op .refl hop).1)
      (fun op hop => (h scope op .refl hop).2.1) (fun op hop => (h scope op .refl hop).2.2)
      fun op hop c hc status => ?_
    refine ih fun t op' ht => h t op' ?_
    exact (Body.Region.of_owned (Body.mem_owned hop (Body.mem_owned_of_nested hc))).trans ht

end operations
end Plot

namespace Body

variable {b : Body}

theorem tells_plot (hb : b.Sound) : Plot.Tells ⟨fun v => Lay.homeOf b.allocate.homes v ≠ .nowhere,
    fun _ => True, fun m => ∃ s, ∃ op ∈ b.operations s, op.Calls m⟩ (b.plot b.allocate.homes) := by
  refine Plot.tells_enclosed (Plot.tells_operations _ fun t op ht hop => ⟨fun v hv => ?_,
    fun _ _ => trivial, fun m hm => ⟨t, op, hop, hm⟩⟩)
  obtain ⟨l1, l2, hops⟩ := append_of_mem hop
  exact home_read hb ht hops hv

theorem reads_home (hb : b.Sound) {n v : Nat}
    (hv : .reads v ∈ (b.plot b.allocate.homes n).points) :
    Lay.homeOf b.allocate.homes v ≠ .nowhere := (tells_plot hb n).1 _ hv

/-- A body is laid out as it is plotted, unless there are too many slots. -/
theorem layOut_ok_or_overflow (hb : b.Sound) :
    (∃ layout, b.layOut b.allocate.homes = .ok layout ∧
      layout.items.toList =
        (b.plot b.allocate.homes b.nextLabel).points.filterMap Point.item?) ∨
    ∃ n, b.layOut b.allocate.homes = .error (.code (.localsOverflow n)) := by
  rcases b.layOut_eq b.allocate.homes with ⟨layout, hlay, hitems, _⟩ | ⟨fault, hlay, hfails⟩
  · exact .inl ⟨layout, hlay, hitems⟩
  · rcases hfails with ⟨n, rfl, _⟩ | ⟨v, hv, hhome⟩
    · exact .inr ⟨n, hlay⟩
    · exact absurd hhome (reads_home hb hv)

end Body
end ClassAssembler
