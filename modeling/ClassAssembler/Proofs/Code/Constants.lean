import ClassAssembler.Proofs.Code.Calls

/-!
# Pushes of constants

Whichever way a number is pushed, by an instruction of its own, by a short `int` that is converted
or from the constant pool, it is pushed exactly.
-/

namespace ClassAssembler

/-- Drops the last bits of a number and rounds to the nearest, or the even one of two. -/
def roundShift (m bits : Nat) : Nat :=
  let up := 2 * (m % twoTo bits)
  if twoTo bits < up ∨ up = twoTo bits ∧ m / twoTo bits % 2 = 1 then m / twoTo bits + 1
  else m / twoTo bits

/-- The bits of the number nearest to an integer that the format has a number beyond. -/
def BinaryFormat.ofInt (format : BinaryFormat) (n : Int) : Nat :=
  if n = 0 then 0
  else
    let top := n.natAbs.log2
    let mantissa :=
      if top ≤ format.fractionBits then n.natAbs * twoTo (format.fractionBits - top)
      else roundShift n.natAbs (top - format.fractionBits)
    (if n < 0 then twoTo (format.fractionBits + format.exponentBits) else 0) +
      (twoTo (format.exponentBits - 1) + top - 2) * twoTo format.fractionBits + mantissa

/-- Infinities, what is not a number, subnormal numbers and negative zero. -/
def BinaryFormat.Special (format : BinaryFormat) (bits : Nat) : Prop :=
  bits / twoTo format.fractionBits % twoTo format.exponentBits = format.topExponent ∨
  bits / twoTo format.fractionBits % twoTo format.exponentBits = 0 ∧ bits ≠ 0

instance (format : BinaryFormat) (bits : Nat) : Decidable (format.Special bits) :=
  inferInstanceAs (Decidable (_ ∨ _))

namespace Binary

variable {format : BinaryFormat} {bits : Nat} {n : Int}

theorem twoTo_add (m n : Nat) : twoTo (m + n) = twoTo m * twoTo n := Nat.pow_add 2 m n

theorem twoTo_pos (n : Nat) : 0 < twoTo n := Nat.two_pow_pos n

theorem toInt?_finite {negative gap : Bool} {m : Nat} {exponent : Int} (hm : m ≠ 0)
    (h : toInt? ⟨negative, .finite m exponent gap⟩ = some n) :
    n ≠ 0 ∧ (n < 0 ↔ negative = true) ∧ (0 ≤ exponent ∧ m ≤ n.natAbs ∨
      ∃ k : Nat, exponent = -k ∧ n.natAbs * twoTo k = m) := by
  have hsigned : ∀ q : Nat, q ≠ 0 → (if negative = true then -(q : Int) else q) = n →
      n ≠ 0 ∧ (n < 0 ↔ negative = true) ∧ n.natAbs = q := by
    rintro q hq rfl
    cases negative <;> simp <;> omega
  unfold toInt? at h
  dsimp only at h
  rw [if_neg hm] at h
  by_cases hexponent : 0 ≤ exponent
  · have hle := Nat.le_mul_of_pos_right m (twoTo_pos exponent.toNat)
    obtain ⟨hne, hneg, habs⟩ := hsigned (m * twoTo exponent.toNat) (by omega)
      (by simpa [hexponent] using h)
    exact ⟨hne, hneg, .inl ⟨hexponent, by rwa [habs]⟩⟩
  · by_cases hmod : m % twoTo (-exponent).toNat = 0
    · have hmul := Nat.div_mul_cancel (Nat.dvd_of_mod_eq_zero hmod)
      have hquot : m / twoTo (-exponent).toNat ≠ 0 :=
        fun hz => hm (by rw [← hmul, hz, Nat.zero_mul])
      obtain ⟨hne, hneg, habs⟩ := hsigned _ hquot (by simpa [hexponent, hmod] using h)
      exact ⟨hne, hneg, .inr ⟨(-exponent).toNat, by omega, by rw [habs, hmul]⟩⟩
    · simp [hexponent, hmod] at h

/-- A number that equals an integer is zero, without a sign, or its exponent is neither the least
nor the greatest one. -/
theorem toInt?_eq_some (hp : 0 < format.fractionBits) (he : 2 ≤ format.exponentBits)
    (h : (decode format bits).toInt? = some n) :
    let sign := bits / twoTo (format.fractionBits + format.exponentBits) % 2
    let field := bits / twoTo format.fractionBits % twoTo format.exponentBits
    let fraction := bits % twoTo format.fractionBits
    (n = 0 ∧ sign = 0 ∧ field = 0 ∧ fraction = 0) ∨
    (n ≠ 0 ∧ (n < 0 ↔ sign = 1) ∧ field ≠ 0 ∧ field ≠ format.topExponent ∧
      (twoTo format.fractionBits ≤ n.natAbs ∨
        ∃ k, n.natAbs * twoTo k = twoTo format.fractionBits + fraction ∧
          field + k + 1 = twoTo (format.exponentBits - 1) + format.fractionBits)) := by
  intro sign field fraction
  have hsign : sign < 2 := Nat.mod_lt _ (Nat.succ_pos 1)
  have hfraction : fraction < twoTo format.fractionBits := Nat.mod_lt _ (twoTo_pos _)
  have hbias : 2 ≤ twoTo (format.exponentBits - 1) :=
    Nat.pow_le_pow_right (Nat.succ_pos 1) (show 1 ≤ format.exponentBits - 1 by omega)
  have h : toInt? ⟨sign == 1, if field = format.topExponent then
      if fraction = 0 then .infinite else .nan
    else if field = 0 then .finite fraction format.leastExponent false
    else .finite (twoTo format.fractionBits + fraction) (format.leastExponent + (field - 1))
      (fraction == 0 && field != 1)⟩ = some n := h
  unfold BinaryFormat.leastExponent at h
  split at h
  · split at h <;> cases h
  · next htop =>
    split at h
    · next hzero =>
      by_cases hf : fraction = 0
      · rw [hf] at h
        have hpositive : ¬sign = 1 := fun hs => by simp [toInt?, hs] at h
        have hn : n = 0 := by simpa [toInt?, hpositive, @eq_comm _ n] using h
        exact .inl ⟨hn, by omega, hzero, hf⟩
      · -- The last bit of such a number is too small.
        exfalso
        obtain ⟨hne, _, ⟨hexponent, _⟩ | ⟨k, hk, hmul⟩⟩ := toInt?_finite hf h
        · omega
        · have hle : twoTo format.fractionBits ≤ twoTo k :=
            Nat.pow_le_pow_right (Nat.succ_pos 1) (by omega)
          have := Nat.le_mul_of_pos_left (twoTo k) (Int.natAbs_pos.mpr hne)
          omega
    · next hzero =>
      obtain ⟨hne, hneg, hcases⟩ := toInt?_finite (by omega) h
      refine .inr ⟨hne, by simpa using hneg, hzero, htop, ?_⟩
      rcases hcases with ⟨_, hle⟩ | ⟨k, hk, hmul⟩
      · exact .inl (by omega)
      · exact .inr ⟨k, hmul, by omega⟩

theorem eq_fields (hbits : bits < twoTo (format.fractionBits + format.exponentBits + 1)) :
    bits = bits / twoTo (format.fractionBits + format.exponentBits) % 2 *
        twoTo (format.fractionBits + format.exponentBits) +
      bits / twoTo format.fractionBits % twoTo format.exponentBits * twoTo format.fractionBits +
      bits % twoTo format.fractionBits := by
  rw [twoTo_add _ 1, show twoTo 1 = 2 from rfl, Nat.mul_comm] at hbits
  rw [Nat.mod_eq_of_lt (Nat.div_lt_of_lt_mul (by rwa [Nat.mul_comm])), twoTo_add,
    ← Nat.div_div_eq_div_mul, Nat.mul_comm (twoTo _) (twoTo _), ← Nat.mul_assoc, ← Nat.add_mul,
    Nat.div_add_mod', Nat.div_add_mod']

/-- Infinities, what is not a number, subnormal numbers and negative zero are no integers. -/
theorem toInt?_special (hp : 0 < format.fractionBits) (he : 2 ≤ format.exponentBits)
    (hbits : bits < twoTo (format.fractionBits + format.exponentBits + 1))
    (h : format.Special bits) : (decode format bits).toInt? = none := by
  refine Option.eq_none_iff_forall_ne_some.mpr fun n hn => ?_
  rcases toInt?_eq_some hp he hn with ⟨_, hsign, hfield, hfraction⟩ | ⟨_, _, hfield, htop, _⟩
  · have hzero := eq_fields hbits
    rw [hsign, hfield, hfraction, Nat.zero_mul, Nat.zero_mul] at hzero
    have hlarge : 2 ≤ twoTo format.exponentBits :=
      Nat.pow_le_pow_right (Nat.succ_pos 1) (show 1 ≤ format.exponentBits by omega)
    rcases h with htop | ⟨_, hne⟩
    · rw [hfield, BinaryFormat.topExponent] at htop
      omega
    · exact hne hzero
  · rcases h with h | h
    · exact htop h
    · exact hfield h.1

/-- An integer of 16 bits has the bits of the number that it is. -/
theorem ofInt_toInt? (hp : 16 ≤ format.fractionBits) (he : 2 ≤ format.exponentBits)
    (hbits : bits < twoTo (format.fractionBits + format.exponentBits + 1))
    (h : (decode format bits).toInt? = some n) (hn : n.natAbs ≤ 32768) : format.ofInt n = bits := by
  have hfraction : bits % twoTo format.fractionBits < twoTo format.fractionBits :=
    Nat.mod_lt _ (twoTo_pos _)
  rw [eq_fields hbits]
  rcases toInt?_eq_some (by omega) he h with ⟨rfl, hsign, hfield, hf⟩ |
    ⟨hne, hneg, hfield, _, hle | ⟨k, hmul, hk⟩⟩
  · rw [hsign, hfield, hf, Nat.zero_mul, Nat.zero_mul]
    rfl
  · have hlarge : twoTo 16 ≤ twoTo format.fractionBits := Nat.pow_le_pow_right (Nat.succ_pos 1) hp
    have : twoTo 16 = 65536 := rfl
    omega
  · -- The mantissa is the integer, moved up to the first bit.
    have hpos : 0 < n.natAbs := Int.natAbs_pos.mpr hne
    have hkp : k ≤ format.fractionBits := by
      refine Nat.lt_succ_iff.mp ((Nat.pow_lt_pow_iff_right (Nat.lt_succ_self 1)).mp ?_)
      have := Nat.le_mul_of_pos_left (twoTo k) hpos
      show twoTo k < twoTo (format.fractionBits + 1)
      rw [twoTo_add _ 1, show twoTo 1 = 2 from rfl]
      omega
    have htop : n.natAbs.log2 = format.fractionBits - k := by
      refine (Nat.log2_eq_iff (by omega)).mpr ⟨?_, ?_⟩
      · refine Nat.le_of_mul_le_mul_right ?_ (twoTo_pos k)
        rw [hmul]
        show twoTo (format.fractionBits - k) * twoTo k ≤ _
        rw [← twoTo_add, Nat.sub_add_cancel hkp]
        omega
      · refine Nat.lt_of_mul_lt_mul_right (a := twoTo k) ?_
        rw [hmul]
        show _ < twoTo (format.fractionBits - k + 1) * twoTo k
        rw [← twoTo_add, Nat.add_right_comm, Nat.sub_add_cancel hkp, twoTo_add _ 1,
          show twoTo 1 = 2 from rfl]
        omega
    unfold BinaryFormat.ofInt
    dsimp only
    rw [if_neg hne, htop, if_pos (Nat.sub_le _ _), Nat.sub_sub_self hkp, hmul]
    have hsign : (if n < 0 then twoTo (format.fractionBits + format.exponentBits) else 0) =
        bits / twoTo (format.fractionBits + format.exponentBits) % 2 *
          twoTo (format.fractionBits + format.exponentBits) := by
      split
      · next hn => rw [hneg.mp hn, Nat.one_mul]
      · next hn => rw [Nat.mod_two_ne_one.mp (mt hneg.mpr hn), Nat.zero_mul]
    obtain ⟨field, hfield⟩ := Nat.exists_eq_succ_of_ne_zero hfield
    rw [hfield] at hk
    rw [hsign, hfield, Nat.succ_mul,
      show twoTo (format.exponentBits - 1) + (format.fractionBits - k) - 2 = field by omega]
    omega

end Binary

/-- A number on the operand stack; floating point values are their bits. -/
inductive Number where
  | int (n : Int32)
  | long (n : Int64)
  | float (bits : UInt32)
  | double (bits : UInt64)
  deriving DecidableEq

namespace Number

def literal : Number → Literal
  | int n => .int n
  | long n => .long n
  | float bits => .float bits
  | double bits => .double bits

/-- What an instruction for constants does with the numbers on the stack. -/
def step? (stack : List Number) : Instruction → Option (List Number)
  | .constInt k => some (int (Int32.ofInt (k - 1)) :: stack)
  | .pushByte n => some (int (Int32.ofInt n.toInt) :: stack)
  | .pushShort n => some (int (Int32.ofInt n.toInt) :: stack)
  | .constLong k => some (long (Int64.ofInt k) :: stack)
  | .constFloat k => some (float (UInt32.ofNat (BinaryFormat.single.ofInt k)) :: stack)
  | .constDouble k => some (double (UInt64.ofNat (BinaryFormat.double.ofInt k)) :: stack)
  | .ldc (.integer n) => some (int n :: stack)
  | .ldc (.float bits) => some (float bits :: stack)
  | .ldc2 (.long n) => some (long n :: stack)
  | .ldc2 (.double bits) => some (double bits :: stack)
  | .convert conversion =>
      match conversion, stack with
      | .i2l, int n :: rest => some (long (Int64.ofInt n.toInt) :: rest)
      | .i2f, int n :: rest =>
          some (float (UInt32.ofNat (BinaryFormat.single.ofInt n.toInt)) :: rest)
      | .i2d, int n :: rest =>
          some (double (UInt64.ofNat (BinaryFormat.double.ofInt n.toInt)) :: rest)
      | _, _ => none
  | _ => none

/-- How a floating point number may be pushed: from an integer only if it is one of 16 bits, and
from the pool if it is a special one. -/
def FloatChosen (format : BinaryFormat) (bits : Nat) (conversion : Conversion)
    (pooled : Instruction) (is : List Instruction) : Prop :=
  (.convert conversion ∈ is →
    ∃ n, (Binary.decode format bits).toInt? = some n ∧ -32768 ≤ n ∧ n ≤ 32767) ∧
  (format.Special bits → is = [pooled])

def Chosen : Number → List Instruction → Prop
  | int n, is => -32768 ≤ n.toInt ∧ n.toInt ≤ 32767 → ∀ c, .ldc c ∉ is ∧ .ldc2 c ∉ is
  | long n, is => -32768 ≤ n.toInt ∧ n.toInt ≤ 32767 → ∀ c, .ldc c ∉ is ∧ .ldc2 c ∉ is
  | float bits, is => FloatChosen .single bits.toNat .i2f (.ldc (.float bits)) is
  | double bits, is => FloatChosen .double bits.toNat .i2d (.ldc2 (.double bits)) is

end Number

namespace Push

open Number

theorem short?_eq_some {n : Int} {i : Instruction} (h : short? n = some i) :
    (-32768 ≤ n ∧ n ≤ 32767) ∧ (∀ c, i ≠ .ldc c ∧ i ≠ .ldc2 c) ∧
      ∀ stack, step? stack i = some (.int (Int32.ofInt n) :: stack) := by
  unfold short? at h
  split at h
  · cases h
    refine ⟨by omega, by simp, fun stack => ?_⟩
    show some (Number.int (Int32.ofInt (((n + 1).toNat : Int) - 1)) :: stack) = _
    rw [show ((n + 1).toNat : Int) - 1 = n by omega]
  · split at h
    · cases h
      refine ⟨by omega, by simp, fun stack => ?_⟩
      rw [step?, Int8.toInt_ofInt_of_le (by omega) (by omega)]
    · split at h
      · cases h
        refine ⟨by omega, by simp, fun stack => ?_⟩
        rw [step?, Int16.toInt_ofInt_of_le (by omega) (by omega)]
      · cases h

theorem exists_short? {n : Int} (h : -32768 ≤ n ∧ n ≤ 32767) : ∃ i, short? n = some i := by
  unfold short?
  split
  · exact ⟨_, rfl⟩
  · split
    · exact ⟨_, rfl⟩
    · exact ⟨_, rfl⟩

theorem foldlM_converted {n : Int} {push : Instruction} (h : short? n = some push)
    (conversion : Conversion) (stack : List Number) :
    [push, .convert conversion].foldlM step? stack =
      step? (.int (Int32.ofInt n) :: stack) (.convert conversion) := by
  simp [(short?_eq_some h).2.2]

theorem toInt_ofInt_short {n : Int} {push : Instruction} (h : short? n = some push) :
    (Int32.ofInt n).toInt = n := by
  have hrange := (short?_eq_some h).1
  exact Int32.toInt_ofInt_of_le (by omega) (by omega)

def Exact (number : Number) (is : List Instruction) : Prop :=
  (∀ stack, is.foldlM step? stack = some (number :: stack)) ∧ number.Chosen is

theorem exact_int (n : Int32) : Exact (.int n) (Push.int n) := by
  unfold Push.int
  cases h : short? n.toInt with
  | some push =>
    obtain ⟨_, hplain, hstep⟩ := short?_eq_some h
    refine ⟨fun stack => ?_, fun _ c => ?_⟩
    · simp [hstep]
    · simp [Ne.symm (hplain c).1, Ne.symm (hplain c).2]
  | none =>
    refine ⟨fun stack => rfl, fun hrange => ?_⟩
    obtain ⟨i, hi⟩ := exists_short? hrange
    cases h.symm.trans hi

theorem exact_long (n : Int64) : Exact (.long n) (Push.long n) := by
  unfold Push.long
  split
  · next h => exact ⟨fun _ => h ▸ rfl, by simp [Chosen]⟩
  split
  · next h => exact ⟨fun _ => h ▸ rfl, by simp [Chosen]⟩
  split
  · next push h =>
    obtain ⟨hrange, hplain, hstep⟩ := short?_eq_some h
    refine ⟨fun stack => ?_, fun _ c => ?_⟩
    · rw [foldlM_converted h, step?, toInt_ofInt_short h, Int64.ofInt_toInt]
    · simp [Ne.symm (hplain c).1, Ne.symm (hplain c).2]
  · next h =>
    refine ⟨fun stack => rfl, fun hrange => ?_⟩
    obtain ⟨i, hi⟩ := exists_short? hrange
    cases h.symm.trans hi

section floating

variable {format : BinaryFormat} {bits : Nat} {conversion : Conversion} {pooled : Instruction}

theorem chosen_single {i : Instruction} (hi : i ≠ .convert conversion)
    (h : format.Special bits → i = pooled) : FloatChosen format bits conversion pooled [i] :=
  ⟨fun hmem => absurd (List.mem_singleton.mp hmem).symm hi, fun hspecial => by rw [h hspecial]⟩

theorem chosen_converted (hp : 0 < format.fractionBits) (he : 2 ≤ format.exponentBits)
    (hbits : bits < twoTo (format.fractionBits + format.exponentBits + 1)) {n : Int}
    {push : Instruction} (hn : (Binary.decode format bits).toInt? = some n)
    (h : short? n = some push) : FloatChosen format bits conversion pooled
      [push, .convert conversion] := by
  refine ⟨fun _ => ⟨n, hn, (short?_eq_some h).1⟩, fun hspecial => ?_⟩
  rw [Binary.toInt?_special hp he hbits hspecial] at hn
  cases hn

end floating

theorem exact_float (bits : UInt32) : Exact (.float bits) (Push.float bits) := by
  have hconst : ∀ k : Fin 3, UInt32.ofNat (BinaryFormat.single.ofInt k) = bits →
      ¬BinaryFormat.single.Special bits.toNat → Exact (.float bits) [.constFloat k] := by
    rintro k rfl hspecial
    exact ⟨fun _ => rfl, chosen_single (by simp) fun h => absurd h hspecial⟩
  unfold Push.float
  split
  · next h => exact hconst 0 (h ▸ by decide +kernel) (h ▸ by decide +kernel)
  split
  · next h => exact hconst 1 (h ▸ by decide +kernel) (h ▸ by decide +kernel)
  split
  · next h => exact hconst 2 (h ▸ by decide +kernel) (h ▸ by decide +kernel)
  split
  · next push h =>
    obtain ⟨n, hn, hpush⟩ := Option.bind_eq_some_iff.mp h
    have hbits : bits.toNat < twoTo (23 + 8 + 1) := bits.toNat_lt
    refine ⟨fun stack => ?_, chosen_converted (by decide) (by decide) hbits hn hpush⟩
    have hrange := (short?_eq_some hpush).1
    rw [foldlM_converted hpush, step?, toInt_ofInt_short hpush,
      Binary.ofInt_toInt? (by decide) (by decide) hbits hn (by omega), UInt32.ofNat_toNat]
  · exact ⟨fun _ => rfl, chosen_single (by simp) fun _ => rfl⟩

theorem exact_double (bits : UInt64) : Exact (.double bits) (Push.double bits) := by
  have hconst : ∀ k : Fin 2, UInt64.ofNat (BinaryFormat.double.ofInt k) = bits →
      ¬BinaryFormat.double.Special bits.toNat → Exact (.double bits) [.constDouble k] := by
    rintro k rfl hspecial
    exact ⟨fun _ => rfl, chosen_single (by simp) fun h => absurd h hspecial⟩
  unfold Push.double
  split
  · next h => exact hconst 0 (h ▸ by decide +kernel) (h ▸ by decide +kernel)
  split
  · next h => exact hconst 1 (h ▸ by decide +kernel) (h ▸ by decide +kernel)
  split
  · next push h =>
    obtain ⟨n, hn, hpush⟩ := Option.bind_eq_some_iff.mp h
    have hbits : bits.toNat < twoTo (52 + 11 + 1) := bits.toNat_lt
    refine ⟨fun stack => ?_, chosen_converted (by decide) (by decide) hbits hn hpush⟩
    have hrange := (short?_eq_some hpush).1
    rw [foldlM_converted hpush, step?, toInt_ofInt_short hpush,
      Binary.ofInt_toInt? (by decide) (by decide) hbits hn (by omega), UInt64.ofNat_toNat]
  · exact ⟨fun _ => rfl, chosen_single (by simp) fun _ => rfl⟩

end Push

namespace Recorder

theorem forM_insn {r : Recorder} (h : r.reachable = true) (is : List Instruction) :
    ∃ r', is.forM Record.insn r = .ok () r' ∧ r'.reachable = true ∧
      r'.entries.toList = r.entries.toList ++ is.map .insn := by
  induction is generalizing r with
  | nil => exact ⟨r, rfl, h, by simp⟩
  | cons i is ih =>
    have hinsn : (r.insn i).reachable = true ∧
        (r.insn i).entries.toList = r.entries.toList ++ [.insn i] := by
      simp [Recorder.insn, h]
    obtain ⟨r', hr', hreach, hentries⟩ := ih hinsn.1
    exact ⟨r', hr', hreach, by simp [hentries, hinsn.2]⟩

/-- A number is pushed exactly, as reachable code. -/
theorem constants_exact (number : Number) {r : Recorder} (h : r.reachable = true) :
    ∃ is r', (Call.literal number.literal).record r = .ok () r' ∧ r'.reachable = true ∧
      r'.entries.toList = r.entries.toList ++ is.map .insn ∧
      (∀ stack, is.foldlM Number.step? stack = some (number :: stack)) ∧ number.Chosen is := by
  have hexact : Push.Exact number (Lay.literal number.literal) := by
    cases number with
    | int n => exact Push.exact_int n
    | long n => exact Push.exact_long n
    | float bits => exact Push.exact_float bits
    | double bits => exact Push.exact_double bits
  obtain ⟨r', hrecord, hreach, hentries⟩ := forM_insn h (Lay.literal number.literal)
  exact ⟨_, r', hrecord, hreach, hentries, hexact⟩

/-- Negative zero is taken from the pool. -/
theorem constants_exact_negativeZero : ∃ r',
    (Call.literal (.float 0x80000000)).record (start 0 0) = .ok () r' ∧
      r'.entries.toList = [.insn (.ldc (.float 0x80000000))] := by
  obtain ⟨is, r', hrecord, _, hentries, _, hchosen⟩ :=
    constants_exact (.float 0x80000000) (r := start 0 0) rfl
  rw [hchosen.2 (by decide +kernel)] at hentries
  exact ⟨r', hrecord, hentries⟩

end Recorder
end ClassAssembler
