import CloakBridge.Models.Evm.Processor

/-!
# The arithmetic of the interpreter

What an operation should leave is a function of the numbers its operands stand for. The
code computes on words: by magnitudes and signs, by masks and shifts. The two agree but
for the operands listed by `Deviates`, and for the modular operations but for a sum or
product that does not fit a word.
-/

namespace CloakBridge.Evm

open Tee

/-- What the operations with two operands should compute. -/
def LocalOp.meaning : LocalOp → Option (Word → Word → Word)
  | .add => some fun x y => .ofNat 256 (x.toNat + y.toNat)
  | .mul => some fun x y => .ofNat 256 (x.toNat * y.toNat)
  | .sub => some fun x y => .ofInt 256 (x.toNat - y.toNat)
  | .div => some fun x y => .ofNat 256 (x.toNat / y.toNat)
  | .sdiv => some fun x y => .ofInt 256 (x.toInt.tdiv y.toInt)
  | .mod => some fun x y => if y = 0 then 0 else .ofNat 256 (x.toNat % y.toNat)
  | .smod => some fun x y => if y = 0 then 0 else .ofInt 256 (x.toInt.tmod y.toInt)
  | .exp => some fun x y => .ofNat 256 (x.toNat ^ y.toNat)
  | .signextend => some fun x y =>
    if 31 ≤ x.toNat then y else .ofInt 256 ((y.toNat : Int).bmod (2 ^ (8 * x.toNat + 8)))
  | .lt => some fun x y => ofBool (x.toNat < y.toNat)
  | .gt => some fun x y => ofBool (y.toNat < x.toNat)
  | .slt => some fun x y => ofBool (x.toInt < y.toInt)
  | .sgt => some fun x y => ofBool (y.toInt < x.toInt)
  | .byte => some fun x y =>
    if x.toNat < 32 then .ofNat 256 (y.toNat / 2 ^ (8 * (31 - x.toNat)) % 2 ^ 8) else 0
  | .shl => some fun x y => .ofNat 256 (y.toNat * 2 ^ x.toNat)
  | .shr => some fun x y => .ofNat 256 (y.toNat / 2 ^ x.toNat)
  | .sar => some fun x y => .ofInt 256 (y.toInt / 2 ^ x.toNat)
  | _ => none

/-- The operands for which an operation does something else: the quotient that is taken for that by
`-1`, an exponent beyond 64 bits, and a byte behind the last one, whose word stays on the stack. -/
def LocalOp.Deviates (x y : Word) : LocalOp → Prop
  | .sdiv => x = 2 ^ 255 ∧ y = 2 ^ 64 - 1
  | .exp => 2 ^ 64 ≤ y.toNat
  | .byte => 32 ≤ x.toNat
  | _ => False

variable {x y : Word}

private theorem div_eq (x y : Word) : div x y = .ofNat 256 (x.toNat / y.toNat) := by
  apply BitVec.eq_of_toNat_eq
  have hlt : x.toNat / y.toNat < 2 ^ 256 := (Nat.div_le_self _ _).trans_lt x.isLt
  rw [BitVec.toNat_ofNat, Nat.mod_eq_of_lt hlt, div]
  split
  next h => simp [h]
  next => rw [BitVec.toNat_udiv]

private theorem mod_eq (x y : Word) :
    mod x y = if y = 0 then 0 else .ofNat 256 (x.toNat % y.toNat) := by
  rw [mod]
  split
  · rfl
  · apply BitVec.eq_of_toNat_eq
    have hlt : x.toNat % y.toNat < 2 ^ 256 := (Nat.mod_le _ _).trans_lt x.isLt
    rw [BitVec.toNat_umod, BitVec.toNat_ofNat, Nat.mod_eq_of_lt hlt]

/-- Division by magnitudes is signed division. -/
theorem sdiv_eq (h : ¬(x = 2 ^ 255 ∧ y = 2 ^ 64 - 1)) :
    sdiv x y = .ofInt 256 (x.toInt.tdiv y.toInt) := by
  have hsdiv : BitVec.ofInt 256 (x.toInt.tdiv y.toInt) = x.sdiv y := by
    apply BitVec.eq_of_toInt_eq
    rw [BitVec.toInt_ofInt, BitVec.toInt_sdiv]
  rw [hsdiv, sdiv, if_neg h, BitVec.sdiv_eq]
  split
  next hzero => cases x.msb <;> simp [hzero]
  next =>
    unfold magnitude
    cases x.msb <;> cases y.msb <;> simp

private theorem smod_eq (x y : Word) :
    smod x y = if y = 0 then 0 else .ofInt 256 (x.toInt.tmod y.toInt) := by
  rw [smod]
  split
  · rfl
  · have hsrem : BitVec.ofInt 256 (x.toInt.tmod y.toInt) = x.srem y := by
      rw [← BitVec.toInt_srem, BitVec.ofInt_toInt]
    rw [hsrem, BitVec.srem_eq]
    unfold magnitude
    cases x.msb <;> cases y.msb <;> simp

private theorem slt_eq (x y : Word) : slt x y = ofBool (x.toInt < y.toInt) := by
  have hslt : decide (x.toInt < y.toInt) = x.slt y := by
    rw [Bool.eq_iff_iff, decide_eq_true_iff, BitVec.slt_iff_toInt_lt]
  rw [hslt, BitVec.slt_eq_ult, slt]
  by_cases heq : x = y
  · simp [heq, ofBool, BitVec.ult]
  · rw [if_neg heq]
    have hult : decide (x < y) = x.ult y := rfl
    rw [hult]
    split
    next hmsb =>
      have hlt : x.ult y = y.msb := by
        rw [BitVec.msb_eq_decide, BitVec.msb_eq_decide, ne_eq, decide_eq_decide] at hmsb
        rw [BitVec.ult, BitVec.msb_eq_decide, decide_eq_decide]
        have hx := x.isLt
        omega
      revert hmsb
      rw [hlt]
      cases x.msb <;> cases y.msb <;> simp
    next hmsb =>
      rw [not_not] at hmsb
      simp [hmsb]

private theorem sub_eq (x y : Word) : x - y = .ofInt 256 (x.toNat - y.toNat) := by
  apply BitVec.eq_of_toInt_eq
  rw [BitVec.toInt_sub, BitVec.toInt_ofInt, BitVec.toInt_eq_toNat_bmod, BitVec.toInt_eq_toNat_bmod]
  simp

private theorem pow_eq (x : Word) (n : Nat) : x ^ n = .ofNat 256 (x.toNat ^ n) := by
  induction n with
  | zero => rfl
  | succ n ih =>
    rw [BitVec.pow_succ, ih, Nat.pow_succ, BitVec.ofNat_mul, BitVec.ofNat_toNat, BitVec.setWidth_eq]

private theorem shl_eq (x y : Word) : shl x y = .ofNat 256 (y.toNat * 2 ^ x.toNat) := by
  rw [← Nat.shiftLeft_eq]
  rfl

private theorem shr_eq (x y : Word) : shr x y = .ofNat 256 (y.toNat / 2 ^ x.toNat) := by
  apply BitVec.eq_of_toNat_eq
  have hlt : y.toNat / 2 ^ x.toNat < 2 ^ 256 := (Nat.div_le_self _ _).trans_lt y.isLt
  rw [shr, BitVec.toNat_ushiftRight, Nat.shiftRight_eq_div_pow, BitVec.toNat_ofNat,
    Nat.mod_eq_of_lt hlt]

private theorem getLsbD_signs (sign : Bool) (i : Nat) :
    (if sign then BitVec.allOnes 256 else 0 : Word).getLsbD i = (sign && decide (i < 256)) := by
  cases sign with
  | false => rw [Bool.false_and]; exact BitVec.getLsbD_zero
  | true => rw [Bool.true_and]; exact BitVec.getLsbD_allOnes

/-- The bits above the sign bit repeat it. -/
theorem signextend_eq (x y : Word) : signextend x y =
    if 31 ≤ x.toNat then y else .ofInt 256 ((y.toNat : Int).bmod (2 ^ (8 * x.toNat + 8))) := by
  have hle : 32 ≤ x ↔ 32 ≤ x.toNat := BitVec.le_def
  rw [signextend]
  by_cases hlast : 32 ≤ x.toNat
  · rw [if_pos (hle.mpr hlast), if_pos (by omega)]
  rw [if_neg (mt hle.mp hlast)]
  dsimp only
  generalize x.toNat = k at hlast
  apply BitVec.eq_of_getLsbD_eq
  intro i hi
  have hcode : (((if y.getLsbD (8 * k + 7) then BitVec.allOnes 256 else 0) <<< (8 * k + 7)) |||
      (y &&& (BitVec.allOnes 256 >>> (256 - (8 * k + 7))))).getLsbD i =
        y.getLsbD (min i (8 * k + 7)) := by
    rw [BitVec.getLsbD_or, BitVec.getLsbD_and, BitVec.getLsbD_shiftLeft, getLsbD_signs,
      BitVec.getLsbD_ushiftRight, BitVec.getLsbD_allOnes]
    by_cases hin : i < 8 * k + 7
    · have hmask : 256 - (8 * k + 7) + i < 256 := by omega
      simp only [Nat.min_eq_left hin.le, hin, hmask, decide_true, Bool.not_true, Bool.and_false,
        Bool.false_and, Bool.false_or, Bool.and_true]
    · have hmask : ¬ 256 - (8 * k + 7) + i < 256 := by omega
      have hsub : i - (8 * k + 7) < 256 := by omega
      simp only [Nat.min_eq_right (Nat.le_of_not_lt hin), hi, hin, hmask, hsub, decide_true,
        decide_false, Bool.not_false, Bool.true_and, Bool.and_true, Bool.and_false, Bool.or_false]
  rw [hcode]
  split
  next hk =>
    rw [Nat.min_eq_left (by omega)]
  next hk =>
    rw [← BitVec.toInt_setWidth]
    change _ = ((y.setWidth (8 * k + 8)).signExtend 256).getLsbD i
    rw [BitVec.getLsbD_signExtend]
    by_cases hin : i < 8 * k + 8
    · simp [hi, hin, show min i (8 * k + 7) = i by omega]
    · simp [hi, hin, show min i (8 * k + 7) = 8 * k + 7 by omega, BitVec.msb_eq_getLsbD_last]

private theorem sar_eq (x y : Word) : sar x y = .ofInt 256 (y.toInt / 2 ^ x.toNat) := by
  have hshift : BitVec.ofInt 256 (y.toInt / 2 ^ x.toNat) = y.sshiftRight x.toNat := by
    rw [← BitVec.ofInt_toInt (x := y.sshiftRight x.toNat), BitVec.toInt_sshiftRight,
      Int.shiftRight_eq_div_pow]
    rfl
  have hlt : x < 256 ↔ x.toNat < 256 := BitVec.lt_def
  rw [hshift, sar]
  apply BitVec.eq_of_getLsbD_eq
  intro i hi
  rw [BitVec.getLsbD_sshiftRight]
  generalize x.toNat = n at hlt
  generalize hs : (if x < 256 then 256 - n else 0) = s
  have hmask : i < s ↔ n + i < 256 := by
    rw [← hs]
    split
    next hn => omega
    next hn => have := mt hlt.mpr hn; omega
  have hsub : i - s < 256 := (Nat.sub_le _ _).trans_lt hi
  rw [BitVec.getLsbD_or, BitVec.getLsbD_ushiftRight, BitVec.getLsbD_shiftLeft, getLsbD_signs]
  by_cases hin : n + i < 256
  · simp [hi, hin, hmask]
  · simp [hi, hin, hmask, hsub, BitVec.getLsbD_of_ge y _ (Nat.le_of_not_lt hin)]

private theorem byte_eq (h : x.toNat < 32) :
    (y &&& ((255 : Word) <<< (256 - 8 - 8 * x.toNat))) >>> (256 - 8 - 8 * x.toNat) =
      .ofNat 256 (y.toNat / 2 ^ (8 * (31 - x.toNat)) % 2 ^ 8) := by
  rw [show 8 * (31 - x.toNat) = 256 - 8 - 8 * x.toNat by omega]
  generalize hs : 256 - 8 - 8 * x.toNat = s
  apply BitVec.eq_of_getLsbD_eq
  intro i hi
  have hmask : (255 : Word).getLsbD i = decide (i < 8) := by
    rw [show (255 : Word) = .ofNat 256 (2 ^ 8 - 1) from rfl, BitVec.getLsbD_ofNat,
      Nat.testBit_two_pow_sub_one, decide_eq_true hi, Bool.true_and]
  rw [BitVec.getLsbD_ofNat, Nat.testBit_mod_two_pow, Nat.testBit_div_two_pow,
    BitVec.getLsbD_ushiftRight, BitVec.getLsbD_and, BitVec.getLsbD_shiftLeft,
    Nat.add_sub_cancel_left, hmask]
  by_cases hin : i < 8
  · have hs : s + i < 256 := by omega
    simp [hin, hi, hs, Nat.add_comm, BitVec.getLsbD]
  · simp [hin]

section Stack

variable {r : Regs} {x y m : Word} {rest : List Word} {val : Word}

private theorem push_eq (val : Word) (hroom : r.stack.length ≠ maxStackSize) :
    push val r = .ok () { r with stack := val :: r.stack } := by
  rw [push, bind_of_ok (show (get : Local Regs) r = .ok r r from rfl), if_neg hroom]
  rfl

private theorem pop_eq (hstack : r.stack = val :: rest) :
    pop r = .ok val { r with stack := rest } := by
  rw [pop, bind_of_ok (show (get : Local Regs) r = .ok r r from rfl), hstack]
  rfl

private theorem binary_eq (g : Word → Word → Word) (hstack : r.stack = x :: y :: rest)
    (hroom : rest.length ≠ maxStackSize) :
    binary g r = .ok () { r with stack := g x y :: rest } := by
  rw [binary, bind_of_ok (pop_eq hstack), bind_of_ok (pop_eq rfl)]
  exact push_eq _ hroom

private theorem ternary_eq (g : Word → Word → Word → Word) (hstack : r.stack = x :: y :: m :: rest)
    (hroom : rest.length ≠ maxStackSize) :
    ternary g r = .ok () { r with stack := g x y m :: rest } := by
  rw [ternary, bind_of_ok (pop_eq hstack)]
  exact binary_eq (g x) rfl hroom

private theorem pop64_eq (hstack : r.stack = val :: rest) :
    pop64 r = if 2 ^ 64 ≤ val.toNat then .error (.evm .outOfBounds) { r with stack := rest }
      else .ok val.toNat { r with stack := rest } := by
  rw [pop64, bind_of_ok (pop_eq hstack)]
  split
  · rfl
  · rfl

private theorem sgt_eq (hstack : r.stack = x :: y :: rest) (hroom : rest.length ≠ maxStackSize) :
    sgt r = .ok () { r with stack := ofBool (y.toInt < x.toInt) :: rest } := by
  have hswap : swapStack 1 r = .ok () { r with stack := y :: x :: rest } := by
    rw [swapStack, bind_of_ok (show (get : Local Regs) r = .ok r r from rfl), hstack]
    rfl
  rw [sgt, bind_of_ok hswap, ← slt_eq]
  exact binary_eq slt rfl hroom

private theorem exp_eq_iff (hstack : r.stack = x :: y :: rest)
    (hroom : rest.length ≠ maxStackSize) :
    exp r = .ok () { r with stack := .ofNat 256 (x.toNat ^ y.toNat) :: rest } ↔
      ¬2 ^ 64 ≤ y.toNat := by
  rw [exp, bind_of_ok (pop_eq hstack)]
  by_cases hlarge : 2 ^ 64 ≤ y.toNat
  · rw [bind_of_error ((pop64_eq rfl).trans (if_pos hlarge))]
    exact iff_of_false (fun h => by cases h) (not_not.mpr hlarge)
  · rw [bind_of_ok ((pop64_eq rfl).trans (if_neg hlarge)), ← pow_eq]
    exact iff_of_true (push_eq _ hroom) hlarge

private theorem byte_eq_iff (hstack : r.stack = x :: y :: rest)
    (hroom : rest.length ≠ maxStackSize) :
    byte r = .ok () { r with stack :=
        (if x.toNat < 32 then .ofNat 256 (y.toNat / 2 ^ (8 * (31 - x.toNat)) % 2 ^ 8) else 0) ::
          rest } ↔ ¬32 ≤ x.toNat := by
  have hle : 32 ≤ x ↔ 32 ≤ x.toNat := BitVec.le_def
  rw [byte, bind_of_ok (pop_eq hstack)]
  by_cases hlarge : 32 ≤ x.toNat
  · rw [if_pos (hle.mpr hlarge), if_neg (Nat.not_lt.mpr hlarge)]
    refine iff_of_false (fun h => ?_) (not_not.mpr hlarge)
    by_cases hfull : (y :: rest).length = maxStackSize
    · rw [push, bind_of_ok (show (get : Local Regs) _ = .ok _ _ from rfl), if_pos hfull] at h
      cases h
    · rw [push_eq _ hfull] at h
      cases h
  · rw [if_neg (mt hle.mp hlarge), if_pos (Nat.lt_of_not_le hlarge),
      ← byte_eq (Nat.lt_of_not_le hlarge), bind_of_ok (pop_eq rfl)]
    exact iff_of_true (push_eq _ hroom) hlarge

/-- An operation leaves what it should, in place of its operands, exactly where it does not
deviate. -/
theorem exec_eq_meaning_iff {op : LocalOp} {f : Word → Word → Word} (hf : op.meaning = some f)
    (origin : Address) (c : Context) (hstack : r.stack = x :: y :: rest)
    (hroom : rest.length ≠ maxStackSize) :
    op.exec origin c r = .ok () { r with stack := f x y :: rest } ↔ ¬op.Deviates x y := by
  have hbinary {g : Word → Word → Word} (hg : g x y = f x y) :
      binary g r = .ok () { r with stack := f x y :: rest } := by
    rw [binary_eq g hstack hroom, hg]
  cases op with
  | add | mul | lt | gt => cases hf; exact iff_of_true (hbinary rfl) id
  | sub => cases hf; exact iff_of_true (hbinary (sub_eq x y)) id
  | div => cases hf; exact iff_of_true (hbinary (div_eq x y)) id
  | mod => cases hf; exact iff_of_true (hbinary (mod_eq x y)) id
  | smod => cases hf; exact iff_of_true (hbinary (smod_eq x y)) id
  | signextend => cases hf; exact iff_of_true (hbinary (signextend_eq x y)) id
  | slt => cases hf; exact iff_of_true (hbinary (slt_eq x y)) id
  | shl => cases hf; exact iff_of_true (hbinary (shl_eq x y)) id
  | shr => cases hf; exact iff_of_true (hbinary (shr_eq x y)) id
  | sar => cases hf; exact iff_of_true (hbinary (sar_eq x y)) id
  | sgt => cases hf; exact iff_of_true (sgt_eq hstack hroom) id
  | exp => cases hf; exact exp_eq_iff hstack hroom
  | byte => cases hf; exact byte_eq_iff hstack hroom
  | sdiv =>
    cases hf
    by_cases hmin : x = 2 ^ 255 ∧ y = 2 ^ 64 - 1
    · refine iff_of_false (fun hrun => ?_) (not_not.mpr hmin)
      obtain ⟨rfl, rfl⟩ := hmin
      have hsame : sdiv (2 ^ 255) (2 ^ 64 - 1) = _ := (List.cons.inj (congrArg Regs.stack
        (EStateM.Result.ok.inj ((binary_eq sdiv hstack hroom).symm.trans hrun)).2)).1
      revert hsame
      decide +kernel
    · exact iff_of_true (hbinary (sdiv_eq hmin)) hmin
  | _ => cases hf

/-- A context to compute in. -/
def idleContext : Context := ⟨.start, ⟨0x10, none, .basic⟩, 7, [], 0, [], .outer, false⟩

/-- `-7` divided by `2` is `-3`. -/
theorem exec_sdiv_eq_meaning : LocalOp.sdiv.exec 0 idleContext ⟨0, false, [], [-7, 2], []⟩ =
      .ok () ⟨0, false, [], [.ofInt 256 (-3)], []⟩ := by
  have hstack : (⟨0, false, [], [-7, 2], []⟩ : Regs).stack = [-7, 2] := rfl
  have hmeaning : LocalOp.sdiv.meaning = some _ := rfl
  exact (exec_eq_meaning_iff hmeaning 0 idleContext hstack (by decide)).mpr fun h =>
    absurd h.2 (by decide +kernel)

/-- The modular operations: what they add or multiply up. -/
def LocalOp.total (x y : Word) : LocalOp → Option Nat
  | .addmod => some (x.toNat + y.toNat)
  | .mulmod => some (x.toNat * y.toNat)
  | _ => none

/-- Reducing to a word first is harmless exactly if the modulus divides what is cut off. -/
theorem mod_mod_eq_iff (n k : Nat) : n % 2 ^ 256 % k = n % k ↔ k ∣ 2 ^ 256 * (n / 2 ^ 256) := by
  have hcut : n - n % 2 ^ 256 = 2 ^ 256 * (n / 2 ^ 256) := by
    have hn := Nat.mod_add_div n (2 ^ 256)
    omega
  rw [← hcut]
  exact Nat.modEq_iff_dvd' (Nat.mod_le n _)

/-- A modular operation leaves what it should exactly if its modulus is zero or divides what does
not fit a word. -/
theorem exec_eq_total_mod_iff {op : LocalOp} {n : Nat} (hn : op.total x y = some n)
    (origin : Address) (c : Context) (hstack : r.stack = x :: y :: m :: rest)
    (hroom : rest.length ≠ maxStackSize) : op.exec origin c r =
        .ok () { r with stack := (if m = 0 then 0 else .ofNat 256 (n % m.toNat)) :: rest } ↔
      m = 0 ∨ m.toNat ∣ 2 ^ 256 * (n / 2 ^ 256) := by
  have hternary {g : Word → Word → Word → Word} {w : Word} (hw : w.toNat = n % 2 ^ 256)
      (hg : g x y m = if m = 0 then 0 else w % m) :
      ternary g r =
          .ok () { r with stack := (if m = 0 then 0 else .ofNat 256 (n % m.toNat)) :: rest } ↔
        m = 0 ∨ m.toNat ∣ 2 ^ 256 * (n / 2 ^ 256) := by
    rw [ternary_eq g hstack hroom, hg]
    by_cases hm : m = 0
    · simp [hm]
    · have hpos : 0 < m.toNat := Nat.pos_of_ne_zero fun h => hm (BitVec.eq_of_toNat_eq h)
      have hlt : n % m.toNat < 2 ^ 256 := (Nat.mod_lt n hpos).trans m.isLt
      simp only [hm, if_false, false_or, EStateM.Result.ok.injEq, Regs.mk.injEq, List.cons.injEq,
        and_true, true_and]
      rw [BitVec.toNat_eq, BitVec.toNat_ofNat, Nat.mod_eq_of_lt hlt, BitVec.toNat_umod, hw]
      exact mod_mod_eq_iff n m.toNat
  cases op with
  | addmod =>
    cases hn
    exact hternary (BitVec.toNat_add x y) rfl
  | mulmod =>
    cases hn
    refine hternary (BitVec.toNat_mul x y) ?_
    unfold mulmod
    split
    next hm => exact hm
    next => rfl
  | _ => cases hn

/-- The sum `2 ^ 256 + 1` is `3` modulo `7`, and the code leaves `1`. -/
theorem exec_addmod_ne_total_mod :
    LocalOp.addmod.exec 0 idleContext ⟨0, false, [], [-1, 2, 7], []⟩ ≠
      .ok () ⟨0, false, [], [3], []⟩ := by
  have hstack : (⟨0, false, [], [-1, 2, 7], []⟩ : Regs).stack = [-1, 2, 7] := rfl
  have htotal : LocalOp.addmod.total (-1) 2 = some (2 ^ 256 + 1) := by decide +kernel
  intro hrun
  rcases (exec_eq_total_mod_iff htotal 0 idleContext hstack (by decide)).mp hrun with hm | hdvd
  · exact absurd hm (by decide)
  · exact absurd hdvd (by decide +kernel)

end Stack

end CloakBridge.Evm
