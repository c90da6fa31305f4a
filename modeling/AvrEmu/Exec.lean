import AvrEmu.Emulate1
import AvrEmu.Lib.Bits

/-!
# Running code on a machine

`exec` runs a program on a whole machine. The rules below compute the run of each
accessor, so that the code of an instruction is evaluated by rewriting.
-/

namespace AvrEmu

variable {α β : Type} {m : Machine}

/-- The result of running code on a machine. -/
def exec (p : Exec α) (m : Machine) : Except Abort (α × Machine) :=
  match p.run m.memory m.toCore with
  | .ok (a, memory, s) => .ok (a, { toCore := s, memory := memory })
  | .error e => .error e

/-- The data memory accesses of a run, up to its end or its abort. -/
def touched (p : Exec α) (m : Machine) : List (CellProgram.Access 8) :=
  p.accesses m.memory m.toCore

/-- The machine after `memory[i] = v`. -/
def Machine.setMem (m : Machine) (i : ℕ) (v : Byte) : Machine :=
  { m with memory := Function.update m.memory i v }

/-- The machine with its other variables changed. -/
def Machine.mapCore (m : Machine) (f : Core → Core) : Machine :=
  { m with toCore := f m.toCore }

@[simp] theorem setMem_toCore (i : ℕ) (v : Byte) : (m.setMem i v).toCore = m.toCore := rfl

@[simp] theorem setMem_memory (i : ℕ) (v : Byte) :
    (m.setMem i v).memory = Function.update m.memory i v := rfl

@[simp] theorem mapCore_toCore (f : Core → Core) : (m.mapCore f).toCore = f m.toCore := rfl

@[simp] theorem mapCore_memory (f : Core → Core) : (m.mapCore f).memory = m.memory := rfl

@[simp] theorem exec_pure (a : α) : exec (pure a) m = .ok (a, m) := rfl

@[simp] theorem exec_fail (e : Abort) : exec (.fail e : Exec α) m = .error e := rfl

/-- A sequence runs its second part on the machine the first part leaves. -/
@[simp] theorem exec_bind (p : Exec α) (f : α → Exec β) : exec (p >>= f) m =
    match exec p m with
    | .ok (a, m') => exec (f a) m'
    | .error e => .error e := by
  unfold exec
  rw [CellProgram.run_bind]
  cases p.run m.memory m.toCore <;> rfl

@[simp] theorem touched_pure (a : α) : touched (pure a) m = [] := rfl

@[simp] theorem touched_bind (p : Exec α) (f : α → Exec β) : touched (p >>= f) m = touched p m ++
    match exec p m with
    | .ok (a, m') => touched (f a) m'
    | .error _ => [] := by
  unfold touched exec
  rw [CellProgram.accesses_bind]
  cases p.run m.memory m.toCore <;> rfl

section Accessors

variable {i : ℕ} (h : i < memorySize)
include h

@[simp] theorem exec_mem : exec (mem i) m = .ok (m.memory i, m) := by
  rw [mem, if_pos h]
  rfl

@[simp] theorem exec_setMem (v : Byte) : exec (setMem i v) m = .ok ((), m.setMem i v) := by
  rw [setMem, if_pos h]
  rfl

@[simp] theorem exec_andMem (v : Byte) :
    exec (andMem i v) m = .ok ((), m.setMem i (m.memory i &&& v)) := by
  rw [andMem, if_pos h]
  simp [exec, CellProgram.run, Machine.setMem]

@[simp] theorem exec_orMem (v : Byte) :
    exec (orMem i v) m = .ok ((), m.setMem i (m.memory i ||| v)) := by
  have hor (a b : Byte) : a &&& ~~~b ||| b = a ||| b := by
    apply BitVec.eq_of_getLsbD_eq
    intro j hj
    simp only [BitVec.getLsbD_or, BitVec.getLsbD_and, BitVec.getLsbD_not, hj, decide_true,
      Bool.true_and]
    cases a.getLsbD j <;> cases b.getLsbD j <;> rfl
  rw [orMem, if_pos h]
  simp [exec, CellProgram.run, Machine.setMem, hor]

@[simp] theorem touched_mem : touched (mem i) m = [.read i] := by
  rw [mem, if_pos h]
  rfl

@[simp] theorem touched_setMem (v : Byte) : touched (setMem i v) m = [.write i] := by
  rw [setMem, if_pos h]
  rfl

@[simp] theorem touched_andMem (v : Byte) : touched (andMem i v) m = [.merge i v] := by
  rw [andMem, if_pos h]
  rfl

@[simp] theorem touched_orMem (v : Byte) : touched (orMem i v) m = [.merge i (~~~v)] := by
  rw [orMem, if_pos h]
  rfl

end Accessors

@[simp] theorem exec_core : exec core m = .ok (m.toCore, m) := rfl

@[simp] theorem exec_modifyCore (f : Core → Core) :
    exec (modifyCore f) m = .ok ((), m.mapCore f) := rfl

@[simp] theorem exec_assert (cond : Bool) (text : String) :
    exec (assert cond text) m = if cond then .ok ((), m) else .error (.assertion text) := by
  cases cond <;> rfl

@[simp] theorem exec_ite (c : Prop) [Decidable c] (p q : Exec α) :
    exec (if c then p else q) m = if c then exec p m else exec q m := by
  split <;> rfl

@[simp] theorem exec_when (c : Bool) (p : Exec Unit) :
    exec (when c p) m = if c then exec p m else .ok ((), m) := by
  cases c <;> rfl

@[simp] theorem byte_lt_memorySize (b : Byte) : b.toNat < 0x1000000 :=
  Nat.lt_trans b.isLt (by decide)

@[simp] theorem io_lt_memorySize (b : Byte) : 32 + b.toNat < 0x1000000 := by
  have := b.isLt
  omega

@[simp] theorem word_lt_memorySize (w : Word) : w.toNat < 0x1000000 :=
  Nat.lt_trans w.isLt (by decide)

@[simp] theorem slot_lt_memorySize (w : Word) : w.toNat + 1 < 0x1000000 := by
  have := w.isLt
  omega

/-! ## Accessors of the header -/

@[simp] theorem touched_fail (e : Abort) : touched (.fail e : Exec α) m = [] := rfl

@[simp] theorem touched_core : touched core m = [] := rfl

@[simp] theorem touched_modifyCore (f : Core → Core) : touched (modifyCore f) m = [] := rfl

@[simp] theorem touched_assert (cond : Bool) (text : String) :
    touched (assert cond text) m = [] := by
  cases cond <;> rfl

@[simp] theorem touched_ite (c : Prop) [Decidable c] (p q : Exec α) :
    touched (if c then p else q) m = if c then touched p m else touched q m := by
  split <;> rfl

@[simp] theorem touched_when (c : Bool) (p : Exec Unit) :
    touched (when c p) m = if c then touched p m else [] := by
  cases c <;> rfl

/-- The bits of a word from `max` down to `min`. -/
def bitField (v : Word) (max min : ℕ) : Word :=
  let mask := ((1#32 <<< (max + 1)) - 1#32).setWidth 16
  v &&& if min > 0 then mask &&& ~~~((1#32 <<< min) - 1#32).setWidth 16 else mask

theorem bits_eq {max min : ℕ} (hmax : max < 16) (hmin : min ≤ max) (v : Word) :
    bits v max min = pure (bitField v max min) := by
  have hm : min < 16 := by omega
  simp only [bits, assert, hmax, hmin, hm, decide_true, Bool.and_self, if_true, bitField]
  rfl

@[simp] theorem exec_bits {max min : ℕ} (hmax : max < 16) (hmin : min ≤ max) (v : Word) :
    exec (bits v max min) m = .ok (bitField v max min, m) := by
  rw [bits_eq hmax hmin, exec_pure]

@[simp] theorem touched_bits {max min : ℕ} (hmax : max < 16) (hmin : min ≤ max) (v : Word) :
    touched (bits v max min) m = [] := by
  rw [bits_eq hmax hmin, touched_pure]

@[simp] theorem exec_sregHas (flag : Byte) :
    exec (sregHas flag) m = .ok (nonzero (m.memory sreg &&& flag), m) := by
  simp [sregHas]

@[simp] theorem touched_sregHas (flag : Byte) : touched (sregHas flag) m = [.read sreg] := by
  simp [sregHas]

/-- The stack pointer of a machine. -/
def Machine.sp (m : Machine) : Word :=
  (m.memory spHi).setWidth 16 <<< 8 ||| (m.memory spLo).setWidth 16

/-- The machine after `setsp`. -/
def Machine.setSp (m : Machine) (sp : Word) : Machine :=
  (m.setMem spLo ((sp &&& 0xff).setWidth 8)).setMem spHi ((sp >>> 8).setWidth 8)

/-- The little-endian pair at an address. -/
def Machine.word (m : Machine) (addr : ℕ) : Word :=
  (m.memory addr).setWidth 16 ||| (m.memory (addr + 1)).setWidth 16 <<< 8

/-- The machine after `memwriteword`. -/
def Machine.setWord (m : Machine) (addr : ℕ) (w : Word) : Machine :=
  (m.setMem addr ((w &&& 0xff).setWidth 8)).setMem (addr + 1) ((w >>> 8 &&& 0xff).setWidth 8)

@[simp] theorem setSp_toCore (sp : Word) : (m.setSp sp).toCore = m.toCore := rfl

@[simp] theorem setWord_toCore (addr : ℕ) (w : Word) : (m.setWord addr w).toCore = m.toCore := rfl

@[simp] theorem exec_getsp : exec getsp m = .ok (m.sp, m) := by
  simp [getsp, Machine.sp]

@[simp] theorem exec_setsp (sp : Word) : exec (setsp sp) m = .ok ((), m.setSp sp) := by
  simp [setsp, Machine.setSp]

/-- A word load from an even address inside data memory. -/
@[simp] theorem exec_memword {addr : BitVec 32} (heven : addr.toNat % 2 = 0)
    (h : addr.toNat + 1 < memorySize) :
    exec (memword addr) m = .ok (m.word addr.toNat, m) := by
  have hlow : addr.toNat < 2 ^ 24 := Nat.lt_of_succ_lt h
  have hbit : (addr &&& 1 == 0) = true :=
    beq_iff_eq.mpr ((Bits.and_one_eq_zero_iff (by decide) addr).mpr heven)
  have hrange : (addr &&& ~~~0xffffff == 0) = true :=
    beq_iff_eq.mpr ((Bits.and_not_low_eq_zero_iff 24 addr).mpr hlow)
  have haddr : addr.toNat < memorySize := Nat.lt_of_succ_lt h
  simp only [memword, exec_bind, exec_assert, hbit, hrange, if_true, exec_mem haddr, exec_mem h,
    exec_pure, Machine.word]

@[simp] theorem touched_memword {addr : BitVec 32} (heven : addr.toNat % 2 = 0)
    (h : addr.toNat + 1 < memorySize) :
    touched (memword addr) m = [.read addr.toNat, .read (addr.toNat + 1)] := by
  have hlow : addr.toNat < 2 ^ 24 := Nat.lt_of_succ_lt h
  have hbit : (addr &&& 1 == 0) = true :=
    beq_iff_eq.mpr ((Bits.and_one_eq_zero_iff (by decide) addr).mpr heven)
  have hrange : (addr &&& ~~~0xffffff == 0) = true :=
    beq_iff_eq.mpr ((Bits.and_not_low_eq_zero_iff 24 addr).mpr hlow)
  have haddr : addr.toNat < memorySize := Nat.lt_of_succ_lt h
  simp only [memword, touched_bind, touched_assert, exec_assert, hbit, hrange, if_true,
    touched_mem haddr, exec_mem haddr, touched_mem h, exec_mem h, touched_pure, List.nil_append,
    List.cons_append]

/-- A word store to an even address inside data memory. -/
@[simp] theorem exec_memwriteword {addr : BitVec 32} (heven : addr.toNat % 2 = 0)
    (h : addr.toNat + 1 < memorySize) (w : Word) :
    exec (memwriteword addr w) m = .ok ((), m.setWord addr.toNat w) := by
  have hbit : (addr &&& 1 == 0) = true :=
    beq_iff_eq.mpr ((Bits.and_one_eq_zero_iff (by decide) addr).mpr heven)
  have haddr : addr.toNat < memorySize := Nat.lt_of_succ_lt h
  simp only [memwriteword, exec_bind, exec_assert, hbit, if_true, exec_setMem haddr,
    exec_setMem h, Machine.setWord]

/-- A flash load aborts exactly outside the flash. -/
@[simp] theorem exec_romword (addr : BitVec 32) : exec (romword addr) m =
    if addr.toNat < flashSize then .ok (m.flash addr.toNat, m)
    else .error (.assertion "load outside 24-bit addressable program memory") := by
  have hrange : (addr &&& ~~~0x7fffff == 0) = true ↔ addr.toNat < flashSize :=
    beq_iff_eq.trans (Bits.and_not_low_eq_zero_iff 23 addr)
  by_cases h : addr.toNat < flashSize
  · simp only [romword, exec_bind, exec_assert, hrange.mpr h, if_true, exec_core, exec_pure,
      if_pos h]
  · have hfalse : (addr &&& ~~~0x7fffff == 0) = false := by
      rw [← Bool.not_eq_true, hrange]
      exact h
    simp only [romword, exec_bind, exec_assert, hfalse, Bool.false_eq_true, if_false, if_neg h]

@[simp] theorem touched_romword (addr : BitVec 32) : touched (romword addr) m = [] := by
  simp only [romword, touched_bind, touched_assert, exec_assert, touched_core, touched_pure,
    List.nil_append]
  split
  · split <;> rfl
  · rfl

end AvrEmu
