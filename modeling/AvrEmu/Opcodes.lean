import AvrEmu.Fields

/-!
# Opcodes

The instructions that results below name one by one, each by its pattern and mask in
the instruction set, with the row of the decode table it selects.
-/

namespace AvrEmu

/-- A word is an instance of an opcode when it agrees with the pattern under the mask. -/
def IsOp (op : Word × Word) (w : Word) : Prop := w &&& op.2 = op.1

instance (op : Word × Word) (w : Word) : Decidable (IsOp op w) :=
  inferInstanceAs (Decidable (_ = _))

namespace Op

def cpc : Word × Word := (0x0400, 0xfc00)
def cp : Word × Word := (0x1400, 0xfc00)
def cpse : Word × Word := (0x1000, 0xfc00)
def lds : Word × Word := (0x9000, 0xfe0f)
def pop : Word × Word := (0x900f, 0xfe0f)
def sts : Word × Word := (0x9200, 0xfe0f)
def ldx : Word × Word := (0x900c, 0xfe0f)
def ldxInc : Word × Word := (0x900d, 0xfe0f)
def ldyInc : Word × Word := (0x9009, 0xfe0f)
def ldzInc : Word × Word := (0x9001, 0xfe0f)
def ldxDec : Word × Word := (0x900e, 0xfe0f)
def ldyDec : Word × Word := (0x900a, 0xfe0f)
def ldzDec : Word × Word := (0x9002, 0xfe0f)
def lddy : Word × Word := (0x8008, 0xd208)
def lddz : Word × Word := (0x8000, 0xd208)
def stx : Word × Word := (0x920c, 0xfe0f)
def stxInc : Word × Word := (0x920d, 0xfe0f)
def styInc : Word × Word := (0x9209, 0xfe0f)
def stzInc : Word × Word := (0x9201, 0xfe0f)
def stxDec : Word × Word := (0x920e, 0xfe0f)
def styDec : Word × Word := (0x920a, 0xfe0f)
def stzDec : Word × Word := (0x9202, 0xfe0f)
def stdy : Word × Word := (0x8208, 0xd208)
def stdz : Word × Word := (0x8200, 0xd208)
def lpmInc : Word × Word := (0x9005, 0xfe0f)
def elpmInc : Word × Word := (0x9007, 0xfe0f)
def xch : Word × Word := (0x9204, 0xfe0c)
def push : Word × Word := (0x920f, 0xfe0f)
def jmp : Word × Word := (0x940c, 0xfe0e)
def call : Word × Word := (0x940e, 0xfe0e)
def icall : Word × Word := (0x9509, 0xffff)
def eicall : Word × Word := (0x9519, 0xffff)
def eicalljump : Word × Word := (0x9409, 0xfeef)
def ret : Word × Word := (0x9508, 0xffff)
def reti : Word × Word := (0x9518, 0xffff)
def sbics : Word × Word := (0x9900, 0xfd00)
def rcall : Word × Word := (0xd000, 0xf000)
def rcalljmp : Word × Word := (0xc000, 0xe000)
def brb : Word × Word := (0xf000, 0xf800)
def sbrcs : Word × Word := (0xfc00, 0xfc08)

end Op

/-- A word that is an instance of one of two clashing opcodes is not one of the other. -/
theorem IsOp.not_of_clash {a b : Word × Word} {w : Word} (h : IsOp a w) (hclash : Clash a b) :
    ¬ IsOp b w := Bits.not_both_match h hclash

/-- An instance of an opcode is an instance of any coarser one. -/
theorem IsOp.coarsen {a b : Word × Word} {w : Word} (h : IsOp a w) (hmask : a.2 &&& b.2 = b.2)
    (hpattern : a.1 &&& b.2 = b.1) : IsOp b w := by
  unfold IsOp at h ⊢
  rw [← hmask, ← BitVec.and_assoc, h, hpattern]

/-- A bit under the mask of an opcode is the same in all its instances. -/
theorem IsOp.getLsbD_eq {op : Word × Word} {w : Word} (h : IsOp op w) {i : ℕ}
    (hmask : op.2.getLsbD i = true) : w.getLsbD i = op.1.getLsbD i := by
  unfold IsOp at h
  rw [← h, BitVec.getLsbD_and, hmask, Bool.and_true]

/-- A field that lies under the mask of an opcode is the same in all its instances. -/
theorem IsOp.bitField_eq {op : Word × Word} {w : Word} (h : IsOp op w) {max min : ℕ}
    (hmask : op.2 &&& bitField (BitVec.allOnes 16) max min = bitField (BitVec.allOnes 16) max min) :
    bitField w max min = bitField op.1 max min := by
  have hfield (v : Word) : bitField v max min = v &&& bitField (BitVec.allOnes 16) max min := by
    simp only [bitField, BitVec.allOnes_and]
  unfold IsOp at h
  rw [hfield w, hfield op.1, ← hmask, ← BitVec.and_assoc, ← BitVec.and_assoc, h, BitVec.and_assoc,
    hmask, ← h, BitVec.and_assoc, hmask]

/-- The two-word instructions. -/
def Op.long : List (Word × Word) := [Op.lds, Op.sts, Op.jmp, Op.call]

/-- The length in words of the instruction that begins with a word. -/
def instrLength (w : Word) : ℕ := if ∃ op ∈ Op.long, IsOp op w then 2 else 1

variable [i : DesLibrary] {w : Word} {d : InstrDecode}

/-- The rows that take a second word are those of the two-word instructions. -/
private theorem imm16_iff_long : ∀ d ∈ avrInstr, d.imm16 = true ↔ d.opcode ∈ Op.long := by
  simp only [avrInstr, List.forall_mem_cons]
  and_intros
  all_goals simp only [InstrDecode.opcode]; decide

/-- A word is an instance of the opcode of the row found for it, and of no other opcode
in the table. -/
theorem isOp_iff {r : InstrDecode} (hr : r ∈ avrInstr) (h : lookupInstr w = some d) :
    IsOp r.opcode w ↔ d = r := by
  constructor
  · intro hop
    rw [lookupInstr_eq_some hr hop] at h
    exact (Option.some.inj h).symm
  · rintro rfl
    exact (lookupInstr_spec h).2

theorem exists_isOp_iff {ops : List (Word × Word)}
    (hops : ∀ op ∈ ops, ∃ r ∈ avrInstr, r.opcode = op) (h : lookupInstr w = some d) :
    (∃ op ∈ ops, IsOp op w) ↔ d.opcode ∈ ops := by
  constructor
  · rintro ⟨op, hmem, hop⟩
    obtain ⟨r, hr, rfl⟩ := hops op hmem
    rwa [(isOp_iff hr h).mp hop]
  · intro hmem
    exact ⟨d.opcode, hmem, (lookupInstr_spec h).2⟩

theorem instrLength_eq (h : lookupInstr w = some d) : instrLength w = if d.imm16 then 2 else 1 := by
  have hlong : (∃ op ∈ Op.long, IsOp op w) ↔ d.imm16 = true := by
    rw [imm16_iff_long d (lookupInstr_spec h).1]
    refine exists_isOp_iff ?_ h
    simp only [Op.long, List.forall_mem_cons]
    exact ⟨⟨_, List.mem_of_getElem? (i := 20) rfl, rfl⟩,
      ⟨_, List.mem_of_getElem? (i := 27) rfl, rfl⟩, ⟨_, List.mem_of_getElem? (i := 44) rfl, rfl⟩,
      ⟨_, List.mem_of_getElem? (i := 45) rfl, rfl⟩, fun _ h => absurd h List.not_mem_nil⟩
  simp only [instrLength, hlong]

section Rows

theorem lookup_cpc (h : IsOp (0x0400, 0xec00) w) : lookupInstr w = some
    { pattern := 0x0400, mask := 0xec00, code := instrCpc, ddddd84 := true, rrrrr9_30 := true } :=
  lookupInstr_eq_some (List.mem_of_getElem? (i := 6) rfl) h

theorem lookup_cpse (h : IsOp Op.cpse w) : lookupInstr w = some
    { pattern := 0x1000, mask := 0xfc00, code := instrCpse, ddddd84 := true, rrrrr9_30 := true } :=
  lookupInstr_eq_some (List.mem_of_getElem? (i := 9) rfl) h

theorem lookup_lds (h : IsOp Op.lds w) : lookupInstr w = some
    { pattern := 0x9000, mask := 0xfe0f, code := instrLds, ddddd84 := true, imm16 := true } :=
  lookupInstr_eq_some (List.mem_of_getElem? (i := 20) rfl) h

theorem lookup_ldyz (h : IsOp (0x8000, 0xd200) w) : lookupInstr w = some
    { pattern := 0x8000, mask := 0xd200, code := instrLdyz, ddddd84 := true } :=
  lookupInstr_eq_some (List.mem_of_getElem? (i := 18) rfl) h

theorem lookup_styz (h : IsOp (0x8200, 0xd200) w) : lookupInstr w = some
    { pattern := 0x8200, mask := 0xd200, code := instrStyz, ddddd84 := true } :=
  lookupInstr_eq_some (List.mem_of_getElem? (i := 19) rfl) h

theorem lookup_ldyzInc (h : IsOp (0x9001, 0xfe07) w) : lookupInstr w = some
    { pattern := 0x9001, mask := 0xfe07, code := instrLdyz, ddddd84 := true } :=
  lookupInstr_eq_some (List.mem_of_getElem? (i := 21) rfl) h

theorem lookup_styzInc (h : IsOp (0x9201, 0xfe07) w) : lookupInstr w = some
    { pattern := 0x9201, mask := 0xfe07, code := instrStyz, ddddd84 := true } :=
  lookupInstr_eq_some (List.mem_of_getElem? (i := 28) rfl) h

theorem lookup_ldyzDec (h : IsOp (0x9002, 0xfe07) w) : lookupInstr w = some
    { pattern := 0x9002, mask := 0xfe07, code := instrLdyz, ddddd84 := true } :=
  lookupInstr_eq_some (List.mem_of_getElem? (i := 22) rfl) h

theorem lookup_styzDec (h : IsOp (0x9202, 0xfe07) w) : lookupInstr w = some
    { pattern := 0x9202, mask := 0xfe07, code := instrStyz, ddddd84 := true } :=
  lookupInstr_eq_some (List.mem_of_getElem? (i := 29) rfl) h

theorem lookup_ldxDec (h : IsOp Op.ldxDec w) : lookupInstr w = some
    { pattern := 0x900e, mask := 0xfe0f, code := instrLdx, ddddd84 := true } :=
  lookupInstr_eq_some (List.mem_of_getElem? (i := 25) rfl) h

theorem lookup_stxDec (h : IsOp Op.stxDec w) : lookupInstr w = some
    { pattern := 0x920e, mask := 0xfe0f, code := instrStx, ddddd84 := true } :=
  lookupInstr_eq_some (List.mem_of_getElem? (i := 32) rfl) h

theorem lookup_elpmz (h : IsOp (0x9004, 0xfe0c) w) : lookupInstr w = some
    { pattern := 0x9004, mask := 0xfe0c, code := instrElpmz, ddddd84 := true } :=
  lookupInstr_eq_some (List.mem_of_getElem? (i := 23) rfl) h

theorem lookup_elpm (h : IsOp (0x95c8, 0xffef) w) : lookupInstr w = some
    { pattern := 0x95c8, mask := 0xffef, code := instrElpm } :=
  lookupInstr_eq_some (List.mem_of_getElem? (i := 52) rfl) h

theorem lookup_ldx (h : IsOp (0x900c, 0xfe0e) w) : lookupInstr w = some
    { pattern := 0x900c, mask := 0xfe0e, code := instrLdx, ddddd84 := true } :=
  lookupInstr_eq_some (List.mem_of_getElem? (i := 24) rfl) h

theorem lookup_stx (h : IsOp (0x920c, 0xfe0e) w) : lookupInstr w = some
    { pattern := 0x920c, mask := 0xfe0e, code := instrStx, ddddd84 := true } :=
  lookupInstr_eq_some (List.mem_of_getElem? (i := 31) rfl) h

theorem lookup_pop (h : IsOp Op.pop w) : lookupInstr w = some
    { pattern := 0x900f, mask := 0xfe0f, code := instrPop, ddddd84 := true } :=
  lookupInstr_eq_some (List.mem_of_getElem? (i := 26) rfl) h

theorem lookup_sts (h : IsOp Op.sts w) : lookupInstr w = some
    { pattern := 0x9200, mask := 0xfe0f, code := instrSts, ddddd84 := true, imm16 := true } :=
  lookupInstr_eq_some (List.mem_of_getElem? (i := 27) rfl) h

theorem lookup_xch (h : IsOp Op.xch w) : lookupInstr w = some
    { pattern := 0x9204, mask := 0xfe0c, code := instrXch, ddddd84 := true } :=
  lookupInstr_eq_some (List.mem_of_getElem? (i := 30) rfl) h

theorem lookup_push (h : IsOp Op.push w) : lookupInstr w = some
    { pattern := 0x920f, mask := 0xfe0f, code := instrPush, ddddd84 := true } :=
  lookupInstr_eq_some (List.mem_of_getElem? (i := 33) rfl) h

theorem lookup_jmp (h : IsOp Op.jmp w) : lookupInstr w = some
    { pattern := 0x940c, mask := 0xfe0e, code := instrJmp, imm16 := true } :=
  lookupInstr_eq_some (List.mem_of_getElem? (i := 44) rfl) h

theorem lookup_call (h : IsOp Op.call w) : lookupInstr w = some
    { pattern := 0x940e, mask := 0xfe0e, code := instrCall, imm16 := true } :=
  lookupInstr_eq_some (List.mem_of_getElem? (i := 45) rfl) h

theorem lookup_eicalljump (h : IsOp Op.eicalljump w) : lookupInstr w = some
    { pattern := 0x9409, mask := 0xfeef, code := instrEicalljump } :=
  lookupInstr_eq_some (List.mem_of_getElem? (i := 47) rfl) h

theorem lookup_ret (h : IsOp Op.ret w) : lookupInstr w = some
    { pattern := 0x9508, mask := 0xffff, code := instrRet } :=
  lookupInstr_eq_some (List.mem_of_getElem? (i := 46) rfl) h

theorem lookup_reti (h : IsOp Op.reti w) : lookupInstr w = some
    { pattern := 0x9518, mask := 0xffff, code := instrReti } :=
  lookupInstr_eq_some (List.mem_of_getElem? (i := 48) rfl) h

theorem lookup_sbics (h : IsOp Op.sbics w) : lookupInstr w = some
    { pattern := 0x9900, mask := 0xfd00, code := instrSbics, rrr20 := true } :=
  lookupInstr_eq_some (List.mem_of_getElem? (i := 58) rfl) h

theorem lookup_rcalljmp (h : IsOp Op.rcalljmp w) : lookupInstr w = some
    { pattern := 0xc000, mask := 0xe000, code := instrRcalljmp } :=
  lookupInstr_eq_some (List.mem_of_getElem? (i := 62) rfl) h

theorem lookup_brb (h : IsOp Op.brb w) : lookupInstr w = some
    { pattern := 0xf000, mask := 0xf800, code := instrBrb, rrr20 := true } :=
  lookupInstr_eq_some (List.mem_of_getElem? (i := 64) rfl) h

theorem lookup_sbrcs (h : IsOp Op.sbrcs w) : lookupInstr w = some
    { pattern := 0xfc00, mask := 0xfc08, code := instrSbrcs, ddddd84 := true, rrr20 := true } :=
  lookupInstr_eq_some (List.mem_of_getElem? (i := 67) rfl) h

/-! ## Rows of the arithmetic and logic instructions -/

theorem lookup_muls (h : IsOp (0x0200, 0xff00) w) : lookupInstr w = some
    { pattern := 0x0200, mask := 0xff00, code := instrMuls, dddd74 := true, rrrr30 := true } :=
  lookupInstr_eq_some (List.mem_of_getElem? (i := 2) rfl) h

theorem lookup_mulsu (h : IsOp (0x0300, 0xff88) w) : lookupInstr w = some
    { pattern := 0x0300, mask := 0xff88, code := instrMulsu, ddd64 := true, rrr20 := true } :=
  lookupInstr_eq_some (List.mem_of_getElem? (i := 3) rfl) h

theorem lookup_fmul (h : IsOp (0x0308, 0xff88) w) : lookupInstr w = some
    { pattern := 0x0308, mask := 0xff88, code := instrFmul, ddd64 := true, rrr20 := true } :=
  lookupInstr_eq_some (List.mem_of_getElem? (i := 4) rfl) h

theorem lookup_fmulsu (h : IsOp (0x0380, 0xff80) w) : lookupInstr w = some
    { pattern := 0x0380, mask := 0xff80, code := instrFmulsu, ddd64 := true, rrr20 := true } :=
  lookupInstr_eq_some (List.mem_of_getElem? (i := 5) rfl) h

theorem lookup_sub (h : IsOp (0x0800, 0xec00) w) : lookupInstr w = some
    { pattern := 0x0800, mask := 0xec00, code := instrCpc, ddddd84 := true, rrrrr9_30 := true } :=
  lookupInstr_eq_some (List.mem_of_getElem? (i := 7) rfl) h

theorem lookup_adc (h : IsOp (0x0c00, 0xec00) w) : lookupInstr w = some
    { pattern := 0x0c00, mask := 0xec00, code := instrAdc, ddddd84 := true, rrrrr9_30 := true } :=
  lookupInstr_eq_some (List.mem_of_getElem? (i := 8) rfl) h

theorem lookup_and (h : IsOp (0x2000, 0xfc00) w) : lookupInstr w = some
    { pattern := 0x2000, mask := 0xfc00, code := instrAnd, ddddd84 := true, rrrrr9_30 := true } :=
  lookupInstr_eq_some (List.mem_of_getElem? (i := 10) rfl) h

theorem lookup_xor (h : IsOp (0x2400, 0xfc00) w) : lookupInstr w = some
    { pattern := 0x2400, mask := 0xfc00, code := instrXor, ddddd84 := true, rrrrr9_30 := true } :=
  lookupInstr_eq_some (List.mem_of_getElem? (i := 11) rfl) h

theorem lookup_or (h : IsOp (0x2800, 0xfc00) w) : lookupInstr w = some
    { pattern := 0x2800, mask := 0xfc00, code := instrOr, ddddd84 := true, rrrrr9_30 := true } :=
  lookupInstr_eq_some (List.mem_of_getElem? (i := 12) rfl) h

theorem lookup_cpi (h : IsOp (0x3000, 0xf000) w) : lookupInstr w = some
    { pattern := 0x3000, mask := 0xf000, code := instrCpi, dddd74 := true, kkkk118_30 := true } :=
  lookupInstr_eq_some (List.mem_of_getElem? (i := 14) rfl) h

theorem lookup_sbci (h : IsOp (0x4000, 0xe000) w) : lookupInstr w = some
    { pattern := 0x4000, mask := 0xe000, code := instrCpi, dddd74 := true, kkkk118_30 := true } :=
  lookupInstr_eq_some (List.mem_of_getElem? (i := 15) rfl) h

theorem lookup_ori (h : IsOp (0x6000, 0xf000) w) : lookupInstr w = some
    { pattern := 0x6000, mask := 0xf000, code := instrOri, dddd74 := true, kkkk118_30 := true } :=
  lookupInstr_eq_some (List.mem_of_getElem? (i := 16) rfl) h

theorem lookup_andi (h : IsOp (0x7000, 0xf000) w) : lookupInstr w = some
    { pattern := 0x7000, mask := 0xf000, code := instrAndi, dddd74 := true, kkkk118_30 := true } :=
  lookupInstr_eq_some (List.mem_of_getElem? (i := 17) rfl) h

theorem lookup_com (h : IsOp (0x9400, 0xfe0f) w) : lookupInstr w = some
    { pattern := 0x9400, mask := 0xfe0f, code := instrCom, ddddd84 := true } :=
  lookupInstr_eq_some (List.mem_of_getElem? (i := 34) rfl) h

theorem lookup_neg (h : IsOp (0x9401, 0xfe0f) w) : lookupInstr w = some
    { pattern := 0x9401, mask := 0xfe0f, code := instrNeg, ddddd84 := true } :=
  lookupInstr_eq_some (List.mem_of_getElem? (i := 35) rfl) h

theorem lookup_inc (h : IsOp (0x9403, 0xfe0f) w) : lookupInstr w = some
    { pattern := 0x9403, mask := 0xfe0f, code := instrInc, ddddd84 := true } :=
  lookupInstr_eq_some (List.mem_of_getElem? (i := 37) rfl) h

theorem lookup_asr (h : IsOp (0x9405, 0xfe0f) w) : lookupInstr w = some
    { pattern := 0x9405, mask := 0xfe0f, code := instrAsr, ddddd84 := true } :=
  lookupInstr_eq_some (List.mem_of_getElem? (i := 38) rfl) h

theorem lookup_lsr (h : IsOp (0x9406, 0xfe0f) w) : lookupInstr w = some
    { pattern := 0x9406, mask := 0xfe0f, code := instrLsr, ddddd84 := true } :=
  lookupInstr_eq_some (List.mem_of_getElem? (i := 39) rfl) h

theorem lookup_ror (h : IsOp (0x9407, 0xfe0f) w) : lookupInstr w = some
    { pattern := 0x9407, mask := 0xfe0f, code := instrRor, ddddd84 := true } :=
  lookupInstr_eq_some (List.mem_of_getElem? (i := 40) rfl) h

theorem lookup_dec (h : IsOp (0x940a, 0xfe0f) w) : lookupInstr w = some
    { pattern := 0x940a, mask := 0xfe0f, code := instrDec, ddddd84 := true } :=
  lookupInstr_eq_some (List.mem_of_getElem? (i := 42) rfl) h

theorem lookup_adiw (h : IsOp (0x9600, 0xff00) w) : lookupInstr w = some
    { pattern := 0x9600, mask := 0xff00, code := instrAdiw } :=
  lookupInstr_eq_some (List.mem_of_getElem? (i := 55) rfl) h

theorem lookup_sbiw (h : IsOp (0x9700, 0xff00) w) : lookupInstr w = some
    { pattern := 0x9700, mask := 0xff00, code := instrSbiw } :=
  lookupInstr_eq_some (List.mem_of_getElem? (i := 56) rfl) h

theorem lookup_mul (h : IsOp (0x9c00, 0xfc00) w) : lookupInstr w = some
    { pattern := 0x9c00, mask := 0xfc00, code := instrMul, ddddd84 := true, rrrrr9_30 := true } :=
  lookupInstr_eq_some (List.mem_of_getElem? (i := 59) rfl) h

end Rows

end AvrEmu
