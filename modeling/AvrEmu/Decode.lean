import AvrEmu.Instr.Transfer

/-!
# The decode table

A row matches the instruction words that agree with its pattern under its mask. The
flags of the row say where its operands lie in the word.
-/

namespace AvrEmu

/-- A row of the decode table. -/
structure InstrDecode where
  pattern : Word
  mask : Word
  code : Code
  ddddd84 : Bool := false
  dddd74 : Bool := false
  ddd64 : Bool := false
  rrrrr9_30 : Bool := false
  rrrr30 : Bool := false
  rrr20 : Bool := false
  kkkk118_30 : Bool := false
  imm16 : Bool := false

def avrInstr [DesLibrary] : List InstrDecode := [
  { pattern := 0x0000, mask := 0xffff, code := instrNop },
  { pattern := 0x0100, mask := 0xff00, code := instrMovw, dddd74 := true, rrrr30 := true },
  { pattern := 0x0200, mask := 0xff00, code := instrMuls, dddd74 := true, rrrr30 := true },
  { pattern := 0x0300, mask := 0xff88, code := instrMulsu, ddd64 := true, rrr20 := true },
  { pattern := 0x0308, mask := 0xff88, code := instrFmul, ddd64 := true, rrr20 := true },
  { pattern := 0x0380, mask := 0xff80, code := instrFmulsu, ddd64 := true, rrr20 := true },
  { pattern := 0x0400, mask := 0xec00, code := instrCpc, ddddd84 := true, rrrrr9_30 := true },
  { pattern := 0x0800, mask := 0xec00, code := instrCpc, ddddd84 := true, rrrrr9_30 := true },
  { pattern := 0x0c00, mask := 0xec00, code := instrAdc, ddddd84 := true, rrrrr9_30 := true },
  { pattern := 0x1000, mask := 0xfc00, code := instrCpse, ddddd84 := true, rrrrr9_30 := true },
  { pattern := 0x2000, mask := 0xfc00, code := instrAnd, ddddd84 := true, rrrrr9_30 := true },
  { pattern := 0x2400, mask := 0xfc00, code := instrXor, ddddd84 := true, rrrrr9_30 := true },
  { pattern := 0x2800, mask := 0xfc00, code := instrOr, ddddd84 := true, rrrrr9_30 := true },
  { pattern := 0x2c00, mask := 0xfc00, code := instrMov, ddddd84 := true, rrrrr9_30 := true },
  { pattern := 0x3000, mask := 0xf000, code := instrCpi, dddd74 := true, kkkk118_30 := true },
  { pattern := 0x4000, mask := 0xe000, code := instrCpi, dddd74 := true, kkkk118_30 := true },
  { pattern := 0x6000, mask := 0xf000, code := instrOri, dddd74 := true, kkkk118_30 := true },
  { pattern := 0x7000, mask := 0xf000, code := instrAndi, dddd74 := true, kkkk118_30 := true },
  { pattern := 0x8000, mask := 0xd200, code := instrLdyz, ddddd84 := true },
  { pattern := 0x8200, mask := 0xd200, code := instrStyz, ddddd84 := true },
  { pattern := 0x9000, mask := 0xfe0f, code := instrLds, ddddd84 := true, imm16 := true },
  { pattern := 0x9001, mask := 0xfe07, code := instrLdyz, ddddd84 := true },
  { pattern := 0x9002, mask := 0xfe07, code := instrLdyz, ddddd84 := true },
  { pattern := 0x9004, mask := 0xfe0c, code := instrElpmz, ddddd84 := true },
  { pattern := 0x900c, mask := 0xfe0e, code := instrLdx, ddddd84 := true },
  { pattern := 0x900e, mask := 0xfe0f, code := instrLdx, ddddd84 := true },
  { pattern := 0x900f, mask := 0xfe0f, code := instrPop, ddddd84 := true },
  { pattern := 0x9200, mask := 0xfe0f, code := instrSts, ddddd84 := true, imm16 := true },
  { pattern := 0x9201, mask := 0xfe07, code := instrStyz, ddddd84 := true },
  { pattern := 0x9202, mask := 0xfe07, code := instrStyz, ddddd84 := true },
  { pattern := 0x9204, mask := 0xfe0c, code := instrXch, ddddd84 := true },
  { pattern := 0x920c, mask := 0xfe0e, code := instrStx, ddddd84 := true },
  { pattern := 0x920e, mask := 0xfe0f, code := instrStx, ddddd84 := true },
  { pattern := 0x920f, mask := 0xfe0f, code := instrPush, ddddd84 := true },
  { pattern := 0x9400, mask := 0xfe0f, code := instrCom, ddddd84 := true },
  { pattern := 0x9401, mask := 0xfe0f, code := instrNeg, ddddd84 := true },
  { pattern := 0x9402, mask := 0xfe0f, code := instrSwap, ddddd84 := true },
  { pattern := 0x9403, mask := 0xfe0f, code := instrInc, ddddd84 := true },
  { pattern := 0x9405, mask := 0xfe0f, code := instrAsr, ddddd84 := true },
  { pattern := 0x9406, mask := 0xfe0f, code := instrLsr, ddddd84 := true },
  { pattern := 0x9407, mask := 0xfe0f, code := instrRor, ddddd84 := true },
  { pattern := 0x9408, mask := 0xff0f, code := instrBclrset, ddd64 := true },
  { pattern := 0x940a, mask := 0xfe0f, code := instrDec, ddddd84 := true },
  { pattern := 0x940b, mask := 0xff0f, code := instrDes, dddd74 := true },
  { pattern := 0x940c, mask := 0xfe0e, code := instrJmp, imm16 := true },
  { pattern := 0x940e, mask := 0xfe0e, code := instrCall, imm16 := true },
  { pattern := 0x9508, mask := 0xffff, code := instrRet },
  { pattern := 0x9409, mask := 0xfeef, code := instrEicalljump },
  { pattern := 0x9518, mask := 0xffff, code := instrReti },
  { pattern := 0x9588, mask := 0xffff, code := instrUnimp }, -- SLEEP
  { pattern := 0x9598, mask := 0xffff, code := instrUnimp }, -- BREAK
  { pattern := 0x95a8, mask := 0xffff, code := instrUnimp }, -- WDR
  { pattern := 0x95c8, mask := 0xffef, code := instrElpm },
  { pattern := 0x95e8, mask := 0xffff, code := instrUnimp }, -- SPM
  { pattern := 0x95f8, mask := 0xffff, code := instrUnimp }, -- SPM Z+
  { pattern := 0x9600, mask := 0xff00, code := instrAdiw },
  { pattern := 0x9700, mask := 0xff00, code := instrSbiw },
  { pattern := 0x9800, mask := 0xfd00, code := instrCbisbi, rrr20 := true },
  { pattern := 0x9900, mask := 0xfd00, code := instrSbics, rrr20 := true },
  { pattern := 0x9c00, mask := 0xfc00, code := instrMul, ddddd84 := true, rrrrr9_30 := true },
  { pattern := 0xb000, mask := 0xf800, code := instrIn, ddddd84 := true },
  { pattern := 0xb800, mask := 0xf800, code := instrOut, ddddd84 := true },
  { pattern := 0xc000, mask := 0xe000, code := instrRcalljmp },
  { pattern := 0xe000, mask := 0xf000, code := instrLdi, dddd74 := true, kkkk118_30 := true },
  { pattern := 0xf000, mask := 0xf800, code := instrBrb, rrr20 := true },
  { pattern := 0xf800, mask := 0xfe08, code := instrBld, ddddd84 := true, rrr20 := true },
  { pattern := 0xfa00, mask := 0xfe08, code := instrBst, ddddd84 := true, rrr20 := true },
  { pattern := 0xfc00, mask := 0xfc08, code := instrSbrcs, ddddd84 := true, rrr20 := true }]

/-- Whether a row matches an instruction word. -/
def InstrDecode.matchesWord (d : InstrDecode) (instr : Word) : Bool :=
  instr &&& d.mask == d.pattern

/-- The linear search for the first matching row. -/
def lookupInstr [DesLibrary] (instr : Word) : Option InstrDecode :=
  avrInstr.find? fun d => d.matchesWord instr

/-- Fills in the operand fields a row names. -/
def decodeOperands (d : InstrDecode) (idc : InstrDecodeCommon) : Exec InstrDecodeCommon := do
  let instr := idc.instr
  let idc ← (if d.ddddd84 then do
      let b ← bits instr 8 4
      pure { idc with ddddd := (b >>> 4).setWidth 8 }
    else pure idc)
  let idc ← (if d.dddd74 then do
      let b ← bits instr 7 4
      pure { idc with ddddd := 16#8 + (b >>> 4).setWidth 8 }
    else pure idc)
  let idc ← (if d.ddd64 then do
      let b ← bits instr 6 4
      pure { idc with ddddd := 16#8 + (b >>> 4).setWidth 8 }
    else pure idc)
  let idc ← (if d.rrrrr9_30 then do
      let hi ← bits instr 9 9
      let lo ← bits instr 3 0
      pure { idc with rrrrr := (hi >>> 5 ||| lo).setWidth 8 }
    else pure idc)
  let idc ← (if d.rrrr30 then do
      let b ← bits instr 3 0
      pure { idc with rrrrr := 16#8 + b.setWidth 8 }
    else pure idc)
  let idc ← (if d.rrr20 then do
      let b ← bits instr 2 0
      pure { idc with rrrrr := 16#8 + b.setWidth 8 }
    else pure idc)
  (if d.kkkk118_30 then do
      let hi ← bits instr 11 8
      let lo ← bits instr 3 0
      pure { idc with immU8 := (hi >>> 4 ||| lo).setWidth 8 }
    else pure idc)

end AvrEmu
