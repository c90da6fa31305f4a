import AvrEmu.Instr.Control

/-!
# Data transfer instructions

Loads and stores form their address in one of several ways. The knobs that limit
the data space are consulted by each addressing path for itself.
-/

namespace AvrEmu

/-- LPM and ELPM with the implied destination R0. -/
def instrElpm : Code := fun idc => do
  let ext := (← bits idc.instr 4 4) != 0
  let z ← memword 30
  let addr ← extend ext rampz z
  let word ← romword (addr >>> 1)
  setMem 0 (if addr &&& 1 != 0 then (word >>> 8).setWidth 8 else (word &&& 0xff).setWidth 8)
  pure idc

/-- LPM and ELPM with a destination register and optional post-increment. -/
def instrElpmz : Code := fun idc => do
  let ext := (← bits idc.instr 1 1) != 0
  let postinc := (← bits idc.instr 0 0) != 0
  when (postinc && (idc.ddddd == 30 || idc.ddddd == 31)) (illins idc.instr)
  let z ← memword 30
  let addr ← extend ext rampz z
  let word ← romword (addr >>> 1)
  setMem idc.ddddd.toNat
    (if addr &&& 1 != 0 then (word >>> 8).setWidth 8 else (word &&& 0xff).setWidth 8)
  when postinc (memwriteword 30 ((addr + 1 &&& 0xffff).setWidth 16))
  pure idc

/-- The port of IN and OUT. -/
def ioPort (instr : Word) : Exec Byte := do
  let hi ← bits instr 10 9
  let lo ← bits instr 3 0
  pure ((hi >>> 5 ||| lo).setWidth 8)

def instrIn : Code := fun idc => do
  let port ← ioPort idc.instr
  let v ← mem (ioBase + port.toNat)
  setMem idc.ddddd.toNat v
  pure idc

def instrLdi : Code := fun idc => do
  setMem idc.ddddd.toNat idc.immU8
  pure idc

def instrLds : Code := fun idc => do
  let s ← core
  let addr ← extend (!s.pcMemMax64k) rampd idc.immU16
  let v ← mem addr.toNat
  setMem idc.ddddd.toNat v
  pure idc

/-- `memory[dst] = memory[src]`. -/
def move (src dst : ℕ) : Exec Unit := do
  let v ← mem src
  setMem dst v

/-- Indirect loads and stores through the pointer at `rp`, extended by the byte at
`extaddr`. Mode 1 increments the pointer after the access, mode 2 decrements it before,
and any other mode adds the displacement. -/
def instrLdstCommon (rp extaddr : ℕ) (mode displace : Byte) (store : Bool) : Code := fun idc => do
  let postinc := mode == 1
  let predec := mode == 2
  when ((predec || postinc) && (idc.ddddd.toNat == rp || idc.ddddd.toNat == rp + 1))
    (illins idc.instr)
  let p ← memword (BitVec.ofNat 32 rp)
  let s ← core
  let addr ← extend (!s.pcMemMax64k) extaddr p
  let addr := if predec then addr - 1 &&& 0xffffff else addr
  let addr := if !predec && !postinc then addr + displace.setWidth 32 &&& 0xffffff else addr
  let addr :=
    if s.pcMemMax256b then addr &&& 0xff
    else if s.pcMemMax64k then addr &&& 0xffff
    else addr
  (if store then move idc.ddddd.toNat addr.toNat else move addr.toNat idc.ddddd.toNat)
  let addr := if postinc then addr + 1 else addr
  when (postinc || predec) (if s.pcMemMax256b then setMem rp ((addr &&& 0xff).setWidth 8)
    else do
      memwriteword (BitVec.ofNat 32 rp) ((addr &&& 0xffff).setWidth 16)
      when (!s.pcMemMax64k) (setMem extaddr ((addr >>> 16).setWidth 8)))
  pure idc

/-- The mode and displacement of the Y and Z forms. -/
def yzMode (instr : Word) : Exec (Byte × Byte) := do
  let indexed ← bits instr 12 12
  (if indexed == 0 then do
      let d₅ ← bits instr 13 13
      let d₄ ← bits instr 11 10
      let d₂ ← bits instr 2 0
      pure (0, (d₅ >>> 8 ||| d₄ >>> 7 ||| d₂).setWidth 8)
    else do
      let mode ← bits instr 1 0
      pure (mode.setWidth 8, 0))

def instrLdx : Code := fun idc => do
  let mode ← bits idc.instr 1 0
  instrLdstCommon regpX rampx (mode.setWidth 8) 0 false idc

def instrLdyz : Code := fun idc => do
  let y := (← bits idc.instr 3 3) != 0
  let md ← yzMode idc.instr
  (if y then instrLdstCommon regpY rampy md.1 md.2 false idc
    else instrLdstCommon regpZ rampz md.1 md.2 false idc)

def instrMov : Code := fun idc => do
  let rr ← mem idc.rrrrr.toNat
  setMem idc.ddddd.toNat rr
  pure idc

def instrMovw : Code := fun idc => do
  let dddd : Byte := (idc.ddddd - 16) <<< 1
  let rrrr : Byte := (idc.rrrrr - 16) <<< 1
  let w ← memword (rrrr.setWidth 32)
  memwriteword (dddd.setWidth 32) w
  pure idc

def instrOut : Code := fun idc => do
  let port ← ioPort idc.instr
  let v ← mem idc.ddddd.toNat
  setMem (ioBase + port.toNat) v
  pure idc

def instrPop : Code := fun idc => do
  let b ← popbyte
  setMem idc.ddddd.toNat b
  pure idc

def instrPush : Code := fun idc => do
  let b ← mem idc.ddddd.toNat
  pushbyte b
  pure idc

/-- Unlike LDS, this path consults the 256-byte knob. -/
def instrSts : Code := fun idc => do
  let s ← core
  let addr ← extend (!s.pcMemMax64k) rampd idc.immU16
  let addr := if s.pcMemMax64k && s.pcMemMax256b then addr &&& 0xff else addr
  let v ← mem idc.ddddd.toNat
  setMem addr.toNat v
  pure idc

def instrStx : Code := fun idc => do
  let mode ← bits idc.instr 1 0
  instrLdstCommon regpX rampx (mode.setWidth 8) 0 true idc

def instrStyz : Code := fun idc => do
  let y := (← bits idc.instr 3 3) != 0
  let md ← yzMode idc.instr
  (if y then instrLdstCommon regpY rampy md.1 md.2 true idc
    else instrLdstCommon regpZ rampz md.1 md.2 true idc)

/-- XCH, LAS, LAC and LAT, by the two low bits of the instruction. -/
def instrXch : Code := fun idc => do
  let mode ← bits idc.instr 1 0
  let rd ← mem idc.ddddd.toNat
  let addr ← memword 30
  let old ← mem addr.toNat
  let new :=
    if mode == 0 then rd
    else if mode == 1 then old ||| rd
    else if mode == 2 then old &&& ~~~rd
    else old ^^^ rd
  setMem addr.toNat new
  setMem idc.ddddd.toNat old
  pure idc

end AvrEmu
