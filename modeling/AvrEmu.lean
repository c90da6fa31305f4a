import AvrEmu.BufferBounds
import AvrEmu.Compare
import AvrEmu.DecodeOrder
import AvrEmu.Dialogue
import AvrEmu.Gdb.Checksum
import AvrEmu.Gdb.Payload
import AvrEmu.Gdb.ReadMemory
import AvrEmu.Gdb.Registers
import AvrEmu.Halting
import AvrEmu.InputReplay
import AvrEmu.Interpreter
import AvrEmu.Isolation
import AvrEmu.LongShift
import AvrEmu.Nesting
import AvrEmu.PushPop
import AvrEmu.ReadBack
import AvrEmu.ReverseStep
import AvrEmu.Safety
import AvrEmu.Skips
import AvrEmu.Transcript
import AvrEmu.Walks
