import SpEmu.Lib.Bytes
import SpEmu.Lib.Runs
import SpEmu.Lib.KeyLock
import SpEmu.Lib.Prog
import SpEmu.Lib.RingQueue
import SpEmu.Lib.Mirror
import SpEmu.Lib.Text
import SpEmu.Lib.FlowQueue
import SpEmu.Lib.Nor
import SpEmu.Lib.Numeral
import SpEmu.Lib.Cutter
import SpEmu.Lib.Stuffing
import SpEmu.Lib.Ieee
import SpEmu.Lib.Keyed
import SpEmu.Lib.FirstWins
import SpEmu.Lib.UnixPath
import SpEmu.Lib.Toml
import SpEmu.Lib.FlatToml
import SpEmu.Lib.Adder
import SpEmu.Lib.SignedField
import SpEmu.Lib.BitStream
import SpEmu.Lib.BlockBuffer
import SpEmu.Lib.OnesComplement
import SpEmu.Lib.Transducer
import SpEmu.Flash.RotFlash
import SpEmu.Flash.RotTotal
import SpEmu.Flash.Controller
import SpEmu.Flash.RotPersist
import SpEmu.Flash.RotPages
import SpEmu.Flash.FlashRefinement
import SpEmu.Flash.Metadata
import SpEmu.Flash.PowerCycle
import SpEmu.Flash.Serve
import SpEmu.Mem.Memory
import SpEmu.Mem.Dispatch
import SpEmu.Mem.RamView
import SpEmu.Mem.WalkDepth
import SpEmu.Mem.BusSafety
import SpEmu.Mem.Service
import SpEmu.Mem.IrqCollection
import SpEmu.Mem.RxRing
import SpEmu.Mem.RxPump
import SpEmu.Mem.TxRing
import SpEmu.Mem.BootRom
import SpEmu.Flash.RotSeed
import SpEmu.Cpu.Core
import SpEmu.Cpu.Instruction
import SpEmu.Cpu.Exec
import SpEmu.Cpu.RomCall
import SpEmu.Cpu.Exceptions
import SpEmu.Cpu.Interrupts
import SpEmu.Cpu.Nesting
import SpEmu.Cpu.Alu
import SpEmu.Cpu.LoadStore
import SpEmu.Cpu.Vfp
import SpEmu.Cpu.Execute
import SpEmu.Cpu.Flags
import SpEmu.Cpu.Effects
import SpEmu.Cpu.Banking
import SpEmu.Cpu.ItBlocks
import SpEmu.Cpu.SysTick
import SpEmu.Cpu.TickCredit
import SpEmu.Cpu.TickDelivery
import SpEmu.Cpu.BranchTargets
import SpEmu.Cpu.BlockTransfer
import SpEmu.Debug.DebugPort
import SpEmu.Debug.HaltCause
import SpEmu.Debug.SaveRestore
import SpEmu.Debug.RegisterFile
import SpEmu.Debug.RotSwd
import SpEmu.Debug.SwdSession
import SpEmu.Sprot.Link
import SpEmu.Sprot.Wires
import SpEmu.Sprot.Fifo
import SpEmu.Sprot.Framing
import SpEmu.Sprot.RotIrq
import SpEmu.Sprot.SharedRot
import SpEmu.Sprot.RotService
import SpEmu.Net.Frames
import SpEmu.Net.RxQueue
import SpEmu.Net.Bridge
import SpEmu.Net.Routing
import SpEmu.Net.FrameCodec
import SpEmu.Cpu.DecodeCache
import SpEmu.Soc.Cells
import SpEmu.Soc.Board
import SpEmu.Soc.EndoscopeCredit
import SpEmu.Soc.ByteWise
import SpEmu.Soc.NarrowStores
import SpEmu.Soc.PintEdges
import SpEmu.Soc.Vsc7448
import SpEmu.Soc.Fpga
import SpEmu.Debug.BlockAccess
import SpEmu.Soc.Machine
import SpEmu.Soc.Resets
import SpEmu.Soc.Coherence
import SpEmu.Soc.Qspi
import SpEmu.Soc.QspiNor
import SpEmu.Soc.QspiPersist
import SpEmu.Soc.Puf
import SpEmu.Soc.HashCrypt
import SpEmu.Soc.PufSessions
import SpEmu.Soc.Tlvc
import SpEmu.Soc.Vpd
import SpEmu.Soc.Identity
import SpEmu.Soc.SourceRoundTrip
import SpEmu.Soc.I2cBridge
import SpEmu.Debug.Cobs
import SpEmu.Debug.Glasgow
import SpEmu.Debug.Chunking
import SpEmu.Config.Knob
import SpEmu.Config.Ingest
import SpEmu.Config.Flat
import SpEmu.Config.Leniency
import SpEmu.Config.Typed
import SpEmu.Config.Readers
import SpEmu.Config.VersionGuard
import SpEmu.Config.Replay
import SpEmu.Config.Dump
import SpEmu.Bundle.Pack
import SpEmu.Bundle.Correspondence
import SpEmu.Bundle.Unpack
