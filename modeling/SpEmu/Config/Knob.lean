import SpEmu.Lib.Keyed
import SpEmu.Lib.Ieee

/-!
# The knobs of the configuration

One row for each `SP_EMU_*` variable: its flat name, the section and the key of its field in the
typed file, and its kind. The kind fixes the type of the field in the file (`Kind.Ext`) and in the
resolved configuration (`Kind.Store`), and all that is done with it; the functions are in
`SpEmu.Config.Ingest`.

The knobs stand in the order of `ENV_NAMES`, which is also the order in which `ingest` checks them.
-/

set_option autoImplicit false

namespace SpEmu

inductive Config.Board
  | gimlet | sidecar
deriving DecidableEq

/-- What a knob holds, with its default where it has one. -/
inductive Kind
  | text
  | textOr (default : String)
  /-- An empty text counts as none. -/
  | nonempty
  /-- One of two spellings, checked under this path. -/
  | oneOf (path a b : String)
  | board
  | bootPref
  /-- On when it is there at all. -/
  | flag
  /-- On unless it is `"0"`. -/
  | coupling
  | dec (width : Nat)
  | decOr (width default : Nat)
  /-- A zero gives way to the default. -/
  | positive (width default : Nat)
  | hex (width : Nat)
  | ambient
  | rotdump
deriving DecidableEq

namespace Kind

/-- The type of the field in the file. -/
def Ext : Kind → Type
  | flag | coupling => Bool
  | dec w | decOr w _ | positive w _ | hex w => BitVec w
  | ambient => Ieee.F32
  | text | textOr _ | nonempty | oneOf _ _ _ | board | bootPref | rotdump => List Char

/-- The type of the resolved value. -/
def Store : Kind → Type
  | text | nonempty | oneOf _ _ _ | bootPref => Option (List Char)
  | textOr _ => List Char
  | board => Config.Board
  | flag | coupling => Bool
  | dec w | hex w => Option (BitVec w)
  | decOr w _ | positive w _ => BitVec w
  | ambient => Ieee.F32
  | rotdump => Option (BitVec 32 × BitVec 32)

end Kind

/-- The sections of the typed file. -/
inductive Section
  | op | paths | net | host | i2c | rot | sprot | vpd | sensors | dump | trace | stats | debug
deriving DecidableEq

namespace Section

def all : List Section :=
  [op, paths, net, host, i2c, rot, sprot, vpd, sensors, dump, trace, stats, debug]

def name : Section → List Char
  | op => "op".toList
  | paths => "paths".toList
  | net => "net".toList
  | host => "host".toList
  | i2c => "i2c".toList
  | rot => "rot".toList
  | sprot => "sprot".toList
  | vpd => "vpd".toList
  | sensors => "sensors".toList
  | dump => "dump".toList
  | trace => "trace".toList
  | stats => "stats".toList
  | debug => "debug".toList

theorem mem_all (s : Section) : s ∈ all := by cases s <;> decide

theorem nodup_names : (all.map name).Nodup := by decide

end Section

inductive Knob
  | flash | rotNvm | identity | stateDir | archive | seed | mode | slot | runMax | board
  | ignition | bridge | wellKnownPorts | addr0 | addr1 | vid0 | vid1 | ethQuantum | ethTxbreak
  | idleMs | hostUart | hostPty | i2cBridge | i2cDevice | rotRom | rotFresh | rotMeasure
  | rotService | rotFlash | rotBootleby | rotNoBootleby | rotCmpa | rotCfpa | rotNmpa | rotImageB
  | rotEraseA | rotBootPref | rotDice | rotPreboot | sprotFlowctl | sprotCouple | endoscopeCouple
  | spClockKhz | vpdSerial | vpdPart | vpdRev | sensors | ambientC | dumpDir | dumpArchiveId
  | trace | traceFrom | traceTo | rotTraceFrom | rotTraceTo | rotpc | rotdump | watch | diff
  | pcprof | rxstats | rttstats | pumpstats | pumpstatsMs | noDebug | noArchiveWarn | swdTrigger
  | jtagTrigger | swdTrace | rotsvc | pingtest | flashdbg | rotflashdbg | ethdbg | uartdbg
  | bridgedbg | pufdbg | vscdbg | rxdbg | mdiodbg | vpddbg | spidbg | panicdbg | svcdbg | excdbg
  | sprotdbg | coupledbg | romdbg | configdbg
deriving DecidableEq

namespace Knob

structure Row where
  name : String
  sect : Section
  key : String
  kind : Kind

def row : Knob → Row
  | .flash => ⟨"SP_EMU_FLASH", .paths, "flash", .textOr "sp-flash.bin"⟩
  | .rotNvm => ⟨"SP_EMU_ROT_NVM", .paths, "rot_nvm", .textOr "sp-rot-flash.bin"⟩
  | .identity => ⟨"SP_EMU_IDENTITY", .paths, "identity", .textOr "sp-emu-identity"⟩
  | .stateDir => ⟨"SP_EMU_STATE_DIR", .paths, "state_dir", .text⟩
  | .archive => ⟨"SP_EMU_ARCHIVE", .paths, "archive", .text⟩
  | .seed => ⟨"SP_EMU_SEED", .op, "seed", .text⟩
  | .mode => ⟨"SP_EMU_MODE", .op, "mode", .oneOf "op.mode" "run" "gdb"⟩
  | .slot => ⟨"SP_EMU_SLOT", .op, "slot", .oneOf "op.slot" "a" "b"⟩
  | .runMax => ⟨"SP_EMU_RUN_MAX", .op, "run_max", .dec 64⟩
  | .board => ⟨"SP_EMU_BOARD", .op, "board", .board⟩
  | .ignition =>
      ⟨"SP_EMU_IGNITION", .op, "ignition", .textOr "0:gimlet,1:sidecar,2:gimlet,3:gimlet"⟩
  | .bridge => ⟨"SP_EMU_BRIDGE", .net, "bridge", .text⟩
  | .wellKnownPorts => ⟨"SP_EMU_WELL_KNOWN_PORTS", .net, "well_known_ports", .flag⟩
  | .addr0 => ⟨"SP_EMU_ADDR0", .net, "addr0", .text⟩
  | .addr1 => ⟨"SP_EMU_ADDR1", .net, "addr1", .text⟩
  | .vid0 => ⟨"SP_EMU_VID0", .net, "vid0", .hex 16⟩
  | .vid1 => ⟨"SP_EMU_VID1", .net, "vid1", .hex 16⟩
  | .ethQuantum => ⟨"SP_EMU_ETH_QUANTUM", .net, "eth_quantum", .positive 32 4096⟩
  | .ethTxbreak => ⟨"SP_EMU_ETH_TXBREAK", .net, "eth_txbreak", .coupling⟩
  | .idleMs => ⟨"SP_EMU_IDLE_MS", .net, "idle_ms", .decOr 64 10⟩
  | .hostUart => ⟨"SP_EMU_HOST_UART", .host, "uart", .text⟩
  | .hostPty => ⟨"SP_EMU_HOST_PTY", .host, "pty", .flag⟩
  | .i2cBridge => ⟨"SP_EMU_I2C_BRIDGE", .i2c, "bridge", .nonempty⟩
  | .i2cDevice => ⟨"SP_EMU_I2C_DEVICE", .i2c, "device", .nonempty⟩
  | .rotRom => ⟨"SP_EMU_ROT_ROM", .rot, "rom", .flag⟩
  | .rotFresh => ⟨"SP_EMU_ROT_FRESH", .rot, "fresh", .flag⟩
  | .rotMeasure => ⟨"SP_EMU_ROT_MEASURE", .rot, "measure", .flag⟩
  | .rotService => ⟨"SP_EMU_ROT_SERVICE", .rot, "service", .nonempty⟩
  | .rotFlash => ⟨"SP_EMU_ROT_FLASH", .rot, "flash", .text⟩
  | .rotBootleby => ⟨"SP_EMU_ROT_BOOTLEBY", .rot, "bootleby", .text⟩
  | .rotNoBootleby => ⟨"SP_EMU_ROT_NO_BOOTLEBY", .rot, "no_bootleby", .flag⟩
  | .rotCmpa => ⟨"SP_EMU_ROT_CMPA", .rot, "cmpa", .text⟩
  | .rotCfpa => ⟨"SP_EMU_ROT_CFPA", .rot, "cfpa", .text⟩
  | .rotNmpa => ⟨"SP_EMU_ROT_NMPA", .rot, "nmpa", .text⟩
  | .rotImageB => ⟨"SP_EMU_ROT_IMAGE_B", .rot, "image_b", .text⟩
  | .rotEraseA => ⟨"SP_EMU_ROT_ERASE_A", .rot, "erase_a", .flag⟩
  | .rotBootPref => ⟨"SP_EMU_ROT_BOOT_PREF", .rot, "boot_pref", .bootPref⟩
  | .rotDice => ⟨"SP_EMU_ROT_DICE", .rot, "dice", .text⟩
  | .rotPreboot => ⟨"SP_EMU_ROT_PREBOOT", .rot, "preboot", .dec 64⟩
  | .sprotFlowctl => ⟨"SP_EMU_SPROT_FLOWCTL", .sprot, "flowctl", .decOr 32 16⟩
  | .sprotCouple => ⟨"SP_EMU_SPROT_COUPLE", .sprot, "couple", .coupling⟩
  | .endoscopeCouple => ⟨"SP_EMU_ENDOSCOPE_COUPLE", .sprot, "endoscope_couple", .coupling⟩
  | .spClockKhz => ⟨"SP_EMU_SP_CLOCK_KHZ", .sprot, "sp_clock_khz", .positive 32 400000⟩
  | .vpdSerial => ⟨"SP_EMU_VPD_SERIAL", .vpd, "serial", .nonempty⟩
  | .vpdPart => ⟨"SP_EMU_VPD_PART", .vpd, "part", .nonempty⟩
  | .vpdRev => ⟨"SP_EMU_VPD_REV", .vpd, "rev", .nonempty⟩
  | .sensors => ⟨"SP_EMU_SENSORS", .sensors, "overrides", .text⟩
  | .ambientC => ⟨"SP_EMU_AMBIENT_C", .sensors, "ambient_c", .ambient⟩
  | .dumpDir => ⟨"SP_EMU_DUMP_DIR", .dump, "dir", .text⟩
  | .dumpArchiveId => ⟨"SP_EMU_DUMP_ARCHIVE_ID", .dump, "archive_id", .textOr ""⟩
  | .trace => ⟨"SP_EMU_TRACE", .trace, "enabled", .flag⟩
  | .traceFrom => ⟨"SP_EMU_TRACE_FROM", .trace, "from", .dec 64⟩
  | .traceTo => ⟨"SP_EMU_TRACE_TO", .trace, "to", .dec 64⟩
  | .rotTraceFrom => ⟨"SP_EMU_ROT_TRACE_FROM", .trace, "rot_from", .hex 32⟩
  | .rotTraceTo => ⟨"SP_EMU_ROT_TRACE_TO", .trace, "rot_to", .hex 32⟩
  | .rotpc => ⟨"SP_EMU_ROTPC", .trace, "rotpc", .dec 64⟩
  | .rotdump => ⟨"SP_EMU_ROTDUMP", .trace, "rotdump", .rotdump⟩
  | .watch => ⟨"SP_EMU_WATCH", .trace, "watch", .hex 32⟩
  | .diff => ⟨"SP_EMU_DIFF", .trace, "diff", .text⟩
  | .pcprof => ⟨"SP_EMU_PCPROF", .trace, "pcprof", .flag⟩
  | .rxstats => ⟨"SP_EMU_RXSTATS", .stats, "rx", .flag⟩
  | .rttstats => ⟨"SP_EMU_RTTSTATS", .stats, "rtt", .flag⟩
  | .pumpstats => ⟨"SP_EMU_PUMPSTATS", .stats, "pump", .flag⟩
  | .pumpstatsMs => ⟨"SP_EMU_PUMPSTATS_MS", .stats, "pump_ms", .decOr 64 50⟩
  | .noDebug => ⟨"SP_EMU_NO_DEBUG", .debug, "no_debug", .flag⟩
  | .noArchiveWarn => ⟨"SP_EMU_NO_ARCHIVE_WARN", .debug, "no_archive_warn", .flag⟩
  | .swdTrigger => ⟨"SP_EMU_SWD_TRIGGER", .debug, "swd_trigger", .flag⟩
  | .jtagTrigger => ⟨"SP_EMU_JTAG_TRIGGER", .debug, "jtag_trigger", .flag⟩
  | .swdTrace => ⟨"SP_EMU_SWD_TRACE", .debug, "swd_trace", .flag⟩
  | .rotsvc => ⟨"SP_EMU_ROTSVC", .debug, "rotsvc", .flag⟩
  | .pingtest => ⟨"SP_EMU_PINGTEST", .debug, "pingtest", .flag⟩
  | .flashdbg => ⟨"SP_EMU_FLASHDBG", .debug, "flash", .flag⟩
  | .rotflashdbg => ⟨"SP_EMU_ROTFLASHDBG", .debug, "rotflash", .flag⟩
  | .ethdbg => ⟨"SP_EMU_ETHDBG", .debug, "eth", .flag⟩
  | .uartdbg => ⟨"SP_EMU_UARTDBG", .debug, "uart", .flag⟩
  | .bridgedbg => ⟨"SP_EMU_BRIDGEDBG", .debug, "bridge", .flag⟩
  | .pufdbg => ⟨"SP_EMU_PUFDBG", .debug, "puf", .flag⟩
  | .vscdbg => ⟨"SP_EMU_VSCDBG", .debug, "vsc", .flag⟩
  | .rxdbg => ⟨"SP_EMU_RXDBG", .debug, "rx", .flag⟩
  | .mdiodbg => ⟨"SP_EMU_MDIODBG", .debug, "mdio", .flag⟩
  | .vpddbg => ⟨"SP_EMU_VPDDBG", .debug, "vpd", .flag⟩
  | .spidbg => ⟨"SP_EMU_SPIDBG", .debug, "spi", .flag⟩
  | .panicdbg => ⟨"SP_EMU_PANICDBG", .debug, "panic", .flag⟩
  | .svcdbg => ⟨"SP_EMU_SVCDBG", .debug, "svc", .flag⟩
  | .excdbg => ⟨"SP_EMU_EXCDBG", .debug, "exc", .flag⟩
  | .sprotdbg => ⟨"SP_EMU_SPROTDBG", .debug, "sprot", .flag⟩
  | .coupledbg => ⟨"SP_EMU_COUPLEDBG", .debug, "couple", .flag⟩
  | .romdbg => ⟨"SP_EMU_ROMDBG", .debug, "rom", .flag⟩
  | .configdbg => ⟨"SP_EMU_CONFIGDBG", .debug, "config", .flag⟩

/-- `ENV_NAMES`. -/
def all : List Knob :=
  [.flash, .rotNvm, .identity, .stateDir, .archive, .seed, .mode, .slot, .runMax, .board,
    .ignition, .bridge, .wellKnownPorts, .addr0, .addr1, .vid0, .vid1, .ethQuantum, .ethTxbreak,
    .idleMs, .hostUart, .hostPty, .i2cBridge, .i2cDevice, .rotRom, .rotFresh, .rotMeasure,
    .rotService, .rotFlash, .rotBootleby, .rotNoBootleby, .rotCmpa, .rotCfpa, .rotNmpa,
    .rotImageB, .rotEraseA, .rotBootPref, .rotDice, .rotPreboot, .sprotFlowctl, .sprotCouple,
    .endoscopeCouple, .spClockKhz, .vpdSerial, .vpdPart, .vpdRev, .sensors, .ambientC, .dumpDir,
    .dumpArchiveId, .trace, .traceFrom, .traceTo, .rotTraceFrom, .rotTraceTo, .rotpc, .rotdump,
    .watch, .diff, .pcprof, .rxstats, .rttstats, .pumpstats, .pumpstatsMs, .noDebug,
    .noArchiveWarn, .swdTrigger, .jtagTrigger, .swdTrace, .rotsvc, .pingtest, .flashdbg,
    .rotflashdbg, .ethdbg, .uartdbg, .bridgedbg, .pufdbg, .vscdbg, .rxdbg, .mdiodbg, .vpddbg,
    .spidbg, .panicdbg, .svcdbg, .excdbg, .sprotdbg, .coupledbg, .romdbg, .configdbg]

def name (k : Knob) : List Char := k.row.name.toList

def kind (k : Knob) : Kind := k.row.kind

def sect (k : Knob) : Section := k.row.sect

def key (k : Knob) : List Char := k.row.key.toList

theorem mem_all (k : Knob) : k ∈ all := by cases k <;> decide

theorem nodup_all : all.Nodup := by decide

/-- The name as one number, which is quicker to compare. -/
def code (k : Knob) : Nat :=
  k.row.name.toByteArray.data.toList.foldl (fun a b => a * 256 + b.toNat) 0

theorem nodup_code : (all.map code).Nodup := by decide +kernel

theorem name_injective : Function.Injective name := by
  intro k l h
  have hrow : k.row.name = l.row.name := String.toList_inj.mp h
  have hcode : code k = code l := by rw [code, code, hrow]
  exact List.inj_on_of_nodup_map nodup_code (mem_all k) (mem_all l) hcode

theorem nodup_names : (all.map name).Nodup := nodup_all.map name_injective

end Knob

/-- The fields of a section, in their order in the file. -/
def Section.knobs : Section → List Knob
  | .op => [.mode, .slot, .runMax, .board, .seed, .ignition]
  | .paths => [.flash, .rotNvm, .identity, .stateDir, .archive]
  | .net => [.bridge, .wellKnownPorts, .addr0, .addr1, .vid0, .vid1, .ethQuantum, .ethTxbreak,
      .idleMs]
  | .host => [.hostUart, .hostPty]
  | .i2c => [.i2cBridge, .i2cDevice]
  | .rot => [.rotRom, .rotFresh, .rotMeasure, .rotService, .rotFlash, .rotBootleby,
      .rotNoBootleby, .rotCmpa, .rotCfpa, .rotNmpa, .rotImageB, .rotEraseA, .rotBootPref,
      .rotDice, .rotPreboot]
  | .sprot => [.sprotFlowctl, .sprotCouple, .endoscopeCouple, .spClockKhz]
  | .vpd => [.vpdSerial, .vpdPart, .vpdRev]
  | .sensors => [.sensors, .ambientC]
  | .dump => [.dumpDir, .dumpArchiveId]
  | .trace => [.trace, .traceFrom, .traceTo, .rotTraceFrom, .rotTraceTo, .rotpc, .rotdump,
      .watch, .diff, .pcprof]
  | .stats => [.rxstats, .rttstats, .pumpstats, .pumpstatsMs]
  | .debug => [.noDebug, .noArchiveWarn, .swdTrigger, .jtagTrigger, .swdTrace, .rotsvc,
      .pingtest, .flashdbg, .rotflashdbg, .ethdbg, .uartdbg, .bridgedbg, .pufdbg, .vscdbg,
      .rxdbg, .mdiodbg, .vpddbg, .spidbg, .panicdbg, .svcdbg, .excdbg, .sprotdbg, .coupledbg,
      .romdbg, .configdbg]

namespace Knob

theorem mem_knobs (k : Knob) : k ∈ k.sect.knobs := by cases k <;> decide

theorem nodup_key (s : Section) : (s.knobs.map key).Nodup := by cases s <;> decide +kernel

end Knob

end SpEmu
