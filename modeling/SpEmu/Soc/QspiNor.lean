import SpEmu.Soc.Qspi
import SpEmu.Lib.Runs

/-!
# The QUADSPI flash against the NOR instructions

A `BusLog` records the accesses of the firmware and decodes nothing. From the log alone `completes`
says which NOR instruction an access finishes, by the opcode of the command, and `drains` which byte
of an addressed read an access asks for; `Conforms` is what the access may then do.

The controller tells an erase from a program by the data phase bits and not by the opcode.
`traced_conforms` is the run theorem for the command words where the two agree (`Named`), and
`not_traced_conforms` a run with one where they do not. The invariant is `Tracks`: while the
write-enable latch is set, the pending transfer is the one the log names.
-/

set_option autoImplicit false

namespace SpEmu

open ByteMem Nor Runs

namespace Qspi

/-! ## The log of the accesses -/

/-- A command as the accesses since its CCR write tell it. -/
structure Command where
  ccr : Word
  /-- DLR when the command was written. -/
  dlr : Word
  /-- The first address written after the command, and DLR then. -/
  start : Option (Word × Word)
  /-- The bytes written to DR since the address. -/
  written : List Byte
  /-- The DR reads since the address. -/
  drained : Nat

/-- The command of a CCR write. -/
def Command.opened (ccr dlr : Word) : Command := ⟨ccr, dlr, none, [], 0⟩

def Command.supply (c : Command) (b : Byte) : Command := { c with written := c.written ++ [b] }

def Command.drain (c : Command) : Command := { c with drained := c.drained + 1 }

/-- What the accesses so far have said: the last DLR and AR values and the last command. -/
structure BusLog where
  dlr : Word
  ar : Word
  command : Option Command

namespace BusLog

def start : BusLog := ⟨0, 0, none⟩

/-- The first address after a command is its own; a later one belongs to no command. -/
def withAddress (c : Command) (addr dlr : Word) : Command :=
  if c.start = none then { c with start := some (addr, dlr), written := [], drained := 0 } else c

def record (log : BusLog) : Access → BusLog
  | .read off =>
      if regAt off = .dr then
        { log with command := log.command.map Command.drain }
      else log
  | .write off val =>
      match regAt off with
      | .dlr => { log with dlr := val }
      | .ccr => { log with command := some (Command.opened val log.dlr) }
      | .ar => { log with ar := val, command := log.command.map (withAddress · val log.dlr) }
      | .dr => { log with command := log.command.map (·.supply (val.setWidth 8)) }
      | _ => log

def ofAccesses (accs : List Access) : BusLog := accs.foldl record start

theorem ofAccesses_append (pre : List Access) (a : Access) :
    ofAccesses (pre ++ [a]) = (ofAccesses pre).record a := by
  simp [ofAccesses]

end BusLog

/-- An addressed SectorErase, with a 4-byte or a 3-byte address. -/
def OpensErase (ccr : Word) : Prop :=
  isRead ccr = false ∧ admode ccr ≠ 0 ∧ (instruction ccr = 0xDC ∨ instruction ccr = 0xD8)

/-- An addressed PageProgram. -/
def OpensProgram (ccr : Word) : Prop :=
  isRead ccr = false ∧ admode ccr ≠ 0 ∧ instruction ccr = 0x12

instance (ccr : Word) : Decidable (OpensErase ccr) := by
  unfold OpensErase
  infer_instance

instance (ccr : Word) : Decidable (OpensProgram ccr) := by
  unfold OpensProgram
  infer_instance

namespace BusLog

/-- The erase that an address completes. -/
def erases (log : BusLog) (val : Word) : Option Op :=
  match log.command with
  | some c => if OpensErase c.ccr ∧ c.start = none then some (.sectorErase val.toNat) else none
  | none => none

/-- The program that a data byte completes: the last of its DLR+1 bytes. -/
def programs (log : BusLog) (val : Word) : Option Op :=
  match log.command with
  | some c =>
      match c.start with
      | some (_, dlr) =>
          if OpensProgram c.ccr ∧ c.written.length = dlr.toNat then
            some (.pageProgram log.ar.toNat (c.written ++ [val.setWidth 8]))
          else none
      | none => none
  | none => none

/-- The NOR instruction that an access finishes. -/
def completes (log : BusLog) : Access → Option Op
  | .read _ => none
  | .write off val =>
      match regAt off with
      | .ccr => if isRead val = false ∧ instruction val = 0xC7 then some .bulkErase else none
      | .ar => log.erases val
      | .dr => log.programs val
      | _ => none

/-- The address and the offset of the next byte of the addressed read in progress. -/
def drains (log : BusLog) : Option (Word × Nat) :=
  match log.command with
  | none => none
  | some c =>
      if isRead c.ccr ∧ admode c.ccr ≠ 0 ∧ c.drained < c.dlr.toNat + 1 then
        c.start.map fun s => (s.1, c.drained)
      else none

end BusLog

/-- With the latch set an instruction executes and clears the latch; without one, or without the
latch, the array stays as it is. -/
def Effect (q q' : Qspi) : Option Op → Prop
  | some op => q'.mem = (if q.wel then op.apply sector q.mem else q.mem) ∧ q'.wel = false
  | none => q'.mem = q.mem

/-- What an access may do, after the accesses `pre`: it has the effect of the instruction it
finishes, and a DR read in an addressed read gives the array byte it asks for. -/
def Conforms (pre : List Access) (q : Qspi) (a : Access) (q' : Qspi) : Prop :=
  Effect q q' ((BusLog.ofAccesses pre).completes a) ∧
  ∀ off, a = .read off → regAt off = .dr →
    ∀ x ∈ (BusLog.ofAccesses pre).drains,
      (q.read off).1 = (q.mem.get ((x.1.toNat + x.2) % size)).setWidth 32

/-- The opcode of an addressed write is the one that its data phase stands for. -/
def Named (ccr : Word) : Prop :=
  if dmode ccr ≠ 0 then instruction ccr = 0x12
  else instruction ccr = 0xDC ∨ instruction ccr = 0xD8

instance (ccr : Word) : Decidable (Named ccr) := by
  unfold Named
  infer_instance

/-- A command word that the controller takes for an addressed erase or program. -/
def addressedWrite (ccr : Word) : Bool :=
  !isRead ccr && instruction ccr ≠ 0x06 && instruction ccr ≠ 0x04 && instruction ccr ≠ 0xC7 &&
    admode ccr ≠ 0

/-- With the latch set, an addressed write is opened by its own opcode, and a program that its last
byte executes fits. -/
def Proper (q : Qspi) : Access → Prop
  | .read _ => True
  | .write off val =>
      match regAt off with
      | .ccr => q.wel = true → addressedWrite val = true → Named val
      | .dr =>
          match q.xfer with
          | .writeData remaining => q.wel = true → remaining ≤ q.wrBuf.length + 1 →
              q.ProgramFits (q.wrBuf.length + 1)
          | _ => True
      | _ => True

instance (q : Qspi) (a : Access) : Decidable (Proper q a) := by
  unfold Proper
  cases a with
  | read off => infer_instance
  | write off val =>
      dsimp only
      split
      · infer_instance
      · split <;> infer_instance
      · infer_instance

/-! ## The invariant -/

/-- Nothing that the command opened is left to finish. -/
def Command.Finished (c : Command) : Prop :=
  (OpensErase c.ccr → c.start ≠ none) ∧
  (OpensProgram c.ccr → ∃ addr dlr, c.start = some (addr, dlr) ∧ dlr.toNat < c.written.length)

/-- The transfer in progress is what the last command has left to finish. -/
def Pending (command : Option Command) (q : Qspi) : Prop :=
  match q.xfer with
  | .writeAtAddr instr data =>
      q.wrBuf = [] ∧ ∃ c, command = some c ∧ c.start = none ∧
        ((data = false ∧ OpensErase c.ccr ∧ instr = instruction c.ccr) ∨
          (data = true ∧ OpensProgram c.ccr))
  | .writeData remaining =>
      ∃ c addr dlr, command = some c ∧ c.start = some (addr, dlr) ∧ OpensProgram c.ccr ∧
        remaining = dlr.toNat + 1 ∧ c.written = q.wrBuf ∧ q.wrBuf.length < remaining
  | .idle | .readAtAddr _ => ∀ c, command = some c → c.Finished

/-- An addressed read waits for its address, or its response is the array from there on. -/
def Answered (c : Command) (q : Qspi) : Prop :=
  isRead c.ccr = true → admode c.ccr ≠ 0 →
    match c.start with
    | none => q.xfer = .readAtAddr (c.dlr.toNat + 1)
    | some (addr, _) =>
        q.xfer = .idle ∧ q.resp = q.readMem addr (c.dlr.toNat + 1) ∧
          q.respPos = min c.drained (c.dlr.toNat + 1)

/-- The registers are those of the log, and with the latch set so is the transfer. -/
structure Tracks (log : BusLog) (q : Qspi) : Prop where
  dlr : q.dlr = log.dlr
  ar : q.ar = log.ar
  pending : q.wel = true → Pending log.command q
  answered : ∀ c, log.command = some c → Answered c q

theorem tracks_withBacking (path : Option HostPath) : Tracks BusLog.start (withBacking path) where
  dlr := rfl
  ar := rfl
  pending := fun h => absurd h (by simp [withBacking])
  answered := fun c h => absurd h (by simp [BusLog.start])

/-- An opcode names one instruction. -/
theorem not_opensErase_of_opensProgram {ccr : Word} (h : OpensProgram ccr) : ¬ OpensErase ccr := by
  rintro ⟨-, -, h'⟩
  rw [h.2.2] at h'
  revert h'
  decide

theorem not_opensErase_of_read {ccr : Word} (h : isRead ccr = true) : ¬ OpensErase ccr :=
  fun h' => absurd h (by simp [h'.1])

theorem not_opensProgram_of_read {ccr : Word} (h : isRead ccr = true) : ¬ OpensProgram ccr :=
  fun h' => absurd h (by simp [h'.1])

theorem finished_of_not_opens {c : Command} (he : ¬ OpensErase c.ccr) (hp : ¬ OpensProgram c.ccr) :
    c.Finished :=
  ⟨fun h => absurd h he, fun h => absurd h hp⟩

/-- A step that leaves the command and the transfer alone. -/
theorem Tracks.of_eq {log log' : BusLog} {q q' : Qspi} (h : Tracks log q) (hdlr : q'.dlr = log'.dlr)
    (har : q'.ar = log'.ar) (hcmd : log'.command = log.command) (hwel : q'.wel = q.wel)
    (hxfer : q'.xfer = q.xfer) (hbuf : q'.wrBuf = q.wrBuf) (hresp : q'.resp = q.resp)
    (hpos : q'.respPos = q.respPos) (hmem : q'.mem = q.mem) : Tracks log' q' where
  dlr := hdlr
  ar := har
  pending := by
    intro hw
    have := h.pending (hwel ▸ hw)
    simpa only [Pending, hxfer, hbuf, hcmd] using this
  answered := by
    intro c hc
    have := h.answered c (hcmd ▸ hc)
    simpa only [Answered, hxfer, hresp, hpos, readMem, hmem] using this

/-! ## One access -/

variable {log : BusLog} {q : Qspi}

/-- The transfer that an erase leaves behind is finished. -/
theorem doErase_effect (instr : Byte) :
    ∃ q', q.doErase instr = some q' ∧ Effect q q' (some (eraseOp instr q.ar)) ∧
      q'.dlr = q.dlr ∧ q'.ar = q.ar ∧ q'.wel = false := by
  cases hw : q.wel with
  | false =>
      refine ⟨_, doErase_of_not_wel q hw instr, ⟨?_, hw⟩, rfl, rfl, hw⟩
      simp [hw]
  | true =>
      obtain ⟨file, path, he⟩ := doErase_of_wel q hw instr
      refine ⟨_, he, ⟨?_, rfl⟩, rfl, rfl, rfl⟩
      simp [hw]

/-- The command is not an addressed read. -/
def NotReading (log : BusLog) : Prop :=
  ∀ c, log.command = some c → isRead c.ccr = true → admode c.ccr = 0

/-- Neither the latch nor a read: nothing else is promised. -/
theorem tracks_of_not_wel {log : BusLog} {q : Qspi} (hdlr : q.dlr = log.dlr) (har : q.ar = log.ar)
    (hw : q.wel = false) (hread : NotReading log) : Tracks log q where
  dlr := hdlr
  ar := har
  pending := fun h => absurd h (by simp [hw])
  answered := fun c hc hr ha => absurd (hread c hc hr) ha

/-- While a write is pending the last command is none that reads the array. -/
theorem Tracks.notReading (h : Tracks log q) (hi : q.xfer ≠ .idle)
    (hr : ∀ len, q.xfer ≠ .readAtAddr len) : NotReading log := by
  intro c hc hread
  by_contra ha
  have := h.answered c hc hread ha
  cases hs : c.start with
  | none =>
      rw [hs] at this
      exact hr _ this
  | some s =>
      rw [hs] at this
      exact hi this.1

theorem effect_of_not_wel {q' : Qspi} (hw : q.wel = false) (hmem : q'.mem = q.mem)
    (hw' : q'.wel = false) (op : Option Op) : Effect q q' op := by
  cases op with
  | none => exact hmem
  | some op => exact ⟨by simp [hw, hmem], hw'⟩

/-- With the latch set and nothing to execute, the array stays. -/
theorem effect_keep {q' : Qspi} (hmem : q'.mem = q.mem) (hw' : q'.wel = q.wel) {op : Option Op}
    (hnone : q.wel = true → op = none) : Effect q q' op := by
  by_cases hw : q.wel = true
  · rw [hnone hw]
    exact hmem
  · rw [Bool.not_eq_true] at hw
    exact effect_of_not_wel hw hmem (hw'.trans hw) op

theorem writeCcr_tracks (h : Tracks log q) {val : Word}
    (hnamed : q.wel = true → addressedWrite val = true → Named val) :
    ∃ q', q.writeCcr val = some q' ∧
      Effect q q' (if isRead val = false ∧ instruction val = 0xC7 then some .bulkErase else none) ∧
      Tracks { log with command := some (Command.opened val log.dlr) } q' := by
  cases hr : isRead val with
  | true =>
      have hfin : (Command.opened val log.dlr).Finished :=
        finished_of_not_opens (not_opensErase_of_read hr) (not_opensProgram_of_read hr)
      simp only [writeCcr, hr, if_true]
      by_cases ha : admode val = 0
      · simp only [ha, ne_eq, not_true_eq_false, if_false]
        refine ⟨_, rfl, rfl, h.dlr, h.ar, ?_, ?_⟩
        · rintro - c ⟨rfl⟩
          exact hfin
        · rintro c ⟨rfl⟩ - hne
          exact absurd ha hne
      · simp only [ha, ne_eq, not_false_eq_true, if_true]
        refine ⟨_, rfl, rfl, h.dlr, h.ar, ?_, ?_⟩
        · rintro - c ⟨rfl⟩
          exact hfin
        · rintro c ⟨rfl⟩ - -
          exact congrArg (fun d => QspiXfer.readAtAddr (d.toNat + 1)) h.dlr
  | false =>
      have hread : NotReading { log with command := some (Command.opened val log.dlr) } := by
        rintro c ⟨rfl⟩ hr'
        exact absurd hr' (by simp [Command.opened, hr])
      have hfin : ∀ c, some (Command.opened val log.dlr) = some c → ¬ OpensErase val →
          ¬ OpensProgram val → c.Finished := by
        rintro c ⟨rfl⟩ he hp
        exact finished_of_not_opens he hp
      simp only [writeCcr, hr, Bool.false_eq_true, if_false, true_and]
      by_cases h6 : instruction val = 0x06
      -- write enable
      · rw [if_pos h6, if_neg (by rw [h6]; decide)]
        refine ⟨_, rfl, rfl, h.dlr, h.ar, fun _ c hc => hfin c hc ?_ ?_, fun c hc hc' ha' => ?_⟩
        · rintro ⟨-, -, he⟩
          simp [h6] at he
        · rintro ⟨-, -, hp⟩
          simp [h6] at hp
        · exact absurd (hread c hc hc') ha'
      rw [if_neg h6]
      by_cases h4 : instruction val = 0x04
      -- write disable
      · rw [if_pos h4, if_neg (by rw [h4]; decide)]
        exact ⟨_, rfl, rfl, tracks_of_not_wel h.dlr h.ar rfl hread⟩
      rw [if_neg h4]
      by_cases hc7 : instruction val = 0xC7
      · rw [if_pos hc7, if_pos hc7]
        obtain ⟨q', hq', heff, hdlr, har, hwel⟩ := doErase_effect
          (q := { q with modeRead := false, wrBuf := [], xfer := .idle }) (instruction val)
        rw [eraseOp, if_pos hc7] at heff
        exact ⟨q', hq', heff, tracks_of_not_wel (hdlr.trans h.dlr) (har.trans h.ar) hwel hread⟩
      rw [if_neg hc7, if_neg hc7]
      by_cases ha : admode val = 0
      · rw [if_neg (fun hne => hne ha)]
        refine ⟨_, rfl, rfl, h.dlr, h.ar, fun _ c hc => hfin c hc ?_ ?_, fun c hc hc' ha' => ?_⟩
        · exact fun he => he.2.1 ha
        · exact fun hp => hp.2.1 ha
        · exact absurd (hread c hc hc') ha'
      -- an addressed write: with the latch set its opcode is the one it stands for
      · rw [if_pos ha]
        refine ⟨_, rfl, rfl, h.dlr, h.ar, fun hw => ⟨rfl, _, rfl, rfl, ?_⟩, fun c hc hc' ha' => ?_⟩
        · have haddr : addressedWrite val = true := by
            simpa [addressedWrite, hr] using ⟨⟨⟨h6, h4⟩, hc7⟩, ha⟩
          have hn := hnamed hw haddr
          unfold Named at hn
          by_cases hd : dmode val = 0
          · rw [if_neg (fun hne => hne hd)] at hn
            exact Or.inl ⟨by simp [hd], ⟨hr, ha, hn⟩, rfl⟩
          · rw [if_pos hd] at hn
            exact Or.inr ⟨by simpa using hd, hr, ha, hn⟩
        · exact absurd (hread c hc hc') ha'

theorem Command.Finished.withAddress {c : Command} (h : c.Finished) (addr dlr : Word) :
    (BusLog.withAddress c addr dlr).Finished := by
  unfold BusLog.withAddress
  split_ifs with hs
  -- no address yet: the command opened neither
  · refine finished_of_not_opens (fun he => h.1 he hs) fun hp => ?_
    obtain ⟨addr', dlr', hs', -⟩ := h.2 hp
    rw [hs] at hs'
    cases hs'
  · exact h

theorem erases_of_finished (h : ∀ c, log.command = some c → c.Finished) (val : Word) :
    log.erases val = none := by
  unfold BusLog.erases
  cases hc : log.command with
  | none => rfl
  | some c => exact if_neg fun he => (h c hc).1 he.1 he.2

theorem programs_of_finished (h : ∀ c, log.command = some c → c.Finished) (val : Word) :
    log.programs val = none := by
  unfold BusLog.programs
  cases hc : log.command with
  | none => rfl
  | some c =>
      cases hs : c.start with
      | none => simp only [hs]
      | some s =>
          simp only [hs]
          refine if_neg fun hp => ?_
          obtain ⟨addr, dlr, hs', hlt⟩ := (h c hc).2 hp.1
          rw [hs] at hs'
          obtain rfl := Option.some.inj hs'
          exact absurd hp.2 (Nat.ne_of_gt hlt)

/-- The log after an AR write. -/
def BusLog.addressed (log : BusLog) (val : Word) : BusLog :=
  { log with ar := val, command := log.command.map (withAddress · val log.dlr) }

theorem BusLog.notReading_addressed (hn : NotReading log) (val : Word) :
    NotReading (log.addressed val) := by
  intro c hc hr
  obtain ⟨c₀, hc₀, rfl⟩ := Option.map_eq_some_iff.mp hc
  have hccr : (withAddress c₀ val log.dlr).ccr = c₀.ccr := by
    unfold withAddress
    split_ifs <;> rfl
  rw [hccr] at hr ⊢
  exact hn c₀ hc₀ hr

/-- A second address belongs to no command. -/
theorem BusLog.withAddress_of_start {c : Command} {s : Word × Word} (hs : c.start = some s)
    (addr dlr : Word) : withAddress c addr dlr = c :=
  if_neg (by simp [hs])

/-- The erase of an address: with the latch it is the one that the pending transfer stands for. -/
theorem writeAr_erase (h : Tracks log q) {val : Word} {instr : Byte}
    (hx : q.xfer = .writeAtAddr instr false) :
    ∃ q', q.writeAr val = some q' ∧ Effect q q' (log.erases val) ∧
      Tracks (log.addressed val) q' := by
  have hn : NotReading log := h.notReading (by simp [hx]) (by simp [hx])
  obtain ⟨q', hq', heff, hdlr, har, hw'⟩ :=
    doErase_effect (q := { q with ar := val, xfer := .idle }) instr
  refine ⟨q', by simpa only [writeAr, hx, Bool.false_eq_true, if_false] using hq', ?_,
    tracks_of_not_wel (hdlr.trans h.dlr) har hw' (BusLog.notReading_addressed hn val)⟩
  cases hw : q.wel with
  | false =>
      have hmem : q'.mem = q.mem := by simpa [hw] using heff.1
      exact effect_of_not_wel hw hmem hw' _
  | true =>
      have hpend := h.pending hw
      simp only [Pending, hx] at hpend
      obtain ⟨-, c, hc, hs, ⟨-, he, hi⟩ | ⟨hd, -⟩⟩ := hpend
      · have hne : instr ≠ 0xC7 := by
          rw [hi]
          rcases he.2.2 with h' | h' <;> simp [h']
        rw [eraseOp, if_neg hne] at heff
        simp only [BusLog.erases, hc, if_pos (And.intro he hs)]
        exact heff
      · cases hd

/-- A command with neither an erase nor a program left keeps both through an address. -/
theorem pending_addressed (hfin : ∀ c, log.command = some c → c.Finished) {q' : Qspi} {val : Word}
    (hx : q'.xfer = .idle) : Pending (log.addressed val).command q' := by
  simp only [Pending, hx]
  intro c hc
  obtain ⟨c₀, hc₀, rfl⟩ := Option.map_eq_some_iff.mp hc
  exact (hfin c₀ hc₀).withAddress val log.dlr

theorem writeAr_tracks (h : Tracks log q) (val : Word) :
    ∃ q', q.writeAr val = some q' ∧ Effect q q' (log.erases val) ∧
      Tracks (log.addressed val) q' := by
  cases hx : q.xfer with
  | idle =>
      have hfin : q.wel = true → ∀ c, log.command = some c → c.Finished := by
        intro hw
        simpa only [Pending, hx] using h.pending hw
      refine ⟨{ q with ar := val }, by simp only [writeAr, hx], effect_keep rfl rfl
        fun hw => erases_of_finished (hfin hw) val, h.dlr, rfl,
        fun hw => pending_addressed (hfin hw) hx, ?_⟩
      intro c hc hr ha
      obtain ⟨c₀, hc₀, rfl⟩ := Option.map_eq_some_iff.mp hc
      cases hs : c₀.start with
      | none =>
          simp only [BusLog.withAddress, if_pos hs] at hr ha
          have hans := h.answered c₀ hc₀ hr ha
          rw [hs, hx] at hans
          cases hans
      | some s =>
          rw [BusLog.withAddress_of_start hs] at hr ha ⊢
          exact h.answered c₀ hc₀ hr ha
  | readAtAddr len =>
      have hfin : q.wel = true → ∀ c, log.command = some c → c.Finished := by
        intro hw
        simpa only [Pending, hx] using h.pending hw
      have hstep : q.writeAr val = some
          { q with ar := val, resp := q.readMem val len, respPos := 0, xfer := .idle } := by
        simp only [writeAr, hx]
        rfl
      refine ⟨_, hstep, effect_keep rfl rfl
        fun hw => erases_of_finished (hfin hw) val, h.dlr, rfl,
        fun hw => pending_addressed (hfin hw) rfl, ?_⟩
      intro c hc hr ha
      obtain ⟨c₀, hc₀, rfl⟩ := Option.map_eq_some_iff.mp hc
      cases hs : c₀.start with
      -- the address of the read: the response is the array from there on
      | none =>
          rw [BusLog.withAddress, if_pos hs] at hr ha ⊢
          have hans := h.answered c₀ hc₀ hr ha
          rw [hs, hx] at hans
          cases hans
          exact ⟨rfl, rfl, (Nat.zero_min _).symm⟩
      | some s =>
          rw [BusLog.withAddress_of_start hs] at hr ha
          have hans := h.answered c₀ hc₀ hr ha
          rw [hs] at hans
          exact absurd hans.1 (by simp [hx])
  | writeAtAddr instr data =>
      cases data with
      | false => exact writeAr_erase h hx
      | true =>
          have hn : NotReading log := h.notReading (by simp [hx]) (by simp [hx])
          have hstep : q.writeAr val =
              some { q with ar := val, xfer := .writeData (q.dlr.toNat + 1) } := by
            simp only [writeAr, hx, if_true]
          refine ⟨_, hstep, effect_keep rfl rfl fun hw => ?_,
            h.dlr, rfl, fun hw => ?_, fun c hc hr ha =>
              absurd (BusLog.notReading_addressed hn val c hc hr) ha⟩
          · have hpend := h.pending hw
            simp only [Pending, hx] at hpend
            obtain ⟨-, c, hc, -, ⟨hd, -⟩ | ⟨-, hp⟩⟩ := hpend
            · cases hd
            · simp only [BusLog.erases, hc]
              exact if_neg fun he => not_opensErase_of_opensProgram hp he.1
          · have hpend := h.pending hw
            simp only [Pending, hx] at hpend
            obtain ⟨hbuf, c, hc, hs, ⟨hd, -⟩ | ⟨-, hp⟩⟩ := hpend
            · cases hd
            -- the data phase starts with an empty buffer and the DLR of now
            · refine ⟨{ c with start := some (val, log.dlr), written := [], drained := 0 }, val,
                log.dlr, ?_, rfl, hp, by rw [h.dlr], hbuf.symm, by rw [hbuf]; exact Nat.succ_pos _⟩
              simp only [BusLog.addressed, hc, Option.map_some, BusLog.withAddress, if_pos hs]
  | writeData remaining =>
      have hn : NotReading log := h.notReading (by simp [hx]) (by simp [hx])
      refine ⟨{ q with ar := val }, by simp only [writeAr, hx], effect_keep rfl rfl fun hw => ?_,
        h.dlr, rfl, fun hw => ?_, fun c hc hr ha =>
          absurd (BusLog.notReading_addressed hn val c hc hr) ha⟩
      · have hpend := h.pending hw
        simp only [Pending, hx] at hpend
        obtain ⟨c, addr, dlr, hc, hs, -⟩ := hpend
        simp only [BusLog.erases, hc]
        exact if_neg fun he => by simp [hs] at he
      · have hpend := h.pending hw
        simp only [Pending, hx] at hpend ⊢
        obtain ⟨c, addr, dlr, hc, hs, hrest⟩ := hpend
        refine ⟨c, addr, dlr, ?_, hs, hrest⟩
        simp only [BusLog.addressed, hc, Option.map_some, BusLog.withAddress_of_start hs]

/-- The log after a DR write. -/
def BusLog.supplied (log : BusLog) (val : Word) : BusLog :=
  { log with command := log.command.map (·.supply (val.setWidth 8)) }

theorem Command.Finished.supply {c : Command} (h : c.Finished) (b : Byte) :
    (c.supply b).Finished := by
  refine ⟨h.1, fun hp => ?_⟩
  obtain ⟨addr, dlr, hs, hlt⟩ := h.2 hp
  exact ⟨addr, dlr, hs, by rw [Command.supply, List.length_append]; omega⟩

/-- A DR write outside the data phase changes nothing. -/
theorem supplied_tracks (h : Tracks log q) (val : Word) (hx : ∀ n, q.xfer ≠ .writeData n) :
    Tracks (log.supplied val) q := by
  refine ⟨h.dlr, h.ar, fun hw => ?_, fun c hc => ?_⟩
  · have hpend := h.pending hw
    unfold Pending at hpend ⊢
    split at hpend
    · obtain ⟨hbuf, c, hc, hs, hrest⟩ := hpend
      exact ⟨hbuf, c.supply (val.setWidth 8), by simp only [BusLog.supplied, hc, Option.map_some],
        hs, hrest⟩
    · next n hn => exact absurd hn (hx n)
    all_goals
      intro c hc
      obtain ⟨c₀, hc₀, rfl⟩ := Option.map_eq_some_iff.mp hc
      exact (hpend c₀ hc₀).supply _
  · obtain ⟨c₀, hc₀, rfl⟩ := Option.map_eq_some_iff.mp hc
    exact h.answered c₀ hc₀

theorem notReading_supplied (hn : NotReading log) (val : Word) : NotReading (log.supplied val) := by
  intro c hc hr
  obtain ⟨c₀, hc₀, rfl⟩ := Option.map_eq_some_iff.mp hc
  exact hn c₀ hc₀ hr

/-- A data byte that is not the last one is only collected. -/
theorem writeDr_collect (h : Tracks log q) {val : Word} {remaining : Nat}
    (hx : q.xfer = .writeData remaining) (hlt : q.wrBuf.length + 1 < remaining) :
    ∃ q', q.writeDr val = some q' ∧ Effect q q' (log.programs val) ∧
      Tracks (log.supplied val) q' := by
  have hn : NotReading log := h.notReading (by simp [hx]) (by simp [hx])
  have hstep : q.writeDr val = some { q with wrBuf := q.wrBuf ++ [val.setWidth 8] } := by
    simp only [writeDr, hx, List.length_append, List.length_singleton, if_neg (Nat.not_le.mpr hlt)]
  refine ⟨_, hstep, ?_, h.dlr, h.ar, fun hw => ?_, fun c hc hr ha =>
    absurd (notReading_supplied hn val c hc hr) ha⟩
  · refine effect_keep rfl rfl fun hw => ?_
    have hpend := h.pending hw
    simp only [Pending, hx] at hpend
    obtain ⟨c, addr, dlr, hc, hs, -, hrem, hbuf, -⟩ := hpend
    simp only [BusLog.programs, hc, hs]
    refine if_neg fun hlen => ?_
    rw [hbuf] at hlen
    omega
  · have hpend := h.pending hw
    simp only [Pending, hx] at hpend ⊢
    obtain ⟨c, addr, dlr, hc, hs, hp, hrem, hbuf, -⟩ := hpend
    refine ⟨c.supply (val.setWidth 8), addr, dlr, ?_, hs, hp, hrem, ?_, ?_⟩
    · simp only [BusLog.supplied, hc, Option.map_some]
    · rw [Command.supply, hbuf]
    · rwa [List.length_append]

/-- The last data byte executes the program. -/
theorem writeDr_program (h : Tracks log q) {val : Word} {remaining : Nat}
    (hx : q.xfer = .writeData remaining) (hle : remaining ≤ q.wrBuf.length + 1)
    (hfits : q.wel = true → q.ProgramFits (q.wrBuf.length + 1)) :
    ∃ q', q.writeDr val = some q' ∧ Effect q q' (log.programs val) ∧
      Tracks (log.supplied val) q' := by
  have hn : NotReading (log.supplied val) :=
    notReading_supplied (h.notReading (by simp [hx]) (by simp [hx])) val
  have hstep : q.writeDr val =
      { q with wrBuf := q.wrBuf ++ [val.setWidth 8], xfer := .idle }.doProgram := by
    simp only [writeDr, hx, List.length_append, List.length_singleton, if_pos hle]
  rw [hstep]
  by_cases hw : q.wel = true
  · have hpend := h.pending hw
    simp only [Pending, hx] at hpend
    obtain ⟨c, addr, dlr, hc, hs, hp, hrem, hbuf, hlt⟩ := hpend
    have hfits' : ProgramFits { q with wrBuf := q.wrBuf ++ [val.setWidth 8], xfer := .idle }
        (q.wrBuf ++ [val.setWidth 8]).length := by
      rw [List.length_append]
      exact hfits hw
    obtain ⟨file, path, hprog⟩ := doProgram_of_wel
      { q with wrBuf := q.wrBuf ++ [val.setWidth 8], xfer := .idle } hw hfits'
    refine ⟨_, hprog, ?_, tracks_of_not_wel h.dlr h.ar rfl hn⟩
    have hlast : c.written.length = dlr.toNat := by
      rw [hbuf]
      omega
    simp only [BusLog.programs, hc, hs]
    rw [if_pos ⟨hp, hlast⟩, hbuf, ← h.ar]
    exact ⟨(if_pos hw).symm, rfl⟩
  · rw [Bool.not_eq_true] at hw
    exact ⟨_, doProgram_of_not_wel _ hw, effect_of_not_wel hw rfl hw _,
      tracks_of_not_wel h.dlr h.ar hw hn⟩

theorem writeDr_tracks (h : Tracks log q) {val : Word}
    (hfits : ∀ remaining, q.xfer = .writeData remaining → q.wel = true →
      remaining ≤ q.wrBuf.length + 1 → q.ProgramFits (q.wrBuf.length + 1)) :
    ∃ q', q.writeDr val = some q' ∧ Effect q q' (log.programs val) ∧
      Tracks (log.supplied val) q' := by
  -- outside the data phase a data byte is dropped
  have hdrop : (∀ n, q.xfer ≠ .writeData n) → q.writeDr val = some q →
      (q.wel = true → log.programs val = none) → ∃ q', q.writeDr val = some q' ∧
        Effect q q' (log.programs val) ∧ Tracks (log.supplied val) q' :=
    fun hx hstep hnone => ⟨q, hstep, effect_keep rfl rfl hnone, supplied_tracks h val hx⟩
  cases hx : q.xfer with
  | idle =>
      refine hdrop (by simp [hx]) (by simp only [writeDr, hx]) fun hw => programs_of_finished ?_ val
      simpa only [Pending, hx] using h.pending hw
  | readAtAddr len =>
      refine hdrop (by simp [hx]) (by simp only [writeDr, hx]) fun hw => programs_of_finished ?_ val
      simpa only [Pending, hx] using h.pending hw
  | writeAtAddr instr data =>
      refine hdrop (by simp [hx]) (by simp only [writeDr, hx]) fun hw => ?_
      have hpend := h.pending hw
      simp only [Pending, hx] at hpend
      obtain ⟨-, c, hc, hs, -⟩ := hpend
      simp only [BusLog.programs, hc, hs]
  | writeData remaining =>
      by_cases hle : remaining ≤ q.wrBuf.length + 1
      · exact writeDr_program h hx hle fun hw => hfits remaining hx hw hle
      · exact writeDr_collect h hx (by omega)

/-- The log after a DR read. -/
def BusLog.drained (log : BusLog) : BusLog :=
  { log with command := log.command.map Command.drain }

/-- Reading registers leaves the latch, the transfer and the array alone. -/
theorem read_frame (q : Qspi) (off : Word) :
    ∃ pos tcf, (q.read off).2 = { q with respPos := pos, tcf := tcf } ∧
      (regAt off ≠ .dr → pos = q.respPos) := by
  unfold read
  split
  case h_3 =>
    dsimp only
    split_ifs
    · exact ⟨q.respPos, true, rfl, fun _ => rfl⟩
    · exact ⟨q.respPos, q.tcf, rfl, fun _ => rfl⟩
  case h_6 hdr =>
    unfold readDr
    split
    · exact ⟨q.respPos + 1, q.tcf, rfl, fun hne => absurd hdr hne⟩
    · exact ⟨q.respPos, q.tcf, rfl, fun _ => rfl⟩
  all_goals exact ⟨q.respPos, q.tcf, rfl, fun _ => rfl⟩

theorem length_readMem (addr : Word) (len : Nat) : (q.readMem addr len).length = len := by
  simp [readMem]

theorem read_dr (q : Qspi) {off : Word} (hdr : regAt off = .dr) : q.read off = q.readDr := by
  simp only [read, hdr]

/-- In an addressed read a DR read gives the array byte at its offset. -/
theorem read_dr_value (h : Tracks log q) {off : Word} (hdr : regAt off = .dr) {x : Word × Nat}
    (hx : x ∈ log.drains) :
    (q.read off).1 = (q.mem.get ((x.1.toNat + x.2) % size)).setWidth 32 := by
  unfold BusLog.drains at hx
  cases hc : log.command with
  | none => simp [hc] at hx
  | some c =>
      simp only [hc] at hx
      split_ifs at hx with hread
      · obtain ⟨hr, ha, hlt⟩ := hread
        obtain ⟨s, hs, rfl⟩ := Option.map_eq_some_iff.mp hx
        have hans := h.answered c hc hr ha
        rw [hs] at hans
        obtain ⟨-, hresp, hpos⟩ := hans
        have hdrained : q.respPos = c.drained := by omega
        have hget : q.resp[q.respPos]? = some (q.mem.get (wrap (s.1.toNat + c.drained))) := by
          rw [hresp, hdrained, readMem, List.getElem?_map, List.getElem?_range hlt]
          rfl
        rw [read_dr q hdr, readDr, hget, wrap_eq_mod]
      · cases hx

theorem read_dr_tracks (h : Tracks log q) {off : Word} (hdr : regAt off = .dr) :
    Tracks log.drained (q.read off).2 := by
  obtain ⟨pos, tcf, hq', -⟩ := q.read_frame off
  have hpos : ∀ len, q.resp.length = len → ∀ n, q.respPos = min n len →
      (q.read off).2.respPos = min (n + 1) len := by
    intro len hlen n hn
    rw [read_dr q hdr, readDr]
    cases hg : q.resp[q.respPos]? with
    | none =>
        have := List.getElem?_eq_none_iff.mp hg
        show q.respPos = _
        omega
    | some b =>
        have := (List.getElem?_eq_some_iff.mp hg).1
        show q.respPos + 1 = _
        omega
  rw [hq'] at hpos ⊢
  refine ⟨h.dlr, h.ar, fun hw => ?_, fun c hc hr ha => ?_⟩
  -- what is left to finish does not depend on what was drained
  · have hpend := h.pending hw
    have hcmd : ∀ c, log.command = some c → log.drained.command = some c.drain := by
      intro c hc
      simp only [BusLog.drained, hc, Option.map_some]
    have hfin : (∀ c, log.command = some c → c.Finished) →
        ∀ c, log.drained.command = some c → c.Finished := by
      intro hall c hc
      obtain ⟨c₀, hc₀, rfl⟩ := Option.map_eq_some_iff.mp hc
      exact hall c₀ hc₀
    cases hx : q.xfer with
    | idle =>
        simp only [Pending, hx] at hpend ⊢
        exact hfin hpend
    | readAtAddr len =>
        simp only [Pending, hx] at hpend ⊢
        exact hfin hpend
    | writeAtAddr instr data =>
        simp only [Pending, hx] at hpend ⊢
        obtain ⟨hbuf, c, hc, hrest⟩ := hpend
        exact ⟨hbuf, c.drain, hcmd c hc, hrest⟩
    | writeData remaining =>
        simp only [Pending, hx] at hpend ⊢
        obtain ⟨c, addr, dlr, hc, hrest⟩ := hpend
        exact ⟨c.drain, addr, dlr, hcmd c hc, hrest⟩
  · obtain ⟨c₀, hc₀, rfl⟩ := Option.map_eq_some_iff.mp hc
    have hans := h.answered c₀ hc₀ hr ha
    cases hs : c₀.start with
    | none =>
        rw [hs] at hans
        simpa only [Command.drain, hs] using hans
    | some s =>
        rw [hs] at hans
        obtain ⟨hidle, hresp, hp⟩ := hans
        have hlen : q.resp.length = c₀.dlr.toNat + 1 := by
          rw [hresp, length_readMem]
        simp only [Command.drain, hs]
        exact ⟨hidle, hresp, hpos _ hlen _ hp⟩

/-! ## Every access, and every run -/

/-- One access keeps the invariant, and does what the log says it may. -/
theorem step_conforms (pre : List Access) (q : Qspi) (a : Access)
    (h : Tracks (BusLog.ofAccesses pre) q) (hprop : Proper q a) :
    ∃ q', step q a = some q' ∧ Conforms pre q a q' ∧
      Tracks (BusLog.ofAccesses (pre ++ [a])) q' := by
  unfold Conforms
  rw [BusLog.ofAccesses_append]
  generalize BusLog.ofAccesses pre = log at h ⊢
  cases a with
  | read off =>
      refine ⟨_, rfl, ⟨?_, ?_⟩, ?_⟩
      · obtain ⟨pos, tcf, hq', -⟩ := q.read_frame off
        show (q.read off).2.mem = q.mem
        rw [hq']
      · rintro off' ⟨rfl⟩ hdr x hx
        exact read_dr_value h hdr hx
      · by_cases hdr : regAt off = .dr
        · simp only [BusLog.record, if_pos hdr]
          exact read_dr_tracks h hdr
        · simp only [BusLog.record, if_neg hdr]
          obtain ⟨pos, tcf, hq', hpos⟩ := q.read_frame off
          rw [hq', hpos hdr]
          exact h.of_eq h.dlr h.ar rfl rfl rfl rfl rfl rfl rfl
  | write off val =>
      have hread : ∀ off', Access.write off val = .read off' → regAt off' = .dr →
          ∀ x ∈ log.drains,
            (q.read off').1 = (q.mem.get ((x.1.toNat + x.2) % size)).setWidth 32 :=
        fun off' hoff => by cases hoff
      have key : ∃ q', q.write off val = some q' ∧
          Effect q q' (log.completes (.write off val)) ∧
            Tracks (log.record (.write off val)) q' := by
        simp only [write, BusLog.completes, BusLog.record, Proper] at hprop ⊢
        cases hreg : regAt off with
        | ccr =>
            simp only [hreg] at hprop ⊢
            exact writeCcr_tracks h hprop
        | ar => exact writeAr_tracks h val
        | dr =>
            simp only [hreg] at hprop ⊢
            refine writeDr_tracks h fun remaining hx => ?_
            simpa only [hx] using hprop
        | dlr => exact ⟨_, rfl, rfl, h.of_eq rfl h.ar rfl rfl rfl rfl rfl rfl rfl⟩
        | cr => exact ⟨_, rfl, rfl, h.of_eq h.dlr h.ar rfl rfl rfl rfl rfl rfl rfl⟩
        | dcr => exact ⟨_, rfl, rfl, h.of_eq h.dlr h.ar rfl rfl rfl rfl rfl rfl rfl⟩
        | fcr =>
            dsimp only
            by_cases hb : val &&& (1 <<< 1) = 0
            · rw [if_neg (not_not.mpr hb)]
              exact ⟨q, rfl, rfl, h⟩
            · rw [if_pos hb]
              exact ⟨_, rfl, rfl, h.of_eq h.dlr h.ar rfl rfl rfl rfl rfl rfl rfl⟩
        | sr => exact ⟨_, rfl, rfl, h⟩
        | other => exact ⟨_, rfl, rfl, h⟩
      obtain ⟨q', hstep, heff, htr⟩ := key
      exact ⟨q', hstep, ⟨heff, hread⟩, htr⟩

/-- Every run whose addressed writes are opened by their own opcode changes the array through the
NOR instructions only. -/
theorem traced_conforms (path : Option HostPath) (accs : List Access)
    (h : Along step Proper accs (withBacking path)) :
    Traced step Conforms [] accs (withBacking path) :=
  traced_of_along (I := fun pre q => Tracks (BusLog.ofAccesses pre) q) step_conforms []
    (tracks_withBacking path) h

/-- A CCR write of an instruction in indirect mode, with or without an address and a data phase. -/
def ccrOf (instr : Byte) (read addr data : Bool) : Word :=
  instr.setWidth 32 ||| (if addr then 1 <<< 10 else 0) ||| (if data then 1 <<< 24 else 0) |||
    (if read then 1 <<< 26 else 0)

/-- Write enable, sector erase, write enable, a two-byte program that wraps, and its read-back. -/
def updateRun : List Access :=
  [.write 0x14 (ccrOf 0x06 false false false),
    .write 0x14 (ccrOf 0xDC false true false), .write 0x18 7,
    .write 0x14 (ccrOf 0x06 false false false),
    .write 0x10 1, .write 0x14 (ccrOf 0x12 false true true), .write 0x18 0x01FFFFFF,
    .write 0x20 0x5A, .write 0x20 0xA5,
    .write 0x14 (ccrOf 0x13 true true true), .write 0x18 0x01FFFFFF, .read 0x20, .read 0x20]

theorem traced_conforms_update : Traced step Conforms [] updateRun (withBacking none) :=
  traced_conforms none updateRun (by decide +kernel)

/-- A page program by another opcode (0x02, with a 3-byte address on the real part) is executed as
one: the decoder looks at the data phase only. -/
def otherOpcode : List Access :=
  [.write 0x14 (ccrOf 0x06 false false false), .write 0x14 (ccrOf 0x02 false true true),
    .write 0x18 0, .write 0x20 0]

theorem not_traced_conforms :
    ¬ ∀ (path : Option HostPath) (accs : List Access),
      Traced step Conforms [] accs (withBacking path) := by
  intro h
  obtain ⟨q₁, h₁, -, q₂, h₂, -, q₃, h₃, -, q₄, h₄, ⟨heff, -⟩, -⟩ := h none otherOpcode
  -- the log names no instruction, and byte 0 goes from 0xFF to 0
  have hmem : q₄.mem = q₃.mem := heff
  have hbefore : (run step (otherOpcode.take 3) (withBacking none)).map (·.mem.get 0) =
      some 0xFF := by decide +kernel
  have hafter : (run step otherOpcode (withBacking none)).map (·.mem.get 0) = some 0 := by
    decide +kernel
  simp only [otherOpcode, List.take, run_cons, run_nil, h₁, h₂, h₃, h₄, Option.bind_some,
    Option.map_some] at hbefore hafter
  rw [hmem, Option.some.inj hbefore] at hafter
  revert hafter
  decide

end Qspi

end SpEmu
