import SpEmu.Debug.Glasgow
import SpEmu.Lib.Runs

/-!
# The Glasgow server and the cuts of its stream

TCP hands the stream of a client over in pieces of any size. The demultiplexer cuts frames out of
it, which a zero ends, and both endpoints cut commands out of theirs, which begin with their
length. With these as `Cutter`s, that the cuts of the stream make no difference is
`Cutter.cut_append` for the packets (`mux_codec`) and `Cutter.feed_feed` for the commands
(`deliveries_join`).
-/

set_option autoImplicit false

namespace SpEmu

open ByteMem Runs

namespace Glasgow

/-! ## Packets -/

theorem packet_cobsEncode (p : Packet) : packet (cobsEncode (p.1 :: p.2)) = some p := by
  have hne : cobsEncode (p.1 :: p.2) ≠ [] := by
    intro h
    have hdec := cobsDecode_cobsEncode (p.1 :: p.2)
    rw [h, cobsDecode] at hdec
    cases hdec
  rw [packet, if_neg hne, cobsDecode_cobsEncode]

namespace Demux

/-- The bytes that packets bring to a target. -/
def dataFor (tgt : Byte) (ps : List Packet) : List Byte :=
  (ps.filter (·.1 = tgt)).flatMap Prod.snd

theorem foldl_dispatch (d : Demux) (ps : List Packet) :
    ps.foldl dispatch d =
      { d with
        rootIn := d.rootIn ++ dataFor tgtRoot ps
        swdIn := d.swdIn ++ dataFor tgtSwd ps
        packets := d.packets ++ ps } := by
  induction ps generalizing d with
  | nil => simp [dataFor]
  | cons p ps ih =>
      rw [List.foldl_cons, ih, dispatch]
      by_cases hroot : p.1 = tgtRoot
      · simp [dataFor, hroot, show tgtRoot ≠ tgtSwd by decide]
      · by_cases hswd : p.1 = tgtSwd
        · simp [dataFor, hswd, show tgtSwd ≠ tgtRoot by decide]
        · simp [dataFor, hroot, hswd]

/-- Two reads are one. -/
theorem receive_receive (d : Demux) (a b : List Byte) :
    (d.receive a).receive b = d.receive (a ++ b) := by
  simp only [receive, foldl_dispatch, ← List.append_assoc d.raw, Cutter.cut_append (d.raw ++ a)]
  simp [dataFor]

theorem receive_nil {d : Demux} (h : d.raw = []) : d.receive [] = d := by
  rw [receive, h, Cutter.cut_of_none rfl]
  cases d
  cases h
  rfl

theorem foldl_receive {d : Demux} (h : d.raw = []) (reads : List (List Byte)) :
    reads.foldl receive d = d.receive reads.flatten := by
  have hjoin : ∀ (reads : List (List Byte)) (a : List Byte),
      reads.foldl receive (d.receive a) = d.receive (a ++ reads.flatten) := by
    intro reads
    induction reads with
    | nil => exact fun a => congrArg d.receive (List.append_nil a).symm
    | cons b reads ih =>
        intro a
        rw [List.foldl_cons, receive_receive, ih, List.flatten_cons, List.append_assoc]
  have h₀ := hjoin reads []
  rwa [receive_nil h, List.nil_append] at h₀

/-- The frames of packets, delivered at once. -/
theorem receive_frames (ps : List Packet) :
    empty.receive (ps.flatMap fun p => cobsFrame p.1 p.2) =
      ⟨[], dataFor tgtRoot ps, dataFor tgtSwd ps, ps⟩ := by
  have hframes : (ps.flatMap fun p => cobsFrame p.1 p.2) =
      (ps.map fun p => cobsEncode (p.1 :: p.2)).flatMap (· ++ [0]) := by
    rw [List.flatMap_map]
    rfl
  have hzero : ∀ x ∈ ps.map (fun p => cobsEncode (p.1 :: p.2)), (0 : Byte) ∉ x := by
    intro x hx
    obtain ⟨p, -, rfl⟩ := List.mem_map.mp hx
    exact zero_not_mem_cobsEncode _
  have hcut := Cutter.cut_delimited hzero
  have hpackets : (ps.map fun p => cobsEncode (p.1 :: p.2)).filterMap packet = ps := by
    rw [List.filterMap_map]
    exact (List.filterMap_congr fun p _ => packet_cobsEncode p).trans List.filterMap_some
  rw [hframes, receive, empty, List.nil_append, hcut]
  simp only [hpackets, foldl_dispatch, List.nil_append]

end Demux

/-- The codec loses nothing and keeps zeros out of its frames, and the demultiplexer finds the
packets of a stream in its reads, however TCP cut it. -/
theorem mux_codec :
    (∀ data : List Byte, 0 ∉ cobsEncode data ∧ cobsDecode (cobsEncode data) = some data) ∧
      ∀ (ps : List Packet) (reads : List (List Byte)),
        reads.flatten = (ps.flatMap fun p => cobsFrame p.1 p.2) →
          reads.foldl Demux.receive Demux.empty =
            ⟨[], Demux.dataFor tgtRoot ps, Demux.dataFor tgtSwd ps, ps⟩ := by
  refine ⟨fun data => ⟨zero_not_mem_cobsEncode data, cobsDecode_cobsEncode data⟩, ?_⟩
  intro ps reads hreads
  rw [Demux.foldl_receive rfl, hreads, Demux.receive_frames]

/-- Two packets, cut inside the first frame and in front of the last delimiter. -/
theorem mux_codec_two :
    0 ∉ cobsEncode [0, 7, 0] ∧
      [[3], [1, 7], [1, 0, 1, 1], [0]].foldl Demux.receive Demux.empty =
        ⟨[], [], [7, 0], [(1, [7, 0]), (0, [])]⟩ :=
  ⟨(mux_codec.1 [0, 7, 0]).1,
    mux_codec.2 [(1, [7, 0]), (0, [])] [[3], [1, 7], [1, 0, 1, 1], [0]] (by decide)⟩

/-! ## Commands -/

/-- The length of a Root command. -/
def rootLength (cmd : Byte) : Nat := if cmd = cmdSetDivisor then 3 else 1

/-- The length of an Swd command: a sequence and a write carry a word. -/
def swdLength (cmd : Byte) : Nat := if isSequence cmd then 5 else if rnw cmd then 1 else 5

theorem rootLength_pos (cmd : Byte) : 0 < rootLength cmd := by
  rw [rootLength]
  split <;> decide

theorem swdLength_pos (cmd : Byte) : 0 < swdLength cmd := by
  rw [swdLength]
  split_ifs <;> decide

def rootCommands : Cutter Byte (List Byte) := Cutter.prefixed rootLength rootLength_pos

def swdCommands : Cutter Byte (List Byte) := Cutter.prefixed swdLength swdLength_pos

/-- The Root stream is its commands and the beginning of one more. -/
theorem rootCommands_cut (stream : List Byte) :
    stream = (rootCommands.cut stream).1.flatten ++ (rootCommands.cut stream).2 ∧
      (∀ x ∈ (rootCommands.cut stream).1, Cutter.Complete rootLength x) ∧
      Cutter.Incomplete rootLength (rootCommands.cut stream).2 :=
  Cutter.cut_prefixed stream

theorem swdCommands_cut (stream : List Byte) :
    stream = (swdCommands.cut stream).1.flatten ++ (swdCommands.cut stream).2 ∧
      (∀ x ∈ (swdCommands.cut stream).1, Cutter.Complete swdLength x) ∧
      Cutter.Incomplete swdLength (swdCommands.cut stream).2 :=
  Cutter.cut_prefixed stream

/-- What a Root command is answered. -/
def rootReply : List Byte → List Byte
  | [] => []
  | cmd :: _ =>
      if cmd = cmdIdentify then identifier
      else if cmd = cmdGetRefClock then toLeBytes 4 refClockHz
      else if cmd = cmdGetDivisor then toLeBytes 2 0
      else []

/-- The transfer that an Swd command asks for. -/
def swdTransfer : List Byte → Option Transfer
  | [] => none
  | cmd :: args =>
      if isSequence cmd then none
      else if rnw cmd then some (Transfer.ofCommand cmd 0)
      else some (Transfer.ofCommand cmd
        (fromLeBytes (args.getD 0 0) (args.getD 1 0) (args.getD 2 0) (args.getD 3 0)))

variable {ρ : Type} [Mmio ρ]

def Swd.exec (s : Swd ρ) (command : List Byte) : Option (Swd ρ) :=
  match swdTransfer command with
  | none => some s
  | some x => s.transfer x

theorem processRoot_complete {command : List Byte}
    (h : Cutter.Complete rootLength command) (rest out : List Byte) :
    processRoot (command ++ rest) out = processRoot rest (out ++ rootReply command) := by
  obtain ⟨cmd, args, rfl, hlen⟩ := h
  rw [rootLength] at hlen
  by_cases hset : cmd = cmdSetDivisor
  · subst hset
    rw [if_pos rfl] at hlen
    match args, hlen with
    | [b₀, b₁], _ => exact congrArg (processRoot rest) (List.append_nil out).symm
  · rw [if_neg hset] at hlen
    obtain rfl : args = [] := List.length_eq_zero_iff.mp (Nat.succ_inj.mp hlen)
    rw [List.singleton_append, processRoot.eq_def, rootReply]
    dsimp only
    split_ifs
    · rfl
    · rfl
    · rfl
    · rw [List.append_nil]

theorem processRoot_incomplete {inp : List Byte} (h : Cutter.Incomplete rootLength inp)
    (out : List Byte) : processRoot inp out = (inp, out) := by
  cases inp with
  | nil => rfl
  | cons cmd rest =>
      have hlen := h cmd rest rfl
      rw [rootLength] at hlen
      split at hlen
      · next hset =>
          subst hset
          match rest, hlen with
          | [], _ => rfl
          | [_], _ => rfl
      · rw [List.length_cons] at hlen
        omega

theorem processSwd_complete {command : List Byte}
    (h : Cutter.Complete swdLength command) (rest : List Byte) (s : Swd ρ) :
    processSwd (command ++ rest) s = (s.exec command).bind (processSwd rest) := by
  obtain ⟨cmd, args, rfl, hlen⟩ := h
  rw [swdLength] at hlen
  rw [List.cons_append, processSwd.eq_def, Swd.exec, swdTransfer]
  dsimp only
  by_cases hseq : isSequence cmd
  · rw [if_pos hseq] at hlen
    obtain ⟨b₀, b₁, b₂, b₃, rfl⟩ := List.length_eq_four.mp (Nat.succ_inj.mp hlen)
    rw [if_pos hseq, if_pos hseq]
    rfl
  · rw [if_neg hseq] at hlen
    rw [if_neg hseq, if_neg hseq]
    by_cases hrnw : rnw cmd
    · rw [if_pos hrnw] at hlen
      obtain rfl : args = [] := List.length_eq_zero_iff.mp (Nat.succ_inj.mp hlen)
      rw [if_pos hrnw, if_pos hrnw]
      rfl
    · rw [if_neg hrnw] at hlen
      obtain ⟨b₀, b₁, b₂, b₃, rfl⟩ := List.length_eq_four.mp (Nat.succ_inj.mp hlen)
      rw [if_neg hrnw, if_neg hrnw]
      rfl

theorem processSwd_incomplete {inp : List Byte} (h : Cutter.Incomplete swdLength inp)
    (s : Swd ρ) : processSwd inp s = some (inp, s) := by
  cases inp with
  | nil => rfl
  | cons cmd rest =>
      have hlen := h cmd rest rfl
      rw [swdLength] at hlen
      rw [processSwd.eq_def]
      dsimp only
      by_cases hseq : isSequence cmd
      · rw [if_pos hseq] at hlen ⊢
        match rest, hlen with
        | [], _ | [_], _ | [_, _], _ | [_, _, _], _ => rfl
      · rw [if_neg hseq] at hlen ⊢
        by_cases hrnw : rnw cmd
        · rw [if_pos hrnw, List.length_cons] at hlen
          omega
        · rw [if_neg hrnw] at hlen ⊢
          match rest, hlen with
          | [], _ | [_], _ | [_, _], _ | [_, _, _], _ => rfl

theorem processRoot_eq (inp out : List Byte) :
    processRoot inp out =
      ((rootCommands.cut inp).2, out ++ (rootCommands.cut inp).1.flatMap rootReply) := by
  induction inp using Cutter.cut.induct (c := rootCommands) generalizing out with
  | case1 buf h =>
      rw [Cutter.cut_of_none h, processRoot_incomplete (Cutter.nextPrefixed_eq_none.mp h),
        List.flatMap_nil, List.append_nil]
  | case2 buf x rest h ih =>
      obtain ⟨rfl, hx⟩ := Cutter.nextPrefixed_eq_some rootLength_pos h
      rw [Cutter.cut_of_some h, processRoot_complete hx, ih, List.flatMap_cons,
        List.append_assoc]

theorem processSwd_eq (inp : List Byte) (s : Swd ρ) :
    processSwd inp s =
      ((swdCommands.cut inp).1.foldlM Swd.exec s).map fun t => ((swdCommands.cut inp).2, t) := by
  induction inp using Cutter.cut.induct (c := swdCommands) generalizing s with
  | case1 buf h =>
      rw [Cutter.cut_of_none h, processSwd_incomplete (Cutter.nextPrefixed_eq_none.mp h)]
      rfl
  | case2 buf x rest h ih =>
      obtain ⟨rfl, hx⟩ := Cutter.nextPrefixed_eq_some swdLength_pos h
      rw [Cutter.cut_of_some h, processSwd_complete hx, List.foldlM_cons]
      cases s.exec x with
      | none => rfl
      | some t => exact ih t

/-- The transfers of a list of commands are those that they ask for, in order. -/
theorem transfers_of_foldlM {cmds : List (List Byte)} {s t : Swd ρ}
    (h : cmds.foldlM Swd.exec s = some t) :
    t.transfers = s.transfers ++ cmds.filterMap swdTransfer := by
  induction cmds generalizing s with
  | nil =>
      cases h
      exact (List.append_nil _).symm
  | cons x cmds ih =>
      rw [List.foldlM_cons] at h
      obtain ⟨s', hexec, hrest⟩ := Option.bind_eq_some_iff.mp h
      rw [ih hrest]
      rw [Swd.exec] at hexec
      cases hx : swdTransfer x with
      | none =>
          rw [hx] at hexec
          cases hexec
          rw [List.filterMap_cons_none hx]
      | some y =>
          rw [hx] at hexec
          obtain ⟨r, -, hexec⟩ := Option.bind_eq_some_iff.mp hexec
          obtain ⟨m, -, hexec⟩ := Option.bind_eq_some_iff.mp hexec
          cases hexec
          rw [List.filterMap_cons_some hx, List.append_assoc, List.singleton_append]

/-! ## Deliveries -/

namespace Applets

/-- A pass is a delivery to the reader of SWD commands, and answers the complete root commands. -/
theorem process_eq (s : Applets ρ) (d : Delivery) :
    s.process d =
      (swdCommands.feed Swd.exec (s.swdIn, s.swd) d.swd).map fun t =>
        ⟨(rootCommands.cut (s.rootIn ++ d.root)).2,
          s.rootOut ++ (rootCommands.cut (s.rootIn ++ d.root)).1.flatMap rootReply, t.1, t.2⟩ := by
  rw [process, processRoot_eq, processSwd_eq, Cutter.feed]
  cases (swdCommands.cut (s.swdIn ++ d.swd)).1.foldlM Swd.exec s.swd <;> rfl

/-- Two passes are one, as long as the run engine has nothing to do between them. -/
theorem process_process (s : Applets ρ) (a b : Delivery) :
    (s.process a).bind (process · b) = s.process ⟨a.root ++ b.root, a.swd ++ b.swd⟩ := by
  rw [process_eq, process_eq, ← Cutter.feed_feed, ← List.append_assoc,
    Cutter.cut_append (s.rootIn ++ a.root), List.flatMap_append, ← List.append_assoc]
  cases swdCommands.feed Swd.exec (s.swdIn, s.swd) a.swd with
  | none => rfl
  | some t => exact process_eq _ b

/-- The streams that deliveries make up. -/
def joined (ds : List Delivery) : Delivery := ⟨ds.flatMap Delivery.root, ds.flatMap Delivery.swd⟩

/-- No complete command waits at an endpoint. -/
structure Drained (s : Applets ρ) : Prop where
  root : Cutter.Incomplete rootLength s.rootIn
  swd : Cutter.Incomplete swdLength s.swdIn

/-- The commands of the delivery leave the core halted. -/
def StaysHalted (s : Applets ρ) (d : Delivery) : Prop :=
  ∀ t, s.process d = some t → Halted t.swd.machine

instance (s : Applets ρ) (d : Delivery) : Decidable (StaysHalted s d) :=
  inferInstanceAs (Decidable (∀ t ∈ s.process d, Halted t.swd.machine))

/-- The streams are commands, which were executed, and the beginnings of two more, which are
kept. -/
structure Executed (s t : Applets ρ) (stream : Delivery) (roots swds : List (List Byte)) :
    Prop where
  rootComplete : ∀ x ∈ roots, Cutter.Complete rootLength x
  swdComplete : ∀ x ∈ swds, Cutter.Complete swdLength x
  rootStream : stream.root = roots.flatten ++ t.rootIn
  swdStream : stream.swd = swds.flatten ++ t.swdIn
  kept : Drained t
  replies : t.rootOut = s.rootOut ++ roots.flatMap rootReply
  executed : swds.foldlM Swd.exec s.swd = some t.swd
  transfers : t.swd.transfers = s.swd.transfers ++ swds.filterMap swdTransfer

theorem drained_of_process {s t : Applets ρ} {d : Delivery} (h : s.process d = some t) :
    Drained t := by
  rw [process_eq, Cutter.feed, Option.map_map] at h
  obtain ⟨u, -, rfl⟩ := Option.map_eq_some_iff.mp h
  exact ⟨(rootCommands_cut _).2.2, (swdCommands_cut _).2.2⟩

theorem process_nil {s : Applets ρ} (h : Drained s) : s.process ⟨[], []⟩ = some s := by
  rw [process_eq, Cutter.feed_nil (Cutter.nextPrefixed_eq_none.mpr h.swd), List.append_nil,
    rootCommands, Cutter.cut_incomplete h.root]
  simp

theorem deliver_eq (running : SpMachine ρ → Option (SpMachine ρ)) {s : Applets ρ} {d : Delivery}
    (h : StaysHalted s d) : deliver running s d = s.process d := by
  rw [deliver]
  cases hp : s.process d with
  | none => rfl
  | some t => exact if_pos (h t hp)

/-- The passes of a run are one pass, after which the core is halted. -/
theorem run_deliver {running : SpMachine ρ → Option (SpMachine ρ)} {s : Applets ρ}
    (hs : Drained s) (hhalted : Halted s.swd.machine) {ds : List Delivery}
    (hrun : Along (deliver running) StaysHalted ds s) :
    run (deliver running) ds s = s.process (joined ds) ∧ StaysHalted s (joined ds) := by
  induction ds generalizing s with
  | nil =>
      refine ⟨(process_nil hs).symm, fun t ht => ?_⟩
      cases (process_nil hs).symm.trans ht
      exact hhalted
  | cons d ds ih =>
      have hjoin : s.process (joined (d :: ds)) =
          (s.process d).bind (process · (joined ds)) := (process_process s d (joined ds)).symm
      have hstep := deliver_eq running hrun.1
      rw [run_cons, hstep, StaysHalted, hjoin]
      cases h : s.process d with
      | none =>
          rw [Option.bind_none, Option.bind_none]
          exact ⟨rfl, fun t ht => nomatch ht⟩
      | some t =>
          rw [Option.bind_some, Option.bind_some]
          exact ih (drained_of_process h) (hrun.1 t h) (hrun.2 t (hstep.trans h))

theorem executed_of_process {s t : Applets ρ} {d : Delivery} (hroot : s.rootIn = [])
    (hswd : s.swdIn = []) (h : s.process d = some t) :
    Executed s t d (rootCommands.cut d.root).1 (swdCommands.cut d.swd).1 := by
  have hkept := drained_of_process h
  rw [process_eq, Cutter.feed, Option.map_map, hroot, hswd, List.nil_append, List.nil_append] at h
  obtain ⟨u, hexec, rfl⟩ := Option.map_eq_some_iff.mp h
  have hroots := rootCommands_cut d.root
  have hswds := swdCommands_cut d.swd
  constructor
  · exact hroots.2.1
  · exact hswds.2.1
  · exact hroots.1
  · exact hswds.1
  · exact hkept
  · rfl
  · exact hexec
  · exact transfers_of_foldlM hexec

/-- While the core stays halted, nothing depends on how the streams of the endpoints were cut into
deliveries, and what is left of them is the beginning of a command. -/
theorem deliveries_join (running : SpMachine ρ → Option (SpMachine ρ)) {s : Applets ρ}
    (hroot : s.rootIn = []) (hswd : s.swdIn = []) (hhalted : Halted s.swd.machine)
    {ds : List Delivery} (hrun : Along (deliver running) StaysHalted ds s) :
    run (deliver running) ds s = deliver running s (joined ds) ∧
      ∀ t, run (deliver running) ds s = some t →
        ∃ roots swds, Executed s t (joined ds) roots swds := by
  have hs : Drained s := by
    constructor
    · rw [hroot]
      nofun
    · rw [hswd]
      nofun
  obtain ⟨hone, hstays⟩ := run_deliver hs hhalted hrun
  refine ⟨hone.trans (deliver_eq running hstays).symm, fun t ht => ?_⟩
  exact ⟨_, _, executed_of_process hroot hswd (hone.symm.trans ht)⟩

/-- A server with a halted core behind it that was just connected to. -/
def attached : Applets Unit where
  rootIn := []
  rootOut := []
  swdIn := []
  swd :=
    { machine := ⟨⟨SwDp.new, { Core.new with halted := true }, Bus.new ⟨Scs.new, ()⟩⟩,
        DecodeCache.new, false⟩
      out := []
      transfers := [] }

/-- A divisor command and a write, both cut in the middle, and what follows them. -/
def cutTwice : List Delivery :=
  [⟨[0x12, 1], [0x04, 0, 0]⟩, ⟨[2, 0x10], [0, 0x50, 0x02]⟩]

theorem deliveries_join_cutTwice :
    run (deliver some) cutTwice attached = deliver some attached (joined cutTwice) ∧
      ∀ t, run (deliver some) cutTwice attached = some t →
        ∃ roots swds, Executed attached t (joined cutTwice) roots swds :=
  deliveries_join some rfl rfl (by decide) (by decide)

end Applets

end Glasgow

end SpEmu
