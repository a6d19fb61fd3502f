import SpEmu.Lib.OnesComplement
import SpEmu.Net.Routing

/-!
# What the frames carry

The frames that the bridge builds against the parser for the frames of the SP. `Carries` says of a
frame what it is to whom receives it: the parser finds its VLAN, its addresses and its message, the
IPv6 length is that of the message, and the message's checksum holds. `Verifies` states the checksum
as the receiver checks it, as a one's-complement sum with the pseudo-header.
-/

set_option autoImplicit false

namespace SpEmu

open ByteMem OnesComplement

namespace Frames

/-! ## The checksum -/

theorem toNat_half (hi lo : Byte) :
    ((hi.setWidth 16 : Half) <<< 8 ||| lo.setWidth 16).toNat = 256 * hi.toNat + lo.toNat := by
  have hhi := hi.isLt
  have hlo := lo.isLt
  rw [BitVec.toNat_or, BitVec.toNat_shiftLeft, BitVec.toNat_setWidth, BitVec.toNat_setWidth,
    Nat.mod_eq_of_lt (by omega), Nat.mod_eq_of_lt (by omega), Nat.shiftLeft_eq,
    Nat.mod_eq_of_lt (by omega), ← Nat.shiftLeft_eq, ← Nat.shiftLeft_add_eq_or_of_lt hlo,
    Nat.shiftLeft_eq]
  omega

theorem halves_be16 (v : Half) : halves (be16 v) = [v.toNat] := by
  have hv := v.isLt
  rw [be16, halves, halves]
  simp only [BitVec.toNat_setWidth, BitVec.toNat_ushiftRight, Nat.shiftRight_eq_div_pow]
  congr 1
  omega

/-- The accumulator takes the halves as they are, as long as they fit. -/
theorem toNat_addHalves {sum : Word} {bs : List Byte}
    (h : sum.toNat + (halves bs).sum < 2 ^ 32) :
    (addHalves sum bs).toNat = sum.toNat + (halves bs).sum := by
  induction bs using halves.induct generalizing sum with
  | case1 hi lo rest ih =>
      rw [halves, List.sum_cons] at h ⊢
      have hhalf : ((((hi.setWidth 16 : Half) <<< 8) ||| lo.setWidth 16).setWidth 32 : Word).toNat =
          256 * hi.toNat + lo.toNat := by
        rw [BitVec.toNat_setWidth, toNat_half]
        omega
      have hadd : (sum + ((((hi.setWidth 16 : Half) <<< 8) ||| lo.setWidth 16).setWidth 32 :
          Word)).toNat = sum.toNat + (256 * hi.toNat + lo.toNat) := by
        rw [BitVec.toNat_add, hhalf]
        omega
      rw [addHalves, ih (by omega), hadd]
      omega
  | case2 hi =>
      have hhi := hi.isLt
      have hshift : ((hi.setWidth 32 : Word) <<< 8).toNat = 256 * hi.toNat := by
        rw [BitVec.toNat_shiftLeft, BitVec.toNat_setWidth, Nat.shiftLeft_eq]
        omega
      rw [halves, List.sum_cons, List.sum_nil] at h ⊢
      rw [addHalves, BitVec.toNat_add, hshift]
      omega
  | case3 =>
      rw [addHalves, halves, List.sum_nil, Nat.add_zero]

/-- One round of carries. -/
theorem toNat_carry (sum : Word) :
    ((sum &&& 0xFFFF) + (sum >>> 16)).toNat = sum.toNat % 65536 + sum.toNat / 65536 := by
  have hsum := sum.isLt
  have hlow : (sum &&& ((0xFFFF : Nat) : Word)).toNat = sum.toNat % 65536 := by
    rw [BitVec.toNat_and]
    exact Nat.and_two_pow_sub_one_eq_mod sum.toNat 16
  rw [BitVec.toNat_add, hlow, BitVec.toNat_ushiftRight, Nat.shiftRight_eq_div_pow]
  omega

theorem has_carry_iff (sum : Word) : sum >>> 16 ≠ 0 ↔ 65536 ≤ sum.toNat := by
  rw [Ne, ← BitVec.toNat_inj, BitVec.toNat_ushiftRight, Nat.shiftRight_eq_div_pow]
  show ¬ sum.toNat / 2 ^ 16 = 0 ↔ _
  omega

/-- Folding does not change what a sum stands for. -/
theorem residue_foldCarries (k : Nat) (sum : Word) :
    residue 65535 (foldCarries k sum).toNat = residue 65535 sum.toNat := by
  induction k generalizing sum with
  | zero => rfl
  | succ k ih =>
      rw [foldCarries]
      split
      · rw [ih, toNat_carry]
        exact residue_carry sum.toNat
      · rfl

/-- Two rounds bring every word into a half. -/
theorem foldCarries_le (sum : Word) : (foldCarries 3 sum).toNat ≤ 65535 := by
  have hsum := sum.isLt
  have hround := toNat_carry sum
  have hround' := toNat_carry ((sum &&& ((0xFFFF : Nat) : Word)) + (sum >>> 16))
  have hdone : ∀ {k : Nat} {s : Word}, s.toNat ≤ 65535 → foldCarries k s = s := by
    intro k s hs
    cases k with
    | zero => rfl
    | succ k => rw [foldCarries, if_neg fun hc => by have := (has_carry_iff s).mp hc; omega]
  by_cases h : sum >>> 16 ≠ 0
  · rw [foldCarries, if_pos h]
    by_cases h' : ((sum &&& 0xFFFF) + (sum >>> 16)) >>> 16 ≠ 0
    · have hle := (has_carry_iff _).mp h'
      rw [foldCarries, if_pos h', hdone (by omega)]
      omega
    · have hlt := mt (has_carry_iff _).mpr h'
      rw [hdone (by omega)]
      omega
  · have hlt := mt (has_carry_iff _).mpr h
    rw [hdone (by omega)]
    omega

/-- The four bytes of a big-endian field. -/
def be32 (v : Word) : List Byte := be16 ((v >>> 16).setWidth 16) ++ be16 (v.setWidth 16)

/-- The pseudo-header that a checksum over IPv6 covers. -/
def pseudoHeader (src dst : Ip6) (next : Byte) (length : Nat) : List Byte :=
  src.toList ++ dst.toList ++ be32 (BitVec.ofNat 32 length) ++ [0, 0, 0, next]

/-- The checksum of a message is right: with the pseudo-header, its halves add up to all ones. -/
def Verifies (src dst : Ip6) (next : Byte) (message : List Byte) : Prop :=
  OnesComplement.sum 65535 (halves (pseudoHeader src dst next message.length ++ message)) = 65535

theorem length_be16 (v : Half) : (be16 v).length = 2 := rfl

theorem length_pseudoHeader (src dst : Ip6) (next : Byte) (length : Nat) :
    (pseudoHeader src dst next length).length = 40 := by
  simp only [pseudoHeader, be32, List.length_append, List.Vector.toList_length, length_be16,
    List.length_cons, List.length_nil]

theorem sum_halves_pseudoHeader (src dst : Ip6) (next : Byte) {length : Nat}
    (hlen : length < 65536) :
    (halves (pseudoHeader src dst next length)).sum =
      (halves src.toList).sum + (halves dst.toList).sum + length + next.toNat := by
  have hnext := next.isLt
  have hsrc := src.toList_length
  have hdst := dst.toList_length
  have hhigh : (((BitVec.ofNat 32 length) >>> 16).setWidth 16 : Half).toNat = 0 := by
    rw [BitVec.toNat_setWidth, BitVec.toNat_ushiftRight, BitVec.toNat_ofNat,
      Nat.shiftRight_eq_div_pow]
    omega
  have hlow : ((BitVec.ofNat 32 length).setWidth 16 : Half).toNat = length := by
    rw [BitVec.toNat_setWidth, BitVec.toNat_ofNat]
    omega
  have hlast : halves [0, 0, 0, next] = [0, next.toNat] := by
    rw [halves, halves, halves]
    simp
  rw [pseudoHeader, halves_append (by simp [hsrc, hdst, be32, length_be16]),
    halves_append (by simp [hsrc, hdst]), halves_append (by simp [hsrc]), be32,
    halves_append (by rw [length_be16]), halves_be16, halves_be16, hlast, hhigh, hlow]
  simp only [List.sum_append, List.sum_cons, List.sum_nil]
  omega

/-- Folding leaves the number that a sum stands for. -/
theorem toNat_foldCarries (sum : Word) :
    (foldCarries 3 sum).toNat = residue 65535 sum.toNat := by
  rw [← residue_of_le (foldCarries_le sum), residue_foldCarries]

/-- What `checksum6` has added up before it folds: the accumulator of 32 bits does not overflow. -/
theorem toNat_accumulated (src dst : Ip6) (next : Byte) {data : List Byte}
    (hlen : data.length < 65536) :
    (addHalves (addHalves (addHalves 0 src.toList) dst.toList + BitVec.ofNat 32 data.length +
      next.setWidth 32) data).toNat =
        (halves (pseudoHeader src dst next data.length ++ data)).sum := by
  have hnext := next.isLt
  have hsrc := sum_halves_le src.toList
  have hdst := sum_halves_le dst.toList
  have hdata := sum_halves_le data
  rw [src.toList_length] at hsrc
  rw [dst.toList_length] at hdst
  have haddrs : (addHalves (addHalves 0 src.toList) dst.toList).toNat =
      (halves src.toList).sum + (halves dst.toList).sum := by
    have hzero : (0 : Word).toNat = 0 := rfl
    rw [toNat_addHalves, toNat_addHalves, hzero, Nat.zero_add]
    · omega
    · rw [toNat_addHalves] <;> omega
  have hheader : (addHalves (addHalves 0 src.toList) dst.toList + BitVec.ofNat 32 data.length +
      next.setWidth 32).toNat =
      (halves src.toList).sum + (halves dst.toList).sum + data.length + next.toNat := by
    rw [BitVec.toNat_add, BitVec.toNat_add, haddrs, BitVec.toNat_ofNat, BitVec.toNat_setWidth]
    omega
  rw [toNat_addHalves (by rw [hheader]; omega), hheader,
    halves_append (by rw [length_pseudoHeader]), List.sum_append,
    sum_halves_pseudoHeader src dst next hlen]

/-- The value of a checksum: the complement of the sum, or all ones for a zero of UDP. -/
theorem toNat_checksum6 (src dst : Ip6) (next : Byte) {data : List Byte}
    (hlen : data.length < 65536) :
    let total := (halves (pseudoHeader src dst next data.length ++ data)).sum
    (checksum6 src dst next data).toNat =
      if residue 65535 total = 65535 ∧ next = ipprotoUdp then 65535
      else 65535 - residue 65535 total := by
  intro total
  have hsum := toNat_accumulated src dst next hlen
  rw [checksum6]
  generalize addHalves (addHalves (addHalves 0 src.toList) dst.toList +
    BitVec.ofNat 32 data.length + next.setWidth 32) data = acc at hsum
  have hfold : (foldCarries 3 acc).toNat = residue 65535 total := by
    rw [toNat_foldCarries, hsum]
  have hle := foldCarries_le acc
  have hck : (~~~((foldCarries 3 acc).setWidth 16) : Half).toNat =
      65535 - residue 65535 total := by
    rw [BitVec.toNat_not, BitVec.toNat_setWidth, hfold, Nat.mod_eq_of_lt (by omega)]
  have hzero : (~~~((foldCarries 3 acc).setWidth 16) : Half) = 0 ↔
      residue 65535 total = 65535 := by
    rw [← BitVec.toNat_inj, hck]
    show _ = 0 ↔ _
    omega
  simp only [hzero]
  split
  · rfl
  · exact hck

/-- A checksum of UDP is never sent as 0. -/
theorem checksum6_udp_ne_zero (src dst : Ip6) {data : List Byte} (hlen : data.length < 65536) :
    checksum6 src dst ipprotoUdp data ≠ 0 := by
  have hck := toNat_checksum6 src dst ipprotoUdp hlen
  have hle := residue_le (m := 65535) (by decide)
    (halves (pseudoHeader src dst ipprotoUdp data.length ++ data)).sum
  intro hzero
  rw [hzero] at hck
  simp only [and_true] at hck
  split at hck
  · exact absurd hck (by decide)
  · next hne =>
      have hzero' : (0 : Half).toNat = 0 := rfl
      omega

theorem length_setChecksum {f : List Byte} (off : Nat) (hfits : off + 2 ≤ f.length) (ck : Half) :
    (setChecksum f off ck).length = f.length := by
  simp only [setChecksum, List.length_append, List.length_take, List.length_drop, length_be16]
  omega

/-- A checksum adds its own value to a message that has zeros in its place. -/
theorem sum_halves_setChecksum {f : List Byte} {off : Nat} (heven : off % 2 = 0)
    (hfits : off + 2 ≤ f.length) (hzero : (f.drop off).take 2 = [0, 0]) (ck : Half) :
    (halves (setChecksum f off ck)).sum = (halves f).sum + ck.toNat := by
  -- the field lies on a half, so that the halves around it stay what they are
  have hsplit : f = f.take off ++ ([0, 0] ++ f.drop (off + 2)) := by
    rw [← hzero, ← List.drop_drop, List.take_append_drop, List.take_append_drop]
  have htake : (f.take off).length % 2 = 0 := by
    rw [List.length_take, Nat.min_eq_left (by omega)]
    exact heven
  have hf : (halves f).sum = (halves (f.take off)).sum + (halves (f.drop (off + 2))).sum := by
    have hzeros : halves ([0, 0] : List Byte) = [0] := rfl
    conv_lhs => rw [hsplit]
    rw [halves_append htake, halves_append (by rfl), hzeros, List.sum_append, List.sum_append]
    simp
  rw [setChecksum, List.append_assoc, halves_append htake, halves_append (by rw [length_be16]),
    halves_be16, hf]
  simp only [List.sum_append, List.sum_cons, List.sum_nil]
  omega

/-- A message with its checksum set is right. -/
theorem verifies_setChecksum (src dst : Ip6) (next : Byte) {f : List Byte} (off : Nat)
    (heven : off % 2 = 0) (hfits : off + 2 ≤ f.length) (hzero : (f.drop off).take 2 = [0, 0])
    (hlen : f.length < 65536) :
    Verifies src dst next (setChecksum f off (checksum6 src dst next f)) := by
  have hpseudo : (pseudoHeader src dst next f.length).length % 2 = 0 := by
    rw [length_pseudoHeader]
  rw [Verifies, sum_eq (by decide) (halves_le _), length_setChecksum off hfits,
    halves_append hpseudo, List.sum_append, sum_halves_setChecksum heven hfits hzero,
    toNat_checksum6 src dst next hlen, halves_append hpseudo, List.sum_append, ← Nat.add_assoc]
  split
  · next hmax => exact residue_add_max hmax.1 (by decide)
  · exact residue_add_complement (by decide) _

end Frames

/-! ## Fields of a frame -/

namespace Frames

/-- The field behind a prefix. -/
theorem be16At_append {pre : List Byte} {off : Nat} (hoff : off = pre.length) (v : Half)
    (rest : List Byte) : be16At (pre ++ (be16 v ++ rest)) off = some v := by
  subst hoff
  have hv := v.isLt
  rw [be16At, List.getElem?_append_right (Nat.le_refl _),
    List.getElem?_append_right (Nat.le_add_right _ 1), Nat.sub_self, Nat.add_sub_cancel_left]
  refine congrArg some (BitVec.eq_of_toNat_eq ?_)
  rw [toNat_half, BitVec.toNat_setWidth, BitVec.toNat_setWidth, BitVec.toNat_ushiftRight,
    Nat.shiftRight_eq_div_pow]
  omega

theorem arrayAt_append {n : Nat} {pre : List Byte} {off : Nat} (hoff : off = pre.length)
    (v : List.Vector Byte n) (rest : List Byte) :
    arrayAt n (pre ++ (v.toList ++ rest)) off = some v := by
  subst hoff
  have hslice : ((pre ++ (v.toList ++ rest)).drop pre.length).take n = v.toList := by
    rw [List.drop_left, List.take_left' v.toList_length]
  rw [arrayAt]
  simp only [hslice]
  rw [dif_pos v.toList_length]
  rfl

theorem sliceFrom_append {pre : List Byte} {off : Nat} (hoff : off = pre.length)
    (rest : List Byte) : sliceFrom (pre ++ rest) off = some rest := by
  subst hoff
  rw [sliceFrom, if_pos (by rw [List.length_append]; omega), List.drop_left]

/-- What the parser makes of a frame whose fields are where it looks for them. -/
theorem parseTx_eq {f ip : List Byte} {tx : TxFrame} (pre : List Byte) (hf : f = pre ++ ip)
    (hpre : 14 ≤ pre.length) (hip : 40 ≤ ip.length)
    (hmac : arrayAt 6 f 6 = some tx.srcMac) (htag : vlanTag f = some (tx.vid, pre.length))
    (htype : be16At f (pre.length - 2) = some ethertypeIpv6) (hversion : ip[0]? = some 0x60)
    (hnext : ip[6]? = some tx.nextHdr) (hsrc : arrayAt 16 ip 8 = some tx.srcIp)
    (hdst : arrayAt 16 ip 24 = some tx.dstIp) (hpayload : sliceFrom ip 40 = some tx.payload) :
    parseTx f = some (some tx) := by
  have hlen : f.length = pre.length + ip.length := by rw [hf, List.length_append]
  have hslice : sliceFrom f pre.length = some ip := hf ▸ sliceFrom_append rfl ip
  have hnot : ¬ (ethertypeIpv6 ≠ ethertypeIpv6 ∨ f.length < pre.length + 40) := by
    rintro (hne | hlt)
    · exact hne rfl
    · omega
  rw [parseTx, if_neg (by omega), hmac]
  simp only [Option.bind_eq_bind, Option.bind_some, htag, htype, if_neg hnot, hslice, hversion,
    hnext, hsrc, hdst, hpayload]
  rw [if_neg (by decide)]
  rfl

/-- Where the EtherType of a frame ends. -/
def ethOff (vid : Half) : Nat := if vid ≠ 0 then 18 else 14

/-- The frame takes a message from one address to the other on a VLAN, and the bridge's parser finds
all of it again. -/
structure Carries (f : List Byte) (vid : Half) (dstMac srcMac : Mac) (next : Byte)
    (srcIp dstIp : Ip6) (message : List Byte) : Prop where
  dst : f.take 6 = dstMac.toList
  parsed : parseTx f = some (some ⟨vid, srcMac, next, srcIp, dstIp, message⟩)
  /-- The payload length of the IPv6 header. -/
  length : ∃ v, be16At f (ethOff vid + 4) = some v ∧ v.toNat = message.length
  verifies : Verifies srcIp dstIp next message

theorem vid_and (vid : Half) (hvid : vid.toNat ≤ 4095) : vid &&& 0xFFF = vid := by
  refine BitVec.eq_of_toNat_eq ?_
  rw [BitVec.toNat_and]
  refine (Nat.and_two_pow_sub_one_eq_mod vid.toNat 12).trans ?_
  exact Nat.mod_eq_of_lt (by omega)

/-- The header that `buildIpv6From` puts before a message. -/
def ipHeader (srcIp dstIp : Ip6) (next hop : Byte) (length : Nat) : List Byte :=
  [0x60, 0, 0, 0] ++ be16 (BitVec.ofNat 16 length) ++ [next, hop] ++ srcIp.toList ++ dstIp.toList

/-- What `buildIpv6From` puts before the IPv6 header. -/
def ethHeader (vid : Half) (dstMac srcMac : Mac) : List Byte :=
  dstMac.toList ++ srcMac.toList ++ (if vid ≠ 0 then be16 vlanTpid ++ be16 vid else []) ++
    be16 ethertypeIpv6

theorem buildIpv6From_eq (me : Identity) (vid : Half) (dstMac : Mac) (dstIp : Ip6)
    (next hop : Byte) (message : List Byte) :
    me.buildIpv6From vid dstMac dstIp next hop message = ethHeader vid dstMac me.myMac ++
      (ipHeader me.myIp dstIp next hop message.length ++ message) := by
  simp only [Identity.buildIpv6From, ethHeader, ipHeader, List.append_assoc]

theorem length_ipHeader (srcIp dstIp : Ip6) (next hop : Byte) (length : Nat) :
    (ipHeader srcIp dstIp next hop length).length = 40 := by
  simp only [ipHeader, List.length_append, List.Vector.toList_length, length_be16,
    List.length_cons, List.length_nil]

theorem length_ethHeader (vid : Half) (dstMac srcMac : Mac) :
    (ethHeader vid dstMac srcMac).length = ethOff vid := by
  rw [ethHeader, ethOff]
  split
  · simp only [List.length_append, List.Vector.toList_length, length_be16]
  · simp only [List.length_append, List.Vector.toList_length, length_be16, List.length_nil]

/-- The parser skips a tag that the frame has, and none where it has none. -/
theorem vlanTag_ethHeader {vid : Half} (hvid : vid.toNat ≤ 4095) (dstMac srcMac : Mac)
    (ip : List Byte) :
    vlanTag (ethHeader vid dstMac srcMac ++ ip) = some (vid, ethOff vid) ∧
      be16At (ethHeader vid dstMac srcMac ++ ip) (ethOff vid - 2) = some ethertypeIpv6 := by
  have hmacs : 12 = (dstMac.toList ++ srcMac.toList).length := by
    rw [List.length_append, List.Vector.toList_length, List.Vector.toList_length]
  rw [ethHeader, ethOff, vlanTag]
  by_cases hzero : vid = 0
  · rw [if_neg (not_not.mpr hzero), if_neg (not_not.mpr hzero), List.append_nil, List.append_assoc,
      be16At_append hmacs, Option.bind_eq_bind, Option.bind_some, if_neg (by decide), hzero]
    exact ⟨rfl, rfl⟩
  · have htagged : dstMac.toList ++ srcMac.toList ++ (be16 vlanTpid ++ be16 vid) ++
        be16 ethertypeIpv6 ++ ip = (dstMac.toList ++ srcMac.toList) ++
          (be16 vlanTpid ++ (be16 vid ++ (be16 ethertypeIpv6 ++ ip))) := by
      simp only [List.append_assoc]
    rw [if_pos hzero, if_pos hzero, htagged, be16At_append hmacs, Option.bind_eq_bind,
      Option.bind_some, if_pos rfl]
    have hid : 14 = (dstMac.toList ++ srcMac.toList ++ be16 vlanTpid).length := by
      rw [List.length_append, ← hmacs, length_be16]
    have htype : 16 = (dstMac.toList ++ srcMac.toList ++ be16 vlanTpid ++ be16 vid).length := by
      rw [List.length_append, ← hid, length_be16]
    constructor
    · rw [← List.append_assoc, be16At_append hid, Option.bind_some, vid_and vid hvid]
    · rw [← List.append_assoc, ← List.append_assoc]
      exact be16At_append htype _ _

/-- The parser finds the fields of every frame that is built around a message. -/
theorem parseTx_buildIpv6From (me : Identity) {vid : Half} (hvid : vid.toNat ≤ 4095)
    (dstMac : Mac) (dstIp : Ip6) (next hop : Byte) (message : List Byte) :
    parseTx (me.buildIpv6From vid dstMac dstIp next hop message) =
      some (some ⟨vid, me.myMac, next, me.myIp, dstIp, message⟩) := by
  have hpre := length_ethHeader vid dstMac me.myMac
  have hoff : 14 ≤ ethOff vid := by
    rw [ethOff]
    split <;> decide
  obtain ⟨htag, htype⟩ := vlanTag_ethHeader hvid dstMac me.myMac
    (ipHeader me.myIp dstIp next hop message.length ++ message)
  have hsrc : ipHeader me.myIp dstIp next hop message.length ++ message =
      ([0x60, 0, 0, 0] ++ be16 (BitVec.ofNat 16 message.length) ++ [next, hop]) ++
        (me.myIp.toList ++ (dstIp.toList ++ message)) := by
    simp only [ipHeader, List.append_assoc]
  have hdst : ipHeader me.myIp dstIp next hop message.length ++ message =
      ([0x60, 0, 0, 0] ++ be16 (BitVec.ofNat 16 message.length) ++ [next, hop] ++
        me.myIp.toList) ++ (dstIp.toList ++ message) := by
    simp only [ipHeader, List.append_assoc]
  rw [buildIpv6From_eq]
  refine parseTx_eq (ethHeader vid dstMac me.myMac) rfl (hpre ▸ hoff) ?_ ?_ (hpre ▸ htag)
    (hpre ▸ htype) rfl rfl ?_ ?_ ?_
  · rw [List.length_append, length_ipHeader]
    omega
  · rw [ethHeader]
    simp only [List.append_assoc]
    exact arrayAt_append dstMac.toList_length.symm _ _
  · rw [hsrc]
    exact arrayAt_append rfl _ _
  · rw [hdst]
    refine arrayAt_append ?_ _ _
    rw [List.length_append, List.Vector.toList_length]
    rfl
  · exact sliceFrom_append (length_ipHeader _ _ _ _ _).symm _

/-- Every frame that is built around a right message carries it. -/
theorem carries_buildIpv6From (me : Identity) {vid : Half} (hvid : vid.toNat ≤ 4095)
    (dstMac : Mac) (dstIp : Ip6) (next hop : Byte) {message : List Byte}
    (hlen : message.length < 65536) (hverifies : Verifies me.myIp dstIp next message) :
    Carries (me.buildIpv6From vid dstMac dstIp next hop message) vid dstMac me.myMac next me.myIp
      dstIp message := by
  refine ⟨?_, parseTx_buildIpv6From me hvid dstMac dstIp next hop message,
    ⟨BitVec.ofNat 16 message.length, ?_, ?_⟩, hverifies⟩
  · rw [buildIpv6From_eq, ethHeader, List.append_assoc, List.append_assoc, List.append_assoc]
    exact List.take_left' dstMac.toList_length
  · have hfield : me.buildIpv6From vid dstMac dstIp next hop message =
        (ethHeader vid dstMac me.myMac ++ [0x60, 0, 0, 0]) ++
          (be16 (BitVec.ofNat 16 message.length) ++
            ([next, hop] ++ (me.myIp.toList ++ (dstIp.toList ++ message)))) := by
      simp only [buildIpv6From_eq, ipHeader, List.append_assoc]
    rw [hfield]
    refine be16At_append ?_ _ _
    rw [List.length_append, length_ethHeader]
    rfl
  · rw [BitVec.toNat_ofNat]
    exact Nat.mod_eq_of_lt hlen

/-! ## The messages -/

/-- The message of a UDP datagram: the four fields, and the payload. -/
structure UdpMessage (message : List Byte) (srcPort dstPort : Half) (payload : List Byte) :
    Prop where
  src : be16At message 0 = some srcPort
  dst : be16At message 2 = some dstPort
  length : ∃ v, be16At message 4 = some v ∧ v.toNat = message.length
  checksum : ∃ v, be16At message 6 = some v ∧ v ≠ 0
  payload : sliceFrom message 8 = some payload
  header : 8 ≤ message.length

/-- A datagram as `buildUdp6` assembles it, its checksum still zero. -/
def udpFields (srcPort dstPort : Half) (payload : List Byte) : List Byte :=
  be16 srcPort ++ be16 dstPort ++ be16 (BitVec.ofNat 16 (8 + payload.length)) ++ [0, 0] ++ payload

theorem length_udpFields (srcPort dstPort : Half) (payload : List Byte) :
    (udpFields srcPort dstPort payload).length = 8 + payload.length := by
  simp only [udpFields, List.length_append, length_be16, List.length_cons, List.length_nil]

/-- The fields are where the parser looks for them. -/
theorem udpMessage_setChecksum (srcPort dstPort : Half) {payload : List Byte}
    (hlen : 8 + payload.length < 65536) {ck : Half} (hck : ck ≠ 0) :
    UdpMessage (setChecksum (udpFields srcPort dstPort payload) 6 ck) srcPort dstPort payload := by
  have hset : setChecksum (udpFields srcPort dstPort payload) 6 ck = be16 srcPort ++
      (be16 dstPort ++ (be16 (BitVec.ofNat 16 (8 + payload.length)) ++ (be16 ck ++ payload))) := rfl
  have hlength : (setChecksum (udpFields srcPort dstPort payload) 6 ck).length =
      8 + payload.length := by
    rw [length_setChecksum 6 (by rw [length_udpFields]; omega), length_udpFields]
  refine ⟨?_, ?_, ⟨BitVec.ofNat 16 (8 + payload.length), ?_, ?_⟩, ⟨ck, ?_, hck⟩, ?_, ?_⟩
  · rw [hset]
    exact be16At_append (show 0 = ([] : List Byte).length from rfl) srcPort _
  · rw [hset]
    exact be16At_append (show 2 = (be16 srcPort).length from rfl) dstPort _
  · rw [hset, ← List.append_assoc]
    exact be16At_append rfl _ _
  · rw [BitVec.toNat_ofNat, hlength]
    exact Nat.mod_eq_of_lt hlen
  · rw [hset, ← List.append_assoc, ← List.append_assoc]
    exact be16At_append rfl _ _
  · rw [hset, ← List.append_assoc, ← List.append_assoc, ← List.append_assoc]
    exact sliceFrom_append rfl _
  · rw [hlength]
    exact Nat.le_add_right 8 _

/-- A datagram to the SP. -/
theorem carries_buildUdp6 (me : Identity) {vid : Half} (hvid : vid.toNat ≤ 4095) (dstMac : Mac)
    (dstIp : Ip6) (dstPort srcPort : Half) {payload : List Byte}
    (hlen : 8 + payload.length < 65536) :
    ∃ message, UdpMessage message srcPort dstPort payload ∧
      Carries (me.buildUdp6 vid dstMac dstIp dstPort srcPort payload) vid dstMac me.myMac
        ipprotoUdp me.myIp dstIp message := by
  have hsize := length_udpFields srcPort dstPort payload
  refine ⟨setChecksum (udpFields srcPort dstPort payload) 6
    (checksum6 me.myIp dstIp ipprotoUdp (udpFields srcPort dstPort payload)), ?_, ?_⟩
  · exact udpMessage_setChecksum srcPort dstPort hlen
      (checksum6_udp_ne_zero me.myIp dstIp (hsize.trans_lt hlen))
  · have hframe : me.buildUdp6 vid dstMac dstIp dstPort srcPort payload =
        me.buildIpv6From vid dstMac dstIp ipprotoUdp 64
          (setChecksum (udpFields srcPort dstPort payload) 6
            (checksum6 me.myIp dstIp ipprotoUdp (udpFields srcPort dstPort payload))) := rfl
    rw [hframe]
    exact carries_buildIpv6From me hvid dstMac dstIp ipprotoUdp 64
      (by rw [length_setChecksum 6 (by omega)]; omega)
      (verifies_setChecksum me.myIp dstIp ipprotoUdp 6 (by decide) (by omega) rfl
        (hsize.trans_lt hlen))

/-- An ICMPv6 message of a type, with its checksum set. -/
theorem carries_icmp6 (me : Identity) {vid : Half} (hvid : vid.toNat ≤ 4095) (dstMac : Mac)
    (dstIp : Ip6) (hop : Byte) {icmp : List Byte} (hsize : 4 ≤ icmp.length)
    (hzero : (icmp.drop 2).take 2 = [0, 0]) (hlen : icmp.length < 65536) :
    Carries (me.buildIpv6From vid dstMac dstIp ipprotoIcmpv6 hop
        (setChecksum icmp 2 (checksum6 me.myIp dstIp ipprotoIcmpv6 icmp))) vid dstMac me.myMac
      ipprotoIcmpv6 me.myIp dstIp
      (setChecksum icmp 2 (checksum6 me.myIp dstIp ipprotoIcmpv6 icmp)) :=
  carries_buildIpv6From me hvid dstMac dstIp ipprotoIcmpv6 hop
    (by rw [length_setChecksum 2 (by omega)]; exact hlen)
    (verifies_setChecksum me.myIp dstIp ipprotoIcmpv6 2 (by decide) (by omega) hzero hlen)

/-- The reply is the request with another type and its own checksum. -/
theorem carries_buildEchoReply (me : Identity) {vid : Half} (hvid : vid.toNat ≤ 4095)
    (dstMac : Mac) (dstIp : Ip6) {req : List Byte} (hsize : 4 ≤ req.length)
    (hlen : req.length < 65536) :
    ∃ ck, Carries (me.buildEchoReply vid dstMac dstIp req) vid dstMac me.myMac ipprotoIcmpv6
      me.myIp dstIp (icmp6EchoReply :: (req.drop 1).take 1 ++ be16 ck ++ req.drop 4) := by
  obtain ⟨icmp, hicmp⟩ : ∃ icmp, icmp = setChecksum (icmp6EchoReply :: req.tail) 2 0 := ⟨_, rfl⟩
  have htail : (icmp6EchoReply :: req.tail).length = req.length := by
    rw [List.length_cons, List.length_tail]
    omega
  have hlength : icmp.length = req.length := by
    rw [hicmp, length_setChecksum 2 (by omega), htail]
  have hzero : (icmp.drop 2).take 2 = [0, 0] := by
    rw [hicmp, setChecksum, List.append_assoc, List.drop_left' (by
      rw [List.length_take]
      omega)]
    rfl
  have hset : ∀ ck : Half, setChecksum icmp 2 ck =
      icmp6EchoReply :: (req.drop 1).take 1 ++ be16 ck ++ req.drop 4 := by
    intro ck
    obtain ⟨a, b, c, d, rest, rfl⟩ : ∃ a b c d rest, req = a :: b :: c :: d :: rest := by
      match req, hsize with
      | a :: b :: c :: d :: rest, _ => exact ⟨a, b, c, d, rest, rfl⟩
    rw [hicmp]
    rfl
  refine ⟨checksum6 me.myIp dstIp ipprotoIcmpv6 icmp, ?_⟩
  rw [← hset, Identity.buildEchoReply, ← hicmp]
  exact carries_icmp6 me hvid dstMac dstIp 64 (by omega) hzero (by omega)

/-! ## The parser is total -/

theorem be16At_isSome {f : List Byte} (off : Nat) (h : off + 2 ≤ f.length) :
    ∃ v, be16At f off = some v := by
  rw [be16At, List.getElem?_eq_getElem (by omega), List.getElem?_eq_getElem (by omega)]
  exact ⟨_, rfl⟩

theorem arrayAt_isSome (n : Nat) {f : List Byte} (off : Nat) (h : off + n ≤ f.length) :
    ∃ v, arrayAt n f off = some v := by
  have hlen : ((f.drop off).take n).length = n := by
    rw [List.length_take, List.length_drop]
    omega
  rw [arrayAt]
  exact ⟨_, dif_pos hlen⟩

theorem vlanTag_isSome {f : List Byte} (h : 18 ≤ f.length) :
    ∃ vid off, vlanTag f = some (vid, off) ∧ (off = 14 ∨ off = 18) := by
  obtain ⟨tpid, htpid⟩ := be16At_isSome (f := f) 12 (by omega)
  obtain ⟨tci, htci⟩ := be16At_isSome (f := f) 14 (by omega)
  rw [vlanTag, htpid, Option.bind_eq_bind, Option.bind_some]
  split
  · rw [htci]
    exact ⟨_, 18, rfl, Or.inr rfl⟩
  · exact ⟨0, 14, rfl, Or.inl rfl⟩

/-- The parser stays inside of whatever it is given. -/
theorem parseTx_isSome (f : List Byte) : ∃ tx, parseTx f = some tx := by
  rw [parseTx]
  split
  · exact ⟨none, rfl⟩
  · next hlen =>
      obtain ⟨mac, hmac⟩ := arrayAt_isSome 6 (f := f) 6 (by omega)
      obtain ⟨vid, off, htag, hoff⟩ := vlanTag_isSome (f := f) (by omega)
      obtain ⟨ethertype, htype⟩ := be16At_isSome (f := f) (off - 2) (by omega)
      simp only [hmac, htag, htype, Option.bind_eq_bind, Option.bind_some]
      split
      · exact ⟨none, rfl⟩
      · next hnot =>
          have hip : off + 40 ≤ f.length := by
            by_contra hlt
            exact hnot (Or.inr (by omega))
          have hslice : sliceFrom f off = some (f.drop off) := if_pos (by omega)
          have hdrop : 40 ≤ (f.drop off).length := by
            rw [List.length_drop]
            omega
          obtain ⟨src, hsrc⟩ := arrayAt_isSome 16 (f := f.drop off) 8 (by omega)
          obtain ⟨dst, hdst⟩ := arrayAt_isSome 16 (f := f.drop off) 24 (by omega)
          have hpayload : sliceFrom (f.drop off) 40 = some ((f.drop off).drop 40) := if_pos hdrop
          rw [hslice]
          simp only [Option.bind_some, hsrc, hdst, hpayload,
            List.getElem?_eq_getElem (show 0 < (f.drop off).length by omega),
            List.getElem?_eq_getElem (show 6 < (f.drop off).length by omega)]
          split
          · exact ⟨none, rfl⟩
          · exact ⟨_, rfl⟩

end Frames

namespace Bridge

open Frames FlowQueue

theorem handleIcmp6_isSome (b : Bridge) (orders : Nat → IterOrder FlowKey) (vid : Half)
    (srcIp : Ip6) (p : List Byte) : ∃ b', b.handleIcmp6 orders vid srcIp p = some b' := by
  rw [handleIcmp6]
  split
  · exact ⟨b, rfl⟩
  · next hlen =>
      split
      · exact ⟨b, rfl⟩
      · rw [List.getElem?_eq_getElem (by omega), Option.bind_eq_bind, Option.bind_some]
        split
        · next hns =>
            obtain ⟨target, htarget⟩ := arrayAt_isSome 16 (f := p) 8 (by omega)
            simp only [htarget, Option.bind_eq_bind, Option.bind_some]
            split
            · exact ⟨_, rfl⟩
            · exact ⟨b, rfl⟩
        · split
          · exact ⟨_, rfl⟩
          · exact ⟨b, rfl⟩

theorem handleUdpTx_isSome (b : Bridge) (vid : Half) (udp : List Byte) :
    ∃ sent, b.handleUdpTx vid udp = some sent := by
  rw [handleUdpTx]
  split
  · exact ⟨none, rfl⟩
  · next hlen =>
      obtain ⟨src, hsrc⟩ := be16At_isSome (f := udp) 0 (by omega)
      obtain ⟨dst, hdst⟩ := be16At_isSome (f := udp) 2 (by omega)
      have hslice : sliceFrom udp 8 = some (udp.drop 8) := if_pos (by omega)
      simp only [hsrc, Option.bind_eq_bind, Option.bind_some]
      split
      · exact ⟨none, rfl⟩
      · rw [hdst, Option.bind_some]
        split
        · exact ⟨none, rfl⟩
        · rw [hslice]
          exact ⟨_, rfl⟩

theorem handleTx_isSome (b : Bridge) (orders : Nat → Nat → IterOrder FlowKey) (f : List Byte) :
    ∃ out, b.handleTx orders f = some out := by
  obtain ⟨parsed, hparsed⟩ := parseTx_isSome f
  rw [handleTx, hparsed, Option.bind_eq_bind, Option.bind_some]
  cases parsed with
  | none => exact ⟨_, rfl⟩
  | some tx =>
      dsimp only
      split
      · obtain ⟨b', hb'⟩ := (b.learn orders tx).handleIcmp6_isSome (orders 2) tx.vid tx.srcIp
          tx.payload
        rw [hb']
        exact ⟨_, rfl⟩
      · split
        · obtain ⟨sent, hsent⟩ := (b.learn orders tx).handleUdpTx_isSome tx.vid tx.payload
          rw [hsent]
          exact ⟨_, rfl⟩
        · exact ⟨_, rfl⟩

/-- A datagram of the SP goes out with its payload, to the port that it names. -/
theorem handleTx_udp {b : Bridge} {orders : Nat → Nat → IterOrder FlowKey} {f : List Byte}
    {tx : TxFrame} (hparsed : parseTx f = some (some tx)) (hnext : tx.nextHdr = ipprotoUdp)
    {srcPort dstPort : Half} {payload : List Byte}
    (hmessage : UdpMessage tx.payload srcPort dstPort payload) {i : Nat} {last : SocketAddr}
    (hsock : b.socks.findIdx? (relays (tx.vid, srcPort)) = some i)
    (hpeer : b.peerByVid (tx.vid, srcPort) = some last) :
    ∃ b', b.handleTx orders f = some (b', some ⟨i, ⟨last.ip, dstPort⟩, payload⟩) := by
  obtain ⟨hsocks, hpeers⟩ := b.learn_tables orders tx
  have hsent := handleUdpTx_reply (b := b.learn orders tx) (k := (tx.vid, srcPort))
    (by rw [hsocks]; exact hsock) (by rw [hpeers]; exact hpeer) hmessage.header hmessage.src
    hmessage.dst
  have hslice : sliceFrom tx.payload 8 = some (tx.payload.drop 8) := if_pos hmessage.header
  have hdrop : tx.payload.drop 8 = payload := Option.some.inj (hslice.symm.trans hmessage.payload)
  rw [hdrop] at hsent
  refine ⟨b.learn orders tx, ?_⟩
  rw [handleTx, hparsed, Option.bind_eq_bind, Option.bind_some]
  dsimp only
  rw [hnext, if_neg (by decide), if_pos rfl, hsent]
  rfl

/-- Whatever frame the bridge builds carries its message, a datagram of either direction comes out
as it went in, and the parser stays inside of whatever it is given. -/
theorem frames_agree :
    (∀ (me : Identity) (vid : Half) (dstMac : Mac) (dstIp : Ip6), vid.toNat ≤ 4095 →
      (∀ (dstPort srcPort : Half) (payload : List Byte), 8 + payload.length < 65536 →
        ∃ message, UdpMessage message srcPort dstPort payload ∧
          Carries (me.buildUdp6 vid dstMac dstIp dstPort srcPort payload) vid dstMac me.myMac
            ipprotoUdp me.myIp dstIp message ∧
          ∀ (b : Bridge) (orders : Nat → Nat → IterOrder FlowKey) (i : Nat) (last : SocketAddr),
            b.socks.findIdx? (relays (vid, srcPort)) = some i →
              b.peerByVid (vid, srcPort) = some last →
                ∃ b', b.handleTx orders (me.buildUdp6 vid dstMac dstIp dstPort srcPort payload) =
                  some (b', some ⟨i, ⟨last.ip, dstPort⟩, payload⟩)) ∧
      (∃ ck, Carries (me.buildNeighborAdvert vid dstMac dstIp) vid dstMac me.myMac ipprotoIcmpv6
        me.myIp dstIp ([icmp6NeighborAdvert, 0] ++ be16 ck ++ [0x60, 0, 0, 0] ++ me.myIp.toList ++
          [2, 1] ++ me.myMac.toList)) ∧
      (∃ ck, Carries (me.buildEchoRequest vid dstMac dstIp) vid dstMac me.myMac ipprotoIcmpv6
        me.myIp dstIp ([icmp6EchoRequest, 0] ++ be16 ck ++ [0, 1, 0, 1, 0xDE, 0xAD, 0xBE, 0xEF])) ∧
      ∀ req : List Byte, 4 ≤ req.length → req.length < 65536 →
        ∃ ck, Carries (me.buildEchoReply vid dstMac dstIp req) vid dstMac me.myMac ipprotoIcmpv6
          me.myIp dstIp (icmp6EchoReply :: (req.drop 1).take 1 ++ be16 ck ++ req.drop 4)) ∧
    ∀ (b : Bridge) (orders : Nat → Nat → IterOrder FlowKey) (f : List Byte),
      ∃ out, b.handleTx orders f = some out := by
  refine ⟨fun me vid dstMac dstIp hvid => ⟨fun dstPort srcPort payload hlen => ?_, ?_, ?_,
    fun req hsize hlen => carries_buildEchoReply me hvid dstMac dstIp hsize hlen⟩,
    handleTx_isSome⟩
  · obtain ⟨message, hmessage, hcarries⟩ := carries_buildUdp6 me hvid dstMac dstIp dstPort srcPort
      hlen
    exact ⟨message, hmessage, hcarries, fun b orders i last hsock hpeer =>
      handleTx_udp hcarries.parsed rfl hmessage hsock hpeer⟩
  · have hadvert : ([icmp6NeighborAdvert, 0, 0, 0, 0x60, 0, 0, 0] ++ me.myIp.toList ++ [2, 1] ++
        me.myMac.toList).length = 32 := by
      simp only [List.length_append, List.Vector.toList_length, List.length_cons, List.length_nil]
    exact ⟨_, carries_icmp6 me hvid dstMac dstIp 255 (by omega) rfl (by omega)⟩
  · exact ⟨_, carries_icmp6 me hvid dstMac dstIp 255 (by decide) rfl (by decide)⟩

/-- A payload of odd length on the first switch view. -/
theorem frames_agree_odd :
    ∃ message, UdpMessage message 50000 11111 [1, 2, 3] ∧
      Carries (Identity.bridge.buildUdp6 0x301 Identity.bridge.myMac Identity.bridge.myIp 11111
        50000 [1, 2, 3]) 0x301 Identity.bridge.myMac Identity.bridge.myMac ipprotoUdp
        Identity.bridge.myIp Identity.bridge.myIp message := by
  obtain ⟨hframes, -⟩ := frames_agree
  obtain ⟨hudp, -⟩ := hframes Identity.bridge 0x301 Identity.bridge.myMac Identity.bridge.myIp
    (by decide)
  obtain ⟨message, hmessage, hcarries, -⟩ := hudp 11111 50000 [1, 2, 3] (by decide)
  exact ⟨message, hmessage, hcarries⟩

end Bridge

end SpEmu
