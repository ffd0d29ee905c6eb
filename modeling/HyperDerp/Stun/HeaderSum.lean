import HyperDerp.Lib.OnesComplement
import HyperDerp.Stun.XdpProgram
import HyperDerp.WgRelay.Intact
import Mathlib.Algebra.Order.BigOperators.Group.List

/-!
# Checksums of the rewritten headers (`wg_relay.bpf.c:176-384`, `hd_xdp.bpf.c:89-320`)

A receiver sums the ten words of a header as they stand on the wire. The programs sum
half words as the host loads them, the responder over bytes and the relay over a record.
-/

namespace HyperDerp.HeaderSum

open Patch Stun OnesComplement

def wireWords (hdr : Bytes) : List ℕ :=
  (List.range 10).map fun i => BigEndian.val (field hdr (2 * i) 2)

/-- The words of a header as a little-endian host loads them. -/
def hostWords (hdr : Bytes) : List UInt16 :=
  (List.range 10).map fun i => UInt16.ofNat (halfWord hdr (2 * i))

def Valid (hdr : Bytes) : Prop := hdr.length = 20 ∧ sum (wireWords hdr) = 0xFFFF

/-! ### Words in the two byte orders -/

theorem halfWord_lt (p : Bytes) (off : ℕ) : halfWord p off < 2 ^ 16 := by
  have hlow := (p.getD off 0).toNat_lt
  have hhigh := (p.getD (off + 1) 0).toNat_lt
  unfold halfWord
  omega

variable {off : ℕ} {hdr frame out : Bytes} {ip : IpHdr}

theorem field_two {p : Bytes} (h : off + 2 ≤ p.length) :
    field p off 2 = [p.getD off 0, p.getD (off + 1) 0] := by
  have h0 : off < p.length := by omega
  have h1 : off + 1 < p.length := by omega
  rw [field, List.drop_eq_getElem_cons h0, List.drop_eq_getElem_cons h1]
  simp only [List.take_succ_cons, List.take_zero, List.getD_eq_getElem?_getD,
    List.getElem?_eq_getElem h0, List.getElem?_eq_getElem h1, Option.getD_some]

theorem val_field_two {p : Bytes} (h : off + 2 ≤ p.length) :
    BigEndian.val (field p off 2) = swap (halfWord p off) := by
  have hlow := (p.getD off 0).toNat_lt
  have hhigh := (p.getD (off + 1) 0).toNat_lt
  rw [field_two h]
  simp only [BigEndian.val, List.length_cons, List.length_nil, swap, halfWord]
  omega

theorem toNat_hostWords (hdr : Bytes) :
    (hostWords hdr).map UInt16.toNat = (List.range 10).map fun i => halfWord hdr (2 * i) := by
  unfold hostWords
  rw [List.map_map]
  apply List.map_congr_left
  intro i _
  exact UInt16.toNat_ofNat_of_lt' (halfWord_lt hdr (2 * i))

theorem wireWords_eq (h : hdr.length = 20) :
    wireWords hdr = ((hostWords hdr).map UInt16.toNat).map swap := by
  rw [toNat_hostWords, List.map_map]
  apply List.map_congr_left
  intro i hi
  have hlt := List.mem_range.mp hi
  exact val_field_two (by omega)

theorem hostWords_lt (hdr : Bytes) : ∀ w ∈ (hostWords hdr).map UInt16.toNat, w < 2 ^ 16 := by
  intro w hw
  obtain ⟨u, -, rfl⟩ := List.mem_map.mp hw
  exact u.toNat_lt

theorem wireWords_lt (h : hdr.length = 20) : ∀ w ∈ wireWords hdr, w < 2 ^ 16 := by
  rw [wireWords_eq h]
  intro w hw
  obtain ⟨u, hu, rfl⟩ := List.mem_map.mp hw
  exact swap_lt (hostWords_lt hdr u hu)

theorem sum_wireWords (h : hdr.length = 20) :
    sum (wireWords hdr) = swap (sum ((hostWords hdr).map UInt16.toNat)) := by
  rw [sum_eq_residue _ (wireWords_lt h), sum_eq_residue _ (hostWords_lt hdr), wireWords_eq h,
    residue_map_swap _ (hostWords_lt hdr)]

theorem valid_of_host (h : hdr.length = 20)
    (hsum : sum ((hostWords hdr).map UInt16.toNat) = 65535) : Valid hdr := by
  refine ⟨h, ?_⟩
  rw [sum_wireWords h, hsum]
  rfl

/-! ### The responder's frames -/

theorem halfWord_field (p : Bytes) {i n : ℕ} (h : i + 2 ≤ n) :
    halfWord (field p off n) i = halfWord p (off + i) := by
  simp only [halfWord, List.getD_eq_getElem?_getD, getElem?_field]
  rw [if_pos (by omega), if_pos (by omega), Nat.add_assoc]

theorem halfWord_put_outside {p bs : Bytes} {i : ℕ} (h : i + 2 ≤ off ∨ off + bs.length ≤ i) :
    halfWord (put p off bs) i = halfWord p i := by
  simp only [halfWord, List.getD_eq_getElem?_getD]
  rw [getElem?_put_outside (by omega), getElem?_put_outside (by omega)]

theorem hostWords_field (frame : Bytes) :
    (hostWords (field frame ipHdr 20)).map UInt16.toNat =
      (List.range 10).map fun i => halfWord frame (ipHdr + 2 * i) := by
  rw [toNat_hostWords]
  apply List.map_congr_left
  intro i hi
  have hlt := List.mem_range.mp hi
  exact halfWord_field frame (by omega)

theorem length_hostWords (hdr : Bytes) : (hostWords hdr).length = 10 := by simp [hostWords]

theorem ipChecksum_eq (frame : Bytes) :
    ipChecksum frame = (checksum (hostWords (field frame ipHdr 20))).toNat := by
  have hlength := length_hostWords (field frame ipHdr 20)
  have hbound := (toNat_sum32 (hostWords (field frame ipHdr 20)) (by omega)).2
  rw [toNat_checksum _ (by omega), sum_eq_residue _ (hostWords_lt _)]
  rw [hlength] at hbound
  rw [hostWords_field] at hbound ⊢
  unfold ipChecksum
  dsimp only
  rw [two_folds (by omega)]
  omega

theorem sum_ten (w : ℕ → ℕ) : ((List.range 10).map w).sum =
    w 0 + w 1 + w 2 + w 3 + w 4 + w 5 + w 6 + w 7 + w 8 + w 9 := by
  simp [List.range_succ, Nat.add_assoc]

theorem valid_of_stored (hlen : ipHdr + 20 ≤ frame.length)
    (hzero : field frame ipCheck 2 = [0, 0]) :
    Valid (field (put frame ipCheck [UInt8.ofNat (ipChecksum frame % 256),
      UInt8.ofNat (ipChecksum frame / 256)]) ipHdr 20) := by
  unfold ipCheck at hzero ⊢
  unfold ipHdr at hlen
  have hsum : ipChecksum frame =
      65535 - residue ((List.range 10).map fun i => halfWord frame (ipHdr + 2 * i)).sum := by
    rw [ipChecksum_eq, toNat_checksum _ (by simp [hostWords]), sum_eq_residue _ (hostWords_lt _),
      hostWords_field]
  have hle : ipChecksum frame ≤ 65535 := by omega
  generalize ipChecksum frame = check at hsum hle ⊢
  have hbefore : halfWord frame 24 = 0 := by
    rw [field_two (by omega)] at hzero
    unfold halfWord
    rw [(List.cons.inj hzero).1, (List.cons.inj (List.cons.inj hzero).2).1]
    rfl
  have hafter : halfWord (put frame 24 [UInt8.ofNat (check % 256), UInt8.ofNat (check / 256)]) 24 =
      check := by
    have hput : field (put frame 24 [UInt8.ofNat (check % 256), UInt8.ofNat (check / 256)]) 24 2 =
        [UInt8.ofNat (check % 256), UInt8.ofNat (check / 256)] := field_put rfl (by omega)
    rw [field_two (by rw [length_put]; omega)] at hput
    unfold halfWord
    rw [(List.cons.inj hput).1, (List.cons.inj (List.cons.inj hput).2).1, UInt8.toNat_ofNat',
      UInt8.toNat_ofNat']
    omega
  have hsame : ∀ i, i + 2 ≤ 24 ∨ 26 ≤ i →
      halfWord (put frame 24 [UInt8.ofNat (check % 256), UInt8.ofNat (check / 256)]) i =
        halfWord frame i := fun i hi => halfWord_put_outside hi
  generalize hout : put frame 24 [UInt8.ofNat (check % 256), UInt8.ofNat (check / 256)] = out at *
  have hlength : out.length = frame.length := by rw [← hout, length_put]
  apply valid_of_host (length_field (by unfold ipHdr; omega))
  apply sum_completed ((List.range 10).map fun i => halfWord frame (ipHdr + 2 * i))
    (hostWords_lt _)
  rw [← hsum, hostWords_field, sum_ten, sum_ten]
  unfold ipHdr
  simp only [Nat.reduceMul, Nat.reduceAdd]
  rw [hbefore, hafter, hsame 14 (by omega), hsame 16 (by omega), hsame 18 (by omega),
    hsame 20 (by omega), hsame 22 (by omega), hsame 26 (by omega), hsame 28 (by omega),
    hsame 30 (by omega), hsame 32 (by omega)]
  omega

theorem valid_of_zeroed (hlen : ipHdr + 20 ≤ frame.length) :
    Valid (field (put (put frame ipCheck [0, 0]) ipCheck
      [UInt8.ofNat (ipChecksum (put frame ipCheck [0, 0]) % 256),
        UInt8.ofNat (ipChecksum (put frame ipCheck [0, 0]) / 256)]) ipHdr 20) := by
  have hzero : field (put frame ipCheck [0, 0]) ipCheck 2 = [0, 0] := by
    unfold ipHdr at hlen
    unfold ipCheck
    exact field_put (n := 2) rfl (by omega)
  exact valid_of_stored (by simpa using hlen) hzero

theorem header_put {bs : Bytes} (h : ipHdr + 20 ≤ off) :
    field (put frame off bs) ipHdr 20 = field frame ipHdr 20 := field_put_outside (Or.inr h)

theorem turnHeaders_valid {clientIp clientPort : Bytes} (h : ipHdr + 20 ≤ frame.length) :
    Valid (field (turnHeaders frame clientIp clientPort) ipHdr 20) := by
  unfold turnHeaders
  dsimp only
  rw [header_put (by decide), header_put (by decide), header_put (by decide),
    header_put (by decide)]
  apply valid_of_zeroed
  simpa using h

theorem channelHeaders_valid {val : TurnChanVal} (h : ipHdr + 20 ≤ frame.length) :
    Valid (field (channelHeaders frame val) ipHdr 20) := by
  unfold channelHeaders
  dsimp only
  rw [header_put (by decide), header_put (by decide), header_put (by decide)]
  apply valid_of_zeroed
  simpa using h

theorem respond_valid {stats : List Stat} (h : respond frame = (stats, .tx out)) :
    Valid (field out ipHdr 20) := by
  unfold respond at h
  split at h
  · cases h
  · next hlen =>
    dsimp only at h
    injection h with hstats haction
    injection haction with hout
    rw [← hout]
    apply turnHeaders_valid
    rw [length_writeResponse]
    unfold udpPayload at hlen
    unfold ipHdr
    omega

theorem handleStun_valid {adjustTail : AdjustTail} {stats : List Stat}
    (h : handleStun adjustTail frame = (stats, .tx out)) : Valid (field out ipHdr 20) := by
  have hrespond : ∀ {p : Bytes}, (respond p).2 = .tx out → Valid (field out ipHdr 20) :=
    fun hp => respond_valid (Prod.ext rfl hp)
  unfold handleStun at h
  split at h
  · cases h
  · split at h
    · cases h
    · have haction := congrArg Prod.snd h
      dsimp only at haction
      split at haction
      · exact hrespond haction
      · split at haction
        · cases haction
        · split at haction
          · cases haction
          · exact hrespond haction

theorem handleChannel_valid {maps : XdpMaps} {stats : List ProgramStat}
    (h : handleChannel maps frame = (stats, .tx out)) : Valid (field out ipHdr 20) := by
  unfold handleChannel at h
  split at h
  · cases h
  · next hlen =>
    dsimp only at h
    split at h
    · cases h
    · split at h
      · cases h
      · injection h with hstats haction
        injection haction with hout
        rw [← hout]
        apply channelHeaders_valid
        unfold udpPayload at hlen
        unfold ipHdr
        omega

theorem hdStunTurn_valid {adjustTail : AdjustTail} {maps : XdpMaps} {stats : List ProgramStat}
    (h : hdStunTurn adjustTail maps frame = (stats, .tx out)) :
    Valid (field out ipHdr 20) := by
  rcases hdStunTurn_tx h with ⟨s, hstun⟩ | hchannel
  · exact handleStun_valid hstun
  · exact handleChannel_valid hchannel

/-! ### The relay's frames -/

/-- The record of a header: fields in host order, the first byte in two halves. -/
def ipHdrOf (b : Bytes) : IpHdr where
  version := b.getD 0 0 / 16
  ihl := b.getD 0 0 % 16
  tos := b.getD 1 0
  totLen := UInt16.ofNat (BigEndian.val (field b 2 2))
  id := UInt16.ofNat (BigEndian.val (field b 4 2))
  fragOff := UInt16.ofNat (BigEndian.val (field b 6 2))
  ttl := b.getD 8 0
  protocol := b.getD 9 0
  check := UInt16.ofNat (BigEndian.val (field b 10 2))
  saddr := UInt32.ofNat (BigEndian.val (field b 12 4))
  daddr := UInt32.ofNat (BigEndian.val (field b 16 4))

def wire (ip : IpHdr) : Bytes :=
  [ip.version * 16 + ip.ihl, ip.tos] ++ BigEndian.bytes 2 ip.totLen.toNat ++
    BigEndian.bytes 2 ip.id.toNat ++ BigEndian.bytes 2 ip.fragOff.toNat ++ [ip.ttl, ip.protocol] ++
    BigEndian.bytes 2 ip.check.toNat ++ BigEndian.bytes 4 ip.saddr.toNat ++
    BigEndian.bytes 4 ip.daddr.toNat

def Fits (ip : IpHdr) : Prop := ip.version < 16 ∧ ip.ihl < 16

theorem ipHdrOf_fits (b : Bytes) : Fits (ipHdrOf b) := by
  have h := (b.getD 0 0).toNat_lt
  simp only [Fits, ipHdrOf, UInt8.lt_iff_toNat_lt, UInt8.toNat_div, UInt8.toNat_mod]
  change _ / 16 < 16 ∧ _ % 16 < 16
  omega

@[simp] theorem length_wire (ip : IpHdr) : (wire ip).length = 20 := by simp [wire]

/-- The words of a record, as `ipv4_csum` sums them. -/
def words (ip : IpHdr) : List ℕ :=
  [ip.version.toNat * 2 ^ 12 + ip.ihl.toNat * 2 ^ 8 + ip.tos.toNat, ip.totLen.toNat, ip.id.toNat,
    ip.fragOff.toNat, ip.ttl.toNat * 2 ^ 8 + ip.protocol.toNat, ip.check.toNat,
    ip.saddr.toNat / 2 ^ 16, ip.saddr.toNat % 2 ^ 16, ip.daddr.toNat / 2 ^ 16,
    ip.daddr.toNat % 2 ^ 16]

theorem val_two (a b : Byte) : BigEndian.val [a, b] = a.toNat * 256 + b.toNat := by
  simp [BigEndian.val]

theorem val_bytes_two (w : UInt16) :
    BigEndian.val [UInt8.ofNat (w.toNat / 256), UInt8.ofNat w.toNat] = w.toNat := by
  have hw := w.toNat_lt
  rw [val_two, UInt8.toNat_ofNat', UInt8.toNat_ofNat']
  omega

theorem val_bytes_high (w : UInt32) :
    BigEndian.val [UInt8.ofNat (w.toNat / 16777216), UInt8.ofNat (w.toNat / 65536)] =
      w.toNat / 2 ^ 16 := by
  have hw := w.toNat_lt
  rw [val_two, UInt8.toNat_ofNat', UInt8.toNat_ofNat']
  omega

theorem val_bytes_low (w : UInt32) :
    BigEndian.val [UInt8.ofNat (w.toNat / 256), UInt8.ofNat w.toNat] = w.toNat % 2 ^ 16 := by
  have hw := w.toNat_lt
  rw [val_two, UInt8.toNat_ofNat', UInt8.toNat_ofNat']
  omega

theorem val_first (h : Fits ip) :
    BigEndian.val [ip.version * 16 + ip.ihl, ip.tos] =
      ip.version.toNat * 2 ^ 12 + ip.ihl.toNat * 2 ^ 8 + ip.tos.toNat := by
  have hversion : ip.version.toNat < 16 := UInt8.lt_iff_toNat_lt.mp h.1
  have hihl : ip.ihl.toNat < 16 := UInt8.lt_iff_toNat_lt.mp h.2
  rw [val_two, UInt8.toNat_add, UInt8.toNat_mul]
  change (_ * 16 % 2 ^ 8 + _) % 2 ^ 8 * 256 + _ = _
  omega

theorem wireWords_wire (h : Fits ip) : wireWords (wire ip) = words ip := by
  have hten : List.range 10 = [0, 1, 2, 3, 4, 5, 6, 7, 8, 9] := rfl
  unfold wireWords wire
  rw [hten]
  simp only [BigEndian.bytes, field, List.map_cons, List.map_nil, List.cons_append,
    List.nil_append, Nat.reduceMul, Nat.reducePow, Nat.div_one, List.drop_succ_cons,
    List.drop_zero, List.take_succ_cons, List.take_zero]
  rw [val_first h, val_two ip.ttl, val_bytes_two, val_bytes_two, val_bytes_two, val_bytes_two,
    val_bytes_high, val_bytes_high, val_bytes_low, val_bytes_low]
  rfl

theorem words_lt (h : Fits ip) : ∀ w ∈ words ip, w < 2 ^ 16 := by
  rw [← wireWords_wire h]
  exact wireWords_lt (length_wire ip)

theorem toNat_ipv4Csum (h : Fits ip) :
    (ipv4Csum ip).toNat = 65535 - residue (words ip).sum := by
  have hsum : (words ip).sum ≤ (words ip).length • 65535 := by
    apply List.sum_le_card_nsmul
    intro w hw
    exact Nat.le_of_lt_succ (words_lt h w hw)
  have hten : (words ip).length = 10 := rfl
  rw [hten, Nat.nsmul_eq_mul] at hsum
  have hdef : ipv4Csum ip = ~~~ UInt16.ofNat ((words ip).sum / 2 ^ 16 + (words ip).sum % 2 ^ 16 +
      ((words ip).sum / 2 ^ 16 + (words ip).sum % 2 ^ 16) / 2 ^ 16) := rfl
  have hsize : UInt16.size = 65536 := rfl
  rw [hdef, UInt16.toNat_not, UInt16.toNat_ofNat', two_folds (by omega), hsize]

theorem ipv4Csum_eq (h : Fits ip) :
    (checksum (hostWords (wire ip))).toNat = swap (ipv4Csum ip).toNat := by
  have hwire := sum_wireWords (length_wire ip)
  rw [wireWords_wire h, sum_eq_residue _ (words_lt h)] at hwire
  have hhost := sum_eq_residue _ (hostWords_lt (wire ip))
  have hle := residue_le ((hostWords (wire ip)).map UInt16.toNat).sum
  rw [← hhost] at hle
  rw [toNat_checksum _ (by rw [length_hostWords]; omega), toNat_ipv4Csum h, hwire]
  unfold swap
  omega

theorem checked_valid (h : Fits ip) (hzero : ip.check = 0) :
    Valid (wire { ip with check := ipv4Csum ip }) := by
  have hfits : Fits { ip with check := ipv4Csum ip } := h
  refine ⟨length_wire _, ?_⟩
  rw [wireWords_wire hfits]
  apply sum_completed (words ip) (words_lt hfits)
  rw [← toNat_ipv4Csum h]
  simp only [words, hzero, List.sum_cons, List.sum_nil, UInt16.toNat_zero]
  omega

theorem transmit_valid {f : XdpFrame} {eth : EthHdr} {udp : UdpHdr} {partner : EpVal}
    {srcMac dstMac : Bytes} {srcIp : UInt32} (macs : EpKey → Option Bytes) (h : Fits ip) :
    ∃ sent, (xdpTransmit f eth ip udp partner srcMac dstMac srcIp macs).frame.ip = some sent ∧
      Valid (wire sent) :=
  ⟨_, rfl, checked_valid h rfl⟩

theorem wgRelayXdp_valid (x : WgXdpCtx) (nics : NicMaps) (ktime : ℕ) {f : XdpFrame} {b : Bytes}
    (hip : f.ip = some (ipHdrOf b)) (hpass : (wgRelayXdp x nics ktime f).action ≠ .pass)
    (hdrop : (wgRelayXdp x nics ktime f).action ≠ .drop) :
    ∃ sent, (wgRelayXdp x nics ktime f).frame.ip = some sent ∧ Valid (wire sent) := by
  have ho := Intact.outcome x nics ktime f
  generalize wgRelayXdp x nics ktime f = o at *
  cases ho with
  | early _ _ haction =>
    rcases haction with hp | hd
    · exact absurd hp hpass
    · exact absurd hd hdrop
  | between _ _ _ _ hp _ => exact absurd hp hpass
  | @sent eth ip udp _ _ _ _ macs hm _ =>
    have hsome := (Intact.headers_some hm.headers).2.1
    rw [hip] at hsome
    apply transmit_valid macs
    rw [← Option.some.inj hsome]
    exact ipHdrOf_fits b

/-- The two folding steps give the one's complement sum of the ten words in both programs, and
every header they transmit sums to all ones. -/
theorem transmitted_headers_valid :
    (∀ frame : Bytes,
      ipChecksum frame = (checksum (hostWords (field frame ipHdr 20))).toNat ∧
      ipChecksum frame = 65535 - sum ((hostWords (field frame ipHdr 20)).map UInt16.toNat)) ∧
    (∀ ip : IpHdr, Fits ip →
      swap (ipv4Csum ip).toNat = (checksum (hostWords (wire ip))).toNat ∧
      (ipv4Csum ip).toNat = 65535 - sum (wireWords (wire ip))) ∧
    (∀ (x : WgXdpCtx) (nics : NicMaps) (ktime : ℕ) (f : XdpFrame) (b : Bytes), b.length = 20 →
      f.ip = some (ipHdrOf b) → (wgRelayXdp x nics ktime f).action = .tx →
      ∃ sent, (wgRelayXdp x nics ktime f).frame.ip = some sent ∧ Valid (wire sent)) ∧
    (∀ (adjustTail : AdjustTail) (frame out : Bytes) (stats : List Stat),
      handleStun adjustTail frame = (stats, .tx out) → Valid (field out ipHdr 20)) ∧
    (∀ (maps : XdpMaps) (frame out : Bytes) (stats : List ProgramStat),
      handleChannel maps frame = (stats, .tx out) → Valid (field out ipHdr 20)) := by
  refine ⟨?_, ?_, ?_, ?_, ?_⟩
  · intro frame
    have hten := length_hostWords (field frame ipHdr 20)
    rw [ipChecksum_eq]
    exact ⟨rfl, toNat_checksum _ (by omega)⟩
  · intro ip h
    rw [ipv4Csum_eq h, toNat_ipv4Csum h, wireWords_wire h, sum_eq_residue _ (words_lt h)]
    exact ⟨rfl, rfl⟩
  · intro x nics ktime f b _ hip htx
    apply wgRelayXdp_valid x nics ktime hip
    · simp [htx]
    · simp [htx]
  · intro adjustTail frame out stats h
    exact handleStun_valid h
  · intro maps frame out stats h
    exact handleChannel_valid h

/-- A transport message to a partner on the same link, in a header of bytes. -/
def transport : XdpFrame :=
  { Intact.message 40 (4 :: List.replicate 31 0) with
    ip := some (ipHdrOf [0x45, 0, 0, 60, 0x1c, 0x46, 0x40, 0, 64, 17, 0xff, 0xff, 10, 0, 0, 1, 10, 0,
      0, 2]) }

def oneChannel : XdpMaps where
  turnChannels key :=
    if key = ⟨0x4001, [10, 0, 0, 1], [1, 2]⟩ then
      some ⟨⟨[10, 0, 0, 9], rfl⟩, ⟨[9, 9], rfl⟩, ⟨[2, 0, 0, 0, 0, 9], rfl⟩, ⟨[10, 0, 0, 2], rfl⟩,
        ⟨[13, 150], rfl⟩⟩
    else none
  stunPort := some 3478

def channelData : Bytes :=
  List.replicate 12 7 ++ [8, 0] ++ [0x45, 0, 0, 36] ++ [0, 0, 0, 0, 3, 17, 0, 0] ++
    [10, 0, 0, 1] ++ [10, 0, 0, 2] ++ [1, 2] ++ [13, 150] ++ [0, 16, 0, 0] ++
    [0x40, 1, 0, 4, 1, 2, 3, 4]

def forwardedData : Bytes :=
  [2, 0, 0, 0, 0, 9] ++ List.replicate 6 7 ++ [8, 0] ++ [0x45, 0, 0, 36] ++
    [0, 0, 0, 0, 64, 17, 0x66, 0xBF] ++ [10, 0, 0, 2] ++ [10, 0, 0, 9] ++ [13, 150] ++ [9, 9] ++
    [0, 16, 0, 0] ++ [0x40, 1, 0, 4, 1, 2, 3, 4]

theorem transmitted_three :
    (∃ sent, (wgRelayXdp (Intact.partnerMaps 1) Intact.addressless 0 transport).frame.ip = some sent ∧
      Valid (wire sent)) ∧
    Valid (field bindingAnswer ipHdr 20) ∧ Valid (field forwardedData ipHdr 20) := by
  obtain ⟨-, -, hrelay, hstun, hchannel⟩ := transmitted_headers_valid
  refine ⟨hrelay _ _ _ transport _ rfl rfl ?_, hstun zeroFill _ _ _ handleStun_bindingRequest,
    hchannel oneChannel channelData _ [.channelForwards] ?_⟩
  · decide
  · decide

end HyperDerp.HeaderSum
