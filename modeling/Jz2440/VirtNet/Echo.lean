import Jz2440.Common.Checksum
import Jz2440.Common.Memory

/-!
# The virtual network device

Model of `emulator_rx_packet` in `hard_driver/drivers_and_test/16th_virt_net/4th/virt_net.c`. The
device answers every frame that is sent with the reply to a ping: it swaps the addresses,
changes the ICMP type and passes the frame up again.

The buffer of the frame is a memory whose address 0 is `skb->data`. The Ethernet header takes
14 bytes, `struct iphdr` 20 bytes; a header with options is longer. `ip_fast_csum` is taken as
correct. The metadata and the statistics are left out.

* `emulatorRxPacket_data`: the frame that is passed up, byte by byte.
* `header_sum_of_reply`: its header checksum is correct for every header length.
* `echoes_iff`: it is the reply to the request iff the header has no options. The type is
  written behind a header without options, wherever the header ends.
-/

namespace Jz2440.VirtNet

open Jz2440.Common

/-! ## The code -/

/-- The buffer of an `sk_buff`, from `data` on, and `len`. -/
structure SkBuff where
  data : Mem
  len : ℕ

/-- The bytes of the frame. -/
def SkBuff.frame (skb : SkBuff) : List Byte := (List.range skb.len).map skb.data

/-- `sizeof(struct ethhdr)` and `sizeof(struct iphdr)`. -/
def sizeofEthhdr : ℕ := 14
def sizeofIphdr : ℕ := 20

/-- `ih->ihl`, the low half of the first byte of the IP header. -/
def ihl (data : Mem) : ℕ := (data sizeofEthhdr).toNat % 16

/-- The offsets of `ih->check`, `ih->saddr` and `ih->daddr` in the frame. -/
def checkOff : ℕ := sizeofEthhdr + 10
def saddrOff : ℕ := sizeofEthhdr + 12
def daddrOff : ℕ := sizeofEthhdr + 16

/-- The 16-bit words of an IP header of `4 * ihl` bytes. -/
def headerWords (data : Mem) (ihl : ℕ) : List (BitVec 16) :=
  (List.range (2 * ihl)).map fun k => loadHalf data (sizeofEthhdr + 2 * k)

/-- `ip_fast_csum((unsigned char *)ih, ihl)`. -/
def ipFastCsum (data : Mem) (ihl : ℕ) : BitVec 16 := ~~~onesSum (headerWords data ihl)

/-- The MAC addresses are swapped (virt_net.c:44-47). -/
def swapMac (data : Mem) : Mem :=
  let tmpDevAddr := data
  let data := storeRange data 0 6 fun k => data (6 + k)
  storeRange data 6 6 tmpDevAddr

/-- The IP addresses are swapped (virt_net.c:51-56). -/
def swapIp (data : Mem) : Mem :=
  let tmp := loadWord data saddrOff
  let data := storeWord data saddrOff (loadWord data daddrOff)
  storeWord data daddrOff tmp

/-- `*type = 0` (virt_net.c:60-63). -/
def setType (data : Mem) : Mem := Function.update data (sizeofEthhdr + sizeofIphdr) 0

/-- `ih->check` is computed anew (virt_net.c:65-66). -/
def setCheck (data : Mem) : Mem :=
  let data := storeHalf data checkOff 0
  storeHalf data checkOff (ipFastCsum data (ihl data))

/-- `emulator_rx_packet` (virt_net.c:31-82): `rx_skb`, which is passed up. `room` is the new
    buffer before it is filled; its data start after 2 bytes. -/
def emulatorRxPacket (room : Mem) (skb : SkBuff) : SkBuff :=
  let data := setCheck (setType (swapIp (swapMac skb.data)))
  let rx := storeRange room 2 skb.len data
  ⟨fun k => rx (2 + k), skb.len⟩

/-! ## The reply -/

/-- An ICMP echo request in an IPv4 packet in an Ethernet frame. -/
structure EchoRequest (skb : SkBuff) : Prop where
  etherType : skb.data 12 = 0x08 ∧ skb.data 13 = 0x00
  version : (skb.data 14).toNat / 16 = 4
  headerLength : 5 ≤ ihl skb.data
  protocol : skb.data 23 = 1
  icmpType : skb.data (14 + 4 * ihl skb.data) = 8
  icmpCode : skb.data (14 + 4 * ihl skb.data + 1) = 0
  complete : 14 + 4 * ihl skb.data + 8 ≤ skb.len

/-- The reply to a request, with a checksum of 0. -/
def unsummedReply (data : Mem) : Mem := fun i =>
  if i < 6 then data (i + 6)
  else if i < 12 then data (i - 6)
  else if i = 24 ∨ i = 25 then 0
  else if 26 ≤ i ∧ i < 30 then data (i + 4)
  else if 30 ≤ i ∧ i < 34 then data (i - 4)
  else if i = 14 + 4 * ihl data then 0
  else data i

/-- The reply to a request: source and destination are swapped, the ICMP type is 0, and the
    header checksum is that of the new header. Every other byte is as in the request. -/
def echoReply (data : Mem) : Mem :=
  storeHalf (unsummedReply data) 24 (ipFastCsum (unsummedReply data) (ihl data))

/-- The device passes up the reply to the frame. -/
def Echoes (room : Mem) (skb : SkBuff) : Prop :=
  (emulatorRxPacket room skb).frame = (List.range skb.len).map (echoReply skb.data)

/-! ## The frame that is passed up -/

/-- The frame before the checksum is computed. -/
def unsummed (data : Mem) : Mem := storeHalf (setType (swapIp (swapMac data))) checkOff 0

theorem swapMac_apply (data : Mem) (i : ℕ) : swapMac data i =
    if i < 6 then data (i + 6) else if i < 12 then data (i - 6) else data i := by
  unfold swapMac storeRange
  obtain hi | hi | hi : i < 6 ∨ (6 ≤ i ∧ i < 12) ∨ 12 ≤ i := by omega
  · simp (disch := omega) only [if_pos, if_neg]
    rw [Nat.sub_zero, Nat.add_comm]
  · simp (disch := omega) only [if_pos, if_neg]
  · simp (disch := omega) only [if_neg]

/-- The IP addresses lie behind the MAC addresses. -/
theorem swapIp_apply (data : Mem) (i : ℕ) : swapIp data i =
    if 26 ≤ i ∧ i < 30 then data (i + 4)
    else if 30 ≤ i ∧ i < 34 then data (i - 4)
    else data i := by
  rw [swapIp, storeWord_loadWord, storeWord_loadWord]
  unfold storeRange saddrOff daddrOff sizeofEthhdr
  obtain hi | hi | hi : (26 ≤ i ∧ i < 30) ∨ (30 ≤ i ∧ i < 34) ∨ ¬ (26 ≤ i ∧ i < 34) := by omega
  · simp (disch := omega) only [if_pos, if_neg]
    congr 1
    omega
  · simp (disch := omega) only [if_pos, if_neg]
    congr 1
    omega
  · simp (disch := omega) only [if_neg]

/-- All changes but the checksum, byte by byte. -/
theorem unsummed_apply (data : Mem) (i : ℕ) : unsummed data i =
    if i < 6 then data (i + 6)
    else if i < 12 then data (i - 6)
    else if i = 24 ∨ i = 25 then 0
    else if 26 ≤ i ∧ i < 30 then data (i + 4)
    else if 30 ≤ i ∧ i < 34 then data (i - 4)
    else if i = 34 then 0
    else data i := by
  have hzero : ∀ k, (0 : BitVec 16).extractLsb' (8 * k) 8 = 0 := fun k => by simp
  unfold unsummed storeHalf setType storeRange checkOff sizeofEthhdr sizeofIphdr
  simp only [hzero, Function.update_apply, swapIp_apply, swapMac_apply]
  obtain hi | hi | hi | hi | hi | hi | hi : i < 6 ∨ (6 ≤ i ∧ i < 12) ∨ (24 ≤ i ∧ i < 26) ∨
      (26 ≤ i ∧ i < 30) ∨ (30 ≤ i ∧ i < 34) ∨ i = 34 ∨
      (12 ≤ i ∧ ¬ (24 ≤ i ∧ i < 35)) := by omega
  all_goals simp (disch := omega) only [if_pos, if_neg]

theorem ihl_unsummed (data : Mem) : ihl (unsummed data) = ihl data := by
  unfold ihl sizeofEthhdr
  rw [unsummed_apply]
  rfl

theorem emulatorRxPacket_data (room : Mem) (skb : SkBuff) {i : ℕ} (hi : i < skb.len) :
    (emulatorRxPacket room skb).data i =
      storeHalf (unsummed skb.data) 24 (ipFastCsum (unsummed skb.data) (ihl skb.data)) i := by
  rw [← ihl_unsummed]
  exact storeRange_at room 2 _ hi

/-- The device passes up the reply if the bytes are those of the reply. -/
theorem echoes_iff_forall (room : Mem) (skb : SkBuff) :
    Echoes room skb ↔ ∀ i < skb.len,
      storeHalf (unsummed skb.data) 24 (ipFastCsum (unsummed skb.data) (ihl skb.data)) i =
        echoReply skb.data i := by
  have hmem : ∀ i, i ∈ List.range skb.len ↔ i < skb.len := fun i => List.mem_range
  unfold Echoes SkBuff.frame
  rw [show (emulatorRxPacket room skb).len = skb.len from rfl, List.map_inj_left]
  simp only [hmem]
  constructor
  · intro h i hi
    rw [← emulatorRxPacket_data room skb hi]
    exact h i hi
  · intro h i hi
    rw [emulatorRxPacket_data room skb hi]
    exact h i hi

/-- Without options the type is where the code writes it. -/
theorem unsummed_eq_reply {data : Mem} (h : ihl data = 5) : unsummed data = unsummedReply data := by
  funext i
  rw [unsummed_apply, unsummedReply, h]

/-- With options the type of the request stays. -/
theorem unsummed_type {data : Mem} (h : 5 < ihl data) :
    unsummed data (14 + 4 * ihl data) = data (14 + 4 * ihl data) := by
  rw [unsummed_apply]
  simp (disch := omega) only [if_neg]

theorem echoReply_type {data : Mem} (h : 5 ≤ ihl data) :
    echoReply data (14 + 4 * ihl data) = 0 := by
  rw [echoReply, storeHalf, storeRange_of_disjoint _ _ (by omega), unsummedReply]
  simp (disch := omega) only [if_neg, if_true]

/-! ## The header checksum -/

/-- The words before the checksum, the checksum and the words after it. -/
theorem headerWords_split (data : Mem) {ihl : ℕ} (h : 5 ≤ ihl) :
    headerWords data ihl = (List.range 5).map (fun k => loadHalf data (14 + 2 * k)) ++
      loadHalf data 24 :: (List.range (2 * ihl - 6)).map fun k => loadHalf data (26 + 2 * k) := by
  obtain ⟨rest, hcount⟩ : ∃ rest, 2 * ihl = 6 + rest := ⟨2 * ihl - 6, by omega⟩
  rw [headerWords, hcount, Nat.add_sub_cancel_left, List.range_add, List.map_append, List.map_map,
    List.range_succ, List.map_append, List.append_assoc]
  have hpost : (List.range rest).map
      ((fun k => loadHalf data (sizeofEthhdr + 2 * k)) ∘ fun x => 6 + x) =
        (List.range rest).map fun k => loadHalf data (26 + 2 * k) := by
    refine List.map_congr_left fun k _ => ?_
    show loadHalf data (14 + 2 * (6 + k)) = loadHalf data (26 + 2 * k)
    congr 1
    omega
  rw [hpost]
  rfl

/-- The checksum is stored where there was a zero. -/
theorem onesSum_header {data : Mem} {ihl : ℕ} (h : 5 ≤ ihl) (hzero : loadHalf data 24 = 0) :
    onesSum (headerWords (storeHalf data 24 (ipFastCsum data ihl)) ihl) = 0xffff := by
  have hpre : ∀ k ∈ List.range 5, loadHalf (storeHalf data 24 (ipFastCsum data ihl)) (14 + 2 * k) =
      loadHalf data (14 + 2 * k) := by
    intro k hk
    rw [List.mem_range] at hk
    exact loadHalf_storeHalf_of_disjoint _ _ (by omega)
  have hpost : ∀ k ∈ List.range (2 * ihl - 6),
      loadHalf (storeHalf data 24 (ipFastCsum data ihl)) (26 + 2 * k) =
        loadHalf data (26 + 2 * k) := by
    intro k _
    exact loadHalf_storeHalf_of_disjoint _ _ (by omega)
  rw [headerWords_split _ h, List.map_congr_left hpre, List.map_congr_left hpost,
    loadHalf_storeHalf_self, ipFastCsum, headerWords_split data h, hzero]
  exact onesSum_checksum _ _

theorem headerWords_congr {data data' : Mem} {ihl len : ℕ} (hlen : 14 + 4 * ihl ≤ len)
    (h : ∀ i < len, data i = data' i) : headerWords data ihl = headerWords data' ihl := by
  refine List.map_congr_left fun k hk => loadHalf_congr fun j hj => h _ ?_
  rw [List.mem_range] at hk
  show 14 + 2 * k + j < len
  omega

/-! ## Results -/

/-- The header checksum of the frame that is passed up is correct, with and without options. -/
theorem header_sum_of_reply (room : Mem) {skb : SkBuff} (h : EchoRequest skb) :
    onesSum (headerWords (emulatorRxPacket room skb).data (ihl skb.data)) = 0xffff := by
  have hlen := h.complete
  have hzero : loadHalf (unsummed skb.data) 24 = 0 := loadHalf_storeHalf_self _ _ 0
  rw [headerWords_congr (by omega) fun i hi => emulatorRxPacket_data room skb hi]
  exact onesSum_header h.headerLength hzero

/-- For every echo request, the device passes up the reply iff the IP header has no options. -/
theorem echoes_iff (room : Mem) (skb : SkBuff) (h : EchoRequest skb) :
    Echoes room skb ↔ ihl skb.data = 5 := by
  have hihl := h.headerLength
  have hlen := h.complete
  rw [echoes_iff_forall]
  constructor
  · intro hreply
    by_contra hne
    have htype := hreply (14 + 4 * ihl skb.data) (by omega)
    rw [echoReply_type hihl, storeHalf, storeRange_of_disjoint _ _ (by omega),
      unsummed_type (by omega), h.icmpType] at htype
    exact absurd htype (by decide)
  · intro hfive i _
    rw [echoReply, unsummed_eq_reply hfive]

/-- A ping of 8 bytes from 10.0.0.1 to 10.0.0.2 whose header has `words` words. -/
def ping (words : ℕ) : SkBuff where
  data := fun i =>
    if i = 14 + 4 * words then 8
    else if 34 ≤ i then if i < 14 + 4 * words then 1 else 0
    else [2, 2, 2, 2, 2, 2, 1, 1, 1, 1, 1, 1, 8, 0, BitVec.ofNat 8 (0x40 + words), 0, 0, 28, 0, 0,
      0, 0, 64, 1, 0, 0, 10, 0, 0, 1, 10, 0, 0, 2].getD i 0
  len := 22 + 4 * words

theorem echoes_iff_ping : EchoRequest (ping 5) ∧ Echoes (fun _ => 0) (ping 5) := by
  have hping : EchoRequest (ping 5) := by
    constructor <;> decide
  exact ⟨hping, (echoes_iff (fun _ => 0) (ping 5) hping).mpr (by decide)⟩

/-- A ping with one word of options is passed up as a ping again, with an option overwritten. -/
theorem not_echoes_options :
    EchoRequest (ping 6) ∧ (emulatorRxPacket (fun _ => 0) (ping 6)).data 38 = 8 ∧
      (emulatorRxPacket (fun _ => 0) (ping 6)).data 34 = 0 ∧ ¬ Echoes (fun _ => 0) (ping 6) := by
  have hping : EchoRequest (ping 6) := by
    constructor <;> decide
  have htype : (emulatorRxPacket (fun _ => 0) (ping 6)).data 38 = 8 := by decide +kernel
  refine ⟨hping, htype, by decide +kernel, fun hechoes => ?_⟩
  have hreply := (echoes_iff_forall _ _).mp hechoes 38 (by decide)
  rw [← emulatorRxPacket_data (fun _ => 0) (ping 6) (by decide), htype] at hreply
  have htype : echoReply (ping 6).data (14 + 4 * ihl (ping 6).data) = 0 :=
    echoReply_type (by decide)
  exact absurd (hreply.trans htype) (by decide)

end Jz2440.VirtNet
