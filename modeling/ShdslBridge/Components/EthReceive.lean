import ShdslBridge.Components.EthInput
import ShdslBridge.Lib.Masks

/-! # Received Ethernet frames

The way of a frame from the receive descriptor to `uip_buf`, and of the reply out of it: `rt_stm32_eth_rx` copies the
frame to a buffer of `pbuf_alloc`, and `eth_input` reads its type there and copies it to `uip_buf` if it is an IP or an
ARP frame. The length comes from the descriptor. It is reduced by 4 without a test, `pbuf_alloc` takes its lowest 16
bits, and the first copy takes all of it. What uIP replies is copied to a block of 1500 bytes, however long it is.

The core of uIP is a parameter, as in `EthInput`, where the ownership of the buffers is.
-/

namespace Uip

/-! ## The driver -/

def ethDmaRxDescOwn : BitVec 32 := 0x80000000
def ethDmaRxDescFl : BitVec 32 := 0x3fff0000
def ethDmaRxDescEs : BitVec 32 := 0x00008000
def ethDmaRxDescFs : BitVec 32 := 0x00000200
def ethDmaRxDescLs : BitVec 32 := 0x00000100

/-- `LWIP_MEM_ALIGN` and `LWIP_MEM_ALIGN_SIZE`, for an `RT_ALIGN_SIZE` of 8. -/
def memAlign (x : BitVec 32) : BitVec 32 := (x + 8 - 1) &&& ~~~(8 - 1)

/-- `SIZEOF_STRUCT_PBUF`: a pointer and a length of 16 bits. -/
def sizeofStructPbuf : BitVec 32 := memAlign 8

/-- `sizeof(uip_buf)`. -/
def uipBufSize : ℕ := 1500 + 20

structure PbufBlock where
  address : BitVec 32
  size : BitVec 32
  p : Pbuf

/-- `pbuf_alloc`. `malloc` is the answer of `rt_malloc` to a size. -/
def pbufAlloc (malloc : BitVec 32 → Option (BitVec 32)) (length : BitVec 16) : Option PbufBlock :=
  let offset : BitVec 32 := 16
  let size := memAlign (sizeofStructPbuf + offset) + memAlign (length.setWidth 32)
  (malloc size).map fun address =>
    { address
      size
      p := { payload := (memAlign (address + sizeofStructPbuf + offset)).toNat, len := length } }

/-- The accesses on the way of a frame: stores to memory, loads through `p->payload`, stores to `uip_buf` and loads
from it, and stores through `pdata`. -/
inductive ReceiveAccess
  | store (address : ℕ)
  | load (address : ℕ)
  | storeUip (index : ℕ)
  | loadUip (index : ℕ)
  | storeReply (index : ℕ)

/-- `p->payload` and `p->len`. -/
def headerStores (address : BitVec 32) : List ReceiveAccess := (List.range 6).map fun i => .store (address.toNat + i)

/-- The frame that is copied byte by byte. Addresses wrap around. -/
def copyFrame (memory frame : ℕ → BitVec 8) (payload framelength : ℕ) : ℕ → BitVec 8 :=
  (List.range framelength).foldl (fun memory i => Function.update memory ((payload + i) % 2 ^ 32) (frame i)) memory

/-- The descriptor holds a whole frame without errors that belongs to the CPU. -/
def Accepted (status : BitVec 32) : Prop :=
  status &&& ethDmaRxDescOwn = 0 ∧ status &&& ethDmaRxDescEs = 0 ∧ status &&& ethDmaRxDescLs ≠ 0 ∧
    status &&& ethDmaRxDescFs ≠ 0

instance (status : BitVec 32) : Decidable (Accepted status) := inferInstanceAs (Decidable (_ ∧ _))

def frameLength (status : BitVec 32) : BitVec 32 := (status &&& ethDmaRxDescFl) >>> 16

/-- `rt_stm32_eth_rx`: the pbuf, the memory and the stores to it. -/
def rtStm32EthRx (malloc : BitVec 32 → Option (BitVec 32)) (frame : ℕ → BitVec 8) (status : BitVec 32)
    (memory : ℕ → BitVec 8) : Option PbufBlock × (ℕ → BitVec 8) × List ReceiveAccess :=
  if Accepted status then
    let framelength := frameLength status - 4
    match pbufAlloc malloc (framelength.setWidth 16) with
    | none => (none, memory, [])
    | some block =>
      (some block, copyFrame memory frame block.p.payload framelength.toNat,
        headerStores block.address ++ (List.range framelength.toNat).map fun i => .store ((block.p.payload + i) % 2 ^ 32))
  else (none, memory, [])

/-! ## The input -/

def frameType (memory : ℕ → BitVec 8) (payload : ℕ) : BitVec 16 := memory (payload + 12) ++ memory (payload + 13)

/-- The copy of a frame into `uip_buf`. -/
def loadAccesses (p : Pbuf) : List ReceiveAccess :=
  (List.range p.len.toNat).flatMap fun i => [.load (p.payload + i), .storeUip i]

/-- The size of the block at `pdata`. -/
def pdataSize : ℕ := 1500

section Input

variable {γ : Type*} (core : Core γ) (replyMemory : Bool) (frame : ℕ → BitVec 8) (status : BitVec 32)

/-- uIP with a frame in `uip_buf`. -/
def loaded (p : Pbuf) (memory : ℕ → BitVec 8) (uip : State γ) : State γ := (EthState.received p memory uip 0).load.uip

/-- The copy of the reply to a block of its own, if there is one, which the buffer points to from then on. -/
def replyAccesses (block : PbufBlock) (uip : State γ) : List ReceiveAccess :=
  if replyMemory then
    ((List.range uip.uipLen.toNat).flatMap fun i => [.loadUip i, .storeReply i]) ++ headerStores block.address
  else []

/-- `tcpip_input`. -/
def tcpipInputAccesses (block : PbufBlock) (uip : State γ) : List ReceiveAccess :=
  if uip.uipLen ≠ 0 then replyAccesses replyMemory block (core.uipArpOut uip) else []

/-- `etharp_arp_input` behind the copy of the frame. -/
def etharpArpInputAccesses (block : PbufBlock) (uip : State γ) : List ReceiveAccess :=
  if (core.uipArpArpin uip).uipLen ≠ 0 then replyAccesses replyMemory block (core.uipArpArpin uip) else []

/-- `eth_input`. -/
def ethInputAccesses (block : PbufBlock) (memory : ℕ → BitVec 8) (uip : State γ) : List ReceiveAccess :=
  [.load (block.p.payload + 12), .load (block.p.payload + 13)] ++
    if frameType memory block.p.payload = ethtypeIp then
      loadAccesses block.p ++ (headerStores block.address ++
        tcpipInputAccesses core replyMemory block (core.uipInput (core.uipArpIpin (loaded block.p memory uip))))
    else if frameType memory block.p.payload = ethtypeArp then
      loadAccesses block.p ++ etharpArpInputAccesses core replyMemory block (loaded block.p memory uip)
    else []

/-- The pbuf and the accesses of a frame, if there is one. `malloc` is asked for the pbuf, and `replyMemory` tells
whether there is memory for the reply. -/
def receiveFrame (malloc : BitVec 32 → Option (BitVec 32)) (memory : ℕ → BitVec 8) (uip : State γ) :
    Option (PbufBlock × List ReceiveAccess) :=
  match rtStm32EthRx malloc frame status memory with
  | (none, _, _) => none
  | (some block, memory, stores) => some (block, stores ++ ethInputAccesses core replyMemory block memory uip)

/-- The access stays in the block of the pbuf, in its payload, in `uip_buf`, or in the block at `pdata`. -/
def ReceiveAccess.Inside (block : PbufBlock) : ReceiveAccess → Prop
  | .store address => block.address.toNat ≤ address ∧ address < block.address.toNat + block.size.toNat
  | .load address => block.p.payload ≤ address ∧ address < block.p.payload + block.p.len.toNat
  | .storeUip index | .loadUip index => index < uipBufSize
  | .storeReply index => index < pdataSize

/-- All accesses on the way of a frame stay in bounds. -/
def ReceiveBounded (malloc : BitVec 32 → Option (BitVec 32)) (memory : ℕ → BitVec 8) (uip : State γ) : Prop :=
  ∀ block accesses, receiveFrame core replyMemory frame status malloc memory uip = some (block, accesses) →
    ∀ access ∈ accesses, access.Inside block

/-- The length of the reply to a frame of a type that is in `uip_buf`; an IP packet has got its Ethernet header. -/
def replyLength (type : BitVec 16) (uip : State γ) : ℕ :=
  if type = ethtypeIp then
    let uip := core.uipInput (core.uipArpIpin uip)
    if uip.uipLen ≠ 0 then (core.uipArpOut uip).uipLen.toNat else 0
  else (core.uipArpArpin uip).uipLen.toNat

end Input

/-- Blocks of `rt_malloc` are aligned, not at NULL, and below the end of the address space. -/
def MallocAligned (malloc : BitVec 32 → Option (BitVec 32)) : Prop :=
  ∀ size address, malloc size = some address →
    address.toNat % 8 = 0 ∧ address ≠ 0 ∧ address.toNat + size.toNat < 2 ^ 32

section

variable {γ : Type*} {core : Core γ} {replyMemory : Bool} {malloc : BitVec 32 → Option (BitVec 32)}
  {memory frame : ℕ → BitVec 8} {status : BitVec 32} {uip : State γ}

theorem toNat_memAlign {x : BitVec 32} (small : x.toNat + 7 < 2 ^ 32) :
    (memAlign x).toNat = (x.toNat + 7) / 8 * 8 := by
  have mask : ~~~(8 - 1 : BitVec 32) = ~~~ Masks.low 32 3 := by decide
  have added : (x + 8 - 1).toNat = x.toNat + 7 := by
    rw [BitVec.toNat_sub, BitVec.toNat_add]
    simp
    omega
  rewrite [memAlign, mask, Masks.toNat_and_not_low (by decide), added]
  simp only [Nat.reducePow]

theorem frameLength_lt (status : BitVec 32) : (frameLength status).toNat < 2 ^ 14 := by
  have masked : (status &&& ethDmaRxDescFl).toNat ≤ 0x3fff0000 := Nat.and_le_right
  rw [frameLength, BitVec.toNat_ushiftRight, Nat.shiftRight_eq_div_pow]
  omega

theorem pbufAlloc_facts (aligned : MallocAligned malloc) {length : BitVec 16} {block : PbufBlock}
    (allocated : pbufAlloc malloc length = some block) :
    0 < block.address.toNat ∧ block.size.toNat = 24 + (length.toNat + 7) / 8 * 8 ∧
      block.address.toNat + block.size.toNat < 2 ^ 32 ∧ block.p.payload = block.address.toNat + 24 ∧
        block.p.len = length := by
  obtain ⟨address, answer, rfl⟩ := Option.map_eq_some_iff.mp allocated
  obtain ⟨multiple, pointer, below⟩ := aligned _ _ answer
  have positive : address.toNat ≠ 0 := fun zero => pointer (BitVec.eq_of_toNat_eq zero)
  have bound := length.isLt
  have wide : (length.setWidth 32).toNat = length.toNat := by
    rw [BitVec.toNat_setWidth]
    exact Nat.mod_eq_of_lt (by omega)
  have header : (memAlign (sizeofStructPbuf + 16)).toNat = 24 := by decide
  have rounded := toNat_memAlign (show (length.setWidth 32).toNat + 7 < 2 ^ 32 by omega)
  have size : (memAlign (sizeofStructPbuf + 16) + memAlign (length.setWidth 32)).toNat =
      24 + (length.toNat + 7) / 8 * 8 := by
    rw [BitVec.toNat_add, header, rounded, wide]
    exact Nat.mod_eq_of_lt (by omega)
  have place : (address + sizeofStructPbuf + 16).toNat = address.toNat + 24 := by
    have struct : sizeofStructPbuf.toNat = 8 := by decide
    rw [BitVec.toNat_add, BitVec.toNat_add, struct]
    simp
    omega
  have payload := toNat_memAlign (show (address + sizeofStructPbuf + 16).toNat + 7 < 2 ^ 32 by omega)
  rw [place] at payload
  refine ⟨Nat.pos_of_ne_zero positive, size, below, ?_, rfl⟩
  change (memAlign (address + sizeofStructPbuf + 16)).toNat = address.toNat + 24
  omega

def frameAccesses (core : Core γ) (replyMemory : Bool) (block : PbufBlock) (memory frame : ℕ → BitVec 8) (uip : State γ)
    (framelength : ℕ) : List ReceiveAccess :=
  headerStores block.address ++ ((List.range framelength).map fun i => .store ((block.p.payload + i) % 2 ^ 32)) ++
    ethInputAccesses core replyMemory block (copyFrame memory frame block.p.payload framelength) uip

theorem receiveBounded_iff_of_allocated (accepted : Accepted status) {block : PbufBlock}
    (allocated : pbufAlloc malloc ((frameLength status - 4).setWidth 16) = some block) :
    ReceiveBounded core replyMemory frame status malloc memory uip ↔
      ∀ access ∈ frameAccesses core replyMemory block memory frame uip (frameLength status - 4).toNat,
        access.Inside block := by
  have received : receiveFrame core replyMemory frame status malloc memory uip =
      some (block, frameAccesses core replyMemory block memory frame uip (frameLength status - 4).toNat) := by
    rw [receiveFrame, rtStm32EthRx, if_pos accepted]
    dsimp only
    rw [allocated]
    rfl
  rw [ReceiveBounded, received]
  constructor
  · exact fun all => all _ _ rfl
  · intro all other accesses same
    obtain ⟨rfl, rfl⟩ := Prod.mk.inj (Option.some.inj same)
    exact all

theorem copyFrame_inside {payload framelength : ℕ} (below : payload + framelength ≤ 2 ^ 32) {i : ℕ}
    (inside : i < framelength) : copyFrame memory frame payload framelength (payload + i) = frame i := by
  rw [copyFrame]
  induction framelength with
  | zero => exact absurd inside (Nat.not_lt_zero _)
  | succ framelength ih =>
    rw [List.range_succ, List.foldl_append, List.foldl_cons, List.foldl_nil, Nat.mod_eq_of_lt (by omega)]
    by_cases last : i = framelength
    · rw [last, Function.update_self]
    · rw [Function.update_of_ne (by omega)]
      exact ih (by omega) (by omega)

/-- uIP has got the frame. -/
theorem loaded_copyFrame {p : Pbuf} (below : p.payload + p.len.toNat ≤ 2 ^ 32) (uip : State γ) :
    loaded p (copyFrame memory frame p.payload p.len.toNat) uip = loaded { payload := 0, len := p.len } frame uip := by
  have cells : Memory.readAt (copyFrame memory frame p.payload p.len.toNat) p.payload p.len.toNat =
      Memory.readAt frame 0 p.len.toNat := by
    refine List.map_congr_left fun i member => ?_
    rw [copyFrame_inside below (List.mem_range.mp member), Nat.zero_add]
  simp only [loaded, EthState.load, EthState.use, EthState.received, cells]

section Accesses

variable {block : PbufBlock}

theorem headerStores_inside (size : 6 ≤ block.size.toNat) : ∀ access ∈ headerStores block.address, access.Inside block := by
  intro access member
  obtain ⟨i, low, rfl⟩ := List.mem_map.mp member
  exact ⟨Nat.le_add_right _ _, Nat.add_lt_add_left (Nat.lt_of_lt_of_le (List.mem_range.mp low) size) _⟩

theorem loadAccesses_inside_iff (long : 0 < block.p.len.toNat) :
    (∀ access ∈ loadAccesses block.p, access.Inside block) ↔ block.p.len.toNat ≤ uipBufSize := by
  constructor
  · intro all
    have last := all (.storeUip (block.p.len.toNat - 1)) (List.mem_flatMap.mpr
      ⟨block.p.len.toNat - 1, List.mem_range.mpr (Nat.sub_one_lt_of_lt long), by simp⟩)
    exact Nat.le_of_pred_lt last
  · intro fits access member
    obtain ⟨i, low, copied⟩ := List.mem_flatMap.mp member
    rw [List.mem_range] at low
    simp only [List.mem_cons, List.not_mem_nil, or_false] at copied
    rcases copied with rfl | rfl
    · exact ⟨Nat.le_add_right _ _, Nat.add_lt_add_left low _⟩
    · exact Nat.lt_of_lt_of_le low fits

/-- The copy of a reply stays in bounds exactly if it fits in the block at `pdata`. -/
theorem replyAccesses_inside_iff (size : 6 ≤ block.size.toNat) (uip : State γ) :
    (∀ access ∈ replyAccesses replyMemory block uip, access.Inside block) ↔
      (replyMemory = true → uip.uipLen.toNat ≤ pdataSize) := by
  rw [replyAccesses]
  split_ifs with enough
  · rw [List.forall_mem_append, and_iff_left (headerStores_inside size), iff_true_intro enough, true_imp_iff]
    constructor
    · intro all
      by_contra long
      have behind := all (.storeReply pdataSize) (List.mem_flatMap.mpr
        ⟨pdataSize, List.mem_range.mpr (Nat.lt_of_not_le long), by simp⟩)
      exact absurd behind (lt_irrefl pdataSize)
    · intro fits access member
      obtain ⟨i, low, copied⟩ := List.mem_flatMap.mp member
      rw [List.mem_range] at low
      have inside : i < pdataSize := Nat.lt_of_lt_of_le low fits
      simp only [List.mem_cons, List.not_mem_nil, or_false] at copied
      rcases copied with rfl | rfl
      · exact Nat.lt_of_lt_of_le inside (by decide)
      · exact inside
  · exact iff_of_true nofun fun some => absurd some enough

/-- What `eth_input` does with a frame that is long enough to have a type. -/
theorem ethInputAccesses_inside_iff (long : 14 ≤ block.p.len.toNat) (size : 6 ≤ block.size.toNat) :
    (∀ access ∈ ethInputAccesses core replyMemory block memory uip, access.Inside block) ↔
      (frameType memory block.p.payload = ethtypeIp ∨ frameType memory block.p.payload = ethtypeArp →
        block.p.len.toNat ≤ uipBufSize ∧ (replyMemory = true →
          replyLength core (frameType memory block.p.payload) (loaded block.p memory uip) ≤ pdataSize)) := by
  have positive : 0 < block.p.len.toNat := Nat.lt_of_lt_of_le (by decide) long
  have type : ∀ access ∈ [ReceiveAccess.load (block.p.payload + 12), .load (block.p.payload + 13)],
      access.Inside block := by
    simp only [List.forall_mem_cons, List.not_mem_nil, false_imp_iff, implies_true, and_true]
    exact ⟨⟨Nat.le_add_right _ _, Nat.add_lt_add_left (by omega) _⟩, Nat.le_add_right _ _,
      Nat.add_lt_add_left (by omega) _⟩
  rw [ethInputAccesses, List.forall_mem_append, and_iff_right type]
  by_cases ip : frameType memory block.p.payload = ethtypeIp
  · rw [if_pos ip, List.forall_mem_append, loadAccesses_inside_iff positive, List.forall_mem_append,
      and_iff_right (headerStores_inside size), replyLength, if_pos ip, tcpipInputAccesses, iff_true_intro ip, true_or,
      true_imp_iff]
    refine and_congr_right fun _ => ?_
    dsimp only
    split_ifs
    · exact replyAccesses_inside_iff size _
    · exact iff_of_true nofun fun _ => Nat.zero_le _
  · rw [if_neg ip]
    by_cases arp : frameType memory block.p.payload = ethtypeArp
    · rw [if_pos arp, List.forall_mem_append, loadAccesses_inside_iff positive, replyLength, if_neg ip,
        etharpArpInputAccesses, iff_true_intro arp, or_true, true_imp_iff]
      refine and_congr_right fun _ => ?_
      split_ifs with reply
      · exact replyAccesses_inside_iff size _
      · rw [not_not.mp reply]
        exact iff_of_true nofun fun _ => Nat.zero_le _
    · rw [if_neg arp]
      exact iff_of_true nofun fun known => (known.elim ip arp).elim

/-- Accesses within the bounds, for a frame that is long enough to have a type. -/
theorem accesses_inside_iff {framelength : ℕ} (long : 14 ≤ framelength)
    (len : block.p.len.toNat = framelength) (size : block.size.toNat = 24 + (framelength + 7) / 8 * 8)
    (below : block.address.toNat + block.size.toNat < 2 ^ 32) (payload : block.p.payload = block.address.toNat + 24) :
    (∀ access ∈ frameAccesses core replyMemory block memory frame uip framelength, access.Inside block) ↔
      (frameType frame 0 = ethtypeIp ∨ frameType frame 0 = ethtypeArp →
        framelength ≤ uipBufSize ∧ (replyMemory = true →
          replyLength core (frameType frame 0) (loaded { payload := 0, len := block.p.len } frame uip) ≤ pdataSize)) := by
  have type : frameType (copyFrame memory frame block.p.payload framelength) block.p.payload = frameType frame 0 := by
    rw [frameType, copyFrame_inside (by omega) (by omega),
      copyFrame_inside (by omega) (by omega), frameType, Nat.zero_add,
      Nat.zero_add]
  have stored : ∀ access ∈ (List.range framelength).map fun i =>
      ReceiveAccess.store ((block.p.payload + i) % 2 ^ 32), access.Inside block := by
    intro access member
    obtain ⟨i, low, rfl⟩ := List.mem_map.mp member
    rw [List.mem_range] at low
    rw [ReceiveAccess.Inside, Nat.mod_eq_of_lt (by omega)]
    omega
  subst len
  rw [frameAccesses, List.forall_mem_append, List.forall_mem_append,
    and_iff_right ⟨headerStores_inside (by omega), stored⟩, ethInputAccesses_inside_iff long (by omega), type,
    loaded_copyFrame (by omega)]

end Accesses

theorem toNat_frameLength_sub (status : BitVec 32) :
    (frameLength status - 4).toNat =
      if (frameLength status).toNat < 4 then 2 ^ 32 - 4 + (frameLength status).toNat
      else (frameLength status).toNat - 4 := by
  have bound := frameLength_lt status
  rw [BitVec.toNat_sub]
  simp
  split_ifs <;> omega

theorem wrapped_not_inside {block : PbufBlock} {framelength : ℕ} (long : 2 ^ 32 - 4 ≤ framelength)
    (small : block.size.toNat ≤ 24 + 2 ^ 16) (large : 24 ≤ block.size.toNat)
    (below : block.address.toNat + block.size.toNat < 2 ^ 32) (payload : block.p.payload = block.address.toNat + 24) :
    ¬ ∀ access ∈ frameAccesses core replyMemory block memory frame uip framelength, access.Inside block := by
  intro all
  have behind := all (.store ((block.p.payload + (block.size.toNat - 24)) % 2 ^ 32)) (by
    simp only [frameAccesses, List.mem_append, List.mem_map, List.mem_range]
    exact .inl (.inr ⟨block.size.toNat - 24, by omega, rfl⟩))
  rw [ReceiveAccess.Inside, payload, Nat.mod_eq_of_lt (by omega)] at behind
  omega

theorem headless_not_inside {block : PbufBlock} {framelength : ℕ} (short : block.p.len.toNat < 14) :
    ¬ ∀ access ∈ frameAccesses core replyMemory block memory frame uip framelength, access.Inside block := by
  intro all
  have type := all (.load (block.p.payload + 13)) (by simp [frameAccesses, ethInputAccesses])
  rw [ReceiveAccess.Inside] at type
  omega

/-- A frame stays in bounds if and only if the descriptor is not accepted, or there is no memory for it, or it has
at least its header in front of the CRC, and if it is for uIP, it fits in `uip_buf`, and the reply in the block that it
is copied to. -/
theorem receive_bounded_iff (core : Core γ) (replyMemory : Bool) (malloc : BitVec 32 → Option (BitVec 32))
    (frame : ℕ → BitVec 8) (status : BitVec 32) (memory : ℕ → BitVec 8) (uip : State γ) (aligned : MallocAligned malloc) :
    ReceiveBounded core replyMemory frame status malloc memory uip ↔
      ¬ Accepted status ∨ pbufAlloc malloc ((frameLength status - 4).setWidth 16) = none ∨
        14 + 4 ≤ (frameLength status).toNat ∧
          (frameType frame 0 = ethtypeIp ∨ frameType frame 0 = ethtypeArp →
            (frameLength status).toNat ≤ uipBufSize + 4 ∧ (replyMemory = true →
              replyLength core (frameType frame 0)
                (loaded { payload := 0, len := (frameLength status - 4).setWidth 16 } frame uip) ≤ pdataSize)) := by
  have nothing (none_ : receiveFrame core replyMemory frame status malloc memory uip = none) :
      ReceiveBounded core replyMemory frame status malloc memory uip := by
    intro block accesses received
    rw [none_] at received
    exact nomatch received
  by_cases accepted : Accepted status
  · cases allocated : pbufAlloc malloc ((frameLength status - 4).setWidth 16) with
    | none =>
      refine iff_of_true (nothing ?_) (.inr (.inl rfl))
      rw [receiveFrame, rtStm32EthRx, if_pos accepted]
      dsimp only
      rw [allocated]
    | some block =>
      obtain ⟨-, size, below, payload, len⟩ := pbufAlloc_facts aligned allocated
      have wide := toNat_frameLength_sub status
      have bound := frameLength_lt status
      have low : ((frameLength status - 4).setWidth 16).toNat = (frameLength status - 4).toNat % 2 ^ 16 :=
        BitVec.toNat_setWidth ..
      rw [receiveBounded_iff_of_allocated accepted allocated]
      simp only [accepted, not_true_eq_false, false_or, reduceCtorEq]
      rcases Nat.lt_or_ge (frameLength status).toNat (14 + 4) with short | long
      · refine iff_of_false ?_ fun both => Nat.not_le.mpr short both.1
        rcases Nat.lt_or_ge (frameLength status).toNat 4 with runt | atLeast
        · rw [if_pos runt] at wide
          exact wrapped_not_inside (by omega) (by omega) (by omega) below payload
        · rw [if_neg (by omega)] at wide
          exact headless_not_inside (by rw [len]; omega)
      · rw [if_neg (by omega)] at wide
        rw [accesses_inside_iff (by omega) (by rw [len]; omega) (by omega) below payload, wide]
        rw [len, and_iff_right long, Nat.sub_le_iff_le_add]
  · refine iff_of_true (nothing ?_) (.inl accepted)
    rw [receiveFrame, rtStm32EthRx, if_neg accepted]

end

/-- An allocator with one block of 64 KiB at 0x1000. -/
def oneBlock (size : BitVec 32) : Option (BitVec 32) := if size.toNat ≤ 0x10000 then some 0x1000 else none

theorem oneBlock_aligned : MallocAligned oneBlock := by
  intro size address answer
  rw [oneBlock] at answer
  split_ifs at answer with small
  obtain rfl := Option.some.inj answer
  refine ⟨by decide, by decide, ?_⟩
  have place : (0x1000 : BitVec 32).toNat = 0x1000 := by decide
  omega

/-- A core that echoes an IP frame: `uip_input` leaves the length of the packet, and `uip_arp_out` counts the header in
again. -/
def echo : Core Unit where
  uipArpIpin := id
  uipInput := fun uip => { uip with uipLen := uip.uipLen - 14 }
  uipArpArpin := id
  uipArpOut := fun uip => { uip with uipLen := uip.uipLen + 14 }

/-- An IP frame of 98 bytes with its CRC, which is echoed. -/
theorem receive_bounded_iff_echo :
    ReceiveBounded echo true (fun i => if i = 12 then 0x08 else 0) 0x00660300 oneBlock (fun _ => 0)
      { uipLen := 0, uipBuf := fun _ => 0, rest := () } :=
  (receive_bounded_iff _ _ _ _ _ _ _ oneBlock_aligned).mpr
    (.inr (.inr ⟨by decide, fun _ => ⟨by decide, fun _ => by decide⟩⟩))

/-- A frame of 6 bytes and its CRC: its type is not in its payload. -/
theorem runt_not_bounded :
    ¬ ReceiveBounded echo true (fun _ => 0) 0x000a0300 oneBlock (fun _ => 0)
      { uipLen := 0, uipBuf := fun _ => 0, rest := () } := by
  have allocated : pbufAlloc oneBlock ((frameLength 0x000a0300 - 4).setWidth 16) =
      some { address := 0x1000, size := 32, p := { payload := 0x1018, len := 6 } } := rfl
  rw [receiveBounded_iff_of_allocated (by decide) allocated]
  exact headless_not_inside (by decide)

end Uip
