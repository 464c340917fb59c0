import ShdslBridge.Lib.Memory
import Mathlib.Data.Int.Notation

/-! # Received packet buffers of the uIP glue

`eth_input` owns the buffer that the driver hands in. The functions below it pass the ownership on
through a return value, and they put the copy of a reply in place of the payload. The core of uIP is
a parameter: functions on its own state, which do not see the buffer. Every path frees the buffer
once, and uses it only before, except the one on which there is no memory for the reply to an IP
frame: there the callee frees the buffer and returns the value that makes the caller free it again.
-/

namespace Uip

/-- The globals `uip_len` and `uip_buf`, and the rest of the state of uIP. -/
structure State (γ : Type*) where
  uipLen : BitVec 16
  uipBuf : ℕ → BitVec 8
  rest : γ

structure Core (γ : Type*) where
  uipArpIpin : State γ → State γ
  uipInput : State γ → State γ
  uipArpArpin : State γ → State γ
  uipArpOut : State γ → State γ

/-- `struct pbuf`. -/
structure Pbuf where
  payload : ℕ
  len : BitVec 16

/-- What is done with the buffer that was handed in. -/
inductive PbufAccess | use | free
  deriving DecidableEq, Repr

/-- The buffer, the memory that it points into, the state of uIP, the number of calls of `rt_malloc`
so far, and a record of the run: the accesses to the buffer and the frames sent. -/
structure EthState (γ : Type*) where
  p : Pbuf
  memory : ℕ → BitVec 8
  uip : State γ
  mallocs : ℕ
  accesses : List PbufAccess
  sent : List (List (BitVec 8))

def ethtypeIp : BitVec 16 := 0x0800
def ethtypeArp : BitVec 16 := 0x0806

/-- The value of `ERR_OK`. -/
def errOk : ℤ := 0

variable {γ : Type*}

namespace EthState

/-- A statement that reads or writes `*p`. -/
def use (s : EthState γ) : EthState γ := { s with accesses := s.accesses ++ [.use] }

/-- `pbuf_free`. -/
def pbufFree (s : EthState γ) : EthState γ := { s with accesses := s.accesses ++ [.free] }

/-- `pbuf_header`. -/
def pbufHeader (s : EthState γ) (headerSizeIncrement : ℤ) : EthState γ :=
  let s := s.use
  { s with p := {
      payload := (s.p.payload - headerSizeIncrement).toNat
      len := s.p.len + BitVec.ofInt 16 headerSizeIncrement } }

/-- `htons(ethhdr->type)`. -/
def ethType (s : EthState γ) : BitVec 16 := s.memory (s.p.payload + 12) ++ s.memory (s.p.payload + 13)

/-- The copy of the frame into `uip_buf`. -/
def load (s : EthState γ) : EthState γ :=
  let s := s.use
  { s with uip := { s.uip with
      uipLen := s.p.len
      uipBuf := Memory.writeAt s.uip.uipBuf 0 (Memory.readAt s.memory s.p.payload s.p.len.toNat) } }

def run (s : EthState γ) (core : State γ → State γ) : EthState γ := { s with uip := core s.uip }

/-- `rt_malloc`. -/
def rtMalloc (malloc : ℕ → Option ℕ) (s : EthState γ) : Option ℕ × EthState γ :=
  (malloc s.mallocs, { s with mallocs := s.mallocs + 1 })

/-- `netif->linkoutput`, which waits until the frame has been sent. -/
def linkoutput (s : EthState γ) : EthState γ :=
  let s := s.use
  { s with sent := s.sent ++ [Memory.readAt s.memory s.p.payload s.p.len.toNat] }

/-- The reply in `uip_buf` goes out in a copy at `pdata`, which the buffer points to from then on. -/
def sendReply (s : EthState γ) (pdata : ℕ) : EthState γ :=
  let memory := Memory.writeAt s.memory pdata (Memory.readAt s.uip.uipBuf 0 s.uip.uipLen.toNat)
  ({ s.use with memory, p := { payload := pdata, len := s.uip.uipLen } }).linkoutput

/-- `etharp_ip_input`. -/
def etharpIpInput (core : Core γ) (s : EthState γ) : EthState γ :=
  (s.load.run core.uipArpIpin).run core.uipInput

/-- `tcpip_input`, with its return value. `malloc` tells what each call of `rt_malloc` returns. -/
def tcpipInput (core : Core γ) (malloc : ℕ → Option ℕ) (s : EthState γ) : ℤ × EthState γ :=
  if s.uip.uipLen ≠ 0 then
    let s := s.run core.uipArpOut
    match s.rtMalloc malloc with
    | (none, s) => (1, s.pbufFree)
    | (some pdata, s) => (1, s.sendReply pdata)
  else (0, s.pbufFree)

/-- `etharp_arp_input`. -/
def etharpArpInput (core : Core γ) (malloc : ℕ → Option ℕ) (s : EthState γ) : EthState γ :=
  let s := s.load.run core.uipArpArpin
  if s.uip.uipLen ≠ 0 then
    match s.rtMalloc malloc with
    | (none, s) => s.pbufFree
    | (some pdata, s) => (s.sendReply pdata).pbufFree
  else s.pbufFree

/-- `eth_input`. -/
def ethInput (core : Core γ) (malloc : ℕ → Option ℕ) (s : EthState γ) : EthState γ :=
  let type := s.ethType
  let s := s.use
  if type = ethtypeIp then
    let s := s.etharpIpInput core
    let s := s.pbufHeader (-14)
    let (err, s) := s.tcpipInput core malloc
    if err ≠ errOk then s.pbufFree else s
  else if type = ethtypeArp then s.etharpArpInput core malloc
  else s.pbufFree

/-- A frame from the driver. -/
def received (p : Pbuf) (memory : ℕ → BitVec 8) (uip : State γ) (mallocs : ℕ) : EthState γ :=
  { p, memory, uip, mallocs, accesses := [], sent := [] }

/-- The buffer has been freed once, after all uses. -/
def FreedOnce (s : EthState γ) : Prop := s.accesses.getLast? = some .free ∧ .free ∉ s.accesses.dropLast

instance (s : EthState γ) : Decidable s.FreedOnce := inferInstanceAs (Decidable (_ ∧ _))

/-- uIP has a reply to the IP frame. -/
def Replies (core : Core γ) (s : EthState γ) : Prop :=
  (core.uipInput (core.uipArpIpin s.load.uip)).uipLen ≠ 0

instance (core : Core γ) (s : EthState γ) : Decidable (Replies core s) := inferInstanceAs (Decidable (_ ≠ _))

section

variable (core : Core γ) (malloc : ℕ → Option ℕ) (s : EthState γ)

/-! ## What each function does with the buffer -/

theorem sendReply_accesses (pdata : ℕ) : (s.sendReply pdata).accesses = s.accesses ++ [.use, .use] := by
  simp [sendReply, linkoutput, use]

theorem etharpIpInput_accesses : (s.etharpIpInput core).accesses = s.accesses ++ [.use] := rfl

theorem pbufHeader_accesses (increment : ℤ) : (s.pbufHeader increment).accesses = s.accesses ++ [.use] := rfl

/-- `tcpip_input` frees the buffer unless it has sent a reply, and then it returns an error all the
same. -/
theorem tcpipInput_accesses :
    (tcpipInput core malloc s).2.accesses = s.accesses ++
        (if s.uip.uipLen = 0 ∨ malloc s.mallocs = none then [.free] else [.use, .use]) ∧
      ((tcpipInput core malloc s).1 ≠ errOk ↔ s.uip.uipLen ≠ 0) := by
  unfold tcpipInput rtMalloc
  by_cases reply : s.uip.uipLen ≠ 0
  · rw [if_pos reply]
    cases memory : malloc s.mallocs with
    | none => simpa [memory, run, pbufFree, errOk] using reply
    | some pdata => simpa [memory, run, sendReply_accesses, errOk] using reply
  · rw [if_neg reply]
    simp [pbufFree, errOk, not_not.mp reply]

/-- `etharp_arp_input` frees the buffer last. -/
theorem etharpArpInput_accesses :
    ∃ uses, (∀ access ∈ uses, access = .use) ∧
      (etharpArpInput core malloc s).accesses = s.accesses ++ uses ++ [.free] := by
  unfold etharpArpInput rtMalloc
  simp only
  split_ifs
  · cases memory : malloc (s.load.run core.uipArpArpin).mallocs with
    | none =>
      refine ⟨[.use], by simp, ?_⟩
      simp [pbufFree, run, load, use]
    | some pdata =>
      refine ⟨[.use, .use, .use], by simp, ?_⟩
      simp [pbufFree, sendReply_accesses, run, load, use]
  · refine ⟨[.use], by simp, ?_⟩
    simp [pbufFree, run, load, use]

end

theorem freedOnce_of_accesses {s : EthState γ} {uses : List PbufAccess} (all : ∀ access ∈ uses, access = .use)
    (accesses : s.accesses = uses ++ [.free]) : s.FreedOnce := by
  refine ⟨by simp [accesses], ?_⟩
  rw [accesses, List.dropLast_concat]
  intro member
  cases all _ member

/-- The path of an IP frame, to the return of `tcpip_input`. -/
theorem ipInput_accesses (core : Core γ) (malloc : ℕ → Option ℕ) (s : EthState γ) :
    (tcpipInput core malloc ((s.etharpIpInput core).pbufHeader (-14))).2.accesses = s.accesses ++ [.use, .use] ++
        (if ¬ Replies core s ∨ malloc s.mallocs = none then [.free] else [.use, .use]) ∧
      ((tcpipInput core malloc ((s.etharpIpInput core).pbufHeader (-14))).1 ≠ errOk ↔ Replies core s) := by
  obtain ⟨accesses, err⟩ := tcpipInput_accesses core malloc ((s.etharpIpInput core).pbufHeader (-14))
  refine ⟨?_, err⟩
  rw [accesses, pbufHeader_accesses, etharpIpInput_accesses, List.append_assoc s.accesses]
  congr 1
  exact if_congr (or_congr_left not_not.symm) rfl rfl

/-- For every frame, every state and behaviour of uIP and every pattern of allocation failures, the
buffer is freed once and not used afterwards exactly if it is not an IP frame with a reply that
there is no memory for. -/
theorem ethInput_freedOnce_iff (core : Core γ) (malloc : ℕ → Option ℕ) (p : Pbuf) (memory : ℕ → BitVec 8)
    (uip : State γ) (mallocs : ℕ) :
    FreedOnce (ethInput core malloc (received p memory uip mallocs)) ↔
      ¬ (ethType (received p memory uip mallocs) = ethtypeIp ∧ Replies core (received p memory uip mallocs) ∧
        malloc mallocs = none) := by
  unfold ethInput
  by_cases ip : ethType (received p memory uip mallocs) = ethtypeIp
  · obtain ⟨accesses, err⟩ := ipInput_accesses core malloc (received p memory uip mallocs).use
    change _ ↔ Replies core (received p memory uip mallocs) at err
    simp only [ip, if_true, true_and]
    by_cases reply : Replies core (received p memory uip mallocs)
    · rw [if_pos (err.mpr reply)]
      by_cases full : malloc mallocs = none
      · rw [if_pos (.inr full)] at accesses
        refine iff_of_false (fun once => once.2 ?_) (fun fits => fits ⟨reply, full⟩)
        simp [pbufFree, accesses]
      · rw [if_neg (by rintro (silent | none); exacts [silent reply, full none])] at accesses
        refine iff_of_true (freedOnce_of_accesses ?_ (congrArg (· ++ [PbufAccess.free]) accesses))
          (fun both => full both.2)
        simp [received, use]
    · rw [if_neg (fun error => reply (err.mp error))]
      rw [if_pos (.inl reply)] at accesses
      refine iff_of_true (freedOnce_of_accesses ?_ accesses) (fun both => reply both.1)
      simp [received, use]
  · simp only [ip, if_false, false_and, not_false_eq_true, iff_true]
    split_ifs
    · obtain ⟨uses, all, accesses⟩ := etharpArpInput_accesses core malloc (received p memory uip mallocs).use
      have allUses : ∀ access ∈ [PbufAccess.use] ++ uses, access = .use := by
        simpa using all
      exact freedOnce_of_accesses allUses accesses
    · exact freedOnce_of_accesses (by simp [received, use]) rfl

/-- An IP frame of 14 bytes to which uIP replies with 42 bytes, and no memory: the buffer is freed
twice. -/
theorem ipReply_not_freedOnce :
    let core : Core Unit := {
      uipArpIpin := id
      uipInput := fun uip => { uip with uipLen := 42 }
      uipArpArpin := id
      uipArpOut := id }
    let memory : ℕ → BitVec 8 := fun address => if address = 12 then 8 else 0
    let s := ethInput core (fun _ => none) (received ⟨0, 14⟩ memory ⟨0, fun _ => 0, ()⟩ 0)
    s.accesses = [.use, .use, .use, .free, .free] ∧ ¬ FreedOnce s := by
  decide

end EthState

end Uip
