import ShdslBridge.Lib.Run

/-! # The ARP table of uIP

Eight entries map an IP address to an Ethernet address. A frame that is meant for this host enters its
sender: in the place of the entry it has, in a free place, or in the place of the oldest entry. A
timer takes out what is too old. The age is a difference of bytes as the C integers that they become.
-/

namespace Uip

open Run

section Data

/-- `u16_t ipaddr[2]`. -/
structure IpAddr where
  half0 : BitVec 16
  half1 : BitVec 16
  deriving DecidableEq, Repr

def IpAddr.zero : IpAddr := ⟨0, 0⟩
def broadcastIpaddr : IpAddr := ⟨0xffff, 0xffff⟩
def broadcastEthaddr : BitVec 48 := 0xffffffffffff

/-- `struct arp_entry`. -/
structure ArpEntry where
  ipaddr : IpAddr
  ethaddr : BitVec 48
  time : BitVec 8
  deriving DecidableEq, Repr

def uipArptabSize : ℕ := 8
def uipArpMaxage : ℤ := 120

/-- `arp_table` and `arptime`. -/
structure Arp where
  table : Fin uipArptabSize → ArpEntry
  arptime : BitVec 8

/-- `uip_hostaddr`, `uip_netmask`, `uip_draddr` and `uip_ethaddr`. -/
structure ArpConfig where
  hostaddr : IpAddr
  netmask : IpAddr
  draddr : IpAddr
  ethaddr : BitVec 48

/-- `struct arp_hdr`, with the numbers as the network reads them. -/
structure ArpHdr where
  ethDest : BitVec 48
  ethSrc : BitVec 48
  ethType : BitVec 16
  hwtype : BitVec 16
  protocol : BitVec 16
  hwlen : BitVec 8
  protolen : BitVec 8
  opcode : BitVec 16
  shwaddr : BitVec 48
  sipaddr : IpAddr
  dhwaddr : BitVec 48
  dipaddr : IpAddr
  deriving DecidableEq, Repr

def sizeofArpHdr : BitVec 16 := 42
def arpRequest : BitVec 16 := 1
def arpReply : BitVec 16 := 2

end Data

section Code

/-- Both halves are compared with zero, one by one: `uip_arp_update` looks only at such entries. -/
def IpAddr.Proper (ip : IpAddr) : Prop := ip.half0 ≠ 0 ∧ ip.half1 ≠ 0

instance (ip : IpAddr) : Decidable ip.Proper := inferInstanceAs (Decidable (_ ∧ _))

/-- `arptime - tabptr->time`, as an `int`. -/
def Arp.age (a : Arp) (i : Fin uipArptabSize) : ℤ := a.arptime.toNat - (a.table i).time.toNat

/-- `uip_arp_init`. `arptime` is not touched. -/
def Arp.init (a : Arp) : Arp := { a with table := fun i => { a.table i with ipaddr := .zero } }

/-- `uip_arp_timer`. -/
def Arp.timer (a : Arp) : Arp :=
  let a := { a with arptime := a.arptime + 1 }
  { a with table := fun i =>
      if (a.table i).ipaddr ≠ .zero ∧ uipArpMaxage ≤ a.age i then { a.table i with ipaddr := .zero } else a.table i }

/-- The search for the oldest entry. `tmpage` is a `u8_t`. -/
def Arp.oldest (a : Arp) : List (Fin uipArptabSize) → BitVec 8 → Fin uipArptabSize → Fin uipArptabSize
  | [], _, c => c
  | i :: rest, tmpage, c =>
    if (tmpage.toNat : ℤ) < a.age i then a.oldest rest (a.arptime - (a.table i).time) i else a.oldest rest tmpage c

def Arp.place (a : Arp) : Fin uipArptabSize :=
  ((List.finRange uipArptabSize).find? fun i => (a.table i).ipaddr = .zero).getD
    (a.oldest (List.finRange uipArptabSize) 0 ⟨0, by decide⟩)

/-- The entry that `uip_arp_update` finds. -/
def Arp.known (a : Arp) (ip : IpAddr) : Option (Fin uipArptabSize) :=
  (List.finRange uipArptabSize).find? fun i => (a.table i).ipaddr.Proper ∧ ip = (a.table i).ipaddr

/-- `uip_arp_update`. -/
def Arp.update (a : Arp) (ip : IpAddr) (ethaddr : BitVec 48) : Arp :=
  { a with table := Function.update a.table ((a.known ip).getD a.place) ⟨ip, ethaddr, a.arptime⟩ }

/-- The frame is long enough, and meant for this host. -/
def ArpConfig.Accepts (config : ArpConfig) (uipLen : BitVec 16) (hdr : ArpHdr) : Prop :=
  sizeofArpHdr ≤ uipLen ∧ (hdr.opcode = arpRequest ∨ hdr.opcode = arpReply) ∧ hdr.dipaddr = config.hostaddr

instance (config : ArpConfig) (uipLen : BitVec 16) (hdr : ArpHdr) : Decidable (config.Accepts uipLen hdr) :=
  inferInstanceAs (Decidable (_ ∧ _))

def ArpConfig.reply (config : ArpConfig) (hdr : ArpHdr) : ArpHdr :=
  { hdr with
    opcode := arpReply, dhwaddr := hdr.shwaddr, shwaddr := config.ethaddr, ethSrc := config.ethaddr,
    ethDest := hdr.shwaddr, dipaddr := hdr.sipaddr, sipaddr := config.hostaddr, ethType := 0x0806 }

/-- `uip_arp_arpin`, with the frame to send. -/
def Arp.arpin (config : ArpConfig) (a : Arp) (uipLen : BitVec 16) (hdr : ArpHdr) : Arp × Option ArpHdr :=
  if config.Accepts uipLen hdr then
    (a.update hdr.sipaddr hdr.shwaddr, if hdr.opcode = arpRequest then some (config.reply hdr) else none)
  else (a, none)

/-- `uip_ipaddr_maskcmp`. -/
def maskcmp (addr1 addr2 mask : IpAddr) : Prop :=
  addr1.half0 &&& mask.half0 = addr2.half0 &&& mask.half0 ∧ addr1.half1 &&& mask.half1 = addr2.half1 &&& mask.half1

instance (addr1 addr2 mask : IpAddr) : Decidable (maskcmp addr1 addr2 mask) := inferInstanceAs (Decidable (_ ∧ _))

/-- The entry that `uip_arp_out` finds: the first one with the address. -/
def Arp.lookup (a : Arp) (ip : IpAddr) : Option (Fin uipArptabSize) :=
  (List.finRange uipArptabSize).find? fun i => ip = (a.table i).ipaddr

/-- What leaves instead of an IP packet: the packet with an Ethernet header, or a request. -/
inductive Outgoing
  | packet (dest src : BitVec 48)
  | request (hdr : ArpHdr)
  deriving DecidableEq

/-- The host that the packet is handed to. -/
def ArpConfig.nextHop (config : ArpConfig) (destipaddr : IpAddr) : IpAddr :=
  if maskcmp destipaddr config.hostaddr config.netmask then destipaddr else config.draddr

def ArpConfig.request (config : ArpConfig) (ip : IpAddr) : ArpHdr :=
  { ethDest := broadcastEthaddr, ethSrc := config.ethaddr, ethType := 0x0806, hwtype := 1, protocol := 0x0800,
    hwlen := 6, protolen := 4, opcode := arpRequest, shwaddr := config.ethaddr, sipaddr := config.hostaddr,
    dhwaddr := 0, dipaddr := ip }

/-- `uip_arp_out`. -/
def Arp.out (config : ArpConfig) (a : Arp) (destipaddr : IpAddr) : Outgoing :=
  if destipaddr = broadcastIpaddr then .packet broadcastEthaddr config.ethaddr
  else
    match a.lookup (config.nextHop destipaddr) with
    | some i => .packet (a.table i).ethaddr config.ethaddr
    | none => .request (config.request (config.nextHop destipaddr))

end Code

section Abstract

/-- What changes the table. -/
inductive ArpEvent
  | timer
  | arpin (uipLen : BitVec 16) (hdr : ArpHdr)

/-- The table, and the address that was entered last for each host. -/
structure ArpRun where
  arp : Arp
  learned : IpAddr → Option (BitVec 48)

def ArpRun.step (config : ArpConfig) (s : ArpRun) : ArpEvent → ArpRun
  | .timer => { s with arp := s.arp.timer }
  | .arpin uipLen hdr =>
    { arp := (s.arp.arpin config uipLen hdr).1,
      learned := if config.Accepts uipLen hdr then Function.update s.learned hdr.sipaddr hdr.shwaddr else s.learned }

/-- The state that `uip_arp_init` leaves: nothing is entered. -/
def ArpRun.init (a : Arp) : ArpRun := { arp := a.init, learned := fun _ => none }

/-- The entries of an address with two halves are one entry, with the last address entered. -/
structure ArpRun.Agrees (s : ArpRun) : Prop where
  unique : ∀ i j, (s.arp.table i).ipaddr.Proper → (s.arp.table i).ipaddr = (s.arp.table j).ipaddr → i = j
  last : ∀ i, (s.arp.table i).ipaddr.Proper → s.learned (s.arp.table i).ipaddr = some (s.arp.table i).ethaddr

/-- A packet that leaves goes to the Ethernet address entered last for the next host. -/
def ArpRun.Truthful (config : ArpConfig) (s : ArpRun) : Prop :=
  ∀ destipaddr dest src, destipaddr ≠ broadcastIpaddr → (config.nextHop destipaddr).Proper →
    s.arp.out config destipaddr = .packet dest src → s.learned (config.nextHop destipaddr) = some dest

end Abstract

section Invariant

variable {s : ArpRun} {a : Arp} {config : ArpConfig}

variable {i : Fin uipArptabSize}

theorem known_some {ip : IpAddr} (known : a.known ip = some i) : (a.table i).ipaddr = ip := by
  rw [Arp.known] at known
  have found := List.find?_some known
  simp only [decide_eq_true_eq] at found
  exact found.2.symm

theorem known_isSome {ip : IpAddr} (proper : ip.Proper) {j : Fin uipArptabSize} (entry : (a.table j).ipaddr = ip) :
    ∃ i, a.known ip = some i := by
  apply Option.isSome_iff_exists.mp
  rw [Arp.known, List.find?_isSome]
  exact ⟨j, List.mem_finRange j, decide_eq_true ⟨by rwa [entry], entry.symm⟩⟩

theorem ArpRun.Agrees.slot (agrees : s.Agrees) {ip : IpAddr} (proper : ip.Proper) {j : Fin uipArptabSize}
    (entry : (s.arp.table j).ipaddr = ip) : (s.arp.known ip).getD s.arp.place = j := by
  obtain ⟨i, known⟩ := known_isSome proper entry
  rw [known, Option.getD_some]
  apply agrees.unique
  · rwa [known_some known]
  · rw [known_some known, entry]

theorem ArpRun.Agrees.update (agrees : s.Agrees) (ip : IpAddr) (ethaddr : BitVec 48) :
    ArpRun.Agrees { arp := s.arp.update ip ethaddr, learned := Function.update s.learned ip ethaddr } := by
  have slot := @ArpRun.Agrees.slot s agrees ip
  rw [Arp.update]
  generalize (s.arp.known ip).getD s.arp.place = k at slot
  constructor
  · intro i j proper same
    dsimp only at proper same
    by_cases first : i = k <;> by_cases second : j = k
    · rw [first, second]
    · rw [first, Function.update_self, Function.update_of_ne second] at same
      rw [first, Function.update_self] at proper
      exact absurd (slot proper same.symm).symm second
    · rw [second, Function.update_self, Function.update_of_ne first] at same
      rw [Function.update_of_ne first, same] at proper
      exact absurd (slot proper same).symm first
    · rw [Function.update_of_ne first] at proper same
      rw [Function.update_of_ne second] at same
      exact agrees.unique i j proper same
  · intro i proper
    dsimp only at proper ⊢
    by_cases first : i = k
    · rw [first, Function.update_self, Function.update_self]
    · rw [Function.update_of_ne first] at proper ⊢
      rw [Function.update_of_ne]
      · exact agrees.last i proper
      · intro same
        exact first (slot (by rwa [← same]) same).symm

theorem timer_entry (a : Arp) (i : Fin uipArptabSize) :
    a.timer.table i = a.table i ∨ (a.timer.table i).ipaddr = .zero := by
  simp only [Arp.timer]
  split
  · exact .inr rfl
  · exact .inl rfl

theorem not_proper_zero : ¬ IpAddr.zero.Proper := by decide

theorem timer_proper (proper : (a.timer.table i).ipaddr.Proper) : a.timer.table i = a.table i := by
  apply (timer_entry a i).resolve_right
  intro zero
  rw [zero] at proper
  exact not_proper_zero proper

theorem ArpRun.Agrees.timer (agrees : s.Agrees) : ArpRun.Agrees { s with arp := s.arp.timer } := by
  constructor
  · intro i j proper same
    dsimp only at proper same
    have first := timer_proper proper
    have second : s.arp.timer.table j = s.arp.table j := timer_proper (by rwa [← same])
    rw [first] at proper same
    rw [second] at same
    exact agrees.unique i j proper same
  · intro i proper
    dsimp only at proper ⊢
    have kept := timer_proper proper
    rw [kept] at proper ⊢
    exact agrees.last i proper

theorem ArpRun.Agrees.step (agrees : s.Agrees) (e : ArpEvent) : (s.step config e).Agrees := by
  cases e with
  | timer => exact agrees.timer
  | arpin uipLen hdr =>
    simp only [ArpRun.step, Arp.arpin]
    split
    · exact agrees.update hdr.sipaddr hdr.shwaddr
    · exact agrees

theorem ArpRun.Agrees.exec (agrees : s.Agrees) (events : List ArpEvent) :
    (exec (ArpRun.step config) s events).Agrees := by
  induction events generalizing s with
  | nil => exact agrees
  | cons e rest ih =>
    rw [exec_cons]
    exact ih (agrees.step e)

theorem lookup_found {ip : IpAddr} (found : a.lookup ip = some i) : (a.table i).ipaddr = ip := by
  have same := List.find?_some found
  exact (of_decide_eq_true same).symm

theorem ArpRun.Agrees.truthful (agrees : s.Agrees) : s.Truthful config := by
  intro destipaddr dest src notBroadcast proper packet
  rw [Arp.out, if_neg notBroadcast] at packet
  cases found : s.arp.lookup (config.nextHop destipaddr) with
  | none => simp [found] at packet
  | some i =>
    simp only [found, Outgoing.packet.injEq] at packet
    rw [← packet.1, ← lookup_found found]
    apply agrees.last
    rwa [lookup_found found]

theorem init_agrees (a : Arp) : ArpRun.Agrees (.init a) := by
  constructor
  · intro i j proper
    exact absurd proper not_proper_zero
  · intro i proper
    exact absurd proper not_proper_zero

/-- In every run, a packet leaves for the Ethernet address that its next hop gave last. -/
theorem packets_truthful (config : ArpConfig) (a : Arp) (events : List ArpEvent) :
    Always (ArpRun.step config) (ArpRun.Truthful config) (.init a) events := by
  have keeps (s : ArpRun) (e : ArpEvent) (agrees : s.Agrees) : (s.step config e).Agrees := agrees.step e
  apply always_of_invariant keeps
  · intro s agrees
    exact agrees.truthful
  · exact init_agrees a

end Invariant

section Resolution

/-- Two hosts of one network. -/
def ArpConfig.first : ArpConfig :=
  ⟨⟨0x0a00, 0x0001⟩, ⟨0xffff, 0xff00⟩, ⟨0x0a00, 0x00fe⟩, 0x020000000001⟩

def ArpConfig.second : ArpConfig :=
  ⟨⟨0x0a00, 0x0002⟩, ⟨0xffff, 0xff00⟩, ⟨0x0a00, 0x00fe⟩, 0x020000000002⟩

/-- The table at power-on. -/
def Arp.blank : Arp := ⟨fun _ => ⟨.zero, 0, 0⟩, 0⟩

variable {s : ArpRun} {config : ArpConfig}

/-- The entry of an address with two halves is the one that is found. -/
theorem ArpRun.Agrees.lookup (agrees : s.Agrees) {i : Fin uipArptabSize} (proper : (s.arp.table i).ipaddr.Proper) :
    s.arp.lookup (s.arp.table i).ipaddr = some i := by
  have isSome : (s.arp.lookup (s.arp.table i).ipaddr).isSome := by
    rw [Arp.lookup, List.find?_isSome]
    exact ⟨i, List.mem_finRange i, decide_eq_true rfl⟩
  obtain ⟨j, found⟩ := Option.isSome_iff_exists.mp isSome
  rw [found, agrees.unique i j proper (lookup_found found).symm]

/-- A packet for an address with an entry leaves with the Ethernet address of the entry. -/
theorem ArpRun.Agrees.out (agrees : s.Agrees) {i : Fin uipArptabSize} (proper : (s.arp.table i).ipaddr.Proper)
    {destipaddr : IpAddr} (notBroadcast : destipaddr ≠ broadcastIpaddr)
    (hop : config.nextHop destipaddr = (s.arp.table i).ipaddr) :
    s.arp.out config destipaddr = .packet (s.arp.table i).ethaddr config.ethaddr := by
  rw [Arp.out, if_neg notBroadcast, hop, agrees.lookup proper]

theorem step_entry {uipLen : BitVec 16} {hdr : ArpHdr} (accepts : config.Accepts uipLen hdr) :
    ∃ i, (s.step config (.arpin uipLen hdr)).arp.table i = ⟨hdr.sipaddr, hdr.shwaddr, s.arp.arptime⟩ := by
  exists (s.arp.known hdr.sipaddr).getD s.arp.place
  simp only [ArpRun.step, Arp.arpin, if_pos accepts, Arp.update, Function.update_self]

/-- What an accepted frame says is used for the packets that follow. -/
theorem ArpRun.Agrees.learned (agrees : s.Agrees) {uipLen : BitVec 16}
    {hdr : ArpHdr} (accepts : config.Accepts uipLen hdr)
    (proper : hdr.sipaddr.Proper) {destipaddr : IpAddr} (notBroadcast : destipaddr ≠ broadcastIpaddr)
    (hop : config.nextHop destipaddr = hdr.sipaddr) :
    (s.step config (.arpin uipLen hdr)).arp.out config destipaddr = .packet hdr.shwaddr config.ethaddr := by
  obtain ⟨i, entry⟩ := @step_entry s config _ _ accepts
  have sent := @ArpRun.Agrees.out _ config (@ArpRun.Agrees.step s config agrees (.arpin uipLen hdr)) i
  rw [entry] at sent
  exact sent proper notBroadcast hop

/-- A state that a run of the host can reach. -/
def ArpRun.Reached (config : ArpConfig) (s : ArpRun) : Prop :=
  ∃ a events, s = exec (ArpRun.step config) (.init a) events

theorem ArpRun.Reached.agrees (reached : s.Reached config) : s.Agrees := by
  obtain ⟨a, events, rfl⟩ := reached
  exact (init_agrees a).exec events

/-- `there` is a host of the network of `here`, with an address that the table can hold. -/
structure Neighbour (here there : ArpConfig) : Prop where
  near : maskcmp there.hostaddr here.hostaddr here.netmask
  proper : there.hostaddr.Proper
  unicast : there.hostaddr ≠ broadcastIpaddr

theorem Neighbour.nextHop {here there : ArpConfig} (neighbour : Neighbour here there) :
    here.nextHop there.hostaddr = there.hostaddr :=
  if_pos neighbour.near

/-- The only request that leaves instead of a packet for a neighbour. -/
theorem Neighbour.request {here there : ArpConfig} (neighbour : Neighbour here there) {a : Arp} {hdr : ArpHdr}
    (asked : a.out here there.hostaddr = .request hdr) : hdr = here.request there.hostaddr := by
  rw [Arp.out, if_neg neighbour.unicast, neighbour.nextHop] at asked
  cases found : a.lookup there.hostaddr with
  | none =>
    simp only [found, Outgoing.request.injEq] at asked
    exact asked.symm
  | some i => simp [found] at asked

/-- A request for a neighbour is answered to the one who asked, and from then on each host sends its packets
to the other's Ethernet address. Neither what the hosts did before nor what they do between the frames
matters. -/
theorem resolved {asker answerer : ArpConfig} (neighbour : Neighbour asker answerer) (back : Neighbour answerer asker)
    {a : Arp} {s t : ArpRun} (here : s.Reached asker) (there : t.Reached answerer) {uipLen uipLen' : BitVec 16}
    (long : sizeofArpHdr ≤ uipLen) (long' : sizeofArpHdr ≤ uipLen') {hdr : ArpHdr}
    (asked : a.out asker answerer.hostaddr = .request hdr) :
    ∃ reply, (t.arp.arpin answerer uipLen hdr).2 = some reply ∧ reply.ethDest = asker.ethaddr ∧
      (s.arp.arpin asker uipLen' reply).2 = none ∧
      (t.step answerer (.arpin uipLen hdr)).arp.out answerer asker.hostaddr = .packet asker.ethaddr answerer.ethaddr ∧
      (s.step asker (.arpin uipLen' reply)).arp.out asker answerer.hostaddr =
        .packet answerer.ethaddr asker.ethaddr := by
  obtain rfl := neighbour.request asked
  have accepts : answerer.Accepts uipLen (asker.request answerer.hostaddr) := ⟨long, .inl rfl, rfl⟩
  have accepts' : asker.Accepts uipLen' (answerer.reply (asker.request answerer.hostaddr)) := ⟨long', .inr rfl, rfl⟩
  exists answerer.reply (asker.request answerer.hostaddr)
  refine ⟨?_, rfl, ?_, ?_, ?_⟩
  · simp only [Arp.arpin, if_pos accepts]
    exact if_pos rfl
  · simp only [Arp.arpin, if_pos accepts']
    have other : arpReply ≠ arpRequest := by decide
    exact if_neg other
  · exact there.agrees.learned accepts back.proper back.unicast back.nextHop
  · exact here.agrees.learned accepts' neighbour.proper neighbour.unicast neighbour.nextHop

theorem resolved_first :
    ∃ reply, ((ArpRun.init .blank).arp.arpin .second 42 (ArpConfig.first.request ArpConfig.second.hostaddr)).2 =
        some reply ∧
      reply.ethDest = ArpConfig.first.ethaddr ∧ ((ArpRun.init .blank).arp.arpin .first 42 reply).2 = none ∧
      ((ArpRun.init .blank).step .second (.arpin 42 (ArpConfig.first.request ArpConfig.second.hostaddr))).arp.out
      .second
        ArpConfig.first.hostaddr = .packet ArpConfig.first.ethaddr ArpConfig.second.ethaddr ∧
      ((ArpRun.init .blank).step .first (.arpin 42 reply)).arp.out .first ArpConfig.second.hostaddr =
        .packet ArpConfig.second.ethaddr ArpConfig.first.ethaddr :=
  @resolved .first .second (by constructor <;> decide) (by constructor <;> decide) (.init .blank) _ _
    ⟨.blank, [], rfl⟩ ⟨.blank, [], rfl⟩ 42 42 (by decide) (by decide) _ (by decide)

end Resolution

section Ageing

variable {s : ArpRun} {config : ArpConfig} {ip : IpAddr}

/-- The event neither enters the host again nor throws an entry away. -/
def ArpRun.Quiet (config : ArpConfig) (ip : IpAddr) (s : ArpRun) : ArpEvent → Prop
  | .timer => True
  | .arpin uipLen hdr =>
    config.Accepts uipLen hdr →
      hdr.sipaddr ≠ ip ∧ ∃ i, (s.arp.table i).ipaddr = .zero ∨ s.arp.known hdr.sipaddr = some i

instance (e : ArpEvent) : Decidable (s.Quiet config ip e) := by
  cases e <;> unfold ArpRun.Quiet <;> infer_instance

/-- The calls of `uip_arp_timer` in a run. -/
def timers : List ArpEvent → ℕ
  | [] => 0
  | .timer :: rest => timers rest + 1
  | .arpin _ _ :: rest => timers rest

/-- The timer finds the entry old only before the byte wraps. -/
def Kept (stamp : BitVec 8) (calls : ℕ) : Prop := calls < 120 ∨ 136 ≤ stamp.toNat

/-- After `calls` calls of the timer: the entry as it was made, or no entry for the address. -/
structure ArpRun.Aged (s : ArpRun) (i : Fin uipArptabSize) (entry : ArpEntry) (calls : ℕ) : Prop where
  clock : s.arp.arptime = entry.time + BitVec.ofNat 8 calls
  kept : Kept entry.time calls → s.arp.table i = entry
  gone : ¬ Kept entry.time calls → ∀ j, (s.arp.table j).ipaddr ≠ entry.ipaddr

variable {calls : ℕ} {entry : ArpEntry}

theorem kept_succ {stamp : BitVec 8} :
    Kept stamp (calls + 1) ↔ Kept stamp calls ∧ ((stamp + BitVec.ofNat 8 calls + 1).toNat : ℤ) - stamp.toNat < 120 := by
  have bound := stamp.isLt
  have one : BitVec.toNat (1 : BitVec 8) = 1 := rfl
  simp only [Kept, BitVec.toNat_add, BitVec.toNat_ofNat, one]
  omega

theorem place_zero {a : Arp} {j : Fin uipArptabSize} (zero : (a.table j).ipaddr = .zero) :
    (a.table a.place).ipaddr = .zero := by
  have isSome : ((List.finRange uipArptabSize).find? fun i => (a.table i).ipaddr = .zero).isSome := by
    rw [List.find?_isSome]
    exact ⟨j, List.mem_finRange j, decide_eq_true zero⟩
  obtain ⟨i, found⟩ := Option.isSome_iff_exists.mp isSome
  have free := List.find?_some found
  rw [Arp.place, found, Option.getD_some]
  exact of_decide_eq_true free

theorem quiet_slot {uipLen : BitVec 16} {hdr : ArpHdr} (accepts : config.Accepts uipLen hdr) (proper : ip.Proper)
    (quiet : s.Quiet config ip (.arpin uipLen hdr)) :
    (s.arp.table ((s.arp.known hdr.sipaddr).getD s.arp.place)).ipaddr ≠ ip := by
  obtain ⟨other, j, free⟩ := quiet accepts
  cases known : s.arp.known hdr.sipaddr with
  | some i =>
    rw [Option.getD_some, known_some known]
    exact other
  | none =>
    rw [known] at free
    rw [Option.getD_none, place_zero (free.resolve_right (by simp))]
    rintro rfl
    exact not_proper_zero proper

theorem ArpRun.Aged.timer {i : Fin uipArptabSize} (aged : s.Aged i entry calls) (agrees : s.Agrees)
    (proper : entry.ipaddr.Proper) : ArpRun.Aged { s with arp := s.arp.timer } i entry (calls + 1) := by
  have notZero : entry.ipaddr ≠ .zero := by
    intro zero
    rw [zero] at proper
    exact not_proper_zero proper
  have age : Arp.age { s.arp with arptime := s.arp.arptime + 1 } i =
      ((entry.time + BitVec.ofNat 8 calls + 1).toNat : ℤ) - (s.arp.table i).time.toNat := by
    rw [Arp.age, aged.clock]
  constructor
  · simp only [Arp.timer, aged.clock]
    rw [BitVec.add_assoc]
    congr 1
    exact (BitVec.ofNat_add calls 1).symm
  · intro kept
    obtain ⟨kept, young⟩ := kept_succ.mp kept
    have held := aged.kept kept
    rw [held] at age
    simp only [Arp.timer, held, age]
    apply if_neg
    intro old
    exact absurd old.2 (not_le.mpr young)
  · intro gone j same
    dsimp only at same
    have unchanged := (timer_entry s.arp j).resolve_right (by rwa [same])
    rw [unchanged] at same
    by_cases kept : Kept entry.time calls
    · have held := aged.kept kept
      obtain rfl : j = i := agrees.unique j i (by rwa [same]) (by rw [same, held])
      rw [held] at age
      simp only [Arp.timer, held, age] at unchanged
      rw [if_pos] at unchanged
      · exact notZero (congrArg ArpEntry.ipaddr unchanged).symm
      · refine ⟨notZero, ?_⟩
        by_contra young
        exact gone (kept_succ.mpr ⟨kept, not_le.mp young⟩)
    · exact aged.gone kept j same

theorem ArpRun.Aged.arpin {i : Fin uipArptabSize} (aged : s.Aged i entry calls) (proper : entry.ipaddr.Proper)
    {uipLen : BitVec 16} {hdr : ArpHdr} (quiet : s.Quiet config entry.ipaddr (.arpin uipLen hdr)) :
    (s.step config (.arpin uipLen hdr)).Aged i entry calls := by
  simp only [ArpRun.step, Arp.arpin]
  split
  case isFalse => exact aged
  case isTrue accepts =>
    have slot := quiet_slot accepts proper quiet
    generalize placed : (s.arp.known hdr.sipaddr).getD s.arp.place = k at slot
    constructor
    · exact aged.clock
    · intro kept
      have held := aged.kept kept
      simp only [Arp.update, placed]
      rw [Function.update_of_ne]
      · exact held
      · rintro rfl
        exact slot (by rw [held])
    · intro gone j
      simp only [Arp.update, placed]
      by_cases here : j = k
      · rw [here, Function.update_self]
        exact (quiet accepts).1
      · rw [Function.update_of_ne here]
        exact aged.gone gone j

theorem ArpRun.Aged.exec {i : Fin uipArptabSize} (aged : s.Aged i entry calls) (agrees : s.Agrees)
    (proper : entry.ipaddr.Proper) {events : List ArpEvent}
    (quiet : Along (ArpRun.step config) (ArpRun.Quiet config entry.ipaddr) s events) :
    (exec (ArpRun.step config) s events).Aged i entry (calls + timers events) := by
  induction events generalizing s calls with
  | nil => exact aged
  | cons e rest ih =>
    rw [exec_cons]
    cases e with
    | timer =>
      have stepped := ih (aged.timer agrees proper) agrees.timer quiet.2
      rwa [Nat.add_assoc, Nat.add_comm 1] at stepped
    | arpin uipLen hdr => exact ih (aged.arpin proper quiet.1) (agrees.step _) quiet.2

/-- The address that a host gave last is in use until the timer was called 120 times since. An address that
was entered when the timer stood at 136 or above is in use for ever. -/
theorem forgotten_iff {s : ArpRun} (reached : s.Reached config) {uipLen : BitVec 16} {hdr : ArpHdr}
    (accepts : config.Accepts uipLen hdr) (proper : hdr.sipaddr.Proper) {events : List ArpEvent}
    (quiet : Along (ArpRun.step config) (ArpRun.Quiet config hdr.sipaddr) (s.step config (.arpin uipLen hdr)) events)
    {destipaddr : IpAddr} (notBroadcast : destipaddr ≠ broadcastIpaddr)
    (hop : config.nextHop destipaddr = hdr.sipaddr) :
    (exec (ArpRun.step config) s (.arpin uipLen hdr :: events)).arp.out config destipaddr =
      if timers events < 120 ∨ 136 ≤ s.arp.arptime.toNat then .packet hdr.shwaddr config.ethaddr
      else .request (config.request hdr.sipaddr) := by
  obtain ⟨i, made⟩ := @step_entry s config _ _ accepts
  have agrees : (s.step config (.arpin uipLen hdr)).Agrees := reached.agrees.step _
  have start : (s.step config (.arpin uipLen hdr)).Aged i ⟨hdr.sipaddr, hdr.shwaddr, s.arp.arptime⟩ 0 := by
    constructor
    · simp only [ArpRun.step, Arp.arpin, if_pos accepts, Arp.update]
      exact (BitVec.add_zero _).symm
    · intro kept
      exact made
    · intro gone
      exact absurd (.inl (by decide)) gone
  have aged := start.exec agrees proper quiet
  rw [Nat.zero_add] at aged
  rw [exec_cons]
  split
  case isTrue kept =>
    have sent := @ArpRun.Agrees.out _ config (@ArpRun.Agrees.exec _ config agrees events) i
    rw [aged.kept kept] at sent
    exact sent proper notBroadcast hop
  case isFalse gone =>
    have absent : (exec (ArpRun.step config) (s.step config (.arpin uipLen hdr)) events).arp.lookup hdr.sipaddr =
        none := by
      rw [Arp.lookup, List.find?_eq_none]
      intro j _ same
      exact aged.gone gone j (of_decide_eq_true same).symm
    rw [Arp.out, if_neg notBroadcast, hop, absent]

theorem forgotten_iff_old :
    (exec (ArpRun.step .first) (.init .blank)
      (.arpin 42 (ArpConfig.second.request ArpConfig.first.hostaddr) :: List.replicate 120 .timer)).arp.out .first
      ArpConfig.second.hostaddr = .request (ArpConfig.first.request ArpConfig.second.hostaddr) :=
  @forgotten_iff .first _ ⟨.blank, [], rfl⟩ 42 (ArpConfig.second.request ArpConfig.first.hostaddr) (by decide)
    (by decide) (List.replicate 120 .timer) (by decide +kernel) ArpConfig.second.hostaddr (by decide) (by decide)

end Ageing

end Uip
