import ShdslBridge.Driver.Transmit

/-! # The bursts of a frame

The send loop takes the frame from the transmit buffer in bursts of at most 64 bytes, as many as the SCI FIFO holds.
Behind each burst it starts the transmission, and behind the last one it marks the end of the message as well. Here
the device signals a ready transmit pool after every burst, so that nothing but the length of the frame ends the loop.
-/

namespace Pef24628e

open Memory

def sendRound (pDev : Dev) : Dev := regSet .sciInt sciInterruptXpr (sciXprInt pDev)

def burstWrites (burst : List Byte) (last : Bool) : List (Reg × Byte) :=
  burst.map (fun byte => (Reg.sciIngress, byte)) ++
    [(.sciCtrlH, if last then sciCtrlHighXtf ||| sciCtrlHighXme else sciCtrlHighXtf), (.sciInt, sciInterruptXpr)]

/-- The register writes of a frame in bursts: the end of the message is behind the last one. -/
def frameWrites : List (List Byte) → List (Reg × Byte)
  | [] => []
  | burst :: rest => burstWrites burst rest.isEmpty ++ frameWrites rest

section

variable {pDev : Dev}

theorem sendRound_txFifo (pDev : Dev) :
    (sendRound pDev).txFifo.pData = pDev.txFifo.pData ∧
      (sendRound pDev).txFifo.nBytes = pDev.txFifo.nBytes - sciFifoSize ∧
      (sendRound pDev).txFifo.nSent = pDev.txFifo.nSent + min pDev.txFifo.nBytes sciFifoSize := by
  have rest : pDev.txFifo.nBytes - min pDev.txFifo.nBytes sciFifoSize = pDev.txFifo.nBytes - sciFifoSize := by
    omega
  unfold sendRound regSet sciXprInt
  dsimp only
  rw [burst_len]
  by_cases none_ : min pDev.txFifo.nBytes sciFifoSize = 0
  · rw [if_pos none_, none_]
    exact ⟨rfl, by omega, rfl⟩
  · rw [if_neg none_]
    exact ⟨rfl, rest, rfl⟩

theorem sendRound_written (left : pDev.txFifo.nBytes ≠ 0) :
    (sendRound pDev).written = pDev.written ++
      burstWrites (readAt pDev.txFifo.pData pDev.txFifo.nSent (min pDev.txFifo.nBytes sciFifoSize))
        (pDev.txFifo.nBytes ≤ sciFifoSize) := by
  have nonempty : min pDev.txFifo.nBytes sciFifoSize ≠ 0 := by
    simp only [sciFifoSize]
    omega
  have last : pDev.txFifo.nBytes - min pDev.txFifo.nBytes sciFifoSize ≠ 0 ↔ ¬ pDev.txFifo.nBytes ≤ sciFifoSize := by
    omega
  simp only [sendRound, regSet, sciXprInt, burst_len, nonempty, last, if_false, burstWrites, ite_not, decide_eq_true_eq,
    List.append_assoc, List.cons_append, List.nil_append]

theorem iterate_nBytes (rounds : ℕ) (pDev : Dev) :
    (sendRound^[rounds] pDev).txFifo.nBytes = pDev.txFifo.nBytes - sciFifoSize * rounds := by
  induction rounds generalizing pDev with
  | zero => rfl
  | succ rounds ih =>
    rw [Function.iterate_succ_apply, ih, (sendRound_txFifo pDev).2.1]
    simp only [sciFifoSize]
    omega

theorem sendBursts_eq_iterate {rounds : ℕ} (fuel burst : ℕ) (enough : rounds < fuel)
    (more : sciFifoSize * rounds < pDev.txFifo.nBytes) (whole : pDev.txFifo.nBytes ≤ sciFifoSize * (rounds + 1)) :
    sendBursts (fun _ => true) fuel burst pDev = (true, sendRound^[rounds + 1] pDev) := by
  induction rounds generalizing fuel burst pDev with
  | zero =>
    obtain ⟨fuel, rfl⟩ := Nat.exists_eq_add_of_lt enough
    have nothing : (sendRound pDev).txFifo.nBytes = 0 := by
      rw [(sendRound_txFifo pDev).2.1]
      omega
    rw [Nat.zero_add, sendBursts]
    change (if ¬ (sendRound pDev).txFifo.nBytes = 0 then _ else (true, sendRound pDev)) = _
    rw [if_neg (not_not.mpr nothing)]
    rfl
  | succ rounds ih =>
    obtain ⟨fuel, rfl⟩ := Nat.exists_eq_succ_of_ne_zero (Nat.ne_of_gt (Nat.zero_lt_of_lt enough))
    have rest := (sendRound_txFifo pDev).2.1
    simp only [sciFifoSize] at more whole rest
    rw [sendBursts]
    change (if ¬ (sendRound pDev).txFifo.nBytes = 0 then sendBursts (fun _ => true) fuel (burst + 1) (sendRound pDev)
      else (true, sendRound pDev)) = _
    rw [if_pos (by omega), Function.iterate_succ_apply]
    exact ih fuel (burst + 1) (Nat.lt_of_succ_lt_succ enough) (by simp only [sciFifoSize]; omega)
      (by simp only [sciFifoSize]; omega)

/-- What the rounds write: the bytes from `nSent` on, in bursts. -/
theorem iterate_written {rounds : ℕ} (more : sciFifoSize * rounds < pDev.txFifo.nBytes)
    (whole : pDev.txFifo.nBytes ≤ sciFifoSize * (rounds + 1)) :
    ∃ bursts : List (List Byte), bursts.length = rounds + 1 ∧
      bursts.flatten = readAt pDev.txFifo.pData pDev.txFifo.nSent pDev.txFifo.nBytes ∧
      (∀ burst ∈ bursts, 1 ≤ burst.length ∧ burst.length ≤ sciFifoSize) ∧
      (sendRound^[rounds + 1] pDev).written = pDev.written ++ frameWrites bursts := by
  induction rounds generalizing pDev with
  | zero =>
    have all : min pDev.txFifo.nBytes sciFifoSize = pDev.txFifo.nBytes := by omega
    have written := @sendRound_written pDev (by omega)
    rw [all, decide_eq_true (by omega)] at written
    refine ⟨[readAt pDev.txFifo.pData pDev.txFifo.nSent pDev.txFifo.nBytes], rfl, List.flatten_singleton, ?_, ?_⟩
    · intro burst member
      rw [List.mem_singleton.mp member, readAt_length]
      omega
    · rw [frameWrites, frameWrites, List.append_nil]
      exact written
  | succ rounds ih =>
    obtain ⟨pData, rest, sent⟩ := sendRound_txFifo pDev
    have full : min pDev.txFifo.nBytes sciFifoSize = sciFifoSize := by
      simp only [sciFifoSize] at more ⊢
      omega
    have written := @sendRound_written pDev (by omega)
    have long : ¬ pDev.txFifo.nBytes ≤ sciFifoSize := by
      simp only [sciFifoSize] at more ⊢
      omega
    rw [full, decide_eq_false long] at written
    rw [full] at sent
    simp only [sciFifoSize] at more whole rest sent written
    obtain ⟨bursts, count, bytes, sizes, log⟩ := @ih (sendRound pDev) (by simp only [sciFifoSize]; omega)
      (by simp only [sciFifoSize]; omega)
    refine ⟨readAt pDev.txFifo.pData pDev.txFifo.nSent 64 :: bursts, by rw [List.length_cons, count], ?_, ?_, ?_⟩
    · rw [List.flatten_cons, bytes, pData, sent, rest, ← readAt_add, Nat.add_sub_cancel' (by omega)]
    · rintro burst (_ | ⟨_, member⟩)
      · rw [readAt_length]
        decide
      · exact sizes burst member
    · have more_ : bursts.isEmpty = false := by
        rw [List.isEmpty_eq_false_iff_exists_mem]
        exact List.exists_mem_of_length_pos (by omega)
      rw [Function.iterate_succ_apply, log, written, frameWrites, more_, List.append_assoc]

end

/-- A frame of any length: the loop ends after as many rounds as the frame has bursts, which are written in order, and
marks the end of the message behind the last one only. -/
theorem sendBursts_fragments (pDev : Dev) (fresh : pDev.txFifo.nSent = 0) (nonempty : 1 ≤ pDev.txFifo.nBytes) :
    let frame := readAt pDev.txFifo.pData 0 pDev.txFifo.nBytes
    let calls := (frame.length + sciFifoSize - 1) / sciFifoSize
    sendBursts (fun _ => true) (burstFuel pDev) 0 pDev = (true, sendRound^[calls] pDev) ∧
      (∀ j, (sendRound^[j] pDev).txFifo.nBytes = 0 ↔ calls ≤ j) ∧
      ∃ bursts : List (List Byte), bursts.length = calls ∧ bursts.flatten = frame ∧
        (∀ burst ∈ bursts, 1 ≤ burst.length ∧ burst.length ≤ sciFifoSize) ∧
        (sendRound^[calls] pDev).written = pDev.written ++ frameWrites bursts := by
  intro frame calls
  have count : calls = (pDev.txFifo.nBytes + sciFifoSize - 1) / sciFifoSize := by
    rw [← readAt_length pDev.txFifo.pData 0 pDev.txFifo.nBytes]
  simp only [sciFifoSize] at count
  obtain ⟨rounds, succ⟩ := Nat.exists_eq_succ_of_ne_zero (show calls ≠ 0 by omega)
  have more : sciFifoSize * rounds < pDev.txFifo.nBytes := by
    simp only [sciFifoSize]
    omega
  have whole : pDev.txFifo.nBytes ≤ sciFifoSize * (rounds + 1) := by
    simp only [sciFifoSize]
    omega
  refine ⟨?_, fun j => ?_, ?_⟩
  · rw [succ]
    exact sendBursts_eq_iterate _ 0 (by simp only [sciFifoSize, burstFuel] at more ⊢; omega) more whole
  · rw [iterate_nBytes]
    simp only [sciFifoSize]
    omega
  · obtain ⟨bursts, length, bytes, sizes, written⟩ := iterate_written more whole
    rw [fresh] at bytes
    rw [succ]
    exact ⟨bursts, length, bytes, sizes, written⟩

/-- A frame of the longest size: two full bursts and one of four bytes. -/
theorem sendBursts_fragments_longest :
    sendBursts (fun _ => true) 133 0 { Dev.zeroed with txFifo := ⟨fun _ => 0, 132, 0⟩ } =
      (true, sendRound^[3] { Dev.zeroed with txFifo := ⟨fun _ => 0, 132, 0⟩ }) := by
  have sent := (sendBursts_fragments { Dev.zeroed with txFifo := ⟨fun _ => 0, 132, 0⟩ } rfl (by decide)).1
  rw [readAt_length] at sent
  exact sent

end Pef24628e
