import ShdslBridge.Kernel.MessageQueue

/-! # What holds in every state of a message queue

The invariant has two parts. `Chains` says where the nodes are: in the free list, in the queue or in
the hands of a caller. The rest says what the nodes and the hands hold: the bytes of the message
whose number the ledger has in the same place. Each section of a call moves one node.
-/

namespace RtThread.MqState

open LinkedList Arrivals Memory

variable {τ : Type*} {maxMsgs : BitVec 16}

def hands (s : MqState τ maxMsgs) : List (MqNode maxMsgs) := s.calls.filterMap fun call => call.stage.node

/-! ### Where the nodes are -/

/-- Every node is in exactly one of the free list, the queue and the hands of a caller. -/
structure Chains (s : MqState τ maxMsgs) (free queue hands : List (MqNode maxMsgs)) : Prop where
  freeList : Linked s.next s.msgQueueFree free
  queueList : Linked s.next s.msgQueueHead queue
  tail : s.msgQueueTail = queue.getLast?
  partition : (free ++ queue ++ hands).Perm (List.finRange maxMsgs.toNat)

variable {s : MqState τ maxMsgs} {free queue hands : List (MqNode maxMsgs)} {node : MqNode maxMsgs}

theorem Chains.nodup (chains : s.Chains free queue hands) : (free ++ queue ++ hands).Nodup :=
  chains.partition.nodup_iff.mpr (List.nodup_finRange _)

theorem Chains.hand (chains : s.Chains free queue (node :: hands)) : node ∉ free ∧ node ∉ queue ∧ node ∉ hands := by
  have distinct := chains.nodup
  simp only [List.append_assoc, List.nodup_append', List.disjoint_append_right, List.disjoint_cons_right,
    List.nodup_cons] at distinct
  tauto

theorem Chains.queue_apart (chains : s.Chains free queue hands) (member : node ∈ queue) :
    node ∉ free ∧ node ∉ hands := by
  have distinct := chains.nodup
  simp only [List.append_assoc, List.nodup_append', List.disjoint_append_right] at distinct
  obtain ⟨-, ⟨-, -, handsApart⟩, freeApart, -⟩ := distinct
  exact ⟨fun free => freeApart free member, fun hand => handsApart member hand⟩

theorem Chains.perm {free queue hands hands' : List (MqNode maxMsgs)} (chains : s.Chains free queue hands)
    (same : hands'.Perm hands) : s.Chains free queue hands' :=
  { chains with partition := (same.append_left _).trans chains.partition }

theorem Chains.takeFree (chains : s.Chains free queue hands) (first : s.msgQueueFree = some node) :
    ∃ rest, Chains { s with msgQueueFree := s.next node } rest queue (node :: hands) := by
  obtain ⟨rest, rfl, linked⟩ := (first ▸ chains.freeList).cases_some
  refine ⟨rest, linked, chains.queueList, chains.tail, ?_⟩
  refine List.Perm.trans ?_ chains.partition
  simpa only [List.append_assoc, List.cons_append] using
    (List.perm_middle : ((rest ++ queue) ++ node :: hands).Perm (node :: ((rest ++ queue) ++ hands)))

/-- The copy of a send writes a node that is in the hands of its caller. -/
theorem Chains.copyIn (chains : s.Chains free queue (node :: hands)) (urgent : Bool) (buffer : List (BitVec 8)) :
    (s.copyIn urgent node buffer).Chains free queue (node :: hands) := by
  obtain ⟨notFree, notQueued, -⟩ := chains.hand
  cases urgent with
  | true => exact ⟨chains.freeList, chains.queueList, chains.tail, chains.partition⟩
  | false =>
    exact ⟨chains.freeList.update_outside notFree none, chains.queueList.update_outside notQueued none,
      chains.tail, chains.partition⟩

/-- `rt_mq_send` moves the node from its hands to the end of the queue. -/
theorem Chains.linkLast (chains : s.Chains free queue (node :: hands)) (unlinked : s.next node = none)
    (buffer : List (BitVec 8)) : (s.linkLast node buffer).Chains free (queue ++ [node]) hands := by
  obtain ⟨notFree, notQueued, -⟩ := chains.hand
  have partition : (free ++ (queue ++ [node]) ++ hands).Perm (List.finRange maxMsgs.toNat) := by
    simpa only [List.append_assoc, List.singleton_append] using chains.partition
  have tail := chains.tail
  rcases List.eq_nil_or_concat' queue with rfl | ⟨before, last, rfl⟩
  · have headNone : s.msgQueueHead = none := chains.queueList
    have links : (s.linkLast node buffer).next = s.next := by
      rw [List.getLast?_nil] at tail
      simp only [MqState.linkLast, tail]
    refine ⟨?_, ?_, rfl, partition⟩
    · rw [links]
      exact chains.freeList
    · rw [links]
      simp [MqState.linkLast, headNone, unlinked]
  · have links : (s.linkLast node buffer).next = Function.update s.next last (some node) := by
      rw [List.getLast?_concat] at tail
      simp only [MqState.linkLast, tail]
    have notLast : last ∉ free := (chains.queue_apart (by simp)).1
    have distinct : (before ++ [last]).Nodup := by
      have all := chains.nodup
      simp only [List.append_assoc free, List.nodup_append'] at all
      exact List.nodup_append'.mpr all.2.1.1
    have headSome : s.msgQueueHead ≠ none := by
      intro headNone
      have linked := chains.queueList
      rw [headNone, linked_none] at linked
      simp at linked
    refine ⟨?_, ?_, ?_, partition⟩
    · rw [links]
      exact chains.freeList.update_outside notLast _
    · rw [links]
      simpa [MqState.linkLast, headSome] using chains.queueList.append distinct notQueued unlinked
    · simp [MqState.linkLast]

/-- `rt_mq_urgent` moves the node from its hands to the front of the queue. -/
theorem Chains.linkFirst (chains : s.Chains free queue (node :: hands)) (buffer : List (BitVec 8)) :
    (s.linkFirst node buffer).Chains free (node :: queue) hands := by
  obtain ⟨notFree, notQueued, -⟩ := chains.hand
  have tail := chains.tail
  refine ⟨chains.freeList.update_outside notFree _, chains.queueList.push notQueued, ?_, ?_⟩
  · simp only [MqState.linkFirst, tail]
    rcases List.eq_nil_or_concat' queue with rfl | ⟨before, last, rfl⟩
    · simp
    · rw [List.getLast?_concat, ← List.cons_append, List.getLast?_concat]
      simp
  · refine List.Perm.trans ?_ chains.partition
    rw [List.append_assoc, List.append_assoc]
    exact List.Perm.append_left _ List.perm_middle.symm

theorem Chains.unlinkFirst (chains : s.Chains free (node :: queue) hands) :
    (s.unlinkFirst node).Chains free queue (node :: hands) := by
  refine ⟨chains.freeList, chains.queueList.2, ?_, ?_⟩
  · have distinct := chains.nodup
    have notLater : node ∉ queue := by
      simp only [List.append_assoc, List.nodup_append', List.cons_append, List.nodup_cons] at distinct
      simp only [List.mem_append, not_or] at distinct
      tauto
    simp only [MqState.unlinkFirst, chains.tail]
    rcases List.eq_nil_or_concat' queue with rfl | ⟨before, last, rfl⟩
    · simp
    · have ne : last ≠ node := by
        rintro rfl
        simp at notLater
      rw [List.getLast?_concat, ← List.cons_append, List.getLast?_concat]
      simp [ne]
  · refine List.Perm.trans ?_ chains.partition
    rw [List.append_assoc, List.append_assoc]
    exact List.Perm.append_left _ List.perm_middle

/-- The end of a receive moves the node from its hands to the free list. -/
theorem Chains.putFree (chains : s.Chains free queue (node :: hands)) :
    (s.putFree node).Chains (node :: free) queue hands := by
  obtain ⟨notFree, notQueued, -⟩ := chains.hand
  refine ⟨chains.freeList.push notFree, chains.queueList.update_outside notQueued _, chains.tail, ?_⟩
  refine List.Perm.trans ?_ chains.partition
  simpa only [List.append_assoc, List.cons_append] using
    (List.perm_middle : ((free ++ queue) ++ node :: hands).Perm (node :: ((free ++ queue) ++ hands))).symm

/-- Two states that differ at most in the links and the ends of the lists. -/
structure SameContents (s s' : MqState τ maxMsgs) : Prop where
  msgSize : s'.msgSize = s.msgSize
  payload : s'.payload = s.payload
  calls : s'.calls = s.calls
  nextCall : s'.nextCall = s.nextCall
  label : s'.label = s.label
  obtained : s'.obtained = s.obtained

theorem releaseAll_same (s : MqState τ maxMsgs) (fuel : ℕ) : s.SameContents (s.releaseAll fuel) := by
  induction fuel generalizing s with
  | zero => exact ⟨rfl, rfl, rfl, rfl, rfl, rfl⟩
  | succ fuel ih =>
    rcases head : s.msgQueueHead with _ | node
    · simp only [releaseAll, head]
      exact ⟨rfl, rfl, rfl, rfl, rfl, rfl⟩
    · simp only [releaseAll, head]
      have same := ih ({ s with
        msgQueueHead := s.next node
        msgQueueTail := if s.msgQueueTail = some node then none else s.msgQueueTail }.putFree node)
      exact ⟨same.msgSize, same.payload, same.calls, same.nextCall, same.label, same.obtained⟩

theorem Chains.releaseAll (chains : s.Chains free queue hands) {fuel : ℕ} (enough : queue.length ≤ fuel) :
    (s.releaseAll fuel).Chains (queue.reverse ++ free) [] hands ∧
      ∀ node ∈ hands, (s.releaseAll fuel).next node = s.next node := by
  induction fuel generalizing s free queue with
  | zero =>
    obtain rfl : queue = [] := List.eq_nil_of_length_eq_zero (by omega)
    exact ⟨chains, fun _ _ => rfl⟩
  | succ fuel ih =>
    rcases queue with _ | ⟨node, rest⟩
    · have head : s.msgQueueHead = none := chains.queueList
      simp only [MqState.releaseAll, head]
      exact ⟨chains, fun _ _ => trivial⟩
    · have head : s.msgQueueHead = some node := chains.queueList.1
      have moved := chains.unlinkFirst.putFree
      have notHand : node ∉ hands := (chains.queue_apart (by simp)).2
      have once : Chains ({ s with
          msgQueueHead := s.next node
          msgQueueTail := if s.msgQueueTail = some node then none else s.msgQueueTail }.putFree node)
          (node :: free) rest hands := ⟨moved.freeList, moved.queueList, moved.tail, moved.partition⟩
      obtain ⟨last, kept⟩ := ih once (by simpa using enough)
      simp only [MqState.releaseAll, head]
      constructor
      · simpa using last
      · intro other member
        rw [kept other member]
        apply Function.update_of_ne
        rintro rfl
        exact notHand member

/-- The loop of `rt_mq_init`. -/
theorem initFree_linked (links : MqNode maxMsgs → Option (MqNode maxMsgs)) (free : Option (MqNode maxMsgs))
    {nodes added : List (MqNode maxMsgs)} (linked : Linked links free nodes) (distinct : (added ++ nodes).Nodup) :
    Linked
      (added.foldl (fun (links, free) node => (Function.update links node free, some node)) (links, free)).1
      (added.foldl (fun (links, free) node => (Function.update links node free, some node)) (links, free)).2
      (added.reverse ++ nodes) := by
  induction added generalizing links free nodes with
  | nil => exact linked
  | cons node rest ih =>
    obtain ⟨outside, distinct⟩ := List.nodup_cons.mp distinct
    have pushed := linked.push fun member => outside (List.mem_append_right rest member)
    have again : (rest ++ node :: nodes).Nodup :=
      (List.perm_middle.nodup_iff).mpr (List.nodup_cons.mpr ⟨outside, distinct⟩)
    simpa using ih _ _ pushed again

theorem chains_start (msgSize : ℕ) (pool : MqNode maxMsgs → ℕ → BitVec 8)
    (links : MqNode maxMsgs → Option (MqNode maxMsgs)) (flag : IpcFlag) (threads : τ → Thread)
    (tick : BitVec 32) :
    (start msgSize pool links flag threads tick).Chains (List.finRange maxMsgs.toNat).reverse [] [] where
  freeList := by
    have distinct : (List.finRange maxMsgs.toNat ++ []).Nodup := by
      simpa using List.nodup_finRange maxMsgs.toNat
    have linked := initFree_linked links none (linked_none.mpr rfl) distinct
    rwa [List.append_nil] at linked
  queueList := rfl
  tail := rfl
  partition := by
    simp

/-! ### What the nodes hold -/

/-- The node holds the bytes of the message whose number it carries. -/
def Holds (s : MqState τ maxMsgs) (node : MqNode maxMsgs) : Prop :=
  ∃ arrival, s.ledger.arrivals[s.label node]? = some arrival ∧ arrival.value.length ≤ s.msgSize ∧
    readAt (s.payload node) 0 arrival.value.length = arrival.value

/-- What a call in progress relies on. -/
def CallOk (s : MqState τ maxMsgs) (call : MqCall τ (MqNode maxMsgs)) : Prop :=
  match call.stage with
  | .sendTaken _ _ buffer => buffer.length ≤ s.msgSize
  | .sendCopied urgent node buffer => buffer.length ≤ s.msgSize ∧
    readAt (s.payload node) 0 buffer.length = buffer ∧ (urgent = false → s.next node = none)
  | .recvWaiting _ _ _ => True
  | .recvTaken node _ => s.Holds node
  | .recvCopied _ => True

def receives (label : MqNode maxMsgs → ℕ) (call : MqCall τ (MqNode maxMsgs)) : Option ℕ :=
  match call.stage with
  | .recvTaken node _ => some (label node)
  | _ => none

/-- The messages that receivers have taken and not copied yet. -/
def receiving (s : MqState τ maxMsgs) : List ℕ := s.calls.filterMap (receives s.label)

/-- The receiver got the bytes of the message, all of them if its buffer was as large. -/
def DeliveredOk (s : MqState τ maxMsgs) (delivery : MqDelivery) : Prop :=
  ∃ arrival, s.ledger.arrivals[delivery.number]? = some arrival ∧
    delivery.bytes.length = min delivery.size s.msgSize ∧
    delivery.bytes.take arrival.value.length = arrival.value.take delivery.size

/-- The invariant of a message queue, with the two lists of nodes. -/
structure Inv (s : MqState τ maxMsgs) (free queue : List (MqNode maxMsgs)) : Prop where
  chains : s.Chains free queue s.hands
  entry : s.entry.toNat = queue.length
  ids : (s.calls.map MqCall.id).Nodup
  old : ∀ call ∈ s.calls, call.id < s.nextCall
  calls : ∀ call ∈ s.calls, s.CallOk call
  queued : ∀ node ∈ queue, s.Holds node
  labels : queue.map s.label = s.ledger.waiting
  valid : s.ledger.Valid
  pending : (s.obtained.map MqDelivery.number ++ s.receiving).Perm s.ledger.taken
  delivered : ∀ delivery ∈ s.obtained, s.DeliveredOk delivery

/-- The later state keeps what the earlier one knew about messages, and about a node. -/
structure Keeps (s s' : MqState τ maxMsgs) (node : MqNode maxMsgs) : Prop where
  payload : s'.payload node = s.payload node
  label : s'.label node = s.label node
  next : s'.next node = s.next node

/-- Messages are only added. -/
structure Extends (s s' : MqState τ maxMsgs) : Prop where
  msgSize : s'.msgSize = s.msgSize
  arrivals : ∃ more, s'.ledger.arrivals = s.ledger.arrivals ++ more

theorem Extends.find {s s' : MqState τ maxMsgs} (extends_ : s.Extends s') {number : ℕ}
    {arrival : Arrival (List (BitVec 8))} (found : s.ledger.arrivals[number]? = some arrival) :
    s'.ledger.arrivals[number]? = some arrival := by
  obtain ⟨more, grown⟩ := extends_.arrivals
  rw [grown, List.getElem?_append_left (List.getElem?_eq_some_iff.mp found).1, found]

theorem Holds.keep {s s' : MqState τ maxMsgs} (holds : s.Holds node) (extends_ : s.Extends s')
    (payload : s'.payload node = s.payload node) (label : s'.label node = s.label node) : s'.Holds node := by
  obtain ⟨arrival, found, fits, bytes⟩ := holds
  refine ⟨arrival, ?_, extends_.msgSize ▸ fits, payload ▸ bytes⟩
  rw [label]
  exact extends_.find found

theorem CallOk.keep {s s' : MqState τ maxMsgs} {call : MqCall τ (MqNode maxMsgs)} (ok : s.CallOk call)
    (extends_ : s.Extends s') (keeps : ∀ node ∈ call.stage.node, s.Keeps s' node) : s'.CallOk call := by
  rcases call with ⟨id, caller, stage⟩
  cases stage with
  | sendTaken urgent node buffer =>
    simp only [CallOk] at ok ⊢
    exact extends_.msgSize ▸ ok
  | sendCopied urgent node buffer =>
    have kept := keeps node rfl
    obtain ⟨fits, bytes, unlinked⟩ := ok
    exact ⟨extends_.msgSize ▸ fits, kept.payload ▸ bytes, fun ordinary => kept.next ▸ unlinked ordinary⟩
  | recvWaiting => trivial
  | recvTaken node size =>
    have kept := keeps node rfl
    exact Holds.keep ok extends_ kept.payload kept.label
  | recvCopied => trivial

theorem DeliveredOk.keep {s s' : MqState τ maxMsgs} {delivery : MqDelivery} (ok : s.DeliveredOk delivery)
    (extends_ : s.Extends s') : s'.DeliveredOk delivery := by
  obtain ⟨arrival, found, length, bytes⟩ := ok
  exact ⟨arrival, extends_.find found, extends_.msgSize ▸ length, bytes⟩

theorem hand_of_call {call : MqCall τ (MqNode maxMsgs)} (member : call ∈ s.calls) (holds : node ∈ call.stage.node) :
    node ∈ s.hands :=
  List.mem_filterMap.mpr ⟨call, member, holds⟩

/-- The messages on their way to receivers, if the labels of the nodes in the hands are kept. -/
theorem receiving_congr {label : MqNode maxMsgs → ℕ} (same : ∀ node ∈ s.hands, label node = s.label node) :
    s.calls.filterMap (receives label) = s.receiving := by
  apply List.filterMap_congr
  intro call member
  rcases call with ⟨id, caller, stage⟩
  cases stage with
  | recvTaken node size => exact congrArg some (same node (hand_of_call member rfl))
  | sendTaken | sendCopied | recvWaiting | recvCopied => rfl

theorem Inv.perm {free queue : List (MqNode maxMsgs)} (inv : s.Inv free queue)
    {calls : List (MqCall τ (MqNode maxMsgs))} (same : calls.Perm s.calls) :
    Inv { s with calls } free queue where
  chains := by
    have chains := inv.chains.perm (same.filterMap _)
    exact ⟨chains.freeList, chains.queueList, chains.tail, chains.partition⟩
  entry := inv.entry
  ids := (same.map _).nodup_iff.mpr inv.ids
  old call member := inv.old call (same.mem_iff.mp member)
  calls call member :=
    (inv.calls call (same.mem_iff.mp member)).keep ⟨rfl, [], by simp⟩ fun _ _ => ⟨rfl, rfl, rfl⟩
  queued node member := (inv.queued node member).keep ⟨rfl, [], by simp⟩ rfl rfl
  labels := inv.labels
  valid := inv.valid
  pending := ((same.filterMap _).append_left _).trans inv.pending
  delivered delivery member := (inv.delivered delivery member).keep ⟨rfl, [], by simp⟩

/-! ### The sections of the calls -/

section Sections

variable {s : MqState τ maxMsgs} {call : MqCall τ (MqNode maxMsgs)} {free queue : List (MqNode maxMsgs)}

theorem Inv.other_ne (inv : (s.withCall call).Inv free queue) {node : MqNode maxMsgs}
    (holds : call.stage.node = some node) {other : MqCall τ (MqNode maxMsgs)} (member : other ∈ s.calls)
    {node' : MqNode maxMsgs} (holds' : node' ∈ other.stage.node) : node' ≠ node := by
  have hands : (s.withCall call).hands = node :: s.hands := by
    simp [hands, withCall, holds]
  have apart := (hands ▸ inv.chains).hand
  rintro rfl
  exact apart.2.2 (hand_of_call member holds')

theorem Inv.chains_cons (inv : (s.withCall call).Inv free queue) {node : MqNode maxMsgs}
    (holds : call.stage.node = some node) : s.Chains free queue (node :: s.hands) := by
  have hands : (s.withCall call).hands = node :: s.hands := by
    simp [hands, withCall, holds]
  have chains := hands ▸ inv.chains
  exact ⟨chains.freeList, chains.queueList, chains.tail, chains.partition⟩

variable {urgent : Bool} {buffer : List (BitVec 8)}

theorem Inv.copyIn (inv : (s.withCall call).Inv free queue) {node : MqNode maxMsgs}
    (stage : call.stage = .sendTaken urgent node buffer) :
    ((s.copyIn urgent node buffer).withCall { call with stage := .sendCopied urgent node buffer }).Inv
      free queue := by
  have holds : call.stage.node = some node := by rw [stage]; rfl
  have chains := inv.chains_cons holds
  obtain ⟨-, notQueued, -⟩ := chains.hand
  have fits : buffer.length ≤ s.msgSize := by
    have ok := inv.calls call List.mem_cons_self
    rw [CallOk, stage] at ok
    exact ok
  have copied := chains.copyIn urgent buffer
  constructor
  · exact ⟨copied.freeList, copied.queueList, copied.tail, copied.partition⟩
  · exact inv.entry
  · exact inv.ids
  · intro other member
    rcases List.mem_cons.mp member with rfl | member
    · exact inv.old call (by simp [withCall])
    · exact inv.old other (by simp [withCall, show other ∈ s.calls from member])
  · intro other member
    rcases List.mem_cons.mp member with rfl | member
    · refine ⟨fits, ?_, ?_⟩
      · simp [MqState.copyIn, withCall]
      · rintro rfl
        simp [MqState.copyIn, withCall]
    · have ok := inv.calls other (List.mem_cons_of_mem call member)
      refine ok.keep ⟨rfl, [], by simp [withCall, MqState.copyIn]⟩ fun node' holds' => ?_
      have ne := inv.other_ne holds member holds'
      refine ⟨?_, rfl, ?_⟩
      · simp [MqState.copyIn, withCall, ne]
      · cases urgent with
        | true => rfl
        | false => simp [MqState.copyIn, withCall, ne]
  · intro node' member
    have ne : node' ≠ node := fun same => notQueued (same ▸ member)
    refine (inv.queued node' member).keep ⟨rfl, [], by simp [withCall, MqState.copyIn]⟩ ?_ rfl
    simp [MqState.copyIn, withCall, ne]
  · exact inv.labels
  · exact inv.valid
  · have pending := inv.pending
    simp only [receiving, withCall, List.filterMap_cons, receives, stage] at pending ⊢
    exact pending
  · exact fun delivery member => (inv.delivered delivery member).keep ⟨rfl, [], by simp [withCall, MqState.copyIn]⟩

/-- A node with a number behind the others holds that message once it is linked. -/
theorem holds_linked {s' : MqState τ maxMsgs} {node : MqNode maxMsgs}
    (ok : buffer.length ≤ s.msgSize ∧ readAt (s.payload node) 0 buffer.length = buffer)
    (msgSize : s'.msgSize = s.msgSize) (payload : s'.payload = s.payload)
    (ledger : s'.ledger = s.ledger.arrive urgent buffer)
    (label : s'.label = Function.update s.label node s.ledger.arrivals.length) : s'.Holds node := by
  refine ⟨{ urgent, value := buffer, queued := s.ledger.waiting }, ?_, ?_, ?_⟩
  · rw [ledger, label, Function.update_self, Ledger.arrive]
    exact List.getElem?_concat_length
  · rw [msgSize]
    exact ok.1
  · rw [payload]
    exact ok.2

/-- The second section of a send: the node goes from the hands of its caller into the queue. -/
theorem Inv.link (inv : (s.withCall call).Inv free queue) {node : MqNode maxMsgs}
    (stage : call.stage = .sendCopied urgent node buffer) {s' : MqState τ maxMsgs} {queue' : List (MqNode maxMsgs)}
    (chains : s'.Chains free queue' s.hands) (order : queue' = if urgent then node :: queue else queue ++ [node])
    (next : ∀ other, other ≠ node → other ∉ queue → s'.next other = s.next other) (msgSize : s'.msgSize = s.msgSize)
    (payload : s'.payload = s.payload) (calls : s'.calls = s.calls) (nextCall : s'.nextCall = s.nextCall)
    (obtained : s'.obtained = s.obtained) (entry : s'.entry = s.entry + 1)
    (ledger : s'.ledger = s.ledger.arrive urgent buffer)
    (label : s'.label = Function.update s.label node s.ledger.arrivals.length) : s'.Inv free queue' := by
  have holds : call.stage.node = some node := by rw [stage]; rfl
  have before := inv.chains_cons holds
  obtain ⟨-, notQueued, notHand⟩ := before.hand
  have extends_ : (s.withCall call).Extends s' :=
    ⟨msgSize, _, by rw [ledger]; rfl⟩
  have ok := inv.calls call List.mem_cons_self
  rw [CallOk, stage] at ok
  have labelOther : ∀ other, other ≠ node → s'.label other = s.label other := fun other ne => by
    rw [label, Function.update_of_ne ne]
  constructor
  · rw [hands, calls]
    exact chains
  · have bound : (free ++ queue' ++ s.hands).length = maxMsgs.toNat := by
      rw [chains.partition.length_eq, List.length_finRange]
    have grown : queue'.length = queue.length + 1 := by
      rw [order]
      split <;> simp
    have counted : s.entry.toNat = queue.length := inv.entry
    have small : maxMsgs.toNat < 2 ^ 16 := maxMsgs.isLt
    simp only [List.length_append] at bound
    rw [entry, BitVec.toNat_add, counted, grown]
    exact Nat.mod_eq_of_lt (by simp; omega)
  · rw [calls]
    exact (List.nodup_cons.mp inv.ids).2
  · intro other member
    rw [nextCall]
    exact inv.old other (List.mem_cons_of_mem call (calls ▸ member))
  · intro other member
    rw [calls] at member
    refine (inv.calls other (List.mem_cons_of_mem call member)).keep extends_ fun node' holds' => ?_
    have ne := inv.other_ne holds member holds'
    have apart : node' ∉ queue := fun queued =>
      (before.queue_apart queued).2 (List.mem_cons_of_mem node (hand_of_call member holds'))
    exact ⟨congrFun payload node', labelOther node' ne, next node' ne apart⟩
  · intro node' member
    rcases eq_or_ne node' node with rfl | ne
    · exact holds_linked ⟨ok.1, ok.2.1⟩ msgSize payload ledger label
    · have queued : node' ∈ queue := by
        rw [order] at member
        split at member
        · simpa [ne] using member
        · simpa [ne] using member
      exact (inv.queued node' queued).keep extends_ (congrFun payload node') (labelOther node' ne)
  · have labels : queue.map s'.label = s.ledger.waiting := by
      rw [← show queue.map s.label = s.ledger.waiting from inv.labels]
      exact List.map_congr_left fun other member => labelOther other fun same => notQueued (same ▸ member)
    have last : s'.label node = s.ledger.arrivals.length := by rw [label, Function.update_self]
    rw [order, ledger]
    cases urgent with
    | true => simp [Ledger.arrive, labels, last]
    | false => simp [Ledger.arrive, labels, last]
  · rw [ledger]
    exact inv.valid.arrive urgent buffer
  · have pending := inv.pending
    have same : s'.receiving = s.receiving := by
      rw [receiving, calls]
      exact receiving_congr fun other member => labelOther other fun same => notHand (same ▸ member)
    simp only [receiving, withCall, List.filterMap_cons, receives, stage] at pending
    rw [obtained, same, ledger]
    exact pending
  · intro delivery member
    rw [obtained] at member
    exact (inv.delivered delivery member).keep extends_

theorem Inv.copyOut (inv : (s.withCall call).Inv free queue) {node : MqNode maxMsgs} {size : ℕ}
    (stage : call.stage = .recvTaken node size) :
    ((s.copyOut node size).withCall { call with stage := .recvCopied node }).Inv free queue := by
  have holds : call.stage.node = some node := by rw [stage]; rfl
  have chains := inv.chains_cons holds
  have ok := inv.calls call List.mem_cons_self
  rw [CallOk, stage] at ok
  obtain ⟨arrival, found, fits, bytes⟩ := ok
  constructor
  · exact ⟨chains.freeList, chains.queueList, chains.tail, chains.partition⟩
  · exact inv.entry
  · exact inv.ids
  · intro other member
    rcases List.mem_cons.mp member with rfl | member
    · exact inv.old call List.mem_cons_self
    · exact inv.old other (List.mem_cons_of_mem call member)
  · intro other member
    rcases List.mem_cons.mp member with rfl | member
    · trivial
    · exact (inv.calls other (List.mem_cons_of_mem call member)).keep ⟨rfl, [], by simp [withCall, MqState.copyOut]⟩
        fun _ _ => ⟨rfl, rfl, rfl⟩
  · exact fun node' member => (inv.queued node' member).keep ⟨rfl, [], by simp [withCall, MqState.copyOut]⟩ rfl rfl
  · exact inv.labels
  · exact inv.valid
  · have pending := inv.pending
    simp only [receiving, withCall, MqState.copyOut, List.filterMap_cons, receives, stage, List.map_append,
      List.map_cons, List.map_nil, List.append_assoc, List.singleton_append] at pending ⊢
    exact pending
  · intro delivery member
    rcases List.mem_append.mp member with before | new
    · exact (inv.delivered delivery before).keep ⟨rfl, [], by simp [withCall, MqState.copyOut]⟩
    · obtain rfl := List.mem_singleton.mp new
      refine ⟨arrival, found, ?_, ?_⟩
      · simp only [readAt_length, MqState.copyOut, withCall]
        split <;> omega
      · have small : arrival.value.length ≤ s.msgSize := fits
        have whole : readAt (s.payload node) 0 arrival.value.length = arrival.value := bytes
        have same : min arrival.value.length (if s.msgSize < size then s.msgSize else size) =
            min size arrival.value.length := by
          split <;> omega
        change (readAt (s.payload node) 0 (if s.msgSize < size then s.msgSize else size)).take
          arrival.value.length = arrival.value.take size
        rw [take_readAt, same, ← take_readAt, whole]

theorem Inv.putFree (inv : (s.withCall call).Inv free queue) {node : MqNode maxMsgs}
    (stage : call.stage = .recvCopied node) : (s.putFree node).Inv (node :: free) queue := by
  have holds : call.stage.node = some node := by rw [stage]; rfl
  have chains := inv.chains_cons holds
  constructor
  · exact chains.putFree
  · exact inv.entry
  · exact (List.nodup_cons.mp inv.ids).2
  · exact fun other member => inv.old other (List.mem_cons_of_mem call member)
  · intro other member
    refine (inv.calls other (List.mem_cons_of_mem call member)).keep
      ⟨rfl, [], by simp [withCall, MqState.putFree]⟩ fun node' holds' => ?_
    have ne := inv.other_ne holds member holds'
    exact ⟨rfl, rfl, by simp [MqState.putFree, withCall, ne]⟩
  · exact fun node' member => (inv.queued node' member).keep ⟨rfl, [], by simp [withCall, MqState.putFree]⟩ rfl rfl
  · exact inv.labels
  · exact inv.valid
  · have pending := inv.pending
    simp only [receiving, withCall, List.filterMap_cons, receives, stage] at pending
    exact pending
  · exact fun delivery member =>
      (inv.delivered delivery member).keep ⟨rfl, [], by simp [withCall, MqState.putFree]⟩

/-- A number that no call in progress has. -/
def Fresh (s : MqState τ maxMsgs) (id : ℕ) : Prop := id < s.nextCall ∧ ∀ call ∈ s.calls, call.id ≠ id

theorem Fresh.ids {id : ℕ} (fresh : s.Fresh id) (ids : (s.calls.map MqCall.id).Nodup) :
    (id :: s.calls.map MqCall.id).Nodup := by
  refine List.nodup_cons.mpr ⟨fun member => ?_, ids⟩
  obtain ⟨call, old, same⟩ := List.mem_map.mp member
  exact fresh.2 call old same

theorem Inv.frame (inv : s.Inv free queue) (suspendThread : List τ) (threads : τ → Thread) (tick : BitVec 32)
    (returned : List (ℕ × RtErr)) : Inv { s with suspendThread, threads, tick, returned } free queue where
  chains := ⟨inv.chains.freeList, inv.chains.queueList, inv.chains.tail, inv.chains.partition⟩
  entry := inv.entry
  ids := inv.ids
  old := inv.old
  calls call member := (inv.calls call member).keep ⟨rfl, [], by simp⟩ fun _ _ => ⟨rfl, rfl, rfl⟩
  queued node member := (inv.queued node member).keep ⟨rfl, [], by simp⟩ rfl rfl
  labels := inv.labels
  valid := inv.valid
  pending := inv.pending
  delivered delivery member := (inv.delivered delivery member).keep ⟨rfl, [], by simp⟩

theorem Inv.ret (inv : s.Inv free queue) (id : ℕ) (code : RtErr) : (s.ret id code).Inv free queue :=
  inv.frame s.suspendThread s.threads s.tick _

theorem Inv.begin (inv : s.Inv free queue) :
    Inv { s with nextCall := s.nextCall + 1 } free queue ∧ Fresh { s with nextCall := s.nextCall + 1 } s.nextCall := by
  constructor
  · exact {
      chains := ⟨inv.chains.freeList, inv.chains.queueList, inv.chains.tail, inv.chains.partition⟩
      entry := inv.entry
      ids := inv.ids
      old := fun call member => Nat.lt_succ_of_lt (inv.old call member)
      calls := fun call member =>
        (inv.calls call member).keep ⟨rfl, [], by simp⟩ fun _ _ => ⟨rfl, rfl, rfl⟩
      queued := fun node member => (inv.queued node member).keep ⟨rfl, [], by simp⟩ rfl rfl
      labels := inv.labels
      valid := inv.valid
      pending := inv.pending
      delivered := fun delivery member => (inv.delivered delivery member).keep ⟨rfl, [], by simp⟩ }
  · exact ⟨Nat.lt_succ_self _, fun call member => Nat.ne_of_lt (inv.old call member)⟩

/-- A new call that holds no message of the queue. -/
theorem Inv.addCall (inv : s.Inv free queue) {call : MqCall τ (MqNode maxMsgs)} (fresh : s.Fresh call.id)
    {msgQueueFree : Option (MqNode maxMsgs)} {rest : List (MqNode maxMsgs)}
    (chains : ({ s with msgQueueFree }.withCall call).Chains rest queue ({ s with msgQueueFree }.withCall call).hands)
    (ok : ({ s with msgQueueFree }.withCall call).CallOk call)
    (same : ({ s with msgQueueFree }.withCall call).receiving = s.receiving) :
    ({ s with msgQueueFree }.withCall call).Inv rest queue where
  chains := chains
  entry := inv.entry
  ids := fresh.ids inv.ids
  old := List.forall_mem_cons.mpr ⟨fresh.1, inv.old⟩
  calls other member := by
    rcases List.mem_cons.mp member with rfl | member
    · exact ok
    · exact (inv.calls other member).keep ⟨rfl, [], by simp [withCall]⟩ fun _ _ => ⟨rfl, rfl, rfl⟩
  queued node member := (inv.queued node member).keep ⟨rfl, [], by simp [withCall]⟩ rfl rfl
  labels := inv.labels
  valid := inv.valid
  pending := by
    rw [same]
    exact inv.pending
  delivered delivery member := (inv.delivered delivery member).keep ⟨rfl, [], by simp [withCall]⟩

theorem Inv.waiting_iff {id : ℕ} {caller : Option τ} {size : ℕ} {timeout tickDelta : BitVec 32} :
    (s.withCall { id, caller, stage := .recvWaiting size timeout tickDelta }).Inv free queue ↔
      s.Inv free queue ∧ s.Fresh id := by
  constructor
  · intro inv
    obtain ⟨new, distinct⟩ := List.nodup_cons.mp inv.ids
    constructor
    · exact {
        chains := ⟨inv.chains.freeList, inv.chains.queueList, inv.chains.tail, inv.chains.partition⟩
        entry := inv.entry
        ids := distinct
        old := fun call member => inv.old call (List.mem_cons_of_mem _ member)
        calls := fun call member =>
          (inv.calls call (List.mem_cons_of_mem _ member)).keep ⟨rfl, [], by simp [withCall]⟩
            fun _ _ => ⟨rfl, rfl, rfl⟩
        queued := fun node member => (inv.queued node member).keep ⟨rfl, [], by simp [withCall]⟩ rfl rfl
        labels := inv.labels
        valid := inv.valid
        pending := inv.pending
        delivered := fun delivery member =>
          (inv.delivered delivery member).keep ⟨rfl, [], by simp [withCall]⟩ }
    · refine ⟨inv.old _ List.mem_cons_self, fun call member same => new ?_⟩
      exact List.mem_map.mpr ⟨call, member, same⟩
  · rintro ⟨inv, fresh⟩
    have chains := inv.chains
    exact inv.addCall fresh ⟨chains.freeList, chains.queueList, chains.tail, chains.partition⟩ trivial rfl

/-- A send that starts: a free node goes to the hands of its caller. -/
theorem Inv.sendTaken (inv : s.Inv free queue) {id : ℕ} (fresh : s.Fresh id) (caller : Option τ) (urgent : Bool)
    {node : MqNode maxMsgs} (first : s.msgQueueFree = some node) (fits : buffer.length ≤ s.msgSize) :
    ∃ rest, ({ s with msgQueueFree := s.next node }.withCall
      { id, caller, stage := .sendTaken urgent node buffer }).Inv rest queue := by
  obtain ⟨rest, chains⟩ := inv.chains.takeFree first
  exact ⟨rest, inv.addCall fresh ⟨chains.freeList, chains.queueList, chains.tail, chains.partition⟩ fits rfl⟩

theorem Inv.unlinkFirst {node : MqNode maxMsgs} {rest : List (MqNode maxMsgs)} (inv : s.Inv free (node :: rest))
    {id : ℕ} (fresh : s.Fresh id) (caller : Option τ) (size : ℕ) :
    ((s.unlinkFirst node).withCall { id, caller, stage := .recvTaken node size }).Inv free rest := by
  have chains := inv.chains.unlinkFirst
  have waiting : s.ledger.waiting = s.label node :: rest.map s.label := inv.labels.symm
  have taking : s.ledger.take =
      { s.ledger with waiting := rest.map s.label, taken := s.ledger.taken ++ [s.label node] } := by
    rw [Ledger.take, waiting]
  have extends_ : s.Extends ((s.unlinkFirst node).withCall { id, caller, stage := .recvTaken node size }) :=
    ⟨rfl, [], by simp [withCall, MqState.unlinkFirst, taking]⟩
  constructor
  · exact ⟨chains.freeList, chains.queueList, chains.tail, chains.partition⟩
  · have counted : s.entry.toNat = rest.length + 1 := inv.entry
    change (s.entry - 1).toNat = rest.length
    bv_omega
  · exact fresh.ids inv.ids
  · exact List.forall_mem_cons.mpr ⟨fresh.1, inv.old⟩
  · intro call member
    rcases List.mem_cons.mp member with rfl | member
    · exact (inv.queued node List.mem_cons_self).keep extends_ rfl rfl
    · exact (inv.calls call member).keep extends_ fun _ _ => ⟨rfl, rfl, rfl⟩
  · intro other member
    exact (inv.queued other (List.mem_cons_of_mem node member)).keep extends_ rfl rfl
  · change rest.map s.label = s.ledger.take.waiting
    rw [taking]
  · exact inv.valid.take
  · change (s.obtained.map MqDelivery.number ++ (s.label node :: s.receiving)).Perm s.ledger.take.taken
    rw [taking]
    refine List.perm_middle.trans ?_
    exact (inv.pending.cons _).trans (List.perm_append_singleton ..).symm
  · exact fun delivery member => (inv.delivered delivery member).keep extends_

/-- A reset moves the queue to the free list and drops its messages. -/
theorem Inv.reset [DecidableEq τ] (inv : s.Inv free queue) : s.rtMqReset.Inv (queue.reverse ++ free) [] := by
  have bound : queue.length ≤ maxMsgs.toNat := by
    have length := inv.chains.partition.length_eq
    simp only [List.length_append, List.length_finRange] at length
    omega
  unfold rtMqReset
  simp only
  -- the waiting receivers are resumed first
  generalize (fun thread => if thread ∈ s.suspendThread then ((s.threads thread).setError .error).rtThreadResume
    else s.threads thread) = threads
  have resumed := inv.frame [] threads s.tick s.returned
  obtain ⟨chains, kept⟩ := resumed.chains.releaseAll bound
  obtain ⟨msgSize, payload, calls, nextCall, label, obtained⟩ :=
    releaseAll_same { s with suspendThread := [], threads } maxMsgs.toNat
  generalize MqState.releaseAll { s with suspendThread := [], threads } maxMsgs.toNat = released at *
  simp only at msgSize payload calls nextCall label obtained
  have extends_ : s.Extends { released with entry := 0, ledger := s.ledger.dropAll } :=
    ⟨msgSize, [], by simp [Ledger.dropAll]⟩
  constructor
  · rw [hands, calls]
    exact ⟨chains.freeList, chains.queueList, chains.tail, chains.partition⟩
  · rfl
  · rw [calls]
    exact inv.ids
  · intro call member
    rw [nextCall]
    exact inv.old call (calls ▸ member)
  · intro call member
    have before : call ∈ s.calls := calls ▸ member
    exact (inv.calls call before).keep extends_ fun node holds =>
      ⟨congrFun payload node, congrFun label node, kept node (hand_of_call before holds)⟩
  · simp
  · rfl
  · exact inv.valid.dropAll
  · have pending := inv.pending
    rw [receiving, obtained, calls, label]
    exact pending
  · intro delivery member
    exact (inv.delivered delivery (obtained ▸ member)).keep extends_

end Sections

/-! ### Every event keeps the invariant -/

/-- The invariant, for some two lists of nodes. -/
def Sound (s : MqState τ maxMsgs) : Prop := ∃ free queue, s.Inv free queue

theorem Sound.frame {s : MqState τ maxMsgs} (sound : s.Sound) (suspendThread : List τ) (threads : τ → Thread)
    (tick : BitVec 32) (returned : List (ℕ × RtErr)) :
    Sound { s with suspendThread, threads, tick, returned } := by
  obtain ⟨free, queue, inv⟩ := sound
  exact ⟨free, queue, inv.frame suspendThread threads tick returned⟩

variable [DecidableEq τ]

theorem Sound.setCallerError {s : MqState τ maxMsgs} (sound : s.Sound) (caller : Option τ) (code : RtErr) :
    (s.setCallerError caller code).Sound := by
  cases caller with
  | none => exact sound
  | some thread => exact sound.frame s.suspendThread _ s.tick s.returned

omit [DecidableEq τ] in
theorem Sound.ret {s : MqState τ maxMsgs} (sound : s.Sound) (id : ℕ) (code : RtErr) : (s.ret id code).Sound :=
  sound.frame s.suspendThread s.threads s.tick _

omit [DecidableEq τ] in
theorem Sound.takeFree {s : MqState τ maxMsgs} (sound : s.Sound) (caller : Option τ) (urgent : Bool)
    (buffer : List (BitVec 8)) : (s.takeFree caller urgent buffer).Sound := by
  obtain ⟨free, queue, inv⟩ := sound
  obtain ⟨begun, fresh⟩ := inv.begin
  simp only [MqState.takeFree]
  split
  · exact ⟨free, queue, begun.ret s.nextCall .error⟩
  · split
    · exact ⟨free, queue, begun.ret s.nextCall .efull⟩
    · obtain ⟨rest, taken⟩ := begun.sendTaken fresh caller urgent ‹_› (Nat.le_of_not_lt ‹_›)
      exact ⟨rest, queue, taken⟩

variable {id : ℕ}

theorem Sound.recvPass {s : MqState τ maxMsgs} (sound : s.Sound) (fresh : s.Fresh id) (caller : Option τ) (size : ℕ)
    (timeout tickDelta : BitVec 32) : (s.recvPass id caller size timeout tickDelta).Sound := by
  unfold MqState.recvPass
  split
  · split
    · exact (sound.setCallerError caller .etimeout).ret id .etimeout
    · cases caller with
      | none => exact sound
      | some thread =>
        obtain ⟨free, queue, inv⟩ := sound
        exact ⟨free, queue, Inv.waiting_iff.mpr ⟨inv.frame _ _ s.tick s.returned, fresh⟩⟩
  · obtain ⟨free, queue, inv⟩ := sound
    rcases head : s.msgQueueHead with _ | node
    · exact ⟨free, queue, inv⟩
    · obtain ⟨rest, rfl, -⟩ := (head ▸ inv.chains.queueList).cases_some
      exact ⟨free, rest, inv.unlinkFirst fresh caller size⟩

theorem Sound.rtMqRecv {s : MqState τ maxMsgs} (sound : s.Sound) (caller : Option τ) (size : ℕ)
    (timeout : BitVec 32) : (s.rtMqRecv caller size timeout).Sound := by
  obtain ⟨free, queue, inv⟩ := sound
  obtain ⟨begun, fresh⟩ := inv.begin
  simp only [MqState.rtMqRecv]
  split
  · exact ⟨free, queue, begun.ret s.nextCall .etimeout⟩
  · exact Sound.recvPass ⟨free, queue, begun⟩ fresh caller size timeout 0

theorem Sound.resumeRecv {s : MqState τ maxMsgs} (sound : s.Sound) (fresh : s.Fresh id) (thread : τ) (size : ℕ)
    (timeout tickDelta : BitVec 32) : (s.resumeRecv id thread size timeout tickDelta).Sound := by
  unfold MqState.resumeRecv
  split
  · exact sound.ret id _
  · split
    · exact sound.recvPass fresh (some thread) size _ _
    · exact sound.recvPass fresh (some thread) size timeout tickDelta

theorem Sound.proceedCall {s : MqState τ maxMsgs} {call : MqCall τ (MqNode maxMsgs)}
    (sound : (s.withCall call).Sound) : (s.proceedCall call).Sound := by
  obtain ⟨free, queue, inv⟩ := sound
  rcases stage : call.stage with ⟨urgent, node, buffer⟩ | ⟨urgent, node, buffer⟩ | ⟨size, timeout, tickDelta⟩ |
    ⟨node, size⟩ | node
  · simp only [MqState.proceedCall, stage]
    exact ⟨free, queue, inv.copyIn stage⟩
  · have holds : call.stage.node = some node := by rw [stage]; rfl
    have chains := inv.chains_cons holds
    have ok := inv.calls call List.mem_cons_self
    rw [CallOk, stage] at ok
    cases urgent with
    | true =>
      have linked := inv.link stage (chains.linkFirst buffer) rfl
        (fun other ne _ => Function.update_of_ne ne _ _) rfl rfl rfl rfl rfl rfl rfl rfl
      simp only [MqState.proceedCall, stage]
      exact Sound.ret ⟨free, _, linked.frame _ _ s.tick s.returned⟩ call.id .eok
    | false =>
      have next : ∀ other, other ≠ node → other ∉ queue → (s.linkLast node buffer).next other = s.next other := by
        intro other ne apart
        rcases tail : s.msgQueueTail with _ | last
        · simp only [MqState.linkLast, tail]
        · simp only [MqState.linkLast, tail]
          apply Function.update_of_ne
          rintro rfl
          exact apart (List.mem_of_getLast? (chains.tail.symm.trans tail))
      have linked := inv.link stage (chains.linkLast (ok.2.2 rfl) buffer) rfl next
        rfl rfl rfl rfl rfl rfl rfl rfl
      simp only [MqState.proceedCall, stage]
      exact Sound.ret ⟨free, _, linked.frame _ _ s.tick s.returned⟩ call.id .eok
  · have same : call = { id := call.id, caller := call.caller, stage := .recvWaiting size timeout tickDelta } := by
      rw [← stage]
    rw [same] at inv
    obtain ⟨inv, fresh⟩ := Inv.waiting_iff.mp inv
    simp only [MqState.proceedCall, stage]
    cases call.caller with
    | none => exact ⟨free, queue, inv⟩
    | some thread => exact Sound.resumeRecv ⟨free, queue, inv⟩ fresh thread size timeout tickDelta
  · simp only [MqState.proceedCall, stage]
    exact ⟨free, queue, inv.copyOut stage⟩
  · simp only [MqState.proceedCall, stage]
    exact ⟨node :: free, queue, (inv.putFree stage).ret call.id .eok⟩

/-- An entry found by its key, in front of the entries with other keys. -/
theorem find_perm {β : Type*} {key : β → ℕ} {entries : List β} (distinct : (entries.map key).Nodup) {entry : β}
    (found : entries.find? (fun other => key other = id) = some entry) :
    (entry :: entries.filter fun other => key other ≠ id).Perm entries := by
  induction entries with
  | nil => simp at found
  | cons head rest ih =>
    obtain ⟨new, distinct⟩ := List.nodup_cons.mp distinct
    rcases eq_or_ne (key head) id with rfl | ne
    · obtain rfl : head = entry := by simpa using found
      have others : rest.filter (fun other => key other ≠ key head) = rest := by
        apply List.filter_eq_self.mpr
        intro other member
        simp only [ne_eq, decide_not, Bool.not_eq_eq_eq_not, Bool.not_true, decide_eq_false_iff_not]
        exact fun same => new (List.mem_map.mpr ⟨other, member, same⟩)
      rw [List.filter_cons_of_neg (by simp), others]
    · have later : rest.find? (fun other => key other = id) = some entry := by simpa [ne] using found
      have perm := (ih distinct later).cons head
      simpa [ne] using (List.Perm.swap head entry _).trans perm

omit [DecidableEq τ] in
theorem Sound.select {s : MqState τ maxMsgs} (sound : s.Sound) {call : MqCall τ (MqNode maxMsgs)}
    (found : s.calls.find? (fun call => call.id = id) = some call) :
    ({ s with calls := s.calls.filter fun other => other.id ≠ id }.withCall call).Sound := by
  obtain ⟨free, queue, inv⟩ := sound
  exact ⟨free, queue, inv.perm (find_perm inv.ids found)⟩

theorem Sound.step {s : MqState τ maxMsgs} (sound : s.Sound) (event : MqEvent τ) : (s.step event).Sound := by
  cases event with
  | send caller urgent buffer =>
    simp only [MqState.step]
    split
    · exact sound.takeFree caller urgent buffer
    · exact sound
  | recv caller size timeout =>
    simp only [MqState.step]
    split
    · exact sound.rtMqRecv caller size timeout
    · exact sound
  | reset =>
    obtain ⟨free, queue, inv⟩ := sound
    exact ⟨_, _, inv.reset⟩
  | proceed id =>
    simp only [MqState.step]
    split
    · exact sound
    · split
      · exact (sound.select ‹_›).proceedCall
      · exact sound
  | timeout thread =>
    simp only [MqState.step]
    split
    · exact sound.frame _ _ s.tick s.returned
    · exact sound
  | tick => exact sound.frame s.suspendThread s.threads _ s.returned

omit [DecidableEq τ] in
theorem sound_start (msgSize : ℕ) (pool : MqNode maxMsgs → ℕ → BitVec 8)
    (links : MqNode maxMsgs → Option (MqNode maxMsgs)) (flag : IpcFlag) (threads : τ → Thread)
    (tick : BitVec 32) : (start msgSize pool links flag threads tick).Sound := by
  refine ⟨_, [], ⟨chains_start msgSize pool links flag threads tick, rfl, ?_, ?_, ?_, ?_, rfl, ?_, ?_, ?_⟩⟩
  · simp [start]
  · simp [start]
  · simp [start]
  · simp
  · exact Ledger.valid_empty
  · exact List.Perm.refl _
  · simp [start]

/-- The laws of a message queue. Every node is in exactly one of the free list, the queue and the
hands of a caller; `entry` and `msg_queue_tail` belong to the queue. Every linked message waits, was
received once or was discarded by a reset, and they are received in order; every received message
has been or is being copied to one receiver, with its bytes. -/
structure Correct (s : MqState τ maxMsgs) : Prop where
  lists : ∃ free queue, Linked s.next s.msgQueueFree free ∧ Linked s.next s.msgQueueHead queue ∧
    (free ++ queue ++ s.hands).Perm (List.finRange maxMsgs.toNat) ∧
    free.length + queue.length + s.hands.length = maxMsgs.toNat ∧
    s.entry.toNat = queue.length ∧ s.msgQueueTail = queue.getLast? ∧
    queue.map s.label = s.ledger.waiting
  accounted : s.ledger.Accounted
  inOrder : s.ledger.InOrder
  once : (s.obtained.map MqDelivery.number ++ s.receiving).Perm s.ledger.taken
  bytes : ∀ delivery ∈ s.obtained, s.DeliveredOk delivery

omit [DecidableEq τ] in
theorem Sound.correct {s : MqState τ maxMsgs} (sound : s.Sound) : s.Correct := by
  obtain ⟨free, queue, inv⟩ := sound
  have total := inv.chains.partition.length_eq
  simp only [List.length_append, List.length_finRange] at total
  exact {
    lists := ⟨free, queue, inv.chains.freeList, inv.chains.queueList, inv.chains.partition, total, inv.entry,
      inv.chains.tail, inv.labels⟩
    accounted := inv.valid.accounted
    inOrder := inv.valid.inOrder
    once := inv.pending
    bytes := inv.delivered }

/-- The laws hold in every state of every run. -/
theorem always_correct (msgSize : ℕ) (pool : MqNode maxMsgs → ℕ → BitVec 8)
    (links : MqNode maxMsgs → Option (MqNode maxMsgs)) (flag : IpcFlag) (threads : τ → Thread)
    (tick : BitVec 32) (events : List (MqEvent τ)) :
    Run.Always step Correct (start msgSize pool links flag threads tick) events := by
  apply Run.always_of_invariant _ _ (sound_start msgSize pool links flag threads tick)
  · intro s event sound
    exact sound.step event
  · intro s sound
    exact sound.correct

/-- Every linked message that is neither waiting nor on its way was obtained whole. -/
def ObtainedWhole (s : MqState τ maxMsgs) : Prop :=
  ∀ number arrival, s.ledger.arrivals[number]? = some arrival → number ∉ s.ledger.waiting →
    number ∉ s.receiving →
    ∃ delivery ∈ s.obtained, delivery.number = number ∧
      delivery.bytes.take arrival.value.length = arrival.value

/-- A queue of one node after `rt_mq_init`. -/
def oneNode : MqState Unit 1 :=
  start 8 (fun _ _ => 0) (fun _ => none) .fifo (fun _ => { currentPriority := 10, initPriority := 10 }) 0

/-- A message that a reset discards, and one of two bytes received with a size of one. -/
theorem resetOrShort_not_obtainedWhole :
    ¬ ObtainedWhole (Run.exec step oneNode [.send none false [7], .proceed 0, .proceed 0, .reset]) ∧
    ¬ ObtainedWhole (Run.exec step oneNode
      [.send none false [7, 8], .proceed 0, .proceed 0, .recv none 1 0, .proceed 1, .proceed 1]) := by
  constructor
  · intro whole
    obtain ⟨delivery, member, -⟩ := whole 0 ⟨false, [7], []⟩ (by decide) (by decide) (by decide)
    have nothing : (Run.exec step oneNode
      [.send none false [7], .proceed 0, .proceed 0, .reset]).obtained = [] := by decide
    rw [nothing] at member
    exact absurd member List.not_mem_nil
  · intro whole
    obtain ⟨delivery, member, -, bytes⟩ := whole 0 ⟨false, [7, 8], []⟩ (by decide) (by decide) (by decide)
    have only : (Run.exec step oneNode
      [.send none false [7, 8], .proceed 0, .proceed 0, .recv none 1 0, .proceed 1, .proceed 1]).obtained =
        [⟨0, 1, [7]⟩] := by decide
    rw [only, List.mem_singleton] at member
    rw [member] at bytes
    revert bytes
    decide

end RtThread.MqState
