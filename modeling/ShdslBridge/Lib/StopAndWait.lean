import Mathlib.Data.List.Infix

/-! # Stop-and-wait senders

A stop-and-wait sender has one message on the way at a time: it sends the next piece of its stream
only when it has heard that everything before has arrived, and until then it may send the same piece
again. `Sends` derives the log of what such a sender sends and hears. No message is in the log before
the acknowledgement of what is in front of it, and whatever part of the messages arrives, in any
order and however often, a receiver that takes what continues its data has a prefix of the stream.
-/

namespace StopAndWait

/-- What a sender sends and hears: a message with its place in the stream, and an acknowledgement of all in
front of a place. -/
inductive Item (α β : Type*)
  | sent (place : α) (piece : List β)
  | heard (place : α)
  deriving DecidableEq

namespace Item

variable {α γ β : Type*}

/-- Other names for the places. -/
def map (name : α → γ) : Item α β → Item γ β
  | sent place piece => sent (name place) piece
  | heard place => heard (name place)

/-- The data of a message. -/
def piece? : Item α β → Option (List β)
  | sent _ piece => some piece
  | heard _ => none

end Item

variable {β : Type*}

/-- What has been sent and heard so far, the length acknowledged, and the stream. -/
inductive Sends : List (Item ℕ β) → ℕ → List β → Prop
  | start : Sends [] 0 []
  | acknowledged {log acked stream} (before : Sends log acked stream) :
    Sends (log ++ [.heard stream.length]) stream.length stream
  | ignored {log acked stream} (before : Sends log acked stream) (place : ℕ) : Sends (log ++ [.heard place]) acked stream
  | fresh {log stream} (before : Sends log stream.length stream) (piece : List β) :
    Sends (log ++ [.sent stream.length piece]) stream.length (stream ++ piece)
  | again {log acked stream} (before : Sends log acked stream) :
    Sends (log ++ [.sent acked (stream.drop acked)]) acked stream

/-- Each message is behind an acknowledgement of all in front of it. -/
def Waits (log : List (Item ℕ β)) : Prop :=
  ∀ i place piece, log[i]? = some (.sent place piece) → place = 0 ∨ .heard place ∈ log.take i

theorem Waits.append {log : List (Item ℕ β)} (waits : Waits log) {item : Item ℕ β}
    (last : ∀ place piece, item = .sent place piece → place = 0 ∨ .heard place ∈ log) : Waits (log ++ [item]) := by
  intro i place piece found
  rcases Nat.lt_or_ge i log.length with inside | behind
  · rw [List.getElem?_append_left inside] at found
    rw [List.take_append_of_le_length inside.le]
    exact waits i place piece found
  · rw [List.getElem?_append_right behind, List.getElem?_singleton] at found
    split_ifs at found with first
    rw [show i = log.length by omega, List.take_left]
    exact last place piece (Option.some.inj found)

variable {log : List (Item ℕ β)} {acked : ℕ} {stream : List β}

theorem Sends.acked_le (sends : Sends log acked stream) : acked ≤ stream.length := by
  induction sends with
  | start | acknowledged => exact le_rfl
  | fresh before piece ih =>
    rw [List.length_append]
    exact Nat.le_add_right _ _
  | ignored _ _ ih | again _ ih => exact ih

/-- What is acknowledged has been heard of. -/
theorem Sends.acked_heard (sends : Sends log acked stream) : acked = 0 ∨ .heard acked ∈ log := by
  induction sends with
  | start => exact .inl rfl
  | acknowledged => exact .inr (List.mem_append_right _ List.mem_cons_self)
  | ignored _ _ ih | fresh _ _ ih | again _ ih => exact ih.imp_right (List.mem_append_left _)

/-- Nothing leaves before all in front of it is acknowledged. -/
theorem Sends.waits (sends : Sends log acked stream) : Waits log := by
  induction sends with
  | start => exact fun _ _ _ found => nomatch found
  | acknowledged _ ih | ignored _ _ ih => exact ih.append nofun
  | fresh before piece ih =>
    refine ih.append fun place _ same => ?_
    obtain ⟨rfl, -⟩ := Item.sent.inj same
    exact before.acked_heard
  | again before ih =>
    refine ih.append fun place _ same => ?_
    obtain ⟨rfl, -⟩ := Item.sent.inj same
    exact before.acked_heard

/-- Every message is a piece of the stream, at its place. -/
theorem Sends.piece (sends : Sends log acked stream) {place : ℕ} {piece : List β} (member : .sent place piece ∈ log) :
    place ≤ stream.length ∧ piece <+: stream.drop place := by
  induction sends with
  | start => exact absurd member List.not_mem_nil
  | acknowledged _ ih | ignored _ _ ih =>
    rcases List.mem_append.mp member with old | new
    · exact ih old
    · exact nomatch List.mem_singleton.mp new
  | @fresh log stream before last ih =>
    rcases List.mem_append.mp member with old | new
    · obtain ⟨within, front⟩ := ih old
      rw [List.length_append, List.drop_append_of_le_length within]
      exact ⟨by omega, front.trans (List.prefix_append _ _)⟩
    · obtain ⟨rfl, rfl⟩ := Item.sent.inj (List.mem_singleton.mp new)
      rw [List.length_append, List.drop_left]
      exact ⟨Nat.le_add_right _ _, List.prefix_refl _⟩
  | again before ih =>
    rcases List.mem_append.mp member with old | new
    · exact ih old
    · obtain ⟨rfl, rfl⟩ := Item.sent.inj (List.mem_singleton.mp new)
      exact ⟨before.acked_le, List.prefix_refl _⟩

/-- A receiver takes a message that continues what it has. -/
def take (got : List β) (message : ℕ × List β) : List β :=
  if message.1 = got.length then got ++ message.2 else got

/-- A prefix of the stream stays one, whichever message arrives next. -/
theorem Sends.take_prefix (sends : Sends log acked stream) {got : List β} (prefix_ : got <+: stream)
    {message : ℕ × List β} (member : .sent message.1 message.2 ∈ log) : take got message <+: stream := by
  rw [take]
  split_ifs with next
  · obtain ⟨rest, rfl⟩ := prefix_
    obtain ⟨-, front⟩ := sends.piece member
    rw [next, List.drop_left] at front
    exact (List.prefix_append_right_inj got).mpr front
  · exact prefix_

/-- Whatever arrives, the receiver has a prefix of the stream. -/
theorem Sends.received_prefix (sends : Sends log acked stream) (arrivals : List (ℕ × List β))
    (sent : ∀ message ∈ arrivals, .sent message.1 message.2 ∈ log) : arrivals.foldl take [] <+: stream := by
  suffices ∀ got, got <+: stream → arrivals.foldl take got <+: stream from this [] List.nil_prefix
  induction arrivals with
  | nil => exact fun _ prefix_ => prefix_
  | cons message rest ih =>
    intro got prefix_
    apply ih fun other member => sent other (List.mem_cons_of_mem _ member)
    exact sends.take_prefix prefix_ (sent message List.mem_cons_self)

end StopAndWait
