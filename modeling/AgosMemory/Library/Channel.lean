import Mathlib.Tactic.Common

/-!
# Bounded channels

A channel holds up to `capacity` messages for its one receiver. Sending to a full channel blocks,
and sending after the receiver is gone discards the message. A channel without capacity hands a
message over while its receiver waits.
-/

namespace Library

structure Channel (α : Type) where
  capacity : Nat
  items : List α := []
  receiver : Bool := true

namespace Channel

variable {α : Type}

def bounded (capacity : Nat) : Channel α := { capacity }

/-- Whether the next message fits; `waiting` says that the receiver is blocked on the channel. -/
def hasRoom (ch : Channel α) (waiting : Bool) : Bool :=
  ch.items.length < ch.capacity ∨ (ch.capacity = 0 ∧ ch.items = [] ∧ waiting)

/-- `none` means that the sender blocks. -/
def send? (ch : Channel α) (waiting : Bool) (a : α) : Option (Channel α) :=
  if !ch.receiver then some ch
  else if ch.hasRoom waiting then some { ch with items := ch.items ++ [a] }
  else none

/-- The receiver is dropped, and with it the messages it did not take. -/
def close (ch : Channel α) : Channel α := { ch with items := [], receiver := false }

@[simp] theorem close_receiver (ch : Channel α) : ch.close.receiver = false := rfl

@[simp] theorem close_items (ch : Channel α) : ch.close.items = [] := rfl

@[simp] theorem hasRoom_busy (ch : Channel α) :
    ch.hasRoom false = true ↔ ch.items.length < ch.capacity := by
  simp [hasRoom]

theorem send?_closed {ch : Channel α} (h : ch.receiver = false) (waiting : Bool) (a : α) :
    ch.send? waiting a = some ch := by
  simp [send?, h]

theorem send?_room {ch : Channel α} {waiting : Bool} (h : ch.hasRoom waiting = true) (a : α) :
    ∃ ch', ch.send? waiting a = some ch' := by
  by_cases hr : ch.receiver = true
  · exact ⟨{ ch with items := ch.items ++ [a] }, by simp [send?, hr, h]⟩
  · exact ⟨ch, send?_closed (Bool.eq_false_iff.mpr hr) waiting a⟩

theorem send?_some {ch ch' : Channel α} {waiting : Bool} {a : α}
    (h : ch.send? waiting a = some ch') :
    (ch.receiver = false ∧ ch' = ch) ∨
      (ch.receiver = true ∧ ch.hasRoom waiting = true ∧
        ch' = { ch with items := ch.items ++ [a] }) := by
  unfold send? at h
  by_cases hr : ch.receiver = true
  · right
    rw [if_neg (by simp [hr])] at h
    by_cases hroom : ch.hasRoom waiting = true
    · rw [if_pos hroom] at h
      exact ⟨hr, hroom, (Option.some.inj h).symm⟩
    · rw [if_neg hroom] at h
      cases h
  · left
    rw [if_pos (by simp [hr])] at h
    exact ⟨Bool.eq_false_iff.mpr hr, (Option.some.inj h).symm⟩

/-- `ch'` is what `ch` becomes when `as` are sent to it. -/
def Gets (ch : Channel α) (as : List α) (ch' : Channel α) : Prop :=
  (ch.receiver = false ∧ ch' = ch) ∨
    (ch.receiver = true ∧ ch' = { ch with items := ch.items ++ as } ∧
      (as ≠ [] → (ch.items ++ as).length ≤ ch.capacity))

theorem gets_nil (ch : Channel α) : ch.Gets [] ch := by
  cases hr : ch.receiver with
  | false => exact Or.inl ⟨hr, rfl⟩
  | true => exact Or.inr ⟨hr, by rw [List.append_nil], fun h => absurd rfl h⟩

theorem gets_of_send {ch ch' : Channel α} {a : α} (h : ch.send? false a = some ch') :
    ch.Gets [a] ch' := by
  rcases send?_some h with h | ⟨hr, hroom, rfl⟩
  · exact Or.inl h
  · refine Or.inr ⟨hr, rfl, fun _ => ?_⟩
    have hlt := (hasRoom_busy ch).mp hroom
    rw [List.length_append, List.length_singleton]
    omega

end Channel

end Library
