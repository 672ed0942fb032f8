import Mathlib.Logic.Relation
import Mathlib.Tactic.Common

/-!
# A counted resource behind a condition variable

A lock guards a number of free units. A caller that finds none sleeps; a unit that comes back wakes one
sleeper, if there is one. Sleepers may also wake by themselves, and a woken one that finds nothing
sleeps again or gives up. Only numbers are kept, so nothing is said about who gets which unit.
-/

namespace Library.Monitor

/-- Units that are free or held, and callers that sleep or have been woken and not yet run. -/
structure Counts where
  free : Nat
  held : Nat
  asleep : Nat
  woken : Nat

/-- One critical section, or a sleeper that wakes by itself. -/
inductive Step : Counts → Counts → Prop
  | take {f h a w : Nat} : Step ⟨f + 1, h, a, w⟩ ⟨f, h + 1, a, w⟩
  | sleep {h a w : Nat} : Step ⟨0, h, a, w⟩ ⟨0, h, a + 1, w⟩
  | wake {f h a w : Nat} : Step ⟨f, h, a + 1, w⟩ ⟨f, h, a, w + 1⟩
  | takeWoken {f h a w : Nat} : Step ⟨f + 1, h, a, w + 1⟩ ⟨f, h + 1, a, w⟩
  | sleepAgain {h a w : Nat} : Step ⟨0, h, a, w + 1⟩ ⟨0, h, a + 1, w⟩
  | giveUp {h a w : Nat} : Step ⟨0, h, a, w + 1⟩ ⟨0, h, a, w⟩
  | notify {f h a w : Nat} : Step ⟨f, h + 1, a + 1, w⟩ ⟨f + 1, h, a, w + 1⟩
  | restore {f h w : Nat} : Step ⟨f, h + 1, 0, w⟩ ⟨f + 1, h, 0, w⟩

/-- While somebody sleeps, there is a woken caller for each free unit. -/
def Served (c : Counts) : Prop := c.asleep = 0 ∨ c.free ≤ c.woken

theorem Served.step {c d : Counts} (h : Served c) (hstep : Step c d) : Served d := by
  unfold Served at h ⊢
  cases hstep with
  | restore => exact .inl rfl
  | take | sleep | wake | takeWoken | sleepAgain | giveUp | notify =>
    dsimp only at h ⊢
    omega

/-- A sleeper beside a free unit is there only while another caller is on its way. -/
theorem Served.woken_pos {c : Counts} (h : Served c) (hasleep : 0 < c.asleep) (hfree : 0 < c.free) :
    0 < c.woken := by
  unfold Served at h
  omega

end Library.Monitor
