import AgosMemory.Library.Monitor
import Mathlib.Data.List.Basic
import Mathlib.Data.List.Nodup
import Mathlib.Data.List.Perm.Basic

/-!
# The pool of read connections

Each critical section under the pool mutex is one step: the first pass of `get_timeout`, what a woken
caller does once it has the mutex again, and the drop of a guard. Which sleeper a notification wakes,
and which sleepers wake spuriously or at their timeout, is left open.
-/

namespace AgosMemory.Pool

open Library

variable {C : Type}

/-! ## The model -/

/-- A read connection checked out of the pool. -/
structure PooledConn (C : Type) where
  slot : Nat
  conn : Option C

/-- A call of `get_timeout` that waits; the timeout is in milliseconds. -/
structure Waiter where
  timeout : Option Nat

/-- The pool, the calls that wait on its condition variable, those that have been woken and do not hold
the mutex yet, and the live guards. -/
structure ReadPool (C : Type) where
  slots : List (Option C)
  poisoned : Bool
  size : Nat
  asleep : List Waiter
  woken : List Waiter
  guards : List (PooledConn C)

/-- `ReadPool::open`: a size of `0` is promoted to `1`. -/
def openPool {E : Type} (connect : Nat → Except E C) (size : Nat) : Except E (ReadPool C) := do
  let conns ← (List.range (max size 1)).mapM connect
  return ⟨conns.map some, false, max size 1, [], [], []⟩

/-- The slots looked through: nothing is free, a panic, or a guard and the slots without it. -/
inductive Found (C : Type) where
  | nothing
  | panic
  | taken (guard : PooledConn C) (slots : List (Option C))

def takeFirst (slots : List (Option C)) : Found C :=
  match slots.findIdx? Option.isSome with
  | none => .nothing
  | some slot =>
    match slots[slot]? with
    | some (some conn) => .taken ⟨slot, some conn⟩ (slots.set slot none)
    | some none | none => .panic

/-- A pass of the loop, up to its return or its wait. A panic under the mutex poisons it. -/
def pass (w : Waiter) (p : ReadPool C) : ReadPool C :=
  match takeFirst p.slots with
  | .nothing => { p with asleep := p.asleep ++ [w] }
  | .panic => { p with poisoned := true }
  | .taken guard slots => { p with slots := slots, guards := p.guards ++ [guard] }

/-- After a wait: a call with a timeout that finds no connection returns `None`. -/
def resume (w : Waiter) (p : ReadPool C) : ReadPool C :=
  if w.timeout.isSome && p.slots.all Option.isNone then p else pass w p

/-- The sleeper in position `n`, if any, is woken. -/
def wakeAt (n : Nat) (p : ReadPool C) : ReadPool C :=
  match p.asleep[n]? with
  | none => p
  | some w => { p with asleep := p.asleep.eraseIdx n, woken := p.woken ++ [w] }

/-- `Drop for PooledConn`, where `n` is the sleeper that the notification wakes. With the mutex poisoned
the connection is lost. -/
def dropConn (n : Nat) (g : PooledConn C) (p : ReadPool C) : ReadPool C :=
  match g.conn with
  | none => p
  | some conn =>
    if p.poisoned then p
    else if g.slot < p.slots.length then
      wakeAt n { p with slots := p.slots.set g.slot (some conn) }
    else { p with poisoned := true }

inductive Step : ReadPool C → ReadPool C → Prop
  | call {p : ReadPool C} (w : Waiter) : Step p (pass w p)
  /-- A spurious wake-up, or the end of a timeout. -/
  | wake {p : ReadPool C} {n : Nat} : n < p.asleep.length → Step p (wakeAt n p)
  | resume {p : ReadPool C} {n : Nat} {w : Waiter} : p.woken[n]? = some w →
      Step p (resume w { p with woken := p.woken.eraseIdx n })
  /-- The end of a guard's scope, or the unwinding of a panic in its reader. The panic began before the
  mutex was taken, so it does not poison it. -/
  | drop {p : ReadPool C} {k n : Nat} {g : PooledConn C} : p.guards[k]? = some g →
      (p.asleep ≠ [] → n < p.asleep.length) →
      Step p (dropConn n g { p with guards := p.guards.eraseIdx k })

def available (p : ReadPool C) : Nat := if p.poisoned then 0 else p.slots.countP Option.isSome

/-! ## One pass -/

/-- What looking through the slots finds: it never panics. -/
private theorem takeFirst_cases (slots : List (Option C)) :
    (takeFirst slots = .nothing ∧ ∀ o ∈ slots, o = none) ∨
      ∃ slot c, slots[slot]? = some (some c) ∧
        takeFirst slots = .taken ⟨slot, some c⟩ (slots.set slot none) := by
  unfold takeFirst
  cases hfirst : slots.findIdx? Option.isSome with
  | none =>
    refine .inl ⟨rfl, fun o ho => ?_⟩
    have hnone := List.findIdx?_eq_none_iff.mp hfirst o ho
    exact Option.not_isSome_iff_eq_none.mp (by rw [hnone]; exact Bool.false_ne_true)
  | some slot =>
    obtain ⟨hlt, hsome, _⟩ := List.findIdx?_eq_some_iff_getElem.mp hfirst
    obtain ⟨c, hc⟩ := Option.isSome_iff_exists.mp hsome
    have hslot : slots[slot]? = some (some c) := by rw [List.getElem?_eq_getElem hlt, hc]
    refine .inr ⟨slot, c, hslot, ?_⟩
    simp only [hslot]

/-- What a pass does: the caller sleeps because nothing is free, or it gets a free connection. -/
private theorem pass_cases (w : Waiter) (p : ReadPool C) :
    ((∀ o ∈ p.slots, o = none) ∧ pass w p = { p with asleep := p.asleep ++ [w] }) ∨
      ∃ slot c, p.slots[slot]? = some (some c) ∧
        pass w p = { p with
          slots := p.slots.set slot none, guards := p.guards ++ [⟨slot, some c⟩] } := by
  unfold pass
  rcases takeFirst_cases p.slots with ⟨hfound, hnone⟩ | ⟨slot, c, hslot, hfound⟩
  · exact .inl ⟨hnone, by rw [hfound]⟩
  · exact .inr ⟨slot, c, hslot, by rw [hfound]⟩

private theorem wakeAt_slots (n : Nat) (p : ReadPool C) :
    (wakeAt n p).slots = p.slots ∧ (wakeAt n p).guards = p.guards ∧
      (wakeAt n p).poisoned = p.poisoned ∧ (wakeAt n p).size = p.size := by
  unfold wakeAt
  split <;> exact ⟨rfl, rfl, rfl, rfl⟩

/-! ## Where the connections are -/

/-- Each connection is in its own slot or in one live guard. -/
structure Conserved (conns : List C) (p : ReadPool C) : Prop where
  sound : p.poisoned = false
  length : p.slots.length = conns.length
  home : ∀ (i : Nat) (c : C), p.slots[i]? = some (some c) → conns[i]? = some c
  out : ∀ g ∈ p.guards, p.slots[g.slot]? = some none ∧ g.conn = conns[g.slot]?
  once : (p.guards.map PooledConn.slot).Nodup
  lent : ∀ i : Nat, p.slots[i]? = some none → i ∈ p.guards.map PooledConn.slot

/-- Who sleeps and who is awake does not matter. -/
theorem Conserved.congr {conns : List C} {p q : ReadPool C} (h : Conserved conns p)
    (hslots : q.slots = p.slots) (hguards : q.guards = p.guards)
    (hpoisoned : q.poisoned = p.poisoned) : Conserved conns q where
  sound := hpoisoned.trans h.sound
  length := by rw [hslots, h.length]
  home i c hi := h.home i c (hslots ▸ hi)
  out g hg := by
    rw [hslots]
    exact h.out g (hguards ▸ hg)
  once := by
    rw [hguards]
    exact h.once
  lent i hi := by
    rw [hguards]
    exact h.lent i (hslots ▸ hi)

/-- A free connection goes to a new guard. -/
theorem Conserved.take {conns : List C} {p : ReadPool C} (h : Conserved conns p) {slot : Nat} {c : C}
    (hslot : p.slots[slot]? = some (some c)) :
    Conserved conns { p with
      slots := p.slots.set slot none, guards := p.guards ++ [⟨slot, some c⟩] } := by
  have hlt : slot < p.slots.length := (List.getElem?_eq_some_iff.mp hslot).1
  have hself : (p.slots.set slot none)[slot]? = some none := List.getElem?_set_self hlt
  constructor
  case sound => exact h.sound
  case length => exact (List.length_set).trans h.length
  case home =>
    intro i d hi
    by_cases heq : i = slot
    · rw [heq, hself] at hi
      cases hi
    · rw [List.getElem?_set_ne (Ne.symm heq)] at hi
      exact h.home i d hi
  case out =>
    intro g hg
    rcases List.mem_append.mp hg with hg | hg
    · obtain ⟨hout, hconn⟩ := h.out g hg
      have hne : slot ≠ g.slot := by
        rintro rfl
        rw [hout] at hslot
        cases hslot
      exact ⟨by rw [List.getElem?_set_ne hne, hout], hconn⟩
    · obtain rfl := List.mem_singleton.mp hg
      exact ⟨hself, (h.home slot c hslot).symm⟩
  case once =>
    rw [List.map_append, List.nodup_append]
    refine ⟨h.once, List.nodup_singleton _, fun i hi j hj => ?_⟩
    obtain ⟨g, hg, rfl⟩ := List.mem_map.mp hi
    obtain rfl := List.mem_singleton.mp hj
    rintro heq
    have hout := (h.out g hg).1
    rw [heq, hslot] at hout
    cases hout
  case lent =>
    intro i hi
    rw [List.map_append, List.mem_append]
    by_cases heq : i = slot
    · exact .inr (List.mem_singleton.mpr heq)
    · rw [List.getElem?_set_ne (Ne.symm heq)] at hi
      exact .inl (h.lent i hi)

/-- A guard in position `k` and the guards without it. -/
private theorem guards_split {gs : List (PooledConn C)} {k : Nat} {g : PooledConn C}
    (hk : gs[k]? = some g) :
    gs.Perm (g :: gs.eraseIdx k) := by
  obtain ⟨hlt, rfl⟩ := List.getElem?_eq_some_iff.mp hk
  exact (List.getElem_cons_eraseIdx_perm hlt).symm

/-- The connection of a dropped guard returns to its own slot. -/
theorem Conserved.restore {conns : List C} {p : ReadPool C} (h : Conserved conns p) {k : Nat}
    {g : PooledConn C} (hk : p.guards[k]? = some g) :
    ∃ c, g.conn = some c ∧ g.slot < p.slots.length ∧
      Conserved conns { p with
        slots := p.slots.set g.slot (some c), guards := p.guards.eraseIdx k } := by
  have hperm := guards_split hk
  obtain ⟨hout, hconn⟩ := h.out g (List.mem_of_getElem? hk)
  have hlt : g.slot < p.slots.length := (List.getElem?_eq_some_iff.mp hout).1
  have hlt' : g.slot < conns.length := h.length ▸ hlt
  have hc := List.getElem?_eq_getElem hlt'
  have hself : (p.slots.set g.slot (some conns[g.slot]))[g.slot]? = some (some conns[g.slot]) :=
    List.getElem?_set_self hlt
  have honce : (g.slot :: (p.guards.eraseIdx k).map PooledConn.slot).Nodup :=
    (hperm.map PooledConn.slot).nodup_iff.mp h.once
  refine ⟨conns[g.slot], hconn.trans hc, hlt, ?_⟩
  constructor
  case sound => exact h.sound
  case length => exact (List.length_set).trans h.length
  case home =>
    intro i d hi
    by_cases heq : i = g.slot
    · rw [heq, hself] at hi
      rw [heq, hc]
      exact Option.some.inj hi
    · rw [List.getElem?_set_ne (Ne.symm heq)] at hi
      exact h.home i d hi
  case out =>
    intro g' hg'
    obtain ⟨hout', hconn'⟩ := h.out g' (List.mem_of_mem_eraseIdx hg')
    have hne : g.slot ≠ g'.slot := fun heq =>
      (List.nodup_cons.mp honce).1 (heq ▸ List.mem_map_of_mem hg')
    exact ⟨by rw [List.getElem?_set_ne hne, hout'], hconn'⟩
  case once => exact (List.nodup_cons.mp honce).2
  case lent =>
    intro i hi
    by_cases heq : i = g.slot
    · rw [heq, hself] at hi
      cases hi
    · rw [List.getElem?_set_ne (Ne.symm heq)] at hi
      have hmem := (hperm.map PooledConn.slot).mem_iff.mp (h.lent i hi)
      exact (List.mem_cons.mp hmem).resolve_left heq

/-- What the drop of a live guard does. -/
private theorem dropConn_eq {conns : List C} {p : ReadPool C} (h : Conserved conns p) {k : Nat}
    {g : PooledConn C} (hk : p.guards[k]? = some g) (n : Nat) :
    ∃ c, g.conn = some c ∧ g.slot < p.slots.length ∧
      dropConn n g { p with guards := p.guards.eraseIdx k } =
        wakeAt n { p with
          slots := p.slots.set g.slot (some c), guards := p.guards.eraseIdx k } := by
  obtain ⟨c, hconn, hlt, _⟩ := h.restore hk
  refine ⟨c, hconn, hlt, ?_⟩
  have hsound : ¬ p.poisoned = true := by
    rw [h.sound]
    exact Bool.false_ne_true
  unfold dropConn
  simp only [hconn]
  rw [if_neg hsound, if_pos hlt]

theorem Conserved.pass {conns : List C} {p : ReadPool C} (h : Conserved conns p) (w : Waiter) :
    Conserved conns (pass w p) := by
  rcases pass_cases w p with ⟨_, heq⟩ | ⟨slot, c, hslot, heq⟩
  · rw [heq]
    exact h.congr rfl rfl rfl
  · rw [heq]
    exact h.take hslot

theorem Conserved.wakeAt {conns : List C} {p : ReadPool C} (h : Conserved conns p) (n : Nat) :
    Conserved conns (wakeAt n p) := by
  obtain ⟨hslots, hguards, hpoisoned, _⟩ := wakeAt_slots n p
  exact h.congr hslots hguards hpoisoned

theorem Conserved.step {conns : List C} {p q : ReadPool C} (h : Conserved conns p)
    (hstep : Step p q) : Conserved conns q := by
  cases hstep with
  | call w => exact h.pass w
  | wake _ => exact h.wakeAt _
  | @resume n w _ =>
    have hrest : Conserved conns { p with woken := p.woken.eraseIdx n } := h.congr rfl rfl rfl
    unfold resume
    split
    · exact hrest
    · exact hrest.pass w
  | @drop k n g hk _ =>
    obtain ⟨c, hconn, _, heq⟩ := dropConn_eq h hk n
    obtain ⟨c', hconn', _, hrestored⟩ := h.restore hk
    obtain rfl := Option.some.inj (hconn.symm.trans hconn')
    rw [heq]
    exact hrestored.wakeAt n

/-! ## The pool is a monitor -/

/-- The numbers of a pool. -/
def counts (p : ReadPool C) : Monitor.Counts :=
  ⟨p.slots.countP Option.isSome, p.guards.length, p.asleep.length, p.woken.length⟩

private theorem countP_take {slots : List (Option C)} {slot : Nat} {c : C}
    (h : slots[slot]? = some (some c)) :
    slots.countP Option.isSome = (slots.set slot none).countP Option.isSome + 1 := by
  obtain ⟨hlt, hc⟩ := List.getElem?_eq_some_iff.mp h
  have hpos : 0 < slots.countP Option.isSome :=
    List.countP_pos_iff.mpr ⟨some c, List.mem_of_getElem? h, rfl⟩
  rw [List.countP_set hlt, hc]
  simp only [Option.isSome_some, Option.isSome_none, if_true, Bool.false_eq_true, if_false]
  omega

private theorem countP_restore {slots : List (Option C)} {slot : Nat} (c : C)
    (h : slots[slot]? = some none) :
    (slots.set slot (some c)).countP Option.isSome = slots.countP Option.isSome + 1 := by
  obtain ⟨hlt, hnone⟩ := List.getElem?_eq_some_iff.mp h
  rw [List.countP_set hlt, hnone]
  simp only [Option.isSome_some, Option.isSome_none, if_true, Bool.false_eq_true, if_false]
  omega

private theorem countP_none {slots : List (Option C)} (h : ∀ o ∈ slots, o = none) :
    slots.countP Option.isSome = 0 := by
  rw [List.countP_eq_zero]
  intro o ho
  rw [h o ho]
  exact Bool.false_ne_true

private theorem eraseIdx_succ {α : Type} {xs : List α} {n : Nat} {a : α} (h : xs[n]? = some a) :
    xs.length = (xs.eraseIdx n).length + 1 := by
  have hlt := (List.getElem?_eq_some_iff.mp h).1
  rw [List.length_eraseIdx_of_lt hlt]
  omega

/-- A notification wakes a sleeper, if there is one. -/
private theorem counts_wakeAt {p : ReadPool C} {n : Nat} {w : Waiter} (h : p.asleep[n]? = some w) :
    counts (wakeAt n p) = { counts p with
      asleep := (p.asleep.eraseIdx n).length, woken := p.woken.length + 1 } := by
  unfold wakeAt counts
  simp only [h, List.length_append, List.length_singleton]

/-- The first pass of a call. -/
private theorem counts_pass (w : Waiter) (p : ReadPool C) :
    Monitor.Step (counts p) (counts (pass w p)) := by
  rcases pass_cases w p with ⟨hnone, heq⟩ | ⟨slot, c, hslot, heq⟩
  · rw [heq]
    unfold counts
    simp only [countP_none hnone, List.length_append, List.length_singleton]
    exact .sleep
  · rw [heq]
    unfold counts
    simp only [countP_take hslot, List.length_append, List.length_singleton]
    exact .take

/-- The pass of a woken call. -/
private theorem counts_resume {p : ReadPool C} {n : Nat} {w : Waiter} (h : p.woken[n]? = some w) :
    Monitor.Step (counts p) (counts (resume w { p with woken := p.woken.eraseIdx n })) := by
  unfold resume
  split
  · next hexpired =>
    have hnone : ∀ o ∈ p.slots, o = none := fun o ho => Option.isNone_iff_eq_none.mp
      (List.all_eq_true.mp (Bool.and_eq_true_iff.mp hexpired).2 o ho)
    unfold counts
    simp only [countP_none hnone, eraseIdx_succ h]
    exact .giveUp
  · rcases pass_cases w { p with woken := p.woken.eraseIdx n } with
      ⟨hnone, heq⟩ | ⟨slot, c, hslot, heq⟩
    · rw [heq]
      unfold counts
      simp only [countP_none hnone, eraseIdx_succ h, List.length_append, List.length_singleton]
      exact .sleepAgain
    · rw [heq]
      unfold counts
      simp only [countP_take hslot, eraseIdx_succ h, List.length_append, List.length_singleton]
      exact .takeWoken

/-- A step of the pool is a step of the monitor. -/
theorem Conserved.simulates {conns : List C} {p q : ReadPool C} (h : Conserved conns p)
    (hstep : Step p q) : Monitor.Step (counts p) (counts q) := by
  cases hstep with
  | call w => exact counts_pass w p
  | @wake n hn =>
    have hw := List.getElem?_eq_getElem hn
    rw [counts_wakeAt hw]
    unfold counts
    simp only [eraseIdx_succ hw]
    exact .wake
  | resume hw => exact counts_resume hw
  | @drop k n g hk hn =>
    obtain ⟨c, _, _, heq⟩ := dropConn_eq h hk n
    have hout := (h.out g (List.mem_of_getElem? hk)).1
    rw [heq]
    by_cases hasleep : p.asleep = []
    · have halone : Pool.wakeAt n { p with
          slots := p.slots.set g.slot (some c), guards := p.guards.eraseIdx k } =
          { p with slots := p.slots.set g.slot (some c), guards := p.guards.eraseIdx k } := by
        unfold Pool.wakeAt
        simp only [hasleep, List.getElem?_nil]
      rw [halone]
      unfold counts
      simp only [countP_restore c hout, eraseIdx_succ hk, hasleep, List.length_nil]
      exact .restore
    · have hw := List.getElem?_eq_getElem (hn hasleep)
      rw [counts_wakeAt (p := { p with
        slots := p.slots.set g.slot (some c), guards := p.guards.eraseIdx k }) hw]
      unfold counts
      simp only [countP_restore c hout, eraseIdx_succ hk, eraseIdx_succ hw]
      exact .notify

/-! ## Runs -/

theorem Step.size {p q : ReadPool C} (hstep : Step p q) : q.size = p.size := by
  have hpass : ∀ (w : Waiter) (p : ReadPool C), (pass w p).size = p.size := by
    intro w p
    unfold pass
    split <;> rfl
  cases hstep with
  | call w => exact hpass w p
  | wake _ => exact (wakeAt_slots _ p).2.2.2
  | resume _ =>
    unfold Pool.resume
    split
    · rfl
    · exact hpass _ _
  | drop _ _ =>
    unfold dropConn
    split
    · rfl
    · split
      · rfl
      · split
        · exact (wakeAt_slots _ _).2.2.2
        · rfl

/-- What holds of a pool over these connections, whatever happened to it. -/
structure Sound (conns : List C) (p : ReadPool C) : Prop where
  conserved : Conserved conns p
  served : Monitor.Served (counts p)
  size : p.size = conns.length

theorem Sound.run {conns : List C} {p q : ReadPool C} (h : Sound conns p)
    (hrun : Relation.ReflTransGen Step p q) : Sound conns q := by
  induction hrun with
  | refl => exact h
  | tail _ hstep ih =>
    exact ⟨ih.conserved.step hstep, ih.served.step (ih.conserved.simulates hstep),
      hstep.size.trans ih.size⟩

private theorem mapM_length {α β E : Type} {f : α → Except E β} {xs : List α} {ys : List β}
    (h : xs.mapM f = .ok ys) : ys.length = xs.length := by
  induction xs generalizing ys with
  | nil =>
    rw [List.mapM_nil] at h
    cases h
    rfl
  | cons x xs ih =>
    rw [List.mapM_cons] at h
    cases hx : f x with
    | error e =>
      rw [hx] at h
      cases h
    | ok y =>
      cases hxs : xs.mapM f with
      | error e =>
        rw [hx, hxs] at h
        cases h
      | ok zs =>
        rw [hx, hxs] at h
        cases h
        rw [List.length_cons, ih hxs, List.length_cons]

/-- An opened pool holds all its connections. -/
private theorem openPool_sound {E : Type} {connect : Nat → Except E C} {size : Nat} {p : ReadPool C}
    (h : openPool connect size = .ok p) :
    ∃ conns, conns.length = max size 1 ∧ p.slots = conns.map some ∧ Sound conns p := by
  unfold openPool at h
  cases hconns : (List.range (max size 1)).mapM connect with
  | error e =>
    rw [hconns] at h
    cases h
  | ok conns =>
    rw [hconns] at h
    obtain rfl := Except.ok.inj h
    have hlength : conns.length = max size 1 := by rw [mapM_length hconns, List.length_range]
    refine ⟨conns, hlength, rfl, ?_, .inl rfl, hlength.symm⟩
    constructor
    case sound => rfl
    case length => exact List.length_map some
    case home =>
      intro i c hi
      rw [List.getElem?_map] at hi
      obtain ⟨d, hd, hdc⟩ := Option.map_eq_some_iff.mp hi
      rw [hd, Option.some.inj hdc]
    case out => exact fun g hg => absurd hg List.not_mem_nil
    case once => exact List.nodup_nil
    case lent =>
      intro i hi
      rw [List.getElem?_map] at hi
      obtain ⟨d, _, hd⟩ := Option.map_eq_some_iff.mp hi
      cases hd

/-- Connection `i` is in its own slot and in no guard, or in exactly one live guard. -/
def OnePlace (p : ReadPool C) (i : Nat) (c : C) : Prop :=
  (p.slots[i]? = some (some c) ∧ (p.guards.map PooledConn.slot).count i = 0) ∨
    (p.slots[i]? = some none ∧ (p.guards.map PooledConn.slot).count i = 1 ∧ ⟨i, some c⟩ ∈ p.guards)

theorem Conserved.onePlace {conns : List C} {p : ReadPool C} (h : Conserved conns p) {i : Nat} {c : C}
    (hc : conns[i]? = some c) : OnePlace p i c := by
  have hlt : i < p.slots.length := h.length ▸ (List.getElem?_eq_some_iff.mp hc).1
  have hslot := List.getElem?_eq_getElem hlt
  cases hvalue : p.slots[i] with
  | some d =>
    rw [hvalue] at hslot
    obtain rfl := Option.some.inj (hc.symm.trans (h.home i d hslot))
    refine .inl ⟨hslot, List.count_eq_zero.mpr fun hmem => ?_⟩
    obtain ⟨g, hg, rfl⟩ := List.mem_map.mp hmem
    rw [(h.out g hg).1] at hslot
    cases hslot
  | none =>
    rw [hvalue] at hslot
    obtain ⟨g, hg, rfl⟩ := List.mem_map.mp (h.lent i hslot)
    refine .inr ⟨hslot, List.count_eq_one_of_mem h.once (List.mem_map_of_mem hg), ?_⟩
    have hconn := (h.out g hg).2
    rw [hc] at hconn
    rw [← hconn]
    exact hg

/-- With no guard left every connection is in its slot. -/
theorem Conserved.all_home {conns : List C} {p : ReadPool C} (h : Conserved conns p)
    (hguards : p.guards = []) : p.slots = conns.map some := by
  refine List.ext_getElem? fun i => ?_
  rw [List.getElem?_map]
  cases hc : conns[i]? with
  | none =>
    rw [List.getElem?_eq_none_iff] at hc
    rw [Option.map_none, List.getElem?_eq_none_iff, h.length]
    exact hc
  | some c =>
    rcases h.onePlace hc with ⟨hslot, _⟩ | ⟨_, _, hmem⟩
    · exact hslot
    · rw [hguards] at hmem
      exact absurd hmem List.not_mem_nil

/-- The connection of a guard is back in its slot after the drop. -/
theorem Conserved.returned {conns : List C} {p : ReadPool C} (h : Conserved conns p) {k : Nat}
    {g : PooledConn C} (hk : p.guards[k]? = some g) (n : Nat) :
    (dropConn n g { p with guards := p.guards.eraseIdx k }).slots[g.slot]? = some g.conn := by
  obtain ⟨c, hconn, hlt, heq⟩ := dropConn_eq h hk n
  rw [heq, (wakeAt_slots n _).1, hconn]
  exact List.getElem?_set_self hlt

/-- In every run of an opened pool each connection is in one place, guards hold the connections of
different slots, a drop puts a connection back into its slot, without guards the pool is as it was
opened, and a sleeper beside a free slot is there only while a woken call has not run yet. -/
theorem pool_conserves {E : Type} {connect : Nat → Except E C} {size : Nat} {p q : ReadPool C}
    (hopen : openPool connect size = .ok p) (hrun : Relation.ReflTransGen Step p q) :
    ∃ conns : List C, conns.length = max size 1 ∧ p.slots = conns.map some ∧
      (∀ i c, conns[i]? = some c → OnePlace q i c) ∧
      (∀ g ∈ q.guards, g.slot < conns.length ∧ g.conn = conns[g.slot]?) ∧
      (q.guards.map PooledConn.slot).Nodup ∧
      (∀ k n g, q.guards[k]? = some g →
        (dropConn n g { q with guards := q.guards.eraseIdx k }).slots[g.slot]? = some g.conn) ∧
      (q.guards = [] → q.slots = p.slots ∧ available q = p.size) ∧
      ((∃ w ∈ q.asleep, w.timeout = none) → (∃ c, some c ∈ q.slots) → q.woken ≠ []) := by
  obtain ⟨conns, hlength, hslots, hsound⟩ := openPool_sound hopen
  have hend := hsound.run hrun
  have hconserved := hend.conserved
  refine ⟨conns, hlength, hslots, fun i c hc => hconserved.onePlace hc, fun g hg => ?_,
    hconserved.once, fun k n g hk => hconserved.returned hk n, fun hguards => ?_, ?_⟩
  · obtain ⟨hout, hconn⟩ := hconserved.out g hg
    exact ⟨hconserved.length ▸ (List.getElem?_eq_some_iff.mp hout).1, hconn⟩
  · have hhome := hconserved.all_home hguards
    refine ⟨hhome.trans hslots.symm, ?_⟩
    have hall : (conns.map some).countP Option.isSome = conns.length := by
      rw [List.countP_map]
      exact List.countP_eq_length.mpr fun _ _ => rfl
    rw [available, hconserved.sound, if_neg Bool.false_ne_true, hhome, hall, hsound.size]
  · rintro ⟨w, hw, _⟩ ⟨c, hc⟩
    have hasleep : 0 < (counts q).asleep := List.length_pos_of_mem hw
    have hfree : 0 < (counts q).free := List.countP_pos_iff.mpr ⟨some c, hc, rfl⟩
    exact List.length_pos_iff.mp (hend.served.woken_pos hasleep hfree)

/-- A pool of one connection and three calls: after the first guard is dropped the connection is back,
one call still sleeps and the other has been woken. -/
theorem pool_conserves_sample :
    ∃ p q : ReadPool Nat, openPool (E := String) (fun i => .ok (i + 7)) 0 = .ok p ∧
      Relation.ReflTransGen Step p q ∧ q.slots = [some 7] ∧ q.asleep.length = 1 ∧ q.woken ≠ [] := by
  have hopen : openPool (E := String) (fun i => .ok (i + 7)) 0 =
      .ok ⟨[some 7], false, 1, [], [], []⟩ := rfl
  have hdrop : Step (⟨[none], false, 1, [⟨none⟩, ⟨none⟩], [], [⟨0, some 7⟩]⟩ : ReadPool Nat) _ :=
    Step.drop (k := 0) (n := 0) (g := ⟨0, some 7⟩) rfl fun _ => Nat.zero_lt_succ 1
  have hrun : Relation.ReflTransGen Step (⟨[some 7], false, 1, [], [], []⟩ : ReadPool Nat)
      ⟨[some 7], false, 1, [⟨none⟩], [⟨none⟩], []⟩ :=
    .tail (.tail (.tail (.single (.call ⟨none⟩)) (.call ⟨none⟩)) (.call ⟨none⟩)) hdrop
  obtain ⟨_, _, _, _, _, _, _, _, hserved⟩ := pool_conserves hopen hrun
  have hwoken := hserved ⟨⟨none⟩, List.mem_cons_self, rfl⟩ ⟨7, List.mem_cons_self⟩
  exact ⟨_, _, hopen, hrun, rfl, rfl, hwoken⟩

end AgosMemory.Pool
