import Sylar.Lib.Ring

/-! `timer.cc`: the wheel of slots, the timers and their manager. A `Timer` object is known by
its address, and the manager's `timers` holds the objects made so far under theirs. Every
reading of the monotonic clock is an argument. -/

namespace Sylar

structure TimerSlot where
  timers : List ℕ
  expiration : ℕ
deriving DecidableEq, Repr

/-- What `timers.clear()` and `expiration = 0` leave of a slot. -/
def TimerSlot.cleared : TimerSlot := ⟨[], 0⟩

/-- The vector has `m_slotSize` slots, the current slot is one of them, and a tick takes time. -/
structure TimeWheel where
  m_slotSize : ℕ
  m_tickMs : ℕ
  m_currentSlot : ℕ
  m_slots : List TimerSlot
  tick_pos : 0 < m_tickMs
  slots_length : m_slots.length = m_slotSize
  current_lt : m_currentSlot < m_slotSize
deriving DecidableEq

namespace TimeWheel

def new (slot_size tick_ms : ℕ) (hsize : 0 < slot_size) (htick : 0 < tick_ms) : TimeWheel where
  m_slotSize := slot_size
  m_tickMs := tick_ms
  m_currentSlot := 0
  m_slots := List.replicate slot_size .cleared
  tick_pos := htick
  slots_length := List.length_replicate
  current_lt := hsize

theorem size_pos (w : TimeWheel) : 0 < w.m_slotSize := Nat.zero_lt_of_lt w.current_lt

/-- The slot of a timer that is due in `diff` milliseconds; the sum is a `size_t`. -/
def slotFor (w : TimeWheel) (diff : ℕ) : ℕ :=
  (w.m_currentSlot + diff / w.m_tickMs) % 2 ^ 64 % w.m_slotSize

/-- `addTimer(timer)` with `timer->m_next` and the clock at `now`. -/
def addTimer (w : TimeWheel) (timer m_next now : ℕ) : Bool × TimeWheel :=
  if m_next < now then (false, w)
  else
    (true, { w with
      m_slots := w.m_slots.modify (w.slotFor (m_next - now)) fun slot =>
        ⟨slot.timers ++ [timer], m_next⟩
      slots_length := (List.length_modify _ _ _).trans w.slots_length })

/-- The loop of `getNextTimer` over the slots from the current one on. -/
def nextLoop (now : ℕ) : ℕ → List TimerSlot → ℕ
  | next, [] => next
  | next, slot :: slots =>
      if slot.timers = [] then nextLoop now next slots
      else if slot.expiration ≤ now then 0
      else nextLoop now (min next (slot.expiration - now)) slots

def getNextTimer (w : TimeWheel) (now : ℕ) : ℕ :=
  nextLoop now (2 ^ 64 - 1) (w.m_slots.rotate w.m_currentSlot)

def currentSlot (w : TimeWheel) : TimerSlot :=
  w.m_slots.get ⟨w.m_currentSlot, w.slots_length ▸ w.current_lt⟩

/-- What a turn of the loop of `getExpiredTimers` does to the wheel. -/
def advance (w : TimeWheel) : TimeWheel :=
  { w with
    m_slots := w.m_slots.set w.m_currentSlot .cleared
    m_currentSlot := (w.m_currentSlot + 1) % w.m_slotSize
    slots_length := List.length_set.trans w.slots_length
    current_lt := Nat.mod_lt _ w.size_pos }

/-- The loop of `getExpiredTimers`, for at most `fuel` turns. -/
def expireLoop (now : ℕ) : ℕ → TimeWheel → List ℕ → Option (List ℕ × TimeWheel)
  | 0, _, _ => none
  | fuel + 1, w, expired =>
      if now < w.currentSlot.expiration then some (expired, w)
      else expireLoop now fuel w.advance (expired ++ w.currentSlot.timers)

/-- `getExpiredTimers` with the clock at `now`. The loop of a wheel with `n` slots ends in
its turn `n` or never (`returns_iff`). -/
def getExpiredTimers (w : TimeWheel) (now : ℕ) : Option (List ℕ × TimeWheel) :=
  expireLoop now w.m_slotSize w []

end TimeWheel

structure Timer (Cb : Type) where
  m_recurring : Bool
  m_ms : ℕ
  m_next : ℕ
  m_cb : Option Cb
deriving DecidableEq

/-- `GetMonotonicMS() + m_ms`, where the clock reads `t`. -/
def deadline (t ms : ℕ) : ℕ := (t + ms) % 2 ^ 64

def Timer.new {Cb : Type} (ms : ℕ) (cb : Option Cb) (recurring : Bool) (t : ℕ) : Timer Cb :=
  ⟨recurring, ms, deadline t ms, cb⟩

/-- Why a call has no result: it does not return, or it is for a timer that was not made. -/
inductive TimerFault where
  | hangs
  | noTimer
deriving DecidableEq, Repr

structure TimerManager (Cb : Type) where
  m_timeWheel : TimeWheel
  m_tickled : Bool
  timers : List (Timer Cb)
deriving DecidableEq

namespace TimerManager

variable {Cb : Type}

def new : TimerManager Cb := ⟨.new 60 1000 (by decide) (by decide), false, []⟩

def timerAt (m : TimerManager Cb) (timer : ℕ) : Except TimerFault (Timer Cb) :=
  match m.timers[timer]? with
  | none => .error .noTimer
  | some τ => .ok τ

/-- A `Timer` object is written, and `m_timeWheel.addTimer` is called with it at `t`. -/
def place (m : TimerManager Cb) (timer : ℕ) (τ : Timer Cb) (t : ℕ) : Bool × TimerManager Cb :=
  let r := m.m_timeWheel.addTimer timer τ.m_next t
  (r.1, { m with m_timeWheel := r.2, timers := m.timers.set timer τ })

/-- `addTimer(ms, cb, recurring)`: the constructor reads `t₁` and the wheel `t₂`. Whether
the wheel took the timer is only used to set `m_tickled`. -/
def addTimer (m : TimerManager Cb) (ms : ℕ) (cb : Option Cb) (recurring : Bool) (t₁ t₂ : ℕ) :
    ℕ × TimerManager Cb :=
  let timer := m.timers.length
  let τ := Timer.new ms cb recurring t₁
  let r := place { m with timers := m.timers ++ [τ] } timer τ t₂
  (timer, { r.2 with m_tickled := m.m_tickled || r.1 })

def cancel (m : TimerManager Cb) (timer : ℕ) : Except TimerFault (Bool × TimerManager Cb) := do
  let τ ← m.timerAt timer
  if τ.m_cb.isSome then
    .ok (true, { m with timers := m.timers.set timer { τ with m_cb := none } })
  else .ok (false, m)

def refresh (m : TimerManager Cb) (timer t₁ t₂ : ℕ) : Except TimerFault (Bool × TimerManager Cb) := do
  let τ ← m.timerAt timer
  if τ.m_cb.isNone then .ok (false, m)
  else .ok (m.place timer { τ with m_next := deadline t₁ τ.m_ms } t₂)

/-- `start + m_ms` of `Timer::reset`. The old deadline less the old period is a `uint64_t`. -/
def resetDeadline (τ : Timer Cb) (ms : ℕ) (from_now : Bool) (t₁ : ℕ) : ℕ :=
  deadline (if from_now then t₁ else (τ.m_next + (2 ^ 64 - τ.m_ms)) % 2 ^ 64) ms

def reset (m : TimerManager Cb) (timer ms : ℕ) (from_now : Bool) (t₁ t₂ : ℕ) :
    Except TimerFault (Bool × TimerManager Cb) := do
  let τ ← m.timerAt timer
  if ms = τ.m_ms ∧ !from_now then .ok (true, m)
  else if τ.m_cb.isNone then .ok (false, m)
  else .ok (m.place timer { τ with m_ms := ms, m_next := resetDeadline τ ms from_now t₁ } t₂)

def getNextTimer (m : TimerManager Cb) (now : ℕ) : ℕ × TimerManager Cb :=
  (m.m_timeWheel.getNextTimer now, { m with m_tickled := false })

def hasTimer (m : TimerManager Cb) (now : ℕ) : Bool := m.m_timeWheel.getNextTimer now != 2 ^ 64 - 1

/-- `IOManager::stopping`, where `stopping` is what `Scheduler::stopping` says. -/
def stopping (m : TimerManager Cb) (m_pendingEventCount : ℕ) (stopping : Bool) (now : ℕ) : Bool :=
  (m.getNextTimer now).1 == 2 ^ 64 - 1 && m_pendingEventCount == 0 && stopping

/-- The first part of `listExpiredCb`: the timers taken out of the wheel. -/
def takeExpired (m : TimerManager Cb) (now : ℕ) : Except TimerFault (List ℕ × TimerManager Cb) :=
  match m.m_timeWheel.getExpiredTimers now with
  | none => .error .hangs
  | some (expired, w) => .ok (expired, { m with m_timeWheel := w })

/-- A turn of the loop of `listExpiredCb`: what is pushed on `cbs`, and a recurring timer
goes back to the wheel, which reads `t`. -/
def handOut (m : TimerManager Cb) (now_ms timer t : ℕ) :
    Except TimerFault (Option Cb × TimerManager Cb) := do
  let τ ← m.timerAt timer
  if τ.m_recurring then
    .ok (τ.m_cb, (m.place timer { τ with m_next := deadline now_ms τ.m_ms } t).2)
  else .ok (τ.m_cb, { m with timers := m.timers.set timer { τ with m_cb := none } })

/-- The loop of `listExpiredCb`; `ts` are the readings of the wheel, one for each turn. -/
def handOutAll (now_ms : ℕ) : TimerManager Cb → List (ℕ × ℕ) →
    Except TimerFault (List (Option Cb) × TimerManager Cb)
  | m, [] => .ok ([], m)
  | m, (timer, t) :: expired => do
      let (cb, m) ← m.handOut now_ms timer t
      let (cbs, m) ← handOutAll now_ms m expired
      .ok (cb :: cbs, m)

/-- `listExpiredCb`: the wheel is scanned at `now`, and turn `i` of the loop reads `ts i`. -/
def listExpiredCb (m : TimerManager Cb) (now now_ms : ℕ) (ts : ℕ → ℕ) :
    Except TimerFault (List (Option Cb) × TimerManager Cb) := do
  let (expired, m) ← m.takeExpired now
  handOutAll now_ms m (expired.zipIdx.map fun x => (x.1, ts x.2))

end TimerManager

/-- The hook `usleep`: `resume` schedules the calling fiber, which then yields. -/
def usleep {Cb : Type} (m : TimerManager Cb) (usec : ℕ) (resume : Cb) (t₁ t₂ : ℕ) :
    ℕ × TimerManager Cb :=
  m.addTimer (usec / 1000) (some resume) false t₁ t₂

end Sylar
