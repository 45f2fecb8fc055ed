import Sylar.Spec.Basic
import Sylar.Spec.Timer

/-! The hooks `sleep` and `nanosleep` of `hook.cc`, where they are enabled, and the timeout that
`IOManager::idle` of `iomanager.cc` makes of the next timer. -/

namespace Sylar

section

variable {Cb : Type}

def sleep (m : TimerManager Cb) (seconds : UInt32) (resume : Cb) (t₁ t₂ : ℕ) : ℕ × TimerManager Cb :=
  m.addTimer (seconds * 1000).toNat (some resume) false t₁ t₂

/-- A value of a `long`; there is nothing outside its range. -/
def long (v : ℤ) : Except Fault ℤ := if -2 ^ 63 ≤ v ∧ v < 2 ^ 63 then .ok v else .error .undefined

/-- The sum is a `long`, `timeout_ms` is an `int`, and what `addTimer` takes is a `uint64_t`. -/
def nanosleep (m : TimerManager Cb) (tv_sec tv_nsec : Int64) (resume : Cb) (t₁ t₂ : ℕ) :
    Except Fault (ℕ × TimerManager Cb) := do
  let seconds_ms ← long (tv_sec.toInt * 1000)
  let sum ← long (seconds_ms + (tv_nsec.toInt.tdiv 1000).tdiv 1000)
  let timeout_ms := sum.bmod (2 ^ 32)
  .ok (m.addTimer (timeout_ms % 2 ^ 64).toNat (some resume) false t₁ t₂)

end

namespace IOManager

def MAX_TIMEOUT : ℕ := 3000

/-- What becomes of `next_timeout`, a `uint64_t`; the comparison is with its low half, as an `int`. -/
def clampTimeout (next_timeout : ℕ) : ℕ :=
  if next_timeout ≠ 2 ^ 64 - 1 then
    if (next_timeout : ℤ).bmod (2 ^ 32) > MAX_TIMEOUT then MAX_TIMEOUT else next_timeout
  else MAX_TIMEOUT

/-- The timeouts, as `int`s, that `epoll_wait` gets in a turn of `idle` in which `interrupts` calls
of it end in `EINTR`; each call has what the one before has left. -/
def epollTimeouts : ℕ → ℕ → List ℤ
  | 0, next_timeout => [(clampTimeout next_timeout : ℤ).bmod (2 ^ 32)]
  | interrupts + 1, next_timeout =>
      (clampTimeout next_timeout : ℤ).bmod (2 ^ 32) ::
        epollTimeouts interrupts (clampTimeout next_timeout)

/-- The same of a turn that asks for the next timer at `now`. -/
def idleTimeouts {Cb : Type} (m : TimerManager Cb) (now interrupts : ℕ) : List ℤ :=
  epollTimeouts interrupts (m.getNextTimer now).1

end IOManager

end Sylar
