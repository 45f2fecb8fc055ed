import Sylar.Lib.Threads

/-! `ConfigVar::setValue` of `config.h`. The lock may be held by many readers. Under it the listeners
are called one after the other; the value is set later, with no reader left. -/

namespace Sylar

open Lib

/-- The keys of `m_cbs`, in the order of the map. -/
structure Listeners where
  keys : List ℕ
  sorted : keys.Pairwise (· < ·)
deriving DecidableEq

structure ConfigVar (T : Type) where
  m_val : T
  m_cbs : Listeners
deriving DecidableEq

namespace ConfigVar

inductive LockFault where
  | notEnabled
deriving DecidableEq, Repr

/-- `readers` have the lock of the variable. `called` is a record of the calls of listeners: the key
and the two values. -/
structure Shared (T : Type) extends ConfigVar T where
  readers : ℕ
  called : List (ℕ × T × T)
deriving DecidableEq

/-- What `setValue` does next. `change` takes the lock and compares; `assign` takes it, sets the value
and gives it back. -/
inductive Instr where
  | change
  | callListener (key : ℕ)
  | unlock
  | assign
deriving DecidableEq

abbrev Calls (T : Type) := Threads (Shared T) T Instr

variable {T : Type} [DecidableEq T]

def exec (s : Shared T) (_k : ℕ) (v : T) : Instr → Unit → Except LockFault (Turn (Shared T) T Instr)
  | .change, _ =>
      if v = s.m_val then .ok (.only s [])
      else .ok (.only { s with readers := s.readers + 1 }
        (s.m_cbs.keys.map .callListener ++ [.unlock, .assign]))
  | .callListener key, _ => .ok (.only { s with called := s.called ++ [(key, s.m_val, v)] } [])
  | .unlock, _ => .ok (.only { s with readers := s.readers - 1 } [])
  | .assign, _ => if s.readers = 0 then .ok (.only { s with m_val := v } []) else .error .notEnabled

inductive Move (T : Type) where
  | setValue (v : T)
  | turn (k : ℕ)
deriving DecidableEq

def init (x : ConfigVar T) : Calls T := ⟨⟨x, 0, []⟩, []⟩

def step (f : Calls T) : Move T → Except LockFault (Calls T)
  | .setValue v => .ok (f.start f.shared v [.change])
  | .turn k => f.run id exec .notEnabled k ()

end ConfigVar

end Sylar
