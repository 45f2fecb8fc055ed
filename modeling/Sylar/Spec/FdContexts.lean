import Sylar.Spec.FdManager

/-! The table of the `FdContext`s in `iomanager.cc`. `addEvent` looks at its size under the read
lock, and lets it grow under the write lock, which is another step. An `FdContext` is known by
its address. -/

namespace Sylar

open Lib

/-- `made` is how many `FdContext`s there were so far, and the address of the next. `growing` are
the calls that have left the read lock to let the table grow, by their descriptors. `given` is a
record: the contexts that `addEvent` has found for a descriptor, to put its waiter there. -/
structure FdContexts where
  m_fdContexts : List (Option ℕ)
  made : ℕ
  growing : List ℤ
  given : List (ℕ × Option ℕ)
deriving DecidableEq, Repr

/-- The two locked parts of `addEvent`. -/
inductive ContextMove where
  | check (fd : ℤ)
  | grow (fd : ℤ)
deriving DecidableEq, Repr

namespace FdContexts

def fill : List (Option ℕ) → ℕ → List (Option ℕ) × ℕ
  | [], made => ([], made)
  | some ctx :: rest, made => ((some ctx :: (fill rest made).1), (fill rest made).2)
  | none :: rest, made => ((some made :: (fill rest (made + 1)).1), (fill rest (made + 1)).2)

section

variable (s : FdContexts)

def contextResize (size : ℕ) : FdContexts :=
  { s with
    m_fdContexts := (fill (resize s.m_fdContexts size) s.made).1
    made := (fill (resize s.m_fdContexts size) s.made).2 }

/-- `fd_ctx = m_fdContexts[fd]`, the record of it, and the end of the lock. -/
def find (fd : ℕ) : Except TableFault FdContexts :=
  match s.m_fdContexts[fd]? with
  | none => .error .undefined
  | some ctx => .ok { s with given := s.given ++ [(fd, ctx)] }

/-- The comparison is that of `size_t`, so a descriptor below zero is a large one. -/
def check (fd : ℤ) : Except TableFault FdContexts :=
  if 0 ≤ fd ∧ fd.toNat < s.m_fdContexts.length then s.find fd.toNat
  else .ok { s with growing := s.growing ++ [fd] }

def grow (fd : ℤ) : Except TableFault FdContexts :=
  if fd ∈ s.growing then
    if fd < 0 then .error .undefined
    else
      FdContexts.find { s.contextResize (3 * fd.toNat / 2) with growing := s.growing.erase fd }
        fd.toNat
  else .error .notEnabled

def step : ContextMove → Except TableFault FdContexts
  | .check fd => s.check fd
  | .grow fd => s.grow fd

end

def init : FdContexts := FdContexts.contextResize ⟨[], 0, [], []⟩ 32

end FdContexts

end Sylar
