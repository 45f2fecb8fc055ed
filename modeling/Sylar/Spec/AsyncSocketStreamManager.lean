import Sylar.Spec.Basic

/-! `AsyncSocketStreamManager` of `streams/async_socket_stream.cc`. The streams are of any type,
and whether one is connected is what `isConnected` says while a `get` runs. The callbacks, and
the streams that are told to close, are left out. -/

namespace Sylar

structure AsyncSocketStreamManager (T : Type) where
  m_size : UInt32
  m_idx : UInt32
  m_datas : List T
  size_eq : m_size = UInt32.ofNat m_datas.length

namespace AsyncSocketStreamManager

variable {T : Type}

def new : AsyncSocketStreamManager T := ⟨0, 0, [], rfl⟩

section

variable (m : AsyncSocketStreamManager T)

def add (stream : T) : AsyncSocketStreamManager T where
  m_size := m.m_size + 1
  m_idx := m.m_idx
  m_datas := m.m_datas ++ [stream]
  size_eq := by
    rw [m.size_eq, List.length_append, UInt32.ofNat_add]
    rfl

def clear : AsyncSocketStreamManager T := ⟨0, m.m_idx, [], rfl⟩

def setConnection (streams : List T) : AsyncSocketStreamManager T :=
  ⟨UInt32.ofNat streams.length, m.m_idx, streams, rfl⟩

/-- The loop of `get`, with the value of `m_idx` and the turns that are left. -/
def getLoop (isConnected : T → Bool) : ℕ → UInt32 → Except Fault (Option T × UInt32)
  | 0, idx => .ok (none, idx)
  | turns + 1, idx =>
      let idx := idx + 1
      match m.m_datas[(idx % m.m_size).toNat]? with
      | none => .error .outOfBounds
      | some stream =>
          if isConnected stream then .ok (some stream, idx) else getLoop isConnected turns idx

def get (isConnected : T → Bool) : Except Fault (Option T × AsyncSocketStreamManager T) := do
  let r ← m.getLoop isConnected m.m_size.toNat m.m_idx
  .ok (r.1, { m with m_idx := r.2 })

end

inductive Call (T : Type) where
  | add (stream : T)
  | clear
  | setConnection (streams : List T)
  | get (isConnected : T → Bool)

def step (m : AsyncSocketStreamManager T) : Call T → Except Fault (AsyncSocketStreamManager T)
  | .add stream => .ok (m.add stream)
  | .clear => .ok m.clear
  | .setConnection streams => .ok (m.setConnection streams)
  | .get isConnected => do
      let r ← m.get isConnected
      .ok r.2

end AsyncSocketStreamManager

end Sylar
