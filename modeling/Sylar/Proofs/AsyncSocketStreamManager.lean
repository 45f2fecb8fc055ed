import Sylar.Lib.Partial
import Sylar.Lib.Probes
import Sylar.Spec.AsyncSocketStreamManager

/-! `get` finds a connected stream where there is one, as long as its counter does not wrap in the
middle of its probes or the number of streams divides `2 ^ 32`. Otherwise the probes leave
positions out, and every counter comes up. -/

namespace Sylar

open Lib

namespace AsyncSocketStreamManager

variable {T : Type} (m : AsyncSocketStreamManager T) (isConnected : T → Bool)

/-- The positions that `turns` probes look at from the counter `idx` on. -/
def probed (turns : ℕ) (idx : UInt32) : List ℕ :=
  (List.range turns).map fun i => (idx.toNat + 1 + i) % 2 ^ 32 % m.m_size.toNat

theorem probed_succ (turns : ℕ) (idx : UInt32) :
    m.probed (turns + 1) idx = ((idx + 1) % m.m_size).toNat :: m.probed turns (idx + 1) := by
  have hidx : (idx + 1).toNat = (idx.toNat + 1) % 2 ^ 32 := UInt32.toNat_add idx 1
  unfold probed
  rw [List.range_succ_eq_map, List.map_cons, List.map_map, UInt32.toNat_mod, hidx]
  congr 1
  refine List.map_congr_left fun i _ => ?_
  rw [Function.comp_apply, Nat.add_assoc _ 1 i, Nat.mod_add_mod, show i.succ = 1 + i by omega,
    Nat.add_assoc]

theorem getLoop_eq (turns : ℕ) (idx : UInt32) :
    (m.getLoop isConnected turns idx).map Prod.fst =
      probe .outOfBounds m.m_datas isConnected (m.probed turns idx) := by
  induction turns generalizing idx with
  | zero => rfl
  | succ turns ih =>
    rw [probed_succ, getLoop, probe]
    cases m.m_datas[((idx + 1) % m.m_size).toNat]? with
    | none => rfl
    | some stream =>
      dsimp only
      split
      · rfl
      · exact ih (idx + 1)

variable {m isConnected}

theorem size_le : m.m_size.toNat ≤ m.m_datas.length := by
  rw [m.size_eq, UInt32.toNat_ofNat']
  exact Nat.mod_le _ _

theorem probed_lt (p : ℕ) (hp : p ∈ m.probed m.m_size.toNat m.m_idx) : p < m.m_datas.length := by
  obtain ⟨i, hi, rfl⟩ := List.mem_map.mp hp
  rw [List.mem_range] at hi
  exact lt_of_lt_of_le (Nat.mod_lt _ (by omega)) size_le

variable (m isConnected) in
/-- What `get` gives is what its probes find, and the streams stay. -/
theorem get_spec :
    ∃ o m', m.get isConnected = .ok (o, m') ∧ m'.m_datas = m.m_datas ∧
      probe Fault.outOfBounds m.m_datas isConnected (m.probed m.m_size.toNat m.m_idx) = .ok o := by
  obtain ⟨o, ho, -, -⟩ := probe_spec Fault.outOfBounds isConnected m.probed_lt
  have heq := m.getLoop_eq isConnected m.m_size.toNat m.m_idx
  rw [ho] at heq
  cases hloop : m.getLoop isConnected m.m_size.toNat m.m_idx with
  | error e =>
    rw [hloop] at heq
    cases heq
  | ok r =>
    rw [hloop] at heq
    refine ⟨r.1, { m with m_idx := r.2 }, ?_, rfl, ?_⟩
    · unfold get
      rw [hloop]
      rfl
    · rw [ho]
      exact heq.symm

/-- `get` gives a connected stream where there is one. -/
def Serves (m : AsyncSocketStreamManager T) (isConnected : T → Bool) : Prop :=
  (∃ stream ∈ m.m_datas, isConnected stream = true) →
    ∃ stream m', m.get isConnected = .ok (some stream, m') ∧ stream ∈ m.m_datas ∧
      isConnected stream = true

/-- A connected stream stands where the probes come to: among the first `m_size`, and not where
they leave it out because the counter wraps `2 ^ 32 - 1 - m_idx` probes from now. -/
def InReach (m : AsyncSocketStreamManager T) (isConnected : T → Bool) : Prop :=
  ∃ p < m.m_size.toNat, ∃ stream, m.m_datas[p]? = some stream ∧ isConnected stream = true ∧
    ¬ LeftOut (2 ^ 32) m.m_size.toNat (2 ^ 32 - 1 - m.m_idx.toNat) (m.m_size.toNat - 1 - p)

theorem mem_probed {p : ℕ} :
    p ∈ m.probed m.m_size.toNat m.m_idx ↔ p < m.m_size.toNat ∧
      ¬ LeftOut (2 ^ 32) m.m_size.toNat (2 ^ 32 - 1 - m.m_idx.toNat) (m.m_size.toNat - 1 - p) := by
  have hsize := m.m_size.toNat_lt
  have hidx := m.m_idx.toNat_lt
  have hmem := mem_aroundWrapping (p := p) (show m.m_size.toNat ≤ 2 ^ 32 by omega)
    (show m.m_idx.toNat + 1 ≤ 2 ^ 32 by omega)
  rwa [show 2 ^ 32 - (m.m_idx.toNat + 1) = 2 ^ 32 - 1 - m.m_idx.toNat by omega] at hmem

theorem inReach_iff :
    InReach m isConnected ↔ ∃ stream, isConnected stream = true ∧
      probe Fault.outOfBounds m.m_datas isConnected (m.probed m.m_size.toNat m.m_idx) =
        .ok (some stream) := by
  have hfinds := probe_finds Fault.outOfBounds isConnected m.probed_lt
  constructor
  · rintro ⟨p, hp, stream, hstream, hconn, hreach⟩
    obtain ⟨x, hx, hok⟩ := hfinds.mpr ⟨p, mem_probed.mpr ⟨hp, hreach⟩, stream, hstream, hconn⟩
    exact ⟨x, hok, hx⟩
  · rintro ⟨x, hok, hx⟩
    obtain ⟨p, hp, stream, hstream, hconn⟩ := hfinds.mp ⟨x, hx, hok⟩
    obtain ⟨hlt, hreach⟩ := mem_probed.mp hp
    exact ⟨p, hlt, stream, hstream, hconn, hreach⟩

/-- For every set of streams, every counter and whichever streams are connected. -/
theorem serves_iff (m : AsyncSocketStreamManager T) (isConnected : T → Bool) :
    Serves m isConnected ↔
      ((∃ stream ∈ m.m_datas, isConnected stream = true) → InReach m isConnected) := by
  obtain ⟨o, m', hget, -, hprobe⟩ := get_spec m isConnected
  unfold Serves
  rw [inReach_iff, hget, hprobe]
  refine imp_congr_right fun _ => ⟨?_, ?_⟩
  · rintro ⟨stream, m'', heq, -, hconn⟩
    cases heq
    exact ⟨stream, hconn, rfl⟩
  · rintro ⟨stream, hconn, heq⟩
    cases heq
    obtain ⟨r, hr, hfound, -⟩ := probe_spec Fault.outOfBounds isConnected m.probed_lt
    rw [hprobe] at hr
    cases hr
    exact ⟨stream, m', rfl, hfound stream rfl⟩

/-- Three streams, of which only the last is connected. The probes are those of the counters
`2 ^ 32 - 1`, `0` and `1`. -/
def wrapping : AsyncSocketStreamManager ℕ := ⟨3, 4294967294, [0, 1, 2], rfl⟩

theorem get_misses_connected : ¬ ∀ (m : AsyncSocketStreamManager ℕ) (isConnected : ℕ → Bool),
    Serves m isConnected := by
  intro hall
  obtain ⟨stream, m', hget, -, hconn⟩ := hall wrapping (fun n => n == 2) ⟨2, by decide, rfl⟩
  have hnone : (wrapping.get fun n => n == 2).map Prod.fst = .ok none := by decide
  rw [hget] at hnone
  cases hnone

theorem inReach_of_dvd (hdvd : m.m_datas.length ∣ 2 ^ 32) (hlt : m.m_datas.length < 2 ^ 32)
    (h : ∃ stream ∈ m.m_datas, isConnected stream = true) : InReach m isConnected := by
  obtain ⟨stream, hmem, hconn⟩ := h
  obtain ⟨p, hp⟩ := List.mem_iff_getElem?.mp hmem
  have hpos := (List.getElem?_eq_some_iff.mp hp).1
  have hsize : m.m_size.toNat = m.m_datas.length := by
    rw [m.size_eq, UInt32.toNat_ofNat']
    exact Nat.mod_eq_of_lt hlt
  rw [← hsize] at hdvd hpos
  exact ⟨p, hpos, stream, hp, hconn, not_leftOut_of_dvd hdvd (by omega)⟩

theorem step_get_one (idx : UInt32) (stream : T) :
    step ⟨1, idx, [stream], rfl⟩ (.get fun _ => false) = .ok ⟨1, idx + 1, [stream], rfl⟩ := by
  simp [step, get, getLoop, bind, Except.bind, show (1 : UInt32).toNat = 1 from rfl]

/-- Whatever the streams and the counter, some calls lead there from a new manager. -/
theorem reached (m : AsyncSocketStreamManager T) (stream : T) :
    ∃ calls : List (Call T), calls.foldlM step new = .ok m := by
  have hgets : ∀ n : ℕ, (Call.setConnection [stream] :: List.replicate n (.get fun _ => false)).foldlM
      step new = .ok ⟨1, UInt32.ofNat n, [stream], rfl⟩ := by
    intro n
    induction n with
    | zero => rfl
    | succ n ih =>
      rw [List.replicate_succ', ← List.cons_append, foldlM_append_ok ih]
      change step _ _ >>= _ = _
      rw [step_get_one, UInt32.ofNat_add]
      rfl
  refine ⟨_ ++ [.setConnection m.m_datas], (foldlM_append_ok (hgets m.m_idx.toNat) _).trans ?_⟩
  obtain ⟨size, idx, datas, rfl⟩ := m
  change Except.ok (setConnection _ _) = _
  rw [setConnection, UInt32.ofNat_toNat]

end AsyncSocketStreamManager

end Sylar
