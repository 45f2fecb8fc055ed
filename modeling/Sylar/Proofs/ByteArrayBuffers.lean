import Sylar.Proofs.ByteArrayReach

/-! A reachable array that is read and written through its buffers: what is in the buffers for reading
is what `read` would give next, and filling those for writing is a `write`. -/

namespace Sylar

open Lib

namespace ByteArray

/-- The buffers are the next bytes, as many as there are of `len`. -/
def BuffersRead (ba : ByteArray) (len : ℕ) : Prop :=
  ∃ iovs, ba.getReadBuffers len = .ok iovs ∧
    (iovs.map Iovec.iov_len).sum = min len ba.getReadSize ∧
    (gather ba.chain iovs).flatten = (flat ba).unread.take (min len ba.getReadSize)

/-- What `SocketStream::read` does to an array: the buffers are filled with `data`, and the position
is set behind it. -/
def writeBuffers (ba : ByteArray) (len : ℕ) (data : List UInt8) : Except Fault ByteArray := do
  let (ba', iovs) ← ba.getWriteBuffers len
  ByteArray.setPosition { ba' with chain := scatter ba'.chain iovs data }
    (ba.getPosition + data.length)

/-- The same as `write`: the bytes, the position and the size. -/
def BuffersWrite (ba : ByteArray) (len : ℕ) (data : List UInt8) : Prop :=
  ∃ filled written, ba.writeBuffers len data = .ok filled ∧ ba.write data = .ok written ∧
    flat filled = flat written ∧ filled.getPosition = written.getPosition ∧
    filled.getSize = written.getSize

theorem buffersRead {ba : ByteArray} (h : Rep ba) (len : ℕ) : BuffersRead ba len := by
  obtain ⟨iovs, hiovs, htotal, hgather⟩ := getReadBuffers_spec ⟨h, rfl⟩ len
  have hlength := h.length_unread
  rw [hlength] at htotal
  refine ⟨iovs, hiovs, htotal, ?_⟩
  rw [hgather, ← hlength, ← List.take_take, List.take_length]

theorem writeBuffers_zero {ba : ByteArray} (h : Rep ba) :
    ∃ filled, ba.writeBuffers 0 [] = .ok filled ∧ Rep filled ∧ flat filled = (flat ba).write [] := by
  obtain ⟨filled, hset, hrep, hflat, -⟩ := setPosition_spec h h.position_le
  refine ⟨filled, hset, hrep, ?_⟩
  rw [hflat, Flat.write, overwrite_nil]
  rfl

theorem writeBuffers_spec {ba : ByteArray} (h : Rep ba) {len : ℕ} {data : List UInt8}
    (hdata : data.length ≤ len) :
    ∃ filled, ba.writeBuffers len data = .ok filled ∧ Rep filled ∧
      flat filled = (flat ba).write data := by
  by_cases h0 : len = 0
  · obtain rfl : data = [] := List.length_eq_zero_iff.mp (by omega)
    rw [h0]
    exact writeBuffers_zero h
  · obtain ⟨hrep, hflat, hposition, -, -, hroom⟩ := addCapacity_rep h len
    obtain ⟨iovs, hiovs, -, hwrites⟩ := scatter_writes hrep (show 1 ≤ len by omega) (by omega)
    obtain ⟨filled, hset, hrep', hflat', -⟩ := hwrites data hdata
    refine ⟨filled, ?_, hrep', by rw [hflat', hflat]⟩
    unfold writeBuffers getWriteBuffers
    rw [if_neg h0, hiovs]
    rw [hposition] at hset
    exact hset

/-- The buffers of every reachable array, in both directions. -/
theorem buffers_refine {ba : ByteArray} (h : Reachable ba) (len : ℕ) :
    BuffersRead ba len ∧ ∀ data, data.length ≤ len → BuffersWrite ba len data := by
  have hrep := reachable_rep h
  refine ⟨buffersRead hrep len, fun data hdata => ?_⟩
  obtain ⟨filled, hfilled, hrep₁, hflat₁⟩ := writeBuffers_spec hrep hdata
  obtain ⟨written, hwritten, hrep₂, hflat₂, -⟩ := write_spec hrep data
  have hflat : flat filled = flat written := hflat₁.trans hflat₂.symm
  refine ⟨filled, written, hfilled, hwritten, hflat, congrArg Flat.pos hflat, ?_⟩
  rw [getSize, getSize, ← hrep₁.length_flat, ← hrep₂.length_flat, hflat]

/-- Three of five bytes that begin in the second of two nodes, over what is there. -/
theorem buffers_refine_part :
    BuffersWrite (machine.run (new (fun _ _ => 0) 2) [.write [1, 2, 3, 4], .setPosition 3]).2 5
      [7, 8, 9] :=
  (buffers_refine ((Reachable.new _ (by decide)).run _) 5).2 [7, 8, 9] (by decide)

end ByteArray

end Sylar
