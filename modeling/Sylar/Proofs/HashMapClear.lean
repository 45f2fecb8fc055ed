import Sylar.Proofs.HashMap

/-! A `HashMap` after `clear()`. It has no buckets and `m_size` is zero, so every call that
looks for a key divides by zero; only calls that do not see an empty map. -/

namespace Sylar

open Lib

namespace HashMap

variable {K V : Type} [LinearOrder K] (posHash : K → ℕ)

/-- A call on one map; `load` is the outcome of the load test. -/
inductive Call (K V : Type) where
  | get (k : K)
  | exists_ (k : K)
  | set (k : K) (v : V) (load : ℕ → ℕ → Bool)
  | del (k : K)
  | getTotal
  | rehash (load : ℕ → ℕ → Bool)
  | clear

def call (m : HashMap K V) : Call K V → Except Fault (Reply V × HashMap K V)
  | .get k => do
      let v ← m.get posHash k
      .ok (.value v, m)
  | .exists_ k => do
      let b ← m.exists_ posHash k
      .ok (.flag b, m)
  | .set k v load => do
      let (b, m) ← m.set posHash load k v
      .ok (.flag b, m)
  | .del k => do
      let (b, m) ← m.del posHash k
      .ok (.flag b, m)
  | .getTotal => .ok (.number m.getTotal, m)
  | .rehash load => do
      let m ← m.rehash posHash load
      .ok (.done, m)
  | .clear => .ok (.done, m.clear)

def finmapCall (f : Finmap fun _ : K => V) : Call K V → Reply V × Finmap fun _ : K => V
  | .get k => (.value (f.lookup k), f)
  | .exists_ k => (.flag (f.lookup k).isSome, f)
  | .set k v _ => (.flag (f.lookup k).isNone, f.insert k v)
  | .del k => (.flag (f.lookup k).isSome, f.erase k)
  | .getTotal => (.number f.keys.card, f)
  | .rehash _ => (.done, f)
  | .clear => (.done, ∅)

def calls : HashMap K V → List (Call K V) → Except Fault (List (Reply V))
  | _, [] => .ok []
  | m, c :: cs => do
      let (r, m) ← call posHash m c
      let rs ← calls m cs
      .ok (r :: rs)

def finmapCalls : (Finmap fun _ : K => V) → List (Call K V) → List (Reply V)
  | _, [] => []
  | f, c :: cs => (finmapCall f c).1 :: finmapCalls (finmapCall f c).2 cs

def Call.Seeks : Call K V → Prop
  | .get _ => True
  | .exists_ _ => True
  | .set _ _ _ => True
  | .del _ => True
  | _ => False

variable {posHash}

theorem calls_cons_ok {m m' : HashMap K V} {c : Call K V} {r : Reply V}
    (h : call posHash m c = .ok (r, m')) (cs : List (Call K V)) {rs : List (Reply V)} :
    calls posHash m (c :: cs) = .ok (r :: rs) ↔ calls posHash m' cs = .ok rs := by
  rw [calls, h]
  constructor
  · intro hrun
    obtain ⟨rs', hrs, hcons⟩ := ok_of_bind (x := calls posHash m' cs) hrun
    rw [hrs, (List.cons.inj (Except.ok.inj hcons)).2]
  · intro hrun
    change (calls posHash m' cs >>= _) = _
    rw [hrun]
    rfl

theorem calls_cons_error {m : HashMap K V} {c : Call K V} {e : Fault}
    (h : call posHash m c = .error e) (cs : List (Call K V)) :
    calls posHash m (c :: cs) = .error e := by
  rw [calls, h]
  rfl

omit [LinearOrder K] in
theorem bucketOf_cleared (k : K) :
    Table.bucketOf posHash (⟨0, 0, []⟩ : HashMap K V) k = .error .undefined := if_pos rfl

theorem upsert_cleared (k : K) (f : Option V → V) :
    Table.upsert posHash (⟨0, 0, []⟩ : HashMap K V) k f = .error .undefined := by
  rw [Table.upsert, bucketOf_cleared]
  rfl

theorem set_cleared (load : ℕ → ℕ → Bool) (k : K) (v : V) :
    set posHash load (⟨0, 0, []⟩ : HashMap K V) k v = .error .undefined := by
  have hload : Table.rehashIfNeeded posHash load (⟨0, 0, []⟩ : HashMap K V) = .ok ⟨0, 0, []⟩ :=
    if_neg (by simp [Table.needRehash])
  rw [set, hload]
  simp only [bind, Except.bind, upsert_cleared]

theorem call_seeks {c : Call K V} (hc : c.Seeks) :
    call posHash (⟨0, 0, []⟩ : HashMap K V) c = .error .undefined := by
  cases c with
  | get k => rw [call, get, Table.find, bucketOf_cleared]; rfl
  | exists_ k => rw [call, exists_, Table.find, bucketOf_cleared]; rfl
  | set k v load => rw [call, set_cleared]; rfl
  | del k => rw [call, del, Table.erase, bucketOf_cleared]; rfl
  | getTotal => exact hc.elim
  | rehash load => exact hc.elim
  | clear => exact hc.elim

variable (posHash) in
theorem call_other {c : Call K V} (hc : ¬ c.Seeks) :
    call posHash (⟨0, 0, []⟩ : HashMap K V) c = .ok ((finmapCall ∅ c).1, ⟨0, 0, []⟩) ∧
      (finmapCall (∅ : Finmap fun _ : K => V) c).2 = ∅ := by
  cases c with
  | get k => exact (hc trivial).elim
  | exists_ k => exact (hc trivial).elim
  | set k v load => exact (hc trivial).elim
  | del k => exact (hc trivial).elim
  | getTotal => exact ⟨rfl, rfl⟩
  | rehash load => exact ⟨rfl, rfl⟩
  | clear => exact ⟨rfl, rfl⟩

theorem calls_cleared_iff (cs : List (Call K V)) :
    calls posHash (⟨0, 0, []⟩ : HashMap K V) cs = .ok (finmapCalls ∅ cs) ↔
      ∀ c ∈ cs, ¬ c.Seeks := by
  induction cs with
  | nil => simp [calls, finmapCalls]
  | cons c cs ih =>
    rw [List.forall_mem_cons]
    by_cases hc : c.Seeks
    · refine iff_of_false ?_ fun h => h.1 hc
      rw [calls_cons_error (call_seeks hc)]
      exact fun h => by cases h
    · obtain ⟨hcall, hempty⟩ := call_other posHash hc
      rw [finmapCalls, hempty, calls_cons_ok hcall, ih]
      exact (and_iff_right hc).symm

/-- After `clear()` a map answers a run of calls as an empty map does exactly when none of them
looks for a key. -/
theorem clear_behaves_iff (posHash : K → ℕ) (m : HashMap K V) (cs : List (Call K V)) :
    calls posHash m.clear cs = .ok (finmapCalls ∅ cs) ↔ ∀ c ∈ cs, ¬ c.Seeks :=
  calls_cleared_iff cs

/-- `get` on a map with one key, after `clear()`. -/
theorem clear_behaves_not : ¬ ∀ cs : List (Call ℕ ℕ),
    calls id (clear (⟨2, 1, [[], [(1, 10)]]⟩ : HashMap ℕ ℕ)) cs = .ok (finmapCalls ∅ cs) := by
  intro h
  have hget := h [.get 1]
  rw [clear, calls_cons_error (call_seeks (show Call.Seeks (.get 1 : Call ℕ ℕ) from trivial))] at hget
  cases hget

end HashMap

end Sylar
