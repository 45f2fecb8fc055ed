import Mathlib.Algebra.BigOperators.Fin
import Sylar.Lib.Partial
import Sylar.Spec.FoxThread

/-! What is pushed to a `FoxThread` runs once, in the order in which it was pushed, up to the
first stop. A callback that waits has been announced: a byte is in the socket, or the thread has
read one and has not looked yet, or whoever pushed it has still to send. A thread of a
`FoxThreadPool` is at one place: free, on its way to be freed, or with a `shared_ptr`, whose
copies are with whoever assigns it, with what is pushed to it, and with what it runs. -/

namespace Sylar

open Lib

namespace FoxThread

open FoxThreadPool (Call Instr FoxFault)

variable {n : ℕ} {Cb : Type} {body : Cb → List (Call n Cb)}

def broke (th : FoxThread Cb) : Prop := th.pc = .ended true ∨ th.pc = .left

/-- `it` is what is left of `callbacks`, and `m_total` lacks what is not behind the thread yet. -/
structure Ordered (th : FoxThread Cb) : Prop where
  going : ¬ th.broke → th.pushed = th.ran.map some ++ (th.it ++ th.m_callbacks)
  broken : th.broke → ∃ rest, th.pushed = th.ran.map some ++ none :: rest
  idle : th.pc = .loop ∨ th.pc = .received ∨ th.pc = .left → th.callbacks = [] ∧ th.it = []
  spent : th.pc = .ended false → th.it = []
  total : th.m_total + UInt64.ofNat (th.callbacks.length + th.m_callbacks.length) =
    UInt64.ofNat th.pushed.length

theorem Ordered.init : Ordered (FoxThread.init : FoxThread Cb) where
  going _ := rfl
  broken h := absurd h (by simp [broke, FoxThread.init])
  idle _ := ⟨rfl, rfl⟩
  spent _ := rfl
  total := rfl

/-- What `Ordered` does not depend on. Only the thread itself takes bytes from the socket. -/
structure SameQueue (th th' : FoxThread Cb) : Prop where
  bytes_le : th.bytes ≤ th'.bytes
  m_callbacks_eq : th'.m_callbacks = th.m_callbacks
  m_total_eq : th'.m_total = th.m_total
  pc_eq : th'.pc = th.pc
  callbacks_eq : th'.callbacks = th.callbacks
  it_eq : th'.it = th.it
  pushed_eq : th'.pushed = th.pushed
  ran_eq : th'.ran = th.ran

variable {th th' : FoxThread Cb}

theorem SameQueue.refl (th : FoxThread Cb) : SameQueue th th := ⟨le_rfl, rfl, rfl, rfl, rfl, rfl, rfl, rfl⟩

theorem SameQueue.broke (h : SameQueue th th') : th'.broke ↔ th.broke := by
  unfold FoxThread.broke
  rw [h.pc_eq]

theorem Ordered.same (ho : Ordered th) (h : SameQueue th th') : Ordered th' := by
  have hb := h.broke
  obtain ⟨-, hm, ht, hpc, hc, hit, hp, hr⟩ := h
  constructor
  · rw [hb, hp, hr, hit, hm]
    exact ho.going
  · rw [hb, hp, hr]
    exact ho.broken
  · rw [hpc, hc, hit]
    exact ho.idle
  · rw [hpc, hit]
    exact ho.spent
  · rw [ht, hc, hm, hp]
    exact ho.total

theorem send_same {w : ℕ} (h : th.send w = .ok th') : SameQueue th th' := by
  unfold send at h
  split at h
  · split at h
    · cases h
    · cases h
      exact .refl th
  · cases h
    exact ⟨Nat.le_succ _, rfl, rfl, rfl, rfl, rfl, rfl, rfl⟩

theorem send_bytes {w : ℕ} (h : th.send w = .ok th') : 0 < th'.bytes := by
  unfold send at h
  split at h
  · split at h
    · cases h
    · next hbytes =>
      cases h
      exact Nat.pos_of_ne_zero hbytes
  · cases h
    exact Nat.succ_pos _

theorem stop_same {w : ℕ} (h : th.stop w = .ok th') : SameQueue (th.push [none]) th' := by
  unfold stop at h
  split at h
  · exact send_same h
  · cases h
    exact .refl _

theorem Ordered.push (ho : Ordered th) (cbs : List (Option (Callback Cb))) : Ordered (th.push cbs) where
  going hb := by
    change th.pushed ++ cbs = th.ran.map some ++ (th.it ++ (th.m_callbacks ++ cbs))
    rw [ho.going hb]
    simp only [List.append_assoc]
  broken hb := by
    obtain ⟨rest, hrest⟩ := ho.broken hb
    refine ⟨rest ++ cbs, ?_⟩
    change th.pushed ++ cbs = th.ran.map some ++ none :: (rest ++ cbs)
    rw [hrest, List.append_assoc, List.cons_append]
  idle := ho.idle
  spent := ho.spent
  total := by
    change th.m_total + UInt64.ofNat (th.callbacks.length + (th.m_callbacks ++ cbs).length) =
      UInt64.ofNat (th.pushed ++ cbs).length
    rw [List.length_append, List.length_append, ← Nat.add_assoc, UInt64.ofNat_add, ← UInt64.add_assoc,
      ho.total, UInt64.ofNat_add]

theorem Ordered.read_cb (ho : Ordered th) {t : Fin (n + 1)} {w : ℕ} {next : List (Instr n Cb)}
    (h : th.read_cb body t w = .ok (th', next)) : Ordered th' := by
  unfold FoxThread.read_cb at h
  split at h
  · next hpc =>
    -- `recv`
    split at h
    · cases h
      have hidle := ho.idle (.inl hpc)
      have hgoing := ho.going (by simp [broke, hpc])
      exact ⟨fun _ => hgoing, fun hb => absurd hb (by simp [broke]), fun _ => hidle, nofun, ho.total⟩
    · cases h
  · next hpc =>
    -- the lists are swapped
    cases h
    obtain ⟨hcallbacks, hit⟩ := ho.idle (.inr (.inl hpc))
    have hgoing := ho.going (by simp [broke, hpc])
    have htotal := ho.total
    refine ⟨fun _ => ?_, fun hb => absurd hb (by simp [broke]), nofun, nofun, ?_⟩
    · rw [hgoing, hit]
      simp
    · rw [hcallbacks] at htotal
      simpa using htotal
  · next hpc =>
    have hnot : ¬ th.broke := by simp [broke, hpc]
    have hgoing := ho.going hnot
    split at h
    · next hit =>
      cases h
      exact ⟨fun _ => hgoing, fun hb => absurd hb (by simp [broke]), nofun, fun _ => hit, ho.total⟩
    · next cb it hit =>
      -- a callback runs
      cases h
      refine ⟨fun _ => ?_, fun hb => absurd hb (by simp [broke, hpc]), ?_, ?_, ho.total⟩
      · rw [hgoing, hit]
        simp
      · rw [hpc]
        exact nofun
      · rw [hpc]
        exact nofun
    · next rest hit =>
      -- the null callback
      cases h
      refine ⟨fun hb => absurd (.inl rfl) hb, fun _ => ⟨rest ++ th.m_callbacks, ?_⟩, nofun, nofun, ho.total⟩
      rw [hgoing, hit]
      rfl
  · next b hpc =>
    cases h
    refine ⟨fun hb => ?_, fun hb => ?_, fun _ => ⟨rfl, rfl⟩, ?_, ?_⟩
    · cases b with
      | true => exact absurd (.inr rfl) hb
      | false =>
        have hgoing := ho.going (by simp [broke, hpc])
        rw [ho.spent hpc] at hgoing
        exact hgoing
    · cases b with
      | true => exact ho.broken (.inl hpc)
      | false => exact absurd hb (by simp [broke])
    · intro heq
      split at heq <;> cases heq
    · change th.m_total + UInt64.ofNat th.callbacks.length + UInt64.ofNat (0 + th.m_callbacks.length) = _
      rw [← ho.total, Nat.zero_add, UInt64.ofNat_add, UInt64.add_assoc]
  · cases h

/-- Somebody has announced that there is something in `m_callbacks`. -/
def announced (th : FoxThread Cb) (sending : ℕ) : Prop :=
  0 < th.bytes ∨ th.pc = .received ∨ 0 < sending

theorem announced.mono {m m' : ℕ} (h : th.announced m) (hm : m ≤ m') : th.announced m' :=
  h.imp_right fun h => h.imp_right fun h => Nat.lt_of_lt_of_le h hm

/-- A step of the thread takes a byte only to look at the list, and leaves the list only empty. -/
theorem read_announced {t : Fin (n + 1)} {w m : ℕ} {next : List (Instr n Cb)} {cb : Callback Cb}
    (h : th.read_cb body t w = .ok (th', next)) (ha : some cb ∈ th.m_callbacks → th.announced m)
    (hcb : some cb ∈ th'.m_callbacks) : th'.announced m := by
  unfold FoxThread.read_cb at h
  split at h
  · split at h
    · cases h
      exact .inr (.inl rfl)
    · cases h
  · cases h
    exact absurd hcb List.not_mem_nil
  · next hpc =>
    split at h <;> (cases h; exact (ha hcb).imp_right fun hr => hr.imp_left fun hr => by simp [hpc] at hr)
  · next hpc =>
    cases h
    exact (ha hcb).imp_right fun hr => hr.imp_left fun hr => by simp [hpc] at hr
  · cases h

/-- The thread runs what was pushed before the first stop, in that order, and nothing else. -/
theorem Ordered.ran_isPrefix (ho : Ordered th) :
    th.ran.map some <+: th.pushed.takeWhile Option.isSome := by
  have hall : ∀ x ∈ th.ran.map some, Option.isSome x = true := by
    intro x hx
    obtain ⟨cb, -, rfl⟩ := List.mem_map.mp hx
    rfl
  obtain ⟨rest, hrest⟩ : ∃ rest, th.pushed = th.ran.map some ++ rest := by
    by_cases hb : th.broke
    · obtain ⟨rest, hrest⟩ := ho.broken hb
      exact ⟨_, hrest⟩
    · exact ⟨_, ho.going hb⟩
  rw [hrest, List.takeWhile_append_of_pos hall]
  exact List.prefix_append _ _

end FoxThread

namespace FoxThreadPool

open FoxThread (Callback Pc Ordered SameQueue)

variable {n : ℕ} {Cb : Type} {body : Cb → List (Call n Cb)}

theorem setThread_apply (s : FoxThreadPool n Cb) (t u : Fin (n + 1)) (th : FoxThread Cb) :
    (s.setThread t th).m_threads u = if u = t then th else s.m_threads u :=
  Function.update_apply _ _ _ _

@[simp] theorem setThread_self (s : FoxThreadPool n Cb) (t : Fin (n + 1)) (th : FoxThread Cb) :
    (s.setThread t th).m_threads t = th := Function.update_self _ _ _

theorem setThread_other (s : FoxThreadPool n Cb) {t u : Fin (n + 1)} (h : t ≠ u) (th : FoxThread Cb) :
    (s.setThread t th).m_threads u = s.m_threads u := Function.update_of_ne h.symm _ _

@[simp] theorem setThread_m_freeFoxThreads (s : FoxThreadPool n Cb) (t : Fin (n + 1)) (th : FoxThread Cb) :
    (s.setThread t th).m_freeFoxThreads = s.m_freeFoxThreads := rfl

theorem same_setThread {s : FoxThreadPool n Cb} {t : Fin (n + 1)} {th : FoxThread Cb}
    (h : SameQueue (s.m_threads t) th) (u : Fin (n + 1)) :
    SameQueue (s.m_threads u) ((s.setThread t th).m_threads u) := by
  rw [setThread_apply]
  split
  · next hu => exact hu ▸ h
  · exact .refl _

variable {s : FoxThreadPool n Cb} {k w : ℕ} {i : Instr n Cb} {t : CallTurn n Cb}

/-- What a step can do, with what holds before it. -/
inductive Effect (body : Cb → List (Call n Cb)) (s : FoxThreadPool n Cb) (w : ℕ) :
    Instr n Cb → CallTurn n Cb → Prop where
  | post (cbs : List Cb) (hm : s.m_advance = true) : Effect body s w (.post cbs)
      (.only { s with
        m_total := s.m_total + UInt64.ofNat cbs.length
        m_callbacks := s.m_callbacks ++ cbs
        posted := s.posted ++ cbs } [.check])
  | roundRobin (cbs : List Cb) (hm : s.m_advance = false) : Effect body s w (.post cbs)
      (.only { s with
        m_total := s.m_total + UInt64.ofNat cbs.length
        m_cur := (s.m_cur + cbs.length) % 2 ^ 32 } (FoxThreadPool.roundRobin s.m_cur cbs))
  | postTo (id : ℕ) (cb : Cb) : Effect body s w (.postTo id cb)
      (.only { s with m_total := s.m_total + 1 } [.push (Fin.ofNat (n + 1) id) [.plain cb]])
  | broadcast (j : ℕ) (cb : Cb) (hj : j < n + 1) : Effect body s w (.broadcast j cb)
      (.only s [.push ⟨j, hj⟩ [.plain cb], .broadcast (j + 1) cb])
  | broadcastEnd (j : ℕ) (cb : Cb) (hj : n + 1 ≤ j) : Effect body s w (.broadcast j cb) (.only s [])
  | startFrom (j : ℕ) (hj : j < n + 1) (hm : (s.m_threads ⟨j, hj⟩).m_thread = false) :
      Effect body s w (.startFrom j)
        { shared := s.setThread ⟨j, hj⟩ { s.m_threads ⟨j, hj⟩ with m_thread := true, pooled := true }
          next := [.launch ⟨j, hj⟩]
          born := [⟨(), [.read_cb ⟨j, hj⟩]⟩]
          resumed := none }
  | startFromThrew (j : ℕ) (hj : j < n + 1) (hm : (s.m_threads ⟨j, hj⟩).m_thread = true) :
      Effect body s w (.startFrom j) (.only s [])
  | startFromEnd (j : ℕ) (hj : n + 1 ≤ j) : Effect body s w (.startFrom j)
      (.only { s with m_start := true } [.check])
  | launch (v : Fin (n + 1)) : Effect body s w (.launch v)
      (.only (s.setThread v { s.m_threads v with m_start := true }) [.free v])
  | free (v : Fin (n + 1)) : Effect body s w (.free v)
      (.only { s with m_freeFoxThreads := s.m_freeFoxThreads ++ [v] } [.startFrom (v + 1)])
  | stopFrom (j : ℕ) (hj : j < n + 1) : Effect body s w (.stopFrom j)
      (.only s [.stop ⟨j, hj⟩, .stopFrom (j + 1)])
  | stopFromEnd (j : ℕ) (hj : n + 1 ≤ j) : Effect body s w (.stopFrom j)
      (.only { s with m_start := false } [])
  | check (hm : s.m_start = true) : Effect body s w .check (.only s [.take])
  | checkNot (hm : s.m_start = false) : Effect body s w .check (.only s [])
  | take (v : Fin (n + 1)) (cb : Cb) (free : List (Fin (n + 1))) (cbs : List Cb)
      (hfree : s.m_freeFoxThreads = v :: free) (hcb : s.m_callbacks = cb :: cbs) :
      Effect body s w .take
        (.only { s.setThread v { s.m_threads v with use_count := 1 } with
          m_freeFoxThreads := free
          m_callbacks := cbs } [.assign v cb])
  | takeNone (hnone : s.m_freeFoxThreads = [] ∨ s.m_callbacks = []) : Effect body s w .take (.only s [])
  | assign (v : Fin (n + 1)) (cb : Cb) (hm : (s.m_threads v).m_start = true) :
      Effect body s w (.assign v cb)
        (.only (s.setThread v { s.m_threads v with use_count := (s.m_threads v).use_count + 1 })
          [.push v [.wrapcb cb], .drop v, .check])
  | assignNot (v : Fin (n + 1)) (cb : Cb) (hm : (s.m_threads v).m_start = false) :
      Effect body s w (.assign v cb) (.only s [.putBack v cb])
  | putBack (v : Fin (n + 1)) (cb : Cb) : Effect body s w (.putBack v cb)
      (.only { s with m_callbacks := cb :: s.m_callbacks } [.drop v, .check])
  | drop (v : Fin (n + 1)) : Effect body s w (.drop v)
      (.only (s.setThread v { s.m_threads v with use_count := (s.m_threads v).use_count - 1 })
        (if (s.m_threads v).use_count = 1 then [.release v] else []))
  | release (v : Fin (n + 1)) : Effect body s w (.release v)
      (.only { s with m_freeFoxThreads := s.m_freeFoxThreads ++ [v] } [.check])
  | push (v : Fin (n + 1)) (cbs : List (Callback Cb)) : Effect body s w (.push v cbs)
      (.only (s.setThread v ((s.m_threads v).push (cbs.map some))) [.send v])
  | send (v : Fin (n + 1)) (th : FoxThread Cb) (hth : (s.m_threads v).send w = .ok th) :
      Effect body s w (.send v) (.only (s.setThread v th) [])
  | stop (v : Fin (n + 1)) (th : FoxThread Cb) (hth : (s.m_threads v).stop w = .ok th) :
      Effect body s w (.stop v) (.only (s.setThread v th) [])
  | start (v : Fin (n + 1)) (hm : (s.m_threads v).m_thread = false) : Effect body s w (.start v)
      { shared := s.setThread v { s.m_threads v with m_thread := true }
        next := [.setStart v]
        born := [⟨(), [.read_cb v]⟩]
        resumed := none }
  | startThrew (v : Fin (n + 1)) (hm : (s.m_threads v).m_thread = true) :
      Effect body s w (.start v) (.only s [])
  | setStart (v : Fin (n + 1)) : Effect body s w (.setStart v)
      (.only (s.setThread v { s.m_threads v with m_start := true }) [])
  | read_cb (v : Fin (n + 1)) (th : FoxThread Cb) (next : List (Instr n Cb))
      (hr : (s.m_threads v).read_cb body v w = .ok (th, next)) :
      Effect body s w (.read_cb v) (.only (s.setThread v th) next)

theorem exec_effect (h : exec body s k () i w = .ok t) : Effect body s w i t := by
  cases i with
  | post cbs =>
    simp only [exec] at h
    split at h
    · next hm => exact Except.ok.inj h ▸ .post cbs hm
    · next hm => exact Except.ok.inj h ▸ .roundRobin cbs (Bool.eq_false_iff.mpr hm)
  | postTo id cb => exact Except.ok.inj h ▸ .postTo id cb
  | broadcast j cb =>
    simp only [exec] at h
    split at h
    · next hj => exact Except.ok.inj h ▸ .broadcast j cb hj
    · next hj => exact Except.ok.inj h ▸ .broadcastEnd j cb (Nat.le_of_not_lt hj)
  | startFrom j =>
    simp only [exec] at h
    split at h
    · next hj =>
      split at h
      · next hm => exact Except.ok.inj h ▸ .startFromThrew j hj hm
      · next hm => exact Except.ok.inj h ▸ .startFrom j hj (Bool.eq_false_iff.mpr hm)
    · next hj => exact Except.ok.inj h ▸ .startFromEnd j (Nat.le_of_not_lt hj)
  | launch v => exact Except.ok.inj h ▸ .launch v
  | free v => exact Except.ok.inj h ▸ .free v
  | stopFrom j =>
    simp only [exec] at h
    split at h
    · next hj => exact Except.ok.inj h ▸ .stopFrom j hj
    · next hj => exact Except.ok.inj h ▸ .stopFromEnd j (Nat.le_of_not_lt hj)
  | check =>
    rw [← Except.ok.inj h]
    split
    · next hm => exact .check hm
    · next hm => exact .checkNot (Bool.eq_false_iff.mpr hm)
  | take =>
    simp only [exec] at h
    split at h
    · next v free cb cbs hfree hcb => exact Except.ok.inj h ▸ .take v cb free cbs hfree hcb
    · next hnone =>
      refine Except.ok.inj h ▸ .takeNone ?_
      by_contra! hboth
      obtain ⟨v, free, hfree⟩ := List.exists_cons_of_ne_nil hboth.1
      obtain ⟨cb, cbs, hcb⟩ := List.exists_cons_of_ne_nil hboth.2
      exact (hnone v free cb cbs hfree hcb).elim
  | assign v cb =>
    simp only [exec] at h
    split at h
    · next hm => exact Except.ok.inj h ▸ .assign v cb hm
    · next hm => exact Except.ok.inj h ▸ .assignNot v cb (Bool.eq_false_iff.mpr hm)
  | putBack v cb => exact Except.ok.inj h ▸ .putBack v cb
  | drop v => exact Except.ok.inj h ▸ .drop v
  | release v => exact Except.ok.inj h ▸ .release v
  | push v cbs => exact Except.ok.inj h ▸ .push v cbs
  | send v =>
    obtain ⟨th, hth, h⟩ := ok_of_bind h
    exact Except.ok.inj h ▸ .send v th hth
  | stop v =>
    obtain ⟨th, hth, h⟩ := ok_of_bind h
    exact Except.ok.inj h ▸ .stop v th hth
  | start v =>
    simp only [exec] at h
    split at h
    · next hm => exact Except.ok.inj h ▸ .startThrew v hm
    · next hm => exact Except.ok.inj h ▸ .start v (Bool.eq_false_iff.mpr hm)
  | setStart v => exact Except.ok.inj h ▸ .setStart v
  | read_cb v =>
    obtain ⟨r, hr, h⟩ := ok_of_bind h
    exact Except.ok.inj h ▸ .read_cb v r.1 r.2 hr

/-- The steps that change what a thread has to run or has run. -/
def moves : Instr n Cb → Bool
  | .push .. | .stop _ | .read_cb _ => true
  | _ => false

theorem exec_same (h : exec body s k () i w = .ok t) (hi : moves i = false) (u : Fin (n + 1)) :
    SameQueue (s.m_threads u) (t.shared.m_threads u) := by
  have hset : ∀ (v : Fin (n + 1)) (th : FoxThread Cb), SameQueue (s.m_threads v) th →
      SameQueue (s.m_threads u) ((s.setThread v th).m_threads u) := fun v th h => same_setThread h u
  cases exec_effect h with
  | startFrom j hj hm => exact hset _ _ ⟨le_rfl, rfl, rfl, rfl, rfl, rfl, rfl, rfl⟩
  | launch v => exact hset _ _ ⟨le_rfl, rfl, rfl, rfl, rfl, rfl, rfl, rfl⟩
  | take v cb free cbs hfree hcb => exact hset _ _ ⟨le_rfl, rfl, rfl, rfl, rfl, rfl, rfl, rfl⟩
  | assign v cb hm => exact hset _ _ ⟨le_rfl, rfl, rfl, rfl, rfl, rfl, rfl, rfl⟩
  | drop v => exact hset _ _ ⟨le_rfl, rfl, rfl, rfl, rfl, rfl, rfl, rfl⟩
  | send v th hth => exact hset _ _ (FoxThread.send_same hth)
  | start v hm => exact hset _ _ ⟨le_rfl, rfl, rfl, rfl, rfl, rfl, rfl, rfl⟩
  | setStart v => exact hset _ _ ⟨le_rfl, rfl, rfl, rfl, rfl, rfl, rfl, rfl⟩
  | push v cbs => cases hi
  | stop v th hth => cases hi
  | read_cb v th next hr => cases hi
  | _ => exact .refl _

theorem exec_ordered (h : exec body s k () i w = .ok t) (ho : ∀ u, Ordered (s.m_threads u))
    (u : Fin (n + 1)) : Ordered (t.shared.m_threads u) := by
  have hset : ∀ (t : Fin (n + 1)) (th : FoxThread Cb), Ordered th →
      Ordered ((s.setThread t th).m_threads u) := by
    intro t th hth
    rw [setThread_apply]
    split
    · exact hth
    · exact ho u
  cases exec_effect h with
  | push v cbs => exact hset v _ ((ho v).push _)
  | stop v th hth => exact hset v th (((ho v).push [none]).same (FoxThread.stop_same hth))
  | read_cb v th next hr => exact hset v th ((ho v).read_cb hr)
  | _ => exact (ho u).same (exec_same h rfl u)

def wraps (cbs : List (Option (Callback Cb))) : ℕ :=
  cbs.countP fun
    | some (.wrapcb _) => true
    | some (.plain _) | none => false

def sends (u : Fin (n + 1)) : Unit → Instr n Cb → ℕ
  | _, .send t => if t = u then 1 else 0
  | _, _ => 0

def owns (u : Fin (n + 1)) : Unit → Instr n Cb → ℕ
  | _, .read_cb t => if t = u then 1 else 0
  | _, _ => 0

def frees (u : Fin (n + 1)) : Unit → Instr n Cb → ℕ
  | _, .launch t | _, .free t | _, .release t => if t = u then 1 else 0
  | _, _ => 0

def binds (u : Fin (n + 1)) : Unit → Instr n Cb → ℕ
  | _, .assign t _ => if t = u then 1 else 0
  | _, .push t cbs => if t = u then wraps (cbs.map some) else 0
  | _, _ => 0

def holds (u : Fin (n + 1)) : Unit → Instr n Cb → ℕ
  | _, .assign t _ | _, .putBack t _ | _, .drop t => if t = u then 1 else 0
  | _, .push t cbs => if t = u then wraps (cbs.map some) else 0
  | _, _ => 0

theorem wraps_plain (cbs : List Cb) : wraps ((cbs.map Callback.plain).map some) = 0 := by
  induction cbs with
  | nil => rfl
  | cons cb cbs ih => exact ih

theorem wraps_append (cbs cbs' : List (Option (Callback Cb))) :
    wraps (cbs ++ cbs') = wraps cbs + wraps cbs' := List.countP_append

/-- A weight that only what the pool and its threads do among themselves has. -/
structure Inner (v : Unit → Instr n Cb → ℕ) : Prop where
  post : ∀ cbs, v () (.post cbs) = 0
  postTo : ∀ id cb, v () (.postTo id cb) = 0
  broadcast : ∀ j cb, v () (.broadcast j cb) = 0
  startFrom : ∀ j, v () (.startFrom j) = 0
  stopFrom : ∀ j, v () (.stopFrom j) = 0
  check : v () .check = 0
  take : v () .take = 0
  push : ∀ t (cbs : List Cb), v () (.push t (cbs.map .plain)) = 0
  send : ∀ t, v () (.send t) = 0
  stop : ∀ t, v () (.stop t) = 0
  start : ∀ t, v () (.start t) = 0
  setStart : ∀ t, v () (.setStart t) = 0

theorem inner_owns (u : Fin (n + 1)) : Inner (owns u : Unit → Instr n Cb → ℕ) := by
  constructor <;> intros <;> rfl

theorem inner_frees (u : Fin (n + 1)) : Inner (frees u : Unit → Instr n Cb → ℕ) := by
  constructor <;> intros <;> rfl

theorem ite_wraps_plain (t u : Fin (n + 1)) (cbs : List Cb) :
    (if t = u then wraps ((cbs.map Callback.plain).map some) else 0) = 0 := by
  rw [wraps_plain, ite_self]

theorem inner_binds (u : Fin (n + 1)) : Inner (binds u : Unit → Instr n Cb → ℕ) := by
  constructor <;> intros <;> first | rfl | exact ite_wraps_plain _ u _

theorem inner_holds (u : Fin (n + 1)) : Inner (holds u : Unit → Instr n Cb → ℕ) := by
  constructor <;> intros <;> first | rfl | exact ite_wraps_plain _ u _

section Weights

variable {v : Unit → Instr n Cb → ℕ}

theorem sum_eq_zero_of {next : List (Instr n Cb)} (h : ∀ i ∈ next, v () i = 0) :
    (next.map (v ())).sum = 0 := by
  refine List.sum_eq_zero fun m hm => ?_
  obtain ⟨i, hi, rfl⟩ := List.mem_map.mp hm
  exact h i hi

theorem Inner.code_one (hv : Inner v) (c : Call n Cb) : v () c.code = 0 := by
  cases c with
  | dispatch cb => exact hv.post _
  | batchDispatch cbs => exact hv.post cbs
  | dispatchTo id cb => exact hv.postTo id cb
  | broadcast cb => exact hv.broadcast 0 cb
  | start => exact hv.startFrom 0
  | stop => exact hv.stopFrom 0
  | threadDispatch t cbs => exact hv.push t cbs
  | threadStart t => exact hv.start t
  | threadStop t => exact hv.stop t

theorem Inner.code (hv : Inner v) (cs : List (Call n Cb)) : ((cs.map Call.code).map (v ())).sum = 0 := by
  refine sum_eq_zero_of fun i hi => ?_
  obtain ⟨c, -, rfl⟩ := List.mem_map.mp hi
  exact hv.code_one c

theorem Inner.run (hv : Inner v) (cb : Callback Cb) : ((FoxThread.run body cb).map (v ())).sum = 0 := by
  cases cb with
  | plain cb => exact hv.code (body cb)
  | wrapcb cb => exact hv.code (body cb)

theorem Inner.pushOne (hv : Inner v) (t : Fin (n + 1)) (cb : Cb) : v () (.push t [.plain cb]) = 0 :=
  hv.push t [cb]

theorem Inner.roundRobin (hv : Inner v) (cbs : List Cb) :
    ∀ m_cur : ℕ, ((roundRobin m_cur cbs).map (v ())).sum = 0 := by
  induction cbs with
  | nil => exact fun _ => rfl
  | cons cb cbs ih =>
    intro m_cur
    rw [FoxThreadPool.roundRobin, List.map_cons, List.sum_cons, hv.pushOne, ih]

theorem holds_destroy (t u : Fin (n + 1)) (cbs : List (Option (Callback Cb))) :
    ((FoxThread.destroy t cbs).map (holds u ())).sum = if t = u then wraps cbs else 0 := by
  induction cbs with
  | nil => simp [FoxThread.destroy, wraps]
  | cons cb cbs ih =>
    unfold FoxThread.destroy at ih ⊢
    rcases cb with - | (_ | _)
    · simpa [wraps] using ih
    · simpa [wraps] using ih
    · simp only [List.filterMap_cons, List.map_cons, List.sum_cons, ih, wraps, List.countP_cons]
      simp only [holds]
      split <;> simp [Nat.add_comm]

theorem sum_destroy {t : Fin (n + 1)} (hv : v () (.drop t) = 0)
    (cbs : List (Option (Callback Cb))) : ((FoxThread.destroy t cbs).map (v ())).sum = 0 := by
  refine sum_eq_zero_of fun i hi => ?_
  obtain ⟨cb, -, heq⟩ := List.mem_filterMap.mp hi
  split at heq <;> cases heq
  exact hv

end Weights

/-- What the books do not depend on; only a thread that comes to a stop is no longer started. -/
structure SameBooks (th th' : FoxThread Cb) : Prop where
  started : th.m_start = true → th'.m_start = true
  m_thread_eq : th'.m_thread = th.m_thread
  pc_eq : th'.pc = th.pc
  wraps_eq : wraps th'.m_callbacks = wraps th.m_callbacks
  callbacks_eq : th'.callbacks = th.callbacks
  use_count_eq : th'.use_count = th.use_count
  pooled_eq : th'.pooled = th.pooled

theorem SameBooks.refl (th : FoxThread Cb) : SameBooks th th := ⟨id, rfl, rfl, rfl, rfl, rfl, rfl⟩

theorem send_books {th th' : FoxThread Cb} (h : th.send w = .ok th') : SameBooks th th' := by
  unfold FoxThread.send at h
  split at h
  · split at h
    · cases h
    · cases h
      exact .refl th
  · cases h
    exact ⟨id, rfl, rfl, rfl, rfl, rfl, rfl⟩

theorem push_books (th : FoxThread Cb) {cbs : List (Option (Callback Cb))} (h : wraps cbs = 0) :
    SameBooks th (th.push cbs) := by
  refine ⟨id, rfl, rfl, ?_, rfl, rfl, rfl⟩
  change wraps (th.m_callbacks ++ cbs) = _
  rw [wraps_append, h, Nat.add_zero]

theorem stop_books {th th' : FoxThread Cb} (h : th.stop w = .ok th') : SameBooks th th' := by
  unfold FoxThread.stop at h
  split at h
  · have hpush : SameBooks th (th.push [none]) := push_books th rfl
    have hsend := send_books h
    exact ⟨hsend.1, hsend.2, hsend.3, hsend.4.trans hpush.4, hsend.5, hsend.6, hsend.7⟩
  · cases h
    exact push_books th rfl

theorem books_setThread {s : FoxThreadPool n Cb} {t : Fin (n + 1)} {th : FoxThread Cb}
    (h : SameBooks (s.m_threads t) th) (u : Fin (n + 1)) :
    SameBooks (s.m_threads u) ((s.setThread t th).m_threads u) := by
  rw [setThread_apply]
  split
  · next hu => exact hu ▸ h
  · exact .refl _

inductive Booked (body : Cb → List (Call n Cb)) (s : FoxThreadPool n Cb) (w : ℕ) :
    Instr n Cb → CallTurn n Cb → Prop where
  | inner (i : Instr n Cb) (s' : FoxThreadPool n Cb) (next : List (Instr n Cb))
      (hi : ∀ v, Inner v → v () i = 0) (hnext : ∀ v, Inner v → (next.map (v ())).sum = 0)
      (hsame : ∀ u, SameBooks (s.m_threads u) (s'.m_threads u))
      (hfree : s'.m_freeFoxThreads = s.m_freeFoxThreads) : Booked body s w i (.only s' next)
  | startFrom (j : ℕ) (t : Fin (n + 1)) (hm : (s.m_threads t).m_thread = false) :
      Booked body s w (.startFrom j)
        { shared := s.setThread t { s.m_threads t with m_thread := true, pooled := true }
          next := [.launch t]
          born := [⟨(), [.read_cb t]⟩]
          resumed := none }
  | launch (t : Fin (n + 1)) : Booked body s w (.launch t)
      (.only (s.setThread t { s.m_threads t with m_start := true }) [.free t])
  | start (t : Fin (n + 1)) (hm : (s.m_threads t).m_thread = false) :
      Booked body s w (.start t)
        { shared := s.setThread t { s.m_threads t with m_thread := true }
          next := [.setStart t]
          born := [⟨(), [.read_cb t]⟩]
          resumed := none }
  | free (t : Fin (n + 1)) : Booked body s w (.free t)
      (.only { s with m_freeFoxThreads := s.m_freeFoxThreads ++ [t] } [.startFrom (t + 1)])
  | release (t : Fin (n + 1)) : Booked body s w (.release t)
      (.only { s with m_freeFoxThreads := s.m_freeFoxThreads ++ [t] } [.check])
  | take (t : Fin (n + 1)) (cb : Cb) (m_freeFoxThreads : List (Fin (n + 1))) (m_callbacks : List Cb)
      (hfree : s.m_freeFoxThreads = t :: m_freeFoxThreads) (hcb : s.m_callbacks = cb :: m_callbacks) :
      Booked body s w .take
        (.only { s.setThread t { s.m_threads t with use_count := 1 } with
          m_freeFoxThreads := m_freeFoxThreads
          m_callbacks := m_callbacks } [.assign t cb])
  | assign (t : Fin (n + 1)) (cb : Cb) (hm : (s.m_threads t).m_start = true) :
      Booked body s w (.assign t cb)
        (.only (s.setThread t { s.m_threads t with use_count := (s.m_threads t).use_count + 1 })
          [.push t [.wrapcb cb], .drop t, .check])
  | assignNot (t : Fin (n + 1)) (cb : Cb) (hm : (s.m_threads t).m_start = false) :
      Booked body s w (.assign t cb) (.only s [.putBack t cb])
  | putBack (t : Fin (n + 1)) (cb : Cb) : Booked body s w (.putBack t cb)
      (.only { s with m_callbacks := cb :: s.m_callbacks } [.drop t, .check])
  | drop (t : Fin (n + 1)) : Booked body s w (.drop t)
      (.only (s.setThread t { s.m_threads t with use_count := (s.m_threads t).use_count - 1 })
        (if (s.m_threads t).use_count = 1 then [.release t] else []))
  | push (t : Fin (n + 1)) (cbs : List (Callback Cb)) : Booked body s w (.push t cbs)
      (.only (s.setThread t ((s.m_threads t).push (cbs.map some))) [.send t])
  | read_cb (t : Fin (n + 1)) (th : FoxThread Cb) (next : List (Instr n Cb))
      (h : (s.m_threads t).read_cb body t w = .ok (th, next)) :
      Booked body s w (.read_cb t) (.only (s.setThread t th) next)

theorem exec_booked (h : exec body s k () i w = .ok t) : Booked body s w i t := by
  have hsame : ∀ u, SameBooks (s.m_threads u) (s.m_threads u) := fun u => .refl _
  cases exec_effect h with
  | post cbs hm => exact .inner _ _ _ (fun v hv => hv.post cbs) (fun v hv => by simp [hv.check]) hsame rfl
  | roundRobin cbs hm =>
    exact .inner _ _ _ (fun v hv => hv.post cbs) (fun v hv => hv.roundRobin cbs _) hsame rfl
  | postTo id cb =>
    exact .inner _ _ _ (fun v hv => hv.postTo id cb) (fun v hv => by simp [hv.pushOne]) hsame rfl
  | broadcast j cb hj =>
    exact .inner _ _ _ (fun v hv => hv.broadcast j cb) (fun v hv => by simp [hv.pushOne, hv.broadcast]) hsame rfl
  | broadcastEnd j cb hj => exact .inner _ _ _ (fun v hv => hv.broadcast j cb) (fun v hv => rfl) hsame rfl
  | startFrom j hj hm => exact .startFrom j _ hm
  | startFromThrew j hj hm => exact .inner _ _ _ (fun v hv => hv.startFrom j) (fun v hv => rfl) hsame rfl
  | startFromEnd j hj =>
    exact .inner _ _ _ (fun v hv => hv.startFrom j) (fun v hv => by simp [hv.check]) hsame rfl
  | stopFrom j hj =>
    exact .inner _ _ _ (fun v hv => hv.stopFrom j) (fun v hv => by simp [hv.stop, hv.stopFrom]) hsame rfl
  | stopFromEnd j hj => exact .inner _ _ _ (fun v hv => hv.stopFrom j) (fun v hv => rfl) hsame rfl
  | check hm => exact .inner _ _ _ (fun v hv => hv.check) (fun v hv => by simp [hv.take]) hsame rfl
  | checkNot hm => exact .inner _ _ _ (fun v hv => hv.check) (fun v hv => rfl) hsame rfl
  | take t cb free cbs hfree hcb => exact .take t cb free cbs hfree hcb
  | takeNone hnone => exact .inner _ _ _ (fun v hv => hv.take) (fun v hv => rfl) hsame rfl
  | assign t cb hm => exact .assign t cb hm
  | assignNot t cb hm => exact .assignNot t cb hm
  | send t th hth =>
    exact .inner _ _ _ (fun v hv => hv.send t) (fun v hv => rfl) (books_setThread (send_books hth)) rfl
  | stop t th hth =>
    exact .inner _ _ _ (fun v hv => hv.stop t) (fun v hv => rfl) (books_setThread (stop_books hth)) rfl
  | start t hm => exact .start t hm
  | startThrew t hm => exact .inner _ _ _ (fun v hv => hv.start t) (fun v hv => rfl) hsame rfl
  | setStart t =>
    refine .inner _ _ _ (fun v hv => hv.setStart t) (fun v hv => rfl) (books_setThread ?_) rfl
    exact ⟨fun _ => rfl, rfl, rfl, rfl, rfl, rfl, rfl⟩
  | read_cb t th next hr => exact .read_cb t th next hr
  | launch t => exact .launch t
  | free t => exact .free t
  | putBack t cb => exact .putBack t cb
  | drop t => exact .drop t
  | release t => exact .release t
  | push t cbs => exact .push t cbs

def gone (th : FoxThread Cb) : ℕ := if th.pc = .left then 1 else 0

def begun (th : FoxThread Cb) : ℕ := if th.m_thread then 1 else 0

def ours (th : FoxThread Cb) : ℕ := if th.pooled then 1 else 0

def inUse (th : FoxThread Cb) : ℕ := if 0 < th.use_count then 1 else 0

/-- What came from the pool and is with the thread. -/
def queue (th : FoxThread Cb) : ℕ := wraps th.m_callbacks + wraps th.callbacks

/-- What a thread does next is its own loop, what its callback calls, or what it drops. -/
theorem mem_read {u : Fin (n + 1)} {th th' : FoxThread Cb} {next : List (Instr n Cb)}
    (h : th.read_cb body u w = .ok (th', next)) {i : Instr n Cb} (hi : i ∈ next) :
    i = .read_cb u ∨ i = .drop u ∨ ∃ cb, ∃ c ∈ body cb, i = Call.code c := by
  unfold FoxThread.read_cb at h
  split at h
  · split at h
    · cases h
      exact .inl (List.mem_singleton.mp hi)
    · cases h
  · cases h
    exact .inl (List.mem_singleton.mp hi)
  · split at h
    · cases h
      exact .inl (List.mem_singleton.mp hi)
    · next cb it hit =>
      cases h
      rcases List.mem_append.mp hi with hi | hi
      · right
        right
        cases cb with
        | plain cb =>
          obtain ⟨c, hc, rfl⟩ := List.mem_map.mp hi
          exact ⟨cb, c, hc, rfl⟩
        | wrapcb cb =>
          obtain ⟨c, hc, rfl⟩ := List.mem_map.mp hi
          exact ⟨cb, c, hc, rfl⟩
      · exact .inl (List.mem_singleton.mp hi)
    · cases h
      exact .inl (List.mem_singleton.mp hi)
  · next broke hpc =>
    cases h
    rcases List.mem_append.mp hi with hi | hi
    · obtain ⟨cb, -, heq⟩ := List.mem_filterMap.mp hi
      split at heq <;> cases heq
      exact .inr (.inl rfl)
    · cases broke with
      | true => exact absurd hi List.not_mem_nil
      | false => exact .inl (List.mem_singleton.mp hi)
  · cases h

/-- What the thread does next weighs nothing but its own loop and what it drops. -/
theorem sum_read {v : Unit → Instr n Cb → ℕ} (hv : Inner v) {u : Fin (n + 1)} (hdrop : v () (.drop u) = 0)
    (hread : v () (.read_cb u) = 0) {th th' : FoxThread Cb} {next : List (Instr n Cb)}
    (h : th.read_cb body u w = .ok (th', next)) : (next.map (v ())).sum = 0 := by
  refine sum_eq_zero_of fun i hi => ?_
  rcases mem_read h hi with rfl | rfl | ⟨-, c, -, rfl⟩
  · exact hread
  · exact hdrop
  · exact hv.code_one c

theorem read_pooled {u : Fin (n + 1)} {th th' : FoxThread Cb} {next : List (Instr n Cb)}
    (h : th.read_cb body u w = .ok (th', next)) : th'.pooled = th.pooled := by
  unfold FoxThread.read_cb at h
  split at h
  · split at h <;> cases h
    rfl
  · cases h
    rfl
  · split at h <;> (cases h; rfl)
  · cases h
    rfl
  · cases h

structure ReadBooks (u : Fin (n + 1)) (th th' : FoxThread Cb) (next : List (Instr n Cb)) : Prop where
  m_thread_eq : th'.m_thread = th.m_thread
  use_count_eq : th'.use_count = th.use_count
  pooled_eq : th'.pooled = th.pooled
  owner : gone th' + (next.map (owns u ())).sum = gone th + 1
  count : (next.map (holds u ())).sum + queue th' = queue th

theorem read_books {u : Fin (n + 1)} {th th' : FoxThread Cb} {next : List (Instr n Cb)} (ho : Ordered th)
    (h : th.read_cb body u w = .ok (th', next)) : ReadBooks u th th' next := by
  have howns : Inner (owns u : Unit → Instr n Cb → ℕ) := inner_owns u
  have hholds : Inner (holds u : Unit → Instr n Cb → ℕ) := inner_holds u
  unfold FoxThread.read_cb at h
  split at h
  · next hpc =>
    split at h
    · cases h
      constructor <;> simp [gone, queue, owns, holds, hpc]
    · cases h
  · next hpc =>
    have hidle := (ho.idle (.inr (.inl hpc))).1
    cases h
    constructor <;> simp [gone, queue, owns, holds, hpc, hidle, wraps]
  · next hpc =>
    split at h
    · cases h
      constructor <;> simp [gone, queue, owns, holds, hpc]
    · cases h
      constructor <;> simp [gone, queue, howns.run, hholds.run, owns, holds, hpc]
    · cases h
      constructor <;> simp [gone, queue, owns, holds, hpc]
  · next broke hpc =>
    have hsum : ((FoxThread.destroy u th.callbacks).map (owns u ())).sum = 0 := sum_destroy rfl _
    have hdrops := holds_destroy u u th.callbacks
    cases h
    cases broke
    · constructor <;> simp [gone, queue, hpc, hsum, hdrops, owns, holds, wraps, Nat.add_comm]
    · constructor <;> simp [gone, queue, hpc, hsum, hdrops, wraps, Nat.add_comm]
  · cases h

def paid (v : Unit → Instr n Cb → ℕ) (t : CallTurn n Cb) : ℕ :=
  (t.next.map (v ())).sum + Threads.total v t.born

@[simp] theorem paid_only (v : Unit → Instr n Cb → ℕ) (s : FoxThreadPool n Cb) (next : List (Instr n Cb)) :
    paid v (.only s next) = (next.map (v ())).sum := Nat.add_zero _

@[simp] theorem shared_only (s : FoxThreadPool n Cb) (next : List (Instr n Cb)) :
    (Turn.only s next : CallTurn n Cb).shared = s := rfl

@[simp] theorem resumed_only (s : FoxThreadPool n Cb) (next : List (Instr n Cb)) :
    (Turn.only s next : CallTurn n Cb).resumed = none := rfl

structure Fair (s : FoxThreadPool n Cb) (i : Instr n Cb) : Prop where
  ordered : ∀ u, Ordered (s.m_threads u)
  used : ∀ u, holds u () i ≤ (s.m_threads u).use_count
  unused : ∀ u ∈ s.m_freeFoxThreads, (s.m_threads u).use_count = 0
  pooled : ∀ u, (s.m_threads u).pooled = true → (s.m_threads u).m_thread = true

structure Keeps (s : FoxThreadPool n Cb) (i : Instr n Cb) (t : CallTurn n Cb) (u : Fin (n + 1)) : Prop where
  resumed : t.resumed = none
  owner : gone (t.shared.m_threads u) + paid (owns u) t + begun (s.m_threads u) =
    gone (s.m_threads u) + owns u () i + begun (t.shared.m_threads u)
  count : (t.shared.m_threads u).use_count + (holds u () i + queue (s.m_threads u)) =
    (s.m_threads u).use_count + (paid (holds u) t + queue (t.shared.m_threads u))
  place : t.shared.m_freeFoxThreads.count u + paid (frees u) t + inUse (t.shared.m_threads u) +
      ours (s.m_threads u) =
    s.m_freeFoxThreads.count u + frees u () i + inUse (s.m_threads u) + ours (t.shared.m_threads u)
  single : paid (binds u) t + queue (t.shared.m_threads u) ≤ binds u () i + queue (s.m_threads u) ∨
    (s.m_threads u).use_count = 0 ∧
      paid (binds u) t + queue (t.shared.m_threads u) ≤ 1 + queue (s.m_threads u)
  pooled : (t.shared.m_threads u).pooled = true → (t.shared.m_threads u).m_thread = true

section Starting

variable (v u : Fin (n + 1))

theorem keeps_startFrom {j : ℕ} (hs : Fair s (.startFrom j)) (hm : (s.m_threads v).m_thread = false) :
    Keeps s (.startFrom j)
      { shared := s.setThread v { s.m_threads v with m_thread := true, pooled := true }
        next := [.launch v]
        born := [⟨(), [.read_cb v]⟩]
        resumed := none } u := by
  by_cases hvu : v = u
  · subst hvu
    have hnot : (s.m_threads v).pooled = false := by
      by_contra hp
      rw [hs.pooled v (Bool.not_eq_false _ ▸ hp)] at hm
      cases hm
    constructor <;>
      simp [paid, Threads.total, owns, holds, frees, binds, gone, begun, ours, inUse, queue, hm, hnot]
    omega
  · have hth := fun th => setThread_other s hvu th
    constructor <;> simp [paid, Threads.total, owns, holds, frees, binds, hth, hvu]
    exact hs.pooled u

theorem keeps_start (hs : Fair s (.start v)) (hm : (s.m_threads v).m_thread = false) :
    Keeps s (.start v)
      { shared := s.setThread v { s.m_threads v with m_thread := true }
        next := [.setStart v]
        born := [⟨(), [.read_cb v]⟩]
        resumed := none } u := by
  by_cases hvu : v = u
  · subst hvu
    constructor <;>
      simp [paid, Threads.total, owns, holds, frees, binds, gone, begun, ours, inUse, queue, hm]
  · have hth := fun th => setThread_other s hvu th
    constructor <;> simp [paid, Threads.total, owns, holds, frees, binds, hth, hvu]
    exact hs.pooled u

theorem keeps_launch (hs : Fair s (.launch v)) : Keeps s (.launch v)
    (.only (s.setThread v { s.m_threads v with m_start := true }) [.free v]) u := by
  have hpooled := hs.pooled u
  by_cases hvu : v = u
  · subst hvu
    constructor <;> simp [owns, holds, frees, binds, gone, begun, ours, inUse, queue]
    exact hpooled
  · have hth := fun th => setThread_other s hvu th
    constructor <;> simp [owns, holds, frees, binds, hth, hvu]
    exact hpooled

end Starting

section Handing

variable (v u : Fin (n + 1)) {cb : Cb}

theorem keeps_take {free : List (Fin (n + 1))} {m_callbacks : List Cb} (hs : Fair s .take)
    (hfree : s.m_freeFoxThreads = v :: free) : Keeps s .take
      (.only { s.setThread v { s.m_threads v with use_count := 1 } with
        m_freeFoxThreads := free
        m_callbacks := m_callbacks } [.assign v cb]) u := by
  have hpooled := hs.pooled u
  have hzero := hs.unused v (hfree ▸ List.mem_cons_self)
  by_cases hvu : v = u
  · subst hvu
    constructor <;> simp [owns, holds, frees, binds, gone, begun, ours, inUse, queue, hzero, hfree]
    exact hpooled
  · have hth := fun th => setThread_other s hvu th
    constructor <;> simp [owns, holds, frees, binds, hth, hvu, hfree]
    exact hpooled

theorem keeps_assign (hs : Fair s (.assign v cb)) : Keeps s (.assign v cb)
    (.only (s.setThread v { s.m_threads v with use_count := (s.m_threads v).use_count + 1 })
      [.push v [.wrapcb cb], .drop v, .check]) u := by
  have hpooled := hs.pooled u
  by_cases hvu : v = u
  · subst hvu
    have hused : 1 ≤ (s.m_threads v).use_count := by simpa [holds] using hs.used v
    have hpos : 0 < (s.m_threads v).use_count := hused
    constructor <;> simp [owns, holds, frees, binds, gone, begun, ours, inUse, queue, wraps, hpos]
    · omega
    · exact hpooled
  · have hth := fun th => setThread_other s hvu th
    constructor <;> simp [owns, holds, frees, binds, hth, hvu]
    exact hpooled

theorem keeps_drop (hs : Fair s (.drop v)) : Keeps s (.drop v)
    (.only (s.setThread v { s.m_threads v with use_count := (s.m_threads v).use_count - 1 })
      (if (s.m_threads v).use_count = 1 then [.release v] else [])) u := by
  have hpooled := hs.pooled u
  by_cases hvu : v = u
  · subst hvu
    have hused : 1 ≤ (s.m_threads v).use_count := by simpa [holds] using hs.used v
    by_cases hone : (s.m_threads v).use_count = 1
    · constructor <;> simp [owns, holds, frees, binds, gone, begun, ours, inUse, queue, hone]
      exact hpooled
    · have hpos : 0 < (s.m_threads v).use_count := hused
      have hpos' : 1 < (s.m_threads v).use_count := by omega
      constructor <;> simp [owns, holds, frees, binds, gone, begun, ours, inUse, queue, hone, hpos, hpos']
      · omega
      · exact hpooled
  · have hth := fun th => setThread_other s hvu th
    constructor <;> simp [apply_ite, owns, holds, frees, binds, hth, hvu]
    exact hpooled

end Handing

section Running

variable (v u : Fin (n + 1))

theorem keeps_push {cbs : List (Callback Cb)} (hs : Fair s (.push v cbs)) : Keeps s (.push v cbs)
    (.only (s.setThread v ((s.m_threads v).push (cbs.map some))) [.send v]) u := by
  have hpooled := hs.pooled u
  by_cases hvu : v = u
  · subst hvu
    constructor <;>
      simp [owns, holds, frees, binds, gone, begun, ours, inUse, queue, FoxThread.push, wraps_append]
    · omega
    · omega
    · exact hpooled
  · have hth := fun th => setThread_other s hvu th
    constructor <;> simp [owns, holds, frees, binds, hth, hvu]
    exact hpooled

theorem keeps_read {th : FoxThread Cb} {next : List (Instr n Cb)} (hs : Fair s (.read_cb v))
    (h : (s.m_threads v).read_cb body v w = .ok (th, next)) :
    Keeps s (.read_cb v) (.only (s.setThread v th) next) u := by
  have hpooled := hs.pooled u
  by_cases hvu : v = u
  · subst hvu
    obtain ⟨hm, huse, hp, howner, hcount⟩ := read_books (hs.ordered v) h
    have hfrees := sum_read (inner_frees v) rfl rfl h
    have hbinds := sum_read (inner_binds v) rfl rfl h
    constructor
    · rfl
    · simpa [owns, begun, hm] using howner
    · simpa [holds, huse] using hcount.symm
    · simp [frees, hfrees, inUse, ours, huse, hp]
    · left
      simp only [paid_only, shared_only, setThread_self, hbinds]
      omega
    · rw [shared_only, setThread_self, hm, hp]
      exact hpooled
  · have hth := fun th => setThread_other s hvu th
    have howns := sum_read (inner_owns u) rfl (if_neg hvu) h
    have hholds := sum_read (inner_holds u) (if_neg hvu) rfl h
    have hfrees := sum_read (inner_frees u) rfl rfl h
    have hbinds := sum_read (inner_binds u) rfl rfl h
    constructor <;> simp [owns, holds, frees, binds, hth, hvu, howns, hholds, hfrees, hbinds]
    exact hpooled

end Running

theorem Booked.keeps (h : Booked body s w i t) (hs : Fair s i) (u : Fin (n + 1)) : Keeps s i t u := by
  have hpooled := hs.pooled u
  cases h with
  | inner _ s' next hi hnext hsame hfree =>
    obtain ⟨-, hm, hpc, hw, hc, hu, hp⟩ := hsame u
    constructor
    · rfl
    · simp [gone, begun, hm, hpc, hi _ (inner_owns u), hnext _ (inner_owns u)]
    · simp [queue, hw, hc, hu, hi _ (inner_holds u), hnext _ (inner_holds u)]
    · simp [inUse, ours, hfree, hu, hp, hi _ (inner_frees u), hnext _ (inner_frees u)]
    · left
      simp [queue, hw, hc, hi _ (inner_binds u), hnext _ (inner_binds u)]
    · rw [shared_only, hm, hp]
      exact hpooled
  | startFrom j v hm => exact keeps_startFrom v u hs hm
  | start v hm => exact keeps_start v u hs hm
  | launch v => exact keeps_launch v u hs
  | free v =>
    constructor <;> simp [owns, holds, frees, binds, List.count_append, List.count_singleton]
    exact hpooled
  | release v =>
    constructor <;> simp [owns, holds, frees, binds, List.count_append, List.count_singleton]
    exact hpooled
  | take v cb free m_callbacks hfree hcb => exact keeps_take v u hs hfree
  | assign v cb hm => exact keeps_assign v u hs
  | assignNot v cb hm =>
    constructor <;> simp [owns, holds, frees, binds]
    exact hpooled
  | putBack v cb =>
    constructor <;> simp [owns, holds, frees, binds]
    exact hpooled
  | drop v => exact keeps_drop v u hs
  | push v cbs => exact keeps_push v u hs
  | read_cb v th next h => exact keeps_read v u hs h

end FoxThreadPool

end Sylar
