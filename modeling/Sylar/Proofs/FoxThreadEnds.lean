import Sylar.Proofs.FoxThreadRun

/-! What a user of `FoxThread` and `FoxThreadPool` may rely on, however the steps follow each
other. While nobody is told to stop, every run of the steps comes to an end, if the callbacks do
not dispatch each other for ever: each callback costs more than what it calls. -/

namespace Sylar

open Lib

namespace FoxThreadPool

open FoxThread (Callback Pc Ordered)

variable {n : ℕ} {Cb : Type} {body : Cb → List (Call n Cb)} {f f' : Calls n Cb}

def Quiet (body : Cb → List (Call n Cb)) (f : Calls n Cb) : Prop := ∀ k w f', turn body f k w ≠ .ok f'

/-- A step can be taken, unless a thread waits for a byte or is behind its loop. -/
theorem exec_enabled (body : Cb → List (Call n Cb)) (s : FoxThreadPool n Cb) (k : ℕ) (i : Instr n Cb)
    (hi : ∀ u, i = .read_cb u → (s.m_threads u).pc ≠ .left ∧
      ((s.m_threads u).pc = .loop → 0 < (s.m_threads u).bytes)) :
    ∃ w t, exec body s k () i w = .ok t := by
  cases i with
  | post cbs =>
    simp only [exec]
    split <;> exact ⟨0, _, rfl⟩
  | broadcast j cb =>
    simp only [exec]
    split <;> exact ⟨0, _, rfl⟩
  | startFrom j =>
    simp only [exec]
    split
    · split <;> exact ⟨0, _, rfl⟩
    · exact ⟨0, _, rfl⟩
  | stopFrom j =>
    simp only [exec]
    split <;> exact ⟨0, _, rfl⟩
  | take =>
    simp only [exec]
    split <;> exact ⟨0, _, rfl⟩
  | assign t cb =>
    simp only [exec]
    split <;> exact ⟨0, _, rfl⟩
  | start t =>
    simp only [exec]
    split <;> exact ⟨0, _, rfl⟩
  | send t => exact ⟨1, _, rfl⟩
  | stop t =>
    refine ⟨1, ?_⟩
    simp only [exec, FoxThread.stop]
    split <;> exact ⟨_, rfl⟩
  | read_cb t =>
    obtain ⟨hleft, hloop⟩ := hi t rfl
    have hread : ∃ w r, (s.m_threads t).read_cb body t w = .ok r := by
      unfold FoxThread.read_cb
      split
      · next hpc => exact ⟨1, _, if_pos ⟨Nat.one_pos, hloop hpc, by omega⟩⟩
      · exact ⟨0, _, rfl⟩
      · split <;> exact ⟨0, _, rfl⟩
      · exact ⟨0, _, rfl⟩
      · next hpc => exact absurd hpc hleft
    obtain ⟨w, r, hr⟩ := hread
    simp only [exec]
    exact ⟨w, _, by rw [hr]; rfl⟩
  | _ => exact ⟨0, _, rfl⟩

theorem begun_le (th : FoxThread Cb) : begun th ≤ 1 := by
  unfold begun
  split <;> omega

/-- In a quiet state a thread waits for a byte, and nobody else has anything to do. -/
theorem Inv.quiet_code (h : Inv f) (hq : Quiet body f) {k : ℕ} {th : Thread Unit (Instr n Cb)}
    (hk : look f.threads k = some th) : th.code = [] ∨ ∃ u, th.code = [.read_cb u] ∧
      (f.shared.m_threads u).pc = .loop ∧ (f.shared.m_threads u).bytes = 0 := by
  obtain ⟨⟨⟩, code⟩ := th
  cases code with
  | nil => exact .inl rfl
  | cons i rest =>
    right
    by_contra hnot
    have henabled : ∃ w t, exec body f.shared k () i w = .ok t := by
      refine exec_enabled body f.shared k i fun u hu => ⟨fun hleft => ?_, fun hloop => ?_⟩
      · subst hu
        have howner := h.owner u
        have hone : owns u () (.read_cb u : Instr n Cb) = 1 := if_pos rfl
        have hle : 1 ≤ Threads.total (owns u) f.threads := hone ▸ Threads.le_total (owns u) hk
        have hgone : gone (f.shared.m_threads u) = 1 := if_pos hleft
        have hbegun := begun_le (f.shared.m_threads u)
        omega
      · subst hu
        by_contra hbytes
        have hnil := (h.tailed k _ hk).eq_nil rfl
        exact hnot ⟨u, by rw [hnil], hloop, Nat.eq_zero_of_not_pos hbytes⟩
    obtain ⟨w, t, ht⟩ := henabled
    refine hq k w (f.after id k () rest t) ?_
    have hget : f.threads[k]? = some ⟨(), i :: rest⟩ := hk
    unfold FoxThreadPool.turn Threads.run
    rw [hget]
    simp only [ht]

theorem Inv.quiet_total (h : Inv f) (hq : Quiet body f) {v : Unit → Instr n Cb → ℕ}
    (hv : ∀ u, v () (.read_cb u) = 0) : Threads.total v f.threads = 0 := by
  refine Threads.total_eq_zero fun th hth i hi => ?_
  obtain ⟨j, hj⟩ := List.mem_iff_getElem?.mp hth
  rcases h.quiet_code hq hj with hnil | ⟨u, hu, -, -⟩
  · rw [hnil] at hi
    exact absurd hi List.not_mem_nil
  · rw [hu] at hi
    rw [List.mem_singleton.mp hi]
    exact hv u

theorem Inv.quiet_pc (h : Inv f) (hq : Quiet body f) {u : Fin (n + 1)}
    (hm : (f.shared.m_threads u).m_thread = true) :
    (f.shared.m_threads u).pc = .left ∨
      (f.shared.m_threads u).pc = .loop ∧ (f.shared.m_threads u).bytes = 0 := by
  by_cases hleft : (f.shared.m_threads u).pc = .left
  · exact .inl hleft
  · have howner := h.owner u
    have hgone : gone (f.shared.m_threads u) = 0 := if_neg hleft
    have hbegun : begun (f.shared.m_threads u) = 1 := if_pos hm
    obtain ⟨j, th, i, hj, hi, hpos⟩ := Threads.exists_of_total_pos (w := owns u) (s := f) (by omega)
    rcases h.quiet_code hq hj with hnil | ⟨v, hv, hloop⟩
    · rw [hnil] at hi
      exact absurd hi List.not_mem_nil
    · rw [hv] at hi
      rw [List.mem_singleton.mp hi] at hpos
      by_cases hvu : v = u
      · exact .inr (hvu ▸ hloop)
      · rw [show owns u th.role (.read_cb v : Instr n Cb) = 0 from if_neg hvu] at hpos
        exact absurd hpos (lt_irrefl 0)

theorem Inv.quiet_queue (h : Inv f) (hq : Quiet body f) {u : Fin (n + 1)}
    (hloop : (f.shared.m_threads u).pc = .loop) (hbytes : (f.shared.m_threads u).bytes = 0) :
    ∀ x ∈ (f.shared.m_threads u).m_callbacks, x = none := by
  intro x hx
  cases x with
  | none => rfl
  | some cb =>
    rcases h.announced u cb hx with hpos | hrecv | hsend
    · omega
    · rw [hloop] at hrecv
      cases hrecv
    · rw [h.quiet_total hq fun _ => rfl] at hsend
      exact absurd hsend (lt_irrefl 0)

theorem Inv.quiet_ran (h : Inv f) (hq : Quiet body f) {u : Fin (n + 1)}
    (hm : (f.shared.m_threads u).m_thread = true) :
    (f.shared.m_threads u).ran.map some = (f.shared.m_threads u).pushed.takeWhile Option.isSome := by
  have ho := h.ordered u
  have hall : ∀ x ∈ (f.shared.m_threads u).ran.map some, Option.isSome x = true := by
    intro x hx
    obtain ⟨cb, -, rfl⟩ := List.mem_map.mp hx
    rfl
  rcases h.quiet_pc hq hm with hleft | ⟨hloop, hbytes⟩
  · obtain ⟨rest, hrest⟩ := ho.broken (.inr hleft)
    rw [hrest, List.takeWhile_append_of_pos hall]
    simp
  · have hqueue := h.quiet_queue hq hloop hbytes
    have hgoing := ho.going (by simp [FoxThread.broke, hloop])
    rw [(ho.idle (.inl hloop)).2, List.nil_append] at hgoing
    rw [hgoing, List.takeWhile_append_of_pos hall]
    have hnone : (f.shared.m_threads u).m_callbacks.takeWhile Option.isSome = [] := by
      cases hc : (f.shared.m_threads u).m_callbacks with
      | nil => rfl
      | cons x xs =>
        rw [hqueue x (hc ▸ List.mem_cons_self)]
        rfl
    rw [hnone, List.append_nil]

/-- What was run was pushed before the first stop, and in this order; `m_total` counts what the thread
is through with, what a stop has cut off included. -/
structure InOrder (th : FoxThread Cb) : Prop where
  before_stop : th.ran.map some <+: th.pushed.takeWhile Option.isSome
  total : th.m_total + UInt64.ofNat (th.callbacks.length + th.m_callbacks.length) =
    UInt64.ofNat th.pushed.length

theorem callbacks_in_order (body : Cb → List (Call n Cb)) (m_advance : Bool) (moves : List (Move n Cb)) :
    Along (FoxThreadPool.step body) (fun f => ∀ u, InOrder (f.shared.m_threads u)) (init m_advance) moves :=
  (along_inv body m_advance moves).mono fun _ h u => ⟨(h.ordered u).ran_isPrefix, (h.ordered u).total⟩

/-- When nobody can take a step, a thread that was started has run all that was pushed before the first
stop. -/
theorem no_callback_forgotten (body : Cb → List (Call n Cb)) (m_advance : Bool) (moves : List (Move n Cb)) :
    Along (FoxThreadPool.step body)
      (fun f => Quiet body f → ∀ u, (f.shared.m_threads u).m_thread = true →
        (f.shared.m_threads u).ran.map some = (f.shared.m_threads u).pushed.takeWhile Option.isSome)
      (init m_advance) moves :=
  (along_inv body m_advance moves).mono fun _ h hq u hm => h.quiet_ran hq (u := u) hm

/-- A thread is in the list once, and not while it has a function of the pool, of which it never has
two. -/
structure Exclusive (s : FoxThreadPool n Cb) : Prop where
  free_once : s.m_freeFoxThreads.Nodup
  free_idle : ∀ u ∈ s.m_freeFoxThreads, queue (s.m_threads u) = 0
  one : ∀ u, queue (s.m_threads u) ≤ 1

theorem Inv.exclusive (h : Inv f) : Exclusive f.shared := by
  refine ⟨List.nodup_iff_count_le_one.mpr fun u => ?_, fun u hu => ?_, fun u => ?_⟩
  · have hplace := h.place u
    have hours := ours_le (f.shared.m_threads u)
    omega
  · have hplace := h.place u
    have hcount := h.count u
    have hours := ours_le (f.shared.m_threads u)
    have hpos := List.count_pos_iff.mpr hu
    unfold inUse at hplace
    split at hplace <;> omega
  · have hsingle := h.single u
    omega

theorem threads_exclusive (body : Cb → List (Call n Cb)) (m_advance : Bool) (moves : List (Move n Cb)) :
    Along (FoxThreadPool.step body) (fun f => Exclusive f.shared) (init m_advance) moves :=
  (along_inv body m_advance moves).mono fun _ h => h.exclusive

section Posted

variable [DecidableEq Cb]

def Accounted (f : Calls n Cb) : Prop :=
  ∀ cb, f.shared.m_callbacks.count cb + Threads.total (carries cb) f.threads + given f.shared cb =
    f.shared.posted.count cb

theorem accounted_step {f f' : Calls n Cb} {m : Move n Cb} (h : Accounted f)
    (hs : FoxThreadPool.step body f m = .ok f') : Accounted f' := by
  intro cb
  have hold := h cb
  cases m with
  | calls cs =>
    cases hs
    rw [Threads.total_start, (inner_carries cb).code, Nat.add_zero]
    exact hold
  | turn k w =>
    obtain ⟨role, i, rest, t, ⟨hk, hexec⟩, rfl⟩ := Threads.run_ran hs
    obtain rfl : role = () := rfl
    have hposted := exec_posted hexec cb
    have hafter : Threads.total (carries cb) (f.after id k () rest t).threads + carries cb () i =
      Threads.total (carries cb) f.threads + (t.next.map (carries cb ())).sum +
        Threads.total (carries cb) t.born := Threads.total_after (carries cb) hk (exec_resumed hexec)
    unfold Conserves paid at hposted
    change t.shared.m_callbacks.count cb + Threads.total (carries cb) (f.after id k () rest t).threads +
      given t.shared cb = t.shared.posted.count cb
    omega

/-- Everything dispatched to the pool was run, as often as it was dispatched, and every thread is
free. -/
structure AllDone (s : FoxThreadPool n Cb) : Prop where
  none_waits : s.m_callbacks = []
  free : ∀ u, s.m_freeFoxThreads.count u = 1
  ran : ∀ cb, ∑ u, (s.m_threads u).ran.count (.wrapcb cb) = s.posted.count cb

theorem Inv.all_done (h : Inv f) (ha : Accounted f) (hq : Quiet body f) (hstart : f.shared.m_start = true)
    (hstop : ∀ u, none ∉ (f.shared.m_threads u).pushed) : AllDone f.shared := by
  have hours : ∀ u, ours (f.shared.m_threads u) = 1 := by
    intro u
    have hlaunched := h.launched u
    have hle := ours_le (f.shared.m_threads u)
    unfold running at hlaunched
    rw [if_pos hstart] at hlaunched
    omega
  have hpooled : ∀ u, (f.shared.m_threads u).pooled = true := by
    intro u
    have hu := hours u
    unfold ours at hu
    split at hu
    · assumption
    · cases hu
  have hthread : ∀ u, (f.shared.m_threads u).pc = .loop ∧ (f.shared.m_threads u).m_callbacks = [] ∧
      (f.shared.m_threads u).callbacks = [] ∧
      (f.shared.m_threads u).pushed = (f.shared.m_threads u).ran.map some := by
    intro u
    have ho := h.ordered u
    rcases h.quiet_pc hq (h.pooled u (hpooled u)) with hleft | ⟨hloop, hbytes⟩
    · obtain ⟨rest, hrest⟩ := ho.broken (.inr hleft)
      exact absurd (hrest ▸ List.mem_append_right _ List.mem_cons_self) (hstop u)
    · have hgoing := ho.going (by simp [FoxThread.broke, hloop])
      have hnil : (f.shared.m_threads u).m_callbacks = [] := by
        refine List.eq_nil_iff_forall_not_mem.mpr fun x hx => ?_
        have hnone := h.quiet_queue hq hloop hbytes x hx
        subst hnone
        refine hstop u ?_
        rw [hgoing]
        exact List.mem_append_right _ (List.mem_append_right _ hx)
      rw [(ho.idle (.inl hloop)).2, hnil] at hgoing
      exact ⟨hloop, hnil, (ho.idle (.inl hloop)).1, hgoing.trans (List.append_nil _)⟩
  have hfree : ∀ u, f.shared.m_freeFoxThreads.count u = 1 := by
    intro u
    obtain ⟨-, hcallbacks, hbatch, -⟩ := hthread u
    have hplace := h.place u
    have hcount := h.count u
    rw [h.quiet_total hq fun _ => rfl, queue, hcallbacks, hbatch] at hcount
    rw [h.quiet_total hq fun _ => rfl, hours, inUse, hcount] at hplace
    exact hplace
  have hnil : f.shared.m_callbacks = [] := by
    by_contra hne
    have hmem : (0 : Fin (n + 1)) ∈ f.shared.m_freeFoxThreads :=
      List.count_pos_iff.mp (by rw [hfree]; exact Nat.one_pos)
    have hwatch := h.watched hstart (List.ne_nil_of_mem hmem) hne
    rw [h.quiet_total hq fun _ => rfl] at hwatch
    exact absurd hwatch (lt_irrefl 0)
  refine ⟨hnil, hfree, fun cb => ?_⟩
  have hposted := ha cb
  rw [hnil, h.quiet_total hq fun _ => rfl] at hposted
  rw [← hposted, given]
  simp only [List.count_nil, Nat.zero_add]
  refine Finset.sum_congr rfl fun u _ => ?_
  rw [(hthread u).2.2.2, List.count_map_of_injective _ some (Option.some_injective _)]

/-- While the pool is started and nobody was told to stop: when nobody can take a step, everything that
was dispatched has been run. -/
theorem all_posted_run (body : Cb → List (Call n Cb)) (m_advance : Bool) (moves : List (Move n Cb)) :
    Along (FoxThreadPool.step body)
      (fun f => Quiet body f → f.shared.m_start = true →
        (∀ u, none ∉ (f.shared.m_threads u).pushed) → AllDone f.shared)
      (init m_advance) moves := by
  have hboth : Along (FoxThreadPool.step body) (fun f => Inv f ∧ Accounted f) (init m_advance) moves :=
    along_of_each (fun f => Inv f ∧ Accounted f) (fun _ _ => True)
      (fun _ _ _ h _ hs => ⟨h.1.step hs, accounted_step h.2 hs⟩) moves _
      ⟨.init m_advance, fun cb => by simp [init, given, Threads.total, FoxThread.init]⟩ (each_true moves _)
  exact hboth.mono fun f h hq hstart hstop => h.1.all_done h.2 hq hstart hstop

end Posted

end FoxThreadPool

namespace FoxThreadPool

open FoxThread (Callback Pc Ordered)

variable {n : ℕ} {Cb : Type} {body : Cb → List (Call n Cb)} {cost : Cb → ℕ} {s : FoxThreadPool n Cb} {k w : ℕ}
  {i : Instr n Cb} {t : CallTurn n Cb}

def Call.stops : Call n Cb → Bool
  | .stop | .threadStop _ => true
  | _ => false

def calm : Instr n Cb → Bool
  | .stop _ | .stopFrom _ | .putBack .. => false
  | _ => true

theorem calm_code {c : Call n Cb} (hc : c.stops = false) : calm c.code = true := by
  cases c <;> first | rfl | cases hc

/-- A callback that waits for its thread: it runs, and what came from the pool is dropped. -/
def itemCost (cost : Cb → ℕ) : Option (Callback Cb) → ℕ
  | some (.plain cb) => 1 + cost cb
  | some (.wrapcb cb) => 5 + cost cb
  | none => 1

def runCost (cost : Cb → ℕ) : Option (Callback Cb) → ℕ
  | some (.plain cb) | some (.wrapcb cb) => 1 + cost cb
  | none => 1

def pcCost : Pc → ℕ
  | .received => 3
  | .running => 2
  | .ended _ => 1
  | .loop | .left => 0

def threadCost (cost : Cb → ℕ) (th : FoxThread Cb) : ℕ :=
  4 * th.bytes + pcCost th.pc + (th.m_callbacks.map (itemCost cost)).sum + (th.it.map (runCost cost)).sum +
    4 * wraps th.callbacks

def poolCost (cost : Cb → ℕ) (s : FoxThreadPool n Cb) : ℕ :=
  (s.m_callbacks.map fun cb => 18 + cost cb).sum + ∑ u, threadCost cost (s.m_threads u)

def instrCost (cost : Cb → ℕ) : Unit → Instr n Cb → ℕ
  | _, .post cbs => 3 + (cbs.map fun cb => 18 + cost cb).sum
  | _, .postTo _ cb => 8 + cost cb
  | _, .broadcast j cb => (n + 1 - j) * (8 + cost cb) + 1
  | _, .startFrom j => 3 * (n + 1 - j) + 3
  | _, .launch t => 3 * (n - t) + 5
  | _, .free t => 3 * (n - t) + 4
  | _, .check => 2
  | _, .take => 1
  | _, .assign _ cb => 18 + cost cb
  | _, .drop _ => 4
  | _, .release _ => 3
  | _, .push _ cbs => 6 + (cbs.map fun cb => itemCost cost (some cb)).sum
  | _, .send _ => 5
  | _, .start _ => 2
  | _, .setStart _ => 1
  | _, .putBack .. | _, .stopFrom _ | _, .stop _ | _, .read_cb _ => 0

/-- A callback costs more than its calls. -/
def Priced (body : Cb → List (Call n Cb)) (cost : Cb → ℕ) : Prop :=
  ∀ cb, (((body cb).map Call.code).map (instrCost cost ())).sum ≤ cost cb

theorem sum_threadCost (cost : Cb → ℕ) (s : FoxThreadPool n Cb) (t : Fin (n + 1)) (th : FoxThread Cb) :
    ∑ u, threadCost cost ((s.setThread t th).m_threads u) + threadCost cost (s.m_threads t) =
      ∑ u, threadCost cost (s.m_threads u) + threadCost cost th := by
  rw [← Finset.add_sum_erase _ _ (Finset.mem_univ t),
    ← Finset.add_sum_erase (f := fun u => threadCost cost (s.m_threads u)) _ (Finset.mem_univ t)]
  have hrest : ∑ u ∈ Finset.univ.erase t, threadCost cost ((s.setThread t th).m_threads u) =
      ∑ u ∈ Finset.univ.erase t, threadCost cost (s.m_threads u) := by
    refine Finset.sum_congr rfl fun u hu => ?_
    rw [setThread_other s (Finset.ne_of_mem_erase hu).symm]
  rw [setThread_self, hrest]
  omega

theorem poolCost_setThread (cost : Cb → ℕ) (s : FoxThreadPool n Cb) (t : Fin (n + 1)) (th : FoxThread Cb) :
    poolCost cost (s.setThread t th) + threadCost cost (s.m_threads t) =
      poolCost cost s + threadCost cost th := by
  have hsum := sum_threadCost cost s t th
  unfold poolCost
  change (s.m_callbacks.map fun cb => 18 + cost cb).sum + _ + _ = _
  omega

theorem poolCost_same (cost : Cb → ℕ) (s : FoxThreadPool n Cb) (t : Fin (n + 1)) {th : FoxThread Cb}
    (h : threadCost cost th = threadCost cost (s.m_threads t)) :
    poolCost cost (s.setThread t th) = poolCost cost s := by
  have hset := poolCost_setThread cost s t th
  omega

theorem sum_items (cost : Cb → ℕ) (cbs : List (Option (Callback Cb))) :
    (cbs.map (runCost cost)).sum + 4 * wraps cbs = (cbs.map (itemCost cost)).sum := by
  induction cbs with
  | nil => rfl
  | cons cb cbs ih =>
    have hsplit : wraps (cb :: cbs) = wraps [cb] + wraps cbs := wraps_append [cb] cbs
    rw [List.map_cons, List.sum_cons, List.map_cons, List.sum_cons, hsplit, ← ih]
    match cb with
    | none =>
      change 1 + _ + 4 * (0 + _) = 1 + _
      omega
    | some (.plain cb) =>
      change 1 + cost cb + _ + 4 * (0 + _) = 1 + cost cb + _
      omega
    | some (.wrapcb cb) =>
      change 1 + cost cb + _ + 4 * (1 + _) = 5 + cost cb + _
      omega

theorem cost_destroy (t : Fin (n + 1)) (cbs : List (Option (Callback Cb))) :
    ((FoxThread.destroy t cbs).map (instrCost cost ())).sum = 4 * wraps cbs := by
  induction cbs with
  | nil => rfl
  | cons cb cbs ih =>
    have hsplit : wraps (cb :: cbs) = wraps [cb] + wraps cbs := wraps_append [cb] cbs
    unfold FoxThread.destroy at ih ⊢
    rw [hsplit]
    match cb with
    | none =>
      change _ = 4 * (0 + _)
      simpa using ih
    | some (.plain _) =>
      change _ = 4 * (0 + _)
      simpa using ih
    | some (.wrapcb _) =>
      simp only [List.filterMap_cons, List.map_cons, List.sum_cons, ih]
      change 4 + _ = 4 * (1 + _)
      omega

theorem cost_roundRobin (cost : Cb → ℕ) (cbs : List Cb) : ∀ m_cur : ℕ,
    ((roundRobin m_cur cbs : List (Instr n Cb)).map (instrCost cost ())).sum ≤
      (cbs.map fun cb => 18 + cost cb).sum := by
  induction cbs with
  | nil => exact fun _ => le_rfl
  | cons cb cbs ih =>
    intro m_cur
    have hrest := ih ((m_cur + 1) % 2 ^ 32)
    rw [roundRobin, List.map_cons, List.sum_cons, List.map_cons, List.sum_cons]
    change 6 + (1 + cost cb + 0) + _ ≤ _
    omega

theorem cost_read {u : Fin (n + 1)} {th th' : FoxThread Cb} {next : List (Instr n Cb)} (hcost : Priced body cost)
    (h : th.read_cb body u w = .ok (th', next)) :
    threadCost cost th' + (next.map (instrCost cost ())).sum + 1 ≤ threadCost cost th := by
  have hloop : ([(.read_cb u : Instr n Cb)].map (instrCost cost ())).sum = 0 := rfl
  unfold FoxThread.read_cb at h
  split at h
  · next hpc =>
    split at h
    · next hw =>
      cases h
      simp only [threadCost, hloop, hpc, pcCost]
      omega
    · cases h
  · next hpc =>
    cases h
    have hitems := sum_items cost th.m_callbacks
    simp only [threadCost, hloop, hpc, pcCost, List.map_nil, List.sum_nil]
    omega
  · next hpc =>
    split at h
    · cases h
      simp only [threadCost, hloop, hpc, pcCost]
      omega
    · next cb it hit =>
      cases h
      have hrun : ((FoxThread.run body cb).map (instrCost cost ())).sum + 1 ≤ runCost cost (some cb) := by
        cases cb with
        | plain cb => exact (Nat.add_le_add_right (hcost cb) 1).trans_eq (Nat.add_comm _ _)
        | wrapcb cb => exact (Nat.add_le_add_right (hcost cb) 1).trans_eq (Nat.add_comm _ _)
      have hsum : (th.it.map (runCost cost)).sum = runCost cost (some cb) + (it.map (runCost cost)).sum := by
        rw [hit]
        rfl
      simp only [threadCost, List.map_append, List.sum_append, hloop, hsum]
      omega
    · cases h
      simp only [threadCost, hloop, hpc, pcCost]
      omega
  · next broke hpc =>
    cases h
    have hended : pcCost th.pc = 1 := by
      rw [hpc]
      rfl
    have hpcs : pcCost (if broke = true then Pc.left else Pc.loop) = 0 := by cases broke <;> rfl
    have htail : ((if broke = true then [] else [(.read_cb u : Instr n Cb)]).map (instrCost cost ())).sum = 0 := by
      cases broke <;> rfl
    have hzero : wraps ([] : List (Option (Callback Cb))) = 0 := rfl
    simp only [threadCost, hpcs, hended, List.map_append, List.sum_append, htail, cost_destroy, hzero,
      List.map_nil, List.sum_nil]
    omega
  · cases h

theorem cost_send (cost : Cb → ℕ) {th th' : FoxThread Cb} (h : th.send w = .ok th') :
    threadCost cost th' ≤ threadCost cost th + 4 := by
  unfold FoxThread.send at h
  split at h
  · split at h
    · cases h
    · cases h
      exact Nat.le_add_right _ 4
  · cases h
    simp only [threadCost]
    omega

theorem cost_push (th : FoxThread Cb) (cbs : List (Option (Callback Cb))) :
    threadCost cost (th.push cbs) = threadCost cost th + (cbs.map (itemCost cost)).sum := by
  simp only [threadCost, FoxThread.push, List.map_append, List.sum_append]
  omega

def Pays (cost : Cb → ℕ) (s : FoxThreadPool n Cb) (i : Instr n Cb) (t : CallTurn n Cb) : Prop :=
  poolCost cost t.shared + paid (instrCost cost) t + 1 ≤ poolCost cost s + instrCost cost () i

theorem pays_only {cost : Cb → ℕ} {s' : FoxThreadPool n Cb} {next : List (Instr n Cb)}
    (hsame : poolCost cost s' = poolCost cost s)
    (hnext : (next.map (instrCost cost ())).sum + 1 ≤ instrCost cost () i) :
    Pays cost s i (.only s' next) := by
  rw [Pays, paid_only, shared_only, hsame]
  omega

section Dispatching

theorem pays_post (cbs : List Cb) : Pays cost s (.post cbs)
    (.only { s with
      m_total := s.m_total + UInt64.ofNat cbs.length
      m_callbacks := s.m_callbacks ++ cbs
      posted := s.posted ++ cbs } [.check]) := by
  simp [Pays, poolCost, instrCost]
  omega

theorem pays_broadcast {j : ℕ} (cb : Cb) (hj : j < n + 1) : Pays cost s (.broadcast j cb)
    (.only s [.push ⟨j, hj⟩ [.plain cb], .broadcast (j + 1) cb]) := by
  have hsub : n + 1 - j = n + 1 - (j + 1) + 1 := by omega
  refine pays_only rfl ?_
  change 6 + (1 + cost cb + 0) + ((n + 1 - (j + 1)) * (8 + cost cb) + 1 + 0) + 1 ≤
    (n + 1 - j) * (8 + cost cb) + 1
  rw [hsub, Nat.add_mul]
  omega

end Dispatching

section Starting

theorem pays_startFrom {j : ℕ} (hj : j < n + 1) : Pays cost s (.startFrom j)
    { shared := s.setThread ⟨j, hj⟩ { s.m_threads ⟨j, hj⟩ with m_thread := true, pooled := true }
      next := [.launch ⟨j, hj⟩]
      born := [⟨(), [.read_cb ⟨j, hj⟩]⟩]
      resumed := none } := by
  have hsame := poolCost_same cost s ⟨j, hj⟩
    (rfl : threadCost cost { s.m_threads ⟨j, hj⟩ with m_thread := true, pooled := true } = _)
  change poolCost cost (s.setThread _ _) + (3 * (n - j) + 5 + 0) + 0 + 1 ≤
    poolCost cost s + (3 * (n + 1 - j) + 3)
  rw [hsame]
  omega

theorem pays_start (v : Fin (n + 1)) : Pays cost s (.start v)
    { shared := s.setThread v { s.m_threads v with m_thread := true }
      next := [.setStart v]
      born := [⟨(), [.read_cb v]⟩]
      resumed := none } := by
  have hsame := poolCost_same cost s v
    (rfl : threadCost cost { s.m_threads v with m_thread := true } = _)
  change poolCost cost (s.setThread _ _) + 1 + 0 + 1 ≤ poolCost cost s + 2
  rw [hsame]

end Starting

section Handing

theorem pays_take {cb : Cb} {cbs : List Cb} {free : List (Fin (n + 1))} (v : Fin (n + 1))
    (hcb : s.m_callbacks = cb :: cbs) : Pays cost s .take
      (.only { s.setThread v { s.m_threads v with use_count := 1 } with
        m_freeFoxThreads := free
        m_callbacks := cbs } [.assign v cb]) := by
  have hsum := sum_threadCost cost s v { s.m_threads v with use_count := 1 }
  have hsame : threadCost cost { s.m_threads v with use_count := 1 } = threadCost cost (s.m_threads v) := rfl
  simp only [Pays, poolCost, hcb, List.map_cons, List.sum_cons, paid_only]
  change (cbs.map fun cb => 18 + cost cb).sum +
    ∑ u, threadCost cost ((s.setThread v { s.m_threads v with use_count := 1 }).m_threads u) +
      (18 + cost cb + 0) + 1 ≤
    18 + cost cb + (cbs.map fun cb => 18 + cost cb).sum + ∑ u, threadCost cost (s.m_threads u) + 1
  omega

theorem pays_assign (v : Fin (n + 1)) (cb : Cb) : Pays cost s (.assign v cb)
    (.only (s.setThread v { s.m_threads v with use_count := (s.m_threads v).use_count + 1 })
      [.push v [.wrapcb cb], .drop v, .check]) := by
  refine pays_only (poolCost_same cost s v rfl) ?_
  change 6 + (5 + cost cb + 0) + (4 + (2 + 0)) + 1 ≤ 18 + cost cb
  omega

theorem pays_drop (v : Fin (n + 1)) : Pays cost s (.drop v)
    (.only (s.setThread v { s.m_threads v with use_count := (s.m_threads v).use_count - 1 })
      (if (s.m_threads v).use_count = 1 then [.release v] else [])) := by
  refine pays_only (poolCost_same cost s v rfl) ?_
  split
  · exact le_rfl
  · change 0 + 1 ≤ 4
    omega

end Handing

section Running

theorem pays_push (v : Fin (n + 1)) (cbs : List (Callback Cb)) : Pays cost s (.push v cbs)
    (.only (s.setThread v ((s.m_threads v).push (cbs.map some))) [.send v]) := by
  have hset := poolCost_setThread cost s v ((s.m_threads v).push (cbs.map some))
  rw [cost_push, List.map_map] at hset
  change poolCost cost (s.setThread _ _) + (5 + 0) + 0 + 1 ≤
    poolCost cost s + (6 + (cbs.map (itemCost cost ∘ some)).sum)
  omega

theorem pays_send {v : Fin (n + 1)} {th : FoxThread Cb} (h : (s.m_threads v).send w = .ok th) :
    Pays cost s (.send v) (.only (s.setThread v th) []) := by
  have hset := poolCost_setThread cost s v th
  have hsend := cost_send cost h
  change poolCost cost (s.setThread _ _) + 0 + 0 + 1 ≤ poolCost cost s + 5
  omega

theorem pays_read (hcost : Priced body cost) {v : Fin (n + 1)} {th : FoxThread Cb}
    {next : List (Instr n Cb)} (h : (s.m_threads v).read_cb body v w = .ok (th, next)) :
    Pays cost s (.read_cb v) (.only (s.setThread v th) next) := by
  have hset := poolCost_setThread cost s v th
  have hread := cost_read hcost h
  rw [Pays, paid_only]
  change poolCost cost (s.setThread _ _) + _ + 1 ≤ poolCost cost s + 0
  omega

end Running

/-- Every step costs something, as long as what is assigned goes to a thread that has been started. -/
theorem exec_cost (hcost : Priced body cost) (h : exec body s k () i w = .ok t) (hi : calm i = true)
    (hm : ∀ u cb, i = .assign u cb → (s.m_threads u).m_start = true) : Pays cost s i t := by
  cases exec_effect h with
  | post cbs => exact pays_post cbs
  | roundRobin cbs =>
    have hrobin := cost_roundRobin (n := n) cost cbs s.m_cur
    refine pays_only rfl ?_
    change _ ≤ 3 + _
    omega
  | postTo id cb =>
    refine pays_only rfl ?_
    change 6 + (1 + cost cb + 0) + 0 + 1 ≤ 8 + cost cb
    omega
  | broadcast j cb hj => exact pays_broadcast cb hj
  | broadcastEnd j cb =>
    refine pays_only rfl ?_
    change 0 + 1 ≤ (n + 1 - j) * (8 + cost cb) + 1
    omega
  | startFrom j hj => exact pays_startFrom hj
  | startFromThrew j =>
    refine pays_only rfl ?_
    change 0 + 1 ≤ 3 * (n + 1 - j) + 3
    omega
  | startFromEnd j =>
    refine pays_only rfl ?_
    change 2 + 1 ≤ 3 * (n + 1 - j) + 3
    omega
  | launch v =>
    refine pays_only (poolCost_same cost s v rfl) ?_
    change 3 * (n - v) + 4 + 0 + 1 ≤ 3 * (n - v) + 5
    omega
  | free v =>
    refine pays_only rfl ?_
    change 3 * (n + 1 - (v + 1)) + 3 + 0 + 1 ≤ 3 * (n - v) + 4
    omega
  | check => exact pays_only rfl le_rfl
  | checkNot => exact pays_only rfl (Nat.le_succ 1)
  | take v cb free cbs hfree hcb => exact pays_take v hcb
  | takeNone => exact pays_only rfl le_rfl
  | assign v cb => exact pays_assign v cb
  | assignNot v cb hnot =>
    rw [hm v cb rfl] at hnot
    cases hnot
  | drop v => exact pays_drop v
  | release v => exact pays_only rfl le_rfl
  | push v cbs => exact pays_push v cbs
  | send v th hth => exact pays_send hth
  | start v => exact pays_start v
  | startThrew v => exact pays_only rfl (Nat.le_succ 1)
  | setStart v => exact pays_only (poolCost_same cost s v rfl) le_rfl
  | read_cb v th next hr => exact pays_read hcost hr
  | putBack v cb => cases hi
  | stop v => cases hi
  | stopFrom j => cases hi
  | stopFromEnd j => cases hi

def readies (u : Fin (n + 1)) : Unit → Instr n Cb → ℕ
  | _, .free t | _, .release t => if t = u then 1 else 0
  | _, _ => 0

structure Calm (f : Calls n Cb) : Prop where
  codes : ∀ j th, look f.threads j = some th → ∀ i ∈ th.code, calm i = true
  nones : ∀ u, none ∉ (f.shared.m_threads u).pushed
  started : ∀ u, (f.shared.m_threads u).m_start = false →
    f.shared.m_freeFoxThreads.count u = 0 ∧ Threads.total (readies u) f.threads = 0 ∧
      (f.shared.m_threads u).use_count = 0

theorem calm_roundRobin {cbs : List Cb} {m_cur : ℕ} (h : i ∈ roundRobin m_cur cbs) : calm i = true := by
  obtain ⟨t, cbs, rfl⟩ := mem_roundRobin h
  rfl

theorem exec_calm (hbody : ∀ cb, ∀ c ∈ body cb, c.stops = false) (h : exec body s k () i w = .ok t)
    (hi : calm i = true) (hm : ∀ u cb, i = .assign u cb → (s.m_threads u).m_start = true) :
    ∀ j ∈ t.next, calm j = true := by
  cases exec_effect h with
  | roundRobin cbs => exact fun j hj => calm_roundRobin hj
  | drop v =>
    simp only [Turn.only]
    split <;> simp [calm]
  | assignNot v cb hnot =>
    rw [hm v cb rfl] at hnot
    cases hnot
  | read_cb v th next hr =>
    intro j hj
    rcases mem_read hr hj with rfl | rfl | ⟨cb, c, hc, rfl⟩
    · rfl
    · rfl
    · exact calm_code (hbody cb c hc)
  | putBack v cb => cases hi
  | stop v => cases hi
  | stopFrom j => cases hi
  | stopFromEnd j => cases hi
  | _ => simp [Turn.only, calm]

theorem inner_readies (u : Fin (n + 1)) : Inner (readies u : Unit → Instr n Cb → ℕ) := by
  constructor <;> intros <;> rfl

/-- A thread that has not come to a null callback is still started. -/
theorem read_started {u : Fin (n + 1)} {th th' : FoxThread Cb} {next : List (Instr n Cb)} (ho : Ordered th)
    (hnone : none ∉ th.pushed) (h : th.read_cb body u w = .ok (th', next)) (hs : th'.m_start = false) :
    th.m_start = false := by
  unfold FoxThread.read_cb at h
  split at h
  · split at h <;> cases h
    exact hs
  · cases h
    exact hs
  · next hpc =>
    split at h
    · cases h
      exact hs
    · cases h
      exact hs
    · next rest hit =>
      have hgoing := ho.going (by simp [FoxThread.broke, hpc])
      rw [hit] at hgoing
      exact absurd (hgoing ▸ by simp) hnone
  · cases h
    exact hs
  · cases h

/-- A thread that is not started has nothing of the pool. -/
def Untouched (s : FoxThreadPool n Cb) (u : Fin (n + 1)) (ready : ℕ) : Prop :=
  (s.m_threads u).m_start = false →
    s.m_freeFoxThreads.count u = 0 ∧ ready = 0 ∧ (s.m_threads u).use_count = 0

section Untouched

variable {u v : Fin (n + 1)} {th : FoxThread Cb} {m ready : ℕ}

theorem untouched_setThread (hs : Untouched s u ready) (hth : v = u → th.m_start = false →
    (s.m_threads v).m_start = false ∧ th.use_count = (s.m_threads v).use_count) :
    Untouched (s.setThread v th) u ready := by
  intro hu
  by_cases hvu : v = u
  · subst hvu
    simp only [setThread_self] at hu ⊢
    obtain ⟨hold, huse⟩ := hth rfl hu
    rw [huse]
    exact hs hold
  · simp only [setThread_other s hvu] at hu ⊢
    exact hs hu

theorem untouched_append (hs : Untouched s u ((if v = u then 1 else 0) + m)) :
    Untouched { s with m_freeFoxThreads := s.m_freeFoxThreads ++ [v] } u (0 + m) := by
  intro hu
  obtain ⟨hcount, hready, huse⟩ := hs hu
  have hvu : v ≠ u := by
    intro heq
    rw [if_pos heq] at hready
    omega
  rw [if_neg hvu] at hready
  refine ⟨?_, hready, huse⟩
  simpa [List.count_append, List.count_singleton, hvu] using hcount

end Untouched

theorem exec_started (h : exec body s k () i w = .ok t) (u : Fin (n + 1)) (m : ℕ) (ho : Ordered (s.m_threads u))
    (hnone : none ∉ (s.m_threads u).pushed)
    (hm : ∀ u cb, i = .assign u cb → (s.m_threads u).m_start = true)
    (hs : Untouched s u (readies u () i + m)) : Untouched t.shared u (paid (readies u) t + m) := by
  cases exec_booked h with
  | inner _ s' next hi hnext hsame hfree =>
    intro hu
    have hold : (s.m_threads u).m_start = false := by
      by_contra hne
      have htrue := (hsame u).started (Bool.not_eq_false _ ▸ hne)
      rw [shared_only, htrue] at hu
      cases hu
    obtain ⟨hcount, hready, huse⟩ := hs hold
    rw [hi _ (inner_readies u)] at hready
    rw [paid_only, hnext _ (inner_readies u), shared_only, hfree, (hsame u).use_count_eq]
    exact ⟨hcount, hready, huse⟩
  | startFrom j v hnot => exact untouched_setThread hs fun _ hold => ⟨hold, rfl⟩
  | start v hnot => exact untouched_setThread hs fun _ hold => ⟨hold, rfl⟩
  | push v cbs => exact untouched_setThread hs fun _ hold => ⟨hold, rfl⟩
  | launch v =>
    intro hu
    by_cases hvu : v = u
    · subst hvu
      simp only [shared_only, setThread_self] at hu
      cases hu
    · simp only [shared_only, setThread_other s hvu] at hu ⊢
      simpa [readies, hvu] using hs hu
  | free v => exact untouched_append hs
  | release v => exact untouched_append hs
  | take v cb free cbs hfree hcb =>
    intro hu
    by_cases hvu : v = u
    · subst hvu
      simp only [shared_only, setThread_self] at hu
      obtain ⟨hcount, -, -⟩ := hs hu
      rw [hfree, List.count_cons_self] at hcount
      cases hcount
    · simp only [shared_only, setThread_other s hvu] at hu ⊢
      obtain ⟨hcount, hready, huse⟩ := hs hu
      rw [hfree, List.count_cons_of_ne hvu] at hcount
      exact ⟨hcount, hready, huse⟩
  | assign v cb hstart =>
    refine untouched_setThread hs fun _ hold => ?_
    change (s.m_threads v).m_start = false at hold
    rw [hstart] at hold
    cases hold
  | assignNot v cb hstart => exact hs
  | putBack v cb => exact hs
  | drop v =>
    intro hu
    by_cases hvu : v = u
    · subst hvu
      simp only [shared_only, setThread_self] at hu ⊢
      obtain ⟨hcount, hready, huse⟩ := hs hu
      rw [paid_only, if_neg (by omega)]
      exact ⟨hcount, hready, by omega⟩
    · simp only [shared_only, setThread_other s hvu] at hu ⊢
      have hzero : ((if (s.m_threads v).use_count = 1 then [(.release v : Instr n Cb)] else []).map
          (readies u ())).sum = 0 := by
        split <;> simp [readies, hvu]
      rw [paid_only, hzero]
      exact hs hu
  | read_cb v th next hr =>
    have hzero : (next.map (readies u ())).sum = 0 := sum_read (inner_readies u) rfl rfl hr
    rw [paid_only, hzero]
    refine untouched_setThread hs fun hvu hold => ?_
    subst hvu
    exact ⟨read_started ho hnone hr hold, (read_books ho hr).use_count_eq⟩

theorem exec_nones (h : exec body s k () i w = .ok t) (hi : calm i = true)
    (hs : ∀ u, none ∉ (s.m_threads u).pushed) (u : Fin (n + 1)) : none ∉ (t.shared.m_threads u).pushed := by
  have hset : ∀ (t : Fin (n + 1)) (th : FoxThread Cb), none ∉ th.pushed →
      none ∉ ((s.setThread t th).m_threads u).pushed := by
    intro t th hth
    rw [setThread_apply]
    split
    · exact hth
    · exact hs u
  cases exec_effect h with
  | push v cbs =>
    refine hset v _ fun hmem => ?_
    rcases List.mem_append.mp hmem with hmem | hmem
    · exact hs v hmem
    · obtain ⟨cb, -, heq⟩ := List.mem_map.mp hmem
      cases heq
  | read_cb v th next hr => exact hset v th (read_pushed hr ▸ hs v)
  | stop v => cases hi
  | _ =>
    rw [(exec_same h rfl u).pushed_eq]
    exact hs u

def total (cost : Cb → ℕ) (f : Calls n Cb) : ℕ :=
  poolCost cost f.shared + Threads.total (instrCost cost) f.threads

variable {f f' : Calls n Cb}

theorem Calm.init (m_advance : Bool) : Calm (init m_advance : Calls n Cb) where
  codes j th h := by cases h
  nones u := List.not_mem_nil
  started u _ := ⟨rfl, rfl, rfl⟩

theorem Calm.calls (h : Calm f) {cs : List (Call n Cb)} (hcs : ∀ c ∈ cs, c.stops = false) :
    Calm (f.start f.shared () (cs.map Call.code)) := by
  refine ⟨fun j th hj => ?_, h.nones, fun u hu => ?_⟩
  · rcases Threads.look_start_cases hj with ⟨-, rfl⟩ | hold
    · intro i hi
      obtain ⟨c, hc, rfl⟩ := List.mem_map.mp hi
      exact calm_code (hcs c hc)
    · exact h.codes j th hold
  · obtain ⟨hcount, hready, huse⟩ := h.started u hu
    refine ⟨hcount, ?_, huse⟩
    rw [Threads.total_start, (inner_readies u).code, hready]

theorem Calm.turn (hcost : Priced body cost) (hbody : ∀ cb, ∀ c ∈ body cb, c.stops = false) (h : Calm f)
    (hinv : Inv f) {w : ℕ} (hs : turn body f k w = .ok f') : Calm f' ∧ total cost f' < total cost f := by
  obtain ⟨role, i, rest, t, ⟨hk, hexec⟩, rfl⟩ := Threads.run_ran hs
  obtain rfl : role = () := rfl
  have hres := exec_resumed hexec
  have hcode : ∀ j ∈ i :: rest, calm j = true := h.codes k _ hk
  have hi := hcode i List.mem_cons_self
  have hafter : ∀ v : Unit → Instr n Cb → ℕ, Threads.total v (f.after id k () rest t).threads + v () i =
      Threads.total v f.threads + paid v t := fun v => by
    rw [Threads.total_after v hk hres, paid, Nat.add_assoc]
  -- what is assigned is held, so its thread is in use
  have hm : ∀ u cb, i = .assign u cb → (f.shared.m_threads u).m_start = true := by
    intro u cb hassign
    by_contra hne
    obtain ⟨-, -, huse⟩ := h.started u (Bool.eq_false_iff.mpr hne)
    have hcount := hinv.count u
    have hle := Threads.le_total (holds u) hk
    have hone : holds u () i = 1 := by
      rw [hassign]
      exact if_pos rfl
    omega
  refine ⟨⟨?_, exec_nones hexec hi h.nones, fun u hu => ?_⟩, ?_⟩
  · refine Threads.forall_after hk (by simp [hres]) (fun j hj => ?_) (fun u hu j _ => ?_)
      (fun m u hm' => ?_) fun j u _ _ hu => h.codes j u hu
    · rcases List.mem_append.mp hj with hj | hj
      · exact exec_calm hbody hexec hi hm j hj
      · exact hcode j (List.mem_cons_of_mem i hj)
    · cases exec_booked hexec with
      | startFrom j t hm => exact List.mem_singleton.mp hu ▸ by simp [calm]
      | start t hm => exact List.mem_singleton.mp hu ▸ by simp [calm]
      | _ => exact absurd hu List.not_mem_nil
    · rw [hres] at hm'
      cases hm'
  · obtain ⟨m, hle⟩ := Nat.exists_eq_add_of_le (Threads.le_total (readies u) hk)
    have ha := hafter (readies u)
    obtain ⟨hcount, hready, huse⟩ := exec_started hexec u m (hinv.ordered u) (h.nones u) hm
      (fun hold => hle ▸ h.started u hold) hu
    exact ⟨hcount, by omega, huse⟩
  · have hexecCost := exec_cost hcost hexec hi hm
    have ha := hafter (instrCost cost)
    rw [Pays] at hexecCost
    change poolCost cost t.shared + Threads.total (instrCost cost) (f.after id k () rest t).threads <
      poolCost cost f.shared + Threads.total (instrCost cost) f.threads
    omega

def turns (body : Cb → List (Call n Cb)) (f : Calls n Cb) (ks : List (ℕ × ℕ)) : Except FoxFault (Calls n Cb) :=
  ks.foldlM (fun f p => FoxThreadPool.turn body f p.1 p.2) f

def Move.calm : Move n Cb → Bool
  | .calls cs => cs.all fun c => !c.stops
  | .turn _ _ => true

/-- However the steps follow each other, there are at most so many of them, and where no more is possible
is reached. -/
structure Ends (body : Cb → List (Call n Cb)) (cost : Cb → ℕ) (f : Calls n Cb) : Prop where
  bounded : ∀ ks f', turns body f ks = .ok f' → ks.length ≤ total cost f
  quiet : ∃ ks f', turns body f ks = .ok f' ∧ Quiet body f'

theorem runs_end (body : Cb → List (Call n Cb)) (cost : Cb → ℕ) (hcost : Priced body cost)
    (hbody : ∀ cb, ∀ c ∈ body cb, c.stops = false) (m_advance : Bool) (moves : List (Move n Cb))
    (hmoves : ∀ m ∈ moves, m.calm = true) :
    Along (FoxThreadPool.step body) (Ends body cost) (init m_advance) moves := by
  have hturn : ∀ (f : Calls n Cb) (p : ℕ × ℕ) (f' : Calls n Cb), Inv f ∧ Calm f →
      FoxThreadPool.turn body f p.1 p.2 = .ok f' → (Inv f' ∧ Calm f') ∧ total cost f' < total cost f := by
    intro f p f' hf hs
    obtain ⟨hcalm, hlt⟩ := hf.2.turn hcost hbody hf.1 hs
    exact ⟨⟨hf.1.turn hs, hcalm⟩, hlt⟩
  have hboth : Along (FoxThreadPool.step body) (fun f => Inv f ∧ Calm f) (init m_advance) moves := by
    refine along_of_each _ (fun _ m => m.calm = true) (fun f m f' hf hm hs => ?_) moves _
      ⟨.init m_advance, .init m_advance⟩ (each_of_forall hmoves)
    cases m with
    | calls cs =>
      cases hs
      refine ⟨hf.1.calls cs, hf.2.calls fun c hc => ?_⟩
      have hall := List.all_eq_true.mp hm c hc
      exact Bool.not_eq_true' _ ▸ hall
    | turn k w => exact (hturn f (k, w) f' hf hs).1
  refine hboth.mono fun f hf => ⟨fun ks f' hks => ?_, ?_⟩
  · have hle := length_le_of_lt hturn hf hks
    omega
  · obtain ⟨ks, f', hks, hstuck⟩ := exists_stuck hturn f hf
    exact ⟨ks, f', hks, fun k w f'' => hstuck (k, w) f''⟩

/-- A callback dispatches the one with the number before, to the pool and to a thread. -/
def countdown : ℕ → List (Call 1 ℕ)
  | 0 => []
  | k + 1 => [.dispatch k, .dispatchTo k k]

def countdownCost : ℕ → ℕ
  | 0 => 0
  | k + 1 => 29 + 2 * countdownCost k

theorem runs_end_two : Along (FoxThreadPool.step countdown) (Ends countdown countdownCost)
    (init true : Calls 1 ℕ) [.calls [.start, .dispatch 7], .calls [.dispatch 8], .turn 0 0, .turn 1 0] := by
  refine runs_end countdown countdownCost (fun cb => ?_) (fun cb c hc => ?_) true _ (by decide)
  · cases cb with
    | zero => exact le_rfl
    | succ k =>
      change 3 + (18 + countdownCost k + 0) + (8 + countdownCost k + 0) ≤ 29 + 2 * countdownCost k
      omega
  · cases cb with
    | zero => exact absurd hc List.not_mem_nil
    | succ k =>
      rcases List.mem_cons.mp hc with rfl | hc
      · rfl
      · rw [List.mem_singleton.mp hc]
        rfl

end FoxThreadPool

end Sylar
