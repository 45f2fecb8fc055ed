import Sylar.Lib.Records
import Sylar.Proofs.FiberSemaphore

/-! The permits of a `WorkerGroup`. Each is in the semaphore, with a callback that has one
and has not given it back, or with the `waitAll` that collects them. A `waitAll` that has a
permit has passed every callback that came before it. -/

namespace Sylar

open Lib

open FiberSemaphore

def Job.holds : Job → Bool
  | .permitted | .queued | .working | .worked | .threw => true
  | .waiting | .finished => false

def Job.inFlight : Job → Bool
  | .permitted | .queued | .working | .worked => true
  | .waiting | .finished | .threw => false

def Collect.taken (batch : ℕ) : Collect → ℕ
  | .before i | .waiting i => i
  | .returned looped => if looped then batch else 0

def Collect.loops : Collect → Bool
  | .before _ | .waiting _ => true
  | .returned looped => looped

def GroupMove.throws {S : Type} : GroupMove S → Bool
  | .finish _ threw => threw
  | _ => false

/-- The callback has returned and given its permit back, or has thrown. -/
def Job.ended : Job → Bool
  | .finished | .threw => true
  | .waiting | .permitted | .queued | .working | .worked => false

def Job.over : Job → Bool
  | .worked | .finished | .threw => true
  | .waiting | .permitted | .queued | .working => false

namespace GroupCall

def holds (batch : ℕ) : GroupCall → ℕ
  | .schedule job => job.holds.toNat
  | .waitAll stage => stage.taken batch

def collected (batch : ℕ) : GroupCall → ℕ
  | .schedule _ => 0
  | .waitAll stage => stage.taken batch

def inFlight : GroupCall → Bool
  | .schedule job => job.inFlight
  | .waitAll _ => false

def loops : GroupCall → Bool
  | .schedule _ => false
  | .waitAll stage => stage.loops

def waits : GroupCall → Bool
  | .schedule .waiting | .waitAll (.waiting _) => true
  | .schedule _ | .waitAll _ => false

end GroupCall

/-- Who waits, and that nobody waits for a permit who came before a `waitAll` that has one. -/
structure Line (batch : ℕ) (at_ : ℕ → Option GroupCall) (waiters : List ℕ) : Prop where
  mem_iff : ∀ d, d ∈ waiters ↔ ∃ call, at_ d = some call ∧ call.waits
  nodup : waiters.Nodup
  in_order : waiters.Pairwise fun x y => (∃ job, at_ y = some (.schedule job)) → x < y
  passed : ∀ a stage, at_ a = some (.waitAll stage) → 0 < stage.taken batch →
    ∀ c < a, at_ c ≠ some (.schedule .waiting)

namespace Line

variable {batch : ℕ} {at_ : ℕ → Option GroupCall} {waiters : List ℕ} {c : ℕ} {call : GroupCall}

theorem start : Line batch (fun _ => none) [] where
  mem_iff := by simp
  nodup := List.nodup_nil
  in_order := List.Pairwise.nil
  passed := by simp

theorem not_mem (h : Line batch at_ waiters) (hc : ∀ old, at_ c = some old → ¬ old.waits) :
    c ∉ waiters := by
  intro hmem
  obtain ⟨old, hold, hwaits⟩ := (h.mem_iff c).mp hmem
  exact hc old hold hwaits

theorem none_waiting (h : Line batch at_ []) (d : ℕ) : at_ d ≠ some (.schedule .waiting) := by
  intro hd
  exact absurd ((h.mem_iff d).mpr ⟨_, hd, rfl⟩) (by simp)

/-- Pairs in the line keep their order when something else changes. -/
theorem in_order_update (h : waiters.Pairwise fun x y => (∃ job, at_ y = some (.schedule job)) → x < y)
    (hc : c ∉ waiters) (new : Option GroupCall) :
    waiters.Pairwise fun x y =>
      (∃ job, Function.update at_ c new y = some (.schedule job)) → x < y := by
  apply h.imp_of_mem
  intro x y _ hy hxy
  rw [Function.update_of_ne (ne_of_mem_of_not_mem hy hc)]
  exact hxy

/-- The ones that a `waitAll` with a permit has passed, when a call changes. -/
theorem passed_update (h : Line batch at_ waiters)
    (hown : ∀ stage, call = .waitAll stage → 0 < stage.taken batch →
      ∀ d < c, at_ d ≠ some (.schedule .waiting))
    (hjob : call = .schedule .waiting → ∀ a > c, at_ a = none) :
    ∀ a stage, Function.update at_ c (some call) a = some (.waitAll stage) →
      0 < stage.taken batch →
      ∀ d < a, Function.update at_ c (some call) d ≠ some (.schedule .waiting) := by
  intro a stage ha htaken d hda
  by_cases hac : a = c
  · subst hac
    rw [Function.update_self] at ha
    rw [Function.update_of_ne hda.ne]
    exact hown stage (Option.some.inj ha) htaken d hda
  · rw [Function.update_of_ne hac] at ha
    by_cases hdc : d = c
    · subst hdc
      rw [Function.update_self]
      intro hcall
      have hnone := hjob (Option.some.inj hcall) a hda
      rw [ha] at hnone
      cases hnone
    · rw [Function.update_of_ne hdc]
      exact h.passed a stage ha htaken d hda

theorem update (h : Line batch at_ waiters) (hold : ∀ old, at_ c = some old → ¬ old.waits)
    (hcall : ¬ call.waits)
    (hown : ∀ stage, call = .waitAll stage → 0 < stage.taken batch →
      ∀ d < c, at_ d ≠ some (.schedule .waiting)) :
    Line batch (Function.update at_ c (some call)) waiters where
  mem_iff := by
    intro d
    by_cases hd : d = c
    · subst hd
      rw [Function.update_self]
      exact iff_of_false (h.not_mem hold) (by simpa using hcall)
    · rw [Function.update_of_ne hd]
      exact h.mem_iff d
  nodup := h.nodup
  in_order := in_order_update h.in_order (h.not_mem hold) _
  passed := by
    apply h.passed_update hown
    rintro rfl
    exact absurd rfl hcall

/-- A call that did not wait goes to the end of the line. A callback does so when it comes. -/
theorem push (h : Line batch at_ waiters) (hold : ∀ old, at_ c = some old → ¬ old.waits)
    (hcall : call.waits)
    (hown : ∀ stage, call = .waitAll stage → 0 < stage.taken batch →
      ∀ d < c, at_ d ≠ some (.schedule .waiting))
    (hjob : ∀ job, call = .schedule job → ∀ a ≥ c, at_ a = none) :
    Line batch (Function.update at_ c (some call)) (waiters ++ [c]) where
  mem_iff := by
    intro d
    rw [List.mem_append, List.mem_singleton]
    by_cases hd : d = c
    · subst hd
      rw [Function.update_self]
      exact iff_of_true (.inr rfl) ⟨call, rfl, hcall⟩
    · rw [Function.update_of_ne hd, or_iff_left hd]
      exact h.mem_iff d
  nodup := by
    rw [List.nodup_append]
    refine ⟨h.nodup, List.nodup_singleton c, ?_⟩
    intro x hx y hy
    rw [List.mem_singleton.mp hy]
    exact ne_of_mem_of_not_mem hx (h.not_mem hold)
  in_order := by
    rw [List.pairwise_append]
    refine ⟨in_order_update h.in_order (h.not_mem hold) _, List.pairwise_singleton _ c, ?_⟩
    intro x hx y hy
    rw [List.mem_singleton.mp hy, Function.update_self]
    rintro ⟨job, hjob'⟩
    by_contra hle
    obtain ⟨old, hold', -⟩ := (h.mem_iff x).mp hx
    have hnone := hjob job (Option.some.inj hjob') x (not_lt.mp hle)
    rw [hold'] at hnone
    cases hnone
  passed := h.passed_update hown fun hc a ha => hjob .waiting hc a ha.le

theorem pop {rest : List ℕ} (h : Line batch at_ (c :: rest)) (hcall : ¬ call.waits) :
    Line batch (Function.update at_ c (some call)) rest where
  mem_iff := by
    have hc : c ∉ rest := (List.nodup_cons.mp h.nodup).1
    intro d
    by_cases hd : d = c
    · subst hd
      rw [Function.update_self]
      exact iff_of_false hc (by simpa using hcall)
    · rw [Function.update_of_ne hd, ← h.mem_iff d]
      simp [hd]
  nodup := (List.nodup_cons.mp h.nodup).2
  in_order := in_order_update (List.pairwise_cons.mp h.in_order).2 (List.nodup_cons.mp h.nodup).1 _
  passed := by
    apply h.passed_update
    · intro stage hstage _ d hd hwaiting
      have hmem : d ∈ c :: rest := (h.mem_iff d).mpr ⟨_, hwaiting, rfl⟩
      rcases List.mem_cons.mp hmem with heq | hmem
      · exact absurd heq hd.ne
      · exact absurd ((List.pairwise_cons.mp h.in_order).1 d hmem ⟨_, hwaiting⟩) (by omega)
    · rintro rfl
      exact absurd rfl hcall

end Line

namespace WorkerGroup

variable {S : Type} {g g' : WorkerGroup S}

/-- What a step does. A callback that has its permit goes on, and only `finish` makes it
throw. -/
inductive Effect (g : WorkerGroup S) : GroupMove S → WorkerGroup S → Prop
  | permitted (this : Option S) (hpos : 0 < g.m_sem.m_concurrency) :
      Effect g (.schedule this) { g with
        m_sem := { g.m_sem with m_concurrency := g.m_sem.m_concurrency - 1 }
        calls := g.calls ++ [.schedule .permitted] }
  | blocked (scheduler : S) (hzero : g.m_sem.m_concurrency = 0) :
      Effect g (.schedule (some scheduler)) { g with
        m_sem := { g.m_sem with
          m_waiters := g.m_sem.m_waiters ++ [(scheduler, g.calls.length)] }
        calls := g.calls ++ [.schedule .waiting] }
  | advance (m : GroupMove S) (c : ℕ) (job next : Job) (hc : look g.calls c = some (.schedule job))
      (hjob : job.holds) (hover : job.over = false) (hnext : next.holds)
      (hthrew : next = .threw ↔ m.throws) : Effect g m (g.setCall c (.schedule next))
  | handed (c : ℕ) (next : S × ℕ) (rest : List (S × ℕ))
      (hc : look g.calls c = some (.schedule .worked)) (hw : g.m_sem.m_waiters = next :: rest) :
      Effect g (.notify c) { g with
        m_sem := { g.m_sem with m_waiters := rest }
        calls := (g.calls.set c (.schedule .finished)).modify next.2 GroupCall.resume }
  | counted (c : ℕ) (hc : look g.calls c = some (.schedule .worked))
      (hw : g.m_sem.m_waiters = []) :
      Effect g (.notify c) { g with
        m_sem := { g.m_sem with m_concurrency := incr g.m_sem.m_concurrency }
        calls := g.calls.set c (.schedule .finished) }
  | skipped (h : g.m_finish = true) :
      Effect g .waitAll { g with calls := g.calls ++ [.waitAll (.returned false)] }
  | began (h : g.m_finish = false) : Effect g .waitAll { g with
      m_finish := true
      calls := g.calls ++ [.waitAll (.before 0)] }
  | collected (c i : ℕ) (this : Option S) (hc : look g.calls c = some (.waitAll (.before i)))
      (hi : i < g.m_batchSize.toNat) (hpos : 0 < g.m_sem.m_concurrency) :
      Effect g (.collect c this) { g with
        m_sem := { g.m_sem with m_concurrency := g.m_sem.m_concurrency - 1 }
        calls := g.calls.set c (.waitAll (.before (i + 1))) }
  | lined (c i : ℕ) (scheduler : S) (hc : look g.calls c = some (.waitAll (.before i)))
      (hi : i < g.m_batchSize.toNat) (hzero : g.m_sem.m_concurrency = 0) :
      Effect g (.collect c (some scheduler)) { g with
        m_sem := { g.m_sem with m_waiters := g.m_sem.m_waiters ++ [(scheduler, c)] }
        calls := g.calls.set c (.waitAll (.waiting i)) }
  | returned (c i : ℕ) (this : Option S) (hc : look g.calls c = some (.waitAll (.before i)))
      (hi : g.m_batchSize.toNat ≤ i) :
      Effect g (.collect c this) (g.setCall c (.waitAll (.returned true)))

theorem advance_effect {m : GroupMove S} {c : ℕ} {job next : Job}
    (h : g.advance c job next = .ok g') (hjob : job.holds) (hover : job.over = false)
    (hnext : next.holds) (hthrew : next = .threw ↔ m.throws) : Effect g m g' := by
  unfold WorkerGroup.advance at h
  split at h
  · next hc =>
    cases h
    exact .advance m c job next hc hjob hover hnext hthrew
  · cases h

theorem step_effect {m : GroupMove S} (h : g.step m = .ok g') : Effect g m g' := by
  cases m with
  | schedule this =>
    change g.schedule this = .ok g' at h
    unfold schedule at h
    cases hw : g.m_sem.wait this g.calls.length with
    | error fault =>
      rw [hw] at h
      cases h
    | ok r =>
      rw [hw] at h
      cases wait_waited hw with
      | granted hpos =>
        cases h
        exact .permitted this hpos
      | suspended scheduler hthis hzero =>
        subst hthis
        cases h
        exact .blocked scheduler hzero
  | hand c => exact advance_effect h rfl rfl rfl (by simp [GroupMove.throws])
  | start c => exact advance_effect h rfl rfl rfl (by simp [GroupMove.throws])
  | finish c threw =>
    cases threw with
    | false => exact advance_effect h rfl rfl rfl (by simp [GroupMove.throws])
    | true => exact advance_effect h rfl rfl rfl (by simp [GroupMove.throws])
  | notify c =>
    change g.notify c = .ok g' at h
    unfold WorkerGroup.notify at h
    split at h
    · next hc =>
      have hn := notify_notified g.m_sem
      cases h
      generalize g.m_sem.notify = r at hn ⊢
      cases hn with
      | handed next rest hw => exact .handed c next rest hc hw
      | counted hw => exact .counted c hc hw
    · cases h
  | waitAll =>
    cases h
    unfold waitAll
    split
    · next hfinish => exact .skipped hfinish
    · next hfinish => exact .began (by simpa using hfinish)
  | collect c this =>
    change g.collect c this = .ok g' at h
    unfold collect at h
    split at h
    · next i hc =>
      split at h
      · next hi =>
        cases hw : g.m_sem.wait this c with
        | error fault =>
          rw [hw] at h
          cases h
        | ok r =>
          rw [hw] at h
          cases wait_waited hw with
          | granted hpos =>
            cases h
            exact .collected c i this hc hi hpos
          | suspended scheduler hthis hzero =>
            subst hthis
            cases h
            exact .lined c i scheduler hc hi hzero
      · next hi =>
        cases h
        exact .returned c i this hc (not_lt.mp hi)
    · cases h

/-- At most one `waitAll` runs its loop, and none before `m_finish` is set. One that waits
has further permits to take. -/
structure OneLoops (batch : ℕ) (m_finish : Bool) (at_ : ℕ → Option GroupCall) : Prop where
  one : ∀ a b x y, at_ a = some x → at_ b = some y → x.loops → y.loops → a = b
  none_before : m_finish = false → ∀ a x, at_ a = some x → ¬ x.loops
  turns : ∀ a i, at_ a = some (.waitAll (.waiting i)) → i < batch

section

variable {at_ : ℕ → Option GroupCall} {batch : ℕ} {m_finish : Bool} {c : ℕ} {call : GroupCall}

theorem OneLoops.turns_update (h : OneLoops batch m_finish at_)
    (hturn : ∀ i, call = .waitAll (.waiting i) → i < batch) (a i : ℕ)
    (ha : Function.update at_ c (some call) a = some (.waitAll (.waiting i))) : i < batch := by
  by_cases hac : a = c
  · subst hac
    rw [Function.update_self] at ha
    exact hturn i (Option.some.inj ha)
  · rw [Function.update_of_ne hac] at ha
    exact h.turns a i ha

theorem OneLoops.update (h : OneLoops batch m_finish at_)
    (hcall : call.loops → ∃ old, at_ c = some old ∧ old.loops)
    (hturn : ∀ i, call = .waitAll (.waiting i) → i < batch) :
    OneLoops batch m_finish (Function.update at_ c (some call)) := by
  have hback : ∀ a x, Function.update at_ c (some call) a = some x → x.loops →
      ∃ old, at_ a = some old ∧ old.loops := by
    intro a x ha hx
    by_cases hac : a = c
    · subst hac
      rw [Function.update_self] at ha
      exact hcall (Option.some.inj ha ▸ hx)
    · rw [Function.update_of_ne hac] at ha
      exact ⟨x, ha, hx⟩
  refine ⟨?_, ?_, h.turns_update hturn⟩
  · intro a b x y ha hb hx hy
    obtain ⟨x', ha', hx'⟩ := hback a x ha hx
    obtain ⟨y', hb', hy'⟩ := hback b y hb hy
    exact h.one a b x' y' ha' hb' hx' hy'
  · intro hfinish a x ha hx
    obtain ⟨x', ha', hx'⟩ := hback a x ha hx
    exact h.none_before hfinish a x' ha' hx'

theorem OneLoops.begin (h : OneLoops batch false at_)
    (hturn : ∀ i, call = .waitAll (.waiting i) → i < batch) :
    OneLoops batch true (Function.update at_ c (some call)) := by
  have honly : ∀ a x, Function.update at_ c (some call) a = some x → x.loops → a = c := by
    intro a x ha hx
    by_contra hac
    rw [Function.update_of_ne hac] at ha
    exact h.none_before rfl a x ha hx
  refine ⟨?_, ?_, h.turns_update hturn⟩
  · intro a b x y ha hb hx hy
    rw [honly a x ha hx, honly b y hb hy]
  · intro hfinish
    cases hfinish

end

structure Inv (g : WorkerGroup S) : Prop where
  idle : g.m_sem.Idle
  permits : g.m_sem.m_concurrency + (g.calls.map (GroupCall.holds g.m_batchSize.toNat)).sum =
    g.m_batchSize.toNat
  line : Line g.m_batchSize.toNat (look g.calls) (g.m_sem.m_waiters.map Prod.snd)
  loops : OneLoops g.m_batchSize.toNat g.m_finish (look g.calls)

theorem inv_new (batch : UInt32) : Inv (new batch : WorkerGroup S) where
  idle := fun _ => rfl
  permits := by simp [new, FiberSemaphore.new]
  line := Line.start
  loops := ⟨by simp [new, look], by simp [new, look], by simp [new, look]⟩

theorem Inv.holds_le (h : Inv g) {c : ℕ} {call : GroupCall} (hc : look g.calls c = some call) :
    call.holds g.m_batchSize.toNat ≤ g.m_batchSize.toNat := by
  have hle := le_sum_map (GroupCall.holds g.m_batchSize.toNat) hc
  have hpermits := h.permits
  omega

theorem Inv.line_append (h : Inv g) {call : GroupCall} (hcall : ¬ call.waits)
    (htaken : ∀ stage, call = .waitAll stage → stage.taken g.m_batchSize.toNat = 0) :
    Line g.m_batchSize.toNat (look (g.calls ++ [call])) (g.m_sem.m_waiters.map Prod.snd) := by
  rw [look_append]
  apply h.line.update
  · intro old hold
    exact absurd (lt_length_of_look hold) (lt_irrefl _)
  · exact hcall
  · intro stage hstage hpos
    exact absurd hpos (by simp [htaken stage hstage])

theorem not_waits_of_holds {job : Job} (h : job.holds) : ¬ (GroupCall.schedule job).waits := by
  cases job <;> simp_all [Job.holds, GroupCall.waits]

theorem inv_advance (h : Inv g) {c : ℕ} {job next : Job}
    (hc : look g.calls c = some (.schedule job)) (hjob : job.holds) (hnext : next.holds) :
    Inv (g.setCall c (.schedule next)) where
  idle := h.idle
  permits := by
    have hsum := sum_map_set (GroupCall.holds g.m_batchSize.toNat) hc (.schedule next)
    simp only [GroupCall.holds, hjob, hnext] at hsum
    have hpermits := h.permits
    simp only [setCall]
    omega
  line := by
    simp only [setCall]
    rw [look_set hc]
    apply h.line.update
    · intro old hold
      rw [hc] at hold
      cases hold
      exact not_waits_of_holds hjob
    · exact not_waits_of_holds hnext
    · intro stage hstage
      cases hstage
  loops := by
    simp only [setCall]
    rw [look_set hc]
    exact h.loops.update (by simp [GroupCall.loops]) (by simp)

theorem Inv.finished (h : Inv g) {c : ℕ} (hc : look g.calls c = some (.schedule .worked)) :
    g.m_sem.m_concurrency +
        ((g.calls.set c (.schedule .finished)).map (GroupCall.holds g.m_batchSize.toNat)).sum + 1 =
      g.m_batchSize.toNat ∧
    Line g.m_batchSize.toNat (look (g.calls.set c (.schedule .finished)))
      (g.m_sem.m_waiters.map Prod.snd) ∧
    OneLoops g.m_batchSize.toNat g.m_finish (look (g.calls.set c (.schedule .finished))) := by
  refine ⟨?_, ?_, ?_⟩
  · have hsum := sum_map_set (GroupCall.holds g.m_batchSize.toNat) hc (.schedule .finished)
    simp only [GroupCall.holds, Job.holds, Bool.toNat_true, Bool.toNat_false] at hsum
    have hpermits := h.permits
    omega
  · rw [look_set hc]
    apply h.line.update
    · intro old hold
      rw [hc] at hold
      cases hold
      decide
    · decide
    · intro stage hstage
      cases hstage
  · rw [look_set hc]
    exact h.loops.update (by simp [GroupCall.loops]) (by simp)

theorem resume_spec {call : GroupCall} (h : call.waits) (batch : ℕ) :
    call.resume.holds batch = call.holds batch + 1 ∧ ¬ call.resume.waits ∧
      call.resume.loops = call.loops := by
  unfold GroupCall.waits at h
  split at h
  · exact ⟨rfl, by decide, rfl⟩
  · exact ⟨rfl, by simp [GroupCall.resume, GroupCall.waits], rfl⟩
  · cases h
  · cases h

theorem inv_handed (h : Inv g) {c : ℕ} {next : S × ℕ} {rest : List (S × ℕ)}
    (hc : look g.calls c = some (.schedule .worked)) (hw : g.m_sem.m_waiters = next :: rest) :
    Inv { g with
      m_sem := { g.m_sem with m_waiters := rest }
      calls := (g.calls.set c (.schedule .finished)).modify next.2 GroupCall.resume } := by
  obtain ⟨hpermits, hline, hloops⟩ := h.finished hc
  rw [hw, List.map_cons] at hline
  obtain ⟨call, hcall, hwaits⟩ := (hline.mem_iff next.2).mp List.mem_cons_self
  obtain ⟨hholds, hnot, hloop⟩ := resume_spec hwaits g.m_batchSize.toNat
  rw [modify_eq_set GroupCall.resume hcall]
  refine ⟨?_, ?_, ?_, ?_⟩
  · intro hpos
    have hnone := h.idle hpos
    rw [hw] at hnone
    cases hnone
  · have hsum := sum_map_set (GroupCall.holds g.m_batchSize.toNat) hcall call.resume
    dsimp only
    omega
  · rw [look_set hcall]
    exact hline.pop hnot
  · rw [look_set hcall]
    refine hloops.update (fun hres => ⟨call, hcall, hloop ▸ hres⟩) fun i hi => ?_
    exact absurd hnot (by simp [hi, GroupCall.waits])

theorem batch_lt (batch : UInt32) : batch.toNat + 1 < 2 ^ 64 := by
  have hlt := batch.toNat_lt
  omega

theorem inv_counted (h : Inv g) {c : ℕ} (hc : look g.calls c = some (.schedule .worked))
    (hw : g.m_sem.m_waiters = []) :
    Inv { g with
      m_sem := { g.m_sem with m_concurrency := incr g.m_sem.m_concurrency }
      calls := g.calls.set c (.schedule .finished) } := by
  obtain ⟨hpermits, hline, hloops⟩ := h.finished hc
  refine ⟨fun _ => hw, ?_, hline, hloops⟩
  have hincr : incr g.m_sem.m_concurrency = g.m_sem.m_concurrency + 1 := by
    have hlt := batch_lt g.m_batchSize
    apply Nat.mod_eq_of_lt
    omega
  dsimp only
  omega

/-- A turn of the loop that does not wait, or the end of the loop. -/
theorem inv_collect (h : Inv g) {c i : ℕ} {stage : Collect} {concurrency : ℕ}
    (hc : look g.calls c = some (.waitAll (.before i))) (hstage : ¬ (GroupCall.waitAll stage).waits)
    (hpos : 0 < concurrency → 0 < g.m_sem.m_concurrency)
    (hpermits : concurrency + stage.taken g.m_batchSize.toNat = g.m_sem.m_concurrency + i)
    (hpassed : 0 < i ∨ g.m_sem.m_waiters = [] ∨ stage.taken g.m_batchSize.toNat = 0) :
    Inv { g with
      m_sem := { g.m_sem with m_concurrency := concurrency }
      calls := g.calls.set c (.waitAll stage) } where
  idle := fun hconc => h.idle (hpos hconc)
  permits := by
    have hsum : _ + i = _ + stage.taken g.m_batchSize.toNat :=
      sum_map_set (GroupCall.holds g.m_batchSize.toNat) hc (.waitAll stage)
    have htotal := h.permits
    dsimp only
    omega
  line := by
    rw [look_set hc]
    apply h.line.update
    · intro old hold
      rw [hc] at hold
      cases hold
      simp [GroupCall.waits]
    · exact hstage
    · intro stage' hstage' htaken
      cases hstage'
      rcases hpassed with hi | hnone | hzero
      · exact h.line.passed c _ hc hi
      · have hline := h.line
        rw [hnone] at hline
        exact fun d _ => hline.none_waiting d
      · exact absurd htaken (by omega)
  loops := by
    rw [look_set hc]
    refine h.loops.update (fun _ => ⟨_, hc, rfl⟩) fun j hj => ?_
    exact absurd hstage (by simp [hj, GroupCall.waits])

theorem inv_append (h : Inv g) {call : GroupCall} {concurrency : ℕ} {m_finish : Bool}
    (hcall : ¬ call.waits)
    (htaken : ∀ stage, call = .waitAll stage → stage.taken g.m_batchSize.toNat = 0)
    (hpos : 0 < concurrency → 0 < g.m_sem.m_concurrency)
    (hpermits : concurrency + call.holds g.m_batchSize.toNat = g.m_sem.m_concurrency)
    (hloops : OneLoops g.m_batchSize.toNat m_finish
      (Function.update (look g.calls) g.calls.length (some call))) :
    Inv { g with
      m_sem := { g.m_sem with m_concurrency := concurrency }
      m_finish := m_finish
      calls := g.calls ++ [call] } where
  idle := fun hconc => h.idle (hpos hconc)
  permits := by
    have htotal := h.permits
    rw [sum_map_append]
    dsimp only
    omega
  line := h.line_append hcall htaken
  loops := by
    rw [look_append]
    exact hloops

theorem inv_effect {m : GroupMove S} (h : Inv g) (he : Effect g m g') : Inv g' := by
  have hpermits := h.permits
  cases he with
  | permitted this hpos =>
    refine inv_append h (by decide) (by simp) (fun _ => hpos) ?_
      (h.loops.update (by simp [GroupCall.loops]) (by simp))
    simp only [GroupCall.holds, Job.holds, Bool.toNat_true]
    omega
  | blocked scheduler hzero =>
    refine ⟨fun hpos => absurd hpos (by simp [hzero]), ?_, ?_, ?_⟩
    · rw [sum_map_append]
      simpa [GroupCall.holds, Job.holds] using hpermits
    · rw [look_append, List.map_append]
      apply h.line.push
      · intro old hold
        exact absurd (lt_length_of_look hold) (lt_irrefl _)
      · rfl
      · intro stage hstage
        cases hstage
      · intro job _ a ha
        exact look_length_le ha
    · rw [look_append]
      exact h.loops.update (by simp [GroupCall.loops]) (by simp)
  | advance m c job next hc hjob hover hnext hthrew => exact inv_advance h hc hjob hnext
  | handed c next rest hc hw => exact inv_handed h hc hw
  | counted c hc hw => exact inv_counted h hc hw
  | skipped hfinish =>
    exact inv_append h (by decide) (by simp [Collect.taken]) id
      (by simp [GroupCall.holds, Collect.taken])
      (h.loops.update (by simp [GroupCall.loops, Collect.loops]) (by simp))
  | began hfinish =>
    exact inv_append h (by decide) (by simp [Collect.taken]) id
      (by simp [GroupCall.holds, Collect.taken]) (OneLoops.begin (hfinish ▸ h.loops) (by simp))
  | collected c i this hc hi hpos =>
    refine inv_collect h hc (by simp [GroupCall.waits]) (fun _ => hpos) ?_ (.inr (.inl (h.idle hpos)))
    simp only [Collect.taken]
    omega
  | lined c i scheduler hc hi hzero =>
    refine ⟨fun hpos => absurd hpos (by simp [hzero]), ?_, ?_, ?_⟩
    · have hsum : _ + i = _ + i :=
        sum_map_set (GroupCall.holds g.m_batchSize.toNat) hc (.waitAll (.waiting i))
      dsimp only
      omega
    · rw [look_set hc, List.map_append]
      apply h.line.push
      · intro old hold
        rw [hc] at hold
        cases hold
        simp [GroupCall.waits]
      · rfl
      · intro stage hstage htaken
        cases hstage
        exact h.line.passed c _ hc htaken
      · intro job hjob
        cases hjob
    · rw [look_set hc]
      refine h.loops.update (fun _ => ⟨_, hc, rfl⟩) fun j hj => ?_
      cases hj
      exact hi
  | returned c i this hc hi =>
    have hle : i ≤ g.m_batchSize.toNat := h.holds_le hc
    have heq : i = g.m_batchSize.toNat := le_antisymm hle hi
    refine inv_collect h hc (by simp [GroupCall.waits]) id ?_ ?_
    · simp [Collect.taken, heq]
    · rcases Nat.eq_zero_or_pos i with hzero | hpos
      · exact .inr (.inr (by simp [Collect.taken, ← heq, hzero]))
      · exact .inl hpos

theorem inv_along (batch : UInt32) (ms : List (GroupMove S)) : Along step Inv (new batch) ms := by
  apply along_of_each Inv (fun _ _ => True)
  · intro g m g' h _ hs
    exact inv_effect h (step_effect hs)
  · exact inv_new batch
  · exact each_true ms (new batch)

end WorkerGroup

end Sylar
