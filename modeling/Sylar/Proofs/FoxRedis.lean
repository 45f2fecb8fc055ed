import Sylar.Spec.FoxRedis
import Sylar.Lib.Partial

/-! Every command of a `FoxRedis` comes to one end. Its fiber is in the hands of the thread, of a
`Ctx` that has not timed out, or of its scheduler, and of one of them only; so it is scheduled
once, no callback goes back to an `FCtx` whose call has returned, and a reply that comes too late
is for nobody. -/

namespace Sylar

open Lib

namespace FoxRedis

variable {F R : Type} [DecidableEq F] {is_error : R → Bool} {s s' : FoxRedis F R}

inductive Phase where
  | sent
  | waits (c : ℕ)
  | ready

def Waits (s : FoxRedis F R) (c : ℕ) (f : F) : Prop :=
  s.leaving ≠ some c ∧ ∃ ctx, Assoc.find s.ctxs c = some ctx ∧ ctx.fctx = f ∧ ctx.timeout = false

def fiberOf : Dispatched F → Option F
  | .pcmd f => some f
  | .pinit => none

def sent (s : FoxRedis F R) : List F := s.dispatched.filterMap fiberOf

/-- The fiber `f` is where `p` says, and nowhere else. -/
structure At (s : FoxRedis F R) (f : F) (p : Option Phase) : Prop where
  gone : Assoc.find s.fctxs f = none ↔ p = none
  sent : f ∈ s.sent ↔ p = some .sent
  waits : ∀ c, Waits s c f ↔ p = some (.waits c)
  ready : f ∈ s.scheduled ↔ p = some .ready
  fiber : ∀ fctx, Assoc.find s.fctxs f = some fctx → (fctx.fiber = true ↔ p ≠ some .ready)

/-- Everyone is somewhere, and in a queue once. -/
structure Placed (s : FoxRedis F R) : Prop where
  somewhere : ∀ f, ∃ p, At s f p
  sent_once : s.sent.Nodup
  ready_once : s.scheduled.Nodup

section

variable {f : F} {p : Option Phase} {fctx : FCtx R}

theorem At.same (h : At s f p) (hfind : Assoc.find s'.fctxs f = Assoc.find s.fctxs f)
    (hsent : f ∈ s'.sent ↔ f ∈ s.sent) (hwaits : ∀ c, Waits s' c f ↔ Waits s c f)
    (hready : f ∈ s'.scheduled ↔ f ∈ s.scheduled) : At s' f p where
  gone := hfind ▸ h.gone
  sent := hsent.trans h.sent
  waits c := (hwaits c).trans (h.waits c)
  ready := hready.trans h.ready
  fiber := hfind ▸ h.fiber

theorem At.of_sent (fctx : FCtx R) (hf : Assoc.find s.fctxs f = some fctx) (hfiber : fctx.fiber = true)
    (hsent : f ∈ s.sent) (hwaits : ∀ c, ¬ Waits s c f) (hready : f ∉ s.scheduled) :
    At s f (some .sent) where
  gone := by simp [hf]
  sent := by simp [hsent]
  waits c := by simp [hwaits c]
  ready := by simp [hready]
  fiber fctx' hf' := by
    cases hf.symm.trans hf'
    simp [hfiber]

theorem At.of_waits {c : ℕ} (hf : Assoc.find s.fctxs f = some fctx) (hfiber : fctx.fiber = true)
    (hsent : f ∉ s.sent) (hwaits : ∀ c', Waits s c' f ↔ c = c') (hready : f ∉ s.scheduled) :
    At s f (some (.waits c)) where
  gone := by simp [hf]
  sent := by simp [hsent]
  waits c' := by simp [hwaits c']
  ready := by simp [hready]
  fiber fctx' hf' := by
    cases hf.symm.trans hf'
    simp [hfiber]

theorem At.of_ready (fctx : FCtx R) (hf : Assoc.find s.fctxs f = some fctx) (hfiber : fctx.fiber = false)
    (hsent : f ∉ s.sent) (hwaits : ∀ c, ¬ Waits s c f) (hready : f ∈ s.scheduled) :
    At s f (some .ready) where
  gone := by simp [hf]
  sent := by simp [hsent]
  waits c := by simp [hwaits c]
  ready := by simp [hready]
  fiber fctx' hf' := by
    cases hf.symm.trans hf'
    simp [hfiber]

theorem At.of_gone (hf : Assoc.find s.fctxs f = none) (hsent : f ∉ s.sent) (hwaits : ∀ c, ¬ Waits s c f)
    (hready : f ∉ s.scheduled) : At s f none where
  gone := by simp [hf]
  sent := by simp [hsent]
  waits c := by simp [hwaits c]
  ready := by simp [hready]
  fiber fctx' hf' := by simp [hf] at hf'

theorem At.held {q : Phase} (h : At s f (some q)) (hq : q ≠ .ready) :
    ∃ fctx, Assoc.find s.fctxs f = some fctx ∧ fctx.fiber = true := by
  obtain ⟨fctx, hf⟩ := Option.ne_none_iff_exists'.mp fun hnone => by simpa using h.gone.mp hnone
  exact ⟨fctx, hf, (h.fiber fctx hf).mpr fun hready => hq (Option.some.inj hready)⟩

theorem schedule_eq (hf : Assoc.find s.fctxs f = some fctx) (hfiber : fctx.fiber = true) :
    schedule s f = .ok { s with
      fctxs := Assoc.set s.fctxs f { fctx with fiber := false }, scheduled := s.scheduled ++ [f] } := by
  unfold schedule
  rw [hf]
  exact if_pos hfiber

end

theorem Placed.to_ready (h : Placed s) {f : F} {q : Phase} (hat : At s f (some q)) (hq : q ≠ .ready)
    (fctx : FCtx R) (hfiber : fctx.fiber = false) (hfctxs : s'.fctxs = Assoc.set s.fctxs f fctx)
    (hscheduled : s'.scheduled = s.scheduled ++ [f]) (honce : s'.sent.Nodup)
    (hsent : ∀ g, g ∈ s'.sent ↔ g ∈ s.sent ∧ g ≠ f)
    (hwaits : ∀ c g, Waits s' c g ↔ Waits s c g ∧ g ≠ f) : Placed s' := by
  have hnot : f ∉ s.scheduled := fun hmem => hq (Option.some.inj (hat.ready.mp hmem))
  refine ⟨fun g => ?_, honce, ?_⟩
  · by_cases hg : g = f
    · subst hg
      refine ⟨some .ready, .of_ready fctx ?_ hfiber (fun hmem => ?_) (fun c hc => ?_) ?_⟩
      · rw [hfctxs, Assoc.find_set, if_pos rfl]
      · exact ((hsent g).mp hmem).2 rfl
      · exact ((hwaits c g).mp hc).2 rfl
      · rw [hscheduled]
        exact List.mem_append_right _ (List.mem_singleton_self g)
    · obtain ⟨p, hp⟩ := h.somewhere g
      refine ⟨p, hp.same ?_ ?_ (fun c => ?_) ?_⟩
      · rw [hfctxs, Assoc.find_set, if_neg (Ne.symm hg)]
      · exact (hsent g).trans (and_iff_left hg)
      · exact (hwaits c g).trans (and_iff_left hg)
      · rw [hscheduled, List.mem_append, List.mem_singleton]
        exact or_iff_left hg
  · rw [hscheduled]
    refine List.nodup_append.mpr ⟨h.ready_once, List.nodup_singleton f, fun a ha b hb hab => ?_⟩
    rw [List.mem_singleton] at hb
    exact hnot (hb ▸ hab ▸ ha)

theorem Placed.same (h : Placed s) (hfctxs : s'.fctxs = s.fctxs) (hscheduled : s'.scheduled = s.scheduled)
    (hsent : s'.sent = s.sent) (hwaits : ∀ c g, Waits s' c g ↔ Waits s c g) : Placed s' where
  somewhere f := (h.somewhere f).imp fun p hp =>
    hp.same (by rw [hfctxs]) (by rw [hsent]) (fun c => hwaits c f) (by rw [hscheduled])
  sent_once := hsent ▸ h.sent_once
  ready_once := hscheduled ▸ h.ready_once

theorem Placed.cmd (h : Placed s) {f : F} (hf : Assoc.find s.fctxs f = none) (buf : List UInt8) :
    Placed (s.cmd f buf) := by
  obtain ⟨p, hp⟩ := h.somewhere f
  obtain rfl : p = none := hp.gone.mp hf
  have hsent : (s.cmd f buf).sent = s.sent ++ [f] := List.filterMap_append
  have hnot : f ∉ s.sent := fun hmem => by simpa using hp.sent.mp hmem
  refine ⟨fun g => ?_, ?_, h.ready_once⟩
  · by_cases hg : g = f
    · subst hg
      refine ⟨some .sent, .of_sent ⟨buf, true, none, s.issued⟩ ?_ rfl ?_ (fun c hc => ?_)
        (fun hmem => ?_)⟩
      · exact (Assoc.find_set _ _ _ _).trans (if_pos rfl)
      · rw [hsent]
        exact List.mem_append_right _ (List.mem_singleton_self g)
      · simpa using (hp.waits c).mp hc
      · simpa using hp.ready.mp hmem
    · obtain ⟨p, hp⟩ := h.somewhere g
      refine ⟨p, hp.same ?_ ?_ (fun c => Iff.rfl) Iff.rfl⟩
      · exact (Assoc.find_set _ _ _ _).trans (if_neg (Ne.symm hg))
      · rw [hsent, List.mem_append, List.mem_singleton]
        exact or_iff_left hg
  · rw [hsent]
    refine List.nodup_append.mpr ⟨h.sent_once, List.nodup_singleton f, fun a ha b hb hab => ?_⟩
    rw [List.mem_singleton] at hb
    exact hnot (hb ▸ hab ▸ ha)

theorem Placed.resume (h : Placed s) {f : F} (hmem : f ∈ s.scheduled)
    (hfctxs : s'.fctxs = Assoc.without s.fctxs f) (hscheduled : s'.scheduled = s.scheduled.erase f)
    (hsent : s'.sent = s.sent) (hwaits : ∀ c g, Waits s' c g ↔ Waits s c g) : Placed s' := by
  obtain ⟨p, hp⟩ := h.somewhere f
  obtain rfl : p = some .ready := hp.ready.mp hmem
  refine ⟨fun g => ?_, hsent ▸ h.sent_once, hscheduled ▸ h.ready_once.erase f⟩
  by_cases hg : g = f
  · subst hg
    refine ⟨none, .of_gone ?_ (fun hmem => ?_) (fun c hc => ?_) ?_⟩
    · rw [hfctxs, Assoc.find_without, if_pos rfl]
    · rw [hsent] at hmem
      simpa using hp.sent.mp hmem
    · rw [hwaits] at hc
      simpa using (hp.waits c).mp hc
    · rw [hscheduled]
      exact fun hmem => ((List.Nodup.mem_erase_iff h.ready_once).mp hmem).1 rfl
  · obtain ⟨p, hp⟩ := h.somewhere g
    refine ⟨p, hp.same ?_ (by rw [hsent]) (fun c => hwaits c g) ?_⟩
    · rw [hfctxs, Assoc.find_without, if_neg (Ne.symm hg)]
    · rw [hscheduled]
      exact List.mem_erase_of_ne hg

theorem Placed.pcmd (h : Placed s) {f : F} {rest : List (Dispatched F)}
    (hdispatched : s.dispatched = .pcmd f :: rest) (hfresh : Assoc.find s.ctxs s.next = none)
    (hleaving : s.leaving = none) {ctx : Ctx F} (hf : ctx.fctx = f) (htimeout : ctx.timeout = false)
    (hctxs : s'.ctxs = Assoc.set s.ctxs s.next ctx) (hleaving' : s'.leaving = none)
    (hfctxs : s'.fctxs = s.fctxs) (hscheduled : s'.scheduled = s.scheduled)
    (hdispatched' : s'.dispatched = rest) : Placed s' := by
  have hsent : s.sent = f :: s'.sent := by
    unfold FoxRedis.sent
    rw [hdispatched, hdispatched']
    rfl
  obtain ⟨hnot, honce⟩ := List.nodup_cons.mp (hsent ▸ h.sent_once)
  have hwaits : ∀ c g, Waits s' c g ↔ (s.next = c ∧ f = g) ∨ Waits s c g := by
    intro c g
    unfold Waits
    rw [hleaving', hleaving, hctxs, Assoc.find_set]
    by_cases hc : s.next = c
    · subst hc
      simp [hf, htimeout, hfresh]
    · simp [hc]
  obtain ⟨p, hp⟩ := h.somewhere f
  obtain rfl : p = some .sent := hp.sent.mp (by rw [hsent]; exact List.mem_cons_self)
  obtain ⟨fctx, hfind, hfiber⟩ := hp.held (by simp)
  refine ⟨fun g => ?_, honce, hscheduled ▸ h.ready_once⟩
  by_cases hg : g = f
  · subst hg
    refine ⟨some (.waits s.next), .of_waits (hfctxs ▸ hfind) hfiber hnot (fun c => ?_) (fun hmem => ?_)⟩
    · rw [hwaits, hp.waits c]
      simp
    · rw [hscheduled] at hmem
      simpa using hp.ready.mp hmem
  · obtain ⟨p, hp⟩ := h.somewhere g
    refine ⟨p, hp.same (by rw [hfctxs]) ?_ (fun c => ?_) (by rw [hscheduled])⟩
    · rw [hsent, List.mem_cons]
      exact (or_iff_right hg).symm
    · rw [hwaits]
      exact or_iff_right fun hc => hg hc.2.symm

def ctxOf : Callback → Option ℕ
  | .CmdCb privdata => privdata
  | .OnAuthCb => none

def pending (s : FoxRedis F R) : List ℕ :=
  (s.m_context.elim [] Connection.callbacks).filterMap ctxOf

structure Books (s : FoxRedis F R) : Prop where
  ctx_keys : (s.ctxs.map Prod.fst).Nodup
  fctx_keys : (s.fctxs.map Prod.fst).Nodup
  fresh : ∀ c, s.next ≤ c → Assoc.find s.ctxs c = none
  count : s.m_ctxCount = s.ctxs.length
  ev : ∀ c ctx, Assoc.find s.ctxs c = some ctx → ctx.ev = !ctx.timeout
  leaving : ∀ c, s.leaving = some c → ∃ ctx, Assoc.find s.ctxs c = some ctx
  pending_once : s.pending.Nodup
  pending_live : ∀ c ∈ s.pending, s.leaving ≠ some c ∧ ∃ ctx, Assoc.find s.ctxs c = some ctx
  connected : s.m_status ≠ .UNCONNECTED → ∃ conn, s.m_context = some conn

/-- What came for a command, and what its call returned. -/
structure Recorded (is_error : R → Bool) (s : FoxRedis F R) : Prop where
  total : s.returned.length + s.fctxs.length = s.issued
  live_below : ∀ f fctx, Assoc.find s.fctxs f = some fctx → fctx.serial < s.issued
  done_below : ∀ p ∈ s.returned, p.1 < s.issued
  done_once : (s.returned.map Prod.fst).Nodup
  apart : ∀ f fctx, Assoc.find s.fctxs f = some fctx → ∀ p ∈ s.returned, p.1 ≠ fctx.serial
  own : ∀ f f' x x', Assoc.find s.fctxs f = some x → Assoc.find s.fctxs f' = some x' →
    x.serial = x'.serial → f = f'
  waits : ∀ c f ctx fctx, Waits s c f → Assoc.find s.ctxs c = some ctx →
    Assoc.find s.fctxs f = some fctx → ctx.serial = fctx.serial
  kept : ∀ f fctx r, Assoc.find s.fctxs f = some fctx → fctx.rpy = some r →
    (fctx.serial, r) ∈ s.answered ∧ is_error r = false
  given : ∀ n r, (n, some r) ∈ s.returned → (n, r) ∈ s.answered ∧ is_error r = false

/-- The calls of `cmd` are the same ones; one may have got a reply. -/
theorem Recorded.same (h : Recorded is_error s) (hissued : s'.issued = s.issued)
    (hreturned : s'.returned = s.returned) (hlength : s'.fctxs.length = s.fctxs.length)
    (hanswered : ∀ p ∈ s.answered, p ∈ s'.answered)
    (hfctxs : ∀ f x', Assoc.find s'.fctxs f = some x' → ∃ x, Assoc.find s.fctxs f = some x ∧
      x'.serial = x.serial ∧ ∀ r, x'.rpy = some r → x.rpy = some r ∨
        (x.serial, r) ∈ s'.answered ∧ is_error r = false)
    (hwaits : ∀ c f ctx fctx, Waits s' c f → Assoc.find s'.ctxs c = some ctx →
      Assoc.find s'.fctxs f = some fctx → ctx.serial = fctx.serial) : Recorded is_error s' where
  total := by rw [hreturned, hlength, hissued, h.total]
  live_below f x' hx' := by
    obtain ⟨x, hx, hserial, -⟩ := hfctxs f x' hx'
    rw [hserial, hissued]
    exact h.live_below f x hx
  done_below := by
    rw [hreturned, hissued]
    exact h.done_below
  done_once := hreturned ▸ h.done_once
  apart f x' hx' := by
    obtain ⟨x, hx, hserial, -⟩ := hfctxs f x' hx'
    rw [hreturned, hserial]
    exact h.apart f x hx
  own f f' x x' hx hx' heq := by
    obtain ⟨y, hy, hserial, -⟩ := hfctxs f x hx
    obtain ⟨y', hy', hserial', -⟩ := hfctxs f' x' hx'
    exact h.own f f' y y' hy hy' (by rw [← hserial, ← hserial', heq])
  waits := hwaits
  kept f x' r hx' hr := by
    obtain ⟨x, hx, hserial, hrpy⟩ := hfctxs f x' hx'
    rw [hserial]
    rcases hrpy r hr with hold | hnew
    · exact ⟨hanswered _ (h.kept f x r hx hold).1, (h.kept f x r hx hold).2⟩
    · exact hnew
  given n r hn := by
    rw [hreturned] at hn
    exact ⟨hanswered _ (h.given n r hn).1, (h.given n r hn).2⟩

structure Inv (is_error : R → Bool) (s : FoxRedis F R) : Prop where
  placed : Placed s
  books : Books s
  recorded : Recorded is_error s

theorem Inv.context (h : Inv is_error s) (st : STATUS) (conn : Option Connection) (event : Bool)
    (hst : st ≠ .UNCONNECTED → ∃ c, conn = some c)
    (hpending : ((conn.elim [] Connection.callbacks).filterMap ctxOf).Sublist s.pending) :
    Inv is_error { s with m_status := st, m_context := conn, m_event := event } where
  placed := h.placed.same rfl rfl rfl fun _ _ => Iff.rfl
  books :=
    { h.books with
      pending_once := h.books.pending_once.sublist hpending
      pending_live := fun c hc => h.books.pending_live c (hpending.subset hc)
      connected := hst }
  recorded := { h.recorded with }

omit [DecidableEq F] in
theorem register_eq {conn : Connection} (hconn : s.m_context = some conn) (cb : Callback) (accepted : Bool) :
    ∃ callbacks, register s cb accepted = .ok { s with m_context := some { conn with callbacks := callbacks } } ∧
      callbacks.filterMap ctxOf =
        conn.callbacks.filterMap ctxOf ++ if accepted then (ctxOf cb).toList else [] := by
  unfold register
  rw [hconn]
  cases accepted with
  | false => exact ⟨conn.callbacks, by simp [← hconn], by simp⟩
  | true =>
    refine ⟨conn.callbacks ++ [cb], rfl, ?_⟩
    rw [List.filterMap_append]
    cases h : ctxOf cb <;> simp [h]

theorem Inv.register (h : Inv is_error s) {conn : Connection} (hconn : s.m_context = some conn)
    {cb : Callback} (hcb : ctxOf cb = none) (accepted : Bool) :
    ∃ s', register s cb accepted = .ok s' ∧ Inv is_error s' := by
  obtain ⟨callbacks, heq, hcallbacks⟩ := register_eq hconn cb accepted
  refine ⟨_, heq, h.context s.m_status _ s.m_event (fun _ => ⟨_, rfl⟩) ?_⟩
  have hsame : callbacks.filterMap ctxOf = conn.callbacks.filterMap ctxOf := by
    rw [hcallbacks, hcb]
    simp
  unfold pending
  rw [hconn]
  exact hsame ▸ List.Sublist.refl _

omit [DecidableEq F] in
theorem pinit_eq (s : FoxRedis F R) (connects accepted : Bool) :
    ∃ st conn event, pinit s connects accepted =
        .ok { s with m_status := st, m_context := conn, m_event := event } ∧
      ((st = s.m_status ∧ conn = s.m_context) ∨
        ∃ c : Connection, conn = some c ∧ c.callbacks.filterMap ctxOf = []) := by
  unfold pinit
  by_cases hst : s.m_status ≠ .UNCONNECTED
  · rw [if_pos hst]
    exact ⟨_, _, _, rfl, .inl ⟨rfl, rfl⟩⟩
  · rw [if_neg hst]
    cases connects with
    | false => exact ⟨_, _, _, rfl, .inl ⟨rfl, rfl⟩⟩
    | true =>
      obtain ⟨callbacks, heq, hcallbacks⟩ := register_eq (s := { s with
        m_status := .CONNECTING, m_context := some ⟨[], false⟩, m_event := true }) rfl (.CmdCb none) accepted
      refine ⟨_, _, _, heq, .inr ⟨_, rfl, ?_⟩⟩
      rw [hcallbacks]
      simp [ctxOf]

theorem Inv.connecting (h : Inv is_error s) {st : STATUS} {conn : Option Connection} (event : Bool)
    (hcases : (st = s.m_status ∧ conn = s.m_context) ∨
      ∃ c : Connection, conn = some c ∧ c.callbacks.filterMap ctxOf = []) :
    Inv is_error { s with m_status := st, m_context := conn, m_event := event } := by
  rcases hcases with ⟨rfl, rfl⟩ | ⟨c, rfl, hc⟩
  · exact h.context _ _ event h.books.connected (List.Sublist.refl _)
  · refine h.context _ _ event (fun _ => ⟨c, rfl⟩) ?_
    rw [Option.elim_some, hc]
    exact List.nil_sublist _

theorem Inv.dispatched (h : Inv is_error s) (ds : List (Dispatched F))
    (hds : ds.filterMap fiberOf = s.sent) : Inv is_error { s with dispatched := ds } where
  placed := h.placed.same rfl rfl hds fun _ _ => Iff.rfl
  books := { h.books with }
  recorded := { h.recorded with }

theorem Inv.answered (h : Inv is_error s) (l : List (ℕ × R)) :
    Inv is_error { s with answered := s.answered ++ l } where
  placed := h.placed.same rfl rfl rfl fun _ _ => Iff.rfl
  books := { h.books with }
  recorded :=
    h.recorded.same rfl rfl rfl (fun _ hp => List.mem_append_left l hp)
      (fun _ x' hx' => ⟨x', hx', rfl, fun _ hr => .inl hr⟩) h.recorded.waits

theorem Inv.cmd (h : Inv is_error s) {f : F} (hf : Assoc.find s.fctxs f = none) (buf : List UInt8) :
    Inv is_error (s.cmd f buf) where
  placed := h.placed.cmd hf buf
  books := { h.books with fctx_keys := Assoc.nodup_set h.books.fctx_keys _ _ }
  recorded := by
    obtain ⟨p, hp⟩ := h.placed.somewhere f
    obtain rfl : p = none := hp.gone.mp hf
    have hfind : ∀ {g x}, Assoc.find (s.cmd f buf).fctxs g = some x →
        (g = f ∧ x = ⟨buf, true, none, s.issued⟩) ∨ (g ≠ f ∧ Assoc.find s.fctxs g = some x) := by
      intro g x hx
      unfold FoxRedis.cmd at hx
      rw [Assoc.find_set] at hx
      by_cases hg : f = g
      · rw [if_pos hg] at hx
        exact .inl ⟨hg.symm, (Option.some.inj hx).symm⟩
      · rw [if_neg hg] at hx
        exact .inr ⟨Ne.symm hg, hx⟩
    constructor
    · have hset : (Assoc.set s.fctxs f ⟨buf, true, none, s.issued⟩).length = s.fctxs.length + 1 := by
        have hwithout : Assoc.without s.fctxs f = s.fctxs :=
          List.filter_eq_self.mpr fun c hc => decide_eq_true (Assoc.find_eq_none.mp hf c hc)
        rw [Assoc.set, hwithout, List.length_cons]
      have htotal := h.recorded.total
      change s.returned.length + (Assoc.set s.fctxs f ⟨buf, true, none, s.issued⟩).length = s.issued + 1
      omega
    · intro g x hx
      rcases hfind hx with ⟨-, rfl⟩ | ⟨-, hx⟩
      · exact Nat.lt_succ_self _
      · exact (h.recorded.live_below g x hx).trans (Nat.lt_succ_self _)
    · exact fun p hp => (h.recorded.done_below p hp).trans (Nat.lt_succ_self _)
    · exact h.recorded.done_once
    · intro g x hx p hp
      rcases hfind hx with ⟨-, rfl⟩ | ⟨-, hx⟩
      · exact (h.recorded.done_below p hp).ne
      · exact h.recorded.apart g x hx p hp
    · intro g g' x x' hx hx' heq
      rcases hfind hx with ⟨hg, rfl⟩ | ⟨-, hold⟩
      · rcases hfind hx' with ⟨hg', -⟩ | ⟨-, hold'⟩
        · exact hg.trans hg'.symm
        · exact absurd heq.symm (h.recorded.live_below g' x' hold').ne
      · rcases hfind hx' with ⟨-, rfl⟩ | ⟨-, hold'⟩
        · exact absurd heq (h.recorded.live_below g x hold).ne
        · exact h.recorded.own g g' x x' hold hold' heq
    · intro c g ctx x hw hc hx
      rcases hfind hx with ⟨rfl, -⟩ | ⟨-, hx⟩
      · simpa using (hp.waits c).mp hw
      · exact h.recorded.waits c g ctx x hw hc hx
    · intro g x r hx hr
      rcases hfind hx with ⟨-, rfl⟩ | ⟨-, hx⟩
      · cases hr
      · exact h.recorded.kept g x r hx hr
    · exact h.recorded.given

theorem Inv.resume (h : Inv is_error s) {f : F} (hmem : f ∈ s.scheduled) :
    ∃ s', resume s f = .ok s' ∧ Inv is_error s' := by
  obtain ⟨p, hp⟩ := h.placed.somewhere f
  obtain rfl : p = some .ready := hp.ready.mp hmem
  obtain ⟨fctx, hf⟩ := Option.ne_none_iff_exists'.mp fun hnone => by simpa using hp.gone.mp hnone
  have hfind : ∀ {g x}, Assoc.find (Assoc.without s.fctxs f) g = some x →
      f ≠ g ∧ Assoc.find s.fctxs g = some x := by
    intro g x hx
    rw [Assoc.find_without] at hx
    by_cases hg : f = g
    · rw [if_pos hg] at hx
      cases hx
    · rw [if_neg hg] at hx
      exact ⟨hg, hx⟩
  have heq : FoxRedis.resume s f = .ok { s with
      fctxs := Assoc.without s.fctxs f
      scheduled := s.scheduled.erase f
      returned := s.returned ++ [(fctx.serial, fctx.rpy)] } := by rw [FoxRedis.resume, hf]
  refine ⟨_, heq, h.placed.resume hmem rfl rfl rfl fun _ _ => Iff.rfl,
    { h.books with fctx_keys := Assoc.nodup_without h.books.fctx_keys f }, ?_⟩
  constructor
  · have hlen := Assoc.length_without h.books.fctx_keys hf
    have htotal := h.recorded.total
    simp only [List.length_append, List.length_singleton]
    omega
  · exact fun g x hx => h.recorded.live_below g x (hfind hx).2
  · intro p hp
    rcases List.mem_append.mp hp with hp | hp
    · exact h.recorded.done_below p hp
    · obtain rfl := List.mem_singleton.mp hp
      exact h.recorded.live_below f fctx hf
  · rw [List.map_append]
    refine List.nodup_append.mpr ⟨h.recorded.done_once, List.nodup_singleton _, fun a ha b hb hab => ?_⟩
    obtain ⟨p, hp, rfl⟩ := List.mem_map.mp ha
    rw [List.map_singleton, List.mem_singleton] at hb
    exact h.recorded.apart f fctx hf p hp (hab.trans hb)
  · intro g x hx p hp
    rcases List.mem_append.mp hp with hp | hp
    · exact h.recorded.apart g x (hfind hx).2 p hp
    · obtain rfl := List.mem_singleton.mp hp
      exact fun heq => (hfind hx).1 (h.recorded.own f g fctx x hf (hfind hx).2 heq)
  · exact fun g g' x x' hx hx' => h.recorded.own g g' x x' (hfind hx).2 (hfind hx').2
  · exact fun c g ctx x hw hc hx => h.recorded.waits c g ctx x hw hc (hfind hx).2
  · exact fun g x r hx hr => h.recorded.kept g x r (hfind hx).2 hr
  · intro n r hn
    rcases List.mem_append.mp hn with hn | hn
    · exact h.recorded.given n r hn
    · obtain ⟨rfl, hr⟩ := Prod.mk.inj (List.mem_singleton.mp hn)
      exact h.recorded.kept f fctx r hf hr.symm

theorem Placed.unique (h : Placed s) {c c' : ℕ} {f : F} (hw : Waits s c f) (hw' : Waits s c' f) : c = c' := by
  obtain ⟨p, hp⟩ := h.somewhere f
  have heq := ((hp.waits c).mp hw).symm.trans ((hp.waits c').mp hw')
  simpa using heq

theorem Recorded.to_ready (h : Recorded is_error s) (hkeys : (s.fctxs.map Prod.fst).Nodup) {f : F}
    {fctx : FCtx R} (hf : Assoc.find s.fctxs f = some fctx) (fctx' : FCtx R) (hserial : fctx'.serial = fctx.serial)
    (hrpy : ∀ r, fctx'.rpy = some r → fctx.rpy = some r ∨
      (fctx.serial, r) ∈ s.answered ∧ is_error r = false)
    (hissued : s'.issued = s.issued) (hreturned : s'.returned = s.returned)
    (hanswered : s'.answered = s.answered) (hfctxs : s'.fctxs = Assoc.set s.fctxs f fctx')
    (hwaits : ∀ c g, Waits s' c g → Waits s c g ∧ g ≠ f)
    (hctxs : ∀ c g ctx, Waits s' c g → Assoc.find s'.ctxs c = some ctx → Assoc.find s.ctxs c = some ctx) :
    Recorded is_error s' := by
  refine h.same hissued hreturned ?_ (fun p hp => hanswered ▸ hp) (fun g x' hx' => ?_)
    fun c g ctx x' hw hc hx' => ?_
  · rw [hfctxs]
    exact Assoc.length_set_of_find hkeys hf _
  · rw [hfctxs, Assoc.find_set] at hx'
    by_cases hg : f = g
    · subst hg
      rw [if_pos rfl] at hx'
      obtain rfl := Option.some.inj hx'
      exact ⟨fctx, hf, hserial, by rwa [hanswered]⟩
    · rw [if_neg hg] at hx'
      exact ⟨x', hx', rfl, fun _ hr => .inl hr⟩
  · obtain ⟨hw', hg⟩ := hwaits c g hw
    rw [hfctxs, Assoc.find_set, if_neg (Ne.symm hg)] at hx'
    exact h.waits c g ctx x' hw' (hctxs c g ctx hw hc) hx'

theorem Inv.refuse (h : Inv is_error s) {f : F} {rest : List (Dispatched F)}
    (hdispatched : s.dispatched = .pcmd f :: rest) :
    ∃ s', schedule { s with dispatched := rest } f = .ok s' ∧ Inv is_error s' := by
  have hsent : s.sent = f :: rest.filterMap fiberOf := by
    unfold FoxRedis.sent
    rw [hdispatched]
    rfl
  obtain ⟨hnot, honce⟩ := List.nodup_cons.mp (hsent ▸ h.placed.sent_once)
  obtain ⟨p, hp⟩ := h.placed.somewhere f
  obtain rfl : p = some .sent := hp.sent.mp (by rw [hsent]; exact List.mem_cons_self)
  obtain ⟨fctx, hf, hfiber⟩ := hp.held (by simp)
  have hwaits : ∀ c g, Waits s c g ↔ Waits s c g ∧ g ≠ f := fun c g =>
    ⟨fun hw => ⟨hw, fun hg => by subst hg; simpa using (hp.waits c).mp hw⟩, And.left⟩
  refine ⟨_, schedule_eq (s := { s with dispatched := rest }) hf hfiber, ?_,
    { h.books with fctx_keys := Assoc.nodup_set h.books.fctx_keys f _ }, ?_⟩
  · refine h.placed.to_ready hp (by simp) { fctx with fiber := false } rfl rfl rfl honce
      (fun g => ?_) hwaits
    rw [hsent, List.mem_cons]
    exact ⟨fun hg => ⟨.inr hg, fun heq => hnot (heq ▸ hg)⟩, fun hg => hg.1.resolve_left hg.2⟩
  · exact h.recorded.to_ready h.books.fctx_keys hf { fctx with fiber := false } rfl (fun _ hr => .inl hr) rfl rfl rfl rfl
      (fun c g hw => (hwaits c g).mp hw) fun _ _ _ _ hc => hc

theorem Inv.fire (h : Inv is_error s) (hleaving : s.leaving = none) {c : ℕ} {ctx : Ctx F}
    (hc : Assoc.find s.ctxs c = some ctx) (hev : ctx.ev = true) :
    ∃ s', EventCb s c = .ok s' ∧ Inv is_error s' := by
  have htimeout : ctx.timeout = false := by
    have := h.books.ev c ctx hc
    rw [hev] at this
    simpa using this.symm
  have hw : Waits s c ctx.fctx := ⟨by simp [hleaving], ctx, hc, rfl, htimeout⟩
  obtain ⟨p, hp⟩ := h.placed.somewhere ctx.fctx
  obtain rfl : p = some (.waits c) := (hp.waits c).mp hw
  obtain ⟨fctx, hf, hfiber⟩ := hp.held (by simp)
  have hwaits : ∀ c' g, Waits { s with ctxs := Assoc.set s.ctxs c { ctx with ev := false, timeout := true } }
      c' g ↔ Waits s c' g ∧ g ≠ ctx.fctx := by
    intro c' g
    unfold Waits
    rw [Assoc.find_set]
    by_cases hcc : c = c'
    · subst hcc
      simp only [hc]
      constructor
      · rintro ⟨-, x, hx, -, ht⟩
        obtain rfl := Option.some.inj hx
        simp at ht
      · rintro ⟨⟨-, x, hx, hg, -⟩, hne⟩
        obtain rfl := Option.some.inj hx
        exact absurd hg.symm hne
    · rw [if_neg hcc]
      refine ⟨fun hw' => ⟨hw', fun hg => hcc ?_⟩, And.left⟩
      subst hg
      exact h.placed.unique hw hw'
  have heq := schedule_eq
    (s := { s with ctxs := Assoc.set s.ctxs c { ctx with ev := false, timeout := true } }) hf hfiber
  refine ⟨_, by rw [EventCb, hc]; exact heq, ?_, ?_, ?_⟩
  · exact h.placed.to_ready hp (by simp) { fctx with fiber := false } rfl rfl rfl h.placed.sent_once
      (fun g => ⟨fun hg => ⟨hg, fun heq => by subst heq; simpa using hp.sent.mp hg⟩, And.left⟩) hwaits
  · have hfind : ∀ c', (∃ x, Assoc.find s.ctxs c' = some x) →
        ∃ x, Assoc.find (Assoc.set s.ctxs c { ctx with ev := false, timeout := true }) c' = some x := by
      intro c' hc'
      rw [Assoc.find_set]
      by_cases hcc : c = c'
      · exact ⟨_, if_pos hcc⟩
      · rwa [if_neg hcc]
    exact
      { h.books with
        ctx_keys := Assoc.nodup_set h.books.ctx_keys _ _
        fctx_keys := Assoc.nodup_set h.books.fctx_keys _ _
        fresh := fun c' hc' => by
          have hnone := h.books.fresh c' hc'
          have hne : c ≠ c' := fun heq => by simp [← heq, hc] at hnone
          exact (Assoc.find_set _ _ _ _).trans ((if_neg hne).trans hnone)
        count := by rw [h.books.count, Assoc.length_set_of_find h.books.ctx_keys hc]
        ev := fun c' x hx => by
          rw [Assoc.find_set] at hx
          by_cases hcc : c = c'
          · rw [if_pos hcc] at hx
            obtain rfl := Option.some.inj hx
            rfl
          · rw [if_neg hcc] at hx
            exact h.books.ev c' x hx
        leaving := fun c' hc' => hfind c' (h.books.leaving c' hc')
        pending_live := fun c' hc' => ⟨(h.books.pending_live c' hc').1, hfind c' (h.books.pending_live c' hc').2⟩ }
  · refine h.recorded.to_ready h.books.fctx_keys hf { fctx with fiber := false } rfl (fun _ hr => .inl hr) rfl rfl rfl rfl
      (fun c' g hw' => (hwaits c' g).mp hw') fun c' g x hw' hx => ?_
    have hcc : c ≠ c' := fun heq => by
      subst heq
      obtain ⟨hold, hg⟩ := (hwaits c g).mp hw'
      obtain ⟨-, y, hy, hyg, -⟩ := hold
      obtain rfl := Option.some.inj (hc.symm.trans hy)
      exact hg hyg.symm
    exact ((Assoc.find_set _ _ _ _).trans (if_neg hcc)).symm.trans hx

theorem Inv.delete (h : Inv is_error s) {c : ℕ} {ctx : Ctx F} (hc : Assoc.find s.ctxs c = some ctx)
    (hpending : c ∉ s.pending) (hnone : ∀ g, ¬ Waits s c g) (hleaving : ∀ c', s.leaving = some c' → c' = c) :
    ∃ s', delete { s with leaving := none } c = .ok s' ∧ Inv is_error s' := by
  have heq : FoxRedis.delete { s with leaving := none } c = .ok { s with
      leaving := none, ctxs := Assoc.without s.ctxs c, m_ctxCount := s.m_ctxCount - 1 } := by
    rw [FoxRedis.delete, hc]
  have hfind : ∀ {c' x}, Assoc.find (Assoc.without s.ctxs c) c' = some x →
      c ≠ c' ∧ Assoc.find s.ctxs c' = some x := by
    intro c' x hx
    rw [Assoc.find_without] at hx
    by_cases hcc : c = c'
    · rw [if_pos hcc] at hx
      cases hx
    · rw [if_neg hcc] at hx
      exact ⟨hcc, hx⟩
  have hkeeps : ∀ {c' x}, c ≠ c' → Assoc.find s.ctxs c' = some x →
      Assoc.find (Assoc.without s.ctxs c) c' = some x := by
    intro c' x hne hx
    rw [Assoc.find_without, if_neg hne]
    exact hx
  have hwaits : ∀ c' g, Waits { s with
      leaving := none, ctxs := Assoc.without s.ctxs c, m_ctxCount := s.m_ctxCount - 1 } c' g ↔ Waits s c' g := by
    intro c' g
    constructor
    · rintro ⟨-, x, hx, hg⟩
      obtain ⟨hne, hx⟩ := hfind hx
      exact ⟨fun hl => hne (hleaving c' hl).symm, x, hx, hg⟩
    · intro hw
      have hne : c ≠ c' := fun heq => hnone g (heq ▸ hw)
      obtain ⟨-, x, hx, hg⟩ := hw
      exact ⟨by simp, x, hkeeps hne hx, hg⟩
  refine ⟨_, heq, h.placed.same rfl rfl rfl hwaits, ?_, ?_⟩
  · exact
      { h.books with
        ctx_keys := Assoc.nodup_without h.books.ctx_keys c
        fresh := fun c' hc' => by
          rw [Assoc.find_without]
          split
          · rfl
          · exact h.books.fresh c' hc'
        count := by
          have hlen := Assoc.length_without h.books.ctx_keys hc
          have hcount := h.books.count
          simp only
          omega
        ev := fun c' x hx => h.books.ev c' x (hfind hx).2
        leaving := fun _ hc' => by cases hc'
        pending_live := fun c' hc' => by
          obtain ⟨-, x, hx⟩ := h.books.pending_live c' hc'
          exact ⟨by simp, x, hkeeps (fun hne => hpending (hne ▸ hc')) hx⟩ }
  · exact h.recorded.same rfl rfl rfl (fun _ hp => hp) (fun _ x' hx' => ⟨x', hx', rfl, fun _ hr => .inl hr⟩)
      fun c' g x y hw hx hy => h.recorded.waits c' g x y ((hwaits c' g).mp hw) (hfind hx).2 hy

/-- A callback schedules the fiber that has waited for it, with what has come. -/
theorem Inv.answer (h : Inv is_error s) (hleaving : s.leaving = none) {c : ℕ} {ctx : Ctx F}
    (hc : Assoc.find s.ctxs c = some ctx) (htimeout : ctx.timeout = false) (hpending : c ∉ s.pending)
    {fctx : FCtx R} (hf : Assoc.find s.fctxs ctx.fctx = some fctx) (rpy : Option R)
    (hrpy : ∀ r, rpy = some r → fctx.rpy = some r ∨ (ctx.serial, r) ∈ s.answered ∧ is_error r = false) :
    Inv is_error { s with
      fctxs := Assoc.set s.fctxs ctx.fctx { fctx with fiber := false, rpy := rpy }
      scheduled := s.scheduled ++ [ctx.fctx]
      leaving := some c } := by
  have hw : Waits s c ctx.fctx := ⟨by simp [hleaving], ctx, hc, rfl, htimeout⟩
  obtain ⟨p, hp⟩ := h.placed.somewhere ctx.fctx
  obtain rfl : p = some (.waits c) := (hp.waits c).mp hw
  have hserial := h.recorded.waits c _ ctx fctx hw hc hf
  have hwaits : ∀ c' g, Waits { s with
      fctxs := Assoc.set s.fctxs ctx.fctx { fctx with fiber := false, rpy := rpy }
      scheduled := s.scheduled ++ [ctx.fctx]
      leaving := some c } c' g ↔ Waits s c' g ∧ g ≠ ctx.fctx := by
    intro c' g
    constructor
    · rintro ⟨hne, hx⟩
      refine ⟨⟨by simp [hleaving], hx⟩, fun hg => hne ?_⟩
      subst hg
      rw [h.placed.unique hw ⟨by simp [hleaving], hx⟩]
    · rintro ⟨⟨-, x, hx, hxg, hxt⟩, hg⟩
      refine ⟨fun heq => hg ?_, x, hx, hxg, hxt⟩
      obtain rfl : c = c' := Option.some.inj heq
      obtain rfl := Option.some.inj (hc.symm.trans hx)
      exact hxg.symm
  constructor
  · exact h.placed.to_ready hp (by simp) { fctx with fiber := false, rpy := rpy } rfl rfl rfl h.placed.sent_once
      (fun g => ⟨fun hg => ⟨hg, fun heq => by subst heq; simpa using hp.sent.mp hg⟩, And.left⟩) hwaits
  · exact
      { h.books with
        fctx_keys := Assoc.nodup_set h.books.fctx_keys _ _
        leaving := fun c' hc' => ⟨ctx, Option.some.inj hc' ▸ hc⟩
        pending_live := fun c' hc' =>
          ⟨fun heq => hpending (Option.some.inj heq ▸ hc'), (h.books.pending_live c' hc').2⟩ }
  · exact h.recorded.to_ready h.books.fctx_keys hf { fctx with fiber := false, rpy := rpy } rfl
      (fun r hr => hserial ▸ hrpy r hr) rfl rfl rfl rfl (fun c' g hw' => (hwaits c' g).mp hw')
      fun _ _ _ _ hx => hx

theorem Inv.CmdCb (h : Inv is_error s) (hleaving : s.leaving = none) {c : ℕ} {ctx : Ctx F}
    (hc : Assoc.find s.ctxs c = some ctx) (hpending : c ∉ s.pending) (reply : Option R)
    (hreply : ∀ r, reply = some r → (ctx.serial, r) ∈ s.answered) :
    ∃ s', CmdCb is_error s (some c) reply = .ok s' ∧ Inv is_error s' := by
  unfold FoxRedis.CmdCb
  simp only [hc]
  by_cases htimeout : ctx.timeout = true
  · rw [if_pos htimeout]
    have hsame : s = { s with leaving := none } := by rw [← hleaving]
    obtain ⟨s', heq, hinv⟩ := h.delete hc hpending (fun g hw => by
      obtain ⟨-, x, hx, -, ht⟩ := hw
      obtain rfl := Option.some.inj (hc.symm.trans hx)
      simp [htimeout] at ht) (by simp [hleaving])
    exact ⟨s', by rw [hsame]; exact heq, hinv⟩
  · rw [if_neg htimeout]
    have hfalse : ctx.timeout = false := Bool.eq_false_of_not_eq_true htimeout
    have hw : Waits s c ctx.fctx := ⟨by simp [hleaving], ctx, hc, rfl, hfalse⟩
    obtain ⟨p, hp⟩ := h.placed.somewhere ctx.fctx
    obtain rfl : p = some (.waits c) := (hp.waits c).mp hw
    obtain ⟨fctx, hf, hfiber⟩ := hp.held (by simp)
    -- where nothing is kept
    have hbare : ∃ s', (do
          let s ← schedule s ctx.fctx
          .ok { s with leaving := some c } : Except Fault (FoxRedis F R)) = .ok s' ∧ Inv is_error s' := by
      rw [schedule_eq hf hfiber]
      exact ⟨_, rfl, h.answer hleaving hc hfalse hpending hf fctx.rpy fun _ hr => .inl hr⟩
    cases reply with
    | none => exact hbare
    | some r =>
      by_cases herror : is_error r = true
      · simp only [herror, if_true]
        exact hbare
      · simp only [herror]
        have hkeep : keep s ctx.fctx r = .ok { s with
            fctxs := Assoc.set s.fctxs ctx.fctx { fctx with rpy := some r } } := by
          unfold keep
          rw [hf]
          exact if_pos hfiber
        have hset := schedule_eq
          (s := { s with fctxs := Assoc.set s.fctxs ctx.fctx { fctx with rpy := some r } })
          (show Assoc.find (Assoc.set s.fctxs ctx.fctx { fctx with rpy := some r }) ctx.fctx =
            some { fctx with rpy := some r } from (Assoc.find_set _ _ _ _).trans (if_pos rfl)) hfiber
        simp only [Assoc.set_set] at hset
        simp only [Bool.false_eq_true, if_false, hkeep, bind, Except.bind, hset]
        refine ⟨_, rfl, h.answer hleaving hc hfalse hpending hf (some r) fun r' hr' => .inr ?_⟩
        obtain rfl := Option.some.inj hr'
        exact ⟨hreply r rfl, Bool.eq_false_of_not_eq_true herror⟩

theorem Inv.take (h : Inv is_error s) (hleaving : s.leaving = none) {f : F} {rest : List (Dispatched F)}
    (hdispatched : s.dispatched = .pcmd f :: rest) {fctx : FCtx R} (hf : Assoc.find s.fctxs f = some fctx) :
    Inv is_error { s with
      dispatched := rest
      ctxs := Assoc.set s.ctxs s.next ⟨true, false, fctx.cmd, f, fctx.serial⟩
      next := s.next + 1
      m_ctxCount := s.m_ctxCount + 1 } := by
  have hfresh := h.books.fresh s.next le_rfl
  have hfind : ∀ {c x}, Assoc.find (Assoc.set s.ctxs s.next (⟨true, false, fctx.cmd, f, fctx.serial⟩ : Ctx F)) c =
      some x → (c = s.next ∧ x = ⟨true, false, fctx.cmd, f, fctx.serial⟩) ∨ Assoc.find s.ctxs c = some x := by
    intro c x hx
    rw [Assoc.find_set] at hx
    by_cases hc : s.next = c
    · rw [if_pos hc] at hx
      exact .inl ⟨hc.symm, (Option.some.inj hx).symm⟩
    · rw [if_neg hc] at hx
      exact .inr hx
  have hlive : ∀ c, (∃ x, Assoc.find s.ctxs c = some x) →
      ∃ x, Assoc.find (Assoc.set s.ctxs s.next (⟨true, false, fctx.cmd, f, fctx.serial⟩ : Ctx F)) c = some x := by
    intro c hc
    rw [Assoc.find_set]
    split
    · exact ⟨_, rfl⟩
    · exact hc
  constructor
  · exact h.placed.pcmd hdispatched hfresh hleaving rfl rfl rfl hleaving rfl rfl rfl
  · exact
      { h.books with
        ctx_keys := Assoc.nodup_set h.books.ctx_keys _ _
        fresh := fun c hc => by
          have hne : s.next ≠ c := fun heq => absurd hc (by simp [heq])
          exact (Assoc.find_set _ _ _ _).trans ((if_neg hne).trans (h.books.fresh c (Nat.le_of_succ_le hc)))
        count := by
          have hwithout : Assoc.without s.ctxs s.next = s.ctxs :=
            List.filter_eq_self.mpr fun c hc => decide_eq_true (Assoc.find_eq_none.mp hfresh c hc)
          rw [Assoc.set, hwithout, List.length_cons, h.books.count]
          rfl
        ev := fun c x hx => by
          rcases hfind hx with ⟨-, rfl⟩ | hx
          · rfl
          · exact h.books.ev c x hx
        leaving := fun c hc => hlive c (h.books.leaving c hc)
        pending_live := fun c hc => ⟨(h.books.pending_live c hc).1, hlive c (h.books.pending_live c hc).2⟩ }
  · refine h.recorded.same rfl rfl rfl (fun _ hp => hp)
      (fun _ x' hx' => ⟨x', hx', rfl, fun _ hr => .inl hr⟩) fun c g x y hw hx hy => ?_
    rcases hfind hx with ⟨rfl, rfl⟩ | hold
    · obtain ⟨-, x', hx', rfl, -⟩ := hw
      obtain rfl := Option.some.inj (hx.symm.trans hx')
      obtain rfl := Option.some.inj (hf.symm.trans hy)
      rfl
    · refine h.recorded.waits c g x y ⟨hw.1, x, hold, ?_⟩ hold hy
      obtain ⟨-, x', hx', hg⟩ := hw
      obtain rfl := Option.some.inj (hx.symm.trans hx')
      exact hg

theorem Inv.pend (h : Inv is_error s) {conn : Connection} (hconn : s.m_context = some conn) {c : ℕ}
    (hc : c ∉ s.pending) (hleaving : s.leaving ≠ some c) {ctx : Ctx F}
    (hlive : Assoc.find s.ctxs c = some ctx) (accepted : Bool) :
    ∃ s', FoxRedis.register s (.CmdCb (some c)) accepted = .ok s' ∧ Inv is_error s' := by
  obtain ⟨callbacks, heq, hcallbacks⟩ := register_eq hconn (.CmdCb (some c)) accepted
  have hold : s.pending = conn.callbacks.filterMap ctxOf := by
    unfold pending
    rw [hconn]
    rfl
  have hpending : callbacks.filterMap ctxOf = s.pending ++ if accepted then [c] else [] := by
    rw [hcallbacks, hold]
    rfl
  refine ⟨_, heq, h.placed.same rfl rfl rfl fun _ _ => Iff.rfl,
    { h.books with pending_once := ?_, pending_live := fun c' hc' => ?_, connected := fun _ => ⟨_, rfl⟩ },
    { h.recorded with }⟩
  · change (callbacks.filterMap ctxOf).Nodup
    rw [hpending]
    cases accepted with
    | false => simpa using h.books.pending_once
    | true =>
      refine List.nodup_append.mpr ⟨h.books.pending_once, List.nodup_singleton c, fun a ha b hb hab => ?_⟩
      rw [if_pos rfl, List.mem_singleton] at hb
      exact hc (hb ▸ hab ▸ ha)
  · change c' ∈ callbacks.filterMap ctxOf at hc'
    rw [hpending, List.mem_append] at hc'
    rcases hc' with hc' | hc'
    · exact h.books.pending_live c' hc'
    · cases accepted with
      | false => simp at hc'
      | true =>
        obtain rfl : c' = c := by simpa using hc'
        exact ⟨hleaving, ctx, hlive⟩

theorem Inv.pcmd (h : Inv is_error s) (hleaving : s.leaving = none) {f : F} {rest : List (Dispatched F)}
    (hdispatched : s.dispatched = .pcmd f :: rest) (connects accepted : Bool) :
    ∃ s', pcmd { s with dispatched := rest } f connects accepted = .ok s' ∧ Inv is_error s' := by
  unfold FoxRedis.pcmd
  by_cases hst : s.m_status = .UNCONNECTED
  · rw [if_pos hst]
    obtain ⟨st, conn, event, heq, hcases⟩ := pinit_eq { s with dispatched := rest } connects accepted
    obtain ⟨s', hs', hinv'⟩ := (h.connecting event hcases).refuse hdispatched
    refine ⟨s', ?_, hinv'⟩
    rw [heq]
    exact hs'
  · rw [if_neg hst]
    obtain ⟨p, hp⟩ := h.placed.somewhere f
    obtain rfl : p = some .sent := hp.sent.mp (by simp [FoxRedis.sent, hdispatched, fiberOf])
    obtain ⟨fctx, hf, -⟩ := hp.held (by simp)
    have hinv := h.take hleaving hdispatched hf
    obtain ⟨conn, hconn⟩ := h.books.connected hst
    simp only [hf, Nat.add_sub_cancel]
    by_cases hcmd : fctx.cmd = []
    · rw [if_neg (not_not.mpr hcmd)]
      exact ⟨_, rfl, hinv⟩
    · rw [if_pos hcmd]
      refine hinv.pend hconn (fun hmem => ?_) (by simp [hleaving])
        ((Assoc.find_set _ _ _ _).trans (if_pos rfl)) accepted
      obtain ⟨-, x, hx⟩ := h.books.pending_live _ hmem
      simp [h.books.fresh s.next le_rfl] at hx

theorem Inv.pop (h : Inv is_error s) {cb : Callback} {rest : List Callback} {closing : Bool}
    (hconn : s.m_context = some ⟨cb :: rest, closing⟩) :
    Inv is_error { s with m_context := some ⟨rest, closing⟩ } ∧
      ∀ c, ctxOf cb = some c → c ∉ rest.filterMap ctxOf ∧ ∃ ctx, Assoc.find s.ctxs c = some ctx := by
  have hpending : s.pending = (cb :: rest).filterMap ctxOf := by
    unfold pending
    rw [hconn]
    rfl
  refine ⟨h.context s.m_status _ s.m_event (fun _ => ⟨_, rfl⟩) ?_, fun c hc => ?_⟩
  · rw [hpending]
    exact (List.sublist_cons_self cb rest).filterMap ctxOf
  · rw [List.filterMap_cons_some hc] at hpending
    refine ⟨(List.nodup_cons.mp (hpending ▸ h.books.pending_once)).1, ?_⟩
    exact (h.books.pending_live c (by rw [hpending]; exact List.mem_cons_self)).2

theorem Inv.called (h : Inv is_error s) (hleaving : s.leaving = none) {cb : Callback}
    (hcb : ∀ c, ctxOf cb = some c → c ∉ s.pending ∧ ∃ ctx, Assoc.find s.ctxs c = some ctx)
    (reply : Option R) : ∃ s', called is_error s cb reply = .ok s' ∧ Inv is_error s' := by
  cases cb with
  | OnAuthCb => exact ⟨s, rfl, h⟩
  | CmdCb privdata =>
    cases privdata with
    | none => exact ⟨_, rfl, h.answered _⟩
    | some c =>
      obtain ⟨hc, ctx, hctx⟩ := hcb c rfl
      refine (h.answered _).CmdCb hleaving hctx hc reply fun r hr => List.mem_append_right _ ?_
      simp [hctx, hr]

/-- The one move that goes wrong: `TimeCb` after the connection has been freed. -/
def PingsFreed (s : FoxRedis F R) (m : Move F R) : Prop :=
  ∃ accepted, m = .ping accepted ∧ s.idle = true ∧ s.m_event = true ∧ s.m_context = none

omit [DecidableEq F] in
theorem idle_iff : s.idle = true ↔ s.leaving = none ∧ ∀ conn, s.m_context = some conn → conn.closing = false := by
  unfold idle
  cases s.leaving <;> cases s.m_context <;> simp

theorem Inv.turn (h : Inv is_error s) (connects accepted : Bool) :
    ∃ s', step is_error s (.turn connects accepted) = .ok s' ∧ Inv is_error s' := by
  unfold FoxRedis.step
  cases hds : s.dispatched with
  | nil => exact ⟨s, rfl, h⟩
  | cons d rest =>
    by_cases hidle : s.idle = true
    · simp only [hidle, if_true]
      cases d with
      | pcmd f => exact h.pcmd (idle_iff.mp hidle).1 hds connects accepted
      | pinit =>
        have hrest : rest.filterMap fiberOf = s.sent := by
          rw [FoxRedis.sent, hds]
          rfl
        obtain ⟨st, conn, event, heq, hcases⟩ := pinit_eq { s with dispatched := rest } connects accepted
        exact ⟨_, heq, (h.dispatched rest hrest).connecting event hcases⟩
    · exact ⟨s, if_neg hidle, h⟩

theorem Inv.timer (h : Inv is_error s) (c : ℕ) :
    ∃ s', step is_error s (.fire c) = .ok s' ∧ Inv is_error s' := by
  unfold FoxRedis.step
  by_cases hfire : (s.idle && (Assoc.find s.ctxs c).any Ctx.ev) = true
  · simp only [hfire, if_true]
    obtain ⟨hidle, hev⟩ := Bool.and_eq_true_iff.mp hfire
    cases hctx : Assoc.find s.ctxs c with
    | none => simp [hctx] at hev
    | some ctx =>
      rw [hctx] at hev
      exact h.fire (idle_iff.mp hidle).1 hctx hev
  · exact ⟨s, if_neg hfire, h⟩

theorem Inv.callback (h : Inv is_error s) (hleaving : s.leaving = none) {cb : Callback}
    {rest : List Callback} {closing : Bool} (hconn : s.m_context = some ⟨cb :: rest, closing⟩)
    (reply : Option R) :
    ∃ s', FoxRedis.called is_error { s with m_context := some ⟨rest, closing⟩ } cb reply = .ok s' ∧
      Inv is_error s' := by
  obtain ⟨hinv, hcb⟩ := h.pop hconn
  exact hinv.called hleaving hcb reply

theorem Inv.reply (h : Inv is_error s) (r : R) :
    ∃ s', step is_error s (.reply r) = .ok s' ∧ Inv is_error s' := by
  unfold FoxRedis.step
  simp only
  split
  · next cb rest hconn =>
    by_cases hidle : s.idle = true ∧ s.m_status = .CONNECTED
    · rw [if_pos hidle]
      exact h.callback (idle_iff.mp hidle.1).1 hconn (some r)
    · exact ⟨s, if_neg hidle, h⟩
  · exact ⟨s, rfl, h⟩

theorem Inv.flush (h : Inv is_error s) :
    ∃ s', step is_error s .flush = .ok s' ∧ Inv is_error s' := by
  unfold FoxRedis.step
  simp only
  split
  · next cb rest hconn =>
    by_cases hleaving : s.leaving = none
    · rw [if_pos hleaving]
      exact h.callback hleaving hconn none
    · exact ⟨s, if_neg hleaving, h⟩
  · exact ⟨s, rfl, h⟩

theorem Inv.turned (h : Inv is_error s) {conn : Connection} (hconn : s.m_context = some conn) (st : STATUS)
    (closing : Bool) :
    Inv is_error { s with m_status := st, m_context := some { conn with closing := closing } } := by
  refine h.context st _ s.m_event (fun _ => ⟨_, rfl⟩) ?_
  unfold pending
  rw [hconn]
  exact List.Sublist.refl _

theorem Inv.connect (h : Inv is_error s) (success accepted : Bool) :
    ∃ s', step is_error s (.connect success accepted) = .ok s' ∧ Inv is_error s' := by
  unfold FoxRedis.step
  cases hconn : s.m_context with
  | none => exact ⟨s, rfl, h⟩
  | some conn =>
    by_cases hidle : s.idle = true ∧ s.m_status = .CONNECTING
    · simp only [if_pos hidle]
      unfold ConnectCb
      cases success with
      | false => exact ⟨_, rfl, h.turned hconn .UNCONNECTED true⟩
      | true =>
        have hinv := h.turned hconn .CONNECTED false
        simp only [if_true, Bool.not_true]
        by_cases hpasswd : s.m_passwd = []
        · rw [if_neg (not_not.mpr hpasswd)]
          exact ⟨_, rfl, hinv⟩
        · rw [if_pos hpasswd]
          exact hinv.register rfl rfl accepted
    · exact ⟨s, if_neg hidle, h⟩

theorem Inv.lose (h : Inv is_error s) : ∃ s', step is_error s .lose = .ok s' ∧ Inv is_error s' := by
  unfold FoxRedis.step
  cases hconn : s.m_context with
  | none => exact ⟨s, rfl, h⟩
  | some conn =>
    by_cases hidle : s.idle = true ∧ s.m_status = .CONNECTED
    · exact ⟨_, if_pos hidle, h.turned hconn s.m_status true⟩
    · exact ⟨s, if_neg hidle, h⟩

theorem Inv.close (h : Inv is_error s) : ∃ s', step is_error s .close = .ok s' ∧ Inv is_error s' := by
  unfold FoxRedis.step
  simp only
  split
  · by_cases hleaving : s.leaving = none
    · refine ⟨_, if_pos hleaving, h.context .UNCONNECTED none s.m_event (fun hne => absurd rfl hne) ?_⟩
      exact List.nil_sublist _
    · exact ⟨s, if_neg hleaving, h⟩
  · exact ⟨s, rfl, h⟩

theorem Inv.leave (h : Inv is_error s) : ∃ s', step is_error s .leave = .ok s' ∧ Inv is_error s' := by
  unfold FoxRedis.step
  cases hleaving : s.leaving with
  | none => exact ⟨s, rfl, h⟩
  | some c =>
    obtain ⟨ctx, hctx⟩ := h.books.leaving c hleaving
    refine h.delete hctx (fun hmem => (h.books.pending_live c hmem).1 hleaving)
      (fun g hw => hw.1 hleaving) fun c' hc' => ?_
    exact (Option.some.inj (hleaving.symm.trans hc')).symm

/-- Every move but that one can be made, and keeps the invariant. -/
theorem Inv.step (h : Inv is_error s) (m : Move F R) :
    (PingsFreed s m ∧ ∃ e, step is_error s m = .error e) ∨
      ¬ PingsFreed s m ∧ ∃ s', step is_error s m = .ok s' ∧ Inv is_error s' := by
  cases m with
  | ping accepted =>
    unfold FoxRedis.step
    by_cases hidle : (s.idle && s.m_event) = true
    · obtain ⟨hi, he⟩ := Bool.and_eq_true_iff.mp hidle
      simp only [hidle, if_true]
      cases hconn : s.m_context with
      | none =>
        refine .inl ⟨⟨accepted, rfl, hi, he, hconn⟩, .undefined, ?_⟩
        rw [TimeCb, FoxRedis.register, hconn]
      | some conn =>
        refine .inr ⟨fun hbad => ?_, h.register hconn rfl accepted⟩
        obtain ⟨_, -, -, -, hnone⟩ := hbad
        simp [hconn] at hnone
    · refine .inr ⟨fun hbad => hidle ?_, s, if_neg hidle, h⟩
      obtain ⟨_, -, hi, he, -⟩ := hbad
      simp [hi, he]
  | cmd f buf =>
    refine .inr ⟨nofun, _, rfl, ?_⟩
    by_cases hf : (Assoc.find s.fctxs f).isNone = true
    · rw [if_pos hf]
      exact h.cmd (Option.isNone_iff_eq_none.mp hf) buf
    · rw [if_neg hf]
      exact h
  | init =>
    refine .inr ⟨nofun, _, rfl, h.dispatched _ ?_⟩
    simp [FoxRedis.sent, fiberOf]
  | turn connects accepted => exact .inr ⟨nofun, h.turn connects accepted⟩
  | fire c => exact .inr ⟨nofun, h.timer c⟩
  | reply r => exact .inr ⟨nofun, h.reply r⟩
  | connect success accepted => exact .inr ⟨nofun, h.connect success accepted⟩
  | lose => exact .inr ⟨nofun, h.lose⟩
  | flush => exact .inr ⟨nofun, h.flush⟩
  | close => exact .inr ⟨nofun, h.close⟩
  | leave => exact .inr ⟨nofun, h.leave⟩
  | resume f =>
    refine .inr ⟨nofun, ?_⟩
    unfold FoxRedis.step
    by_cases hmem : f ∈ s.scheduled
    · simp only [hmem, if_true]
      exact h.resume hmem
    · exact ⟨s, if_neg hmem, h⟩

variable (is_error) (m_passwd : List UInt8) (moves : List (Move F R))

theorem inv_new : Inv is_error (new m_passwd : FoxRedis F R) where
  placed :=
    { somewhere := fun f => ⟨none, .of_gone rfl List.not_mem_nil
        (fun c hw => by obtain ⟨-, ctx, hctx, -⟩ := hw; cases hctx) List.not_mem_nil⟩
      sent_once := List.nodup_nil
      ready_once := List.nodup_nil }
  books :=
    { ctx_keys := List.nodup_nil
      fctx_keys := List.nodup_nil
      fresh := fun _ _ => rfl
      count := rfl
      ev := fun _ _ hx => by cases hx
      leaving := fun _ hc => by cases hc
      pending_once := List.nodup_nil
      pending_live := fun _ hc => absurd hc List.not_mem_nil
      connected := fun hst => absurd rfl hst }
  recorded :=
    { total := rfl
      live_below := fun _ _ hx => by cases hx
      done_below := fun _ hp => absurd hp List.not_mem_nil
      done_once := List.nodup_nil
      apart := fun _ _ hx => by cases hx
      own := fun _ _ _ _ hx => by cases hx
      waits := fun _ _ _ _ _ hx => by cases hx
      kept := fun _ _ _ hx => by cases hx
      given := fun _ _ hn => absurd hn List.not_mem_nil }

theorem along_inv : Along (step is_error) (Inv is_error) (new m_passwd) moves := by
  refine along_of_each (Inv is_error) (fun _ _ => True) (fun s m s' h _ hs => ?_) moves _
    (inv_new is_error m_passwd) (each_true _ _)
  rcases h.step m with ⟨-, e, he⟩ | ⟨-, s'', hs'', hinv⟩
  · cases hs.symm.trans he
  · obtain rfl := Except.ok.inj (hs.symm.trans hs'')
    exact hinv

/-- Along every run of a `FoxRedis`, whatever its connection, its timers and the fibers do: a command
returns at most once, with a reply that came for it and is no error, or with none; each is returned or
still in `cmd`; the count of the `Ctx` is right; and nothing touches what has been freed, but for the
`ping` of the timer once the connection has gone. -/
theorem commands_answered_once : Along (step is_error) (fun s =>
    (s.returned.map Prod.fst).Nodup ∧ s.returned.length + s.fctxs.length = s.issued ∧
    (∀ n r, (n, some r) ∈ s.returned → (n, r) ∈ s.answered ∧ is_error r = false) ∧
    s.m_ctxCount = s.ctxs.length ∧
    ∀ m, (∃ e, step is_error s m = .error e) ↔ PingsFreed s m) (new m_passwd) moves := by
  refine (along_inv is_error m_passwd moves).mono fun s h =>
    ⟨h.recorded.done_once, h.recorded.total, h.recorded.given, h.books.count, fun m => ?_⟩
  rcases h.step m with ⟨hbad, herror⟩ | ⟨hgood, s', hs', -⟩
  · exact ⟨fun _ => hbad, fun _ => herror⟩
  · refine ⟨fun herror => ?_, fun hbad => absurd hbad hgood⟩
    obtain ⟨e, he⟩ := herror
    cases hs'.symm.trans he

/-- Nobody has anything left to do for a fiber: no call waits for the thread, no timer runs and no
fiber is scheduled. -/
structure Quiet (s : FoxRedis F R) : Prop where
  dispatched : s.dispatched = []
  timers : ∀ p ∈ s.ctxs, p.2.ev = false
  scheduled : s.scheduled = []

/-- No command is lost: once the timers have ended and the fibers have run, every call of `cmd` has
returned, whatever the connection did. -/
theorem no_command_lost : Along (step is_error)
    (fun s => Quiet s → s.fctxs = [] ∧ s.returned.length = s.issued) (new m_passwd) moves := by
  refine (along_inv is_error m_passwd moves).mono fun s h hquiet => ?_
  have hnone : ∀ f, Assoc.find s.fctxs f = none := by
    intro f
    obtain ⟨p, hp⟩ := h.placed.somewhere f
    rw [hp.gone]
    cases p with
    | none => rfl
    | some q =>
      exfalso
      cases q with
      | sent => simpa [FoxRedis.sent, hquiet.dispatched] using hp.sent
      | ready => simpa [hquiet.scheduled] using hp.ready
      | waits c =>
        obtain ⟨-, ctx, hctx, -, htimeout⟩ := (hp.waits c).mpr rfl
        have hev := h.books.ev c ctx hctx
        rw [hquiet.timers _ (Assoc.mem_of_find hctx), htimeout] at hev
        cases hev
  have hempty : s.fctxs = [] := by
    cases hl : s.fctxs with
    | nil => rfl
    | cons p l =>
      have hfind := hnone p.1
      rw [hl, Assoc.find_cons, if_pos rfl] at hfind
      cases hfind
  have htotal := h.recorded.total
  rw [hempty, List.length_nil, Nat.add_zero] at htotal
  exact ⟨hempty, htotal⟩

end FoxRedis

end Sylar
