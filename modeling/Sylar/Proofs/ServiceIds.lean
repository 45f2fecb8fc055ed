import Sylar.Lib.Digits
import Sylar.Lib.Partial
import Sylar.Spec.NameServer
import Sylar.Spec.ServiceDiscovery

/-! An id packs an address and a port. It tells registrations apart where the address is one and
the port has 16 bits, and what is not an address is registered under `INADDR_NONE`. -/

namespace Sylar

open Lib

/-- `inet_addr`, by the address that a string in the notation of numbers and dots stands for. -/
def inetAddr (address : String → Option UInt32) (cp : String) : UInt32 :=
  (address cp).getD 0xffffffff

/-- What is given for a registration, and the id of one that is accepted. -/
structure ServiceRegistration where
  ip : String
  port : ℕ
  id : Option UInt64

namespace ServiceRegistration

variable (address : String → Option UInt32)

def Valid (r : ServiceRegistration) : Prop := (address r.ip).isSome = true ∧ r.port ≤ 65535

/-- Only what is valid is accepted, and two that are accepted have one id only when they have the
same address and port. -/
structure Identified (r₁ r₂ : ServiceRegistration) : Prop where
  first : r₁.id.isSome = true → r₁.Valid address
  second : r₂.id.isSome = true → r₂.Valid address
  id_inj : r₁.id.isSome = true → r₁.id = r₂.id →
    address r₁.ip = address r₂.ip ∧ r₁.port = r₂.port

/-- How both kinds of registrations come to an id. -/
structure Packs (r : ServiceRegistration) (refused : Prop) : Prop where
  none : refused → r.id = none
  some : ¬ refused → ∃ bits : UInt64, (r.port ≤ 65535 → bits.toNat = r.port) ∧
    r.id = some ((inetAddr address r.ip).toUInt64 <<< 32 ||| bits)

end ServiceRegistration

theorem toNat_pack (ip : UInt32) {port : UInt64} (h : port.toNat < 2 ^ 32) :
    (ip.toUInt64 <<< 32 ||| port).toNat = port.toNat + 2 ^ 32 * ip.toNat := by
  have hip := ip.toNat_lt
  have hhigh : (ip.toUInt64 <<< 32).toNat = ip.toNat <<< 32 := by
    rw [UInt64.toNat_shiftLeft, UInt32.toNat_toUInt64, show (32 : UInt64).toNat % 64 = 32 from rfl,
      Nat.shiftLeft_eq, Nat.mod_eq_of_lt (by omega)]
  rw [UInt64.toNat_or, hhigh, Nat.or_comm, or_shiftLeft h]

theorem pack_inj {ip ip' : UInt32} {port port' : UInt64} (h : port.toNat < 2 ^ 32)
    (h' : port'.toNat < 2 ^ 32)
    (heq : ip.toUInt64 <<< 32 ||| port = ip'.toUInt64 <<< 32 ||| port') :
    ip = ip' ∧ port.toNat = port'.toNat := by
  have hnat := congrArg UInt64.toNat heq
  rw [toNat_pack ip h, toNat_pack ip' h'] at hnat
  exact ⟨UInt32.toNat_inj.mp (by omega), by omega⟩

theorem pack_shiftRight (ip : UInt32) (port : UInt16) :
    (ip.toUInt64 <<< 32 ||| port.toUInt64) >>> 32 = 0 ↔ ip = 0 := by
  have hport := port.toNat_lt
  rw [← UInt64.toNat_inj, UInt64.toNat_shiftRight, toNat_pack ip (by
    rw [UInt16.toNat_toUInt64]
    omega), UInt16.toNat_toUInt64, show (32 : UInt64).toNat % 64 = 32 from rfl,
    Nat.shiftRight_eq_div_pow, ← UInt32.toNat_inj]
  change _ = 0 ↔ _ = 0
  omega

namespace ServiceRegistration

variable {address : String → Option UInt32} {r r₁ r₂ : ServiceRegistration}
variable {refused refused₁ refused₂ : Prop}

theorem Packs.valid_iff (h : r.Packs address refused) :
    (r.id.isSome = true → r.Valid address) ↔ refused ∨ r.Valid address := by
  by_cases href : refused
  · rw [h.none href]
    exact ⟨fun _ => .inl href, fun _ hsome => by cases hsome⟩
  · obtain ⟨bits, -, hid⟩ := h.some href
    rw [hid]
    exact ⟨fun hvalid => .inr (hvalid rfl), fun hor _ => hor.resolve_left href⟩

theorem identified_iff (h₁ : r₁.Packs address refused₁) (h₂ : r₂.Packs address refused₂) :
    Identified address r₁ r₂ ↔
      (refused₁ ∨ r₁.Valid address) ∧ (refused₂ ∨ r₂.Valid address) := by
  rw [← h₁.valid_iff, ← h₂.valid_iff]
  refine ⟨fun h => ⟨h.first, h.second⟩, fun ⟨hfirst, hsecond⟩ => ⟨hfirst, hsecond, ?_⟩⟩
  intro hsome heq
  obtain ⟨haddr₁, hport₁⟩ := hfirst hsome
  obtain ⟨haddr₂, hport₂⟩ := hsecond (heq ▸ hsome)
  have hacc₁ : ¬ refused₁ := fun href => by
    rw [h₁.none href] at hsome
    cases hsome
  have hacc₂ : ¬ refused₂ := fun href => by
    rw [heq, h₂.none href] at hsome
    cases hsome
  obtain ⟨bits₁, hbits₁, hid₁⟩ := h₁.some hacc₁
  obtain ⟨bits₂, hbits₂, hid₂⟩ := h₂.some hacc₂
  have hpack := hid₁.symm.trans (heq.trans hid₂)
  have hb₁ := hbits₁ hport₁
  have hb₂ := hbits₂ hport₂
  obtain ⟨hip, hport⟩ := pack_inj (by omega) (by omega) (Option.some.inj hpack)
  obtain ⟨a₁, ha₁⟩ := Option.isSome_iff_exists.mp haddr₁
  obtain ⟨a₂, ha₂⟩ := Option.isSome_iff_exists.mp haddr₂
  unfold inetAddr at hip
  rw [ha₁, ha₂] at hip
  exact ⟨by rw [ha₁, ha₂]; exact congrArg some hip, by omega⟩

end ServiceRegistration

theorem inetAddr_eq_zero {address : String → Option UInt32} {cp : String} :
    inetAddr address cp = 0 ↔ address cp = some 0 := by
  unfold inetAddr
  cases h : address cp with
  | none => simp
  | some a => simp

namespace NameServerModule

/-- A node of a request, with everything else that its info has to have. -/
structure Node where
  domain : String
  cmd : UInt32
  cmds : List UInt32
  ip : String
  port : UInt32
  weight : UInt32

def Node.info (x : Node) : RegisterInfo :=
  ⟨some x.domain, x.cmd :: x.cmds, some ⟨some x.ip, some x.port, some x.weight⟩⟩

def Node.registration (address : String → Option UInt32) (x : Node) : ServiceRegistration where
  ip := x.ip
  port := x.port.toNat
  id := (checkInfo (inetAddr address) x.info).toOption.map fun r => r.1.m_id

theorem Node.packs (address : String → Option UInt32) (x : Node) :
    (x.registration address).Packs address (address x.ip = some 0) := by
  have hcheck : checkInfo (inetAddr address) x.info =
      if inetAddr address x.ip = 0 then .error .ipInvalid
      else .ok (NSNode.new (inetAddr address) x.ip x.port.toUInt16 x.weight, x.domain) := by
    simp only [checkInfo, Node.info, NSNode.new, NSNode.GetID, pack_shiftRight, reduceCtorEq,
      if_false]
  refine ⟨fun href => ?_, fun href => ⟨x.port.toUInt16.toUInt64, fun hport => ?_, ?_⟩⟩
  · simp only [Node.registration, hcheck, if_pos (inetAddr_eq_zero.mpr href)]
    rfl
  · rw [UInt16.toNat_toUInt64, UInt32.toNat_toUInt16]
    exact Nat.mod_eq_of_lt (Nat.lt_succ_of_le hport)
  · simp only [Node.registration, hcheck, if_neg (inetAddr_eq_zero.not.mpr href)]
    rfl

theorem registerInfos_checked {inet_addr : String → UInt32} {old : Option NSClientInfo} :
    ∀ {infos : List RegisterInfo} {new new' : Option NSClientInfo},
      registerInfos inet_addr old new infos = .ok new' →
      ∀ info ∈ infos, ∃ r, checkInfo inet_addr info = .ok r
  | [], _, _, _, info, hinfo => by cases hinfo
  | i :: infos, new, new', h, info, hinfo => by
    rw [registerInfos] at h
    cases hi : registerInfo inet_addr old new i with
    | error e =>
      rw [hi] at h
      cases h
    | ok v =>
      rw [hi] at h
      rcases List.mem_cons.mp hinfo with rfl | hinfo
      · cases hcheck : checkInfo inet_addr info with
        | error e =>
          rw [registerInfo, hcheck] at hi
          cases hi
        | ok r => exact ⟨r, rfl⟩
      · exact registerInfos_checked h info hinfo

section

variable {R : Type} [DecidableEq R] {s s' : NameServerModule R} {rs : R} {isConnected : Bool}

theorem handleRegister_checked {inet_addr : String → UInt32} {infos : List RegisterInfo}
    (h : s.handleRegister inet_addr rs isConnected (some infos) = .ok s') :
    ∀ info ∈ infos, ∃ r, checkInfo inet_addr info = .ok r := by
  cases hinfos : registerInfos inet_addr (s.get rs) none infos with
  | error e =>
    simp only [handleRegister, hinfos, reduceCtorEq] at h
  | ok v => exact registerInfos_checked hinfos

/-- From a stream with no registration yet, a node is accepted exactly when it gets an id. -/
theorem handleRegister_single (address : String → Option UInt32) (x : Node)
    (hnew : s.get rs = none) :
    (∃ s', s.handleRegister (inetAddr address) rs isConnected (some [x.info]) = .ok s') ↔
      (x.registration address).id.isSome = true := by
  constructor
  · rintro ⟨s', hs'⟩
    obtain ⟨r, hr⟩ := handleRegister_checked hs' x.info List.mem_cons_self
    unfold Node.registration
    rw [hr]
    rfl
  · intro hid
    cases hcheck : checkInfo (inetAddr address) x.info with
    | error e =>
      unfold Node.registration at hid
      rw [hcheck] at hid
      cases hid
    | ok r =>
      simp only [handleRegister, registerInfos, registerInfo, hnew, hcheck, Option.any_none,
        Bool.false_eq_true, if_false, Except.ok.injEq, exists_eq']

end

end NameServerModule

namespace ServiceItemInfo

def registration (address : String → Option UInt32) (ip_and_port data : String) :
    ServiceRegistration where
  ip := ip ip_and_port
  port := (port ip_and_port).toNat
  id := (Create (inetAddr address) ip_and_port data).map m_id

theorem packs (address : String → Option UInt32) (ip_and_port data : String) :
    (registration address ip_and_port data).Packs address
      (':' ∉ ip_and_port.toList ∨ address (ip ip_and_port) = some 0) := by
  refine ⟨fun href => ?_, fun href => ⟨port ip_and_port, fun _ => rfl, ?_⟩⟩
  · unfold registration Create
    rcases href with hcolon | hzero
    · simp only [if_pos hcolon, Option.map_none]
    · simp only [inetAddr_eq_zero.mpr hzero, if_true, ite_self, Option.map_none]
  · rw [not_or] at href
    unfold registration Create
    simp only [if_neg href.1, if_neg (inetAddr_eq_zero.not.mpr href.2), Option.map_some]

end ServiceItemInfo

/-- For all nodes of requests, all strings and whatever the addresses are. -/
theorem registrations_identified_iff (address : String → Option UInt32) :
    (∀ x₁ x₂ : NameServerModule.Node,
      (ServiceRegistration.Identified address (x₁.registration address) (x₂.registration address) ↔
        ∀ x ∈ [x₁, x₂], address x.ip = some 0 ∨ (x.registration address).Valid address)) ∧
    ∀ s₁ d₁ s₂ d₂ : String,
      (ServiceRegistration.Identified address (ServiceItemInfo.registration address s₁ d₁)
          (ServiceItemInfo.registration address s₂ d₂) ↔
        ∀ s ∈ [(s₁, d₁), (s₂, d₂)],
          (':' ∉ s.1.toList ∨ address (ServiceItemInfo.ip s.1) = some 0) ∨
            (ServiceItemInfo.registration address s.1 s.2).Valid address) := by
  constructor
  · intro x₁ x₂
    rw [ServiceRegistration.identified_iff (x₁.packs address) (x₂.packs address)]
    simp
  · intro s₁ d₁ s₂ d₂
    rw [ServiceRegistration.identified_iff (ServiceItemInfo.packs address s₁ d₁)
      (ServiceItemInfo.packs address s₂ d₂)]
    simp

def hosts (cp : String) : Option UInt32 := if cp = "10.0.0.1" then some 0x0100000a else none

/-- Neither is an address, and both are registered under one id. -/
theorem registrations_collide :
    ¬ ∀ (address : String → Option UInt32) (x₁ x₂ : NameServerModule.Node),
      ServiceRegistration.Identified address (x₁.registration address) (x₂.registration address) := by
  intro hall
  have h := hall hosts ⟨"a", 1, [], "host-a", 80, 1⟩ ⟨"a", 1, [], "host-b", 65616, 1⟩
  have hport := (h.id_inj rfl rfl).2
  exact absurd hport (by decide)

end Sylar
