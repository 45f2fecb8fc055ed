import Sylar.Lib.Partial
import Sylar.Proofs.BitmapCompress

/-! Which uncompressed bitmaps have their flag bits clear. A program creates
bitmaps and changes them by the public operations; the words stay clean exactly as
long as no word is filled with a flag bit set and none is complemented. -/

namespace Sylar

open Lib

namespace Bitmap

/-- The public operations on the bitmaps of a program, which are numbered in the
order of their creation. -/
inductive Op where
  | create (size : ℕ) (def_ : UInt8)
  | set (k idx : ℕ) (v : Bool)
  | compl (k : ℕ)
  | andAssign (k j : ℕ)
  | orAssign (k j : ℕ)
  | resize (k size : ℕ) (v : Bool)

def deref (s : List Bitmap) (k : ℕ) : Except Fault Bitmap :=
  match s[k]? with
  | none => .error .nullDeref
  | some b => .ok b

def update (s : List Bitmap) (k : ℕ) (f : Bitmap → Except Fault Bitmap) :
    Except Fault (List Bitmap) := do
  let b ← deref s k
  let b ← f b
  .ok (s.set k b)

def step (s : List Bitmap) : Op → Except Fault (List Bitmap)
  | .create size def_ => .ok (s ++ [new size def_])
  | .set k idx v => update s k fun b => b.set idx v
  | .compl k => update s k compl
  | .andAssign k j => do
      let b ← deref s j
      update s k fun a => a.andAssign b
  | .orAssign k j => do
      let b ← deref s j
      update s k fun a => a.orAssign b
  | .resize k size v => update s k fun b => b.resize size v

/-- Sizes are `uint32_t`, an index is below the size, operands are equally long. -/
def Allowed (s : List Bitmap) : Op → Prop
  | .create size _ => size < 2 ^ 32
  | .set k idx _ => ∀ b, s[k]? = some b → idx < b.getSize
  | .compl _ => True
  | .andAssign k j => ∀ a b, s[k]? = some a → s[j]? = some b → a.getSize = b.getSize
  | .orAssign k j => ∀ a b, s[k]? = some a → s[j]? = some b → a.getSize = b.getSize
  | .resize _ size _ => size < 2 ^ 32

/-- The operation fills no word with a flag bit and complements none. -/
def KeepsFlags (s : List Bitmap) : Op → Prop
  | .create size def_ => size = 0 ∨ def_ < 0x40
  | .compl k => ∀ b, s[k]? = some b → b.getSize = 0
  | .resize k size v => ∀ b, s[k]? = some b → v = false ∨ wordsFor size ≤ wordsFor b.getSize
  | _ => True

def AllClean (b : Bitmap) : Prop := ∀ w ∈ b.m_data, Clean w

/-- Both bytes of a word are `d`, so the flag bits are the top bits of `d`. -/
theorem clean_memsetWord (d : UInt8) : Clean (memsetWord d) ↔ d < 0x40 := by
  have h14 : (memsetWord d).getLsbD 14 = d.toBitVec.getLsbD 6 := BitVec.getLsbD_append
  have h15 : (memsetWord d).getLsbD 15 = d.toBitVec.getLsbD 7 := BitVec.getLsbD_append
  have hd : d.toNat < 256 := d.toNat_lt
  rw [Clean, h14, h15, UInt8.lt_iff_toNat_lt, BitVec.getLsbD, BitVec.getLsbD,
    Nat.testBit_eq_decide_div_mod_eq, Nat.testBit_eq_decide_div_mod_eq, UInt8.toNat_toBitVec,
    decide_eq_false_iff_not, decide_eq_false_iff_not]
  change _ ↔ d.toNat < 64
  omega

theorem Clean.or {w x : Word} (hw : Clean w) (hx : Clean x) : Clean (w ||| x) := by
  obtain ⟨h14, h15⟩ := hw
  obtain ⟨k14, k15⟩ := hx
  exact ⟨by rw [BitVec.getLsbD_or, h14, k14]; rfl, by rw [BitVec.getLsbD_or, h15, k15]; rfl⟩

theorem Clean.and {w : Word} (hw : Clean w) (x : Word) : Clean (w &&& x) := by
  obtain ⟨h14, h15⟩ := hw
  exact ⟨by rw [BitVec.getLsbD_and, h14]; rfl, by rw [BitVec.getLsbD_and, h15]; rfl⟩

theorem clean_POS {i : ℕ} (h : i < VALUE_SIZE) : Clean (POS i) := by
  unfold VALUE_SIZE at h
  interval_cases i <;> exact ⟨rfl, rfl⟩

theorem Clean.not_compl {w : Word} (hw : Clean w) : ¬ Clean (~~~w) := by
  rintro ⟨h, -⟩
  rw [BitVec.getLsbD_not, hw.1] at h
  exact absurd h (by decide)

theorem store_ok {data data' : List Word} {i : ℕ} {f : Word → Word}
    (h : store data i f = .ok data') : ∃ w, data[i]? = some w ∧ data' = data.set i (f w) := by
  unfold store at h
  split at h
  · exact absurd h (by rintro ⟨⟩)
  · rename_i w hw
    exact ⟨w, hw, (Except.ok.inj h).symm⟩

theorem set_flags {b b' : Bitmap} {idx : ℕ} {v : Bool} (hb : Plain b) (hclean : AllClean b)
    (h : b.set idx v = .ok b') : Plain b' ∧ AllClean b' := by
  obtain ⟨data, hstore, rfl⟩ : ∃ data, _ ∧ _ = b' := by
    obtain ⟨data, hstore, hret⟩ := ok_of_bind h
    exact ⟨data, hstore, Except.ok.inj hret⟩
  obtain ⟨w, hw, rfl⟩ := store_ok hstore
  have hpos : idx % VALUE_SIZE < VALUE_SIZE := Nat.mod_lt _ (by decide)
  refine ⟨⟨hb.1, by rw [List.length_set]; exact hb.2⟩, fun x hx => ?_⟩
  rcases List.mem_or_eq_of_mem_set hx with hx | rfl
  · exact hclean x hx
  · have hw' : Clean w := hclean w (List.mem_of_getElem? hw)
    cases v with
    | true => exact hw'.or (clean_POS hpos)
    | false => exact hw'.and _

theorem lane_not {x : BitVec 64} {i : ℕ} (hi : i < 4) : lane (~~~x) i = ~~~lane x i := by
  ext k hk
  have hlt : 16 * i + k < 64 := by omega
  rw [lane, BitVec.getElem_extractLsb', BitVec.getLsbD_not, decide_eq_true hlt, Bool.true_and,
    BitVec.getElem_not, lane, BitVec.getElem_extractLsb']

theorem complGroups_eq : ∀ (n : ℕ) (as : List Word), 4 * n ≤ as.length →
    complGroups n as = .ok (as.map (~~~·)) := by
  intro n
  induction n with
  | zero => intro as _; rfl
  | succ n ih =>
    intro as hn
    match as, hn with
    | a₀ :: a₁ :: a₂ :: a₃ :: as, hn =>
      obtain ⟨h₀, h₁, h₂, h₃⟩ := lane_pack a₀ a₁ a₂ a₃
      have hlane := @lane_not (pack a₀ a₁ a₂ a₃)
      rw [complGroups, ih as (by simp only [List.length_cons] at hn; omega)]
      change Except.ok (_ :: _ :: _ :: _ :: _) = _
      rw [hlane (i := 0) (by decide), hlane (i := 1) (by decide), hlane (i := 2) (by decide),
        hlane (i := 3) (by decide), h₀, h₁, h₂, h₃]
      rfl
    | [], hn => simp at hn
    | [_], hn => simp at hn; omega
    | [_, _], hn => simp at hn; omega
    | [_, _, _], hn => simp at hn; omega

theorem compl_plain {b : Bitmap} (hb : Plain b) :
    b.compl = .ok { b with m_data := b.m_data.map (~~~·) } := by
  have hgroups := complGroups_eq (b.m_size / U64_VALUE_SIZE) b.m_data
    (by rw [hb.2]; exact groups_le b.m_size)
  rw [compl, hb.1, if_pos (by decide), hgroups]
  rfl

theorem wordsFor_eq_zero {size : ℕ} : wordsFor size = 0 ↔ size = 0 := by
  unfold wordsFor VALUE_SIZE
  omega

theorem compl_flags {b b' : Bitmap} (hb : Plain b) (hclean : AllClean b)
    (h : b.compl = .ok b') : Plain b' ∧ (AllClean b' ↔ b.getSize = 0) := by
  obtain rfl := Except.ok.inj ((compl_plain hb).symm.trans h)
  refine ⟨⟨hb.1, by rw [List.length_map]; exact hb.2⟩, ?_⟩
  rw [getSize, ← wordsFor_eq_zero, ← hb.2, List.length_eq_zero_iff]
  constructor
  · intro hall
    -- the complement of a clean word is not clean, so there is no word
    refine List.eq_nil_iff_forall_not_mem.mpr fun w hw => ?_
    exact (hclean w hw).not_compl (hall _ (List.mem_map_of_mem hw))
  · intro hnil w hw
    rw [hnil] at hw
    exact absurd hw (by simp)

theorem assign_flags {sym : String} {f64 : BitVec 64 → BitVec 64 → BitVec 64}
    {f : Word → Word → Word} (hlane : Laned f64 f)
    (hf : ∀ x y, Clean x → Clean y → Clean (f x y))
    {onRun : List Word → ℕ → ℕ → Bool → Except Fault (List Word)} {a b r : Bitmap}
    (ha : Plain a) (hb : Plain b) (hsize : a.getSize = b.getSize) (hca : AllClean a)
    (hcb : AllClean b) (h : assignWith sym f64 f onRun a b = .ok r) : Plain r ∧ AllClean r := by
  obtain ⟨heq, hplain⟩ := assignWith_plain hlane ha hb hsize
  obtain rfl := Except.ok.inj (heq.symm.trans h)
  refine ⟨hplain, fun w hw => ?_⟩
  rw [← List.map_uncurry_zip_eq_zipWith] at hw
  obtain ⟨⟨x, y⟩, hxy, rfl⟩ := List.mem_map.mp hw
  obtain ⟨hx, hy⟩ := List.of_mem_zip hxy
  exact hf x y (hca x hx) (hcb y hy)

theorem clean_append_fill {data : List Word} (h : ∀ w ∈ data, Clean w) (n : ℕ) :
    ∀ w ∈ data ++ List.replicate n (memsetWord 0), Clean w := by
  intro w hw
  rcases List.mem_append.mp hw with hw | hw
  · exact h w hw
  · rw [List.eq_of_mem_replicate hw]
    exact (clean_memsetWord 0).mpr (by decide)

/-- The last of the words filled with ones keeps its flags, also when it is the
word whose tail is set. -/
theorem not_clean_set_fill {data : List Word} {n i : ℕ} (hn : 0 < n) {w : Word}
    (hw : (data ++ List.replicate n (memsetWord 0xFF))[i]? = some w) (m : Word) :
    ¬ ∀ x ∈ (data ++ List.replicate n (memsetWord 0xFF)).set i (w ||| m), Clean x := by
  intro hall
  have hones : ¬ Clean (memsetWord 0xFF) := fun h => absurd ((clean_memsetWord _).mp h) (by decide)
  have hlast : (data ++ List.replicate n (memsetWord 0xFF))[data.length + (n - 1)]? =
      some (memsetWord 0xFF) := by
    rw [List.getElem?_append_right (by omega), List.getElem?_replicate, if_pos (by omega)]
  by_cases hi : i = data.length + (n - 1)
  · obtain rfl : memsetWord 0xFF = w := Option.some.inj (hlast.symm.trans (hi ▸ hw))
    have hmem := hall _ (List.mem_set (List.getElem?_eq_some_iff.mp hw).1 _)
    refine hones ⟨?_, ?_⟩
    · exact (Bool.or_eq_false_iff.mp (BitVec.getLsbD_or ▸ hmem.1)).1
    · exact (Bool.or_eq_false_iff.mp (BitVec.getLsbD_or ▸ hmem.2)).1
  · refine hones (hall _ (List.mem_of_getElem? (i := data.length + (n - 1)) ?_))
    rw [List.getElem?_set_ne hi, hlast]

theorem resize_flags {b b' : Bitmap} {size : ℕ} {v : Bool} (hb : Plain b) (hclean : AllClean b)
    (h : b.resize size v = .ok b') :
    Plain b' ∧ (AllClean b' ↔ v = false ∨ wordsFor size ≤ wordsFor b.getSize) := by
  rw [resize, hb.1, if_neg Bool.false_ne_true] at h
  dsimp only at h
  split at h
  · rename_i hgrow
    obtain ⟨data, hstore, hret⟩ := ok_of_bind h
    obtain ⟨w, hw, rfl⟩ := store_ok hstore
    obtain rfl := Except.ok.inj hret
    have hleft : b.m_size % VALUE_SIZE < VALUE_SIZE := Nat.mod_lt _ (by decide)
    have hmore : ¬ wordsFor size ≤ wordsFor b.getSize := by
      rw [getSize, ← hb.2]
      omega
    refine ⟨⟨rfl, ?_⟩, ?_⟩
    · simp only [List.length_set, List.length_append, List.length_replicate]
      omega
    · cases v with
      | false =>
        refine ⟨fun _ => Or.inl rfl, fun _ x hx => ?_⟩
        have hnew := clean_append_fill hclean (wordsFor size - b.m_data.length)
        rcases List.mem_or_eq_of_mem_set hx with hx | rfl
        · exact hnew x hx
        · exact (hnew w (List.mem_of_getElem? hw)).and _
      | true =>
        refine ⟨fun hall => absurd hall ?_, fun h => absurd h (by simpa using hmore)⟩
        exact not_clean_set_fill (by omega) hw _
  · rename_i hshort
    obtain rfl := Except.ok.inj h
    have hlen : wordsFor size ≤ b.m_data.length := by omega
    refine ⟨⟨rfl, List.length_take_of_le hlen⟩, ?_⟩
    · have hle : wordsFor size ≤ wordsFor b.getSize := by
        rw [getSize, ← hb.2]
        omega
      exact ⟨fun _ => Or.inr hle, fun _ w hw => hclean w (List.mem_of_mem_take hw)⟩

theorem deref_ok {s : List Bitmap} {k : ℕ} {b : Bitmap} (h : deref s k = .ok b) :
    s[k]? = some b := by
  unfold deref at h
  split at h
  · exact absurd h (by rintro ⟨⟩)
  · rename_i c hc
    rw [hc, Except.ok.inj h]

/-- Changing the `k`-th bitmap leaves all of them clean exactly if it is clean. -/
theorem update_flags {s s' : List Bitmap} {k : ℕ} {f : Bitmap → Except Fault Bitmap}
    (hplain : ∀ b ∈ s, Plain b) (hclean : ∀ b ∈ s, AllClean b) {Q : Prop}
    (hf : ∀ b b', s[k]? = some b → f b = .ok b' → Plain b' ∧ (AllClean b' ↔ Q))
    (h : update s k f = .ok s') : (∀ b ∈ s', Plain b) ∧ ((∀ b ∈ s', AllClean b) ↔ Q) := by
  obtain ⟨b, hb, h⟩ := ok_of_bind h
  obtain ⟨b', hb', h⟩ := ok_of_bind h
  obtain rfl := Except.ok.inj h
  have hk := deref_ok hb
  obtain ⟨hplain', hiff⟩ := hf b b' hk hb'
  refine ⟨fun c hc => ?_, fun hall => ?_, fun hQ c hc => ?_⟩
  · rcases List.mem_or_eq_of_mem_set hc with hc | rfl
    · exact hplain c hc
    · exact hplain'
  · exact hiff.mp (hall b' (List.mem_set (List.getElem?_eq_some_iff.mp hk).1 _))
  · rcases List.mem_or_eq_of_mem_set hc with hc | rfl
    · exact hclean c hc
    · exact hiff.mpr hQ

theorem forall_get_iff {s : List Bitmap} {k : ℕ} {b : Bitmap} (h : s[k]? = some b)
    {Q : Bitmap → Prop} : Q b ↔ ∀ c, s[k]? = some c → Q c := by
  rw [h]
  simp

theorem step_flags (s : List Bitmap) (o : Op) (s' : List Bitmap) (hplain : ∀ b ∈ s, Plain b)
    (hclean : ∀ b ∈ s, AllClean b) (hallowed : Allowed s o) (h : step s o = .ok s') :
    (∀ b ∈ s', Plain b) ∧ ((∀ b ∈ s', AllClean b) ↔ KeepsFlags s o) := by
  have hmem : ∀ {k : ℕ} {b : Bitmap}, s[k]? = some b → Plain b ∧ AllClean b := fun hk =>
    ⟨hplain _ (List.mem_of_getElem? hk), hclean _ (List.mem_of_getElem? hk)⟩
  cases o with
  | create size def_ =>
    obtain rfl := Except.ok.inj h
    simp only [List.forall_mem_append, List.forall_mem_singleton]
    refine ⟨⟨hplain, rfl, List.length_replicate⟩, ?_⟩
    rw [and_iff_right hclean, AllClean, new, List.forall_mem_replicate, wordsFor_eq_zero,
      clean_memsetWord]
    rfl
  | set k idx v =>
    refine update_flags hplain hclean (fun b b' hk hb' => ?_) h
    obtain ⟨hp, hc⟩ := set_flags (hmem hk).1 (hmem hk).2 hb'
    exact ⟨hp, iff_of_true hc trivial⟩
  | compl k =>
    refine update_flags hplain hclean (fun b b' hk hb' => ?_) h
    obtain ⟨hp, hiff⟩ := compl_flags (hmem hk).1 (hmem hk).2 hb'
    exact ⟨hp, hiff.trans (forall_get_iff hk (Q := fun b => b.getSize = 0))⟩
  | andAssign k j =>
    obtain ⟨b, hj, h⟩ := ok_of_bind h
    have hj := deref_ok hj
    refine update_flags hplain hclean (fun a r hk hr => ?_) h
    obtain ⟨hp, hc⟩ := assign_flags laned_and (fun x y hx _ => hx.and y) (hmem hk).1 (hmem hj).1
      (hallowed a b hk hj) (hmem hk).2 (hmem hj).2 hr
    exact ⟨hp, iff_of_true hc trivial⟩
  | orAssign k j =>
    obtain ⟨b, hj, h⟩ := ok_of_bind h
    have hj := deref_ok hj
    refine update_flags hplain hclean (fun a r hk hr => ?_) h
    obtain ⟨hp, hc⟩ := assign_flags laned_or (fun x y hx hy => hx.or hy) (hmem hk).1 (hmem hj).1
      (hallowed a b hk hj) (hmem hk).2 (hmem hj).2 hr
    exact ⟨hp, iff_of_true hc trivial⟩
  | resize k size v =>
    refine update_flags hplain hclean (fun b b' hk hb' => ?_) h
    obtain ⟨hp, hiff⟩ := resize_flags (hmem hk).1 (hmem hk).2 hb'
    exact ⟨hp, hiff.trans (forall_get_iff hk (Q := fun b => v = false ∨ _ ≤ wordsFor b.getSize))⟩

/-- In every run every word of every bitmap has its flag bits clear exactly if
each completed step keeps them clear. -/
theorem flags_clear_iff (ops : List Op) (hallowed : Each step Allowed [] ops) :
    Along step (fun s => ∀ b ∈ s, ∀ w ∈ b.m_data, Clean w) [] ops ↔
      Each step KeepsFlags [] ops :=
  along_iff_each (fun s => ∀ b ∈ s, Plain b) (fun s => ∀ b ∈ s, AllClean b) Allowed KeepsFlags
    step_flags ops [] (by simp) (by simp) hallowed

theorem flags_clear_iff_set_resize :
    Along step (fun s => ∀ b ∈ s, ∀ w ∈ b.m_data, Clean w) []
        [.create 20 0x3F, .set 0 19 true, .resize 0 30 false] ↔
      Each step KeepsFlags [] [.create 20 0x3F, .set 0 19 true, .resize 0 30 false] :=
  flags_clear_iff _ (by simp [Each, step, Allowed, new, getSize])

/-- `~` of a bitmap of one word without bits sets all sixteen of them. -/
theorem compl_sets_flags :
    Each step Allowed [] [.create 14 0, .compl 0] ∧
      ¬ Along step (fun s => ∀ b ∈ s, ∀ w ∈ b.m_data, Clean w) [] [.create 14 0, .compl 0] := by
  refine ⟨by simp [Each, step, Allowed], fun h => ?_⟩
  have hfinal := (h.2 [new 14 0] rfl).2 [⟨false, 14, [0xFFFF#16]⟩] rfl
  have hclean : Clean 0xFFFF#16 := hfinal _ (List.mem_singleton.mpr rfl) _ (by simp)
  exact absurd hclean.1 (by decide)

end Bitmap

end Sylar
