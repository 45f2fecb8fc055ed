import Sylar.Proofs.HttpParams

/-! The query split at `&` against what `initQueryParam` makes of it. The loop looks for `=` first, so a
component without one is taken for a part of the name behind it. -/

namespace Sylar

open Lib

open StringUtil (UrlDecode)

def withQuery (version : UInt8) (close : Bool) (query : List UInt8) : HttpRequest :=
  { HttpRequest.new version close with m_query := query }

/-- The names and values that `initQueryParam` gives to `m_params.insert`, in their order. -/
def insertions (query : List UInt8) : List (List UInt8 × List UInt8) :=
  PARSE_PARAM (fun l pair => l ++ [pair]) query [] 0x26 id 0

def components (query : List UInt8) : List (List UInt8) := query.splitOn 0x26

/-- Of the components with a `=` one has a name that is equal to this for the map. -/
def OccursOnce (query name : List UInt8) : Prop :=
  (fields 0x3D (components query)).countP (fun f => strcasecmp f.1 name = .eq) = 1

structure Componentwise (version : UInt8) (close : Bool) (query : List UInt8) : Prop where
  names : ∀ i ∈ (withQuery version close query).initQueryParam.m_params, 0x26 ∉ i.1
  bound : ∀ name value, name ++ 0x3D :: value ∈ components query → 0x3D ∉ name →
    OccursOnce query name →
    (withQuery version close query).initQueryParam.m_params.find name = some (UrlDecode value true)
  bare : ∀ pre c post, components query = pre ++ c :: post → 0x3D ∉ c →
    insertions ([0x26].intercalate (pre ++ post)) = insertions query

theorem ampersand_ne : (0x26 : UInt8) ≠ 0x3D := by decide

theorem insertions_eq (query : List UInt8) : insertions query =
    (runTogether 0x3D 0x26 [] (components query)).map (decoded id) := by
  have h := PARSE_PARAM_eq (fun l pair => l ++ [pair]) id ampersand_ne query [] []
  rw [List.foldl_append_eq_append, ← List.flatMap_def, List.flatMap_singleton'] at h
  exact h

theorem m_params_eq (version : UInt8) (close : Bool) (query : List UInt8) :
    (withQuery version close query).initQueryParam.m_params =
      ((runTogether 0x3D 0x26 [] (components query)).map (decoded id)).foldl MapType.insert [] := by
  have h := PARSE_PARAM_eq MapType.insert id ampersand_ne query [] []
  rw [HttpRequest.initQueryParam, if_neg (by simp [withQuery, HttpRequest.new])]
  exact h

theorem mem_fields {name value : List UInt8} {cs : List (List UInt8)} :
    (name, value) ∈ fields 0x3D cs ↔ name ++ 0x3D :: value ∈ cs ∧ 0x3D ∉ name := by
  rw [fields, List.mem_filterMap]
  constructor
  · rintro ⟨c, hc, hcut⟩
    obtain ⟨rfl, hname⟩ := cut_singleton_eq_some.mp hcut
    exact ⟨hc, hname⟩
  · rintro ⟨hc, hname⟩
    exact ⟨_, hc, cut_singleton hname value⟩

section

variable {query : List UInt8} (h : BareLast 0x3D (components query))
include h

theorem names_of_bareLast (version : UInt8) (close : Bool) :
    ∀ i ∈ (withQuery version close query).initQueryParam.m_params, 0x26 ∉ i.1 := by
  intro i hi hmem
  rw [m_params_eq, runTogether_of_bareLast h] at hi
  rcases MapType.mem_of_mem_foldl_insert _ _ hi with hi | hi
  · cases hi
  · obtain ⟨f, hf, rfl⟩ := List.mem_map.mp hi
    have hc := (mem_fields.mp hf).1
    exact not_mem_of_mem_splitOn hc (List.mem_append_left _ hmem)

/-- The first of equal names is bound, and a name that occurs once is the first. -/
theorem bound_of_bareLast (version : UInt8) (close : Bool) {name value : List UInt8}
    (hc : name ++ 0x3D :: value ∈ components query) (hname : 0x3D ∉ name)
    (honce : OccursOnce query name) :
    (withQuery version close query).initQueryParam.m_params.find name =
      some (UrlDecode value true) := by
  have hfield : (name, value) ∈ fields 0x3D (components query) := mem_fields.mpr ⟨hc, hname⟩
  rw [OccursOnce, List.countP_eq_length_filter, List.length_eq_one_iff] at honce
  obtain ⟨f, hf⟩ := honce
  have hunique : ∀ g ∈ fields 0x3D (components query), folded g.1 = folded name → g = f := by
    intro g hg heq
    have : g ∈ (fields 0x3D (components query)).filter fun f => strcasecmp f.1 name = .eq :=
      List.mem_filter.mpr ⟨hg, decide_eq_true ((strcasecmp_eq_iff g.1 name).mpr heq)⟩
    rwa [hf, List.mem_singleton] at this
  have hfind : ((fields 0x3D (components query)).map (decoded id)).find?
      (fun i => folded i.1 = folded name) = some (decoded id (name, value)) := by
    rw [List.find?_map]
    cases hfound : (fields 0x3D (components query)).find?
        ((fun i => decide (folded i.1 = folded name)) ∘ decoded id) with
    | none => exact absurd (List.find?_eq_none.mp hfound _ hfield) (by simp [decoded])
    | some g =>
      have hg : folded g.1 = folded name := by
        have := List.find?_some hfound
        exact of_decide_eq_true this
      rw [hunique g (List.mem_of_find?_eq_some hfound) hg, ← hunique _ hfield rfl, Option.map_some]
  rw [m_params_eq, runTogether_of_bareLast h, MapType.find_foldl_insert, MapType.find_eq _ name,
    MapType.find_eq _ name, hfind]
  rfl

theorem getParam_of_bareLast (version : UInt8) (close : Bool) {name value : List UInt8}
    (hc : name ++ 0x3D :: value ∈ components query) (hname : 0x3D ∉ name)
    (honce : OccursOnce query name) (dflt : List UInt8) :
    ((withQuery version close query).getParam name dflt).1 = UrlDecode value true := by
  have hbody : (withQuery version close query).initQueryParam.initBodyParam.m_params =
      (withQuery version close query).initQueryParam.m_params := by
    apply HttpRequest.m_params_of_not_form
    rw [HttpRequest.getHeader, HttpRequest.m_headers_initQueryParam]
    exact (by decide : strcasestr [] (ascii "application/x-www-form-urlencoded") = false)
  rw [HttpRequest.getParam, hbody, bound_of_bareLast h version close hc hname honce, Option.getD_some]

end

theorem runTogether_intercalate {query : List UInt8} {cs : List (List UInt8)}
    (hcs : ∀ c ∈ cs, c ∈ components query) :
    runTogether 0x3D 0x26 [] (components ([0x26].intercalate cs)) = runTogether 0x3D 0x26 [] cs := by
  by_cases hnil : cs = []
  · rw [hnil]
    exact runTogether_eq_nil (by simp [components])
  · rw [components,
      List.splitOn_intercalate 0x26 (fun c hc => not_mem_of_mem_splitOn (hcs c hc)) hnil]

theorem removed_sublist {query c : List UInt8} {pre post : List (List UInt8)}
    (hsplit : components query = pre ++ c :: post) : (pre ++ post).Sublist (components query) := by
  rw [hsplit]
  exact (List.Sublist.refl pre).append (List.sublist_cons_self c post)

theorem componentwise_iff (version : UInt8) (close : Bool) (query : List UInt8) :
    Componentwise version close query ↔ BareLast 0x3D (components query) := by
  constructor
  · intro h
    by_contra hnot
    obtain ⟨pre, c, name, value, post, hsplit, hc, hname⟩ := exists_of_not_bareLast hnot
    -- the component before a field is a part of its name
    have hbare := h.bare pre c ((name ++ 0x3D :: value) :: post) hsplit hc
    rw [insertions_eq, insertions_eq, runTogether_intercalate fun _ => (removed_sublist hsplit).mem,
      hsplit] at hbare
    have hnames := congrArg (List.map Prod.fst) hbare
    rw [List.map_map, List.map_map] at hnames
    exact names_ne hc hname pre post [] hnames
  · intro h
    refine ⟨names_of_bareLast h version close, fun name value hc hname honce =>
      bound_of_bareLast h version close hc hname honce, fun pre c post hsplit hc => ?_⟩
    rw [insertions_eq, insertions_eq, runTogether_intercalate fun _ => (removed_sublist hsplit).mem,
      runTogether_of_bareLast (h.sublist (removed_sublist hsplit)), runTogether_of_bareLast h, hsplit,
      fields_append, fields_append, fields_bare hc]

/-- `a&b=1` gives the name `a&b`. -/
theorem bare_component_joins : ¬ Componentwise 0x11 false (ascii "a&b=1") := by
  intro h
  have := h.names (ascii "a&b", ascii "1") (by decide +kernel)
  revert this
  decide

end Sylar
