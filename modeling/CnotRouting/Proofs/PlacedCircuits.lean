import CnotRouting.Placements
import Mathlib.Data.List.Nodup
import Mathlib.Data.List.Perm.Subperm

/-!
# Accepted gates and placed circuits

A circuit accepts a gate exactly if it has a target and lists distinct lines of the circuit. A list
of sites is a placement exactly if they are distinct sites of the device. A placement of the right
length then takes a valid circuit to the sites, gate by gate.
-/

namespace CnotRouting

/-- Numbers below a bound that are new and distinct, told by the first of them. -/
private theorem new_cons_iff {n q : Nat} {seen rest : List Nat} (hq : q < n) (hs : q ∉ seen) :
    (∀ r ∈ q :: rest, r < n ∧ r ∉ seen) ∧ (q :: rest).Nodup ↔
      (∀ r ∈ rest, r < n ∧ r ∉ q :: seen) ∧ rest.Nodup := by
  rw [List.nodup_cons, List.forall_mem_cons]
  constructor
  · rintro ⟨⟨-, hrest⟩, hnot, hnodup⟩
    refine ⟨fun r hr => ⟨(hrest r hr).1, fun h => ?_⟩, hnodup⟩
    rcases List.mem_cons.1 h with rfl | h
    · exact hnot hr
    · exact (hrest r hr).2 h
  · rintro ⟨hrest, hnodup⟩
    refine ⟨⟨⟨hq, hs⟩, fun r hr => ⟨(hrest r hr).1, fun h => ?_⟩⟩, fun hr => ?_, hnodup⟩
    · exact (hrest r hr).2 (List.mem_cons_of_mem q h)
    · exact (hrest q hr).2 List.mem_cons_self

theorem firstLineFault?_eq_none_iff {width : Nat} {gate : String} {seen lines : List Nat} :
    firstLineFault? width gate seen lines = none ↔
      (∀ q ∈ lines, q < width ∧ q ∉ seen) ∧ lines.Nodup := by
  induction lines generalizing seen with
  | nil => simp [firstLineFault?]
  | cons q rest ih =>
    rw [firstLineFault?]
    by_cases hq : q < width
    · by_cases hs : q ∈ seen
      · simp [hs, Nat.not_le.2 hq]
      · rw [if_neg (Nat.not_le.2 hq), if_neg hs, ih, new_cons_iff hq hs]
    · simp [Nat.not_lt.1 hq, hq]

/-- A circuit accepts the gates that have a target and list distinct lines of the circuit. -/
theorem Gate.fault?_eq_none_iff {g : Gate} {width : Nat} : g.fault? width = none ↔
    g.targets ≠ [] ∧ g.lines.Nodup ∧ ∀ q ∈ g.lines, q < width := by
  rw [Gate.fault?]
  split
  · simp_all
  · rw [firstLineFault?_eq_none_iff]
    simp_all [and_comm]

theorem Gate.fault?_toffoli {c : Control} {t width : Nat} :
    (toffoli [c] t).fault? width = none ↔ c.line ≠ t ∧ c.line < width ∧ t < width := by
  simp [fault?_eq_none_iff, toffoli, lines]

theorem Gate.mem_lines_of_cnotPair? {g : Gate} {pair : Nat × Nat} (h : g.cnotPair? = some pair) :
    pair.1 ∈ g.lines ∧ pair.2 ∈ g.lines := by
  rw [cnotPair?] at h
  split at h
  · rename_i c t rest _ hcontrols htargets
    cases h
    simp [lines, hcontrols, htargets]
  · cases h

/-- Whether the circuit accepts each of its gates. -/
def Circuit.IsValid (c : Circuit) : Prop := ∀ g ∈ c.gates, g.fault? c.width = none

theorem Circuit.isValid_cnot {name : String} {lines : List Line} {c t : Nat} (hct : c ≠ t)
    (hc : c < lines.length) (ht : t < lines.length) : IsValid ⟨name, lines, [.cnot c t]⟩ := by
  intro g hg
  obtain rfl := List.mem_singleton.1 hg
  exact Gate.fault?_toffoli.2 ⟨hct, hc, ht⟩

theorem Circuit.IsValid.pairs_lt {c : Circuit} (h : c.IsValid) {pair : Nat × Nat}
    (hpair : pair ∈ (Interactions.ofCircuit c).pairs) : pair.1 < c.width ∧ pair.2 < c.width := by
  obtain ⟨g, hg, hpair⟩ := List.mem_filterMap.1 hpair
  obtain ⟨hcontrol, htarget⟩ := Gate.mem_lines_of_cnotPair? hpair
  obtain ⟨-, -, below⟩ := Gate.fault?_eq_none_iff.1 (h g hg)
  exact ⟨below _ hcontrol, below _ htarget⟩

theorem Circuit.extend_eq_ok {c : Circuit} {gates : List Gate}
    (h : ∀ g ∈ gates, g.fault? c.width = none) :
    c.extend gates = .ok { c with gates := c.gates ++ gates } := by
  have none : gates.findSome? (Gate.fault? c.width) = none := List.findSome?_eq_none_iff.2 h
  simp [extend, none]

theorem siteFault?_eq_none_iff {size line : Nat} {taken sites : List Nat} :
    siteFault? size line taken sites = none ↔
      (∀ s ∈ sites, s < size ∧ s ∉ taken) ∧ sites.Nodup := by
  induction sites generalizing line taken with
  | nil => simp [siteFault?]
  | cons s rest ih =>
    rw [siteFault?]
    by_cases hs : s < size
    · by_cases ht : s ∈ taken
      · simp [ht, Nat.not_le.2 hs]
      · rw [if_neg (Nat.not_le.2 hs), if_neg ht, ih, new_cons_iff hs ht]
    · simp [Nat.not_lt.1 hs, hs]

namespace Placement

theorem length_le_of_lt {sites : List Nat} {size : Nat} (nodup : sites.Nodup)
    (lt : ∀ s ∈ sites, s < size) : sites.length ≤ size := by
  have sub : sites ⊆ List.range size := fun s hs => List.mem_range.2 (lt s hs)
  simpa using (List.subperm_of_subset nodup sub).length_le

/-- Distinct sites below `size`, one for each of `width` lines. -/
structure Fits (p : Placement) (width size : Nat) : Prop where
  length : p.sites.length = width
  nodup : p.sites.Nodup
  lt : ∀ s ∈ p.sites, s < size

theorem fits_identity {width size : Nat} (h : width ≤ size) : (identity width).Fits width size := by
  refine ⟨by simp [identity], List.nodup_range, ?_⟩
  intro s hs
  exact Nat.lt_of_lt_of_le (List.mem_range.1 hs) h

variable {p : Placement} {width size : Nat}

/-- The lists of sites that are accepted are those that fit. -/
theorem ofSites_eq_ok_iff {sites : List Nat} :
    ofSites sites size = .ok p ↔ p = ⟨sites⟩ ∧ p.Fits sites.length size := by
  rw [ofSites]
  constructor
  · intro h
    split at h
    · cases h
    · split at h
      · cases h
      · rename_i none
        cases h
        obtain ⟨hlt, hnodup⟩ := siteFault?_eq_none_iff.1 none
        exact ⟨rfl, rfl, hnodup, fun s hs => (hlt s hs).1⟩
  · rintro ⟨rfl, -, hnodup, hlt⟩
    have fits := length_le_of_lt hnodup hlt
    have none : siteFault? size 0 [] sites = none :=
      siteFault?_eq_none_iff.2 ⟨fun s hs => ⟨hlt s hs, by simp⟩, hnodup⟩
    simp [Nat.not_lt.2 fits, none]

theorem fault?_eq_none_iff :
    p.fault? width size = none ↔ p.width = width ∧ ∀ s ∈ p.sites, s < size := by
  rw [fault?]
  split
  · simp_all
  · simp_all [List.find?_eq_none]

namespace Fits

variable (h : p.Fits width size)
include h

theorem siteOf_eq {line : Nat} (hl : line < width) :
    ∃ hs : line < p.sites.length, p.siteOf line = p.sites[line] :=
  ⟨h.length ▸ hl, by simp [siteOf, h.length, hl]⟩

theorem siteOf_mem {line : Nat} (hl : line < width) : p.siteOf line ∈ p.sites := by
  obtain ⟨hs, heq⟩ := h.siteOf_eq hl
  rw [heq]
  exact List.getElem_mem hs

theorem siteOf_lt {line : Nat} (hl : line < width) : p.siteOf line < size :=
  h.lt _ (h.siteOf_mem hl)

theorem idxOf_siteOf {line : Nat} (hl : line < width) : p.sites.idxOf (p.siteOf line) = line := by
  obtain ⟨hs, heq⟩ := h.siteOf_eq hl
  rw [heq]
  exact h.nodup.idxOf_getElem line hs

theorem siteOf_inj {k l : Nat} (hk : k < width) (hl : l < width)
    (heq : p.siteOf k = p.siteOf l) : k = l := by
  obtain ⟨hks, hke⟩ := h.siteOf_eq hk
  obtain ⟨hls, hle⟩ := h.siteOf_eq hl
  rw [hke, hle] at heq
  exact (h.nodup.getElem_inj_iff).1 heq

theorem fault?_eq_none : p.fault? width size = none :=
  fault?_eq_none_iff.2 ⟨h.length, h.lt⟩

/-- A gate that a circuit accepts is accepted at its sites. -/
theorem fault?_relabel {g : Gate} (hg : g.fault? width = none) :
    (g.relabel p.siteOf).fault? size = none := by
  obtain ⟨htargets, hnodup, hlt⟩ := Gate.fault?_eq_none_iff.1 hg
  refine Gate.fault?_eq_none_iff.2 ⟨by simpa [Gate.relabel] using htargets, ?_, ?_⟩
  · rw [Gate.lines_relabel]
    exact hnodup.map_on fun q hq r hr heq => h.siteOf_inj (hlt q hq) (hlt r hr) heq
  · rw [Gate.lines_relabel]
    intro s hs
    obtain ⟨q, hq, rfl⟩ := List.mem_map.1 hs
    exact h.siteOf_lt (hlt q hq)

end Fits

/-- The cost of a placement that fits is looked up pair by pair. -/
theorem Fits.cost_eq {i : Interactions} {t : RouteTable} (h : p.Fits i.width t.size) :
    p.cost i t = do
      let costs ← i.pairs.mapM fun pair => t.cost (p.siteOf pair.1) (p.siteOf pair.2)
      return totalCost costs := by
  rw [cost, h.fault?_eq_none]

theorem Fits.accepted_relabel {c : Circuit} (h : p.Fits c.width size) (valid : c.IsValid) :
    ∀ g ∈ c.gates.map (·.relabel p.siteOf), g.fault? size = none :=
  List.forall_mem_map.2 fun g hg => h.fault?_relabel (valid g hg)

/-- Placing a valid circuit renames the lines of every gate to their sites. -/
theorem apply_eq_ok {c : Circuit} (h : p.Fits c.width size) (valid : c.IsValid) :
    p.apply c size = .ok ⟨c.name, (List.range size).map (p.lineAt c.lines),
      c.gates.map (·.relabel p.siteOf)⟩ := by
  have sites : (⟨c.name, (List.range size).map (p.lineAt c.lines), []⟩ : Circuit).width = size := by
    simp [Circuit.width]
  rw [apply]
  rw [h.fault?_eq_none]
  simp only
  rw [Circuit.extend_eq_ok (by simpa only [sites] using h.accepted_relabel valid)]
  simp [Except.mapError]

end Placement

end CnotRouting
