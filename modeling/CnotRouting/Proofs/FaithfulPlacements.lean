import CnotRouting.Proofs.BuiltCircuits
import CnotRouting.Proofs.RelabeledCircuits

/-!
# Faithful placements

A placed circuit is the circuit itself on the sites of its lines, and idle lines on the others. Its
gates, depth, counts and costs are those of the circuit. If every site is taken, the inverse
placement brings every line back from its site and so gives back the circuit.
-/

namespace CnotRouting

namespace Placement

variable {p : Placement} {width n : Nat}

/-- A valid circuit is placed if there is a site for each of its lines, and the sites are there. -/
theorem exists_apply_iff {c : Circuit} (valid : c.IsValid) (nodup : p.sites.Nodup) :
    (∃ out, p.apply c n = .ok out) ↔ p.width = c.width ∧ ∀ s ∈ p.sites, s < n := by
  constructor
  · rintro ⟨out, run⟩
    rw [apply] at run
    split at run
    · cases run
    · rename_i none
      exact fault?_eq_none_iff.1 none
  · rintro ⟨covered, inside⟩
    exact ⟨_, apply_eq_ok ⟨covered, nodup, inside⟩ valid⟩

/-- Placing a valid circuit never fails for one of its gates. -/
theorem configuration_of_apply {c : Circuit} (valid : c.IsValid) (nodup : p.sites.Nodup)
    {e : RoutingError} (run : p.apply c n = .error e) : ∃ fault, e = .configuration fault := by
  cases hfault : p.fault? c.width n with
  | some fault =>
    rw [apply, hfault] at run
    cases run
    exact ⟨fault, rfl⟩
  | none =>
    obtain ⟨covered, inside⟩ := fault?_eq_none_iff.1 hfault
    rw [apply_eq_ok ⟨covered, nodup, inside⟩ valid] at run
    cases run

/-! ### Lines -/

/-- The line that stands on a site was put there, and no later line was. -/
theorem lineOn?_eq_some_iff {k l : Nat} : p.lineOn? k = some l ↔
    l < p.width ∧ p.siteOf l = k ∧ ∀ m < p.width, l < m → p.siteOf m ≠ k := by
  rw [lineOn?, List.find?_eq_some_iff_getElem]
  simp only [decide_eq_true_eq, Bool.not_eq_eq_eq_not, Bool.not_true, decide_eq_false_iff_not,
    List.length_reverse, List.length_range, List.getElem_reverse, List.getElem_range]
  constructor
  · rintro ⟨here, i, hi, rfl, before⟩
    refine ⟨by omega, here, fun m hm later => ?_⟩
    have passed := before (p.width - 1 - m) (by omega)
    rwa [show p.width - 1 - (p.width - 1 - m) = m by omega] at passed
  · rintro ⟨hl, here, last⟩
    refine ⟨here, p.width - 1 - l, by omega, by omega, fun j hj => ?_⟩
    exact last _ (by omega) (by omega)

/-- No line is put on the site of another one. -/
theorem Fits.lineOn?_siteOf (h : p.Fits width n) {l : Nat} (hl : l < width) :
    p.lineOn? (p.siteOf l) = some l := by
  have covered : p.width = width := h.length
  refine lineOn?_eq_some_iff.2 ⟨covered ▸ hl, rfl, fun m hm later same => ?_⟩
  have : m = l := h.siteOf_inj (covered ▸ hm) hl same
  omega

theorem Fits.lineAt_siteOf (h : p.Fits width n) {lines : List Line} {l : Nat} (hl : l < width)
    (hlines : l < lines.length) : p.lineAt lines (p.siteOf l) = lines[l] := by
  simp [lineAt, h.lineOn?_siteOf hl, hlines]

theorem lineAt_of_notMem {lines : List Line} {k : Nat} (hk : k ∉ p.sites) :
    p.lineAt lines k = .idle k := by
  have free : p.lineOn? k = none := by
    rw [Option.eq_none_iff_forall_ne_some]
    intro l there
    obtain ⟨hl, rfl, -⟩ := lineOn?_eq_some_iff.1 there
    apply hk
    have inside : l < p.sites.length := hl
    simp [siteOf, inside]
  rw [lineAt, free]
  rfl

/-! ### Interactions and costs -/

section Interactions

variable {c : Circuit} {name : String} {lines : List Line}

/-- Lines that are not sent to one line interact as the lines that they are sent to. -/
theorem Fits.count_relabel (h : p.Fits c.width n) (valid : c.IsValid) {x y : Nat} (hx : x < c.width)
    (hy : y < c.width) :
    (Interactions.ofCircuit ⟨name, lines, c.gates.map (·.relabel p.siteOf)⟩).count
      (p.siteOf x) (p.siteOf y) = (Interactions.ofCircuit c).count x y := by
  have apart : ∀ pair ∈ (Interactions.ofCircuit c).pairs,
      pair.map p.siteOf p.siteOf = (x, y).map p.siteOf p.siteOf → pair = (x, y) := by
    intro pair hpair same
    obtain ⟨hcontrol, htarget⟩ := valid.pairs_lt hpair
    obtain ⟨sameControl, sameTarget⟩ := Prod.ext_iff.1 same
    exact Prod.ext (h.siteOf_inj hcontrol hx sameControl) (h.siteOf_inj htarget hy sameTarget)
  rw [Interactions.count, Circuit.pairs_relabel]
  exact count_map_of_injOn apart

/-- The idle lines do not interact. -/
theorem Fits.count_relabel_of_notMem (h : p.Fits c.width n) (valid : c.IsValid) {x y : Nat}
    (hxy : ¬(x ∈ p.sites ∧ y ∈ p.sites)) :
    (Interactions.ofCircuit ⟨name, lines, c.gates.map (·.relabel p.siteOf)⟩).count x y = 0 := by
  rw [Interactions.count, Circuit.pairs_relabel, List.count_eq_zero]
  intro hmem
  obtain ⟨pair, hpair, same⟩ := List.mem_map.1 hmem
  obtain ⟨hcontrol, htarget⟩ := valid.pairs_lt hpair
  obtain ⟨rfl, rfl⟩ := Prod.ext_iff.1 same
  exact hxy ⟨h.siteOf_mem hcontrol, h.siteOf_mem htarget⟩

/-- On its sites a circuit costs what it costs under the placement. -/
theorem Fits.cost_relabel (h : p.Fits c.width n) (valid : c.IsValid) (hlines : lines.length = n)
    {t : RouteTable} (le : n ≤ t.size) :
    (identity n).cost (.ofCircuit ⟨name, lines, c.gates.map (·.relabel p.siteOf)⟩) t =
      p.cost (.ofCircuit c) t := by
  have fits : p.Fits (Interactions.ofCircuit c).width t.size :=
    ⟨h.length, h.nodup, fun s hs => (h.lt s hs).trans_le le⟩
  have sites : (Interactions.ofCircuit
      ⟨name, lines, c.gates.map (·.relabel p.siteOf)⟩).width = n := hlines
  rw [Fits.cost_eq (sites.symm ▸ fits_identity le), fits.cost_eq, Circuit.pairs_relabel,
    List.mapM_map]
  -- Every line is on its site, so the identity reads the entry that the placement reads.
  refine congrArg (· >>= _) (mapM_congr fun pair hpair => ?_)
  obtain ⟨hcontrol, htarget⟩ := valid.pairs_lt hpair
  simp only [Function.comp_apply, Prod.map_fst, Prod.map_snd, siteOf_identity (h.siteOf_lt hcontrol),
    siteOf_identity (h.siteOf_lt htarget)]

end Interactions

/-! ### The placed circuit -/

/-- Whether `out` is the circuit `c` among `n` lines: each line of `c` is on its site, the other
lines are idle, and whatever is measured on `c` is the same on `out`. -/
structure Embeds (p : Placement) (c : Circuit) (n : Nat) (out : Circuit) : Prop where
  name : out.name = c.name
  width : out.width = n
  line : ∀ l < c.width, out.lines[p.siteOf l]? = c.lines[l]?
  idle : ∀ k < n, k ∉ p.sites → out.lines[k]? = some (.idle k)
  gates : out.gates = c.gates.map (·.relabel p.siteOf)
  depth : out.depth = c.depth
  cnotCount : out.cnotCount = c.cnotCount
  nameCounts : out.nameCounts = c.nameCounts
  count : ∀ x < c.width, ∀ y < c.width,
    (Interactions.ofCircuit out).count (p.siteOf x) (p.siteOf y) =
      (Interactions.ofCircuit c).count x y
  count_idle : ∀ x y, ¬(x ∈ p.sites ∧ y ∈ p.sites) → (Interactions.ofCircuit out).count x y = 0
  cost : ∀ t : RouteTable, n ≤ t.size →
    (identity n).cost (.ofCircuit out) t = p.cost (.ofCircuit c) t

theorem Fits.embeds {c out : Circuit} (h : p.Fits c.width n) (valid : c.IsValid)
    (run : p.apply c n = .ok out) : p.Embeds c n out := by
  rw [apply_eq_ok h valid] at run
  cases run
  have below : ∀ g ∈ c.gates, ∀ q ∈ g.lines, q < c.width :=
    fun g hg => (Gate.fault?_eq_none_iff.1 (valid g hg)).2.2
  exact {
    name := rfl
    width := by simp [Circuit.width]
    line := by
      intro l hl
      have site := h.siteOf_lt hl
      rw [List.getElem?_map, List.getElem?_range site, Option.map_some, h.lineAt_siteOf hl hl]
      exact (List.getElem?_eq_getElem hl).symm
    idle := by
      intro k hk free
      rw [List.getElem?_map, List.getElem?_range hk, Option.map_some, lineAt_of_notMem free]
    gates := rfl
    depth := by
      refine Circuit.depth_relabel (fun q hq r hr => h.siteOf_inj hq hr) (fun q hq => ?_) below
      simpa using h.siteOf_lt hq
    cnotCount := Circuit.cnotCount_relabel
    nameCounts := Circuit.nameCounts_relabel
    count := fun x hx y hy => h.count_relabel valid hx hy
    count_idle := fun x y hxy => h.count_relabel_of_notMem valid hxy
    cost := fun t le => h.cost_relabel valid (by simp) le }

/-! ### The inverse placement -/

/-- The placement that brings every line back from its site. -/
def inverse (p : Placement) : Placement := ⟨(List.range p.width).map p.sites.idxOf⟩

namespace Fits

variable (h : p.Fits n n)
include h

theorem mem_sites {k : Nat} (hk : k < n) : k ∈ p.sites := by
  have sub : p.sites ⊆ List.range n := fun s hs => List.mem_range.2 (h.lt s hs)
  have full : (List.range n).length ≤ p.sites.length := by simp [h.length]
  have perm := (List.subperm_of_subset h.nodup sub).perm_of_length_le full
  exact perm.mem_iff.2 (List.mem_range.2 hk)

theorem siteOf_inverse {k : Nat} (hk : k < n) : p.inverse.siteOf k = p.sites.idxOf k := by
  have width : p.width = n := h.length
  simp [Placement.inverse, siteOf, width, hk]

theorem inverse : p.inverse.Fits n n := by
  have width : p.width = n := h.length
  refine ⟨by simp [Placement.inverse, width], ?_, ?_⟩
  · refine List.nodup_range.map_on fun k hk l _ same => ?_
    exact (List.idxOf_inj (h.mem_sites (width ▸ List.mem_range.1 hk))).1 same
  · intro s hs
    obtain ⟨k, hk, rfl⟩ := List.mem_map.1 hs
    have site := h.mem_sites (width ▸ List.mem_range.1 hk)
    exact h.length ▸ List.idxOf_lt_length_iff.2 site

theorem inverse_siteOf {l : Nat} (hl : l < n) : p.inverse.siteOf (p.siteOf l) = l := by
  rw [h.siteOf_inverse (h.siteOf_lt hl), h.idxOf_siteOf hl]

theorem siteOf_inverse_siteOf {k : Nat} (hk : k < n) : p.siteOf (p.inverse.siteOf k) = k := by
  have there := List.idxOf_lt_length_iff.2 (h.mem_sites hk)
  rw [h.siteOf_inverse hk]
  simp [siteOf, there]

end Fits

/-- Out of the placed circuit, the inverse placement brings back every line and every gate. -/
theorem Fits.apply_inverse {c out : Circuit} (h : p.Fits c.width c.width) (valid : c.IsValid)
    (run : p.apply c c.width = .ok out) : p.inverse.apply out c.width = .ok c := by
  have placed := h.embeds valid run
  have back : p.inverse.Fits out.width c.width := placed.width.symm ▸ h.inverse
  have accepted : out.IsValid := by
    rw [Circuit.IsValid, placed.gates, placed.width]
    exact h.accepted_relabel valid
  obtain ⟨returned, rerun⟩ := (exists_apply_iff accepted back.nodup).2 ⟨back.length, back.lt⟩
  have again := back.embeds accepted rerun
  have lines : returned.lines = c.lines := by
    refine List.ext_getElem? fun k => ?_
    by_cases hk : k < c.width
    · have line := again.line (p.siteOf k) (placed.width.symm ▸ h.siteOf_lt hk)
      rw [h.inverse_siteOf hk, placed.line k hk] at line
      exact line
    · have short : returned.lines.length = c.lines.length := again.width
      have past : c.lines.length ≤ k := Nat.not_lt.1 hk
      rw [List.getElem?_eq_none past, List.getElem?_eq_none (short ▸ past)]
  have gates : returned.gates = c.gates := by
    rw [again.gates, placed.gates, List.map_map]
    refine (List.map_congr_left fun g hg => ?_).trans (List.map_id c.gates)
    obtain ⟨-, -, below⟩ := Gate.fault?_eq_none_iff.1 (valid g hg)
    rw [Function.comp_apply, Gate.relabel_relabel]
    exact (Gate.relabel_congr fun q hq => h.inverse_siteOf (below q hq)).trans g.relabel_id
  have same : returned = c := by
    cases returned
    cases c
    exact congr (congrArg₂ Circuit.mk (again.name.trans placed.name) lines) gates
  rw [rerun, same]

/-- The lines of a placed circuit are numbered from 0 on. -/
theorem Fits.place_numbers {log : CircuitLog} {out : Circuit} (h : p.Fits log.circuit.width n)
    (valid : log.circuit.IsValid) (run : p.apply log.circuit n = .ok out) :
    ∃ placed, log.place p n = .ok placed ∧ placed.circuit = out ∧
      placed.lines.map Prod.fst = List.range n := by
  obtain ⟨placed, hplace, sound, same⟩ := CircuitLog.exists_place run
  have width : placed.width = n := by
    rw [← CircuitLog.width_circuit, same]
    exact (h.embeds valid run).width
  exact ⟨placed, hplace, same, width ▸ sound.numbered⟩

end Placement

/-- A valid circuit is placed under distinct sites if there is one for each line and all of them are
there; otherwise the configuration is at fault. The placed circuit is the circuit itself among idle
lines: the gates are renamed, and whatever is measured stays the same. Where no line is idle, the
inverse placement gives back the circuit. -/
theorem placement_embeds_circuit {c : Circuit} (valid : c.IsValid) {sites : List Nat} {size : Nat}
    {p : Placement} (accepted : Placement.ofSites sites size = .ok p) (n : Nat) :
    ((∃ out, p.apply c n = .ok out) ↔ sites.length = c.width ∧ ∀ s ∈ sites, s < n) ∧
      (∀ e, p.apply c n = .error e → ∃ fault, e = .configuration fault) ∧
      ∀ out, p.apply c n = .ok out →
        p.Embeds c n out ∧
        (∀ log : CircuitLog, log.circuit = c →
          ∃ placed, log.place p n = .ok placed ∧ placed.circuit = out ∧
            placed.lines.map Prod.fst = List.range n) ∧
        (c.width = n →
          Placement.ofSites p.inverse.sites n = .ok p.inverse ∧
          (∀ k < n, p.inverse.siteOf (p.siteOf k) = k ∧ p.siteOf (p.inverse.siteOf k) = k) ∧
          p.inverse.apply out n = .ok c) := by
  obtain ⟨rfl, -, nodup, -⟩ := Placement.ofSites_eq_ok_iff.1 accepted
  have placed_iff := Placement.exists_apply_iff (n := n) valid nodup
  refine ⟨placed_iff, fun e => Placement.configuration_of_apply valid nodup, fun out run => ?_⟩
  obtain ⟨covered, inside⟩ := placed_iff.1 ⟨out, run⟩
  have fits : Placement.Fits ⟨sites⟩ c.width n := ⟨covered, nodup, inside⟩
  refine ⟨fits.embeds valid run, ?_, ?_⟩
  · rintro log rfl
    exact fits.place_numbers valid run
  · rintro rfl
    have back := fits.inverse
    refine ⟨Placement.ofSites_eq_ok_iff.2 ⟨rfl, rfl, back.nodup, back.lt⟩, fun k hk => ?_,
      fits.apply_inverse valid run⟩
    exact ⟨fits.inverse_siteOf hk, fits.siteOf_inverse_siteOf hk⟩

/-- The lines 0, 1 and 2 go to the sites 2, 0 and 1, where the inverse finds them again. -/
theorem placement_embeds_circuit_threeCycle :
    let c : Circuit := ⟨"cycle", [⟨some "a", some "x"⟩, ⟨some "b", none⟩, .unnamed],
      [.toffoli [⟨0, false⟩] 1, .hadamard 2, .toffoli [⟨0, true⟩, ⟨1, false⟩] 2]⟩
    let p : Placement := ⟨[2, 0, 1]⟩
    let out : Circuit := ⟨"cycle", [⟨some "b", none⟩, .unnamed, ⟨some "a", some "x"⟩],
      [.toffoli [⟨2, false⟩] 0, .hadamard 1, .toffoli [⟨2, true⟩, ⟨0, false⟩] 1]⟩
    c.IsValid ∧ Placement.ofSites [2, 0, 1] 3 = .ok p ∧ p.apply c 3 = .ok out ∧
      p.Embeds c 3 out ∧ p.inverse = ⟨[1, 2, 0]⟩ ∧ p.inverse.apply out 3 = .ok c := by
  intro c p out
  have valid : c.IsValid := by
    unfold Circuit.IsValid
    decide
  have accepted : Placement.ofSites [2, 0, 1] 3 = .ok p := rfl
  have run : p.apply c 3 = .ok out := rfl
  obtain ⟨-, -, every⟩ := placement_embeds_circuit valid accepted 3
  obtain ⟨embeds, -, inverse⟩ := every out run
  exact ⟨valid, accepted, run, embeds, rfl, (inverse rfl).2.2⟩

end CnotRouting
