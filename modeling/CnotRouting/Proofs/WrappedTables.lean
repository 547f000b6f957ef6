import CnotRouting.Proofs.ConnectedGraphs
import CnotRouting.Proofs.ExpandedCircuits
import CnotRouting.PlacementSearch

/-!
# Tables of too many pairs

The number of pairs of a graph on 65536 or more qubits is out of range. Where arithmetic is checked,
such a graph has no device. Where it is not, the number wraps around, and the table that is built
keeps routes for the first pairs only. For the chain of 65536 qubits nothing is left of the number of
pairs: whatever asks its table for a route or a cost fails.
-/

namespace CnotRouting

namespace Device

variable {g : CouplingGraph} {d : Device}

/-- A connected graph with too many pairs has no device where arithmetic is checked. Where it is not,
the device keeps as many routes as are left of the number of pairs. -/
theorem ofGraph_of_range_le (valid : g.IsValid) (connected : g.IsConnected)
    (large : wordBound ≤ g.size * g.size) :
    ofGraph g = .error .outOfBounds ∧
      ∃ rs, rs.length = g.size * g.size % wordBound ∧
        ofGraphWrapped g = .ok ⟨g, .ofRoutes g.size rs⟩ := by
  constructor
  · have refused : checkedProduct g.size g.size = .error .outOfBounds :=
      if_neg (Nat.not_lt.2 large)
    have table : RouteTable.ofGraphBy .labels checkedProduct g = .error .outOfBounds := by
      rw [RouteTable.ofGraphBy, CouplingGraph.firstSeparated?_eq_none
        DisjointSets.labels_isFaithful valid connected]
      exact bind_of_error refused _
    exact bind_of_error table _
  · exact exists_ofGraphBy DisjointSets.labels_isFaithful valid connected rfl (Nat.mod_le _ _)

/-- Where arithmetic is not checked, the pairs that have routes are those with numbers below what is
left of the number of pairs. -/
theorem exists_route_ofGraphWrapped_iff (h : ofGraphWrapped g = .ok d) {v w : Nat}
    (hv : v < g.size) (hw : w < g.size) :
    (∃ r, d.table.route v w = .ok r) ↔ v * g.size + w < g.size * g.size % wordBound := by
  obtain ⟨count, rs, hcount, rfl, hrs⟩ := ofGraphBy_eq_ok h
  obtain rfl : g.size * g.size % wordBound = count := Except.ok.inj hcount
  have length : rs.length = g.size * g.size % wordBound := by simpa using hrs.length_eq.symm
  constructor
  · rintro ⟨r, hr⟩
    obtain ⟨-, -, hr⟩ := RouteTable.route_eq_ok_iff.1 hr
    obtain ⟨inside, -⟩ := Array.getElem?_eq_some_iff.1 hr
    simpa [length] using inside
  · intro inside
    have inside : v * g.size + w < rs.length := length ▸ inside
    exact ⟨rs[v * g.size + w], RouteTable.route_eq_ok_iff.2 ⟨hv, hw, by simp [inside]⟩⟩

/-- The chain of 65536 qubits with a table without routes. -/
def longChain : Device := ⟨.chain 65536, .ofRoutes 65536 []⟩

theorem ofGraph_longChain : ofGraph (.chain 65536) = .error .outOfBounds ∧
    ofGraphWrapped (.chain 65536) = .ok longChain := by
  have size : (CouplingGraph.chain 65536).size = 65536 := rfl
  obtain ⟨checked, rs, length, wrapped⟩ := ofGraph_of_range_le (CouplingGraph.isValid_chain 65536)
    (CouplingGraph.isConnected_chain 65536) (by rw [size]; decide)
  rw [size] at length wrapped
  obtain rfl : rs = [] := List.length_eq_zero_iff.1 (length.trans (by decide))
  exact ⟨checked, wrapped⟩

/-- A table without routes has no entry for any pair of its qubits. -/
theorem lookups_ofRoutes_nil {size v w : Nat} (hv : v < size) (hw : w < size) :
    (RouteTable.ofRoutes size []).cost v w = .error .outOfBounds ∧
      (RouteTable.ofRoutes size []).route v w = .error .outOfBounds := by
  simp [RouteTable.cost, RouteTable.route, RouteTable.entry, RouteTable.contains, hv, hw]

theorem lookups_longChain {v w : Nat} (hv : v < 65536) (hw : w < 65536) :
    longChain.table.cost v w = .error .outOfBounds ∧
      longChain.table.route v w = .error .outOfBounds :=
  lookups_ofRoutes_nil hv hw

end Device

namespace Circuit

/-- A circuit that starts with a CNOT has no expansion on the long chain. -/
theorem expand_longChain {k : Circuit} {gates : List Gate} {c t : Nat}
    (starts : k.gates = .cnot c t :: gates) (narrow : k.width ≤ Device.longChain.size)
    (hc : c < 65536) (ht : t < 65536) : k.expand .longChain = .error .outOfBounds := by
  have first : Device.longChain.checkedExpansion 0 (.cnot c t) = .error .outOfBounds :=
    bind_of_error (bind_of_error (Device.lookups_longChain hc ht).2 _) _
  rw [expand, if_neg (Nat.not_lt.2 narrow), starts, List.zipIdx_cons, List.mapM_cons]
  exact bind_of_error (bind_of_error first _) _

/-- Two lines and the CNOT from the first to the second. -/
def oneCnot : Circuit := ⟨"", [.unnamed, .unnamed], [.cnot 0 1]⟩

theorem oneCnot_isValid : oneCnot.IsValid := isValid_cnot (by decide) (by decide) (by decide)

theorem oneCnot_isSupported : ∀ g ∈ oneCnot.gates, g.IsSupported := by
  intro g hg
  obtain rfl := List.mem_singleton.1 hg
  exact .cnot _ 1

end Circuit

namespace Placement

theorem fits_firstTwo {n : Nat} (h : 2 ≤ n) : Fits ⟨[0, 1]⟩ Circuit.oneCnot.width n := by
  refine ⟨rfl, by decide, fun s hs => ?_⟩
  rcases List.mem_pair.1 hs with rfl | rfl
  · omega
  · omega

theorem ofSites_firstTwo {n : Nat} (h : 2 ≤ n) : ofSites [0, 1] n = .ok ⟨[0, 1]⟩ :=
  ofSites_eq_ok_iff.2 ⟨rfl, fits_firstTwo h⟩

/-- On the long chain the two lines are placed, but the CNOT has neither an expansion nor a cost. -/
theorem place_oneCnot_longChain : ∃ placed,
    apply ⟨[0, 1]⟩ .oneCnot Device.longChain.size = .ok placed ∧
      placed.expand .longChain = .error .outOfBounds ∧
      cost ⟨[0, 1]⟩ (.ofCircuit .oneCnot) Device.longChain.table = .error .outOfBounds := by
  have room : 2 ≤ Device.longChain.size := by decide
  refine ⟨_, apply_eq_ok (fits_firstTwo room) Circuit.oneCnot_isValid, ?_, ?_⟩
  · refine Circuit.expand_longChain rfl ?_ (by decide) (by decide)
    simp [Circuit.width]
  · rw [Fits.cost_eq (fits_firstTwo room)]
    refine bind_of_error ?_ _
    rw [show (Interactions.ofCircuit .oneCnot).pairs = [(0, 1)] from rfl, List.mapM_cons]
    exact bind_of_error (Device.lookups_longChain (by decide) (by decide)).1 _

end Placement

/-- The exhaustive search for the CNOT fails on the long chain. -/
theorem Interactions.searchAll_longChain :
    (ofCircuit .oneCnot).searchAll Device.longChain.table = .error .outOfBounds := by
  have narrow : ¬Device.longChain.table.size < (ofCircuit .oneCnot).width := by decide
  have short : Device.longChain.table.coversPairs = false := by decide
  rw [searchAll, if_neg narrow, if_pos ⟨List.cons_ne_nil _ _, by rw [short]; rfl⟩]

end CnotRouting
