import CnotRouting.Proofs.LoggedCircuits
import CnotRouting.Proofs.RelabeledCircuits
import Mathlib.Data.List.Chain
import Mathlib.Order.Bounds.Basic
import Mathlib.Order.MinMax

/-!
# Dependency chains

Two gates depend on each other if they share a line. A dependency chain is a choice of gates in
program order, each of which depends on the next. Throughout the pass that finds the depth, the
level of a line is the length of the longest chain so far that ends on this line: a new gate
continues the chains that end on one of its lines, and no others.
-/

namespace CnotRouting

/-- Whether two gates share a line. -/
def Gate.Meets (g h : Gate) : Prop := ∃ q ∈ g.lines, q ∈ h.lines

instance (g h : Gate) : Decidable (g.Meets h) :=
  inferInstanceAs (Decidable (∃ q ∈ g.lines, q ∈ h.lines))

/-- Some of the gates in their order, each of which shares a line with the next. -/
structure IsDependencyChain (gates chain : List Gate) : Prop where
  sublist : chain.Sublist gates
  meets : chain.IsChain Gate.Meets

/-- Whether the last gate of a chain is among those that are asked for. The empty chain has none. -/
def EndsIn (P : Gate → Prop) (chain : List Gate) : Prop := ∀ g ∈ chain.getLast?, P g

/-- Whether the longest dependency chains that end in one of the gates asked for have `k` gates. -/
def IsLongest (P : Gate → Prop) (gates : List Gate) (k : Nat) : Prop :=
  IsGreatest {k | ∃ chain, IsDependencyChain gates chain ∧ EndsIn P chain ∧ chain.length = k} k

@[simp] theorem isDependencyChain_nil_right (gates : List Gate) : IsDependencyChain gates [] :=
  ⟨List.nil_sublist gates, .nil⟩

@[simp] theorem endsIn_nil (P : Gate → Prop) : EndsIn P [] := by
  simp [EndsIn]

@[simp] theorem endsIn_concat {P : Gate → Prop} {chain : List Gate} {g : Gate} :
    EndsIn P (chain ++ [g]) ↔ P g := by
  simp [EndsIn]

/-! ### One gate more -/

section

variable {P : Gate → Prop} {gates chain : List Gate} {g : Gate} {a b : Nat}

theorem IsDependencyChain.mono (h : IsDependencyChain gates chain) (more : List Gate) :
    IsDependencyChain (gates ++ more) chain :=
  ⟨h.sublist.trans (List.sublist_append_left gates more), h.meets⟩

theorem IsDependencyChain.concat (h : IsDependencyChain gates chain)
    (ends : EndsIn (·.Meets g) chain) :
    IsDependencyChain (gates ++ [g]) (chain ++ [g]) := by
  refine ⟨h.sublist.append (List.Sublist.refl [g]), h.meets.append (.singleton g) ?_⟩
  intro last hlast next hnext
  obtain rfl := Option.some.inj hnext
  exact ends last hlast

/-- A chain of one gate more leaves it out, or it continues a chain by this gate. -/
theorem IsDependencyChain.cases_concat (h : IsDependencyChain (gates ++ [g]) chain) :
    IsDependencyChain gates chain ∨
      ∃ shorter, chain = shorter ++ [g] ∧ IsDependencyChain gates shorter ∧
        EndsIn (·.Meets g) shorter := by
  obtain ⟨shorter, last, rfl, sublist, end_⟩ := List.sublist_append_iff.1 h.sublist
  rcases List.sublist_singleton.1 end_ with rfl | rfl
  · rw [List.append_nil] at h ⊢
    exact .inl ⟨sublist, h.meets⟩
  · obtain ⟨meets, -, joint⟩ := List.isChain_append.1 h.meets
    exact .inr ⟨shorter, rfl, ⟨sublist, meets⟩, fun last hlast => joint last hlast g rfl⟩

/-- The more gates are asked for, the longer are the chains. -/
theorem IsLongest.le {Q : Gate → Prop} (h : IsLongest P gates a) (h' : IsLongest Q gates b)
    (weaker : ∀ g, P g → Q g) : a ≤ b := by
  refine h.mono h' ?_
  rintro k ⟨chain, hchain, ends, rfl⟩
  exact ⟨chain, hchain, fun g hg => weaker g (ends g hg), rfl⟩

/-- If the gate is asked for, the longest chain may be one that it continues. -/
theorem IsLongest.concat (h : IsLongest P gates a) (asked : P g)
    (before : IsLongest (·.Meets g) gates b) : IsLongest P (gates ++ [g]) (max a (b + 1)) := by
  constructor
  · rcases max_choice a (b + 1) with same | same
    · obtain ⟨chain, hchain, ends, length⟩ := h.1
      exact ⟨chain, hchain.mono [g], ends, length.trans same.symm⟩
    · obtain ⟨chain, hchain, ends, length⟩ := before.1
      refine ⟨chain ++ [g], hchain.concat ends, endsIn_concat.2 asked, ?_⟩
      rw [same, List.length_append, length, List.length_singleton]
  · rintro k ⟨chain, hchain, ends, rfl⟩
    rcases hchain.cases_concat with earlier | ⟨shorter, rfl, earlier, meets⟩
    · exact le_max_of_le_left (h.2 ⟨chain, earlier, ends, rfl⟩)
    · rw [List.length_append, List.length_singleton]
      exact le_max_of_le_right (Nat.succ_le_succ (before.2 ⟨shorter, earlier, meets, rfl⟩))

/-- If the gate is not asked for, the longest chain is one of the earlier gates. -/
theorem IsLongest.concat_of_not (h : IsLongest P gates a) (other : ¬P g) :
    IsLongest P (gates ++ [g]) a := by
  constructor
  · obtain ⟨chain, hchain, ends, length⟩ := h.1
    exact ⟨chain, hchain.mono [g], ends, length⟩
  · rintro k ⟨chain, hchain, ends, rfl⟩
    rcases hchain.cases_concat with earlier | ⟨shorter, rfl, -, -⟩
    · exact h.2 ⟨chain, earlier, ends, rfl⟩
    · exact absurd (endsIn_concat.1 ends) other

end

/-! ### Levels -/

/-- The levels and the depth that the pass has found after some gates. -/
structure IsLevelled (width : Nat) (gates : List Gate) (state : Array Nat × Nat) : Prop where
  size : state.1.size = width
  line : ∀ q < width, IsLongest (q ∈ ·.lines) gates (state.1.getD q 0)
  depth : IsLongest (fun _ => True) gates state.2

theorem isLongest_nil (P : Gate → Prop) : IsLongest P [] 0 := by
  constructor
  · exact ⟨[], by simp⟩
  · rintro k ⟨chain, hchain, -, rfl⟩
    rw [List.sublist_nil.1 hchain.sublist, List.length_nil]

theorem isLevelled_start (width : Nat) : IsLevelled width [] (Array.replicate width 0, 0) := by
  refine ⟨by simp, fun q hq => ?_, isLongest_nil _⟩
  have level : (Array.replicate width 0).getD q 0 = 0 := by simp [hq]
  rw [level]
  exact isLongest_nil _

namespace IsLevelled

variable {width : Nat} {gates : List Gate} {state : Array Nat × Nat} {g : Gate}

/-- The level before that of a gate is the length of the longest chain that the gate continues. -/
theorem exists_isLongest_meets (h : IsLevelled width gates state)
    (inside : ∀ q ∈ g.lines, q < width) :
    ∃ b, Circuit.levelAbove state.1 g = b + 1 ∧ IsLongest (·.Meets g) gates b := by
  let levels := g.lines.map fun q => state.1.getD q 0
  have highest : levels.foldl max 0 ∈ 0 :: levels ∧ ∀ b ∈ 0 :: levels, b ≤ levels.foldl max 0 :=
    List.max?_eq_some_iff.1 List.max?_cons'
  refine ⟨levels.foldl max 0, rfl, ?_, ?_⟩
  · rcases List.mem_cons.1 highest.1 with zero | among
    · exact ⟨[], by simp, by simp, zero.symm⟩
    · obtain ⟨q, hq, level⟩ := List.mem_map.1 among
      obtain ⟨chain, hchain, ends, length⟩ := (h.line q (inside q hq)).1
      exact ⟨chain, hchain, fun k hk => ⟨q, ends k hk, hq⟩, length.trans level⟩
  · rintro k ⟨chain, hchain, ends, rfl⟩
    rcases List.eq_nil_or_concat chain with rfl | ⟨shorter, last, rfl⟩
    · exact Nat.zero_le _
    · rw [List.concat_eq_append] at hchain ends ⊢
      obtain ⟨q, onLast, hq⟩ := endsIn_concat.1 ends
      refine le_trans ((h.line q (inside q hq)).2 ⟨_, hchain, endsIn_concat.2 onLast, rfl⟩) ?_
      exact highest.2 _ (List.mem_cons_of_mem 0 (List.mem_map_of_mem hq))

/-- One gate more. -/
theorem placeGate (h : IsLevelled width gates state) (inside : ∀ q ∈ g.lines, q < width) :
    IsLevelled width (gates ++ [g]) (Circuit.placeGate state g) := by
  obtain ⟨b, above, before⟩ := h.exists_isLongest_meets inside
  have inBounds : ∀ q ∈ g.lines, q < state.1.size := h.size.symm ▸ inside
  constructor
  · rw [Circuit.placeGate, size_setAll, h.size]
  · intro q hq
    simp only [Circuit.placeGate, above]
    rw [getD_setAll inBounds]
    split
    · rename_i on
      have longest := (h.line q hq).concat on before
      -- A chain that ends on the line is among those that the gate continues.
      have lower := (h.line q hq).le before fun k hk => ⟨q, hk, on⟩
      rwa [max_eq_right (Nat.le_succ_of_le lower)] at longest
    · rename_i off
      exact (h.line q hq).concat_of_not off
  · have longest := h.depth.concat trivial before
    rwa [← above] at longest

theorem foldl_placeGate {more : List Gate} (h : IsLevelled width gates state)
    (inside : ∀ g ∈ more, ∀ q ∈ g.lines, q < width) :
    IsLevelled width (gates ++ more) (more.foldl Circuit.placeGate state) := by
  induction more generalizing gates state with
  | nil => simpa using h
  | cons g more ih =>
    obtain ⟨first, rest⟩ := List.forall_mem_cons.1 inside
    have placed := ih (h.placeGate first) rest
    rwa [List.append_assoc, List.singleton_append] at placed

end IsLevelled

/-! ### Swapped gates -/

theorem Gate.Meets.symm {g h : Gate} (meets : g.Meets h) : h.Meets g := by
  obtain ⟨q, hg, hh⟩ := meets
  exact ⟨q, hh, hg⟩

/-- Of two neighbours that share no line, a dependency chain has one at most. -/
theorem IsDependencyChain.swap {before after chain : List Gate} {g h : Gate} (apart : ¬g.Meets h)
    (hc : IsDependencyChain (before ++ g :: h :: after) chain) :
    IsDependencyChain (before ++ h :: g :: after) chain := by
  refine ⟨?_, hc.meets⟩
  obtain ⟨first, last, rfl, hfirst, hlast⟩ := List.sublist_append_iff.1 hc.sublist
  refine hfirst.append ?_
  rcases List.sublist_cons_iff.1 hlast with without | ⟨rest, rfl, hrest⟩
  · exact without.trans ((List.sublist_cons_self g after).cons_cons h)
  · rcases List.sublist_cons_iff.1 hrest with without | ⟨rest, rfl, -⟩
    · exact (without.cons_cons g).cons h
    · have both := (List.isChain_append.1 hc.meets).2.1
      exact absurd (List.isChain_cons_cons.1 both).1 apart

/-! ### Depth -/

namespace Circuit

variable {c : Circuit}

/-- The numbers of gates of the dependency chains of a circuit. -/
def chainLengths (c : Circuit) : Set Nat :=
  {k | ∃ chain, IsDependencyChain c.gates chain ∧ chain.length = k}

theorem isGreatest_depth (valid : c.IsValid) : IsGreatest c.chainLengths c.depth := by
  have inside : ∀ g ∈ c.gates, ∀ q ∈ g.lines, q < c.width :=
    fun g hg => (Gate.fault?_eq_none_iff.1 (valid g hg)).2.2
  obtain ⟨⟨chain, hchain, -, length⟩, bound⟩ :=
    ((isLevelled_start c.width).foldl_placeGate inside).depth
  refine ⟨⟨chain, hchain, length⟩, ?_⟩
  rintro k ⟨chain, hchain, rfl⟩
  exact bound ⟨chain, hchain, fun _ _ => trivial, rfl⟩

theorem depth_le_length (valid : c.IsValid) : c.depth ≤ c.gates.length := by
  obtain ⟨chain, hchain, length⟩ := (isGreatest_depth valid).1
  exact length ▸ hchain.sublist.length_le

/-- An appended gate continues one of the longest chains, or none of them. -/
theorem depth_append {next : Circuit} {g : Gate} (valid : c.IsValid)
    (append : c.append g = .ok next) :
    next.depth = c.depth ∨ next.depth = c.depth + 1 := by
  obtain ⟨accepted, heq⟩ := append_eq_ok_iff.1 append
  have gates : next.gates = c.gates ++ [g] := congrArg Circuit.gates heq
  have validNext : next.IsValid := by
    rw [IsValid, gates, heq]
    intro k hk
    rcases List.mem_append.1 hk with hk | hk
    · exact valid k hk
    · obtain rfl := List.mem_singleton.1 hk
      exact accepted
  have before := isGreatest_depth valid
  have after := isGreatest_depth validNext
  have most : next.depth ≤ c.depth + 1 := by
    obtain ⟨chain, hchain, length⟩ := after.1
    rw [gates] at hchain
    rw [← length]
    rcases hchain.cases_concat with earlier | ⟨shorter, rfl, earlier, -⟩
    · exact Nat.le_succ_of_le (before.2 ⟨chain, earlier, rfl⟩)
    · rw [List.length_append, List.length_singleton]
      exact Nat.succ_le_succ (before.2 ⟨shorter, earlier, rfl⟩)
  have least : c.depth ≤ next.depth := by
    obtain ⟨chain, hchain, length⟩ := before.1
    have kept := hchain.mono [g]
    rw [← gates] at kept
    exact length ▸ after.2 ⟨chain, kept, rfl⟩
  omega

theorem depth_swap {before after : List Gate} {g h : Gate} (valid : c.IsValid)
    (gates : c.gates = before ++ g :: h :: after) (apart : ¬g.Meets h) :
    depth { c with gates := before ++ h :: g :: after } = c.depth := by
  let swapped : Circuit := { c with gates := before ++ h :: g :: after }
  have validSwapped : swapped.IsValid := by
    intro k hk
    refine valid k ?_
    rw [gates]
    exact ((List.Perm.swap g h after).append_left before).mem_iff.1 hk
  have same : swapped.chainLengths = c.chainLengths := by
    ext k
    rw [chainLengths, chainLengths, gates]
    constructor
    · rintro ⟨chain, hchain, length⟩
      exact ⟨chain, hchain.swap fun meets => apart meets.symm, length⟩
    · rintro ⟨chain, hchain, length⟩
      exact ⟨chain, hchain.swap apart, length⟩
  exact (same ▸ isGreatest_depth validSwapped).unique (isGreatest_depth valid)

end Circuit

/-- The depth of a valid circuit is the number of gates of its longest dependency chains. So it is
no more than the number of gates, an appended gate raises it by one or not at all, and two
neighbours that share no line may be swapped. -/
theorem depth_is_longest_chain {c : Circuit} (valid : c.IsValid) :
    IsGreatest {k | ∃ chain, IsDependencyChain c.gates chain ∧ chain.length = k} c.depth ∧
      (c.gates = [] → c.depth = 0) ∧ c.depth ≤ c.gates.length ∧
      (∀ g next, c.append g = .ok next → next.depth = c.depth ∨ next.depth = c.depth + 1) ∧
      ∀ before g h after, c.gates = before ++ g :: h :: after → ¬g.Meets h →
        Circuit.depth { c with gates := before ++ h :: g :: after } = c.depth := by
  have most := Circuit.depth_le_length valid
  refine ⟨Circuit.isGreatest_depth valid, fun none => ?_, most, ?_, ?_⟩
  · rw [none] at most
    exact Nat.le_zero.1 most
  · exact fun g next append => Circuit.depth_append valid append
  · exact fun before g h after gates apart => Circuit.depth_swap valid gates apart

/-- The Hadamard on line 2 depends on no gate before it and may come first. -/
theorem depth_is_longest_chain_threeGates :
    let c : Circuit := ⟨"", [.unnamed, .unnamed, .unnamed],
      [.cnot 0 1, .hadamard 2, .cnotOnZero 1 2]⟩
    c.IsValid ∧ c.depth = 2 ∧
      IsGreatest {k | ∃ chain, IsDependencyChain c.gates chain ∧ chain.length = k} 2 ∧
      Circuit.depth { c with gates := [.hadamard 2, .cnot 0 1, .cnotOnZero 1 2] } = 2 := by
  intro c
  have valid : c.IsValid := by
    unfold Circuit.IsValid
    decide
  have two : c.depth = 2 := by decide
  obtain ⟨longest, -, -, -, swap⟩ := depth_is_longest_chain valid
  have swapped := swap [] (.cnot 0 1) (.hadamard 2) [.cnotOnZero 1 2] rfl (by decide)
  exact ⟨valid, two, two ▸ longest, swapped.trans two⟩

end CnotRouting
