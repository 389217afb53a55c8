/-
# What the checks of bundles say

When a check passes and what is known then, for the parts of a bundle and for the requirements
that operations place on bundles.

Key theorems: `wireAt_eq_ok`, `slice_eq_ok`, `inStep_eq_ok`, `requireDistinct_eq_ok`.
-/
import BitCircuit.Integer.Sink

namespace BitCircuit

variable {α β : Type}

/-- A check after a check. -/
theorem bind_eq_ok {x : Except Error α} {f : α → Except Error β} {b : β} :
    (x >>= f) = .ok b ↔ ∃ a, x = .ok a ∧ f a = .ok b := by
  cases x with
  | ok a => simp [bind, Except.bind]
  | error e => simp [bind, Except.bind]

/-- Checks of all entries that pass give each of them its result. -/
theorem exists_of_mapM_eq_ok [Inhabited β] {f : α → Except Error β} {l : List α} {bs : List β}
    (h : l.mapM f = .ok bs) : ∃ g : α → β, (∀ a ∈ l, f a = .ok (g a)) ∧ bs = l.map g := by
  refine ⟨fun a => (f a).toOption.getD default, ?_⟩
  induction l generalizing bs with
  | nil =>
    rw [List.mapM_nil] at h
    cases h
    exact ⟨by simp, rfl⟩
  | cons a l ih =>
    rw [List.mapM_cons] at h
    obtain ⟨b, ha, h⟩ := bind_eq_ok.mp h
    obtain ⟨bs', hl, h⟩ := bind_eq_ok.mp h
    cases h
    obtain ⟨hall, rfl⟩ := ih hl
    have hb : (f a).toOption.getD default = b := by rw [ha]; rfl
    exact ⟨List.forall_mem_cons.mpr ⟨ha.trans (congrArg Except.ok hb.symm), hall⟩,
      congrArg (· :: _) hb.symm⟩

/-! ### Parts of bundles -/

theorem wireAt_eq_ok {b : Bundle} {i : Nat} {w : Wire} : b.wireAt i = .ok w ↔ b[i]? = some w := by
  unfold Bundle.wireAt
  cases b[i]? with
  | some w' => simp
  | none => simp

theorem msb_eq_ok {b : Bundle} {w : Wire} : b.msb = .ok w ↔ b.getLast? = some w := by
  unfold Bundle.msb
  cases b.getLast? with
  | some w' => simp
  | none => simp

theorem slice_eq_ok {b b' : Bundle} {lo hi : Nat} :
    b.slice lo hi = .ok b' ↔ (lo ≤ hi ∧ hi ≤ b.length) ∧ (b.take hi).drop lo = b' := by
  unfold Bundle.slice
  split
  · rename_i h
    simp [h]
  · rename_i h
    simp [h]

theorem inStep_eq_ok {xs : List α} {ys : List β} {l : List (α × β)} :
    inStep xs ys = .ok l ↔ xs.length = ys.length ∧ xs.zip ys = l := by
  unfold inStep
  split
  · rename_i h
    simp [h]
  · rename_i h
    simp [h]

/-- A position of a bundle has a wire. -/
theorem exists_wireAt {b : Bundle} {i : Nat} (h : i < b.length) : ∃ w ∈ b, b.wireAt i = .ok w :=
  ⟨b[i], List.getElem_mem h, wireAt_eq_ok.mpr (List.getElem?_eq_getElem h)⟩

/-- A bundle that is not empty has a most significant wire. -/
theorem exists_msb {b : Bundle} (h : b ≠ []) : ∃ w ∈ b, b.msb = .ok w := by
  refine ⟨b.getLast h, List.getLast_mem h, ?_⟩
  unfold Bundle.msb
  rw [List.getLast?_eq_some_getLast h]

theorem mem_of_wireAt {b : Bundle} {i : Nat} {w : Wire} (h : b.wireAt i = .ok w) : w ∈ b :=
  List.mem_of_getElem? (wireAt_eq_ok.mp h)

theorem mem_of_msb {b : Bundle} {w : Wire} (h : b.msb = .ok w) : w ∈ b :=
  List.mem_of_getLast? (msb_eq_ok.mp h)

theorem mem_of_slice {b b' : Bundle} {lo hi : Nat} (h : b.slice lo hi = .ok b') :
    ∀ w ∈ b', w ∈ b := by
  obtain ⟨-, rfl⟩ := slice_eq_ok.mp h
  intro w hw
  exact List.mem_of_mem_take (List.mem_of_mem_drop hw)

theorem length_of_inStep {xs : List α} {ys : List β} {l : List (α × β)} (h : inStep xs ys = .ok l) :
    l.length = xs.length ∧ l.length = ys.length := by
  obtain ⟨hlen, rfl⟩ := inStep_eq_ok.mp h
  rw [List.length_zip, ← hlen, Nat.min_self]
  exact ⟨rfl, rfl⟩

theorem mem_of_inStep {xs : List α} {ys : List β} {l : List (α × β)} (h : inStep xs ys = .ok l) :
    ∀ p ∈ l, p.1 ∈ xs ∧ p.2 ∈ ys := by
  obtain ⟨-, rfl⟩ := inStep_eq_ok.mp h
  intro p hp
  exact List.of_mem_zip hp

/-! ### Requirements -/

theorem requireWidth_eq_ok {b : Bundle} {n : Nat} : requireWidth b n = .ok () ↔ b.length = n := by
  unfold requireWidth
  split
  · rename_i h
    simp [h]
  · rename_i h
    simp [h]

/-- The only wire of a bundle. -/
theorem eq_singleton_of_wireAt {out : Bundle} {w : Wire} (hlen : requireWidth out 1 = .ok ())
    (hw : out.wireAt 0 = .ok w) : out = [w] := by
  obtain ⟨o, rfl⟩ := List.length_eq_one_iff.mp (requireWidth_eq_ok.mp hlen)
  cases wireAt_eq_ok.mp hw
  rfl

theorem requireNonempty_eq_ok {bundles : List Bundle} :
    requireNonempty bundles = .ok () ↔ ∀ b ∈ bundles, b ≠ [] := by
  unfold requireNonempty
  split
  · rename_i h
    simpa using h
  · rename_i h
    have hnil : [] ∉ bundles := by simpa using h
    simp only [true_iff]
    exact fun b hb he => hnil (he ▸ hb)

/-- The only thing that the check says of an empty bundle. -/
theorem requireNonempty_eq_error {bundles : List Bundle} (h : [] ∈ bundles) :
    requireNonempty bundles = .error (.widthMismatch 0 1) := by
  unfold requireNonempty
  rw [if_pos (List.any_eq_true.mpr ⟨[], h, rfl⟩)]

theorem requireTemps_eq_ok {temps : Bundle} {n : Nat} :
    requireTemps temps n = .ok () ↔ n ≤ temps.length := by
  unfold requireTemps
  split
  · rename_i h
    simp [h]
  · rename_i h
    simp [Nat.not_lt.mp h]

theorem requireBelow_eq_ok {limit n : Nat} : requireBelow limit n = .ok () ↔ n < limit := by
  unfold requireBelow
  split
  · rename_i h
    simp [h]
  · rename_i h
    simp [h]

theorem difference_eq_ok {n k : Nat} (h : k ≤ n) : difference n k = .ok (n - k) :=
  if_pos h

theorem difference_eq_ok_iff {n k d : Nat} : difference n k = .ok d ↔ k ≤ n ∧ n - k = d := by
  unfold difference
  split
  · rename_i h
    simp [h]
  · rename_i h
    simp [h]

theorem requireDistinct_eq_ok {written others : List Bundle} :
    requireDistinct written others = .ok () ↔
      ∀ b ∈ written, ∀ o ∈ others, ∀ w ∈ b, w ∉ o := by
  unfold requireDistinct
  split
  · rename_i h
    simpa [Bundle.disjoint] using h
  · rename_i h
    simpa [Bundle.disjoint] using h

/-! ### Where the bits of a sum go -/

theorem some_mem_targets {sink : Sink} {w : Wire} : some w ∈ sink.targets ↔ w ∈ sink.wires := by
  cases sink with
  | all out => simp [Sink.targets, Sink.wires]
  | bit position out => simp [Sink.targets, Sink.wires]

theorem mem_of_targets {sink : Sink} {t : Option Wire} (ht : t ∈ sink.targets) :
    ∀ w ∈ t, w ∈ sink.wires := by
  rintro w rfl
  exact some_mem_targets.mp ht

/-- A width that is a size is the number of bits that are wanted or below one that is. -/
theorem Sink.length_targets {sink : Sink} {width : Nat} (h : sink.width = .ok width) :
    sink.targets.length = width := by
  cases sink with
  | all out =>
    cases h
    exact List.length_map _
  | bit position out =>
    simp only [Sink.width] at h
    split at h
    · cases h
      simp [targets]
    · cases h

theorem requireOperands_eq_ok {a b : Bundle} {sink : Sink} (h : requireOperands a b sink = .ok ()) :
    ∀ w ∈ sink.wires, w ∉ a ∧ w ∉ b := by
  unfold requireOperands at h
  obtain ⟨-, -, h⟩ := bind_eq_ok.mp h
  obtain ⟨-, -, h⟩ := bind_eq_ok.mp h
  have hd := requireDistinct_eq_ok.mp h sink.wires (by simp)
  exact fun w hw => ⟨hd a (by simp) w hw, hd b (by simp) w hw⟩

end BitCircuit
