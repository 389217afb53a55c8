/-
# How build steps run

A sequence of steps that succeeds is made of steps that succeed, so its run can be taken
apart (`Build.exec_bind_eq_ok`). Three ways to say what a step does are closed under the ways
steps are put together:

* `Build.Keeps I x Q`: from a circuit with `I` the step leaves one with `I`, whether it is
  refused or not, and what it returns has `Q`;
* `Build.Yields x c Q`: on the circuit `c` the step is not refused, and its result and the
  circuit it leaves are as `Q` says;
* `Build.Refuses x c e`: on the circuit `c` the step is refused with `e`.

Key definitions: `Build.Keeps`, `Build.Yields`, `Build.Refuses`.
Key theorems: `Build.exec_bind_eq_ok`, `Build.Keeps.bind`, `Build.Yields.bind`,
`Build.Yields.refuses`.
-/
import Mathlib.Tactic.Common
import BitCircuit.Circuit.Basic

namespace BitCircuit

variable {α β : Type}

/-! ### Lists of checks -/

/-- A check of a list passes if that of each entry does. -/
theorem forM_eq_ok {f : α → Except Error Unit} : ∀ {l : List α},
    l.forM f = .ok () ↔ ∀ a ∈ l, f a = .ok ()
  | [] => by simp [pure, Except.pure]
  | a :: l => by
    rw [List.forM_eq_forM, List.forM_cons, List.forall_mem_cons, ← forM_eq_ok, ← List.forM_eq_forM]
    cases f a <;> simp [bind, Except.bind]

/-- Checks that agree on the entries of a list. -/
theorem forM_congr {f f' : α → Except Error Unit} : ∀ {l : List α}, (∀ a ∈ l, f a = f' a) →
    l.forM f = l.forM f'
  | [], _ => rfl
  | a :: l, h => by
    obtain ⟨ha, hl⟩ := List.forall_mem_cons.mp h
    have ih : forM l f = forM l f' := forM_congr hl
    rw [List.forM_eq_forM, List.forM_cons, List.forM_cons, ha, ih]

theorem mapM_eq_ok {f : α → Except Error β} {g : α → β} : ∀ {l : List α},
    (∀ a ∈ l, f a = .ok (g a)) → l.mapM f = .ok (l.map g)
  | [], _ => by
    rw [List.mapM_nil]
    rfl
  | a :: l, h => by
    obtain ⟨ha, hl⟩ := List.forall_mem_cons.mp h
    rw [List.mapM_cons, ha, mapM_eq_ok hl]
    rfl

theorem forM_array {m : Type → Type} [Monad m] (xs : Array α) (f : α → m Unit) :
    Array.forM f xs = xs.toList.forM f := by
  cases xs with
  | mk l => simp

namespace Build

/-! ### Taking a run apart -/

/-- Two steps succeed together if the first one does and then the second one. -/
theorem exec_bind_eq_ok {x : Build α} {f : α → Build β} {c c' : Circuit} {b : β} :
    (x >>= f).exec c = (.ok b, c') ↔
      ∃ a c₁, x.exec c = (.ok a, c₁) ∧ (f a).exec c₁ = (.ok b, c') := by
  rw [exec_bind]
  rcases hx : x.exec c with ⟨r, c₁⟩
  cases r with
  | ok a => simp
  | error e => simp

theorem exec_check_eq_ok {check : Except Error α} {c c' : Circuit} {a : α} :
    (liftM check : Build α).exec c = (.ok a, c') ↔ check = .ok a ∧ c' = c := by
  rw [exec_liftM, Prod.mk.injEq, eq_comm (a := c)]

/-- A check in front of a step. -/
theorem exec_check_bind {check : Except Error α} {f : α → Build β} {c c' : Circuit} {b : β} :
    ((liftM check : Build α) >>= f).exec c = (.ok b, c') ↔
      ∃ a, check = .ok a ∧ (f a).exec c = (.ok b, c') := by
  rw [exec_bind, exec_liftM]
  cases check with
  | ok a => simp
  | error e => simp

theorem exec_pure_eq_ok {a b : α} {c c' : Circuit} :
    (pure a : Build α).exec c = (.ok b, c') ↔ b = a ∧ c' = c := by
  simp [eq_comm]

theorem exec_throw_eq_ok {e : Error} {a : α} {c c' : Circuit} :
    (throw e : Build α).exec c = (.ok a, c') ↔ False := by
  simp

/-- One step for each entry of a list gives one result for each. -/
theorem length_of_mapM {f : α → Build β} : ∀ {l : List α} {bs : List β} {c c' : Circuit},
    (l.mapM f).exec c = (.ok bs, c') → bs.length = l.length
  | [], bs, c, c', h => by
    rw [List.mapM_nil] at h
    obtain ⟨rfl, -⟩ := exec_pure_eq_ok.mp h
    rfl
  | a :: l, bs, c, c', h => by
    rw [List.mapM_cons] at h
    obtain ⟨b, c₁, -, h⟩ := exec_bind_eq_ok.mp h
    obtain ⟨bs', c₂, hbs, h⟩ := exec_bind_eq_ok.mp h
    obtain ⟨rfl, -⟩ := exec_pure_eq_ok.mp h
    rw [List.length_cons, List.length_cons, length_of_mapM hbs]

theorem exists_ok {x : Build Unit} {c : Circuit} (h : (x.exec c).1.isOk = true) :
    ∃ c', x.exec c = (.ok (), c') := by
  rcases hx : x.exec c with ⟨r, c'⟩
  rw [hx] at h
  cases r with
  | ok u => exact ⟨c', rfl⟩
  | error e => cases h

/-! ### What a step keeps -/

/-- From a circuit with `I` the step leaves one with `I`, whether it is refused or not, and
what it returns has `Q`. -/
def Keeps (I : Circuit → Prop) (x : Build α) (Q : α → Prop) : Prop :=
  ∀ c, I c → I (x.exec c).2 ∧ ∀ a, (x.exec c).1 = .ok a → Q a

variable {I : Circuit → Prop} {Q : α → Prop} {R : β → Prop}

theorem Keeps.mono {x : Build α} {Q' : α → Prop} (h : Keeps I x Q) (hQ : ∀ a, Q a → Q' a) :
    Keeps I x Q' :=
  fun c hc => ⟨(h c hc).1, fun a ha => hQ a ((h c hc).2 a ha)⟩

theorem Keeps.any {x : Build α} (h : Keeps I x Q) : Keeps I x fun _ => True :=
  h.mono fun _ _ => trivial

theorem Keeps.of_exec {x : Build α} {r : Except Error α} {c c' : Circuit} (h : Keeps I x Q)
    (hx : x.exec c = (r, c')) (hc : I c) : I c' := by
  have hafter := (h c hc).1
  rwa [hx] at hafter

theorem Keeps.pure {a : α} (h : Q a) : Keeps I (Pure.pure a) Q := by
  intro c hc
  refine ⟨hc, fun b hb => ?_⟩
  cases hb
  exact h

theorem Keeps.throw {e : Error} : Keeps I (throw e : Build α) Q := by
  intro c hc
  refine ⟨hc, fun b hb => ?_⟩
  cases hb

/-- A check leaves the circuit alone. -/
theorem Keeps.check {check : Except Error α} (h : ∀ a, check = .ok a → Q a) :
    Keeps I (liftM check : Build α) Q :=
  fun _ hc => ⟨hc, h⟩

theorem Keeps.checked {check : Except Error α} : Keeps I (liftM check : Build α) fun _ => True :=
  Keeps.check fun _ _ => trivial

/-- A step that looks at the circuit first. -/
theorem Keeps.of_get {f : Circuit → Build α}
    (h : ∀ c, I c → I ((f c).exec c).2 ∧ ∀ a, ((f c).exec c).1 = .ok a → Q a) :
    Keeps I (MonadState.get >>= f) Q := by
  intro c hc
  rw [exec_bind, exec_get]
  exact h c hc

theorem Keeps.bind {x : Build α} {f : α → Build β} (hx : Keeps I x Q)
    (hf : ∀ a, Q a → Keeps I (f a) R) : Keeps I (x >>= f) R := by
  intro c hc
  obtain ⟨hI, hQ⟩ := hx c hc
  rw [exec_bind]
  rcases hr : x.exec c with ⟨r, c₁⟩
  rw [hr] at hI hQ
  cases r with
  | ok a => exact hf a (hQ a rfl) c₁ hI
  | error e => exact ⟨hI, fun b hb => by cases hb⟩

/-- A check in front of a step. -/
theorem Keeps.after {x : Build α} {f : α → Build β} (hx : Keeps I x Q)
    (hf : ∀ a, Keeps I (f a) R) : Keeps I (x >>= f) R :=
  hx.bind fun a _ => hf a

theorem Keeps.forM {f : α → Build Unit} : ∀ {l : List α},
    (∀ a ∈ l, Keeps I (f a) fun _ => True) → Keeps I (l.forM f) fun _ => True
  | [], _ => Keeps.pure trivial
  | a :: l, h => by
    rw [List.forM_eq_forM, List.forM_cons]
    refine Keeps.after (h a List.mem_cons_self) fun _ => ?_
    exact Keeps.forM (l := l) fun b hb => h b (List.mem_cons_of_mem a hb)

theorem Keeps.mapM {f : α → Build β} : ∀ {l : List α},
    (∀ a ∈ l, Keeps I (f a) R) → Keeps I (l.mapM f) fun bs => ∀ b ∈ bs, R b
  | [], _ => by
    rw [List.mapM_nil]
    exact Keeps.pure (by simp)
  | a :: l, h => by
    rw [List.mapM_cons]
    refine Keeps.bind (h a List.mem_cons_self) fun b hb => ?_
    refine Keeps.bind (Keeps.mapM (l := l) fun x hx => h x (List.mem_cons_of_mem a hx)) fun bs hbs => ?_
    exact Keeps.pure (List.forall_mem_cons.mpr ⟨hb, hbs⟩)

theorem Keeps.foldlM {f : β → α → Build β} : ∀ {l : List α} {b : β}, R b →
    (∀ a ∈ l, ∀ b, R b → Keeps I (f b a) R) → Keeps I (l.foldlM f b) R
  | [], b, hb, _ => Keeps.pure hb
  | a :: l, b, hb, h => by
    rw [List.foldlM_cons]
    refine Keeps.bind (h a List.mem_cons_self b hb) fun b' hb' => ?_
    exact Keeps.foldlM (l := l) hb' fun x hx => h x (List.mem_cons_of_mem a hx)

/-! ### What a step yields -/

/-- On the circuit `c` the step is not refused, and its result and the circuit it leaves are
as `Q` says. -/
def Yields (x : Build α) (c : Circuit) (Q : α → Circuit → Prop) : Prop :=
  ∃ a c', x.exec c = (.ok a, c') ∧ Q a c'

variable {c : Circuit} {P : α → Circuit → Prop} {P' : β → Circuit → Prop}

theorem Yields.mono {x : Build α} {P' : α → Circuit → Prop} (h : x.Yields c P)
    (hP : ∀ a c', P a c' → P' a c') : x.Yields c P' := by
  obtain ⟨a, c', hx, ha⟩ := h
  exact ⟨a, c', hx, hP a c' ha⟩

theorem Yields.pure {a : α} (h : P a c) : (Pure.pure a : Build α).Yields c P :=
  ⟨a, c, rfl, h⟩

theorem Yields.check {check : Except Error α} {a : α} (hc : check = .ok a) (h : P a c) :
    (liftM check : Build α).Yields c P :=
  ⟨a, c, by rw [exec_liftM, hc], h⟩

/-- A step that runs as another one does from where its first part has led. -/
theorem Yields.of_exec_eq {x y : Build α} {c' : Circuit} (h : x.exec c = y.exec c') (hy : y.Yields c' P) :
    x.Yields c P := by
  unfold Yields
  rw [h]
  exact hy

/-- A step that looks at the circuit first. -/
theorem Yields.of_get {f : Circuit → Build α} (h : (f c).Yields c P) :
    (MonadState.get >>= f).Yields c P := by
  unfold Yields
  rw [exec_bind, exec_get]
  exact h

theorem Yields.bind {x : Build α} {f : α → Build β} (hx : x.Yields c P)
    (hf : ∀ a c', P a c' → (f a).Yields c' P') : (x >>= f).Yields c P' := by
  obtain ⟨a, c₁, hxa, ha⟩ := hx
  obtain ⟨b, c₂, hfb, hb⟩ := hf a c₁ ha
  exact ⟨b, c₂, exec_bind_eq_ok.mpr ⟨a, c₁, hxa, hfb⟩, hb⟩

/-- A check that holds in front of a step. -/
theorem Yields.checked {check : Except Error α} {f : α → Build β} {a : α} (hc : check = .ok a)
    (hf : (f a).Yields c P') : ((liftM check : Build α) >>= f).Yields c P' :=
  Yields.bind (P := fun b c' => b = a ∧ c' = c) (Yields.check hc ⟨rfl, rfl⟩) fun _ _ h => by
    obtain ⟨rfl, rfl⟩ := h
    exact hf

/-- A step repeated over a list, each time from what the last one left. -/
theorem Yields.foldlM {f : β → α → Build β} : ∀ {l : List α} {b : β} {c : Circuit}, P' b c →
    (∀ a ∈ l, ∀ b c, P' b c → (f b a).Yields c P') → (l.foldlM f b).Yields c P'
  | [], _, _, hb, _ => .pure hb
  | a :: l, b, c, hb, hf => by
    rw [List.foldlM_cons]
    refine .bind (hf a List.mem_cons_self b c hb) fun b' c' hb' => ?_
    exact Yields.foldlM hb' fun a' ha' => hf a' (List.mem_cons_of_mem a ha')

/-! ### Refused steps -/

/-- On the circuit `c` the step is refused with `e`. -/
def Refuses (x : Build α) (c : Circuit) (e : Error) : Prop :=
  (x.exec c).1 = .error e

instance [DecidableEq α] (x : Build α) (c : Circuit) (e : Error) : Decidable (x.Refuses c e) :=
  inferInstanceAs (Decidable (_ = _))

variable {e : Error}

/-- A step that returns nothing is refused. -/
theorem exists_refuses {x : Build α} (h : ∀ a c', x.exec c ≠ (.ok a, c')) : ∃ e, x.Refuses c e := by
  unfold Refuses
  rcases hx : x.exec c with ⟨r, c'⟩
  cases r with
  | ok a => exact absurd hx (h a c')
  | error e => exact ⟨e, rfl⟩

theorem Refuses.of_exec_eq {x y : Build α} {c' : Circuit} (h : x.exec c = y.exec c')
    (hy : y.Refuses c' e) : x.Refuses c e := by
  unfold Refuses
  rw [h]
  exact hy

theorem Refuses.bind {x : Build α} {f : α → Build β} (h : x.Refuses c e) : (x >>= f).Refuses c e := by
  unfold Refuses at h ⊢
  rw [exec_bind]
  rcases hx : x.exec c with ⟨r, c'⟩
  rw [hx] at h
  cases h
  rfl

/-- A check that fails in front of a step. -/
theorem Refuses.checked {check : Except Error α} {f : α → Build β} (h : check = .error e) :
    ((liftM check : Build α) >>= f).Refuses c e :=
  Refuses.bind (by rw [Refuses, exec_liftM, h])

/-- A step that is refused after a check that holds. -/
theorem Refuses.passed {check : Except Error α} {f : α → Build β} {a : α} (hc : check = .ok a)
    (hf : (f a).Refuses c e) : ((liftM check : Build α) >>= f).Refuses c e := by
  exact .of_exec_eq (by rw [exec_bind, exec_liftM, hc]) hf

/-- A step that is refused after another one. -/
theorem Yields.refuses {x : Build α} {f : α → Build β} (hx : x.Yields c P)
    (hf : ∀ a c', P a c' → (f a).Refuses c' e) : (x >>= f).Refuses c e := by
  obtain ⟨a, c', hxa, ha⟩ := hx
  exact .of_exec_eq (by rw [exec_bind, hxa]) (hf a c' ha)

end Build
end BitCircuit
