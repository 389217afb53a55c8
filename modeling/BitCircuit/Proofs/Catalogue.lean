/-
# A catalogue answers like one that is new

A catalogue remembers the circuits it has made, but what it answers to a request depends on
nothing but the request (`catalogue_is_pure`). The shape under which a circuit is kept determines
the request (`Shape.request_eq`), so after any requests the catalogue holds, for each shape that was
asked for with success, exactly the circuit that belongs to it (`Catalogue.Holds`). Only the report
tells a first request from a later one.

Key definitions: `Catalogue.Response`, `Catalogue.serve`, `Catalogue.afterAll`, `Shape.request`.
Key theorems: `Shape.request_eq`, `Catalogue.Holds.serve`, `Catalogue.holds_afterAll`,
`catalogue_is_pure`.
-/
import Mathlib.Data.List.Induction
import BitCircuit.Catalogue.Basic
import BitCircuit.Proofs.Execution

namespace BitCircuit

variable {r r' : Request} {s : Shape} {c : Circuit} {e : Error}

/-! ### Shapes and requests -/

/-- The request whose circuit is kept under a shape. -/
def Shape.request (s : Shape) : Request :=
  match s.operation with
  | .add => .addSub .addition s.encoding s.a s.b s.c s.objective
  | .addMsb => .addMsb s.a s.objective
  | .addConst v => .addSubConst .addition s.a s.b v s.c s.objective
  | .subtract => .addSub .subtraction s.encoding s.a s.b s.c s.objective
  | .subMsb => .subMsb s.encoding s.a s.b s.objective
  | .subtractConst v => .addSubConst .subtraction s.a s.b v s.c s.objective
  | .multiply => .multiply s.encoding s.a s.b s.c s.objective
  | .divide => .divide s.encoding s.a s.b s.c
  | .equal => .equal s.a
  | .notEqual => .notEqual s.a
  | .lessThan => .lessThan s.encoding s.a s.b s.objective
  | .atLeast => .atLeast s.encoding s.a s.b s.objective
  | .select => .select s.a
  | .magnitude => .magnitude s.a s.objective
  | .applySign => .applySign s.a s.objective
  | .negate => .negate s.a s.objective
  | .isZero => .isZero s.a
  | .complement => .complement s.a
  | .bitwise op => .bitwise op s.a s.b s.c
  | .aes => .aes (s.b / 128 - 1)

/-- **A shape determines the request.** All that the recipe of a request reads is part of its
shape. -/
theorem Shape.request_eq (h : r.shape = .ok s) : s.request = r := by
  cases r with
  | addSub dir enc a b c obj => cases dir <;> cases h <;> rfl
  | addSubConst dir a b v c obj => cases dir <;> cases h <;> rfl
  | aes rounds =>
    rw [Request.shape, Aes.keyWidth] at h
    split at h
    · cases h
      have hrounds : 128 * (rounds + 1) / 128 - 1 = rounds := by omega
      exact congrArg Request.aes hrounds
    · cases h
  | _ =>
    cases h
    rfl

/-- A request without a shape has no circuit, for the same reason. -/
theorem Request.circuit_of_shape_eq_error (h : r.shape = .error e) : r.circuit = .error e := by
  cases r with
  | addSub dir enc a b c obj => cases dir <;> cases h
  | addSubConst dir a b v c obj => cases dir <;> cases h
  | aes rounds =>
    rw [Request.shape] at h
    cases hk : Aes.keyWidth rounds with
    | ok n =>
      rw [hk] at h
      cases h
    | error e' =>
      rw [hk] at h
      cases h
      rw [Request.circuit, Request.build, Build.exec_bind, Build.exec_liftM, hk]
  | _ => cases h

namespace Catalogue

variable {cat : Catalogue} {before : List Request}

/-! ### One request -/

/-- What comes of a request: what it returns, the event it reports, if any, and the catalogue
after it. -/
structure Response where
  result : Except Error Circuit
  event : Option Event
  catalogue : Catalogue

/-- Serves a request. One that fails leaves the catalogue as it was and reports nothing. -/
def serve (cat : Catalogue) (r : Request) : Response :=
  match cat.fetch r with
  | .ok fetched => ⟨.ok fetched.circuit, some fetched.event, fetched.catalogue⟩
  | .error e => ⟨.error e, none, cat⟩

theorem serve_hit (hs : r.shape = .ok s) (hf : cat.find? s = some c) :
    cat.serve r = ⟨.ok c, some (.hit s), cat⟩ := by
  simp [serve, fetch, hs, hf, bind, Except.bind, pure, Except.pure]

theorem serve_built (hs : r.shape = .ok s) (hf : cat.find? s = none) (hc : r.circuit = .ok c) :
    cat.serve r = ⟨.ok c, some (.built s c.gates.size c.wires.size), cat.insert s c⟩ := by
  simp [serve, fetch, hs, hf, hc, bind, Except.bind, pure, Except.pure]

theorem serve_refused (hs : ∀ s, r.shape = .ok s → cat.find? s = none) (hc : r.circuit = .error e) :
    cat.serve r = ⟨.error e, none, cat⟩ := by
  unfold serve fetch
  cases hshape : r.shape with
  | ok s => simp [hs s hshape, hc, bind, Except.bind]
  | error e' =>
    cases hc.symm.trans (Request.circuit_of_shape_eq_error hshape)
    simp [bind, Except.bind]

theorem find?_insert {s' : Shape} :
    (cat.insert s c).find? s' = if s' = s then some c else cat.find? s' := by
  unfold find? insert
  rw [List.lookup_cons]
  by_cases h : s' = s
  · simp [h]
  · simp [h, beq_eq_false_iff_ne.mpr h]

/-! ### Any requests -/

/-- The catalogue after some requests, from an empty one. -/
def afterAll (requests : List Request) : Catalogue :=
  requests.foldl (fun cat r => (cat.serve r).catalogue) .empty

/-- Some of the requests asked for the shape with success. -/
def Served (before : List Request) (s : Shape) (c : Circuit) : Prop :=
  ∃ r ∈ before, r.shape = .ok s ∧ r.circuit = .ok c

/-- The catalogue holds what the requests before asked for, each shape once. -/
structure Holds (before : List Request) (cat : Catalogue) : Prop where
  find : ∀ s c, cat.find? s = some c ↔ Served before s c
  nodup : (cat.entries.map Prod.fst).Nodup

theorem Served.circuit (h : Served before s c) (hs : r.shape = .ok s) : r.circuit = .ok c := by
  obtain ⟨r', -, hs', hc⟩ := h
  rw [← Shape.request_eq hs, Shape.request_eq hs', hc]

theorem served_concat :
    Served (before ++ [r]) s c ↔ Served before s c ∨ r.shape = .ok s ∧ r.circuit = .ok c := by
  simp only [Served, List.mem_append, List.mem_singleton]
  constructor
  · rintro ⟨r', hr' | rfl, h⟩
    · exact .inl ⟨r', hr', h⟩
    · exact .inr h
  · rintro (⟨r', hr', h⟩ | h)
    · exact ⟨r', .inl hr', h⟩
    · exact ⟨r, .inr rfl, h⟩

theorem find?_eq_none : cat.find? s = none ↔ s ∉ cat.entries.map Prod.fst := by
  unfold find?
  rw [List.lookup_eq_none_iff]
  constructor
  · intro h hs
    obtain ⟨p, hp, rfl⟩ := List.mem_map.mp hs
    exact absurd rfl (bne_iff_ne.mp (h p hp))
  · exact fun h p hp => bne_iff_ne.mpr fun he => h (List.mem_map.mpr ⟨p, hp, he.symm⟩)

/-- **What can come of a request** once the catalogue has served others: there is no circuit; there
is one, and it was asked for before; or it is asked for the first time. -/
theorem Holds.serve_cases (h : Holds before cat) (r : Request) :
    (∃ e, r.circuit = .error e ∧ cat.serve r = ⟨.error e, none, cat⟩) ∨
    (∃ s c, r.shape = .ok s ∧ r.circuit = .ok c ∧ Served before s c ∧
      cat.serve r = ⟨.ok c, some (.hit s), cat⟩) ∨
    (∃ s c, r.shape = .ok s ∧ r.circuit = .ok c ∧ cat.find? s = none ∧
      cat.serve r = ⟨.ok c, some (.built s c.gates.size c.wires.size), cat.insert s c⟩) := by
  cases hs : r.shape with
  | error e =>
    have hc := Request.circuit_of_shape_eq_error hs
    exact .inl ⟨e, hc, serve_refused (fun s hs' => by cases hs.symm.trans hs') hc⟩
  | ok s =>
    cases hf : cat.find? s with
    | some c =>
      have hserved := (h.find s c).mp hf
      exact .inr (.inl ⟨s, c, rfl, hserved.circuit hs, hserved, serve_hit hs hf⟩)
    | none =>
      cases hc : r.circuit with
      | ok c => exact .inr (.inr ⟨s, c, rfl, rfl, hf, serve_built hs hf hc⟩)
      | error e =>
        refine .inl ⟨e, rfl, serve_refused (fun s' hs' => ?_) hc⟩
        cases hs.symm.trans hs'
        exact hf

/-- One request more: the catalogue holds what was asked for with it, too. -/
theorem Holds.serve (h : Holds before cat) (r : Request) :
    Holds (before ++ [r]) (cat.serve r).catalogue := by
  obtain ⟨e, hc, hserve⟩ | ⟨s, c, hs, hc, hserved, hserve⟩ | ⟨s, c, hs, hc, hf, hserve⟩ :=
    h.serve_cases r
  · rw [hserve]
    refine ⟨fun s' c' => ?_, h.nodup⟩
    rw [h.find, served_concat, hc]
    simp
  · rw [hserve]
    refine ⟨fun s' c' => ?_, h.nodup⟩
    rw [h.find, served_concat, or_iff_left_of_imp]
    rintro ⟨hs', hc'⟩
    cases hs.symm.trans hs'
    cases hc.symm.trans hc'
    exact hserved
  · rw [hserve]
    refine ⟨fun s' c' => ?_, List.nodup_cons.mpr ⟨find?_eq_none.mp hf, h.nodup⟩⟩
    rw [find?_insert, served_concat, hs, hc, ← h.find]
    by_cases he : s' = s
    · subst he
      simp [hf]
    · simp [he, Ne.symm he]

theorem holds_empty : Holds [] .empty :=
  ⟨fun s c => by simp [find?, empty, Served], by simp [empty]⟩

/-- After any requests the catalogue holds what they asked for. -/
theorem holds_afterAll (requests : List Request) : Holds requests (afterAll requests) := by
  induction requests using List.reverseRecOn with
  | nil => exact holds_empty
  | append_singleton requests r ih =>
    unfold afterAll at ih ⊢
    rw [List.foldl_append]
    exact ih.serve r

theorem Holds.result_eq (h : Holds before cat) (r : Request) : (cat.serve r).result = r.circuit := by
  obtain ⟨e, hc, hserve⟩ | ⟨s, c, -, hc, -, hserve⟩ | ⟨s, c, -, hc, -, hserve⟩ := h.serve_cases r
  · rw [hserve, hc]
  · rw [hserve, hc]
  · rw [hserve, hc]

end Catalogue

open Catalogue in
/-- **A catalogue is a function of the request.** Whatever was asked for before, a request returns
what it returns from an empty catalogue: the circuit that its recipe makes, or why there is none.
The catalogue holds each shape that was asked for with success, once and with the circuit that
every request of this shape has, and no two requests have one shape. The first request of a shape
that succeeds is reported as built and every later one as a hit; one that fails is not reported
and leaves the catalogue alone. -/
theorem catalogue_is_pure (before : List Request) (r : Request) :
    ((afterAll before).serve r).result = (Catalogue.empty.serve r).result ∧
    (Catalogue.empty.serve r).result = r.circuit ∧
    (∀ s c, (afterAll before).find? s = some c ↔ Served before s c) ∧
    ((afterAll before).entries.map Prod.fst).Nodup ∧
    (∀ s c, (afterAll before).find? s = some c → ∀ r' : Request, r'.shape = .ok s → r'.circuit = .ok c) ∧
    (∀ (s : Shape) (r' : Request), r.shape = .ok s → r'.shape = .ok s → r' = r) ∧
    (∀ s c, r.shape = .ok s → r.circuit = .ok c →
      ((∃ c', Served before s c') → ((afterAll before).serve r).event = some (.hit s)) ∧
      ((¬ ∃ c', Served before s c') →
        ((afterAll before).serve r).event = some (.built s c.gates.size c.wires.size))) ∧
    (∀ e, r.circuit = .error e →
      ((afterAll before).serve r).event = none ∧
        ((afterAll before).serve r).catalogue = afterAll before) := by
  have h := holds_afterAll before
  refine ⟨(h.result_eq r).trans (holds_empty.result_eq r).symm, holds_empty.result_eq r, h.find,
    h.nodup, fun s c hf r' hs => ((h.find s c).mp hf).circuit hs, fun s r' hs hs' => ?_,
    fun s c hs hc => ?_, fun e he => ?_⟩
  · rw [← Shape.request_eq hs', Shape.request_eq hs]
  · obtain ⟨e, hc', -⟩ | ⟨s', c', hs', -, hserved, hserve⟩ | ⟨s', c', hs', hc', hf, hserve⟩ :=
      h.serve_cases r
    · cases hc.symm.trans hc'
    · cases hs.symm.trans hs'
      rw [hserve]
      exact ⟨fun _ => rfl, fun hnew => absurd ⟨c', hserved⟩ hnew⟩
    · cases hs.symm.trans hs'
      cases hc.symm.trans hc'
      rw [hserve]
      refine ⟨?_, fun _ => rfl⟩
      rintro ⟨c', hserved⟩
      cases hf.symm.trans ((h.find s c').mpr hserved)
  · obtain ⟨e', -, hserve⟩ | ⟨s, c, -, hc, -⟩ | ⟨s, c, -, hc, -⟩ := h.serve_cases r
    · rw [hserve]
      exact ⟨rfl, rfl⟩
    · cases he.symm.trans hc
    · cases he.symm.trans hc

end BitCircuit
