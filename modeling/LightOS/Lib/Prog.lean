import Mathlib.Tactic

/-!
# Stateful programs that may stop

A program runs on a state and either returns a value with a new state or stops
with a fault. `Wp` is its weakest precondition with one postcondition for
returning and one for stopping, so that a single rule set covers total
correctness (no fault allowed), partial correctness (any fault allowed) and
everything between. Nothing here depends on what the state or the faults are.
-/
namespace LightOS.Lib

/-- Programs over a state `σ` that may stop with a fault `ε`. -/
abbrev Prog (σ ε α : Type) := StateT σ (Except ε) α

namespace Prog

variable {σ τ ε α β : Type}

/-- Stop here with the given fault. -/
def stop (e : ε) : Prog σ ε α := fun _ => .error e

/-- Run a program of a component on the whole state. -/
def zoom (get : σ → τ) (set : τ → σ → σ) (x : Prog τ ε α) : Prog σ ε α := fun s =>
  match x (get s) with
  | .ok (a, t) => .ok (a, set t s)
  | .error e => .error e

/-- Embed a computation that uses no state. -/
def ofExcept (x : Except ε α) : Prog σ ε α := fun s => x.map (·, s)

/-- Run the body for every element in order. -/
def each (f : β → Prog σ ε PUnit) : List β → Prog σ ε PUnit
  | [] => pure ()
  | b :: bs => do
    f b
    each f bs

/-- Run the body for every element in order, leaving the loop at the first
element on which it returns an error value. -/
def tryEach {γ : Type} (f : β → Prog σ ε (Except γ PUnit)) :
    List β → Prog σ ε (Except γ PUnit)
  | [] => pure (.ok ⟨⟩)
  | b :: bs => do
    match ← f b with
    | .ok _ => tryEach f bs
    | .error c => pure (.error c)

/-- A loop over images is a loop over the originals. -/
theorem tryEach_map {γ δ : Type} (f : β → Prog σ ε (Except γ PUnit)) (g : δ → β) (l : List δ) :
    tryEach f (l.map g) = tryEach (fun d => f (g d)) l := by
  induction l with
  | nil => rfl
  | cons d l ih =>
      rw [List.map_cons, tryEach, tryEach, ih]

@[simp] theorem pure_apply (a : α) (s : σ) : (pure a : Prog σ ε α) s = .ok (a, s) := rfl

@[simp] theorem get_apply (s : σ) : (get : Prog σ ε σ) s = .ok (s, s) := rfl

@[simp] theorem set_apply (t s : σ) : (set t : Prog σ ε PUnit) s = .ok (⟨⟩, t) := rfl

@[simp] theorem modify_apply (f : σ → σ) (s : σ) :
    (modify f : Prog σ ε PUnit) s = .ok (⟨⟩, f s) := rfl

@[simp] theorem ofExcept_apply (a : α) (s : σ) :
    (ofExcept (.ok a) : Prog σ ε α) s = .ok (a, s) := rfl

@[simp] theorem stop_apply (e : ε) (s : σ) : (stop e : Prog σ ε α) s = .error e := rfl

theorem bind_apply (x : Prog σ ε α) (f : α → Prog σ ε β) (s : σ) :
    (x >>= f) s = match x s with
      | .ok (a, t) => f a t
      | .error e => .error e := by
  change StateT.bind x f s = _
  cases h : x s with
  | ok r => simp [StateT.bind, h, bind, Except.bind]
  | error e => simp [StateT.bind, h, bind, Except.bind]

/-- A returning bind is two returning halves. -/
theorem bind_ok {x : Prog σ ε α} {f : α → Prog σ ε β} {s : σ} {r : β × σ} :
    (x >>= f) s = .ok r ↔ ∃ a t, x s = .ok (a, t) ∧ f a t = .ok r := by
  rw [bind_apply]
  cases x s with
  | ok p =>
    obtain ⟨a, t⟩ := p
    simp
  | error e => simp

theorem map_ok {x : Prog σ ε α} {f : α → β} {s : σ} {r : β × σ} :
    (f <$> x) s = .ok r ↔ ∃ a t, x s = .ok (a, t) ∧ r = (f a, t) := by
  rw [map_eq_pure_bind, bind_ok]
  refine exists_congr fun a => exists_congr fun t => and_congr_right fun _ => ?_
  rw [pure_apply, Except.ok.injEq, eq_comm]

@[simp] theorem pure_ok {a : α} {s : σ} {r : α × σ} :
    (pure a : Prog σ ε α) s = .ok r ↔ r = (a, s) := by simp [eq_comm]

theorem pure_state {a b : α} {s t : σ} (h : (pure a : Prog σ ε α) s = .ok (b, t)) : t = s :=
  (Prod.mk.inj (pure_ok.mp h)).2

theorem pure_value {a b : α} {s t : σ} (h : (pure a : Prog σ ε α) s = .ok (b, t)) : b = a :=
  (Prod.mk.inj (pure_ok.mp h)).1

/-- An error ends the loop, whatever comes behind. -/
theorem tryEach_append_error {γ : Type} {f : β → Prog σ ε (Except γ PUnit)} {c : γ}
    {l l' : List β} {s t : σ} (h : tryEach f l s = .ok (.error c, t)) :
    tryEach f (l ++ l') s = .ok (.error c, t) := by
  induction l generalizing s with
  | nil => cases pure_value h
  | cons b l ih =>
    rw [tryEach] at h
    rw [List.cons_append, tryEach]
    obtain ⟨res, u, h1, h2⟩ := bind_ok.mp h
    refine bind_ok.mpr ⟨res, u, h1, ?_⟩
    cases res with
    | ok x => exact ih h2
    | error e => exact h2

/-- A program that begins by looking at the state. -/
theorem get_bind_ok {f : σ → Prog σ ε β} {s : σ} {r : β × σ} :
    (get >>= f) s = .ok r ↔ f s s = .ok r := by rw [bind_apply, get_apply]

theorem modify_bind_ok {f : σ → σ} {g : PUnit → Prog σ ε β} {s : σ} {r : β × σ} :
    (modify f >>= g) s = .ok r ↔ g ⟨⟩ (f s) = .ok r := by rw [bind_apply, modify_apply]

@[simp] theorem get_ok {s : σ} {r : σ × σ} : (get : Prog σ ε σ) s = .ok r ↔ r = (s, s) := by
  simp [eq_comm]

@[simp] theorem set_ok {t s : σ} {r : PUnit × σ} :
    (set t : Prog σ ε PUnit) s = .ok r ↔ r.2 = t := by
  obtain ⟨⟨⟩, u⟩ := r
  simp [eq_comm]

@[simp] theorem modify_ok {f : σ → σ} {s : σ} {r : PUnit × σ} :
    (modify f : Prog σ ε PUnit) s = .ok r ↔ r.2 = f s := by
  obtain ⟨⟨⟩, u⟩ := r
  simp [eq_comm]

@[simp] theorem stop_ok {e : ε} {s : σ} {r : α × σ} :
    (stop e : Prog σ ε α) s = .ok r ↔ False := by simp

/-- Weakest precondition: `Q` of the value and state returned, `E` of a fault. -/
def Wp (x : Prog σ ε α) (s : σ) (Q : α → σ → Prop) (E : ε → Prop) : Prop :=
  match x s with
  | .ok (a, t) => Q a t
  | .error e => E e

/-- No fault is acceptable. -/
abbrev Never : ε → Prop := fun _ => False

theorem Wp.of_ok {x : Prog σ ε α} {s t : σ} {a : α} {Q : α → σ → Prop} {E : ε → Prop}
    (h : x s = .ok (a, t)) (hQ : Q a t) : Wp x s Q E := by
  rw [Wp, h]
  exact hQ

theorem Wp.of_error {x : Prog σ ε α} {s : σ} {e : ε} {Q : α → σ → Prop} {E : ε → Prop}
    (h : x s = .error e) (hE : E e) : Wp x s Q E := by
  rw [Wp, h]
  exact hE

/-- Partial correctness: only returning runs matter. -/
theorem Wp.of_returns {x : Prog σ ε α} {s : σ} {Q : α → σ → Prop}
    (h : ∀ a t, x s = .ok (a, t) → Q a t) : Wp x s Q fun _ => True := by
  cases hx : x s with
  | ok r => exact .of_ok hx (h r.1 r.2 hx)
  | error e => exact .of_error hx trivial

theorem Wp.ok {x : Prog σ ε α} {s t : σ} {a : α} {Q : α → σ → Prop} {E : ε → Prop}
    (h : Wp x s Q E) (hx : x s = .ok (a, t)) : Q a t := by
  rw [Wp, hx] at h
  exact h

theorem Wp.error {x : Prog σ ε α} {s : σ} {e : ε} {Q : α → σ → Prop} {E : ε → Prop}
    (h : Wp x s Q E) (hx : x s = .error e) : E e := by
  rw [Wp, hx] at h
  exact h

/-- A program whose faults are all excluded returns. -/
theorem Wp.returns {x : Prog σ ε α} {s : σ} {Q : α → σ → Prop} (h : Wp x s Q Never) :
    ∃ a t, x s = .ok (a, t) ∧ Q a t := by
  cases hx : x s with
  | ok r => exact ⟨r.1, r.2, rfl, h.ok hx⟩
  | error e => exact (h.error hx).elim

theorem Wp.mono {x : Prog σ ε α} {s : σ} {Q R : α → σ → Prop} {E F : ε → Prop}
    (h : Wp x s Q E) (hQ : ∀ a t, Q a t → R a t) (hE : ∀ e, E e → F e) : Wp x s R F := by
  rw [Wp] at *
  split at h
  · exact hQ _ _ h
  · exact hE _ h

/-- Two specifications of one program; the first says which faults there are. -/
theorem Wp.and {x : Prog σ ε α} {s : σ} {Q R : α → σ → Prop} {E F : ε → Prop}
    (h : Wp x s Q E) (h' : Wp x s R F) : Wp x s (fun a t => Q a t ∧ R a t) E := by
  cases hx : x s with
  | ok r => exact .of_ok hx ⟨h.ok hx, h'.ok hx⟩
  | error e => exact .of_error hx (h.error hx)

theorem Wp.pure {a : α} {s : σ} {Q : α → σ → Prop} {E : ε → Prop} (h : Q a s) :
    Wp (pure a) s Q E := h

theorem Wp.bind {x : Prog σ ε α} {f : α → Prog σ ε β} {s : σ} {R : α → σ → Prop}
    {Q : β → σ → Prop} {E : ε → Prop} (hx : Wp x s R E)
    (hf : ∀ a t, R a t → Wp (f a) t Q E) : Wp (x >>= f) s Q E := by
  rw [Wp, bind_apply]
  cases h : x s with
  | ok p => exact hf p.1 p.2 (hx.ok h)
  | error e => exact hx.error h

theorem wp_bind {x : Prog σ ε α} {f : α → Prog σ ε β} {s : σ} {Q : β → σ → Prop}
    {E : ε → Prop} : Wp (x >>= f) s Q E ↔ Wp x s (fun a t => Wp (f a) t Q E) E := by
  simp only [Wp, bind_apply]
  cases x s <;> rfl

@[simp] theorem wp_pure {a : α} {s : σ} {Q : α → σ → Prop} {E : ε → Prop} :
    Wp (Pure.pure a) s Q E ↔ Q a s := Iff.rfl

@[simp] theorem wp_get {s : σ} {Q : σ → σ → Prop} {E : ε → Prop} :
    Wp (get : Prog σ ε σ) s Q E ↔ Q s s := Iff.rfl

@[simp] theorem wp_set {t s : σ} {Q : PUnit → σ → Prop} {E : ε → Prop} :
    Wp (set t : Prog σ ε PUnit) s Q E ↔ Q ⟨⟩ t := Iff.rfl

@[simp] theorem wp_modify {f : σ → σ} {s : σ} {Q : PUnit → σ → Prop} {E : ε → Prop} :
    Wp (modify f : Prog σ ε PUnit) s Q E ↔ Q ⟨⟩ (f s) := Iff.rfl

@[simp] theorem wp_stop {e : ε} {s : σ} {Q : α → σ → Prop} {E : ε → Prop} :
    Wp (stop e : Prog σ ε α) s Q E ↔ E e := Iff.rfl

/-- The common case: the first half cannot stop. -/
theorem Wp.bind_total {x : Prog σ ε α} {f : α → Prog σ ε β} {s : σ} {R : α → σ → Prop}
    {Q : β → σ → Prop} {E : ε → Prop} (hx : Wp x s R Never)
    (hf : ∀ a t, R a t → Wp (f a) t Q E) : Wp (x >>= f) s Q E :=
  (hx.mono (fun _ _ h => h) (fun _ h => h.elim)).bind hf

/-- Loop rule: `I` holds of the elements still to come and the state. -/
theorem Wp.each {f : β → Prog σ ε PUnit} {E : ε → Prop} (I : List β → σ → Prop)
    (hstep : ∀ b bs s, I (b :: bs) s → Wp (f b) s (fun _ t => I bs t) E) :
    ∀ (l : List β) (s : σ), I l s → Wp (Prog.each f l) s (fun _ t => I [] t) E
  | [], _, h => Wp.pure h
  | b :: bs, s, h => (hstep b bs s h).bind fun _ t ht => Wp.each I hstep bs t ht

theorem wp_zoom {get : σ → τ} {set : τ → σ → σ} {x : Prog τ ε α} {s : σ}
    {Q : α → σ → Prop} {E : ε → Prop} :
    Wp (zoom get set x) s Q E ↔ Wp x (get s) (fun a t => Q a (set t s)) E := by
  simp only [Wp, zoom]
  cases x (get s) <;> rfl

theorem zoom_ok {get : σ → τ} {set : τ → σ → σ} {x : Prog τ ε α} {s : σ} {r : α × σ} :
    zoom get set x s = .ok r ↔ ∃ a t, x (get s) = .ok (a, t) ∧ r = (a, set t s) := by
  simp only [zoom]
  cases x (get s) with
  | ok p =>
    obtain ⟨a, t⟩ := p
    simp [eq_comm]
  | error e => simp

theorem wp_ofExcept {x : Except ε α} {s : σ} {Q : α → σ → Prop} {E : ε → Prop} :
    Wp (ofExcept x) s Q E ↔ match x with
      | .ok a => Q a s
      | .error e => E e := by
  cases x <;> rfl

theorem ofExcept_ok {x : Except ε α} {s : σ} {r : α × σ} :
    ofExcept x s = .ok r ↔ x = .ok r.1 ∧ r.2 = s := by
  cases x with
  | ok a => simp [ofExcept, Except.map, Prod.ext_iff, eq_comm]
  | error e => simp [ofExcept, Except.map]

-- from here on a goal about a program is never settled by running the program
attribute [irreducible] Wp

end Prog

end LightOS.Lib
