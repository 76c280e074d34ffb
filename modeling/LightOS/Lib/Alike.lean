import LightOS.Lib.Prog

/-!
# Two runs that cannot be told apart

`Alike R` compares the outcomes of two runs: the same value in related states, or the
same fault. If the relation hides part of the state, a program that takes related
states to alike outcomes does not depend on that part. The rules follow the way
programs are put together; what one run is known to do is available where a rule
goes on to the next part.
-/
namespace LightOS.Lib.Prog

variable {σ τ ε α β γ δ : Type}

/-- The same value in related states, or the same fault. -/
inductive Alike (R : σ → σ → Prop) : Except ε (α × σ) → Except ε (α × σ) → Prop
  | ok (a : α) {s s' : σ} (h : R s s') : Alike R (.ok (a, s)) (.ok (a, s'))
  | error (e : ε) : Alike R (.error e) (.error e)

namespace Alike

variable {R : σ → σ → Prop} {s s' : σ}

theorem pure (a : α) (h : R s s') :
    Alike R ((Pure.pure a : Prog σ ε α) s) ((Pure.pure a : Prog σ ε α) s') := .ok a h

theorem stop (e : ε) : Alike R ((Prog.stop e : Prog σ ε α) s) ((Prog.stop e : Prog σ ε α) s') :=
  .error e

theorem update {f g : σ → σ} (h : R (f s) (g s')) :
    Alike R ((modify f : Prog σ ε PUnit) s) ((modify g : Prog σ ε PUnit) s') := .ok _ h

theorem mono {Q : σ → σ → Prop} {x y : Except ε (α × σ)} (h : Alike R x y)
    (hQ : ∀ a t t', x = .ok (a, t) → R t t' → Q t t') : Alike Q x y := by
  cases h with
  | ok a hR => exact .ok a (hQ a _ _ rfl hR)
  | error e => exact .error e

/-- The second parts run in related states after the same value. -/
theorem bind {Q : σ → σ → Prop} {x y : Prog σ ε α} {f g : α → Prog σ ε β}
    (h : Alike R (x s) (y s'))
    (hf : ∀ a t t', x s = .ok (a, t) → R t t' → Alike Q (f a t) (g a t')) :
    Alike Q ((x >>= f) s) ((y >>= g) s') := by
  rw [bind_apply, bind_apply]
  generalize hx : x s = u at h
  generalize y s' = v at h
  cases h with
  | ok a hR => exact hf a _ _ hx hR
  | error e => exact .error e

theorem get_bind {f g : σ → Prog σ ε β} (h : Alike R (f s s) (g s' s')) :
    Alike R ((get >>= f) s) ((get >>= g) s') := by
  rw [bind_apply, bind_apply, get_apply, get_apply]
  exact h

theorem set_bind {t t' : σ} {f g : PUnit → Prog σ ε β} (h : Alike R (f ⟨⟩ t) (g ⟨⟩ t')) :
    Alike R ((set t >>= f) s) ((set t' >>= g) s') := by
  rw [bind_apply, bind_apply, set_apply, set_apply]
  exact h

theorem modify_bind {u v : σ → σ} {f g : PUnit → Prog σ ε β}
    (h : Alike R (f ⟨⟩ (u s)) (g ⟨⟩ (v s'))) :
    Alike R ((modify u >>= f) s) ((modify v >>= g) s') := by
  rw [bind_apply, bind_apply, modify_apply, modify_apply]
  exact h

theorem ofExcept_bind {x : Except ε α} {f g : α → Prog σ ε β}
    (h : ∀ a, x = .ok a → Alike R (f a s) (g a s')) :
    Alike R ((Prog.ofExcept x >>= f) s) ((Prog.ofExcept x >>= g) s') := by
  cases x with
  | ok a =>
    rw [bind_apply, bind_apply, ofExcept_apply, ofExcept_apply]
    exact h a rfl
  | error e => exact .error e

theorem map {x y : Prog σ ε α} (f : α → β) (h : Alike R (x s) (y s')) :
    Alike R ((f <$> x) s) ((f <$> y) s') := by
  rw [map_eq_pure_bind, map_eq_pure_bind]
  exact h.bind fun a _ _ _ hR => .pure (f a) hR

/-- Loop rule: `I` holds of the elements still to come and the state of the first run. -/
theorem each {f : δ → Prog σ ε PUnit} (I : List δ → σ → Prop)
    (halike : ∀ b bs s s', I (b :: bs) s → R s s' → Alike R (f b s) (f b s'))
    (hstep : ∀ b bs s t, I (b :: bs) s → f b s = .ok (⟨⟩, t) → I bs t) (l : List δ) {s s' : σ}
    (hI : I l s) (h : R s s') : Alike R (Prog.each f l s) (Prog.each f l s') := by
  induction l generalizing s s' with
  | nil => exact .pure _ h
  | cons b bs ih =>
    exact (halike b bs s s' hI h).bind fun _ t t' ht hR => ih (hstep b bs s t hI ht) hR

/-- Loop rule with early exit. -/
theorem tryEach {f : δ → Prog σ ε (Except γ PUnit)} (I : List δ → σ → Prop)
    (halike : ∀ b bs s s', I (b :: bs) s → R s s' → Alike R (f b s) (f b s'))
    (hstep : ∀ b bs s t, I (b :: bs) s → f b s = .ok (.ok ⟨⟩, t) → I bs t) (l : List δ) {s s' : σ}
    (hI : I l s) (h : R s s') : Alike R (Prog.tryEach f l s) (Prog.tryEach f l s') := by
  induction l generalizing s s' with
  | nil => exact .pure _ h
  | cons b bs ih =>
    refine (halike b bs s s' hI h).bind fun r t t' ht hR => ?_
    cases r with
    | ok u => exact ih (hstep b bs s t hI ht) hR
    | error c => exact .pure _ hR

/-- Alike outcomes of a component are alike outcomes of the whole. -/
theorem zoom {get : τ → σ} {set : σ → τ → τ} {Q : τ → τ → Prop} {x y : Prog σ ε α} {u u' : τ}
    (h : Alike R (x (get u)) (y (get u'))) (hQ : ∀ t t', R t t' → Q (set t u) (set t' u')) :
    Alike Q (Prog.zoom get set x u) (Prog.zoom get set y u') := by
  unfold Prog.zoom
  generalize x (get u) = v at h
  generalize y (get u') = w at h
  cases h with
  | ok a hR => exact .ok a (hQ _ _ hR)
  | error e => exact .error e

end Alike

end LightOS.Lib.Prog
