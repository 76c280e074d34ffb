import LightOS.Lib.Prog

/-!
# A fault that does not occur

A program avoids a fault if it never stops with it, whatever the state it starts
in. Sequencing and the loops keep this, so one look at each primitive settles it
for everything built from them.
-/
namespace LightOS.Lib

section Pure

variable {ε δ α β : Type} {f : ε}

/-- A computation without state avoids the fault. -/
def Clear (f : ε) (x : Except ε α) : Prop := x ≠ .error f

namespace Clear

theorem ok (a : α) : Clear f (.ok a) := nofun

theorem pure (a : α) : Clear f (Pure.pure a : Except ε α) := nofun

theorem error {g : ε} (h : g ≠ f) : Clear f (.error g : Except ε α) := fun he =>
  h (Except.error.inj he)

theorem bind {x : Except ε α} {g : α → Except ε β} (hx : Clear f x) (hg : ∀ a, Clear f (g a)) :
    Clear f (x >>= g) := by
  cases x with
  | ok a => exact hg a
  | error e => exact fun he => hx (congrArg Except.error (Except.error.inj he))

end Clear

/-- A computation with errors of its own avoids the fault. -/
def ClearT (f : ε) (x : ExceptT δ (Except ε) α) : Prop := Clear f x.run

namespace ClearT

theorem pure (a : α) : ClearT f (Pure.pure a : ExceptT δ (Except ε) α) := nofun

theorem throw (d : δ) : ClearT f (MonadExcept.throw d : ExceptT δ (Except ε) α) := nofun

theorem lift {x : Except ε α} (hx : Clear f x) : ClearT f (ExceptT.lift x : ExceptT δ (Except ε) α) :=
  hx.bind fun _ => .pure _

theorem bind {x : ExceptT δ (Except ε) α} {g : α → ExceptT δ (Except ε) β} (hx : ClearT f x)
    (hg : ∀ a, ClearT f (g a)) : ClearT f (x >>= g) := by
  refine Clear.bind hx fun r => ?_
  cases r with
  | ok a => exact hg a
  | error d => exact .pure _

theorem mapM {g : α → ExceptT δ (Except ε) β} (hg : ∀ a, ClearT f (g a)) (l : List α) :
    ClearT f (l.mapM g) := by
  induction l with
  | nil => exact .pure _
  | cons a l ih =>
    rw [List.mapM_cons]
    exact (hg a).bind fun _ => ih.bind fun _ => .pure _

end ClearT

end Pure

section Stateful

variable {σ τ ε α β γ : Type} {f : ε}

/-- The program never stops with this fault. -/
def Avoids (f : ε) (x : Prog σ ε α) : Prop := ∀ s, Clear f (x s)

namespace Avoids

theorem wp {x : Prog σ ε α} (h : Avoids f x) (s : σ) : Prog.Wp x s (fun _ _ => True) (· ≠ f) := by
  cases hx : x s with
  | ok r => exact .of_ok hx trivial
  | error e =>
    refine .of_error hx fun he => ?_
    exact h s (he ▸ hx)

theorem pure (a : α) : Avoids f (Pure.pure a : Prog σ ε α) := fun _ => .ok _

theorem bind {x : Prog σ ε α} {g : α → Prog σ ε β} (hx : Avoids f x) (hg : ∀ a, Avoids f (g a)) :
    Avoids f (x >>= g) := fun s => (hx s).bind fun r => hg r.1 r.2

theorem map (g : α → β) {x : Prog σ ε α} (hx : Avoids f x) : Avoids f (g <$> x) := by
  rw [map_eq_pure_bind]
  exact hx.bind fun _ => .pure _

theorem get : Avoids f (MonadState.get : Prog σ ε σ) := fun _ => .ok _

theorem set (s : σ) : Avoids f (MonadStateOf.set s : Prog σ ε PUnit) := fun _ => .ok _

theorem modify (g : σ → σ) : Avoids f (modify g : Prog σ ε PUnit) := fun _ => .ok _

theorem stop {e : ε} (h : e ≠ f) : Avoids f (Prog.stop e : Prog σ ε α) := fun _ => .error h

theorem ofExcept {x : Except ε α} (hx : Clear f x) : Avoids f (Prog.ofExcept x : Prog σ ε α) := by
  intro s
  cases x with
  | ok a => exact .ok _
  | error e => exact fun he => hx (congrArg Except.error (Except.error.inj he))

theorem zoom {get : σ → τ} {set : τ → σ → σ} {x : Prog τ ε α} (hx : Avoids f x) :
    Avoids f (Prog.zoom get set x) := by
  intro s
  have h := hx (get s)
  unfold Prog.zoom
  cases hr : x (get s) with
  | ok r => exact .ok _
  | error e =>
    rw [hr] at h
    exact fun he => h (congrArg Except.error (Except.error.inj he))

theorem each {g : β → Prog σ ε PUnit} (hg : ∀ b, Avoids f (g b)) (l : List β) :
    Avoids f (Prog.each g l) := by
  induction l with
  | nil => exact .pure _
  | cons b l ih => exact (hg b).bind fun _ => ih

theorem tryEach {g : β → Prog σ ε (Except γ PUnit)} (hg : ∀ b, Avoids f (g b)) (l : List β) :
    Avoids f (Prog.tryEach g l) := by
  induction l with
  | nil => exact .pure _
  | cons b l ih =>
    refine (hg b).bind fun r => ?_
    cases r with
    | ok u => exact ih
    | error c => exact .pure _

/-- A first half that avoids the fault, and a second half at the states it leads to. -/
theorem andThen {x : Prog σ ε α} {g : α → Prog σ ε β} {s : σ} {Q : β → σ → Prop} (hx : Avoids f x)
    (hg : ∀ a t, x s = .ok (a, t) → Prog.Wp (g a) t Q (· ≠ f)) : Prog.Wp (x >>= g) s Q (· ≠ f) := by
  refine Prog.Wp.bind (R := fun a t => x s = .ok (a, t)) ?_ hg
  cases hr : x s with
  | ok r => exact .of_ok hr rfl
  | error e => exact .of_error hr ((hx.wp s).error hr)

end Avoids

end Stateful

end LightOS.Lib
