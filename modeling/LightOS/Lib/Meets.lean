import LightOS.Lib.Prog

/-!
# What a program adds to a record

Part of the state is a record that programs only ever make longer. `Meets made G x s`
says that every entry that program `x`, started in state `s`, adds to the record `made`
has `G`. The rules follow the way a program is put together, so that only its calls of
the recording operation have to be looked at.
-/
namespace LightOS.Lib.Prog

variable {σ τ υ ε : Type}

/-- The record goes on from `s` to `t` by entries with `G`. -/
def Extends (made : σ → List τ) (G : τ → Prop) (s t : σ) : Prop :=
  ∃ l, made t = made s ++ l ∧ ∀ c ∈ l, G c

/-- Every entry that a returning run of the program adds to the record has `G`. -/
def Meets (made : σ → List τ) (G : τ → Prop) {α : Type} (x : Prog σ ε α) (s : σ) : Prop :=
  ∀ a t, x s = .ok (a, t) → Extends made G s t

section Extends

variable {made : σ → List τ} {G : τ → Prop} {s t u : σ}

theorem Extends.of_eq (h : made t = made s) : Extends made G s t := ⟨[], by simp [h], by simp⟩

theorem Extends.one {c : τ} (h : made t = made s ++ [c]) (hc : G c) : Extends made G s t := by
  refine ⟨[c], h, ?_⟩
  intro d hd
  rwa [List.mem_singleton.mp hd]

theorem Extends.trans (h : Extends made G s t) (h' : Extends made G t u) :
    Extends made G s u := by
  obtain ⟨l, hl, hG⟩ := h
  obtain ⟨l', hl', hG'⟩ := h'
  refine ⟨l ++ l', by rw [hl', hl, List.append_assoc], ?_⟩
  intro c hc
  rcases List.mem_append.mp hc with hc | hc
  · exact hG c hc
  · exact hG' c hc

end Extends

namespace Meets

variable {made : σ → List τ} {G : τ → Prop} {α γ δ : Type} {s t : σ}

/-- A program that leaves the record as it is. -/
theorem none {x : Prog σ ε α} {a : α} (h : x s = .ok (a, t)) (hm : made t = made s) :
    Meets made G x s := by
  intro b u hu
  obtain ⟨rfl, rfl⟩ := Prod.mk.inj (Except.ok.inj (h.symm.trans hu))
  exact .of_eq hm

theorem ofExcept (x : Except ε α) (s : σ) : Meets made G (Prog.ofExcept x) s := by
  intro a t ht
  obtain ⟨-, rfl⟩ := ofExcept_ok.mp ht
  exact .of_eq rfl

theorem bind {x : Prog σ ε α} {f : α → Prog σ ε γ} (hx : Meets made G x s)
    (hf : ∀ a t, x s = .ok (a, t) → Meets made G (f a) t) : Meets made G (x >>= f) s := by
  intro b u hu
  obtain ⟨a, t, ht, hu⟩ := bind_ok.mp hu
  exact (hx a t ht).trans (hf a t ht b u hu)

theorem pure (a : α) (s : σ) : Meets made G (Pure.pure a : Prog σ ε α) s :=
  .none (pure_apply a s) rfl

theorem stop (e : ε) (s : σ) : Meets made G (Prog.stop e : Prog σ ε α) s :=
  .ofExcept (.error e) s

/-- A program that begins by looking at the state. -/
theorem get_bind {f : σ → Prog σ ε α} (h : Meets made G (f s) s) :
    Meets made G (get >>= f) s := by
  refine .bind (.none (get_apply s) rfl) fun a t ht => ?_
  obtain ⟨rfl, rfl⟩ := Prod.mk.inj (get_ok.mp ht)
  exact h

/-- A first part that is known to leave the record alone. -/
theorem skip {x : Prog σ ε α} {f : α → Prog σ ε γ} {a : α} (hx : x s = .ok (a, t))
    (hm : made t = made s) (hf : Meets made G (f a) t) : Meets made G (x >>= f) s := by
  refine .bind (.none hx hm) fun b u hu => ?_
  obtain ⟨rfl, rfl⟩ := Prod.mk.inj (Except.ok.inj (hx.symm.trans hu))
  exact hf

theorem modify_bind {g : σ → σ} {f : PUnit → Prog σ ε γ} (hm : made (g s) = made s)
    (hf : Meets made G (f ⟨⟩) (g s)) : Meets made G (modify g >>= f) s :=
  .skip (modify_apply g s) hm hf

theorem ofExcept_bind {x : Except ε α} {f : α → Prog σ ε γ}
    (hf : ∀ a, x = .ok a → Meets made G (f a) s) : Meets made G (Prog.ofExcept x >>= f) s := by
  refine .bind (.ofExcept x s) fun a t ht => ?_
  obtain ⟨hx, rfl⟩ := ofExcept_ok.mp ht
  exact hf a hx

theorem map {x : Prog σ ε α} (f : α → γ) (hx : Meets made G x s) : Meets made G (f <$> x) s := by
  rw [map_eq_pure_bind]
  exact .bind hx fun a t _ => .pure (f a) t

/-- Loop rule: `I` holds of the elements still to come and the state. -/
theorem each {f : δ → Prog σ ε PUnit} (I : List δ → σ → Prop)
    (hcall : ∀ b bs s, I (b :: bs) s → Meets made G (f b) s)
    (hstep : ∀ b bs s t, I (b :: bs) s → f b s = .ok (⟨⟩, t) → I bs t) (l : List δ) (s : σ)
    (h : I l s) : Meets made G (Prog.each f l) s := by
  induction l generalizing s with
  | nil => exact .pure _ _
  | cons b bs ih => exact .bind (hcall b bs s h) fun _ t ht => ih t (hstep b bs s t h ht)

/-- Loop rule with early exit. -/
theorem tryEach {f : δ → Prog σ ε (Except γ PUnit)} (I : List δ → σ → Prop)
    (hcall : ∀ b bs s, I (b :: bs) s → Meets made G (f b) s)
    (hstep : ∀ b bs s t, I (b :: bs) s → f b s = .ok (.ok ⟨⟩, t) → I bs t) (l : List δ) (s : σ)
    (h : I l s) : Meets made G (Prog.tryEach f l) s := by
  induction l generalizing s with
  | nil => exact .pure _ _
  | cons b bs ih =>
    refine .bind (hcall b bs s h) fun r t ht => ?_
    cases r with
    | ok u => exact ih t (hstep b bs s t h ht)
    | error c => exact .pure _ _

/-- The record of a component is a record of the whole. -/
theorem zoom {get : υ → σ} {set : σ → υ → υ} (hget : ∀ s t, get (set s t) = s)
    {x : Prog σ ε α} {u : υ} (h : Meets made G x (get u)) :
    Meets (fun u => made (get u)) G (Prog.zoom get set x) u := by
  intro a v hv
  obtain ⟨b, t, ht, he⟩ := zoom_ok.mp hv
  obtain ⟨rfl, rfl⟩ := Prod.mk.inj he
  obtain ⟨l, hl, hG⟩ := h a t ht
  refine ⟨l, ?_, hG⟩
  change made (get (set t u)) = made (get u) ++ l
  rw [hget]
  exact hl

end Meets

end LightOS.Lib.Prog
