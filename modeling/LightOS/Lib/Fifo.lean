import Mathlib.Data.List.Basic

/-!
# First in, first out

A system holds a queue; each step of it puts elements in at the end and takes elements out
at the front. When every step conserves the elements in their order, so does every run.
-/
namespace LightOS.Lib

variable {σ ε α : Type}

/-- What the steps of a run contribute, in their order. -/
def gathered (step : σ → ε → σ) (f : σ → ε → List α) : σ → List ε → List α
  | _, [] => []
  | s, e :: es => f s e ++ gathered step f (step s e) es

/-- What was queued and what came in since is what went out and what is still queued. -/
theorem conserved_run {step : σ → ε → σ} {queue : σ → List α} {into out : σ → ε → List α}
    {I : σ → Prop} (es : List ε)
    (hstep : ∀ s, I s → ∀ e ∈ es,
      I (step s e) ∧ queue s ++ into s e = out s e ++ queue (step s e)) :
    ∀ s, I s → I (es.foldl step s) ∧
      queue s ++ gathered step into s es = gathered step out s es ++ queue (es.foldl step s) := by
  induction es with
  | nil =>
      intro s hs
      exact ⟨hs, by simp [gathered]⟩
  | cons e es ih =>
      intro s hs
      obtain ⟨hnext, hfirst⟩ := hstep s hs e List.mem_cons_self
      obtain ⟨hlast, hrest⟩ :=
        ih (fun s hs e he => hstep s hs e (List.mem_cons_of_mem _ he)) (step s e) hnext
      refine ⟨hlast, ?_⟩
      simp only [gathered, List.foldl_cons]
      rw [← List.append_assoc, hfirst, List.append_assoc, hrest, List.append_assoc]

end LightOS.Lib
