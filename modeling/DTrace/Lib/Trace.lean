import Mathlib.Data.List.Induction

/-!
# Runs of a system driven by events

The state after a list of events, and the induction that relates a state to the events that led to it.
-/

namespace DTrace.Lib

variable {σ ε : Type}

def runEvents (step : σ → ε → σ) (init : σ) (es : List ε) : σ := es.foldl step init

@[simp] lemma runEvents_snoc (step : σ → ε → σ) (init : σ) (es : List ε) (e : ε) :
    runEvents step init (es ++ [e]) = step (runEvents step init es) e := by
  simp [runEvents]

/-- What relates the empty list to the initial state, and is kept by every event, relates every list to the state after
it. -/
lemma runEvents_induction {step : σ → ε → σ} {init : σ} {motive : List ε → σ → Prop} (hinit : motive [] init)
    (hstep : ∀ es s e, motive es s → motive (es ++ [e]) (step s e)) (es : List ε) :
    motive es (runEvents step init es) := by
  induction es using List.reverseRecOn with
  | nil => exact hinit
  | append_singleton es e ih =>
    rw [runEvents_snoc]
    exact hstep es _ e ih

end DTrace.Lib
