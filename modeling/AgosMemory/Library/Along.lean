/-!
# Properties along a run

A run is a list of operations from a state. What an invariant says of every single step it says of every
step of a run.
-/

namespace Library

variable {σ ω : Type}

/-- Every step of the run has the property, which sees the state before it. -/
def Along (step : σ → ω → σ) (P : σ → ω → Prop) : σ → List ω → Prop
  | _, [] => True
  | s, op :: ops => P s op ∧ Along step P (step s op) ops

instance Along.decidable (step : σ → ω → σ) (P : σ → ω → Prop) [∀ s op, Decidable (P s op)] :
    ∀ s ops, Decidable (Along step P s ops)
  | _, [] => .isTrue trivial
  | s, op :: ops =>
    have := Along.decidable step P (step s op) ops
    inferInstanceAs (Decidable (_ ∧ _))

/-- Two properties that agree on a step under the invariant agree along a run, if a step that has one of
them keeps the invariant. -/
theorem along_congr {step : σ → ω → σ} {P Q : σ → ω → Prop} {I : σ → Prop} {ops : List ω}
    (hagree : ∀ op ∈ ops, ∀ s, I s → (P s op ↔ Q s op))
    (hkeeps : ∀ op ∈ ops, ∀ s, I s → P s op → I (step s op)) {s : σ} (hs : I s) :
    Along step P s ops ↔ Along step Q s ops := by
  induction ops generalizing s with
  | nil => exact Iff.rfl
  | cons op ops ih =>
    have hfirst := hagree op List.mem_cons_self s hs
    have hrest := fun hp => ih (fun o ho => hagree o (List.mem_cons_of_mem _ ho))
      (fun o ho => hkeeps o (List.mem_cons_of_mem _ ho)) (hkeeps op List.mem_cons_self s hs hp)
    constructor
    · rintro ⟨hp, hps⟩
      exact ⟨hfirst.mp hp, (hrest hp).mp hps⟩
    · rintro ⟨hq, hqs⟩
      exact ⟨hfirst.mpr hq, (hrest (hfirst.mpr hq)).mpr hqs⟩

end Library
