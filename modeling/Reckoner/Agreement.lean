import Mathlib.Data.List.Forall2
import Reckoner.Transducer

/-!
# Two runs that agree

Two calculations agree up to a relation between their results if both meet the same fault, or
neither meets one and the results are related. Agreement is carried from the parts of a calculation
to the whole (`Agree.bind`), and from the steps of a transducer to its runs (`agree_transduce`).
-/

namespace Reckoner

variable {α α' β β' σ σ' ε : Type}

inductive Agree (R : α → α' → Prop) : Except ε α → Except ε α' → Prop where
  | ok {a : α} {a' : α'} (h : R a a') : Agree R (.ok a) (.ok a')
  | error (fault : ε) : Agree R (.error fault) (.error fault)

/-- A calculation agrees with itself. -/
theorem Agree.refl {R : α → α → Prop} (hR : ∀ a, R a a) (x : Except ε α) : Agree R x x := by
  cases x with
  | ok a => exact .ok (hR a)
  | error fault => exact .error fault

theorem Agree.bind {R : α → α' → Prop} {S : β → β' → Prop} {x : Except ε α} {x' : Except ε α'}
    {f : α → Except ε β} {f' : α' → Except ε β'} (h : Agree R x x')
    (hf : ∀ a a', R a a' → Agree S (f a) (f' a')) : Agree S (x >>= f) (x' >>= f') := by
  cases h with
  | ok h => exact hf _ _ h
  | error fault => exact .error fault

/-- What is written corresponds item by item, and the states are related. -/
def Matched (W : β → β' → Prop) (R : σ → σ' → Prop) (x : List β × σ) (y : List β' × σ') : Prop :=
  List.Forall₂ W x.1 y.1 ∧ R x.2 y.2

/-- Where every step agrees, whole runs over lists that correspond item by item agree. -/
theorem agree_transduce {A : α → α' → Prop} {W : β → β' → Prop} {R : σ → σ' → Prop}
    {step : σ → α → Except ε (List β × σ)} {step' : σ' → α' → Except ε (List β' × σ')}
    {as : List α} {as' : List α'} (has : List.Forall₂ A as as') {s : σ} {s' : σ'} (hs : R s s')
    (hstep : ∀ s s' a a', R s s' → A a a' → Agree (Matched W R) (step s a) (step' s' a')) :
    Agree (Matched W R) (transduce step s as) (transduce step' s' as') := by
  induction has generalizing s s' with
  | nil => exact .ok ⟨.nil, hs⟩
  | cons ha _ ih =>
    refine (hstep _ _ _ _ hs ha).bind fun _ _ hfirst => ?_
    refine (ih hfirst.2).bind fun _ _ hrest => ?_
    exact .ok ⟨List.rel_append hfirst.1 hrest.1, hrest.2⟩

end Reckoner
