/-!
# Reading a list and writing another

A transducer reads the items of a list one after the other. For each it writes some items of its
own, or none, and goes to another state, unless it meets a fault and stops. `transduce_append` says
that what is written for a list and then for another is what is written for both in a row, and
`transduce_map` that a run looks at no part of a state that no step looks at.
-/

namespace Reckoner

variable {σ α β ε : Type}

theorem bind_eq_ok {x : Except ε α} {f : α → Except ε β} {b : β} :
    x >>= f = .ok b ↔ ∃ a, x = .ok a ∧ f a = .ok b := by
  cases x with
  | error e =>
    constructor
    · intro h
      cases h
    · rintro ⟨_, h, _⟩
      cases h
  | ok a =>
    constructor
    · exact fun h => ⟨a, rfl, h⟩
    · rintro ⟨_, ha, h⟩
      cases ha
      exact h

/-- All that is written from a state on, and the state in the end. -/
def transduce (step : σ → α → Except ε (List β × σ)) : σ → List α → Except ε (List β × σ)
  | s, [] => .ok ([], s)
  | s, a :: as => do
    let (written, s') ← step s a
    let (rest, s'') ← transduce step s' as
    return (written ++ rest, s'')

variable {step : σ → α → Except ε (List β × σ)} {s s' : σ} {a : α}

@[simp]
theorem transduce_nil : transduce step s [] = .ok ([], s) := rfl

theorem transduce_cons_of_ok {written : List β} (h : step s a = .ok (written, s')) (as : List α) :
    transduce step s (a :: as) = do
      let (rest, s'') ← transduce step s' as
      return (written ++ rest, s'') := by
  simp only [transduce, h]
  rfl

theorem transduce_cons_of_error {fault : ε} (h : step s a = .error fault) (as : List α) :
    transduce step s (a :: as) = .error fault := by
  simp only [transduce, h]
  rfl

theorem transduce_cons_eq_ok {as : List α} {out : List β} :
    transduce step s (a :: as) = .ok (out, s') ↔
      ∃ written s₁ rest, step s a = .ok (written, s₁) ∧ transduce step s₁ as = .ok (rest, s') ∧
        out = written ++ rest := by
  rw [transduce, bind_eq_ok]
  constructor
  · rintro ⟨⟨written, s₁⟩, hstep, h⟩
    obtain ⟨⟨rest, s''⟩, hrest, h⟩ := bind_eq_ok.mp h
    cases h
    exact ⟨written, s₁, rest, hstep, hrest, rfl⟩
  · rintro ⟨written, s₁, rest, hstep, hrest, rfl⟩
    exact ⟨(written, s₁), hstep, bind_eq_ok.mpr ⟨(rest, s'), hrest, rfl⟩⟩

/-- What can be added to the state of every step can be added to the state of a run. -/
theorem transduce_map {f : σ → σ}
    (hf : ∀ s a written s', step s a = .ok (written, s') → step (f s) a = .ok (written, f s'))
    {as : List α} {out : List β} (h : transduce step s as = .ok (out, s')) :
    transduce step (f s) as = .ok (out, f s') := by
  induction as generalizing s out with
  | nil =>
    cases h
    rfl
  | cons a as ih =>
    obtain ⟨written, s₁, rest, hstep, hrest, rfl⟩ := transduce_cons_eq_ok.mp h
    exact transduce_cons_eq_ok.mpr ⟨written, f s₁, rest, hf _ _ _ _ hstep, ih hrest, rfl⟩

theorem transduce_append (s : σ) (as bs : List α) :
    transduce step s (as ++ bs) = do
      let (first, s') ← transduce step s as
      let (second, s'') ← transduce step s' bs
      return (first ++ second, s'') := by
  induction as generalizing s with
  | nil =>
    rw [List.nil_append, transduce_nil]
    show _ = transduce step s bs >>= _
    cases transduce step s bs <;> rfl
  | cons a as ih =>
    rw [List.cons_append]
    rcases h : step s a with fault | ⟨written, s'⟩
    · rw [transduce_cons_of_error h, transduce_cons_of_error h]
      rfl
    · rw [transduce_cons_of_ok h, transduce_cons_of_ok h, ih]
      rcases transduce step s' as with fault | ⟨first, s''⟩
      · rfl
      · show (transduce step s'' bs >>= _) >>= _ = transduce step s'' bs >>= _
        rcases transduce step s'' bs with fault | ⟨second, s'''⟩
        · rfl
        · show Except.ok _ = Except.ok _
          rw [List.append_assoc]

end Reckoner
