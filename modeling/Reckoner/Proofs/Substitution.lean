import Reckoner.Proofs.Conservation

/-!
# A group can be replaced by its value

Around a group there may be any text, also one that is no expression. `Conversion.step_above` is the
reason why it does not matter: an opening parenthesis that is held keeps all that is below it out of
reach, so that what is read in the group acts as at the start of a text (`transduce_above`), and
after its end nothing is left of the group but its tokens (`transduce_group`). So the tokens around
a group do not depend on it (`enclosed_cases`). The values below the operands of the group are left
alone in the same way (`transduce_of_evaluate`).
-/

namespace Reckoner

/-- The text `s` as a group between `p` and `q`. -/
def enclosed (p s q : List Char) : List Char :=
  p ++ '(' :: (s ++ ')' :: q)

/-- The text `cs` in `n` pairs of parentheses. -/
def wrapped (n : Nat) (cs : List Char) : List Char :=
  List.replicate n '(' ++ cs ++ List.replicate n ')'

/-- The same fault, or else the same value and the same steps with `inserted` put in somewhere. -/
def InsertsSteps (inserted : List Step) (outcome outcome' : Except Fault (Float × List Step)) :
    Prop :=
  match outcome with
  | .error fault => outcome' = .error fault
  | .ok (value, steps) =>
    ∃ before after, steps = before ++ after ∧ outcome' = .ok (value, before ++ inserted ++ after)

/-! ### Conversion -/

namespace Conversion

/-- The conversion in a group that was opened with `below` held. -/
def above (c : Conversion) (below : List Held) : Conversion :=
  ⟨c.held ++ .opening :: below, c.signPlace⟩

variable {c next : Conversion} {out : List Token}

theorem release_above (ready : Operator → Bool) (held below : List Held) :
    release ready (held ++ .opening :: below) =
      ((release ready held).1, (release ready held).2 ++ .opening :: below) := by
  fun_induction release ready held with
  | case1 op held hready released rest heq ih =>
    rw [heq] at ih
    rw [List.cons_append, release, if_pos hready, ih]
  | case2 op held hready =>
    rw [List.cons_append, release, if_neg hready]
  | case3 held hheld =>
    cases held with
    | nil => rfl
    | cons h held =>
      cases h with
      | opening => rfl
      | operator op => exact absurd rfl (hheld op held)

/-- What can be read with nothing below is read in the same way above an open group. -/
theorem step_above {l : Lexeme} (h : step c l = .ok (out, next)) (below : List Held) :
    step (c.above below) l = .ok (out, next.above below) := by
  obtain ⟨held, signPlace⟩ := c
  obtain ⟨run, v, rfl, hv, rfl, rfl⟩ | ⟨op, rfl, rfl, rfl⟩ | ⟨rfl, rfl, rfl⟩ |
    ⟨rest, rfl, hrelease, rfl⟩ := step_cases h
  · rw [above, step, hv]
    rfl
  · rw [above, step, release_above]
    rfl
  · rfl
  · rw [above, step, release_above, hrelease]
    rfl

theorem transduce_above {ls : List Lexeme} (h : transduce step c ls = .ok (out, next))
    (below : List Held) :
    transduce step (c.above below) ls = .ok (out, next.above below) :=
  transduce_map (fun _ _ _ _ hstep => step_above hstep below) h

/-- A group puts its own tokens out and leaves what was held before it. -/
theorem transduce_group {s : List Char} {tokens : List Token} (h : toRpn s = .ok tokens)
    (held : List Held) (signPlace : Bool) :
    transduce step ⟨held, signPlace⟩ (.opening :: lexemes s ++ [.closing]) =
      .ok (tokens, ⟨held, false⟩) := by
  obtain ⟨out, last, rest, hrun, hfinish, rfl⟩ := exists_of_toRpn h
  have hinside : transduce step ⟨.opening :: held, true⟩ (lexemes s) =
      .ok (out, last.above held) := transduce_above hrun held
  -- what is released at the end of `s` alone is released down to the parenthesis here
  have hclosing : step (last.above held) .closing = .ok (rest, ⟨held, false⟩) := by
    rw [above, step, release_above, release_of_finish hfinish]
    rfl
  have hopening : step ⟨held, signPlace⟩ .opening = .ok ([], ⟨.opening :: held, true⟩) := rfl
  rw [List.cons_append, transduce_cons_of_ok hopening, transduce_append, hinside]
  show (transduce step _ [.closing] >>= _) >>= _ = _
  rw [transduce_cons_of_ok hclosing, transduce_nil]
  show Except.ok _ = Except.ok _
  simp

end Conversion

open Conversion

variable {p s q : List Char} {tokens : List Token}

theorem lexemes_enclosed (p s q : List Char) :
    lexemes (enclosed p s q) =
      lexemes p ++ ((.opening :: lexemes s ++ [.closing]) ++ lexemes q) := by
  have hopening : EndsRun ('(' :: (s ++ ')' :: q)) := EndsRun.cons rfl _
  have hclosing : EndsRun (')' :: q) := EndsRun.cons rfl q
  rw [enclosed, lexemes_append hopening, lexemes_cons rfl, lexemes_append hclosing,
    lexemes_cons rfl]
  simp [Lexeme.ofChar]

/-- Behind a group only what was held in front of it is left. -/
theorem transduce_enclosed {before : List Token} {held : List Held} {signPlace : Bool}
    (hbefore : transduce step .start (lexemes p) = .ok (before, ⟨held, signPlace⟩))
    (h : toRpn s = .ok tokens) (q : List Char) :
    transduce step .start (lexemes (enclosed p s q)) = do
      let (out, last) ← transduce step ⟨held, false⟩ (lexemes q)
      return (before ++ (tokens ++ out), last) := by
  rw [lexemes_enclosed, transduce_append, hbefore]
  show transduce step ⟨held, signPlace⟩ _ >>= _ = _
  rw [transduce_append, transduce_group h]
  show (transduce step ⟨held, false⟩ (lexemes q) >>= _) >>= _ = _
  cases transduce step ⟨held, false⟩ (lexemes q) <;> rfl

/-- What is around a group is converted, or is at fault, in the same way for all groups. The numbers
before those of the group are the ones that are written before it. -/
theorem enclosed_cases (p q : List Char) :
    (∃ fault, ∀ s tokens, toRpn s = .ok tokens → toRpn (enclosed p s q) = .error fault) ∨
      ∃ before after, (numerals p).map Numeral.value = (numbers before).map .ok ∧
        ∀ s tokens, toRpn s = .ok tokens →
          toRpn (enclosed p s q) = .ok (before ++ tokens ++ after) := by
  rcases hbefore : transduce step .start (lexemes p) with fault | ⟨before, ⟨held, signPlace⟩⟩
  · refine .inl ⟨fault, fun s tokens h => ?_⟩
    rw [toRpn, lexemes_enclosed, transduce_append, hbefore]
    rfl
  rcases hafter : transduce step ⟨held, false⟩ (lexemes q) with fault | ⟨out, last⟩
  · refine .inl ⟨fault, fun s tokens h => ?_⟩
    rw [toRpn, transduce_enclosed hbefore h, hafter]
    rfl
  rcases hfinish : finish last.held with fault | rest
  · refine .inl ⟨fault, fun s tokens h => ?_⟩
    rw [toRpn, transduce_enclosed hbefore h, hafter]
    show finish last.held >>= _ = _
    rw [hfinish]
    rfl
  · refine .inr ⟨before, out ++ rest, numbers_of_transduce hbefore, fun s tokens h => ?_⟩
    rw [toRpn, transduce_enclosed hbefore h, hafter]
    show finish last.held >>= _ = _
    rw [hfinish]
    show Except.ok _ = Except.ok _
    simp

theorem toRpn_wrapped (h : toRpn s = .ok tokens) (n : Nat) : toRpn (wrapped n s) = .ok tokens := by
  induction n with
  | zero => simpa [wrapped] using h
  | succ n ih =>
    have hwrapped : wrapped (n + 1) s = enclosed [] (wrapped n s) [] := by
      rw [wrapped, wrapped, enclosed, List.replicate_succ, List.replicate_succ']
      simp
    have hlexemes := lexemes_enclosed [] (wrapped n s) []
    have hnil : lexemes [] = [] := by rw [lexemes]
    rw [hnil, List.nil_append, List.append_nil] at hlexemes
    rw [hwrapped, toRpn, hlexemes, Conversion.start, transduce_group ih]
    show Except.ok _ = Except.ok _
    rw [List.append_nil]

/-! ### Evaluation -/

theorem step_ofToken_above {t : Token} {stack stack' : List Float} {steps : List Step}
    (h : Step.ofToken stack t = .ok (steps, stack')) (below : List Float) :
    Step.ofToken (stack ++ below) t = .ok (steps, stack' ++ below) := by
  unfold Step.ofToken at h
  split at h <;> cases h <;> rfl

/-- Tokens with a value put it on top of any stack. -/
theorem transduce_of_evaluate {value : Float} {steps : List Step}
    (h : evaluate tokens = .ok (value, steps)) (stack : List Float) :
    transduce Step.ofToken stack tokens = .ok (steps, value :: stack) := by
  have habove : ∀ stack' t written stack'', Step.ofToken stack' t = .ok (written, stack'') →
      Step.ofToken (stack' ++ stack) t = .ok (written, stack'' ++ stack) :=
    fun _ _ _ _ hstep => step_ofToken_above hstep stack
  exact transduce_map habove (evaluate_eq_ok h)

theorem evaluate_insertsSteps {value : Float} {steps : List Step}
    (h : evaluate tokens = .ok (value, steps)) (before after : List Token) :
    InsertsSteps steps (evaluate (before ++ .number value :: after))
      (evaluate (before ++ tokens ++ after)) := by
  have hnumber (stack : List Float) :
      transduce Step.ofToken stack (.number value :: after) =
        transduce Step.ofToken (value :: stack) after := by
    have hstep : Step.ofToken stack (.number value) = .ok ([], value :: stack) := rfl
    rw [transduce_cons_of_ok hstep]
    cases transduce Step.ofToken (value :: stack) after <;> rfl
  rw [evaluate, evaluate, transduce_append, List.append_assoc, transduce_append]
  rcases transduce Step.ofToken [] before with fault | ⟨steps₁, stack₁⟩
  · rfl
  show InsertsSteps steps ((transduce Step.ofToken stack₁ _ >>= _) >>= _)
    ((transduce Step.ofToken stack₁ _ >>= _) >>= _)
  rw [hnumber, transduce_append, transduce_of_evaluate h]
  show InsertsSteps steps ((transduce Step.ofToken (value :: stack₁) after >>= _) >>= _)
    (((transduce Step.ofToken (value :: stack₁) after >>= _) >>= _) >>= _)
  rcases transduce Step.ofToken (value :: stack₁) after with fault | ⟨steps₂, stack₂⟩
  · rfl
  rcases stack₂ with _ | ⟨w, _ | ⟨u, stack⟩⟩
  · rfl
  · exact ⟨steps₁, steps₂, rfl, by rw [List.append_assoc]; rfl⟩
  · rfl

/-! ### Whole texts -/

theorem withoutBlanks_wrapped (n : Nat) (cs : List Char) :
    withoutBlanks (wrapped n cs) = wrapped n (withoutBlanks cs) := by
  have hparens {c : Char} (hc : isBlank c = false) :
      withoutBlanks (List.replicate n c) = List.replicate n c :=
    withoutBlanks_eq_self fun d hd => by rw [List.eq_of_mem_replicate hd, hc]
  rw [wrapped, withoutBlanks_append, withoutBlanks_append, hparens rfl, hparens rfl, wrapped]

theorem calculate_wrapped {text : String} {c : Calculation} (h : calculate text = .ok c) (n : Nat) :
    calculate (String.ofList (wrapped n text.toList)) = .ok c := by
  obtain ⟨hconvert, hvalue⟩ := calculate_eq_ok h
  obtain ⟨cs, hnormal, htokens⟩ := bind_eq_ok.mp hconvert
  have hcs : withoutBlanks text.toList = cs := withoutBlanks_eq_of_normalise hnormal
  have hne : wrapped n cs ≠ [] := by
    intro hnil
    obtain rfl : cs = [] := by
      rw [wrapped, List.append_eq_nil_iff, List.append_eq_nil_iff] at hnil
      exact hnil.1.2
    rw [normalise, hcs] at hnormal
    cases hnormal
  have hwrapped : normalise (wrapped n text.toList) = .ok (wrapped n cs) :=
    normalise_eq_ok ((withoutBlanks_wrapped n _).trans (congrArg _ hcs)) hne
  rw [calculate, String.toList_ofList, hwrapped]
  show toRpn (wrapped n cs) >>= _ = _
  rw [toRpn_wrapped htokens]
  show evaluate c.tokens >>= _ = _
  rw [hvalue]
  rfl

theorem toExpression_wrapped {text expression : String} {steps : List String} {value : Float}
    (h : Reply.toExpression text = .evaluated expression steps value) (n : Nat) :
    Reply.toExpression (String.ofList (wrapped n text.toList)) =
      .evaluated (String.ofList (wrapped n text.toList)) steps value := by
  rw [Reply.toExpression] at h ⊢
  cases hcalc : calculate text with
  | error fault =>
    rw [hcalc] at h
    cases h
  | ok c =>
    rw [hcalc] at h
    cases h
    rw [calculate_wrapped hcalc]
    rfl

/-- In every text, also in one that is no expression, a group whose content is converted stands for
the tokens of this content: there is the same fault as with the group `(0)`, or else the tokens are
those of the text with `(0)`, where the number of the group, which comes after those that are
written before it, is replaced. If they have a value, the outcome is that of the text with the value
in the place of the group, with the steps of the group put in in one piece. Parentheses around a
whole text change neither its value nor its steps. -/
theorem group_replaced_by_value :
    (∀ p q s tokens, toRpn s = .ok tokens →
      (∀ fault, toRpn (enclosed p s q) = .error fault ↔
        toRpn (enclosed p ['0'] q) = .error fault) ∧
      ∀ out, toRpn (enclosed p ['0'] q) = .ok out →
        ∃ before after, out = before ++ .number 0 :: after ∧
          (numerals p).map Numeral.value = (numbers before).map .ok ∧
          toRpn (enclosed p s q) = .ok (before ++ tokens ++ after) ∧
          ∀ value steps, evaluate tokens = .ok (value, steps) →
            InsertsSteps steps (evaluate (before ++ .number value :: after))
              (evaluate (before ++ tokens ++ after))) ∧
      ∀ n text expression steps value,
        Reply.toExpression text = .evaluated expression steps value →
          Reply.toExpression (String.ofList (wrapped n text.toList)) =
            .evaluated (String.ofList (wrapped n text.toList)) steps value := by
  refine ⟨fun p q s tokens h => ?_, fun n text expression steps value h =>
    toExpression_wrapped h n⟩
  have hzero : toRpn ['0'] = .ok [.number 0] := by decide +kernel
  rcases enclosed_cases p q with ⟨fault, herror⟩ | ⟨before, after, hnumbers, hout⟩
  · have hsame := (herror s tokens h).trans (herror ['0'] _ hzero).symm
    refine ⟨fun fault' => by rw [hsame], fun out hok => ?_⟩
    rw [herror ['0'] _ hzero] at hok
    cases hok
  · have hgroup := hout s tokens h
    have houtZero := hout ['0'] _ hzero
    refine ⟨fun fault => ?_, fun out hok => ?_⟩
    · rw [hgroup, houtZero]
      exact ⟨nofun, nofun⟩
    · rw [houtZero] at hok
      cases hok
      exact ⟨before, after, by simp, hnumbers, hgroup,
        fun value steps hvalue => evaluate_insertsSteps hvalue before after⟩

def threePlusFour : List Token :=
  [.number 3, .number 4, .operator (.binary .add)]

/-- The tokens of `2*-(0)^1`. -/
def negatedZero : List Token :=
  [.number 2, .number 0, .operator .neg, .number 1, .operator (.binary .pow),
    .operator (.binary .mul)]

/-- The group in `2*-(3+4)^1`, and in `0^(3+4))`, where a parenthesis too many is closed; and two
pairs of parentheses around `3 + 4`. -/
theorem group_replaced_by_value_seven :
    toRpn "3+4".toList = .ok threePlusFour ∧
      toRpn (enclosed "2*-".toList ['0'] "^1".toList) = .ok negatedZero ∧
      evaluate threePlusFour = .ok (7, [.operation .add 3 4]) ∧
      (∃ before after, negatedZero = before ++ .number 0 :: after ∧
        toRpn (enclosed "2*-".toList "3+4".toList "^1".toList) =
          .ok (before ++ threePlusFour ++ after) ∧
        InsertsSteps [.operation .add 3 4] (evaluate (before ++ .number 7 :: after))
          (evaluate (before ++ threePlusFour ++ after))) ∧
      toRpn (enclosed "0^".toList "3+4".toList ")".toList) = .error (.unmatched .closing) ∧
      Reply.toExpression "3 + 4" = .evaluated "3 + 4" ["3 + 4 = 7"] 7 ∧
      Reply.toExpression "((3 + 4))" = .evaluated "((3 + 4))" ["3 + 4 = 7"] 7 := by
  have hsum : toRpn "3+4".toList = .ok threePlusFour := by decide +kernel
  have hzero : toRpn (enclosed "2*-".toList ['0'] "^1".toList) = .ok negatedZero := by
    decide +kernel
  have hvalue : evaluate threePlusFour = .ok (7, [.operation .add 3 4]) := by decide +kernel
  have hreply : Reply.toExpression "3 + 4" = .evaluated "3 + 4" ["3 + 4 = 7"] 7 := by
    decide +kernel
  have htext : String.ofList (wrapped 2 "3 + 4".toList) = "((3 + 4))" := by decide +kernel
  obtain ⟨hgroups, hparens⟩ := group_replaced_by_value
  obtain ⟨hfault, -⟩ := hgroups "0^".toList ")".toList _ _ hsum
  obtain ⟨-, htokens⟩ := hgroups "2*-".toList "^1".toList _ _ hsum
  obtain ⟨before, after, heq, -, hgroup, hsteps⟩ := htokens _ hzero
  have hwrapped := hparens 2 _ _ _ _ hreply
  rw [htext] at hwrapped
  exact ⟨hsum, hzero, hvalue, ⟨before, after, heq, hgroup, hsteps _ _ hvalue⟩,
    (hfault _).mpr (by decide +kernel), hreply, hwrapped⟩

end Reckoner
