import Reckoner.Proofs.Lexemes
import Reckoner.Reply
import Reckoner.Rpn.Conversion.Lemmas

/-!
# Well-formed expressions are converted and evaluated as their trees say

`Reads p ls tokens` is what reading the lexemes `ls` of an expression of precedence `p` does to a
conversion: they come out as `tokens`, except that the last operators may still be held, on top of
all that was held before. The condition `Keeps p held` is that no operator of the expression takes
anything off that. `Derives.reads` builds this up along the grammar, and at the end of the text
nothing is held any more (`Derives.toRpn_eq`).
-/

namespace Reckoner

/-- The least precedence of the operators that a text of this level has outside its groups. -/
def Level.precedence : Level → Nat
  | sum => 1
  | product => 2
  | power => 3
  | signed => 4

theorem BinaryOp.precedence_lt_four (op : BinaryOp) : (Operator.binary op).precedence < 4 := by
  cases op <;> decide

namespace Conversion

/-- Operators that are held, the latest first. -/
def holdAll (ops : List Operator) (held : List Held) : List Held :=
  ops.map .operator ++ held

theorem holdAll_append (ops ops' : List Operator) (held : List Held) :
    holdAll (ops ++ ops') held = holdAll ops (holdAll ops' held) := by
  simp [holdAll]

/-- Operators that are all ready go to the output, then those below them. -/
theorem release_holdAll {ready : Operator → Bool} {ops : List Operator}
    (h : ∀ o ∈ ops, ready o = true) (held : List Held) :
    release ready (holdAll ops held) =
      (ops.map .operator ++ (release ready held).1, (release ready held).2) := by
  induction ops with
  | nil => rfl
  | cons o ops ih =>
    have ho : ready o = true := h o (by simp)
    have hops : ∀ o' ∈ ops, ready o' = true := fun o' ho' => h o' (List.mem_cons_of_mem o ho')
    show release ready (.operator o :: holdAll ops held) = _
    rw [release, if_pos ho, ih hops]
    rfl

/-- No operator of precedence `p` or more, when it is read, takes anything off `held`. -/
def Keeps (p : Nat) (held : List Held) : Prop :=
  ∀ op : BinaryOp, p ≤ (Operator.binary op).precedence →
    release (Operator.binary op).yieldsTo held = ([], held)

namespace Keeps

variable {p q : Nat} {held : List Held}

theorem mono (hpq : p ≤ q) (h : Keeps p held) : Keeps q held :=
  fun op hop => h op (Nat.le_trans hpq hop)

theorem nil (p : Nat) : Keeps p [] := fun _ _ => rfl

theorem opening (p : Nat) (held : List Held) : Keeps p (.opening :: held) := fun _ _ => rfl

/-- Nothing but a sign has precedence 4. -/
theorem four (held : List Held) : Keeps 4 held :=
  fun op hop => absurd op.precedence_lt_four (Nat.not_lt_of_le hop)

/-- An operator that is held stays there while its right operand is read. -/
theorem operator {o : Operator}
    (h : ∀ op : BinaryOp, p ≤ (Operator.binary op).precedence →
      (Operator.binary op).yieldsTo o = false) (held : List Held) :
    Keeps p (.operator o :: held) := by
  intro op hop
  rw [release, if_neg (by simp [h op hop])]

end Keeps

/-- Reading `ls` where an operand is expected puts out `tokens`, the last operators of which may
still be held on top of what was held before. -/
def Reads (p : Nat) (ls : List Lexeme) (tokens : List Token) : Prop :=
  ∀ held, Keeps p held → ∃ (out : List Token) (ops : List Operator),
    transduce step ⟨held, true⟩ ls = .ok (out, ⟨holdAll ops held, false⟩) ∧
      out ++ ops.map .operator = tokens ∧ ∀ o ∈ ops, p ≤ o.precedence

namespace Reads

variable {p q r : Nat} {ls rs : List Lexeme} {ts us : List Token}

theorem mono (hpq : p ≤ q) (h : Reads q ls ts) : Reads p ls ts := by
  intro held hheld
  obtain ⟨out, ops, hrun, htokens, hops⟩ := h held (hheld.mono hpq)
  exact ⟨out, ops, hrun, htokens, fun o ho => Nat.le_trans hpq (hops o ho)⟩

theorem number {run : List Char} {v : Float} (h : Numeral.value run = .ok v) :
    Reads 4 [.number run] [.number v] := by
  intro held _
  have hstep : step ⟨held, true⟩ (.number run) = .ok ([.number v], ⟨held, false⟩) := by
    rw [step, h]
    rfl
  refine ⟨[.number v], [], ?_, rfl, by simp⟩
  rw [transduce_cons_of_ok hstep]
  rfl

theorem neg (h : Reads 4 ls ts) :
    Reads 4 (.operator .sub :: ls) (ts ++ [.operator .neg]) := by
  intro held _
  have hstep : step ⟨held, true⟩ (.operator .sub) = .ok ([], ⟨.operator .neg :: held, true⟩) := by
    rw [step, show role true .sub = .neg from rfl, release_neg]
  obtain ⟨out, ops, hrun, rfl, hops⟩ := h (.operator .neg :: held) (Keeps.four _)
  refine ⟨out, ops ++ [.neg], ?_, by simp, ?_⟩
  · rw [transduce_cons_of_ok hstep, hrun, holdAll_append]
    rfl
  · intro o ho
    rcases List.mem_append.mp ho with ho | ho
    · exact hops o ho
    · obtain rfl : o = .neg := by simpa using ho
      exact Nat.le_refl 4

/-- The parenthesis keeps what is below it from all that happens in the group. -/
theorem group (h : Reads p ls ts) : Reads 4 (.opening :: ls ++ [.closing]) ts := by
  intro held _
  obtain ⟨out, ops, hrun, rfl, -⟩ := h (.opening :: held) (Keeps.opening p held)
  have hopening : step ⟨held, true⟩ .opening = .ok ([], ⟨.opening :: held, true⟩) := rfl
  have hrelease : release (fun _ => true) (holdAll ops (.opening :: held)) =
      (ops.map .operator, .opening :: held) := by
    rw [release_holdAll (fun _ _ => rfl)]
    simp [release]
  have hclosing : step ⟨holdAll ops (.opening :: held), false⟩ .closing =
      .ok (ops.map .operator, ⟨held, false⟩) := by
    rw [step, hrelease]
  refine ⟨out ++ ops.map .operator, [], ?_, by simp, by simp⟩
  rw [List.cons_append, transduce_cons_of_ok hopening, transduce_append, hrun]
  show ((transduce step _ [.closing] >>= _) >>= _) = _
  rw [transduce_cons_of_ok hclosing]
  simp [bind, Except.bind, pure, Except.pure, holdAll]

/-- The operators of the left operand come out when the operator between the operands is read,
and this one is held until the operators of the right operand are out. -/
theorem binary {op : BinaryOp} (hl : Reads q ls ts) (hr : Reads r rs us)
    (hq : (Operator.binary op).precedence ≤ q) (hpr : (Operator.binary op).precedence ≤ r)
    (hyields : ∀ o : Operator, q ≤ o.precedence → (Operator.binary op).yieldsTo o = true)
    (hkeeps : ∀ held, Keeps r (.operator (.binary op) :: held)) :
    Reads (Operator.binary op).precedence (ls ++ .operator op :: rs)
      (ts ++ us ++ [.operator (.binary op)]) := by
  intro held hheld
  obtain ⟨out, ops, hrun, rfl, hops⟩ := hl held (hheld.mono hq)
  obtain ⟨out', ops', hrun', rfl, hops'⟩ := hr (.operator (.binary op) :: held) (hkeeps held)
  have hrelease : release (Operator.binary op).yieldsTo (holdAll ops held) =
      (ops.map .operator, held) := by
    rw [release_holdAll (fun o ho => hyields o (hops o ho)), hheld op (Nat.le_refl _),
      List.append_nil]
  have hstep : step ⟨holdAll ops held, false⟩ (.operator op) =
      .ok (ops.map .operator, ⟨.operator (.binary op) :: held, true⟩) := by
    rw [step, show role false op = .binary op by simp [role], hrelease]
  refine ⟨out ++ ops.map .operator ++ out', ops' ++ [.binary op], ?_, by simp, ?_⟩
  · rw [transduce_append, hrun]
    show (transduce step _ (.operator op :: rs) >>= _) = _
    rw [transduce_cons_of_ok hstep, hrun', holdAll_append]
    simp [bind, Except.bind, pure, Except.pure, holdAll]
  · intro o ho
    rcases List.mem_append.mp ho with ho | ho
    · exact Nat.le_trans hpr (hops' o ho)
    · obtain rfl : o = .binary op := by simpa using ho
      exact Nat.le_refl _

theorem pow (hl : Reads 4 ls ts) (hr : Reads 3 rs us) :
    Reads 3 (ls ++ .operator .pow :: rs) (ts ++ us ++ [.operator (.binary .pow)]) := by
  have hp : (Operator.binary .pow).precedence = 3 := rfl
  rw [← hp]
  refine binary hl hr (by omega) (by omega) (fun o ho => ?_) (Keeps.operator fun op hop => ?_)
  · exact decide_eq_true (Nat.lt_of_lt_of_le (by decide) ho)
  · cases op <;> first | rfl | exact absurd hop (by decide)

theorem product {op : BinaryOp} (hop : op = .mul ∨ op = .div) (hl : Reads 2 ls ts)
    (hr : Reads 3 rs us) :
    Reads 2 (ls ++ .operator op :: rs) (ts ++ us ++ [.operator (.binary op)]) := by
  have hp : (Operator.binary op).precedence = 2 := by rcases hop with rfl | rfl <;> rfl
  rw [← hp]
  refine binary hl hr (by omega) (by omega) (fun o ho => ?_) (Keeps.operator fun op' hop' => ?_)
  · rcases hop with rfl | rfl <;> exact decide_eq_true ho
  · rcases hop with rfl | rfl <;> cases op' <;> first | rfl | exact absurd hop' (by decide)

theorem sum {op : BinaryOp} (hop : op = .add ∨ op = .sub) (hl : Reads 1 ls ts)
    (hr : Reads 2 rs us) :
    Reads 1 (ls ++ .operator op :: rs) (ts ++ us ++ [.operator (.binary op)]) := by
  have hp : (Operator.binary op).precedence = 1 := by rcases hop with rfl | rfl <;> rfl
  rw [← hp]
  refine binary hl hr (by omega) (by omega) (fun o ho => ?_) (Keeps.operator fun op' hop' => ?_)
  · rcases hop with rfl | rfl <;> exact decide_eq_true ho
  · rcases hop with rfl | rfl <;> cases op' <;> first | rfl | exact absurd hop' (by decide)

end Reads

end Conversion

open Conversion

namespace Derives

variable {level : Level} {cs : List Char} {e : Expr}

theorem reads (h : Derives level cs e) : Reads level.precedence (lexemes cs) e.tokens := by
  induction h with
  | number numeral reads =>
    rw [numeral.lexemes_eq]
    exact Reads.number reads
  | group _ ih =>
    rw [lexemes_group]
    exact ih.group
  | neg _ ih =>
    rw [lexemes_sign]
    exact ih.neg
  | ofSigned _ ih => exact ih.mono (by decide)
  | pow _ _ ihl ihr =>
    rw [show '^' = BinaryOp.pow.symbol from rfl, lexemes_operator]
    exact ihl.pow ihr
  | ofPower _ ih => exact ih.mono (by decide)
  | product hop _ _ ihl ihr =>
    rw [lexemes_operator]
    exact Reads.product hop ihl ihr
  | ofProduct _ ih => exact ih.mono (by decide)
  | sum hop _ _ ihl ihr =>
    rw [lexemes_operator]
    exact Reads.sum hop ihl ihr

theorem ne_nil (h : Derives level cs e) : cs ≠ [] := by
  induction h with
  | number numeral _ => exact numeral.ne_nil
  | ofSigned _ ih | ofPower _ ih | ofProduct _ ih => exact ih
  | _ => simp

theorem isBlank_eq_false (h : Derives level cs e) : ∀ c ∈ cs, isBlank c = false := by
  have hsymbol : ∀ op : BinaryOp, isBlank op.symbol = false := by intro op; cases op <;> rfl
  have hbinary {cs ds : List Char} (op : BinaryOp) (hcs : ∀ c ∈ cs, isBlank c = false)
      (hds : ∀ c ∈ ds, isBlank c = false) : ∀ c ∈ cs ++ op.symbol :: ds, isBlank c = false := by
    intro c hc
    rcases List.mem_append.mp hc with hc | hc
    · exact hcs c hc
    · rcases List.mem_cons.mp hc with rfl | hc
      · exact hsymbol op
      · exact hds c hc
  induction h with
  | number numeral _ =>
    intro c hc
    rcases numeral.chars c hc with hd | rfl
    · exact isBlank_of_isDigit hd
    · rfl
  | group _ ih =>
    intro c hc
    simp only [List.cons_append, List.mem_cons, List.mem_append, List.not_mem_nil, or_false] at hc
    rcases hc with rfl | hc | rfl
    · rfl
    · exact ih c hc
    · rfl
  | neg _ ih =>
    intro c hc
    rcases List.mem_cons.mp hc with rfl | hc
    · rfl
    · exact ih c hc
  | ofSigned _ ih | ofPower _ ih | ofProduct _ ih => exact ih
  | pow _ _ ihl ihr => exact hbinary .pow ihl ihr
  | product _ _ _ ihl ihr | sum _ _ _ ihl ihr => exact hbinary _ ihl ihr

theorem toRpn_eq (h : Derives level cs e) : toRpn cs = .ok e.tokens := by
  obtain ⟨out, ops, hrun, htokens, -⟩ := h.reads [] (Keeps.nil _)
  have hrelease : release (fun _ => true) (holdAll ops []) = (ops.map .operator, []) := by
    rw [release_holdAll (fun _ _ => rfl)]
    simp [release]
  rw [toRpn, start, hrun]
  show (finish (holdAll ops []) >>= _) = _
  rw [finish, hrelease, ← htokens]
  rfl

/-- However the text is spaced, its normal form is the text. -/
theorem normalise_eq {ds : List Char} (h : Derives level cs e) (hds : Spaced cs ds) :
    normalise ds = .ok cs := by
  refine normalise_eq_ok ?_ h.ne_nil
  rw [hds.withoutBlanks_eq, withoutBlanks_eq_self h.isBlank_eq_false]

theorem calculate_eq {s : String} (h : Derives level cs e) (hs : Spaced cs s.toList) :
    calculate s = .ok ⟨e.tokens, e.steps, e.value⟩ := by
  rw [calculate, h.normalise_eq hs]
  show (toRpn cs >>= _) = _
  rw [h.toRpn_eq]
  show (evaluate e.tokens >>= _) = _
  rw [e.evaluate_tokens]
  rfl

end Derives

/-- A text of the grammar, with blanks anywhere, is converted to the list of its tree in reverse
Polish notation, and the reply has the value and the working of the tree. -/
theorem toExpression_of_derives {cs : List Char} {e : Expr} (h : Derives .sum cs e) {s : String}
    (hs : Spaced cs s.toList) :
    (normalise s.toList >>= toRpn) = .ok e.tokens ∧
      Reply.toExpression s = .evaluated s (e.steps.map Step.text) e.value := by
  refine ⟨?_, ?_⟩
  · rw [h.normalise_eq hs]
    exact h.toRpn_eq
  · rw [Reply.toExpression, h.calculate_eq hs]
    rfl

/-- The tree of `(2^-3^2)*4`. -/
def powerTimesFour : Expr :=
  .binary .mul
    (.binary .pow (.number (Decimal.toFloat ⟨2, 0⟩))
      (.binary .pow (.neg (.number (Decimal.toFloat ⟨3, 0⟩))) (.number (Decimal.toFloat ⟨2, 0⟩))))
    (.number (Decimal.toFloat ⟨4, 0⟩))

theorem derives_powerTimesFour : Derives .sum "(2^-3^2)*4".toList powerTimesFour := by
  have two : Derives .signed ['2'] (.number (Decimal.toFloat ⟨2, 0⟩)) :=
    .number (isNumeral_of_isDigit rfl) rfl
  have three : Derives .signed ['3'] (.number (Decimal.toFloat ⟨3, 0⟩)) :=
    .number (isNumeral_of_isDigit rfl) rfl
  have four : Derives .signed ['4'] (.number (Decimal.toFloat ⟨4, 0⟩)) :=
    .number (isNumeral_of_isDigit rfl) rfl
  have inner : Derives .power "2^-3^2".toList _ := .pow two (.pow three.neg (.ofSigned two))
  have outer : Derives .signed "(2^-3^2)".toList _ := .group (.ofProduct (.ofPower inner))
  exact .ofProduct (.product (.inl rfl) (.ofPower (.ofSigned outer)) (.ofSigned four))

theorem toExpression_powerTimesFour :
    Derives .sum "(2^-3^2)*4".toList powerTimesFour ∧
      Spaced "(2^-3^2)*4".toList " (2 ^-3^2)*4".toList ∧
      (normalise " (2 ^-3^2)*4".toList >>= toRpn) = .ok powerTimesFour.tokens ∧
      Reply.toExpression " (2 ^-3^2)*4" =
        .evaluated " (2 ^-3^2)*4" (powerTimesFour.steps.map Step.text) powerTimesFour.value := by
  have hspaced : Spaced "(2^-3^2)*4".toList " (2 ^-3^2)*4".toList :=
    .blank rfl (.char _ (.char _ (.blank rfl (.refl _))))
  exact ⟨derives_powerTimesFour, hspaced, toExpression_of_derives derives_powerTimesFour hspaced⟩

end Reckoner
