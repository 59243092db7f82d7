import Mathlib.Data.List.Forall2
import Reckoner.Rpn.Evaluation
import Reckoner.Rpn.Inventory

/-!
# Where the numbers of a working come from

What a step is made from and what comes out of it are the entries of a line, as numbers
(`Step.line`) or as the texts that are written (`Step.text_eq`). An operand is a number of the
expression or the result of an earlier line, and a `Source` names one of these by its place.
`Accounted` says of the lines of a working, and of what stands on the stack after it, that every
source is used exactly once: as an operand of a later line, or on the stack. What is accounted for
as numbers is accounted for as texts (`Accounted.map`).
-/

namespace Reckoner

/-- An operator with its operands and its result. -/
inductive Line (α : Type) where
  | negation (operand result : α)
  | operation (op : BinaryOp) (left right result : α)
  deriving DecidableEq, Repr

namespace Line

variable {α β : Type}

def operator : Line α → Operator
  | negation _ _ => .neg
  | operation op _ _ _ => .binary op

/-- The operands from left to right. -/
def operands : Line α → List α
  | negation operand _ => [operand]
  | operation _ left right _ => [left, right]

def result : Line α → α
  | negation _ result => result
  | operation _ _ _ result => result

def map (f : α → β) : Line α → Line β
  | negation operand result => negation (f operand) (f result)
  | operation op left right result => operation op (f left) (f right) (f result)

def text : Line String → String
  | negation operand result => "negate(" ++ operand ++ ") = " ++ result
  | operation op left right result =>
    left ++ " " ++ op.symbol.toString ++ " " ++ right ++ " = " ++ result

@[simp]
theorem operator_map (f : α → β) (l : Line α) : (l.map f).operator = l.operator := by
  cases l <;> rfl

@[simp]
theorem operands_map (f : α → β) (l : Line α) : (l.map f).operands = l.operands.map f := by
  cases l <;> rfl

@[simp]
theorem result_map (f : α → β) (l : Line α) : (l.map f).result = f l.result := by
  cases l <;> rfl

end Line

namespace Step

def line : Step → Line Float
  | s@(negation operand) => .negation operand s.value
  | s@(operation op left right) => .operation op left right s.value

/-- A step is written with the texts of its operands and of its result. -/
theorem text_eq (s : Step) : s.text = (s.line.map stepText).text := by
  cases s <;> rfl

/-- All that reading a token can do. -/
theorem ofToken_cases {stack stack' : List Float} {t : Token} {steps : List Step}
    (h : ofToken stack t = .ok (steps, stack')) :
    (∃ v, t = .number v ∧ steps = [] ∧ stack' = v :: stack) ∨
      ∃ s below, t = .operator s.line.operator ∧ steps = [s] ∧
        stack = s.line.operands.reverse ++ below ∧ stack' = s.line.result :: below := by
  unfold ofToken at h
  split at h
  · cases h
    exact .inl ⟨_, rfl, rfl, rfl⟩
  · cases h
    exact .inr ⟨_, _, rfl, rfl, rfl, rfl⟩
  · cases h
    exact .inr ⟨_, _, rfl, rfl, rfl, rfl⟩
  · cases h

end Step

inductive Source where
  /-- The number of the expression at this place among its numbers. -/
  | literal (place : Nat)
  /-- The result of the line at this place in the working. -/
  | result (place : Nat)
  deriving DecidableEq, Repr

section Accounts

variable {α β : Type}

namespace Source

/-- All sources, each of them once. -/
def all (literals lines : Nat) : List Source :=
  (List.range literals).map literal ++ (List.range lines).map result

def value? (literals : List α) (lines : List (Line α)) : Source → Option α
  | literal place => literals[place]?
  | result place => lines[place]?.map Line.result

/-- The source can be used by the line at this place. -/
def Precedes (source : Source) (place : Nat) : Prop :=
  ∀ earlier, source = result earlier → earlier < place

end Source

/-- The operands of a working in their order, each with the place of its line. -/
def allOperands (lines : List (Line α)) : List (Nat × α) :=
  lines.zipIdx.flatMap fun (l, place) => l.operands.map (place, ·)

/-- The sources `used` are where the operands of the lines come from. -/
def Supplies (literals : List α) (lines : List (Line α)) (used : List Source) : Prop :=
  List.Forall₂ (fun source operand => source.value? literals lines = some operand.2 ∧
    source.Precedes operand.1) used (allOperands lines)

/-- Every number of the expression and the result of every line is used exactly once: it is an
operand of a later line, or still on the stack. -/
def Accounted (literals : List α) (lines : List (Line α)) (stack : List α) : Prop :=
  ∃ pending used, List.Forall₂ (fun source v => source.value? literals lines = some v) pending stack ∧
    Supplies literals lines used ∧
    (pending ++ used).Perm (Source.all literals.length lines.length)

variable {literals : List α} {lines : List (Line α)} {stack : List α}

/-! ### Reading one token more -/

namespace Source

variable {source : Source} {v : α}

theorem value?_append_literals (h : source.value? literals lines = some v) (more : List α) :
    source.value? (literals ++ more) lines = some v := by
  cases source with
  | literal place => exact (List.getElem?_append_left (List.getElem?_eq_some_iff.mp h).1).trans h
  | result place => exact h

theorem value?_append_lines (h : source.value? literals lines = some v) (more : List (Line α)) :
    source.value? literals (lines ++ more) = some v := by
  cases source with
  | literal place => exact h
  | result place =>
    obtain ⟨l, hl, rfl⟩ := Option.map_eq_some_iff.mp h
    have hplace := (List.getElem?_eq_some_iff.mp hl).1
    rw [value?, List.getElem?_append_left hplace, hl]
    rfl

theorem precedes_length (h : source.value? literals lines = some v) :
    source.Precedes lines.length := by
  rintro earlier rfl
  obtain ⟨l, hl, -⟩ := Option.map_eq_some_iff.mp h
  exact (List.getElem?_eq_some_iff.mp hl).1

theorem all_succ_literals (m n : Nat) : (all (m + 1) n).Perm (literal m :: all m n) := by
  rw [all, List.range_succ, List.map_append, List.append_assoc]
  exact List.perm_middle

theorem all_succ_lines (m n : Nat) : (all m (n + 1)).Perm (result n :: all m n) := by
  rw [all, List.range_succ, List.map_append, ← List.append_assoc]
  exact List.perm_append_singleton _ _

end Source

variable {used : List Source}

theorem allOperands_append (lines : List (Line α)) (l : Line α) :
    allOperands (lines ++ [l]) = allOperands lines ++ l.operands.map (lines.length, ·) := by
  simp [allOperands, List.zipIdx_append]

theorem Supplies.append (h : Supplies literals lines used) (more : List α) :
    Supplies (literals ++ more) lines used :=
  h.imp fun _ _ hsource => ⟨Source.value?_append_literals hsource.1 more, hsource.2⟩

theorem Supplies.line (h : Supplies literals lines used) {l : Line α} {sources : List Source}
    (hl : List.Forall₂ (fun source v => source.value? literals lines = some v) sources
      l.operands) : Supplies literals (lines ++ [l]) (used ++ sources) := by
  rw [Supplies, allOperands_append]
  refine List.rel_append (h.imp fun _ _ hsource => ?_) ?_
  · exact ⟨Source.value?_append_lines hsource.1 [l], hsource.2⟩
  · rw [List.forall₂_map_right_iff]
    exact hl.imp fun _ _ hv => ⟨Source.value?_append_lines hv [l], Source.precedes_length hv⟩

theorem accounted_nil : Accounted ([] : List α) [] [] :=
  ⟨[], [], .nil, .nil, .nil⟩

theorem Accounted.number (h : Accounted literals lines stack) (v : α) :
    Accounted (literals ++ [v]) lines (v :: stack) := by
  obtain ⟨pending, used, hpending, hused, hall⟩ := h
  refine ⟨.literal literals.length :: pending, used, .cons ?_ ?_, hused.append [v], ?_⟩
  · simp [Source.value?]
  · exact hpending.imp fun _ _ hw => Source.value?_append_literals hw [v]
  · rw [List.length_append]
    exact (hall.cons _).trans (Source.all_succ_literals _ _).symm

/-- A line takes its operands off the stack, the last of them first, and puts its result there. -/
theorem Accounted.line {l : Line α} (h : Accounted literals lines (l.operands.reverse ++ stack)) :
    Accounted literals (lines ++ [l]) (l.result :: stack) := by
  obtain ⟨pending, used, hpending, hused, hall⟩ := h
  have htaken := List.forall₂_take_append _ _ _ hpending
  have hleft := List.forall₂_drop_append _ _ _ hpending
  rw [← List.take_append_drop l.operands.reverse.length pending] at hall
  generalize pending.take l.operands.reverse.length = taken at htaken hall
  generalize pending.drop l.operands.reverse.length = left at hleft hall
  refine ⟨.result lines.length :: left, used ++ taken.reverse, .cons ?_ ?_, hused.line ?_, ?_⟩
  · simp [Source.value?]
  · exact hleft.imp fun _ _ hv => Source.value?_append_lines hv [l]
  · exact List.forall₂_reverse_iff.mp (by rwa [List.reverse_reverse])
  · rw [List.length_append]
    refine List.Perm.trans (.cons _ ?_) (Source.all_succ_lines _ _).symm
    refine List.Perm.trans ?_ hall
    calc left ++ (used ++ taken.reverse)
        _ = (left ++ used) ++ taken.reverse := (List.append_assoc ..).symm
        List.Perm _ (taken.reverse ++ (left ++ used)) := List.perm_append_comm
        List.Perm _ (taken ++ (left ++ used)) := (List.reverse_perm taken).append_right _
        _ = taken ++ left ++ used := (List.append_assoc ..).symm

/-! ### From numbers to texts -/

theorem Source.value?_map {source : Source} {v : α} (f : α → β)
    (h : source.value? literals lines = some v) :
    source.value? (literals.map f) (lines.map (Line.map f)) = some (f v) := by
  cases source with
  | literal place =>
    have hplace : literals[place]? = some v := h
    simp [value?, hplace]
  | result place =>
    obtain ⟨l, hl, rfl⟩ := Option.map_eq_some_iff.mp h
    simp [value?, hl]

theorem allOperands_map (f : α → β) (lines : List (Line α)) :
    allOperands (lines.map (Line.map f)) = (allOperands lines).map (Prod.map id f) := by
  simp [allOperands, List.zipIdx_map, List.flatMap_map, List.map_flatMap, Function.comp_def]

theorem Accounted.map (f : α → β) (h : Accounted literals lines stack) :
    Accounted (literals.map f) (lines.map (Line.map f)) (stack.map f) := by
  obtain ⟨pending, used, hpending, hused, hall⟩ := h
  refine ⟨pending, used, ?_, ?_, by simpa using hall⟩
  · rw [List.forall₂_map_right_iff]
    exact hpending.imp fun _ _ hv => Source.value?_map f hv
  · rw [Supplies, allOperands_map, List.forall₂_map_right_iff]
    exact hused.imp fun _ _ hv => ⟨Source.value?_map f hv.1, hv.2⟩

end Accounts

end Reckoner
